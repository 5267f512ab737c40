/-
  Keys, nonces and AES-GCM (`key.rs`, `nonce.rs`, `aead.rs`).

  The cipher itself is that of another crate: it is a parameter (`AesGcm`), which
  seals and opens under a key of 16 or 32 bytes and a nonce of 12.

  * `opens_sealed`: what was sealed is opened, if the cipher does so.
-/
import EmatixParquet.Codec.Plain

namespace EmatixParquet

open Wire

/-- The failures of sealing and opening. -/
inductive CryptoError where
  | keyNotFound (context : String)
  | authenticationFailed
  | unsupportedAlgorithm (name : String)
  | malformedNonce (got : ℕ)
  | shortCiphertext (got need : ℕ)
  | invalidKeyLength (got : ℕ)
  deriving DecidableEq, Repr

/-- Their messages. -/
def CryptoError.display : CryptoError → String
  | keyNotFound context => s!"no key returned by KeyRetriever for {context}"
  | authenticationFailed => "AES-GCM authentication failed (tag mismatch)"
  | unsupportedAlgorithm name => s!"unsupported encryption algorithm: {name}"
  | malformedNonce got => s!"AES-GCM nonce must be 12 bytes (got {got})"
  | shortCiphertext got need => s!"ciphertext is {got} bytes, need at least {need}"
  | invalidKeyLength got => s!"AES key must be 16, 24, or 32 bytes (got {got})"

/-- `Key`: its width selects the cipher. -/
inductive AesKey where
  | aes128 (k : {bytes : Bytes // bytes.length = 16})
  | aes192 (k : {bytes : Bytes // bytes.length = 24})
  | aes256 (k : {bytes : Bytes // bytes.length = 32})
  deriving DecidableEq

/-- The bytes of a key that there is a cipher for: none ships for 192 bits. -/
def AesKey.cipher : AesKey → Except CryptoError Bytes
  | aes128 k => .ok k.1
  | aes192 _ => .error (.unsupportedAlgorithm "AES-192-GCM")
  | aes256 k => .ok k.1

/-- `NONCE_LEN`. -/
def nonceLen : ℕ := 12

/-- `TAG_LEN`. -/
def tagLen : ℕ := 16

/-- `[u8; NONCE_LEN]`. -/
abbrev GcmNonce := {bytes : Bytes // bytes.length = nonceLen}

/-- A source of nonces with states in `σ`. -/
class NonceSource (σ : Type) where
  next : σ → Except CryptoError (GcmNonce × σ)

/-- A counter behind four bytes of prefix. -/
structure FixedNonceSource where
  pre : {bytes : Bytes // bytes.length = 4}
  counter : UInt64
  deriving DecidableEq

instance : NonceSource FixedNonceSource where
  next s := .ok (⟨s.pre.1 ++ leBytes 8 s.counter.toNat, by
    rw [List.length_append, s.pre.2, length_leBytes]; rfl⟩, { s with counter := s.counter + 1 })

/-- `Aes128Gcm` and `Aes256Gcm`, by the bytes of the key; both append the tag. -/
class AesGcm where
  encrypt (key nonce aad msg : Bytes) : Option Bytes
  decrypt (key nonce aad msg : Bytes) : Option Bytes

/-- `map_err(|_| AuthenticationFailed)`. -/
def orUnauthentic : Option Bytes → Except CryptoError Bytes
  | some bytes => .ok bytes
  | none => .error .authenticationFailed

theorem orUnauthentic_eq_ok {o : Option Bytes} {bytes : Bytes} :
    orUnauthentic o = .ok bytes ↔ o = some bytes := by
  cases o <;> simp [orUnauthentic]

section
variable [AesGcm]

/-- `seal`. -/
def aeadSeal (key : AesKey) (nonce aad plaintext : Bytes) : Except CryptoError Bytes :=
  if nonce.length ≠ nonceLen then .error (.malformedNonce nonce.length)
  else do
    let k ← key.cipher
    orUnauthentic (AesGcm.encrypt k nonce aad plaintext)

/-- `open`. -/
def aeadOpen (key : AesKey) (nonce aad ciphertextAndTag : Bytes) : Except CryptoError Bytes :=
  if nonce.length ≠ nonceLen then .error (.malformedNonce nonce.length)
  else if ciphertextAndTag.length < tagLen then
    .error (.shortCiphertext ciphertextAndTag.length tagLen)
  else do
    let k ← key.cipher
    orUnauthentic (AesGcm.decrypt k nonce aad ciphertextAndTag)

/-- What the cipher seals, it opens under the same key, nonce and AAD; and the
    tag is there. -/
structure OpensSealed : Prop where
  tag : ∀ {key nonce aad msg ct}, AesGcm.encrypt key nonce aad msg = some ct → tagLen ≤ ct.length
  opens : ∀ {key nonce aad msg ct}, AesGcm.encrypt key nonce aad msg = some ct →
    AesGcm.decrypt key nonce aad ct = some msg

/-- What `seal` returned is there with its tag, and `open` gives the text back. -/
theorem opens_sealed (h : OpensSealed) {key : AesKey} {nonce aad plaintext ct : Bytes}
    (hseal : aeadSeal key nonce aad plaintext = .ok ct) :
    tagLen ≤ ct.length ∧ aeadOpen key nonce aad ct = .ok plaintext := by
  unfold aeadSeal at hseal
  split at hseal
  · cases hseal
  · next hnonce =>
    obtain ⟨k, hk, hseal⟩ := bind_eq_ok.mp hseal
    have hct := orUnauthentic_eq_ok.mp hseal
    have htag := h.tag hct
    refine ⟨htag, ?_⟩
    rw [aeadOpen, if_neg hnonce, if_neg (Nat.not_lt.mpr htag), hk, ok_bind]
    exact orUnauthentic_eq_ok.mpr (h.opens hct)

end

end EmatixParquet
