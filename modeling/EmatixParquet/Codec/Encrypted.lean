/-
  Encrypted modules (`encrypted.rs`).

  A module is framed by its length, a nonce, and what AES-GCM makes of it under
  the AAD of its place in the file.

  * `readFrame_moduleFrame`: a frame is read back;
  * `decryptModule_encryptModule`: and so is a module;
  * `modules_not_interchangeable`: no module passes for another.
-/
import EmatixParquet.Crypto.Aad
import EmatixParquet.Crypto.Aead

namespace EmatixParquet

open Wire

/-- `SIZE_PREFIX_LEN`. -/
def sizePrefixLen : ℕ := 4

/-- What the modules of a column chunk have in common. -/
structure ColumnDecryptContext where
  key : AesKey
  aadPrefix : Option Bytes
  aadFileUnique : Bytes
  rgOrdinal : Int16
  colOrdinal : Int16

/-- What sealing a column's modules takes: the opening context and a nonce source. -/
structure ColumnEncryptContext (σ : Type) extends ColumnDecryptContext where
  nonces : σ

/-- `map_crypto_err`. -/
def mapCryptoErr (e : CryptoError) : CodecError :=
  .decompress s!"PME decrypt failed: {e.display}"

/-- `.map_err(map_crypto_err)`. -/
def orCryptoErr {α : Type} (x : Except CryptoError α) : Res CodecError α :=
  x.mapError fun e => .err (mapCryptoErr e)

/-- `[size: u32 LE][nonce][ciphertext][tag]`. -/
def moduleFrame (nonce ctAndTag : Bytes) : Bytes :=
  leBytes 4 (nonceLen + ctAndTag.length) ++ (nonce ++ ctAndTag)

/-- The nonce and the ciphertext of the frame at the start of some bytes, and where
    it ends. -/
def readFrame (bytes : Bytes) : Res CodecError (Bytes × Bytes × ℕ) :=
  if bytes.length < sizePrefixLen then
    orCryptoErr (.error (.shortCiphertext bytes.length sizePrefixLen))
  else
    let size := leNat (bytes.take sizePrefixLen)
    let total := sizePrefixLen + size
    if bytes.length < total then orCryptoErr (.error (.shortCiphertext bytes.length total))
    else if size < nonceLen + tagLen then
      orCryptoErr (.error (.shortCiphertext size (nonceLen + tagLen)))
    else .ok ((bytes.take (sizePrefixLen + nonceLen)).drop sizePrefixLen,
      (bytes.take total).drop (sizePrefixLen + nonceLen), total)

section
variable [AesGcm] (build : Build)

/-- A module opened with the AAD of its place; the length of its frame comes along. -/
def decryptModule (bytes : Bytes) (ctx : ColumnDecryptContext) (module : ModuleType)
    (pageOrdinal : Option Int16) : Res CodecError (Bytes × ℕ) := do
  let (nonce, ctAndTag, total) ← readFrame bytes
  let aad ← buildModuleAad build ctx.aadPrefix ctx.aadFileUnique module ctx.rgOrdinal
    ctx.colOrdinal pageOrdinal
  let plaintext ← orCryptoErr (aeadOpen ctx.key nonce aad ctAndTag)
  pure (plaintext, total)

/-- The frame, and the context with the nonces that are left. -/
def encryptModule {σ : Type} [NonceSource σ] (plaintext : Bytes) (ctx : ColumnEncryptContext σ)
    (module : ModuleType) (pageOrdinal : Option Int16) :
    Res CodecError (Bytes × ColumnEncryptContext σ) := do
  let aad ← buildModuleAad build ctx.aadPrefix ctx.aadFileUnique module ctx.rgOrdinal
    ctx.colOrdinal pageOrdinal
  let (nonce, nonces) ← orCryptoErr (NonceSource.next ctx.nonces)
  let ctAndTag ← orCryptoErr (aeadSeal ctx.key nonce.1 aad plaintext)
  pure (moduleFrame nonce.1 ctAndTag, { ctx with nonces })

end

/-! ## Frames -/

theorem orCryptoErr_eq_ok {α : Type} {x : Except CryptoError α} {a : α} :
    orCryptoErr x = .ok a ↔ x = .ok a := by
  cases x <;> simp [orCryptoErr, Except.mapError]

theorem readFrame_eq_ok {bytes : Bytes} {r : Bytes × Bytes × ℕ} (h : readFrame bytes = .ok r) :
    28 ≤ leNat (bytes.take 4) ∧ r = ((bytes.take 16).drop 4,
      (bytes.take (4 + leNat (bytes.take 4))).drop 16, 4 + leNat (bytes.take 4)) := by
  unfold readFrame at h
  split at h
  · cases h
  · dsimp only at h
    split at h
    · cases h
    · split at h
      · cases h
      · next hsize =>
        cases h
        exact ⟨Nat.not_lt.mp hsize, rfl⟩

/-- The parts of a frame, whatever follows it. -/
theorem moduleFrame_append {nonce : Bytes} (hnonce : nonce.length = nonceLen) (ct rest : Bytes) :
    (moduleFrame nonce ct ++ rest).take 4 = leBytes 4 (nonceLen + ct.length) ∧
      ((moduleFrame nonce ct ++ rest).take 16).drop 4 = nonce ∧
      ∀ k, ((moduleFrame nonce ct ++ rest).take (16 + k)).drop 16 = (ct ++ rest).take k := by
  have hpre : (leBytes 4 (nonceLen + ct.length)).length = 4 := length_leBytes 4 _
  have hhead : (leBytes 4 (nonceLen + ct.length) ++ nonce).length = 16 := by
    rw [List.length_append, hpre, hnonce]
    rfl
  have hsplit : moduleFrame nonce ct ++ rest
      = (leBytes 4 (nonceLen + ct.length) ++ nonce) ++ (ct ++ rest) := by
    simp [moduleFrame]
  rw [hsplit]
  refine ⟨?_, ?_, fun k => ?_⟩
  · rw [List.append_assoc, List.take_left' hpre]
  · rw [List.take_left' hhead, List.drop_left' hpre]
  · rw [List.drop_take, List.drop_left' hhead, Nat.add_sub_cancel_left]

/-- What is read of a frame is its nonce and a part of its ciphertext, which may be
    cut short: its length is counted in 32 bits. -/
theorem readFrame_moduleFrame {nonce ct rest : Bytes} (hnonce : nonce.length = nonceLen)
    {r : Bytes × Bytes × ℕ} (h : readFrame (moduleFrame nonce ct ++ rest) = .ok r) :
    r.1 = nonce ∧ r.2.1 <+: ct := by
  obtain ⟨hpre, hhead, hbody⟩ := moduleFrame_append hnonce ct rest
  obtain ⟨hsize, rfl⟩ := readFrame_eq_ok h
  refine ⟨hhead, ?_⟩
  dsimp only
  rw [hpre, leNat_leBytes] at hsize ⊢
  have hmod := Nat.mod_le (nonceLen + ct.length) (256 ^ 4)
  have hnonceLen : nonceLen = 12 := rfl
  have hcut : 4 + (nonceLen + ct.length) % 256 ^ 4
      = 16 + ((nonceLen + ct.length) % 256 ^ 4 - 12) := by omega
  rw [hcut, hbody, List.take_append_of_le_length (by omega)]
  exact List.take_prefix _ ct

/-- A frame whose length fits is read back. -/
theorem readFrame_ok {nonce ct : Bytes} (hnonce : nonce.length = nonceLen)
    (htag : tagLen ≤ ct.length) (hfits : nonceLen + ct.length < 2 ^ 32) (rest : Bytes) :
    readFrame (moduleFrame nonce ct ++ rest)
      = .ok (nonce, ct, (moduleFrame nonce ct).length) := by
  obtain ⟨hpre, hhead, hbody⟩ := moduleFrame_append hnonce ct rest
  have hsize : leNat ((moduleFrame nonce ct ++ rest).take 4) = nonceLen + ct.length := by
    rw [hpre, leNat_leBytes]
    exact Nat.mod_eq_of_lt hfits
  have hlen : (moduleFrame nonce ct).length = 4 + (nonceLen + ct.length) := by
    rw [moduleFrame, List.length_append, List.length_append, hnonce, length_leBytes]
  have hbytes : (moduleFrame nonce ct ++ rest).length = 4 + (nonceLen + ct.length) + rest.length := by
    rw [List.length_append, hlen]
  have hct := hbody ct.length
  rw [List.take_left] at hct
  unfold readFrame
  rw [if_neg (by rw [hbytes, sizePrefixLen]; omega)]
  dsimp only [sizePrefixLen]
  rw [hsize, if_neg (by omega), if_neg (by omega), hlen]
  have hcut : 4 + (nonceLen + ct.length) = 16 + ct.length := by rw [nonceLen]; omega
  rw [hcut]
  exact congrArg Except.ok (Prod.ext hhead (Prod.ext hct rfl))

theorem length_lt_of_frame {nonce ct : Bytes} (hnonce : nonce.length = nonceLen)
    (hfits : (moduleFrame nonce ct).length < 2 ^ 32) : nonceLen + ct.length < 2 ^ 32 := by
  rw [moduleFrame, List.length_append, List.length_append, hnonce] at hfits
  exact Nat.lt_of_le_of_lt (Nat.le_add_left _ _) hfits

/-! ## Modules -/

section
variable [AesGcm] {build : Build} {σ : Type} [NonceSource σ]

/-- A frame is made of a nonce and of what `seal` returned under the AAD of the
    module. -/
theorem encryptModule_eq_ok {plaintext frame : Bytes} {ctx ctx₁ : ColumnEncryptContext σ}
    {module : ModuleType} {page : Option Int16}
    (h : encryptModule build plaintext ctx module page = .ok (frame, ctx₁)) :
    ∃ (aad : Bytes) (nonce : GcmNonce) (ct : Bytes),
      (buildModuleAad build ctx.aadPrefix ctx.aadFileUnique module ctx.rgOrdinal ctx.colOrdinal
        page : Res CodecError Bytes) = .ok aad ∧
      aeadSeal ctx.key nonce.1 aad plaintext = .ok ct ∧ frame = moduleFrame nonce.1 ct ∧
      ctx₁.toColumnDecryptContext = ctx.toColumnDecryptContext := by
  obtain ⟨aad, haad, h⟩ := bind_eq_ok.mp h
  obtain ⟨⟨nonce, nonces⟩, -, h⟩ := bind_eq_ok.mp h
  obtain ⟨ct, hct, h⟩ := bind_eq_ok.mp h
  cases h
  exact ⟨aad, nonce, ct, haad, orCryptoErr_eq_ok.mp hct, rfl, rfl⟩

/-- **A module is read back**, whatever follows its frame. -/
theorem decryptModule_encryptModule (hopens : OpensSealed) {plaintext frame : Bytes}
    {ctx ctx₁ : ColumnEncryptContext σ} {module : ModuleType} {page : Option Int16}
    (h : encryptModule build plaintext ctx module page = .ok (frame, ctx₁))
    (hfits : frame.length < 2 ^ 32) (rest : Bytes) :
    decryptModule build (frame ++ rest) ctx.toColumnDecryptContext module page
      = .ok (plaintext, frame.length) := by
  obtain ⟨aad, nonce, ct, haad, hseal, rfl, -⟩ := encryptModule_eq_ok h
  obtain ⟨htag, hopen⟩ := opens_sealed hopens hseal
  rw [decryptModule, readFrame_ok nonce.2 htag (length_lt_of_frame nonce.2 hfits), ok_bind]
  dsimp only
  rw [haad, ok_bind, hopen]
  rfl

/-- What was sealed under an AAD, whole or cut short, does not open under another. -/
def RejectsOtherAad : Prop :=
  ∀ {key key' nonce aad aad' msg ct ct'}, AesGcm.encrypt key nonce aad msg = some ct →
    ct' <+: ct → aad ≠ aad' → AesGcm.decrypt key' nonce aad' ct' = none

theorem open_eq_error_of_aad (hreject : RejectsOtherAad) {key key' : AesKey}
    {nonce aad aad' plaintext ct ct' : Bytes} (hseal : aeadSeal key nonce aad plaintext = .ok ct)
    (hct : ct' <+: ct) (haad : aad ≠ aad') : ∃ e, aeadOpen key' nonce aad' ct' = .error e := by
  unfold aeadSeal at hseal
  split at hseal
  · cases hseal
  · next hnonce =>
    obtain ⟨k, -, hseal⟩ := bind_eq_ok.mp hseal
    have hrejected := fun k' => @hreject k k' _ _ _ _ _ _ (orUnauthentic_eq_ok.mp hseal) hct haad
    rw [aeadOpen, if_neg hnonce]
    split
    · exact ⟨_, rfl⟩
    · cases key'.cipher with
      | error e => exact ⟨e, rfl⟩
      | ok k' =>
        rw [ok_bind, hrejected k']
        exact ⟨_, rfl⟩

/-- **Modules are not interchangeable**: every module that is given the ordinals its
    type carries has an AAD; two modules of a file have the same AAD only if they have
    the same type and the same ordinals; and a frame made for one of them is not
    accepted in the place of another, if AES-GCM rejects what was sealed under another
    AAD. -/
theorem modules_not_interchangeable (build : Build) (aadPrefix : Option Bytes)
    (aadFileUnique : Bytes) :
    (∀ {module page}, page.isSome = module.hasPageOrdinal → ∀ rg col, ∃ aad,
      (buildModuleAad build aadPrefix aadFileUnique module rg col page : Res CodecError Bytes)
        = .ok aad) ∧
    (∀ {module module' rg rg' col col' page page' aad aad'},
      (buildModuleAad build aadPrefix aadFileUnique module rg col page : Res CodecError Bytes)
        = .ok aad →
      (buildModuleAad build aadPrefix aadFileUnique module' rg' col' page' : Res CodecError Bytes)
        = .ok aad' →
      (aad = aad' ↔ moduleIdentity module rg col page = moduleIdentity module' rg' col' page')) ∧
    (RejectsOtherAad → ∀ {ctx ctx₁ : ColumnEncryptContext σ} {ctx' : ColumnDecryptContext}
      {module module' page page' plaintext frame}, ctx.aadPrefix = aadPrefix →
      ctx.aadFileUnique = aadFileUnique → ctx'.aadPrefix = aadPrefix →
      ctx'.aadFileUnique = aadFileUnique →
      moduleIdentity module ctx.rgOrdinal ctx.colOrdinal page
        ≠ moduleIdentity module' ctx'.rgOrdinal ctx'.colOrdinal page' →
      encryptModule build plaintext ctx module page = .ok (frame, ctx₁) →
      ∀ rest r, decryptModule build (frame ++ rest) ctx' module' page' ≠ .ok r) := by
  have haads : ∀ {module module' rg rg' col col' page page' aad aad'},
      (buildModuleAad build aadPrefix aadFileUnique module rg col page : Res CodecError Bytes)
        = .ok aad →
      (buildModuleAad build aadPrefix aadFileUnique module' rg' col' page' : Res CodecError Bytes)
        = .ok aad' →
      (aad = aad' ↔ moduleIdentity module rg col page = moduleIdentity module' rg' col' page') := by
    intro module module' rg rg' col col' page page' aad aad' h h'
    rw [buildModuleAad_eq_ok h, buildModuleAad_eq_ok h', List.append_right_inj]
    exact ModuleIdentity.bytes_injective.eq_iff
  refine ⟨fun hpage => exists_buildModuleAad hpage build aadPrefix aadFileUnique, haads, ?_⟩
  rintro hreject ctx ctx₁ ctx' module module' page page' plaintext frame rfl rfl hsame hunique hne
    hframe rest r hopen
  obtain ⟨aad, nonce, ct, haad, hseal, rfl, -⟩ := encryptModule_eq_ok hframe
  obtain ⟨⟨nonce', ct', total⟩, hread, hopen⟩ := bind_eq_ok.mp hopen
  obtain ⟨hnonce, hct⟩ := readFrame_moduleFrame nonce.2 hread
  obtain ⟨aad', haad', hopen⟩ := bind_eq_ok.mp hopen
  obtain ⟨plaintext', hplain, -⟩ := bind_eq_ok.mp hopen
  rw [hsame, hunique] at haad'
  obtain ⟨e, he⟩ := open_eq_error_of_aad hreject hseal hct (mt (haads haad haad').mp hne)
  have hopened := orCryptoErr_eq_ok.mp hplain
  dsimp only at hnonce hopened
  rw [hnonce, he] at hopened
  cases hopened

end

/-! ## Pages of a column -/

/-- Nonce, AAD, message, and what AES-128-GCM makes of it under the key of zeros. -/
def gcmVectors : List (Bytes × Bytes × Bytes × Bytes) := [
  ([1, 2, 3, 4, 0, 0, 0, 0, 0, 0, 0, 0], [7, 2, 0, 0, 0, 0, 0, 0], [42],
    [0x49, 0x2E, 0xC0, 0x5B, 0xA1, 0x1A, 0x15, 0x42, 0xD4, 0x1D, 0x42, 0x75, 0x1F, 0x2D, 0x3C,
      0x6F, 0x2C]),
  ([1, 2, 3, 4, 1, 0, 0, 0, 0, 0, 0, 0], [7, 2, 0, 0, 0, 0, 1, 0], [],
    [0xA9, 0x8A, 0x58, 0x3C, 0x6A, 0x93, 0x11, 0x8E, 0xEE, 0x28, 0x67, 0x8D, 0x2D, 0xEB, 0x9F,
      0xCD]),
  ([1, 2, 3, 4, 2, 0, 0, 0, 0, 0, 0, 0], [7, 0],
    [0x15, 0x02, 0x19, 0x0C, 0x16, 0x00, 0x19, 0x0C, 0x00],
    [0xF9, 0x91, 0xB2, 0x3A, 0xF7, 0xEB, 0xB8, 0x78, 0xB3, 0x90, 0x15, 0x03, 0x75, 0xFB, 0x30,
      0x62, 0xF9, 0xDA, 0x32, 0xFC, 0xC4, 0x6D, 0xC9, 0xAC, 0x24])]

/-- AES-128-GCM on these messages. -/
@[reducible] def vectorGcm : AesGcm where
  encrypt key nonce aad msg := (gcmVectors.find? fun v =>
    key = List.replicate 16 0 ∧ nonce = v.1 ∧ aad = v.2.1 ∧ msg = v.2.2.1).map (·.2.2.2)
  decrypt key nonce aad ct := (gcmVectors.find? fun v =>
    key = List.replicate 16 0 ∧ nonce = v.1 ∧ aad = v.2.1 ∧ ct = v.2.2.2).map (·.2.2.1)

/-- Every message has a nonce of its own. -/
theorem rejectsOtherAad_vectorGcm : @RejectsOtherAad vectorGcm := by
  intro key key' nonce aad aad' msg ct ct' hct _ hne
  obtain ⟨v, hv, -⟩ := Option.map_eq_some_iff.mp hct
  have hfound := List.find?_some hv
  have hmem := List.mem_of_find?_eq_some hv
  simp only [decide_eq_true_eq] at hfound
  obtain ⟨-, rfl, rfl, -⟩ := hfound
  refine Option.map_eq_none_iff.mpr (List.find?_eq_none.mpr fun w hw hsame => ?_)
  simp only [decide_eq_true_eq] at hsame
  have hunique : ∀ v ∈ gcmVectors, ∀ w ∈ gcmVectors, v.1 = w.1 → v = w := by decide
  exact hne (hsame.2.2.1 ▸ congrArg (·.2.1) (hunique v hmem w hw hsame.2.1))

/-- The context of the first column, whose nonces count from zero. -/
def firstColumn : ColumnEncryptContext FixedNonceSource where
  key := .aes128 ⟨List.replicate 16 0, rfl⟩
  aadPrefix := none
  aadFileUnique := [7]
  rgOrdinal := 0
  colOrdinal := 0
  nonces := ⟨⟨[1, 2, 3, 4], rfl⟩, 0⟩

/-- The first page of a column is not accepted as its second. -/
theorem first_page_not_second :
    (∃ aad aad',
      (buildModuleAad .debug none [7] .dataPage 0 0 (some 0) : Res CodecError Bytes) = .ok aad ∧
      (buildModuleAad .debug none [7] .dataPage 0 0 (some 1) : Res CodecError Bytes) = .ok aad' ∧
      aad ≠ aad') ∧
    ∃ frame ctx₁, @encryptModule vectorGcm .debug _ _ [42] firstColumn .dataPage (some 0)
        = .ok (frame, ctx₁) ∧
      ∀ rest r, @decryptModule vectorGcm .debug (frame ++ rest)
        firstColumn.toColumnDecryptContext .dataPage (some 1) ≠ .ok r := by
  have h := @modules_not_interchangeable vectorGcm FixedNonceSource _ .debug none [7]
  obtain ⟨aad, haad⟩ := @h.1 .dataPage (some 0) rfl 0 0
  obtain ⟨aad', haad'⟩ := @h.1 .dataPage (some 1) rfl 0 0
  have hframe : ∃ p, @encryptModule vectorGcm .debug _ _ [42] firstColumn
      .dataPage (some 0) = .ok p := ⟨_, rfl⟩
  obtain ⟨⟨frame, ctx₁⟩, hframe⟩ := hframe
  refine ⟨⟨aad, aad', haad, haad', mt (h.2.1 haad haad').mp (by decide)⟩, frame, ctx₁, hframe, ?_⟩
  exact h.2.2 rejectsOtherAad_vectorGcm rfl rfl rfl rfl (by decide) hframe

end EmatixParquet
