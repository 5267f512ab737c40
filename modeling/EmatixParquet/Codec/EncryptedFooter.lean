/-
  Encrypted modules one after the other, and the encrypted footer (`encrypted.rs`).

  * `decryptModules_encryptModules`: a chunk of frames is read back frame by frame;
  * `splitEncryptedFooterTrailer_append`: the crypto metadata ends where its own reader
    stops;
  * `decryptFooter_encryptFooter`: a footer is read back;
  * `framing_roundTrip`: all of these.
-/
import EmatixParquet.Codec.Encrypted
import EmatixParquet.Io.File

namespace EmatixParquet

open Wire

/-! ## `{e:?}` -/

/-- The derived `Debug` of a decode error. -/
def FormatError.debug : FormatError → String
  | unexpectedEof needed remaining =>
    s!"UnexpectedEof \x7b needed: {needed}, remaining: {remaining} \x7d"
  | varintOverflow => "VarintOverflow"
  | invalidEnumValue typeName value =>
    s!"InvalidEnumValue \x7b type_name: \"{typeName}\", value: {value.toInt} \x7d"
  | invalidFieldType nibble => s!"InvalidFieldType({nibble})"
  | unknownStructField structName fieldId =>
    s!"UnknownStructField \x7b struct_name: \"{structName}\", field_id: {fieldId.toInt} \x7d"
  | missingRequiredField structName fieldId =>
    s!"MissingRequiredField \x7b struct_name: \"{structName}\", field_id: {fieldId.toInt} \x7d"
  | unexpectedFieldType structName fieldId =>
    s!"UnexpectedFieldType \x7b struct_name: \"{structName}\", field_id: {fieldId.toInt} \x7d"
  | unexpectedListElementType expected actual =>
    s!"UnexpectedListElementType \x7b expected: {expected.debug}, actual: {actual.debug} \x7d"
  | emptyUnion unionName => s!"EmptyUnion \x7b union_name: \"{unionName}\" \x7d"
  | invalidBoolByte b => s!"InvalidBoolByte({b})"

/-! ## The footer -/

/-- The crypto metadata, whose end is found by reading it, and what follows. -/
def splitEncryptedFooterTrailer (trailer : Bytes) : Res CodecError (Bytes × Bytes) := do
  let (_, rest) ← (readFileCryptoMetadata.run trailer).mapError (Fault.map fun e =>
    .decompress s!"PME footer trailer: bad FileCryptoMetaData: {e.debug}")
  let boundary := trailer.length - rest.length
  pure (trailer.take boundary, trailer.drop boundary)

section
variable [AesGcm] (build : Build)

/-- `encrypt_footer`: one module, sealed with the next nonce. -/
def encryptFooter {σ : Type} [NonceSource σ] (plaintext : Bytes) (key : AesKey)
    (aadPrefix : Option Bytes) (aadFileUnique : Bytes) (nonces : σ) :
    Res CodecError (Bytes × σ) := do
  let aad ← buildModuleAad build aadPrefix aadFileUnique .footer 0 0 none
  let (nonce, nonces) ← orCryptoErr (NonceSource.next nonces)
  let ctAndTag ← orCryptoErr (aeadSeal key nonce.1 aad plaintext)
  pure (moduleFrame nonce.1 ctAndTag, nonces)

/-- `decrypt_footer`. -/
def decryptFooter (encryptedFileMetadata : Bytes) (key : AesKey) (aadPrefix : Option Bytes)
    (aadFileUnique : Bytes) : Res CodecError Bytes := do
  let aad ← buildModuleAad build aadPrefix aadFileUnique .footer 0 0 none
  let (nonce, ctAndTag, _) ← readFrame encryptedFileMetadata
  orCryptoErr (aeadOpen key nonce aad ctAndTag)

/-! ## Many modules -/

/-- Where a module belongs, and the keys of its column. -/
structure ModulePlace where
  ctx : ColumnDecryptContext
  module : ModuleType
  page : Option Int16

/-- `encrypt_module` for one plaintext after the other, each in its place. -/
def encryptModules {σ : Type} [NonceSource σ] :
    List (Bytes × ModulePlace) → σ → Res CodecError (List Bytes × σ)
  | [], nonces => pure ([], nonces)
  | (plaintext, at') :: modules, nonces => do
    let (frame, ctx) ← encryptModule build plaintext { at'.ctx with nonces } at'.module at'.page
    let (frames, nonces) ← encryptModules modules ctx.nonces
    pure (frame :: frames, nonces)

/-- `decrypt_module` again and again, behind the bytes that were consumed before. -/
def decryptModules : List ModulePlace → Bytes → Res CodecError (List (Bytes × ℕ))
  | [], _ => pure []
  | at' :: places, bytes => do
    let (plaintext, consumed) ← decryptModule build bytes at'.ctx at'.module at'.page
    let rest ← decryptModules places (bytes.drop consumed)
    pure ((plaintext, consumed) :: rest)

end

/-- The crypto metadata is read up to its end, whatever follows it. -/
theorem splitEncryptedFooterTrailer_append {fcm : FileCryptoMetaData} {w : Bytes}
    (hw : writeFileCryptoMetadata fcm = .ok w) (hlen : w.length < 2 ^ 64) (frame : Bytes) :
    splitEncryptedFooterTrailer (w ++ frame) = .ok (w, frame) := by
  rw [splitEncryptedFooterTrailer, parses_fileCryptoMetadata hw hlen frame]
  have hboundary : (w ++ frame).length - frame.length = w.length := by
    rw [List.length_append, Nat.add_sub_cancel]
  change Except.ok ((w ++ frame).take _, (w ++ frame).drop _) = _
  rw [hboundary, List.take_left, List.drop_left]

section
variable [AesGcm] {build : Build} {σ : Type} [NonceSource σ]

/-- **Frames one after the other**, by induction on the modules: what was consumed is
    the frame that was read, and the next begins behind it. -/
theorem decryptModules_encryptModules (hopens : OpensSealed) {modules : List (Bytes × ModulePlace)}
    {frames : List Bytes} {nonces nonces' : σ}
    (h : encryptModules build modules nonces = .ok (frames, nonces'))
    (hfits : ∀ frame ∈ frames, frame.length < 2 ^ 32) :
    ∃ results, decryptModules build (modules.map Prod.snd) frames.flatten = .ok results ∧
      results.map Prod.fst = modules.map Prod.fst ∧
      results.map Prod.snd = frames.map List.length := by
  induction modules generalizing nonces frames with
  | nil =>
    cases h
    exact ⟨[], rfl, rfl, rfl⟩
  | cons m modules ih =>
    obtain ⟨plaintext, at'⟩ := m
    obtain ⟨⟨frame, ctx⟩, hframe, h⟩ := bind_eq_ok.mp h
    obtain ⟨⟨frames, nonces''⟩, hframes, h⟩ := bind_eq_ok.mp h
    cases h
    have hfirst := decryptModule_encryptModule hopens hframe (hfits _ List.mem_cons_self)
      frames.flatten
    obtain ⟨results, hrest, hplain, hconsumed⟩ :=
      ih hframes fun f hf => hfits f (List.mem_cons_of_mem _ hf)
    refine ⟨(plaintext, frame.length) :: results, ?_, ?_, ?_⟩
    · rw [List.map_cons, List.flatten_cons, decryptModules, hfirst, ok_bind]
      dsimp only
      rw [List.drop_left, hrest]
      rfl
    · rw [List.map_cons, List.map_cons, hplain]
    · rw [List.map_cons, List.map_cons, hconsumed]

theorem encryptFooter_eq_ok {plaintext frame : Bytes} {key : AesKey} {aadPrefix : Option Bytes}
    {aadFileUnique : Bytes} {nonces nonces' : σ}
    (h : encryptFooter build plaintext key aadPrefix aadFileUnique nonces = .ok (frame, nonces')) :
    ∃ (aad : Bytes) (nonce : GcmNonce) (ct : Bytes),
      (buildModuleAad build aadPrefix aadFileUnique .footer 0 0 none : Res CodecError Bytes)
        = .ok aad ∧
      aeadSeal key nonce.1 aad plaintext = .ok ct ∧ frame = moduleFrame nonce.1 ct := by
  obtain ⟨aad, haad, h⟩ := bind_eq_ok.mp h
  obtain ⟨⟨nonce, nonces''⟩, -, h⟩ := bind_eq_ok.mp h
  obtain ⟨ct, hct, h⟩ := bind_eq_ok.mp h
  cases h
  exact ⟨aad, nonce, ct, haad, orCryptoErr_eq_ok.mp hct, rfl⟩

/-- **A footer is read back.** -/
theorem decryptFooter_encryptFooter (hopens : OpensSealed) {plaintext frame : Bytes} {key : AesKey}
    {aadPrefix : Option Bytes} {aadFileUnique : Bytes} {nonces nonces' : σ}
    (h : encryptFooter build plaintext key aadPrefix aadFileUnique nonces = .ok (frame, nonces'))
    (hfits : frame.length < 2 ^ 32) :
    decryptFooter build frame key aadPrefix aadFileUnique = .ok plaintext := by
  obtain ⟨aad, nonce, ct, haad, hseal, rfl⟩ := encryptFooter_eq_ok h
  obtain ⟨htag, hopen⟩ := opens_sealed hopens hseal
  have hread := readFrame_ok nonce.2 htag (length_lt_of_frame nonce.2 hfits) []
  rw [List.append_nil] at hread
  rw [decryptFooter, haad, ok_bind, hread, ok_bind]
  dsimp only
  rw [hopen]
  rfl

/-- **Encryption is undone**, if AES-GCM opens what it sealed: modules from the
    concatenation of their frames, whose lengths are what is consumed; and the footer
    from what follows the crypto metadata. -/
theorem framing_roundTrip (hopens : OpensSealed) (build : Build) :
    (∀ {modules : List (Bytes × ModulePlace)} {frames : List Bytes} {nonces nonces' : σ},
      encryptModules build modules nonces = .ok (frames, nonces') →
      (∀ frame ∈ frames, frame.length < 2 ^ 32) →
      ∃ results, decryptModules build (modules.map Prod.snd) frames.flatten = .ok results ∧
        results.map Prod.fst = modules.map Prod.fst ∧
        (results.map Prod.snd).sum = frames.flatten.length) ∧
    (∀ fcm, (∃ w, writeFileCryptoMetadata fcm = .ok w) ↔ fcm.encryptionAlgorithm.isSome) ∧
    ∀ md : FileMetaData, md.Supported → ∃ plaintext, writeFileMetadata md = .ok plaintext ∧
      ∀ {key aadPrefix aadFileUnique} {nonces nonces' : σ} {frame},
        encryptFooter build plaintext key aadPrefix aadFileUnique nonces = .ok (frame, nonces') →
        frame.length < 2 ^ 32 →
        decryptFooter build frame key aadPrefix aadFileUnique = .ok plaintext ∧
        ∀ {fcm w}, writeFileCryptoMetadata fcm = .ok w → w.length < 2 ^ 64 →
          splitEncryptedFooterTrailer (w ++ frame) = .ok (w, frame) := by
  refine ⟨?_, ?_, ?_⟩
  · intro modules frames nonces nonces' h hfits
    obtain ⟨results, hresults, hplain, hconsumed⟩ := decryptModules_encryptModules hopens h hfits
    refine ⟨results, hresults, hplain, ?_⟩
    rw [hconsumed, List.length_flatten]
  · intro fcm
    rw [writeFileCryptoMetadata.eq_def]
    cases fcm.encryptionAlgorithm <;> simp
  · intro md hmd
    obtain ⟨plaintext, hplain⟩ := exists_writeFileMetadata hmd
    refine ⟨plaintext, hplain, ?_⟩
    intro key aadPrefix aadFileUnique nonces nonces' frame h hfits
    exact ⟨decryptFooter_encryptFooter hopens h hfits,
      fun hw hlen => splitEncryptedFooterTrailer_append hw hlen frame⟩

end

/-! ## Two pages and a footer -/

theorem opensSealed_vectorGcm : @OpensSealed vectorGcm := by
  have hvector : ∀ {key nonce aad msg ct}, vectorGcm.encrypt key nonce aad msg = some ct →
      tagLen ≤ ct.length ∧ vectorGcm.decrypt key nonce aad ct = some msg := by
    intro key nonce aad msg ct h
    obtain ⟨v, hfind, rfl⟩ := Option.map_eq_some_iff.mp h
    have hv := List.find?_some hfind
    simp only [decide_eq_true_eq] at hv
    obtain ⟨rfl, rfl, rfl, rfl⟩ := hv
    have hmem := List.mem_of_find?_eq_some hfind
    simp only [gcmVectors, List.mem_cons, List.not_mem_nil, or_false] at hmem
    rcases hmem with rfl | rfl | rfl
    · decide
    · decide
    · decide
  exact @OpensSealed.mk vectorGcm (fun h => (hvector h).1) fun h => (hvector h).2

/-- The first two pages of a column. -/
def twoPages : List (Bytes × ModulePlace) :=
  [([42], ⟨firstColumn.toColumnDecryptContext, .dataPage, some 0⟩),
    ([], ⟨firstColumn.toColumnDecryptContext, .dataPage, some 1⟩)]

/-- Metadata without columns or rows. -/
def bareFooter : FileMetaData where
  version := 1
  schema := []
  numRows := 0
  rowGroups := []

theorem framing_roundTrip_vectors :
    (∃ frames nonces' results,
      @encryptModules vectorGcm .debug _ _ twoPages firstColumn.nonces = .ok (frames, nonces') ∧
      @decryptModules vectorGcm .debug (twoPages.map Prod.snd) frames.flatten = .ok results ∧
      results.map Prod.fst = [[42], []] ∧ (results.map Prod.snd).sum = frames.flatten.length) ∧
    ∃ plaintext frame nonces' w, writeFileMetadata bareFooter = .ok plaintext ∧
      @encryptFooter vectorGcm .debug _ _ plaintext firstColumn.key none [7]
        { firstColumn.nonces with counter := 2 } = .ok (frame, nonces') ∧
      @decryptFooter vectorGcm .debug frame firstColumn.key none [7] = .ok plaintext ∧
      writeFileCryptoMetadata { encryptionAlgorithm := some (.aesGcmV1 {}) } = .ok w ∧
      splitEncryptedFooterTrailer (w ++ frame) = .ok (w, frame) := by
  have h := @framing_roundTrip vectorGcm FixedNonceSource _ opensSealed_vectorGcm .debug
  have hpages : ∃ r, @encryptModules vectorGcm .debug _ _ twoPages firstColumn.nonces = .ok r ∧
      ∀ frame ∈ r.1, frame.length < 2 ^ 32 := ⟨_, rfl, by decide +kernel⟩
  obtain ⟨⟨frames, nonces'⟩, hpages, hfits⟩ := hpages
  obtain ⟨results, hresults, hplain, hconsumed⟩ := h.1 hpages hfits
  refine ⟨⟨frames, nonces', results, hpages, hresults, hplain, hconsumed⟩, ?_⟩
  have hcrypto : writeFileCryptoMetadata { encryptionAlgorithm := some (.aesGcmV1 {}) }
      = .ok [0x1C, 0x1C, 0x00, 0x00, 0x00] := by decide +kernel
  have hbytes : writeFileMetadata bareFooter
      = .ok [0x15, 0x02, 0x19, 0x0C, 0x16, 0x00, 0x19, 0x0C, 0x00] := by decide +kernel
  obtain ⟨plaintext, hfooter, hfooters⟩ := h.2.2 bareFooter (by decide)
  obtain rfl := Except.ok.inj (hfooter.symm.trans hbytes)
  have hframe : ∃ r, @encryptFooter vectorGcm .debug _ _
      [0x15, 0x02, 0x19, 0x0C, 0x16, 0x00, 0x19, 0x0C, 0x00] firstColumn.key none [7]
      { firstColumn.nonces with counter := 2 } = .ok r ∧ r.1.length < 2 ^ 32 :=
    ⟨_, rfl, by decide +kernel⟩
  obtain ⟨⟨frame, nonces''⟩, hframe, hlen⟩ := hframe
  obtain ⟨hopen, hsplit⟩ := hfooters hframe hlen
  exact ⟨_, frame, nonces'', _, hfooter, hframe, hopen, hcrypto, hsplit hcrypto (by decide)⟩

end EmatixParquet
