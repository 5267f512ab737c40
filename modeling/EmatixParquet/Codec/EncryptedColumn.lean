/-
  Encrypted files of a single column (`write_single_column_encrypted` of `write.rs`).

  The body of the page is sealed before its header, which holds the length of the
  sealed body.  The footer is signed; or, before the magic `PARE`, it is sealed too.

  * `of_writeSingleColumnEncrypted`: what such a file consists of;
  * `writeI32ColumnEncrypted_read`: who has the key reads the column back;
  * `writeI32ColumnEncrypted_binds`: but not with the AAD prefix of another file.
-/
import EmatixParquet.Codec.EncryptedFooter
import EmatixParquet.Codec.SingleColumn

namespace EmatixParquet

open Wire

/-! ## The writer -/

/-- PME footer mode. -/
inductive FooterMode where
  | plaintext
  | encrypted
  deriving DecidableEq, Repr

/-- `PARE`. -/
def parquetMagicEncrypted : Bytes := [0x50, 0x41, 0x52, 0x45]

/-- `[u8; 16]`, the identifier of a file. -/
abbrev FileUnique := {bytes : Bytes // bytes.length = 16}

/-- What is written: the frames of the page, and the trailer that the length before
    the last magic counts. -/
structure EncryptedColumn where
  header : Bytes
  body : Bytes
  metadata : FileMetaData
  trailer : Bytes
  magic : Bytes

/-- The file: the page between the magics, then the trailer and its length. -/
def EncryptedColumn.bytes (w : EncryptedColumn) : Bytes :=
  parquetMagic ++ (w.header ++ w.body) ++ w.trailer ++ leBytes 4 w.trailer.length ++ w.magic

/-- The prefix is not written: its readers are told to supply it. -/
def fileAlgorithm (aadPrefix : Option Bytes) (fileUnique : Bytes) : EncryptionAlgorithm :=
  .aesGcmV1 { aadPrefix := none
              aadFileUnique := some fileUnique
              supplyAadPrefix := aadPrefix.map fun _ => true }

/-- `PME encrypt: ..: {e}`. -/
def pmeErr {α : Type} (what : String) (x : Except CryptoError α) : Res CodecError α :=
  x.mapError fun e => .err (.decompress s!"PME encrypt: {what}: {e.display}")

/-- `&ct_and_tag[ct_and_tag.len() - 16..]`. -/
def tagOf (ctAndTag : Bytes) : Res CodecError Bytes :=
  if ctAndTag.length < tagLen then .error (.panic "range start index out of range for slice")
  else .ok (ctAndTag.drop (ctAndTag.length - tagLen))

/-- What the chunk measures: its sizes on disk are those of the frames. -/
structure EncryptedSizes where
  uncompressed : ℕ
  compressed : ℕ

/-- The footer: both offsets are those of the only page, behind the magic. -/
def encryptedMetadata (columnName : String) (parquetType : ParquetType) (numValues : ℕ)
    (codec : CompressionCodec) (stats : ColumnStats) (sizes : EncryptedSizes)
    (algorithm : Option EncryptionAlgorithm) : FileMetaData where
  version := 1
  schema := [{ name := asBytes "schema", numChildren := some 1 },
    { columnType := some parquetType, repetitionType := some .required, name := asBytes columnName }]
  numRows := Int64.ofNat numValues
  rowGroups := [
    { columns := [
        { fileOffset := 4
          metaData := some
            { columnType := parquetType
              encodings := [.plain, .rle]
              pathInSchema := [asBytes columnName]
              codec
              numValues := Int64.ofNat numValues
              totalUncompressedSize := Int64.ofNat sizes.uncompressed
              totalCompressedSize := Int64.ofNat sizes.compressed
              keyValueMetadata := none
              dataPageOffset := 4
              indexPageOffset := none
              dictionaryPageOffset := none
              statistics := some stats.asStatistics
              encodingStats := none
              bloomFilterOffset := none
              bloomFilterLength := none
              sizeStatistics := none }
          cryptoMetadata := some .encryptionWithFooterKey }]
      totalByteSize := Int64.ofNat sizes.uncompressed
      numRows := Int64.ofNat numValues
      ordinal := some 0 }]
  createdBy := some (asBytes "ematix-parquet 0.0.1")
  encryptionAlgorithm := algorithm

section
variable [AesGcm] (build : Build) {σ : Type} [NonceSource σ]

/-- `[nonce][tag]` over the footer, which itself stays readable. -/
def footerSignature (footer : Bytes) (key : AesKey) (aadPrefix : Option Bytes) (fileUnique : Bytes)
    (nonces : σ) : Res CodecError Bytes := do
  let footerAad ← buildModuleAad build aadPrefix fileUnique .footer 0 0 none
  let (footerNonce, _) ← pmeErr "footer nonce" (NonceSource.next nonces)
  let ctAndTag ← pmeErr "footer seal" (aeadSeal key footerNonce.1 footerAad footer)
  let tag ← tagOf ctAndTag
  pure (footerNonce.1 ++ tag)

/-- The end of the file, without its length and the magic. -/
def encryptedTrailer (footer : Bytes) (key : AesKey) (aadPrefix : Option Bytes) (fileUnique : Bytes)
    (nonces : σ) : FooterMode → Res CodecError Bytes
  | .plaintext => do
    let signature ← footerSignature build footer key aadPrefix fileUnique nonces
    pure (footer ++ signature)
  | .encrypted => do
    let fcmBytes ← (writeFileCryptoMetadata
      { encryptionAlgorithm := some (fileAlgorithm aadPrefix fileUnique)
        keyMetadata := none }).mapError (Fault.map .wire)
    let (frame, _) ← encryptFooter build footer key aadPrefix fileUnique nonces
    pure (fcmBytes ++ frame)

/-- The randomness of the operating system is an argument: the identifier of the file,
    and a source of nonces. -/
def writeSingleColumnEncrypted [Platform] (random : Except CryptoError FileUnique) (nonces : σ)
    (columnName : String) (parquetType : ParquetType) (numValues : ℕ) (body : Bytes)
    (codec : CompressionCodec) (stats : ColumnStats) (key : AesKey) (aadPrefix : Option Bytes)
    (footerMode : FooterMode) : Res CodecError EncryptedColumn := do
  let fileUnique ← pmeErr "rng" random
  let ctx : ColumnEncryptContext σ :=
    { key, aadPrefix, aadFileUnique := fileUnique.1, rgOrdinal := 0, colOrdinal := 0, nonces }
  let compressedBody ← compressBody body codec
  let (encryptedBody, ctx) ← encryptModule build compressedBody ctx .dataPage (some 0)
  let plaintextHeader := writePageHeader
    (dataPageHeaderV1 .plain numValues body.length encryptedBody.length stats)
  let (encryptedHeader, ctx) ← encryptModule build plaintextHeader ctx .dataPageHeader (some 0)
  -- in the encrypted mode the algorithm stands in the crypto metadata alone
  let metadata := encryptedMetadata columnName parquetType numValues codec stats
    ⟨plaintextHeader.length + body.length, encryptedHeader.length + encryptedBody.length⟩
    (if footerMode = .plaintext then some (fileAlgorithm aadPrefix fileUnique.1) else none)
  let footer ← (writeFileMetadata metadata).mapError (Fault.map .wire)
  let trailer ← encryptedTrailer build footer key aadPrefix fileUnique.1 ctx.nonces footerMode
  pure { header := encryptedHeader, body := encryptedBody, metadata, trailer
         magic := if footerMode = .plaintext then parquetMagic else parquetMagicEncrypted }

/-- `write_i32_column_to_path_encrypted` and `write_i32_column_to_path_encrypted_footer`,
    by the mode of the footer. -/
def writeI32ColumnEncrypted [Platform] (footerMode : FooterMode)
    (random : Except CryptoError FileUnique) (nonces : σ) (name : String) (values : List Int32)
    (key : AesKey) (aadPrefix : Option Bytes) : Res CodecError EncryptedColumn :=
  writeSingleColumnEncrypted build random nonces name .int32 values.length (encodePlainI32 values)
    .uncompressed (statsI32 values) key aadPrefix footerMode

/-! ## Readers (`key_rotation.rs`) -/

/-- `bytes[n - 8 - flen..n - 8]`, the bytes that the length before the magic counts. -/
def trailerOf (bytes : Bytes) : Res CodecError Bytes :=
  let n := bytes.length
  let flen := leNat ((bytes.drop (n - 8)).take 4)
  if n < 8 + flen then .error (.panic "attempt to subtract with overflow")
  else slice bytes (n - 8 - flen) (n - 8)

/-- The identifier of the file; the readers know AES-GCM alone. -/
def aadFileUniqueOf : Option EncryptionAlgorithm → Res CodecError Bytes
  | some (.aesGcmV1 v) => match v.aadFileUnique with
    | some fileUnique => .ok fileUnique
    | none => .error (.panic "called `Option::unwrap()` on a `None` value")
  | _ => .error (.panic "internal error: entered unreachable code")

/-- The footer, and the identifier of the file. -/
def openEncrypted (bytes : Bytes) (key : AesKey) (aadPrefix : Option Bytes) :
    Res CodecError (FileMetaData × Bytes) :=
  if bytes.drop (bytes.length - 4) = parquetMagicEncrypted then do
    let trailer ← trailerOf bytes
    let (fcmBytes, encMdFrame) ← splitEncryptedFooterTrailer trailer
    let (fcm, _) ← (readFileCryptoMetadata.run fcmBytes).mapError (Fault.map .wire)
    let fileUnique ← aadFileUniqueOf fcm.encryptionAlgorithm
    let plaintextMd ← decryptFooter build encMdFrame key aadPrefix fileUnique
    let (md, _) ← (readFileMetadata.run plaintextMd).mapError (Fault.map .wire)
    pure (md, fileUnique)
  else do
    let file ← mapIo ioToCodec (ParquetFile.open bytes)
    let md ← mapIo ioToCodec file.metadata
    let fileUnique ← aadFileUniqueOf md.encryptionAlgorithm
    pure (md, fileUnique)

/-- The metadata of the only column, which is to be encrypted with the footer key. -/
def footerKeyColumn (md : FileMetaData) : Res CodecError ColumnMetaData :=
  match md.rowGroups[0]?.bind (·.columns[0]?) with
  | none => .error (.panic "index out of bounds")
  | some cc =>
    if cc.cryptoMetadata = some .encryptionWithFooterKey then
      match cc.metaData with
      | some cm => .ok cm
      | none => .error (.panic "called `Option::unwrap()` on a `None` value")
    else .error (.panic "assertion failed: cc.crypto_metadata is EncryptionWithFooterKey")

/-- The header of the page at the start of some bytes, which is to be a data page, and
    its body. -/
def decryptPage (onDisk : Bytes) (ctx : ColumnDecryptContext) :
    Res CodecError (PageHeader × Bytes) := do
  let (headerBytes, consumedHeader) ← decryptModule build onDisk ctx .dataPageHeader (some 0)
  let (header, _) ← (readPageHeader.run headerBytes).mapError (Fault.map .wire)
  if header.pageType ≠ .dataPage then
    .error (.panic "assertion failed: header.page_type == PageType::DataPage")
  else do
    let bodyFrame ← slice onDisk consumedHeader onDisk.length
    let (bodyPlaintext, _) ← decryptModule build bodyFrame ctx .dataPage (some 0)
    pure (header, bodyPlaintext)

/-- The footer, the header of the only page, and the values on it: what is left over
    by `chunks_exact(4)` is not looked at. -/
def readEncryptedI32 (bytes : Bytes) (key : AesKey) (aadPrefix : Option Bytes) :
    Res CodecError (FileMetaData × PageHeader × List Int32) := do
  let (md, aadFileUnique) ← openEncrypted build bytes key aadPrefix
  let cm ← footerKeyColumn md
  let onDisk ← slice bytes cm.dataPageOffset.toUInt64.toNat bytes.length
  let (header, body) ← decryptPage build onDisk
    { key, aadPrefix, aadFileUnique, rgOrdinal := 0, colOrdinal := 0 }
  let values ← decodePlainI32 (body.take (body.length / 4 * 4))
  pure (md, header, values)

end

/-! ## What a file consists of -/

theorem pmeErr_eq_ok {α : Type} {what : String} {x : Except CryptoError α} {a : α} :
    pmeErr what x = .ok a ↔ x = .ok a :=
  mapError_eq_ok

section
variable [AesGcm] {build : Build} {σ : Type} [NonceSource σ]

/-- The frames are those of a page whose header says the length of its body's frame;
    the trailer is that of the footer, which knows where the page is. -/
structure EncryptedColumn.Of (build : Build) (σ : Type) [NonceSource σ] (w : EncryptedColumn)
    (place : ColumnDecryptContext) (pageHeader : PageHeader) (compressed : Bytes)
    (footerMode : FooterMode) : Prop where
  body : ∃ ctx ctx' : ColumnEncryptContext σ, ctx.toColumnDecryptContext = place ∧
    encryptModule build compressed ctx .dataPage (some 0) = .ok (w.body, ctx')
  header : ∃ ctx ctx' : ColumnEncryptContext σ, ctx.toColumnDecryptContext = place ∧
    encryptModule build (writePageHeader pageHeader) ctx .dataPageHeader (some 0)
      = .ok (w.header, ctx')
  trailer : ∃ (footer : Bytes) (nonces : σ), writeFileMetadata w.metadata = .ok footer ∧
    encryptedTrailer build footer place.key place.aadPrefix place.aadFileUnique nonces footerMode
      = .ok w.trailer
  magic : w.magic = if footerMode = .plaintext then parquetMagic else parquetMagicEncrypted
  algorithm : w.metadata.encryptionAlgorithm = if footerMode = .plaintext then
    some (fileAlgorithm place.aadPrefix place.aadFileUnique) else none
  column : ∃ cm, footerKeyColumn w.metadata = .ok cm ∧ cm.dataPageOffset = 4

theorem of_writeSingleColumnEncrypted [Platform] {random : Except CryptoError FileUnique} {nonces : σ}
    {columnName : String} {parquetType : ParquetType} {numValues : ℕ} {body : Bytes}
    {codec : CompressionCodec} {stats : ColumnStats} {key : AesKey} {aadPrefix : Option Bytes}
    {footerMode : FooterMode} {w : EncryptedColumn}
    (h : writeSingleColumnEncrypted build random nonces columnName parquetType numValues body codec
      stats key aadPrefix footerMode = .ok w) :
    ∃ (fileUnique : FileUnique) (compressed : Bytes), random = .ok fileUnique ∧
      compressBody body codec = .ok compressed ∧
      w.Of build σ ⟨key, aadPrefix, fileUnique.1, 0, 0⟩
        (dataPageHeaderV1 .plain numValues body.length w.body.length stats) compressed footerMode := by
  obtain ⟨fileUnique, hrandom, h⟩ := bind_eq_ok.mp h
  obtain ⟨compressed, hcompressed, h⟩ := bind_eq_ok.mp h
  obtain ⟨⟨encryptedBody, ctx₁⟩, hbody, h⟩ := bind_eq_ok.mp h
  obtain ⟨⟨encryptedHeader, ctx₂⟩, hheader, h⟩ := bind_eq_ok.mp h
  obtain ⟨footer, hfooter, h⟩ := bind_eq_ok.mp h
  obtain ⟨trailer, htrailer, h⟩ := bind_eq_ok.mp h
  cases h
  obtain ⟨-, -, -, -, -, -, hctx⟩ := encryptModule_eq_ok hbody
  exact ⟨fileUnique, compressed, pmeErr_eq_ok.mp hrandom, hcompressed,
    { body := ⟨_, _, rfl, hbody⟩
      header := ⟨_, _, hctx, hheader⟩
      trailer := ⟨footer, _, mapError_eq_ok.mp hfooter, htrailer⟩
      magic := rfl
      algorithm := rfl
      column := ⟨_, rfl, rfl⟩ }⟩

/-- Short enough for its lengths to be recorded. -/
structure EncryptedColumn.Short (w : EncryptedColumn) : Prop where
  header : w.header.length < 2 ^ 32
  body : w.body.length < 2 ^ 32
  trailer : w.trailer.length < 2 ^ 32

/-- The cipher does not pad: a text is longer by its tag. -/
def AppendsTag : Prop :=
  ∀ {key nonce aad msg ct}, AesGcm.encrypt key nonce aad msg = some ct →
    ct.length = msg.length + tagLen

theorem length_aeadSeal (htag : AppendsTag) {key : AesKey} {nonce aad plaintext ct : Bytes}
    (h : aeadSeal key nonce aad plaintext = .ok ct) : ct.length = plaintext.length + tagLen := by
  unfold aeadSeal at h
  split at h
  · cases h
  · obtain ⟨k, -, h⟩ := bind_eq_ok.mp h
    exact htag (orUnauthentic_eq_ok.mp h)

omit [AesGcm] in
theorem length_le_moduleFrame {nonce ct plaintext : Bytes} (h : ct.length = plaintext.length + tagLen) :
    plaintext.length ≤ (moduleFrame nonce ct).length := by
  rw [moduleFrame, List.length_append, List.length_append]
  omega

/-- A text is no longer than its frame. -/
theorem length_le_encryptModule (htag : AppendsTag) {plaintext frame : Bytes}
    {ctx ctx' : ColumnEncryptContext σ} {module : ModuleType} {page : Option Int16}
    (h : encryptModule build plaintext ctx module page = .ok (frame, ctx')) :
    plaintext.length ≤ frame.length := by
  obtain ⟨aad, nonce, ct, -, hseal, rfl, -⟩ := encryptModule_eq_ok h
  exact length_le_moduleFrame (length_aeadSeal htag hseal)

theorem length_le_encryptFooter (htag : AppendsTag) {plaintext frame : Bytes} {key : AesKey}
    {aadPrefix : Option Bytes} {fileUnique : Bytes} {nonces nonces' : σ}
    (h : encryptFooter build plaintext key aadPrefix fileUnique nonces = .ok (frame, nonces')) :
    plaintext.length ≤ frame.length := by
  obtain ⟨aad, nonce, ct, -, hseal, rfl⟩ := encryptFooter_eq_ok h
  exact length_le_moduleFrame (length_aeadSeal htag hseal)

/-! ## Reading back -/

omit [AesGcm] in
/-- The trailer is found by its length. -/
theorem trailerOf_frame {pre trailer magic : Bytes} (hmagic : magic.length = 4)
    (hlen : trailer.length < 2 ^ 32) :
    trailerOf (pre ++ trailer ++ leBytes 4 trailer.length ++ magic) = .ok trailer := by
  set bytes := pre ++ trailer ++ leBytes 4 trailer.length ++ magic with hbytes
  have hsize : bytes.length - 8 = (pre ++ trailer).length := by
    simp [hbytes, hmagic]
    omega
  have htail : bytes.drop (bytes.length - 8) = leBytes 4 trailer.length ++ magic := by
    rw [hsize, hbytes, List.append_assoc _ (leBytes _ _), List.drop_left]
  have hflen : leNat (leBytes 4 trailer.length) = trailer.length := by
    rw [leNat_leBytes]
    exact Nat.mod_eq_of_lt hlen
  have hstart : bytes.length - 8 - trailer.length = pre.length := by
    rw [hsize, List.length_append, Nat.add_sub_cancel]
  have hcut : (bytes.take (bytes.length - 8)).drop pre.length = trailer := by
    rw [hsize, hbytes, List.append_assoc _ (leBytes _ _), List.take_left, List.drop_left]
  have hle : pre.length ≤ bytes.length - 8 := by
    rw [hsize, List.length_append]
    omega
  rw [trailerOf, htail, List.take_left' (length_leBytes 4 _), hflen, hstart, if_neg ?_,
    slice_ok hle (Nat.sub_le _ _), hcut]
  simp [hbytes, hmagic]
  omega

omit [AesGcm] in
theorem EncryptedColumn.drop_magic (w : EncryptedColumn) (hmagic : w.magic.length = 4) :
    w.bytes.drop (w.bytes.length - 4) = w.magic := by
  have hsize : w.bytes.length - 4 = (parquetMagic ++ (w.header ++ w.body) ++ w.trailer
      ++ leBytes 4 w.trailer.length).length := by
    rw [EncryptedColumn.bytes, List.length_append, hmagic, Nat.add_sub_cancel]
  rw [hsize, EncryptedColumn.bytes, List.drop_left]

variable {w : EncryptedColumn} {place : ColumnDecryptContext} {pageHeader : PageHeader}
  {compressed : Bytes} {footerMode : FooterMode}

/-- **The page is read back**, header first, whatever follows it. -/
theorem EncryptedColumn.Of.decryptPage (h : w.Of build σ place pageHeader compressed footerMode)
    (hopens : OpensSealed) (htag : AppendsTag) (hshort : w.Short)
    (hpage : pageHeader.pageType = .dataPage) (rest : Bytes) :
    EmatixParquet.decryptPage build (w.header ++ (w.body ++ rest)) place
      = .ok (pageHeader, compressed) := by
  obtain ⟨ctx, ctx', rfl, hheader⟩ := h.header
  obtain ⟨bodyCtx, bodyCtx', hplace, hbody⟩ := h.body
  have hplain := length_le_encryptModule htag hheader
  have hlen := hshort.header
  have hread := parses_pageHeader pageHeader (hplain.trans_lt (hlen.trans (by decide))) []
  rw [List.append_nil] at hread
  have hopenBody := decryptModule_encryptModule hopens hbody hshort.body rest
  rw [hplace] at hopenBody
  rw [EmatixParquet.decryptPage, decryptModule_encryptModule hopens hheader hlen, ok_bind]
  have hframe : (slice (w.header ++ (w.body ++ rest)) w.header.length
      (w.header ++ (w.body ++ rest)).length : Res CodecError Bytes) = .ok (w.body ++ rest) := by
    rw [slice_ok (by simp) le_rfl, List.take_length, List.drop_left]
  dsimp only
  rw [hread]
  dsimp only [Except.mapError, ok_bind]
  rw [if_neg (not_not.mpr hpage), hframe, ok_bind, hopenBody]
  rfl

/-- A file with a plaintext footer opens, to that footer. -/
theorem EncryptedColumn.Of.openFile (h : w.Of build σ place pageHeader compressed .plaintext)
    (hshort : w.Short) :
    ∃ file, ParquetFile.open w.bytes = .ok file ∧ file.metadata = .ok w.metadata := by
  obtain ⟨footer, nonces, hfooter, htrailer⟩ := h.trailer
  obtain ⟨signature, -, hw⟩ := bind_eq_ok.mp htrailer
  have htrailerEq : footer ++ signature = w.trailer := Except.ok.inj hw
  have hmagic : w.magic = parquetMagic := h.magic
  have hlen := hshort.trailer
  have hlenFooter : footer.length ≤ w.trailer.length := by
    rw [← htrailerEq, List.length_append]
    exact Nat.le_add_right _ _
  have hread := parses_fileMetadata hfooter (hlenFooter.trans_lt (hlen.trans (by decide))) signature
  have hbytes : w.bytes = parquetMagic ++ (w.header ++ w.body) ++ w.trailer
      ++ leBytes 4 w.trailer.length ++ parquetMagic := by rw [EncryptedColumn.bytes, hmagic]
  obtain ⟨file, hopen, hfile⟩ : ∃ file, ParquetFile.open w.bytes = .ok file ∧
      file.footerBytes = w.trailer := by
    rw [hbytes, ParquetFile.open_frame hlen]
    exact ⟨_, rfl, rfl⟩
  exact ⟨file, hopen, by rw [ParquetFile.metadata, hfile, ← htrailerEq, hread]⟩

/-- So the identifier of the file is found without the key. -/
theorem EncryptedColumn.Of.openPlaintext (h : w.Of build σ place pageHeader compressed .plaintext)
    (hshort : w.Short) (key : AesKey) (aadPrefix : Option Bytes) :
    openEncrypted build w.bytes key aadPrefix = .ok (w.metadata, place.aadFileUnique) := by
  obtain ⟨file, hopen, hmd⟩ := h.openFile hshort
  have hmagic : w.magic = parquetMagic := h.magic
  rw [openEncrypted, w.drop_magic (by rw [hmagic]; rfl), hmagic, if_neg (by decide), hopen, mapIo_ok,
    ok_bind, hmd, mapIo_ok, ok_bind, h.algorithm]
  rfl

/-- The trailer of an encrypted footer: its crypto metadata is found without the key,
    and the footer is what the frame decrypts to. -/
theorem EncryptedColumn.Of.openSealed (h : w.Of build σ place pageHeader compressed .encrypted)
    (htag : AppendsTag) (hshort : w.Short) :
    ∃ (footer frame : Bytes) (nonces nonces' : σ),
      encryptFooter build footer place.key place.aadPrefix place.aadFileUnique nonces
        = .ok (frame, nonces') ∧ frame.length < 2 ^ 32 ∧
      ∀ key aadPrefix, openEncrypted build w.bytes key aadPrefix = (do
        let plaintextMd ← decryptFooter build frame key aadPrefix place.aadFileUnique
        let (md, _) ← (readFileMetadata.run plaintextMd).mapError (Fault.map .wire)
        pure (md, place.aadFileUnique)) ∧
      readFileMetadata.run footer = .ok (w.metadata, []) := by
  obtain ⟨footer, nonces, hfooter, htrailer⟩ := h.trailer
  obtain ⟨fcmBytes, hfcm, hw⟩ := bind_eq_ok.mp htrailer
  obtain ⟨⟨frame, nonces'⟩, hframe, hw⟩ := bind_eq_ok.mp hw
  have htrailerEq : fcmBytes ++ frame = w.trailer := Except.ok.inj hw
  have hmagic : w.magic = parquetMagicEncrypted := h.magic
  have hfcm := mapError_eq_ok.mp hfcm
  have hplain := length_le_encryptFooter htag hframe
  have hlen := hshort.trailer
  rw [← htrailerEq, List.length_append] at hlen
  have hlenFcm : fcmBytes.length < 2 ^ 64 := by omega
  have hlenMd : footer.length < 2 ^ 64 := by omega
  have hreadFcm := parses_fileCryptoMetadata hfcm hlenFcm []
  have hreadMd := parses_fileMetadata hfooter hlenMd []
  rw [List.append_nil] at hreadFcm hreadMd
  have htrailerOf : trailerOf w.bytes = .ok (fcmBytes ++ frame) := by
    rw [EncryptedColumn.bytes, trailerOf_frame (by rw [hmagic]; rfl) hshort.trailer, htrailerEq]
  refine ⟨footer, frame, nonces, nonces', hframe, by omega, ?_⟩
  intro key aadPrefix
  rw [openEncrypted, w.drop_magic (by rw [hmagic]; rfl), if_pos hmagic, htrailerOf, ok_bind,
    splitEncryptedFooterTrailer_append hfcm hlenFcm, ok_bind]
  dsimp only
  rw [hreadFcm]
  exact ⟨rfl, hreadMd⟩

/-- **The footer is found** and read back, in both modes. -/
theorem EncryptedColumn.Of.openEncrypted (h : w.Of build σ place pageHeader compressed footerMode)
    (hopens : OpensSealed) (htag : AppendsTag) (hshort : w.Short) :
    EmatixParquet.openEncrypted build w.bytes place.key place.aadPrefix
      = .ok (w.metadata, place.aadFileUnique) := by
  cases footerMode with
  | plaintext => exact h.openPlaintext hshort _ _
  | encrypted =>
    obtain ⟨footer, frame, nonces, nonces', hframe, hlen, hopen⟩ := h.openSealed htag hshort
    obtain ⟨hopen, hread⟩ := hopen place.key place.aadPrefix
    rw [hopen, decryptFooter_encryptFooter hopens hframe hlen, ok_bind, hread]
    rfl

omit [AesGcm] in
/-- The readers of plaintext files refuse a file whose footer is encrypted. -/
theorem EncryptedColumn.open_eq_error (hmagic : w.magic = parquetMagicEncrypted) :
    ParquetFile.open w.bytes
      = ioErr (.notAParquetFile parquetMagic parquetMagicEncrypted "file tail") := by
  have hsize : 12 ≤ w.bytes.length := by
    simp [EncryptedColumn.bytes, hmagic, parquetMagic, parquetMagicEncrypted]
    omega
  have hhead : w.bytes.take 4 = parquetMagic := by
    simp only [EncryptedColumn.bytes, List.append_assoc]
    exact List.take_left' rfl
  have htail : (w.bytes.drop (w.bytes.length - 8)).drop 4 = parquetMagicEncrypted := by
    rw [List.drop_drop, show w.bytes.length - 8 + 4 = w.bytes.length - 4 by omega,
      w.drop_magic (by rw [hmagic]; rfl), hmagic]
  rw [ParquetFile.open]
  dsimp only
  rw [if_neg (by omega), hhead, if_neg (by simp), htail, if_pos (by decide)]

/-- The page is where the footer says. -/
theorem EncryptedColumn.Of.onDisk (h : w.Of build σ place pageHeader compressed footerMode) :
    ∃ cm rest, footerKeyColumn w.metadata = .ok cm ∧
      w.bytes = parquetMagic ++ (w.header ++ (w.body ++ rest)) ∧
      slice w.bytes cm.dataPageOffset.toUInt64.toNat w.bytes.length
        = (.ok (w.header ++ (w.body ++ rest)) : Res CodecError Bytes) := by
  obtain ⟨cm, hcm, hoffset⟩ := h.column
  set rest := w.trailer ++ (leBytes 4 w.trailer.length ++ w.magic) with hrest
  have hbytes : w.bytes = parquetMagic ++ (w.header ++ (w.body ++ rest)) := by
    simp only [EncryptedColumn.bytes, hrest, List.append_assoc]
  have hstart : cm.dataPageOffset.toUInt64.toNat = parquetMagic.length := by
    rw [hoffset]
    decide
  refine ⟨cm, rest, hcm, hbytes, ?_⟩
  rw [hstart, hbytes, slice_ok (by simp) le_rfl, List.take_length, List.drop_left]

variable [Platform] {random : Except CryptoError FileUnique} {nonces : σ} {name : String}
  {values : List Int32} {key : AesKey} {aadPrefix : Option Bytes}

/-- **What is encrypted is read back** with its key and its prefix, in both modes and
    under any nonces: the footer, the header with the length of the sealed body, and the
    values.  Without them a plaintext footer still opens, and an encrypted one does not. -/
theorem writeI32ColumnEncrypted_read (hopens : OpensSealed) (htag : AppendsTag)
    (h : writeI32ColumnEncrypted build footerMode random nonces name values key aadPrefix = .ok w)
    (hshort : w.Short) :
    readEncryptedI32 build w.bytes key aadPrefix = .ok (w.metadata,
      dataPageHeaderV1 .plain values.length (encodePlainI32 values).length w.body.length
        (statsI32 values), values) ∧
    (footerMode = .plaintext → ∃ file, ParquetFile.open w.bytes = .ok file ∧
      file.metadata = .ok w.metadata) ∧
    (footerMode = .encrypted → ParquetFile.open w.bytes
      = ioErr (.notAParquetFile parquetMagic parquetMagicEncrypted "file tail")) := by
  obtain ⟨fileUnique, compressed, -, hcompressed, hof⟩ := of_writeSingleColumnEncrypted h
  cases hcompressed
  obtain ⟨cm, rest, hcm, -, honDisk⟩ := hof.onDisk
  have hlength : (encodePlainI32 values).length / 4 * 4 = (encodePlainI32 values).length := by
    rw [encodePlainI32, length_encodePlainFixed]
    exact congrArg (· * 4) (Nat.mul_div_cancel _ (by decide))
  have hvalues : decodePlainI32 (encodePlainI32 values) = .ok values :=
    decodePlainFixed_encodePlainFixed values
  refine ⟨?_, ?_, ?_⟩
  · have hopen := hof.openEncrypted hopens htag hshort
    have hpage := hof.decryptPage hopens htag hshort rfl rest
    rw [readEncryptedI32, hopen, ok_bind]
    dsimp only
    rw [hcm, ok_bind, honDisk, ok_bind, hpage, ok_bind]
    dsimp only
    rw [hlength, List.take_length, hvalues]
    rfl
  · rintro rfl
    exact hof.openFile hshort
  · rintro rfl
    exact EncryptedColumn.open_eq_error hof.magic

/-! ## Other prefixes -/

end

/-! ## A sample -/

/-- The AAD of a footer whose file identifier is sixteen sevens. -/
def idAad : Bytes := 9 :: List.replicate 16 7

/-- The header of the page, whose body is framed in 40 bytes. -/
def idHeader : Bytes := writePageHeader (dataPageHeaderV1 .plain 2 8 40 (statsI32 [7, 5]))

/-- The footer that stands in the file of a column of ids. -/
def idFooter : Bytes :=
  ((writeFileMetadata (encryptedMetadata "id" .int32 2 .uncompressed (statsI32 [7, 5]) ⟨55, 119⟩
    none)).toOption).getD []

/-- Nonce, AAD, message, and what AES-128-GCM makes of it under the key of zeros. -/
def idVectors : List (Bytes × Bytes × Bytes × Bytes) := [
  ([1, 2, 3, 4, 0, 0, 0, 0, 0, 0, 0, 0], idAad ++ [2, 0, 0, 0, 0, 0, 0], encodePlainI32 [7, 5],
    [0x64, 0x04, 0x4E, 0xAF, 0x78, 0x8C, 0x54, 0xEF, 0xD7, 0x6C, 0x1A, 0x12, 0xFF, 0x30,
      0x3B, 0x40, 0x1F, 0x85, 0x0E, 0xB0, 0xDE, 0x19, 0x04, 0x43]),
  ([1, 2, 3, 4, 1, 0, 0, 0, 0, 0, 0, 0], idAad ++ [4, 0, 0, 0, 0, 0, 0], idHeader,
    [0xF6, 0x7B, 0x36, 0xBC, 0x3C, 0x48, 0x97, 0xCF, 0xA0, 0xD5, 0x45, 0x10, 0xC2, 0x9C,
      0x20, 0xA1, 0xD1, 0x45, 0x3B, 0xBB, 0x3B, 0xC8, 0x25, 0x1A, 0xCD, 0xE9, 0x83, 0xE4,
      0x20, 0xF3, 0x40, 0xE5, 0xE4, 0x93, 0x1C, 0x4C, 0x6E, 0xA5, 0xB7, 0xB1, 0xE7, 0xE6,
      0x63, 0x55, 0xA5, 0x57, 0x0E, 0xDB, 0xC5, 0x36, 0x55, 0x60, 0xA0, 0xE6, 0x15, 0x05,
      0xCE, 0x94, 0x54, 0xE7, 0xB1, 0xE5, 0x4C]),
  ([1, 2, 3, 4, 2, 0, 0, 0, 0, 0, 0, 0], idAad ++ [0], idFooter,
    [0xF9, 0x91, 0xB2, 0x1A, 0xA9, 0xED, 0xD2, 0x17, 0xDB, 0x45, 0x1A, 0x68, 0x10, 0x78,
      0x10, 0x2C, 0x2F, 0x1E, 0xC2, 0xDA, 0x23, 0xF7, 0x0A, 0x80, 0xB4, 0xCD, 0x6D, 0xD5,
      0x84, 0x72, 0xD4, 0xD3, 0x1D, 0x06, 0x54, 0x11, 0xA2, 0x28, 0x01, 0x37, 0x7D, 0xEE,
      0x11, 0xD3, 0xF1, 0x6E, 0xB5, 0xB6, 0x48, 0x4E, 0x54, 0xAC, 0x46, 0x44, 0x21, 0x00,
      0x80, 0x01, 0x47, 0x6C, 0x04, 0xEA, 0x61, 0x0E, 0xFB, 0x72, 0x32, 0xEC, 0x31, 0x40,
      0xF3, 0x1D, 0xFF, 0xBB, 0xA3, 0x2A, 0x97, 0xC0, 0xC1, 0x23, 0x4A, 0x69, 0x7F, 0x9E,
      0x80, 0x45, 0xC7, 0x0C, 0x75, 0xA1, 0x7A, 0x8B, 0xE7, 0xF1, 0x32, 0x9E, 0x56, 0x30,
      0x57, 0x27, 0xF5, 0xE0, 0x0E, 0x4C, 0x96, 0x97, 0x97, 0xA0, 0x7B, 0xE3, 0x6F, 0x6A,
      0x8D, 0xF5, 0xC4, 0xCB, 0xE9, 0xAE, 0xA7, 0xBC, 0x26, 0x4D, 0x1D, 0xB1, 0x71, 0x6D,
      0xF8, 0x0E, 0xA1, 0xAF, 0xE0, 0x3D, 0x72, 0xF5, 0x9D, 0xF7, 0x8D])]

/-- AES-128-GCM on the body, the header and the footer of the sample. -/
@[reducible] def idGcm : AesGcm where
  encrypt key nonce aad msg := (idVectors.find? fun v =>
    key = List.replicate 16 0 ∧ nonce = v.1 ∧ aad = v.2.1 ∧ msg = v.2.2.1).map (·.2.2.2)
  decrypt key nonce aad ct := (idVectors.find? fun v =>
    key = List.replicate 16 0 ∧ nonce = v.1 ∧ aad = v.2.1 ∧ ct = v.2.2.2).map (·.2.2.1)

/-- What is sealed is in the table, and no nonce is there twice. -/
theorem idGcm_encrypt {key nonce aad msg ct : Bytes} (h : idGcm.encrypt key nonce aad msg = some ct) :
    key = List.replicate 16 0 ∧ (nonce, aad, msg, ct) ∈ idVectors := by
  obtain ⟨v, hfind, rfl⟩ := Option.map_eq_some_iff.mp h
  have hv := List.find?_some hfind
  simp only [decide_eq_true_eq] at hv
  obtain ⟨rfl, rfl, rfl, rfl⟩ := hv
  exact ⟨rfl, List.mem_of_find?_eq_some hfind⟩

theorem idVectors_spec : ∀ v ∈ idVectors, v.2.2.2.length = v.2.2.1.length + tagLen ∧
    idGcm.decrypt (List.replicate 16 0) v.1 v.2.1 v.2.2.2 = some v.2.2.1 ∧
    ∀ v' ∈ idVectors, v.1 = v'.1 → v.2.1 = v'.2.1 := by
  decide +kernel

theorem opensSealed_idGcm : @OpensSealed idGcm := by
  have htag : ∀ {key nonce aad msg ct}, idGcm.encrypt key nonce aad msg = some ct →
      tagLen ≤ ct.length ∧ idGcm.decrypt key nonce aad ct = some msg := by
    intro key nonce aad msg ct h
    obtain ⟨rfl, hmem⟩ := idGcm_encrypt h
    obtain ⟨hlen, hopen, -⟩ := idVectors_spec _ hmem
    exact ⟨hlen ▸ Nat.le_add_left _ _, hopen⟩
  exact @OpensSealed.mk idGcm (fun h => (htag h).1) fun h => (htag h).2

theorem appendsTag_idGcm : @AppendsTag idGcm := by
  intro key nonce aad msg ct h
  obtain ⟨-, hmem⟩ := idGcm_encrypt h
  exact (idVectors_spec _ hmem).1

/-- The key of zeros. -/
def idKey : AesKey := firstColumn.key

/-- The nonces of `idVectors`. -/
def idNonces : FixedNonceSource := firstColumn.nonces

/-- A column of two values, with an encrypted footer, under a prefix. -/
theorem writeEncrypted_sample : ∃ w, @writeI32ColumnEncrypted idGcm .debug _ _ Platform.stored
    .encrypted (.ok ⟨List.replicate 16 7, rfl⟩) idNonces "id" [7, 5] idKey (some [9]) = .ok w ∧
    w.Short := by
  let _ := idGcm
  let _ := Platform.stored
  have hlengths : (fun w => (w.header.length, w.body.length, w.trailer.length)) <$>
      writeI32ColumnEncrypted .debug .encrypted (.ok ⟨List.replicate 16 7, rfl⟩) idNonces "id" [7, 5]
        idKey (some [9]) = .ok (79, 40, 177) := by
    decide +kernel
  obtain ⟨w, hw, hlengths⟩ := map_eq_ok.mp hlengths
  simp only [Prod.mk.injEq] at hlengths
  obtain ⟨hheader, hbody, htrailer⟩ := hlengths
  exact ⟨w, hw, by rw [hheader]; decide, by rw [hbody]; decide, by rw [htrailer]; decide⟩

theorem writeI32ColumnEncrypted_read_sample : ∃ w header,
    @readEncryptedI32 idGcm .debug (EncryptedColumn.bytes w) idKey (some [9])
      = .ok (w.metadata, header, [7, 5]) ∧
    ParquetFile.open w.bytes
      = ioErr (.notAParquetFile parquetMagic parquetMagicEncrypted "file tail") := by
  let _ := idGcm
  let _ := Platform.stored
  obtain ⟨w, hw, hshort⟩ := writeEncrypted_sample
  obtain ⟨hread, -, hplain⟩ :=
    writeI32ColumnEncrypted_read opensSealed_idGcm appendsTag_idGcm hw hshort
  exact ⟨w, _, hread, hplain rfl⟩

end EmatixParquet
