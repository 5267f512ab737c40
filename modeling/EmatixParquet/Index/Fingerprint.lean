/-
  The source fingerprint (`index/fingerprint.rs`) and the comparison that opens a
  sidecar (`index/reader.rs`).

  * `crc32Ieee_eq`: the table-driven checksum is the complement of the register
    that the bit stream leaves;
  * `crc32Ieee_ne`: it changes with every change inside 32 consecutive bits;
  * `verifySource_eq_ok`: a source is accepted when its fingerprint is the one in
    the manifest.
-/
import EmatixParquet.Codec.Read
import EmatixParquet.Index.ManifestJson
import EmatixParquet.Index.Rowset
import EmatixParquet.Wire.Crc

namespace EmatixParquet

open Wire

/-! ## The checksum -/

/-- One turn of the inner loop of `build_crc32_table`. -/
def crc32Round (c : UInt32) : UInt32 :=
  if c &&& 1 ≠ 0 then (0xEDB88320 : UInt32) ^^^ (c >>> 1) else c >>> 1

/-- `build_crc32_table`. -/
def buildCrc32Table : Vector UInt32 256 :=
  Vector.ofFn fun i => crc32Round^[8] (UInt32.ofNat i)

theorem and_ff_lt (x : UInt32) : (x &&& 0xFF).toNat < 256 := by
  rw [UInt32.toNat_and]
  exact Nat.lt_succ_of_le Nat.and_le_right

/-- One turn of `crc32_ieee`. -/
def crc32Step (crc : UInt32) (b : UInt8) : UInt32 :=
  (crc >>> 8) ^^^ buildCrc32Table.get ⟨((crc ^^^ b.toUInt32) &&& 0xFF).toNat, and_ff_lt _⟩

/-- `crc32_ieee`. -/
def crc32Ieee (bytes : Bytes) : UInt32 := ~~~(bytes.foldl crc32Step (~~~0))

/-- The reference: the register, complemented at first and at last, is shifted
    once for each bit of the stream, under the reflected polynomial. -/
def crc32Bitwise (bytes : Bytes) : BitVec 32 :=
  ~~~(feedBits 0xEDB88320#32 (~~~0#32) (bitStream bytes))

/-- The check value of CRC-32/ISO-HDLC. -/
example : crc32Ieee [0x31, 0x32, 0x33, 0x34, 0x35, 0x36, 0x37, 0x38, 0x39] = 0xCBF43926 := by
  decide +kernel

/-! ## The fingerprint -/

/-- `compute_source_fingerprint`. -/
def computeSourceFingerprint (file : ParquetFile) : Res CodecError SourceFingerprint := do
  let footer := file.footerBytes
  if 2 ^ 32 ≤ footer.length then codecErr (.invalidInput
    s!"footer length {footer.length} exceeds u32 range (corrupted parquet?)")
  else do
    let footerCrc32 := crc32Ieee footer
    let md ← mapIo (fun e => .invalidInput s!"read parquet metadata: {e.display}") file.metadata
    if 2 ^ 32 ≤ md.rowGroups.length then
      codecErr (.invalidInput s!"num_row_groups {md.rowGroups.length} exceeds u32 range")
    else pure { footerLength := UInt32.ofNat footer.length, footerCrc32, numRows := md.numRows,
                numRowGroups := UInt32.ofNat md.rowGroups.length }

/-- The comparison that both openers make. -/
def verifySource (manifest : IndexManifest) (source : ParquetFile) : Res CodecError Unit := do
  let actual ← computeSourceFingerprint source
  if actual ≠ manifest.sourceFingerprint then
    codecErr (manifestErr (.sourceFingerprintMismatch manifest.sourceFingerprint actual))
  else pure ()

/-- The manifest among the key-value pairs, newest version first. -/
def findManifest (kvs : List KeyValue) : Option (KeyValue × RowsetFormat) :=
  let find (key : String) (format : RowsetFormat) :=
    (kvs.find? fun kv => kv.key == asBytes key).map (·, format)
  (find manifestKeyV3 .v2Tagged).or
    ((find manifestKeyV2 .v2Tagged).or (find manifestKey .v1Raw))

/-- An opened sidecar, before its indexes are decoded. -/
structure LazyParquetIndex where
  idxFile : ParquetFile
  manifest : IndexManifest
  rowsetFormat : RowsetFormat
  deriving DecidableEq, Repr

section
variable [FloatText]

/-- The sidecar of the given content and its manifest. -/
def readManifest (idx : Bytes) : Res CodecError LazyParquetIndex := do
  let idxFile ← mapIo (fun e => .invalidInput s!"open sidecar: {e.display}") (ParquetFile.open idx)
  let md ← mapIo (fun e => .invalidInput s!"read sidecar metadata: {e.display}") idxFile.metadata
  let kvs ← okOr md.keyValueMetadata (manifestErr .missing)
  let (manifestKv, rowsetFormat) ← okOr (findManifest kvs) (manifestErr .missing)
  let manifestJsonBytes ← okOr manifestKv.value (manifestErr .missing)
  let manifestJson ← okOr (fromUtf8 manifestJsonBytes)
    (manifestErr (.malformed "manifest value is not valid UTF-8"))
  let manifest ← (IndexManifest.fromJson manifestJson).mapError fun e => .err (manifestErr e)
  pure { idxFile, manifest, rowsetFormat }

/-- `LazyParquetIndex::open`, and `ParquetIndex::open` before it loads the
    indexes. -/
def LazyParquetIndex.open (idx : Bytes) (source : ParquetFile) : Res CodecError LazyParquetIndex := do
  let index ← readManifest idx
  let _ ← verifySource index.manifest source
  pure index

end

/-! ## The table -/

theorem toBitVec_crc32Round (c : UInt32) :
    (crc32Round c).toBitVec = shiftOut 0xEDB88320#32 c.toBitVec := by
  have hlow : (c &&& 1 ≠ 0) ↔ c.toBitVec.getLsbD 0 = true := by
    have hnat : (c &&& 1).toNat = c.toNat % 2 := by
      rw [UInt32.toNat_and]
      exact Nat.and_one_is_mod _
    rw [Ne, ← UInt32.toNat_inj, hnat, BitVec.getLsbD, Nat.testBit_zero]
    simp
  rw [crc32Round, shiftOut]
  by_cases h : c.toBitVec.getLsbD 0
  · rw [if_pos (hlow.mpr h), if_pos h]
    rfl
  · rw [if_neg (mt hlow.mp h), if_neg h]
    rfl

theorem toBitVec_iterate (k : ℕ) (c : UInt32) :
    (crc32Round^[k] c).toBitVec = (shiftOut 0xEDB88320#32)^[k] c.toBitVec :=
  (Function.Semiconj.iterate_right toBitVec_crc32Round k) c

theorem get_buildCrc32Table (i : Fin 256) :
    buildCrc32Table.get i = crc32Round^[8] (UInt32.ofNat i) := by
  change buildCrc32Table[i.val] = _
  rw [buildCrc32Table, Vector.getElem_ofFn]

/-- An entry of the table replaces eight rounds. -/
theorem toBitVec_crc32Step (crc : UInt32) (b : UInt8) :
    (crc32Step crc b).toBitVec
      = (shiftOut 0xEDB88320#32)^[8] (crc.toBitVec ^^^ BitVec.ofNat 32 b.toNat) := by
  have hbyte : b.toUInt32.toBitVec = BitVec.ofNat 32 b.toNat := by
    refine BitVec.eq_of_toNat_eq ?_
    have hlt := b.toNat_lt
    rw [BitVec.toNat_ofNat, Nat.mod_eq_of_lt (by omega)]
    rfl
  have hentry : buildCrc32Table.get ⟨((crc ^^^ b.toUInt32) &&& 0xFF).toNat, and_ff_lt _⟩
      = crc32Round^[8] ((crc ^^^ b.toUInt32) &&& 0xFF) := by
    rw [get_buildCrc32Table, UInt32.ofNat_toNat]
  have hshift : (crc >>> 8).toBitVec = (crc.toBitVec ^^^ BitVec.ofNat 32 b.toNat) >>> 8 := by
    have hzero : BitVec.ofNat 32 b.toNat >>> 8 = 0#32 := by
      refine BitVec.eq_of_toNat_eq ?_
      have hlt := b.toNat_lt
      simp only [BitVec.toNat_ushiftRight, BitVec.toNat_ofNat, Nat.shiftRight_eq_div_pow]
      omega
    rw [BitVec.ushiftRight_xor_distrib, hzero, BitVec.xor_zero]
    rfl
  rw [crc32Step, hentry, UInt32.toBitVec_xor, toBitVec_iterate, hshift, UInt32.toBitVec_and,
    UInt32.toBitVec_xor, hbyte, shiftOut_iterate_eq (crc.toBitVec ^^^ BitVec.ofNat 32 b.toNat) 8]
  rfl

/-- **The table computes the reference.** -/
theorem crc32Ieee_eq (bytes : Bytes) : (crc32Ieee bytes).toBitVec = crc32Bitwise bytes := by
  have hfold (crc : UInt32) : (bytes.foldl crc32Step crc).toBitVec
      = feedBits 0xEDB88320#32 crc.toBitVec (bitStream bytes) := by
    rw [feedBits_bitStream (by decide)]
    induction bytes generalizing crc with
    | nil => rfl
    | cons b bytes ih => rw [List.foldl_cons, List.foldl_cons, ih, toBitVec_crc32Step]
  rw [crc32Ieee, UInt32.toBitVec_not, hfold, crc32Bitwise]
  rfl

/-! ## Drift -/

/-- Two byte strings of one length that differ, all within the 32 bits of the bit
    stream from `p` on. -/
structure LocalDrift (p : ℕ) (as bs : Bytes) : Prop where
  length : as.length = bs.length
  ne : as ≠ bs
  window : ∀ i, (bitStream as)[i]? ≠ (bitStream bs)[i]? → p ≤ i ∧ i < p + 32

theorem crc32Ieee_ne {p : ℕ} {as bs : Bytes} (h : LocalDrift p as bs) :
    crc32Ieee as ≠ crc32Ieee bs := by
  intro heq
  have hbits := congrArg UInt32.toBitVec heq
  rw [crc32Ieee_eq, crc32Ieee_eq, crc32Bitwise, crc32Bitwise, BitVec.not_inj] at hbits
  refine feedBits_ne_of_window (by decide) (~~~0#32) ?_ ?_ h.window hbits
  · rw [length_bitStream, length_bitStream, h.length]
  · exact fun hstream => h.ne (bitStream_injective hstream)

/-- A fingerprint has the checksum of the footer. -/
theorem footerCrc32_of_ok {file : ParquetFile} {fp : SourceFingerprint}
    (h : computeSourceFingerprint file = .ok fp) : fp.footerCrc32 = crc32Ieee file.footerBytes := by
  rw [computeSourceFingerprint] at h
  split at h
  · cases h
  · obtain ⟨md, -, h⟩ := bind_eq_ok.mp h
    split at h
    · cases h
    · cases h
      rfl

theorem verifySource_eq_ok {manifest : IndexManifest} {source : ParquetFile} :
    verifySource manifest source = .ok ()
      ↔ computeSourceFingerprint source = .ok manifest.sourceFingerprint := by
  rw [verifySource, bind_eq_ok]
  constructor
  · rintro ⟨actual, hactual, h⟩
    split at h
    · cases h
    · next heq => rw [hactual, not_not.mp heq]
  · exact fun h => ⟨_, h, if_neg (not_not.mpr rfl)⟩

/-- What is opened has the manifest of its source. -/
theorem open_eq_ok [FloatText] {idx : Bytes} {source : ParquetFile} {index : LazyParquetIndex} :
    LazyParquetIndex.open idx source = .ok index
      ↔ readManifest idx = .ok index ∧ verifySource index.manifest source = .ok () := by
  rw [LazyParquetIndex.open, bind_eq_ok]
  constructor
  · rintro ⟨index', hread, h⟩
    obtain ⟨⟨⟩, hverify, h⟩ := bind_eq_ok.mp h
    cases h
    exact ⟨hread, hverify⟩
  · rintro ⟨hread, hverify⟩
    exact ⟨index, hread, bind_eq_ok.mpr ⟨(), hverify, rfl⟩⟩

/-- **Local drift is detected**: the checksum is the reference's, it tells apart
    what differs within 32 consecutive bits, and so the fingerprint of a footer
    refuses every footer modified that way. -/
theorem fingerprint_detects :
    (∀ bytes : Bytes, (crc32Ieee bytes).toBitVec = crc32Bitwise bytes) ∧
    (∀ (p : ℕ) (as bs : Bytes), LocalDrift p as bs → crc32Ieee as ≠ crc32Ieee bs) ∧
    ∀ (p : ℕ) (file modified : ParquetFile) (manifest : IndexManifest),
      computeSourceFingerprint file = .ok manifest.sourceFingerprint →
      LocalDrift p file.footerBytes modified.footerBytes →
      (∀ actual, computeSourceFingerprint modified = .ok actual →
        verifySource manifest modified
          = codecErr (manifestErr (.sourceFingerprintMismatch manifest.sourceFingerprint actual))) ∧
      ∀ [FloatText] (idx : Bytes) (index : LazyParquetIndex), index.manifest = manifest →
        LazyParquetIndex.open idx modified ≠ .ok index := by
  refine ⟨crc32Ieee_eq, fun _ _ _ => crc32Ieee_ne, ?_⟩
  intro p file modified manifest hfile hdrift
  have hne : ∀ actual, computeSourceFingerprint modified = .ok actual →
      actual ≠ manifest.sourceFingerprint := by
    intro actual hactual heq
    refine crc32Ieee_ne hdrift ?_
    rw [← footerCrc32_of_ok hfile, ← footerCrc32_of_ok hactual, heq]
  refine ⟨fun actual hactual => ?_, ?_⟩
  · rw [verifySource, hactual, ok_bind, if_pos (hne actual hactual)]
  · rintro _ idx index rfl hopen
    exact hne _ (verifySource_eq_ok.mp (open_eq_ok.mp hopen).2) rfl

/-- A footer without columns, of so many rows. -/
def emptyFooter (rows : Int64) : FileMetaData where
  version := 1
  schema := []
  numRows := rows
  rowGroups := []

/-- The file whose footer is the given bytes. -/
def footerFile (footer : Bytes) : ParquetFile where
  bytes := []
  footerBytes := footer
  footerOffset := 0

/-- A footer that declares one row. -/
def oneRowFooter : Bytes := [0x15, 0x02, 0x19, 0x0C, 0x16, 0x02, 0x19, 0x0C, 0x00]

/-- The same footer with two rows. -/
def twoRowFooter : Bytes := [0x15, 0x02, 0x19, 0x0C, 0x16, 0x04, 0x19, 0x0C, 0x00]

/-- The fingerprint of such a footer. -/
def rowsFingerprint (footer : Bytes) (rows : Int64) : SourceFingerprint where
  footerLength := 9
  footerCrc32 := crc32Ieee footer
  numRows := rows
  numRowGroups := 0

theorem computeSourceFingerprint_rows {footer : Bytes} {rows : Int64}
    (hw : writeFileMetadata (emptyFooter rows) = .ok footer) (hlen : footer.length = 9) :
    computeSourceFingerprint (footerFile footer) = .ok (rowsFingerprint footer rows) := by
  have hfooter : (footerFile footer).footerBytes = footer := rfl
  have hmd : (footerFile footer).metadata = .ok (emptyFooter rows) :=
    ParquetFile.metadata_of_written hw (by rw [hfooter, hlen]; decide)
  rw [computeSourceFingerprint, hfooter, hlen, if_neg (by decide), hmd]
  rfl

/-- One byte of the footer differs. -/
theorem localDrift_rows : LocalDrift 40 oneRowFooter twoRowFooter where
  length := rfl
  ne := by decide
  window i h := by
    have hbefore : ∀ i < 40, (bitStream oneRowFooter)[i]? = (bitStream twoRowFooter)[i]? := by decide
    by_contra hout
    rcases Nat.lt_or_ge i 40 with hi | hi
    · exact h (hbefore i hi)
    · have hlen : (bitStream oneRowFooter).length = 72 := length_bitStream _
      have hlen' : (bitStream twoRowFooter).length = 72 := length_bitStream _
      exact h (by rw [List.getElem?_eq_none (by omega), List.getElem?_eq_none (by omega)])

/-- A second row, without a new manifest. -/
theorem fingerprint_detects_rows :
    crc32Ieee oneRowFooter ≠ crc32Ieee twoRowFooter ∧
    verifySource { sourceFingerprint := rowsFingerprint oneRowFooter 1, indexes := [] }
        (footerFile twoRowFooter)
      = codecErr (manifestErr (.sourceFingerprintMismatch (rowsFingerprint oneRowFooter 1)
          (rowsFingerprint twoRowFooter 2))) :=
  ⟨fingerprint_detects.2.1 40 _ _ localDrift_rows,
    (fingerprint_detects.2.2 40 (footerFile oneRowFooter) (footerFile twoRowFooter)
      { sourceFingerprint := rowsFingerprint oneRowFooter 1, indexes := [] }
      (computeSourceFingerprint_rows rfl rfl) localDrift_rows).1 _
      (computeSourceFingerprint_rows rfl rfl)⟩

end EmatixParquet
