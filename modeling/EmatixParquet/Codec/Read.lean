/-
  Column reads (`read.rs`) — locating a column chunk, viewing its data pages,
  and decoding them whole or only at the rows of a mask.

  * `readChunkRaw_eq`: the bytes of a chunk are the range its metadata names;
  * `dataPageView_info`: a view carries the count and the encoding of the
    header;
  * `decodeChunk_eq`, `decodeChunkMasked_eq`: both readers are folds over the
    pages of the chunk.
-/
import EmatixParquet.Codec.Compression
import EmatixParquet.Codec.Levels
import EmatixParquet.Io.Pages

namespace EmatixParquet

open Wire

variable {α : Type}

/-- `{encoding:?}`. -/
def Encoding.debug : Encoding → String
  | .plain => "Plain" | .plainDictionary => "PlainDictionary" | .rle => "Rle"
  | .bitPacked => "BitPacked" | .deltaBinaryPacked => "DeltaBinaryPacked"
  | .deltaLengthByteArray => "DeltaLengthByteArray" | .deltaByteArray => "DeltaByteArray"
  | .rleDictionary => "RleDictionary" | .byteStreamSplit => "ByteStreamSplit"

/-- The error of a file, as the readers report it. -/
def ioToCodec (e : IoError) : CodecError := .invalidInput s!"io: {e.display}"

/-- `.map_err(f)?`. -/
def mapIo (f : IoError → CodecError) (x : Res IoError α) : Res CodecError α :=
  x.mapError (Fault.map f)

/-- `.ok_or_else(|| e)?`. -/
def okOr (o : Option α) (e : CodecError) : Res CodecError α :=
  match o with
  | some a => .ok a
  | none => codecErr e

@[simp] theorem mapIo_ok (f : IoError → CodecError) (a : α) : mapIo f (.ok a) = .ok a := rfl

@[simp] theorem okOr_some (a : α) (e : CodecError) : okOr (some a) e = .ok a := rfl

theorem okOr_eq_ok {o : Option α} {e : CodecError} {a : α} : okOr o e = .ok a ↔ o = some a := by
  cases o <;> simp [okOr, codecErr]

/-! ## Chunks -/

/-- Where a chunk begins and how long it is: the dictionary page comes first. -/
def chunkRange (cm : ColumnMetaData) : ℕ × ℕ :=
  let start := (cm.dictionaryPageOffset.filter fun d => d < cm.dataPageOffset).getD
    cm.dataPageOffset
  (start.toUInt64.toNat, cm.totalCompressedSize.toUInt64.toNat)

/-- What `read_chunk_raw` returns. -/
structure RawChunk where
  bytes : Bytes
  totalValues : ℕ
  codec : CompressionCodec
  maxRepLevel : UInt16
  maxDefLevel : UInt16
  deriving DecidableEq, Repr

/-- The inline metadata of a chunk. -/
def columnMetaData (md : FileMetaData) (rowGroup column : ℕ) : Res CodecError ColumnMetaData := do
  let rg ← okOr md.rowGroups[rowGroup]? (.invalidInput s!"row group {rowGroup} out of range")
  let col ← okOr rg.columns[column]? (.invalidInput s!"column {column} out of range")
  okOr col.metaData (.invalidInput "column missing inline meta_data")

/-- `read_chunk_raw`: the bytes of a chunk, and what is needed to decode them. -/
def readChunkRaw (file : ParquetFile) (rowGroup column : ℕ) : Res CodecError RawChunk := do
  let md ← mapIo ioToCodec file.metadata
  let cm ← columnMetaData md rowGroup column
  let bytes ← mapIo ioToCodec (file.readRange (chunkRange cm).1 (chunkRange cm).2)
  let levels ← computeMaxLevels md.schema column
  pure { bytes, totalValues := cm.numValues.toUInt64.toNat, codec := cm.codec,
         maxRepLevel := levels.1, maxDefLevel := levels.2 }

/-- A chunk whose metadata and range are in order. -/
theorem readChunkRaw_eq {file : ParquetFile} {rowGroup column : ℕ} {md : FileMetaData}
    {cm : ColumnMetaData} {bytes : Bytes} {levels : UInt16 × UInt16}
    (hmd : file.metadata = .ok md) (hcm : columnMetaData md rowGroup column = .ok cm)
    (hbytes : file.readRange (chunkRange cm).1 (chunkRange cm).2 = .ok bytes)
    (hlevels : computeMaxLevels md.schema column = .ok levels) :
    readChunkRaw file rowGroup column = .ok
      { bytes, totalValues := cm.numValues.toUInt64.toNat, codec := cm.codec,
        maxRepLevel := levels.1, maxDefLevel := levels.2 } := by
  unfold readChunkRaw
  rw [hmd]
  change (columnMetaData md rowGroup column >>= _) = _
  rw [hcm]
  change (mapIo ioToCodec (file.readRange _ _) >>= _) = _
  rw [hbytes]
  change (computeMaxLevels md.schema column >>= _) = _
  rw [hlevels]
  rfl

theorem mapIo_eq_ok {f : IoError → CodecError} {x : Res IoError α} {a : α} :
    mapIo f x = .ok a ↔ x = .ok a := by
  cases x <;> simp [mapIo, Except.mapError]

/-- What a chunk was made of. -/
theorem readChunkRaw_ok {file : ParquetFile} {rowGroup column : ℕ} {chunk : RawChunk}
    (h : readChunkRaw file rowGroup column = .ok chunk) :
    ∃ md cm bytes levels, file.metadata = .ok md ∧ columnMetaData md rowGroup column = .ok cm ∧
      file.readRange (chunkRange cm).1 (chunkRange cm).2 = .ok bytes ∧
      computeMaxLevels md.schema column = .ok levels ∧
      chunk = { bytes, totalValues := cm.numValues.toUInt64.toNat, codec := cm.codec,
                maxRepLevel := levels.1, maxDefLevel := levels.2 } := by
  obtain ⟨md, hmd, h⟩ := bind_eq_ok.mp h
  obtain ⟨cm, hcm, h⟩ := bind_eq_ok.mp h
  obtain ⟨bytes, hbytes, h⟩ := bind_eq_ok.mp h
  obtain ⟨levels, hlevels, h⟩ := bind_eq_ok.mp h
  cases h
  exact ⟨md, cm, bytes, levels, mapIo_eq_ok.mp hmd, hcm, mapIo_eq_ok.mp hbytes, hlevels, rfl⟩

/-! ## Data pages -/

/-- The size after decompression: not negative. -/
def pageUncompressedSize (hdr : PageHeader) : Res CodecError ℕ :=
  if hdr.uncompressedPageSize < 0 then codecErr (.invalidInput
    s!"page header uncompressed_page_size is negative ({hdr.uncompressedPageSize.toInt})")
  else .ok (i32AsUsize hdr.uncompressedPageSize)

/-- A data page: its values without levels, their number and their encoding. -/
structure DataPageInfo where
  numValues : ℕ
  encoding : Encoding
  values : Bytes
  deriving DecidableEq, Repr

/-- The error of a data page without a header for it. -/
def missingDataHeader : CodecError := .invalidInput "data page missing both V1 and V2 header"

/-- The number of values that the header counts. -/
def dataPageNumValues (hdr : PageHeader) : Res CodecError ℕ :=
  match hdr.dataPageHeader, hdr.dataPageHeaderV2 with
  | some dph, _ => .ok (i32AsUsize dph.numValues)
  | none, some dph => .ok (i32AsUsize dph.numValues)
  | none, none => codecErr missingDataHeader

section
variable [Platform]

/-- The values of a decompressed V1 body come after its levels. -/
def valuesAfterLevels (decomp : Bytes) (chunk : RawChunk) : Res CodecError Bytes :=
  if chunk.maxRepLevel = 0 ∧ chunk.maxDefLevel = 0 then .ok decomp
  else decomp.drop <$> skipV1LevelPrefixes decomp chunk.maxRepLevel chunk.maxDefLevel

/-- A V1 body is compressed as a whole. -/
def dataPageViewV1 (dph : DataPageHeader) (uncompressedSize : ℕ) (body : Bytes)
    (chunk : RawChunk) : Res CodecError DataPageInfo := do
  let decomp ← decompressInto chunk.codec body uncompressedSize
  let values ← valuesAfterLevels decomp chunk
  pure { numValues := i32AsUsize dph.numValues, encoding := dph.encoding, values }

/-- The values of a V2 body, after its `prefixLen` bytes of levels, which are
    not compressed. -/
def valuesAfterPrefix (dph : DataPageHeaderV2) (uncompressedSize prefixLen : ℕ) (body : Bytes)
    (chunk : RawChunk) : Res CodecError Bytes :=
  if body.length < prefixLen then codecErr (.invalidInput
    s!"DataPageV2 body too short: {body.length} bytes, need {prefixLen} for rep+def")
  else if dph.isCompressed ∧ chunk.codec ≠ .uncompressed then
    decompressInto chunk.codec (body.drop prefixLen) (uncompressedSize - prefixLen)
  else .ok (body.drop prefixLen)

/-- A V2 page: its levels are not compressed. -/
def dataPageViewV2 (dph : DataPageHeaderV2) (uncompressedSize : ℕ) (body : Bytes)
    (chunk : RawChunk) : Res CodecError DataPageInfo := do
  let prefixLen := (i32AsUsize dph.repetitionLevelsByteLength
    + i32AsUsize dph.definitionLevelsByteLength) % usizeBound
  let values ← valuesAfterPrefix dph uncompressedSize prefixLen body chunk
  pure { numValues := i32AsUsize dph.numValues, encoding := dph.encoding, values }

/-- `data_page_view`. -/
def dataPageView (page : Page) (chunk : RawChunk) : Res CodecError DataPageInfo := do
  let uncompressedSize ← pageUncompressedSize page.1
  match page.1.dataPageHeader, page.1.dataPageHeaderV2 with
  | some dph, _ => dataPageViewV1 dph uncompressedSize page.2 chunk
  | none, some dph => dataPageViewV2 dph uncompressedSize page.2 chunk
  | none, none => codecErr missingDataHeader

/-- V1 and V2 data pages. -/
def PageType.IsData (t : PageType) : Prop := t = .dataPage ∨ t = .dataPageV2

instance : DecidablePred PageType.IsData := fun _ => inferInstanceAs (Decidable (_ ∨ _))

omit [Platform] in
theorem PageType.IsData.ne_dictionary {t : PageType} (h : t.IsData) : t ≠ .dictionaryPage := by
  rcases h with rfl | rfl <;> nofun

omit [Platform] in
theorem PageType.IsData.ne_index {t : PageType} (h : t.IsData) : t ≠ .indexPage := by
  rcases h with rfl | rfl <;> nofun

/-- The encoding in the header of a data page. -/
def pageEncoding (hdr : PageHeader) : Option Encoding :=
  match hdr.dataPageHeader, hdr.dataPageHeaderV2 with
  | some dph, _ => some dph.encoding
  | none, some dph => some dph.encoding
  | none, none => none

theorem dataPageView_info {page : Page} {chunk : RawChunk} {info : DataPageInfo}
    (h : dataPageView page chunk = .ok info) :
    dataPageNumValues page.1 = .ok info.numValues ∧ pageEncoding page.1 = some info.encoding := by
  obtain ⟨size, -, h⟩ := bind_eq_ok.mp h
  unfold dataPageNumValues pageEncoding
  cases hv1 : page.1.dataPageHeader with
  | some dph =>
    rw [hv1] at h
    obtain ⟨decomp, -, h⟩ := bind_eq_ok.mp h
    obtain ⟨values, -, h⟩ := bind_eq_ok.mp h
    cases h
    exact ⟨rfl, rfl⟩
  | none =>
    cases hv2 : page.1.dataPageHeaderV2 with
    | none => simp [hv1, hv2, codecErr] at h
    | some dph =>
      rw [hv1, hv2] at h
      obtain ⟨values, -, h⟩ := bind_eq_ok.mp h
      cases h
      exact ⟨rfl, rfl⟩

/-- The content of a dictionary page. -/
def dictionaryPage (decodePlain : Bytes → Res CodecError (List α)) (page : Page)
    (chunk : RawChunk) : Res CodecError (List α) := do
  let size ← pageUncompressedSize page.1
  let decomp ← decompressInto chunk.codec page.2 size
  decodePlain decomp

/-! ## Full decoding -/

/-- How a column type is decoded: PLAIN bytes, and the body of a dictionary
    page's data pages. -/
structure PageDecoder (α : Type) where
  plain : Bytes → Res CodecError (List α)
  dict : List α → ℕ → Bytes → Res CodecError (List α)

/-- The dictionary of the chunk so far, and the output. -/
structure DecodeState (α : Type) where
  dict : List α := []
  out : List α := []

/-- The values of a data page. -/
def decodeValues (dec : PageDecoder α) (dict : List α) (info : DataPageInfo) :
    Res CodecError (List α) :=
  match info.encoding with
  | .plain => dec.plain info.values
  | .rleDictionary | .plainDictionary =>
    if dict = [] then codecErr (.invalidInput "dict-encoded data page before dictionary")
    else dec.dict dict info.numValues info.values
  | other => codecErr (.unsupported s!"encoding not yet dispatched by façade: {other.debug}")

/-- What one page does to the state. -/
def decodePage (dec : PageDecoder α) (chunk : RawChunk) (s : DecodeState α) (page : Page) :
    Res CodecError (DecodeState α) :=
  match page.1.pageType with
  | .dictionaryPage => do
    let dict ← dictionaryPage dec.plain page chunk
    pure { s with dict }
  | .dataPage | .dataPageV2 => do
    let info ← dataPageView page chunk
    let vs ← decodeValues dec s.dict info
    pure { s with out := s.out ++ vs }
  | .indexPage => .ok s

/-- The body of the loop of `decode_chunk_into` and
    `read_column_byte_array_into`. -/
def decodeStep (dec : PageDecoder α) (chunk : RawChunk) (s : DecodeState α) (page : Page) :
    Res CodecError (DecodeState α ⊕ DecodeState α) := do
  let s ← decodePage dec chunk s page
  pure (if chunk.totalValues ≤ s.out.length then .inr s else .inl s)

/-- `decode_chunk`: the pages of a chunk, until the footer's count is reached. -/
def decodeChunk (dec : PageDecoder α) (file : ParquetFile) (rowGroup column : ℕ) :
    Res CodecError (List α) := do
  let chunk ← readChunkRaw file rowGroup column
  let s ← walkPages ioToCodec (decodeStep dec chunk) {} chunk.bytes
  pure s.out

/-- Decoding a chunk is a fold over its pages. -/
theorem decodeChunk_eq {file : ParquetFile} {rowGroup column : ℕ} {chunk : RawChunk}
    {pages : List Page} (dec : PageDecoder α)
    (hchunk : readChunkRaw file rowGroup column = .ok chunk) (hpages : PagesOf chunk.bytes pages) :
    decodeChunk dec file rowGroup column
      = (·.out) <$> foldPages (decodeStep dec chunk) {} pages := by
  rw [decodeChunk, hchunk]
  change (walkPages ioToCodec (decodeStep dec chunk) {} chunk.bytes >>= _) = _
  rw [walkPages_eq hpages]
  rfl

/-- The decoder of a fixed-width type. -/
def fixedDecoder [FixedWidth α] : PageDecoder α where
  plain := decodePlainFixed
  dict dict numValues values := decodeRleDictionary values dict numValues

/-- Byte arrays go by way of the indices. -/
def byteArrayDecoder : PageDecoder Bytes where
  plain := decodePlainByteArray
  dict dict numValues values := do
    let indices ← decodeRleDictionaryIndices values numValues
    indices.mapM fun idx =>
      okOr dict[idx.toNat]? (.invalidInput "dictionary index out of range")

/-- `read_column_i64`. -/
def readColumnI64 : ParquetFile → ℕ → ℕ → Res CodecError (List Int64) := decodeChunk fixedDecoder

/-- `read_column_i32`. -/
def readColumnI32 : ParquetFile → ℕ → ℕ → Res CodecError (List Int32) := decodeChunk fixedDecoder

/-- `read_column_f64`. -/
def readColumnF64 : ParquetFile → ℕ → ℕ → Res CodecError (List F64) := decodeChunk fixedDecoder

/-- `read_column_byte_array`. -/
def readColumnByteArray : ParquetFile → ℕ → ℕ → Res CodecError (List Bytes) :=
  decodeChunk byteArrayDecoder

/-! ## Decoding at the rows of a mask -/

/-- The dictionary, the row the next data page begins at, and the output. -/
structure MaskedState (α : Type) where
  dict : List α := []
  rowCursor : ℕ := 0
  out : List α := []

/-- The values of a data page of `pageN` rows, at the rows of the mask. -/
def maskedValues [FixedWidth α] (dict : List α) (info : DataPageInfo) (pageN : ℕ) (mask : Bytes)
    (rowCursor : ℕ) : Res CodecError (List α) :=
  match info.encoding with
  | .plain => plainSparseDecode info.values pageN mask rowCursor
  | .rleDictionary | .plainDictionary =>
    if dict = [] then codecErr (.invalidInput "dict-encoded data page before dictionary")
    else gatherDictAtBitmap info.values pageN mask rowCursor dict
  | other => codecErr (.unsupported s!"encoding not yet dispatched by façade: {other.debug}")

/-- Past the last row the loop ends. -/
def MaskedState.next (s : MaskedState α) (total : ℕ) : MaskedState α ⊕ MaskedState α :=
  if total ≤ s.rowCursor then .inr s else .inl s

/-- A data page: skipped without decompressing when none of its rows is
    selected. -/
def maskedDataPage [FixedWidth α] (chunk : RawChunk) (mask : Bytes) (s : MaskedState α)
    (page : Page) : Res CodecError (MaskedState α ⊕ MaskedState α) := do
  let pageN ← dataPageNumValues page.1
  let next := s.rowCursor + pageN
  let matched ← popcountRange mask s.rowCursor next
  if matched = 0 then pure (MaskedState.next { s with rowCursor := next } chunk.totalValues)
  else
    let info ← dataPageView page chunk
    let vs ← maskedValues s.dict info pageN mask s.rowCursor
    pure (MaskedState.next { s with rowCursor := next, out := s.out ++ vs } chunk.totalValues)

/-- The body of the loop of `decode_chunk_row_masked_into`. -/
def maskedStep [FixedWidth α] (chunk : RawChunk) (mask : Bytes) (s : MaskedState α)
    (page : Page) : Res CodecError (MaskedState α ⊕ MaskedState α) :=
  match page.1.pageType with
  | .dictionaryPage => do
    let dict ← dictionaryPage decodePlainFixed page chunk
    pure (.inl { s with dict })
  | .dataPage | .dataPageV2 => maskedDataPage chunk mask s page
  | .indexPage => .ok (.inl s)

/-- `decode_chunk_row_masked_into`: the new content of `out`. -/
def decodeChunkMasked [FixedWidth α] (file : ParquetFile) (rowGroup column : ℕ) (mask : Bytes)
    (out : List α) : Res CodecError (List α) := do
  let chunk ← readChunkRaw file rowGroup column
  let requiredMaskBytes := divCeil chunk.totalValues 8
  if mask.length < requiredMaskBytes then codecErr (.invalidInput
    s!"mask too small: {mask.length} bytes for {chunk.totalValues} rows (need ≥ {requiredMaskBytes})")
  else
    let s ← walkPages ioToCodec (maskedStep chunk mask) { out } chunk.bytes
    pure s.out

theorem decodeChunkMasked_eq [FixedWidth α] {file : ParquetFile} {rowGroup column : ℕ} {chunk : RawChunk}
    {pages : List Page} {mask : Bytes} (out : List α)
    (hchunk : readChunkRaw file rowGroup column = .ok chunk) (hpages : PagesOf chunk.bytes pages)
    (hmask : divCeil chunk.totalValues 8 ≤ mask.length) :
    decodeChunkMasked file rowGroup column mask out
      = (·.out) <$> foldPages (maskedStep chunk mask) { out } pages := by
  rw [decodeChunkMasked, hchunk]
  change (if _ then _ else _) = _
  rw [if_neg (by omega)]
  rw [walkPages_eq hpages]
  rfl

/-- `read_column_i64_masked_into`. -/
def readColumnI64Masked : ParquetFile → ℕ → ℕ → Bytes → List Int64 → Res CodecError (List Int64) :=
  decodeChunkMasked

/-- `read_column_i32_masked_into`. -/
def readColumnI32Masked : ParquetFile → ℕ → ℕ → Bytes → List Int32 → Res CodecError (List Int32) :=
  decodeChunkMasked

/-- `read_column_f64_masked_into`. -/
def readColumnF64Masked : ParquetFile → ℕ → ℕ → Bytes → List F64 → Res CodecError (List F64) :=
  decodeChunkMasked

end

end EmatixParquet
