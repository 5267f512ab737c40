/-
  The table writer (`write_table_with_options` of `write.rs`).

  The writer encodes each column of each row group (`encodeColumn`), keeps
  count of the bytes written to know where each page begins (`placeColumns`),
  and records it all in the footer.

  * `rowGroupRanges_eq`: the row groups are the consecutive ranges of
    `rowGroupSize` rows;
  * `fileBytes_column`: the counted positions are where the columns begin;
  * `writeTableWithOptions_eq_ok`: what a table that was written consists of.
-/
import EmatixParquet.Codec.Stats
import EmatixParquet.Io.Pages

namespace EmatixParquet

open Wire

/-- Which header data pages have. -/
inductive PageVersion where
  | v1 | v2
  deriving DecidableEq, Repr

/-- The options; one row group, no compression, no dictionary and no bloom
    filter by default. -/
structure WriteOptions where
  rowGroupSize : ℕ := usizeBound - 1
  pageVersion : PageVersion := .v1
  defaultCodec : CompressionCodec := .uncompressed
  codecPerColumn : Option (List CompressionCodec) := none
  dictPerColumn : Option (List Bool) := none
  bloomFpps : Option (List (Option F64)) := none
  kvMetadata : Option (List (String × String)) := none
  deriving DecidableEq

/-- A table: its columns, with their names. -/
abbrev Columns := List (String × ColumnData)

/-- `option.map(|xs| xs[ix]).unwrap_or(default)`. -/
def perColumn {α : Type} (setting : Option (List α)) (ix : ℕ) (default : α) : Res CodecError α :=
  match setting with
  | some xs => itemAt xs ix
  | none => .ok default

/-! ## Checks -/

/-- A per-column setting has one item for each column. -/
def checkLength {α : Type} (what : String) (setting : Option (List α)) (columns : Columns) :
    Res CodecError Unit :=
  match setting with
  | some xs => if xs.length ≠ columns.length then codecErr (.invalidInput
      s!"{what} length {xs.length} != columns length {columns.length}") else .ok ()
  | none => .ok ()

/-- Boolean columns have no dictionaries. -/
def checkDictColumns : List Bool → Columns → Res CodecError Unit
  | dict :: dicts, (name, col) :: columns =>
    match dict, col with
    | true, .bool _ => codecErr (.unsupported
        s!"column {name.quote}: dict encoding not supported for BOOLEAN")
    | _, _ => checkDictColumns dicts columns
  | _, _ => .ok ()

/-- The checks of the dictionary settings. -/
def checkDict (options : WriteOptions) (columns : Columns) : Res CodecError Unit :=
  match options.dictPerColumn with
  | some d =>
    if options.pageVersion = .v2 ∧ d.any id then
      codecErr (.unsupported "dict-encoded columns + V2 pages not yet supported")
    else checkDictColumns d columns
  | none => .ok ()

/-- Every column has as many rows as the first. -/
def checkRowCounts (totalRows : ℕ) : Columns → Res CodecError Unit
  | [] => .ok ()
  | (name, c) :: columns =>
    if c.rowCount ≠ totalRows then codecErr (.invalidInput
      s!"column {name.quote} has row count {c.rowCount} but first column has {totalRows}")
    else checkRowCounts totalRows columns

/-- The checks before anything is written, and the number of rows. -/
def checkTable (columns : Columns) (options : WriteOptions) : Res CodecError ℕ :=
  match columns with
  | [] => codecErr (.invalidInput "write_table requires at least one column")
  | (_, first) :: rest => do
    if options.rowGroupSize = 0 then codecErr (.invalidInput "row_group_size must be > 0")
    else
      checkLength "codec_per_column" options.codecPerColumn columns
      checkLength "dict_per_column" options.dictPerColumn columns
      checkDict options columns
      checkRowCounts first.rowCount rest
      pure first.rowCount

/-- `while row_start < total_rows || !emitted_any`, for at most `turns` turns. -/
def rowGroupsFrom (totalRows rowGroupSize : ℕ) : ℕ → ℕ → List (ℕ × ℕ)
  | 0, _ => []
  | turns + 1, rowStart =>
    let rowEnd := if totalRows = 0 then 0 else min (rowStart + rowGroupSize) totalRows
    (rowStart, rowEnd) ::
      if rowEnd < totalRows then rowGroupsFrom totalRows rowGroupSize turns rowEnd else []

/-- The row ranges of the row groups; each turn takes at least one row. -/
def rowGroupRanges (totalRows rowGroupSize : ℕ) : List (ℕ × ℕ) :=
  rowGroupsFrom totalRows rowGroupSize (totalRows + 1) 0

/-! ## Pages -/

/-- A page as the writer has it: its header, the number of its values, its body
    before compression and as written. -/
structure EncodedPage where
  header : PageHeader
  numValues : ℕ
  uncompressed : Bytes
  body : Bytes

/-- The page as it is written. -/
def EncodedPage.bytes (p : EncodedPage) : Bytes := writePage (p.header, p.body)

/-- The header of a dictionary page, whose entries are PLAIN. -/
def dictionaryPageHeader (dictLen uncompressed compressed : ℕ) : PageHeader where
  pageType := .dictionaryPage
  uncompressedPageSize := Int32.ofNat uncompressed
  compressedPageSize := Int32.ofNat compressed
  crc := none
  dataPageHeader := none
  indexPageHeader := none
  dictionaryPageHeader := some { numValues := Int32.ofNat dictLen, encoding := .plain,
                                 isSorted := some false }
  dataPageHeaderV2 := none

/-- A V1 data page of a REQUIRED column. -/
def dataPageHeaderV1 (encoding : Encoding) (chunkRows uncompressed compressed : ℕ)
    (stats : ColumnStats) : PageHeader where
  pageType := .dataPage
  uncompressedPageSize := Int32.ofNat uncompressed
  compressedPageSize := Int32.ofNat compressed
  crc := none
  dataPageHeader := some { numValues := Int32.ofNat chunkRows, encoding,
                           definitionLevelEncoding := .rle, repetitionLevelEncoding := .rle,
                           statistics := some stats.asStatistics }
  indexPageHeader := none
  dictionaryPageHeader := none
  dataPageHeaderV2 := none

/-- A V2 data page: no levels, no nulls. -/
def dataPageHeaderV2 (chunkRows uncompressed compressed : ℕ) (codec : CompressionCodec)
    (stats : ColumnStats) : PageHeader where
  pageType := .dataPageV2
  uncompressedPageSize := Int32.ofNat uncompressed
  compressedPageSize := Int32.ofNat compressed
  crc := none
  dataPageHeader := none
  indexPageHeader := none
  dictionaryPageHeader := none
  dataPageHeaderV2 := some { numValues := Int32.ofNat chunkRows, numNulls := 0,
                             numRows := Int32.ofNat chunkRows, encoding := .plain,
                             definitionLevelsByteLength := 0, repetitionLevelsByteLength := 0,
                             isCompressed := codec ≠ .uncompressed,
                             statistics := some stats.asStatistics }

section
variable [Platform]

/-- The values of a column, as they are hashed. -/
def ColumnData.hashInputs : ColumnData → List Bytes
  | .i32 v => v.map toLeBytes
  | .i64 v => v.map toLeBytes
  | .u64 v => v.map toLeBytes
  | .f64 v => v.map toLeBytes
  | .bool v => v.map fun b => [b.toUInt8]
  | .byteArray v => v

/-- `build_bloom_for_column`. -/
def buildBloomForColumn (col : ColumnData) (targetFpp : F64) : Bytes :=
  let numBlocks := optimalNumBlocks col.rowCount targetFpp
  ((SplitBlockBloomFilterBuilder.new numBlocks).insertAll col.hashInputs).intoBytes

/-- A column of a row group, encoded. -/
structure EncodedColumn where
  dictionary : Option EncodedPage
  data : EncodedPage
  stats : ColumnStats
  bloom : Option Bytes

/-- The dictionary page, and a data page of indices. -/
def encodeDictColumn (codec : CompressionCodec) (col : ColumnData) (chunkRows : ℕ)
    (stats : ColumnStats) : Res CodecError (EncodedPage × EncodedPage) :=
  match col.encodeDict with
  | none => .error (.panic "encode_dict None already rejected by precondition checks")
  | some (dictBody, dictLen, indices) => do
    let dictCompressed ← compressBody dictBody codec
    let bitWidth := minBitWidthForDict dictLen
    let dataBody := bitWidth :: encodeRleBitPacked indices bitWidth
    let dataCompressed ← compressBody dataBody codec
    pure ({ header := dictionaryPageHeader dictLen dictBody.length dictCompressed.length
            numValues := dictLen, uncompressed := dictBody, body := dictCompressed },
          { header := dataPageHeaderV1 .plainDictionary chunkRows dataBody.length
              dataCompressed.length stats
            numValues := chunkRows, uncompressed := dataBody, body := dataCompressed })

/-- A PLAIN data page. -/
def encodePlainColumn (version : PageVersion) (codec : CompressionCodec) (col : ColumnData)
    (chunkRows : ℕ) (stats : ColumnStats) : Res CodecError EncodedPage := do
  let body := col.encodePlain
  let compressed ← compressBody body codec
  let header := match version with
    | .v1 => dataPageHeaderV1 .plain chunkRows body.length compressed.length stats
    | .v2 => dataPageHeaderV2 chunkRows body.length compressed.length codec stats
  pure { header, numValues := chunkRows, uncompressed := body, body := compressed }

/-- Column `ix` of a row group. -/
def encodeColumn (options : WriteOptions) (ix : ℕ) (col : ColumnData) (chunkRows : ℕ) :
    Res CodecError EncodedColumn := do
  let stats := computeStats col
  let codec ← perColumn options.codecPerColumn ix options.defaultCodec
  let fpp ← perColumn options.bloomFpps ix none
  let isDict ← perColumn options.dictPerColumn ix false
  let bloom := fpp.map (buildBloomForColumn col)
  if isDict then
    let pages ← encodeDictColumn codec col chunkRows stats
    pure { dictionary := some pages.1, data := pages.2, stats, bloom }
  else
    let data ← encodePlainColumn options.pageVersion codec col chunkRows stats
    pure { dictionary := none, data, stats, bloom }

/-- A row group: its rows and its columns. -/
structure EncodedGroup where
  chunkRows : ℕ
  columns : List EncodedColumn

/-- The columns of a row group, encoded. -/
def encodeGroup (columns : Columns) (options : WriteOptions) (range : ℕ × ℕ) :
    Res CodecError EncodedGroup := do
  let encoded ← columns.zipIdx.mapM fun (named, ix) => do
    let col ← named.2.slice range.1 range.2
    encodeColumn options ix col (range.2 - range.1)
  pure { chunkRows := range.2 - range.1, columns := encoded }

end

/-! ## Positions -/

/-- The pages of a column. -/
def EncodedColumn.pageBytes (c : EncodedColumn) : Bytes :=
  (c.dictionary.elim [] EncodedPage.bytes) ++ c.data.bytes

/-- What a column writes: its pages and its bloom filter. -/
def EncodedColumn.bytes (c : EncodedColumn) : Bytes := c.pageBytes ++ c.bloom.getD []

/-- The columns of a row group, one after the other. -/
def EncodedGroup.bytes (g : EncodedGroup) : Bytes := g.columns.flatMap EncodedColumn.bytes

/-- Where a column has been written. -/
structure PreparedColumn where
  dataPageOffset : Int64
  dictionaryPageOffset : Option Int64
  totalUncompressedSize : Int64
  totalCompressedSize : Int64
  stats : ColumnStats
  bloomFilterOffset : Option Int64
  bloomFilterLength : Option Int32
  deriving DecidableEq, Repr

/-- The length of the header of a page, and of a body. -/
def EncodedPage.sizeWith (p : EncodedPage) (body : Bytes) : ℕ :=
  (writePageHeader p.header).length + body.length

/-- A column that is written after `written` bytes. -/
def placeColumn (written : ℕ) (c : EncodedColumn) : PreparedColumn :=
  let dataPageOff := written + (c.dictionary.elim 0 fun d => d.bytes.length)
  { dataPageOffset := Int64.ofNat dataPageOff
    dictionaryPageOffset := c.dictionary.map fun _ => Int64.ofNat written
    totalUncompressedSize := Int64.ofNat
      ((c.dictionary.elim 0 fun d => d.sizeWith d.uncompressed) + c.data.sizeWith c.data.uncompressed)
    totalCompressedSize := Int64.ofNat
      ((c.dictionary.elim 0 fun d => d.sizeWith d.body) + c.data.sizeWith c.data.body)
    stats := c.stats
    bloomFilterOffset := c.bloom.map fun _ => Int64.ofNat (dataPageOff + c.data.bytes.length)
    bloomFilterLength := c.bloom.map fun blob => Int32.ofNat blob.length }

/-- The columns of a row group that begins behind `written` bytes. -/
def placeColumns (written : ℕ) : List EncodedColumn → List PreparedColumn
  | [] => []
  | c :: cs => placeColumn written c :: placeColumns (written + c.bytes.length) cs

/-- The row groups, behind `written` bytes. -/
def placeGroups (written : ℕ) : List EncodedGroup → List (ℕ × List PreparedColumn)
  | [] => []
  | g :: gs => (g.chunkRows, placeColumns written g.columns)
      :: placeGroups (written + g.bytes.length) gs

/-! ## The footer -/

/-- The root of the schema. -/
def rootElement (columns : Columns) : SchemaElement where
  name := asBytes "schema"
  numChildren := some (Int32.ofNat columns.length)

/-- The leaf of a column, which is required. -/
def leafElement (name : String) (col : ColumnData) : SchemaElement where
  columnType := some col.parquetType
  repetitionType := some .required
  name := asBytes name
  convertedType := col.convertedType

/-- The footer entry of a column chunk. -/
def footerColumn (name : String) (col : ColumnData) (codec : CompressionCodec) (chunkRows : ℕ)
    (prep : PreparedColumn) : ColumnChunk where
  fileOffset := prep.dictionaryPageOffset.getD prep.dataPageOffset
  metaData := some
    { columnType := col.parquetType
      encodings := if prep.dictionaryPageOffset.isSome then [.plain, .rle, .plainDictionary]
        else [.plain, .rle]
      pathInSchema := [asBytes name]
      codec
      numValues := Int64.ofNat chunkRows
      totalUncompressedSize := prep.totalUncompressedSize
      totalCompressedSize := prep.totalCompressedSize
      keyValueMetadata := none
      dataPageOffset := prep.dataPageOffset
      indexPageOffset := none
      dictionaryPageOffset := prep.dictionaryPageOffset
      statistics := some prep.stats.asStatistics
      encodingStats := none
      bloomFilterOffset := prep.bloomFilterOffset
      bloomFilterLength := prep.bloomFilterLength
      sizeStatistics := none }

/-- A per-column setting of column `ix`, once the checks have passed. -/
def settingOf {α : Type} (setting : Option (List α)) (ix : ℕ) (default : α) : α :=
  (setting.bind fun xs => xs[ix]?).getD default

/-- The codec of a column. -/
def WriteOptions.codecOf (options : WriteOptions) (ix : ℕ) : CompressionCodec :=
  settingOf options.codecPerColumn ix options.defaultCodec

/-- What the footer says of a row group. -/
def footerGroup (columns : Columns) (options : WriteOptions) (rgIx : ℕ) (chunkRows : ℕ)
    (prepared : List PreparedColumn) : RowGroup where
  columns := ((columns.zip prepared).zipIdx).map fun ((named, prep), ix) =>
    footerColumn named.1 named.2 (options.codecOf ix) chunkRows prep
  totalByteSize := prepared.foldl (fun total prep => total + prep.totalUncompressedSize) 0
  numRows := Int64.ofNat chunkRows
  ordinal := some (Int16.ofNat rgIx)

/-- The footer of a table. -/
def footerMetadata (columns : Columns) (options : WriteOptions) (totalRows : ℕ)
    (prepared : List (ℕ × List PreparedColumn)) : FileMetaData where
  version := 1
  schema := rootElement columns :: columns.map fun (name, col) => leafElement name col
  numRows := Int64.ofNat totalRows
  rowGroups := prepared.zipIdx.map fun ((chunkRows, prep), rgIx) =>
    footerGroup columns options rgIx chunkRows prep
  keyValueMetadata := options.kvMetadata.map fun kvs => kvs.map fun (k, v) =>
    { key := asBytes k, value := some (asBytes v) }
  createdBy := some (asBytes "ematix-parquet 0.0.1")

/-! ## The file -/

section
variable [Platform]

/-- The row groups of a table that passes the checks. -/
def encodeTable (columns : Columns) (options : WriteOptions) (totalRows : ℕ) :
    Res CodecError (List EncodedGroup) :=
  (rowGroupRanges totalRows options.rowGroupSize).mapM (encodeGroup columns options)

/-- The length of the footer is stored as a `u32`. -/
def fileBytes (groups : List EncodedGroup) (footer : Bytes) : Bytes :=
  parquetMagic ++ groups.flatMap EncodedGroup.bytes ++ footer ++ leBytes 4 footer.length
    ++ parquetMagic

/-- What is written: the row groups, and the footer that describes them. -/
structure WrittenTable where
  totalRows : ℕ
  groups : List EncodedGroup
  metadata : FileMetaData
  footer : Bytes

/-- The file. -/
def WrittenTable.bytes (t : WrittenTable) : Bytes := fileBytes t.groups t.footer

/-- `write_table_inner_full_v2`, before the bytes are put together. -/
def writtenTable (columns : Columns) (options : WriteOptions) : Res CodecError WrittenTable := do
  let totalRows ← checkTable columns options
  let groups ← encodeTable columns options totalRows
  let metadata := footerMetadata columns options totalRows (placeGroups 4 groups)
  let footer ← (writeFileMetadata metadata).mapError (Fault.map .wire)
  pure { totalRows, groups, metadata, footer }

/-- `write_table_with_options`: the bytes it writes. -/
def writeTableWithOptions (columns : Columns) (options : WriteOptions) : Res CodecError Bytes :=
  WrittenTable.bytes <$> writtenTable columns options

end

/-! ## Row groups -/

theorem rowGroupsFrom_eq {n size : ℕ} (hsize : 0 < size) {turns r : ℕ} (hlt : r * size < n)
    (hturns : n - r * size ≤ turns) :
    rowGroupsFrom n size turns (r * size)
      = (List.range (divCeil n size - r)).map fun i =>
          ((r + i) * size, min ((r + i + 1) * size) n) := by
  induction turns generalizing r with
  | zero => omega
  | succ turns ih =>
    have hstop : r * size + size = (r + 1) * size := (Nat.succ_mul r size).symm
    have hceil : r + 1 ≤ divCeil n size := by
      rw [divCeil, Nat.le_div_iff_mul_le hsize]
      omega
    have hn : n ≠ 0 := by omega
    rw [rowGroupsFrom, if_neg hn, hstop, show divCeil n size - r = divCeil n size - (r + 1) + 1 by omega,
      List.range_succ_eq_map, List.map_cons, List.map_map, Nat.add_zero]
    refine congrArg _ ?_
    by_cases hmore : (r + 1) * size < n
    · rw [Nat.min_eq_left hmore.le, if_pos hmore, ih hmore (by omega)]
      refine List.map_congr_left fun i _ => ?_
      simp only [Function.comp_apply, Nat.succ_eq_add_one]
      rw [show r + 1 + i = r + (i + 1) by omega]
    · have hdone : divCeil n size ≤ r + 1 := by
        rw [divCeil, ← Nat.lt_succ_iff, Nat.div_lt_iff_lt_mul hsize, Nat.succ_mul]
        omega
      rw [Nat.min_eq_right (by omega), if_neg (by omega),
        show divCeil n size - (r + 1) = 0 by omega]
      rfl

/-- The number of row groups; no rows make one empty row group. -/
def rowGroupCount (totalRows rowGroupSize : ℕ) : ℕ :=
  if totalRows = 0 then 1 else divCeil totalRows rowGroupSize

/-- **Row groups** are the consecutive ranges of `rowGroupSize` rows. -/
theorem rowGroupRanges_eq {n size : ℕ} (hsize : 0 < size) :
    rowGroupRanges n size
      = (List.range (rowGroupCount n size)).map fun r => (r * size, min ((r + 1) * size) n) := by
  rw [rowGroupRanges, rowGroupCount]
  by_cases hn : n = 0
  · subst hn
    simp [rowGroupsFrom]
  · have h : rowGroupsFrom n size (n + 1) (0 * size) = _ :=
      rowGroupsFrom_eq hsize (by rw [Nat.zero_mul]; omega) (by omega)
    simpa [hn] using h

theorem getElem?_rowGroupRanges {n size r : ℕ} {range : ℕ × ℕ} (hsize : 0 < size)
    (h : (rowGroupRanges n size)[r]? = some range) :
    r < rowGroupCount n size ∧ range = (r * size, min ((r + 1) * size) n) ∧
      range.1 ≤ range.2 ∧ range.2 ≤ n := by
  rw [rowGroupRanges_eq hsize, List.getElem?_map, Option.map_eq_some_iff] at h
  obtain ⟨i, hi, rfl⟩ := h
  obtain ⟨hlt, rfl⟩ := List.getElem?_eq_some_iff.mp hi
  rw [List.length_range] at hlt
  rw [List.getElem_range]
  refine ⟨hlt, rfl, ?_, Nat.min_le_right _ _⟩
  have hle : r * size ≤ (r + 1) * size := Nat.mul_le_mul_right _ (by omega)
  refine Nat.le_min.mpr ⟨hle, ?_⟩
  unfold rowGroupCount at hlt
  split at hlt
  · rw [show r = 0 by omega, Nat.zero_mul]
    exact Nat.zero_le _
  · rw [divCeil, Nat.lt_iff_add_one_le, Nat.le_div_iff_mul_le hsize, Nat.succ_mul] at hlt
    omega

/-! ## Positions -/

theorem getElem?_placeColumns {written ix : ℕ} {cs : List EncodedColumn} :
    (placeColumns written cs)[ix]?
      = cs[ix]?.map (placeColumn (written + ((cs.take ix).flatMap EncodedColumn.bytes).length)) := by
  induction cs generalizing written ix with
  | nil => simp [placeColumns]
  | cons c cs ih =>
    cases ix with
    | zero => simp [placeColumns]
    | succ ix =>
      rw [placeColumns, List.getElem?_cons_succ, ih, List.getElem?_cons_succ, List.take_succ_cons,
        List.flatMap_cons, List.length_append, Nat.add_assoc]

theorem getElem?_placeGroups {written r : ℕ} {gs : List EncodedGroup} :
    (placeGroups written gs)[r]? = gs[r]?.map fun g =>
      (g.chunkRows, placeColumns (written + ((gs.take r).flatMap EncodedGroup.bytes).length)
        g.columns) := by
  induction gs generalizing written r with
  | nil => simp [placeGroups]
  | cons g gs ih =>
    cases r with
    | zero => simp [placeGroups]
    | succ r =>
      rw [placeGroups, List.getElem?_cons_succ, ih, List.getElem?_cons_succ, List.take_succ_cons,
        List.flatMap_cons, List.length_append]
      simp only [Nat.add_assoc]

/-- What comes before column `ix` of row group `r`. -/
def columnPrefix (groups : List EncodedGroup) (g : EncodedGroup) (r ix : ℕ) : Bytes :=
  parquetMagic ++ (groups.take r).flatMap EncodedGroup.bytes
    ++ (g.columns.take ix).flatMap EncodedColumn.bytes

theorem flatMap_split {α β : Type} {xs : List α} {i : ℕ} {x : α} (f : α → List β)
    (h : xs[i]? = some x) :
    xs.flatMap f = (xs.take i).flatMap f ++ (f x ++ (xs.drop (i + 1)).flatMap f) := by
  obtain ⟨hi, rfl⟩ := List.getElem?_eq_some_iff.mp h
  rw [← List.flatMap_cons, ← List.drop_eq_getElem_cons hi, ← List.flatMap_append,
    List.take_append_drop]

/-- **Every column is where its prefix ends.** -/
theorem fileBytes_column {groups : List EncodedGroup} {footer : Bytes} {r ix : ℕ}
    {g : EncodedGroup} {c : EncodedColumn} (hg : groups[r]? = some g)
    (hc : g.columns[ix]? = some c) :
    ∃ rest, fileBytes groups footer = columnPrefix groups g r ix ++ (c.bytes ++ rest) := by
  have hgroup := flatMap_split EncodedColumn.bytes hc
  refine ⟨(g.columns.drop (ix + 1)).flatMap EncodedColumn.bytes
    ++ ((groups.drop (r + 1)).flatMap EncodedGroup.bytes
      ++ (footer ++ (leBytes 4 footer.length ++ parquetMagic))), ?_⟩
  rw [fileBytes, flatMap_split EncodedGroup.bytes hg, EncodedGroup.bytes, hgroup, columnPrefix]
  simp only [List.append_assoc]

/-! ## What was written -/

section
variable [Platform] {columns : Columns} {options : WriteOptions} {t : WrittenTable}

theorem writtenTable_eq_ok : writtenTable columns options = .ok t ↔
    checkTable columns options = .ok t.totalRows ∧
      encodeTable columns options t.totalRows = .ok t.groups ∧
      t.metadata = footerMetadata columns options t.totalRows (placeGroups 4 t.groups) ∧
      writeFileMetadata t.metadata = .ok t.footer := by
  have hmap : ∀ {x : Res FormatError Bytes} {b : Bytes},
      x.mapError (Fault.map CodecError.wire) = .ok b ↔ x = .ok b := by
    rintro (_ | _) b <;> simp [Except.mapError]
  simp only [writtenTable, bind_eq_ok, hmap]
  constructor
  · rintro ⟨n, hn, groups, hgroups, footer, hfooter, h⟩
    cases h
    exact ⟨hn, hgroups, rfl, hfooter⟩
  · rintro ⟨hn, hgroups, hmd, hfooter⟩
    refine ⟨_, hn, _, hgroups, _, hmd ▸ hfooter, ?_⟩
    rw [← hmd]
    rfl

theorem writeTableWithOptions_eq_ok {bytes : Bytes} :
    writeTableWithOptions columns options = .ok bytes ↔
      ∃ t, writtenTable columns options = .ok t ∧ t.bytes = bytes := by
  unfold writeTableWithOptions
  cases writtenTable columns options <;> simp [Functor.map, Except.map]

/-! ## What each column was encoded from -/

/-- Whether column `ix` is dictionary encoded. -/
def WriteOptions.isDict (options : WriteOptions) (ix : ℕ) : Bool :=
  settingOf options.dictPerColumn ix false

/-- The false-positive rate asked for column `ix`. -/
def WriteOptions.fppOf (options : WriteOptions) (ix : ℕ) : Option F64 :=
  settingOf options.bloomFpps ix none

omit [Platform] in
theorem perColumn_eq_ok {α : Type} {setting : Option (List α)} {ix : ℕ} {default a : α}
    (h : perColumn setting ix default = .ok a) : a = settingOf setting ix default := by
  cases setting with
  | none =>
    cases h
    rfl
  | some xs =>
    simp only [perColumn, itemAt] at h
    split at h
    · next hx =>
      cases h
      simp [settingOf, hx]
    · cases h

/-- The pages of an encoded column. -/
inductive EncodedFrom (options : WriteOptions) (ix : ℕ) (col : ColumnData) (chunkRows : ℕ) :
    EncodedColumn → Prop
  | plain {data : EncodedPage} (hdict : options.isDict ix = false)
    (hdata : encodePlainColumn options.pageVersion (options.codecOf ix) col chunkRows
      (computeStats col) = .ok data) :
    EncodedFrom options ix col chunkRows
      { dictionary := none, data, stats := computeStats col
        bloom := (options.fppOf ix).map (buildBloomForColumn col) }
  | dict {dictionary data : EncodedPage} (hdict : options.isDict ix = true)
    (hdata : encodeDictColumn (options.codecOf ix) col chunkRows (computeStats col)
      = .ok (dictionary, data)) :
    EncodedFrom options ix col chunkRows
      { dictionary := some dictionary, data, stats := computeStats col
        bloom := (options.fppOf ix).map (buildBloomForColumn col) }

theorem encodedFrom_of_encodeColumn {ix : ℕ} {col : ColumnData} {chunkRows : ℕ}
    {c : EncodedColumn} (h : encodeColumn options ix col chunkRows = .ok c) :
    EncodedFrom options ix col chunkRows c := by
  obtain ⟨codec, hcodec, h⟩ := bind_eq_ok.mp h
  obtain ⟨fpp, hfpp, h⟩ := bind_eq_ok.mp h
  obtain ⟨isDict, hisDict, h⟩ := bind_eq_ok.mp h
  have hcodec : codec = options.codecOf ix := perColumn_eq_ok hcodec
  have hfpp : fpp = options.fppOf ix := perColumn_eq_ok hfpp
  have hisDict : isDict = options.isDict ix := perColumn_eq_ok hisDict
  subst hcodec hfpp
  cases isDict with
  | true =>
    obtain ⟨pages, hpages, h⟩ := bind_eq_ok.mp h
    cases h
    exact .dict hisDict.symm hpages
  | false =>
    obtain ⟨data, hdata, h⟩ := bind_eq_ok.mp h
    cases h
    exact .plain hisDict.symm hdata

/-- Row group `r` of the table: its range, and its columns one by one. -/
theorem encodeTable_group {n r : ℕ} {groups : List EncodedGroup} {g : EncodedGroup}
    (h : encodeTable columns options n = .ok groups) (hg : groups[r]? = some g) :
    ∃ range, (rowGroupRanges n options.rowGroupSize)[r]? = some range ∧
      g.chunkRows = range.2 - range.1 ∧ g.columns.length = columns.length ∧
      ∀ ix named, columns[ix]? = some named → ∃ col c,
        named.2.slice range.1 range.2 = .ok col ∧ g.columns[ix]? = some c ∧
        EncodedFrom options ix col g.chunkRows c := by
  obtain ⟨range, hrange, hgroup⟩ := (mapM_getElem? h r).2 g hg
  obtain ⟨encoded, hencoded, hgroup⟩ := bind_eq_ok.mp hgroup
  cases hgroup
  refine ⟨range, hrange, rfl, by simpa using mapM_length hencoded, fun ix named hnamed => ?_⟩
  obtain ⟨c, hc, hcol⟩ := (mapM_getElem? hencoded ix).1 (named, ix) (by simp [hnamed])
  obtain ⟨col, hslice, hcol⟩ := bind_eq_ok.mp hcol
  exact ⟨col, c, hslice, hc, encodedFrom_of_encodeColumn hcol⟩

/-- As many row groups as ranges. -/
theorem encodeTable_length {n : ℕ} {groups : List EncodedGroup}
    (h : encodeTable columns options n = .ok groups) :
    groups.length = (rowGroupRanges n options.rowGroupSize).length := mapM_length h

omit [Platform] in
theorem checkRowCounts_eq_ok {n : ℕ} {u : Unit} (h : checkRowCounts n columns = .ok u) :
    ∀ named ∈ columns, named.2.rowCount = n := by
  induction columns with
  | nil => simp
  | cons c rest ih =>
    rw [checkRowCounts.eq_def] at h
    dsimp only at h
    split at h
    · cases h
    next hc =>
    rw [ne_eq, not_not] at hc
    exact List.forall_mem_cons.mpr ⟨hc, ih h⟩

omit [Platform] in
/-- What the checks leave: columns of one length, and row groups with rows. -/
theorem checkTable_eq_ok {n : ℕ} (h : checkTable columns options = .ok n) :
    columns ≠ [] ∧ 0 < options.rowGroupSize ∧ ∀ named ∈ columns, named.2.rowCount = n := by
  cases columns with
  | nil => cases h
  | cons first rest =>
    simp only [checkTable] at h
    split at h
    · cases h
    next hsize =>
    obtain ⟨_, -, h⟩ := bind_eq_ok.mp h
    obtain ⟨_, -, h⟩ := bind_eq_ok.mp h
    obtain ⟨_, -, h⟩ := bind_eq_ok.mp h
    obtain ⟨_, hrest, h⟩ := bind_eq_ok.mp h
    cases h
    refine ⟨by simp, Nat.pos_of_ne_zero hsize, fun named hnamed => ?_⟩
    rcases List.mem_cons.mp hnamed with rfl | hmem
    · rfl
    · exact checkRowCounts_eq_ok hrest named hmem

/-! ## The footer entries -/

/-- Row group `r` in the footer. -/
theorem getElem?_rowGroups {r : ℕ} {g : EncodedGroup} (h : writtenTable columns options = .ok t)
    (hg : t.groups[r]? = some g) :
    t.metadata.rowGroups[r]? = some (footerGroup columns options r g.chunkRows
      (placeColumns (4 + ((t.groups.take r).flatMap EncodedGroup.bytes).length) g.columns)) := by
  obtain ⟨-, -, hmd, -⟩ := writtenTable_eq_ok.mp h
  rw [hmd, footerMetadata]
  simp [getElem?_placeGroups, hg]

omit [Platform] in
/-- Column `ix` of a row group in the footer. -/
theorem getElem?_footerGroup {r ix chunkRows written : ℕ} {named : String × ColumnData}
    {cs : List EncodedColumn} {c : EncodedColumn} (hnamed : columns[ix]? = some named)
    (hc : cs[ix]? = some c) :
    (footerGroup columns options r chunkRows (placeColumns written cs)).columns[ix]?
      = some (footerColumn named.1 named.2 (options.codecOf ix) chunkRows
          (placeColumn (written + ((cs.take ix).flatMap EncodedColumn.bytes).length) c)) := by
  have hplace : (placeColumns written cs)[ix]?
      = some (placeColumn (written + ((cs.take ix).flatMap EncodedColumn.bytes).length) c) := by
    rw [getElem?_placeColumns, hc]
    rfl
  have hzip : (columns.zip (placeColumns written cs))[ix]? = some (named, _) :=
    List.getElem?_zip_eq_some.mpr ⟨hnamed, hplace⟩
  simp only [footerGroup, List.getElem?_map, List.getElem?_zipIdx, hzip, Option.map_some,
    Nat.zero_add]
  rfl

/-! ## When a table is written -/

omit [Platform] in
theorem exists_slice {col : ColumnData} {start stop : ℕ} (h : start ≤ stop)
    (hstop : stop ≤ col.rowCount) : ∃ slice, col.slice start stop = .ok slice := by
  cases col <;> exact ⟨_, map_eq_ok.mpr ⟨_, slice_ok h hstop, rfl⟩⟩

omit [Platform] in
/-- The footer is one the metadata writer implements. -/
theorem footerMetadata_supported {n : ℕ} {prepared : List (ℕ × List PreparedColumn)} :
    (footerMetadata columns options n prepared).Supported := by
  refine ⟨rfl, fun se hse => ?_, fun rg hrg => ?_⟩
  · rcases List.mem_cons.mp hse with rfl | hse
    · rfl
    · obtain ⟨named, -, rfl⟩ := List.mem_map.mp hse
      rfl
  · obtain ⟨item, -, rfl⟩ := List.mem_map.mp hrg
    refine ⟨rfl, fun cc hcc => ?_⟩
    obtain ⟨item, -, rfl⟩ := List.mem_map.mp hcc
    rintro cm ⟨⟩
    exact ⟨rfl, rfl, rfl⟩

/-- **A table that passes the checks is written**, if no column is compressed,
    has a dictionary or a bloom filter. -/
theorem exists_writtenTable {n : ℕ} (hcheck : checkTable columns options = .ok n)
    (hcodec : options.defaultCodec = .uncompressed) (hcodecs : options.codecPerColumn = none)
    (hdicts : options.dictPerColumn = none) (hfpps : options.bloomFpps = none) :
    ∃ t, writtenTable columns options = .ok t := by
  obtain ⟨-, hsize, hrows⟩ := checkTable_eq_ok hcheck
  have hcolumn : ∀ ix col chunkRows, ∃ c, encodeColumn options ix col chunkRows = .ok c := by
    intro ix col chunkRows
    simp [encodeColumn, perColumn, hcodec, hcodecs, hdicts, hfpps, encodePlainColumn,
      compressBody, bind, Except.bind, pure, Except.pure]
  have hgroup : ∀ range ∈ rowGroupRanges n options.rowGroupSize,
      ∃ g, encodeGroup columns options range = .ok g := by
    intro range hrange
    obtain ⟨r, hr⟩ := List.mem_iff_getElem?.mp hrange
    obtain ⟨-, -, hle, hn⟩ := getElem?_rowGroupRanges hsize hr
    have hitems : ∀ item ∈ columns.zipIdx, ∃ c, (do
        let col ← item.1.2.slice range.1 range.2
        encodeColumn options item.2 col (range.2 - range.1)) = .ok c := by
      intro item hitem
      obtain ⟨col, hcol⟩ := exists_slice hle
        ((hrows item.1 (List.fst_mem_of_mem_zipIdx hitem)).symm ▸ hn)
      obtain ⟨c, hc⟩ := hcolumn item.2 col (range.2 - range.1)
      exact ⟨c, bind_eq_ok.mpr ⟨col, hcol, hc⟩⟩
    obtain ⟨encoded, hencoded⟩ := exists_mapM hitems
    exact ⟨_, bind_eq_ok.mpr ⟨encoded, hencoded, rfl⟩⟩
  obtain ⟨groups, hgroups⟩ := exists_mapM hgroup
  have hsupported : (footerMetadata columns options n (placeGroups 4 groups)).Supported :=
    footerMetadata_supported
  obtain ⟨footer, hfooter⟩ := exists_writeFileMetadata hsupported
  exact ⟨⟨n, groups, _, footer⟩, writtenTable_eq_ok.mpr ⟨hcheck, hgroups, rfl, hfooter⟩⟩

end

end EmatixParquet
