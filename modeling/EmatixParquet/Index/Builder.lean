/-
  The sidecar builder (`index/builder.rs`) — bucketing the rows of a column by
  key, row group and page, and the tables that are written for them.

  Each writer is a table (`sortedTable`, `compositeTable`, `invertedTable`,
  `bloomTable`) handed to the table writer.  The bucketing is the same for all
  but the last: what differs is the keys of a row.
-/
import EmatixParquet.Codec.BloomFilter
import EmatixParquet.Codec.Write
import EmatixParquet.Index.Fingerprint
import EmatixParquet.Index.Hits
import EmatixParquet.Index.PageLayout
import EmatixParquet.Wire.Group

namespace EmatixParquet

open Wire

/-- The rows of a row group of a sorted `INT64` body. -/
def sidecarRgRows : ℕ := 256 * 1024

/-- `{t:?}`. -/
def ParquetType.debug : ParquetType → String
  | .boolean => "Boolean" | .int32 => "Int32" | .int64 => "Int64" | .int96 => "Int96"
  | .float => "Float" | .double => "Double" | .byteArray => "ByteArray"
  | .fixedLenByteArray => "FixedLenByteArray"

/-- The leaf of a flat schema; its root comes first. -/
def leafOrErr (schema : List SchemaElement) (sourceColumn : ℕ) : Res CodecError SchemaElement :=
  if usizeBound ≤ sourceColumn + 1 then codecErr (.invalidInput "source_column index overflow")
  else okOr schema[sourceColumn + 1]?
    (.invalidInput s!"source_column {sourceColumn} out of range in flat schema")

/-- The physical type of the column. -/
def leafType (leaf : SchemaElement) (sourceColumn : ℕ) : Res CodecError ParquetType :=
  okOr leaf.columnType (.invalidInput
    s!"schema element at leaf {sourceColumn} has no physical type (group node?)")

/-- The name of a leaf; `what` is empty or names the leaf of a pair. -/
def leafName (leaf : SchemaElement) (what : String) : Res CodecError String :=
  okOr (fromUtf8 leaf.name) (.invalidInput s!"schema element {what}name is not valid UTF-8")

/-! ## Buckets -/

/-- A key, and where its rows are. -/
structure BucketKey (κ : Type) where
  key : κ
  rg : UInt32
  page : UInt32
  deriving DecidableEq, Repr

section
variable {κ : Type}

/-- By key, then by row group, then by page. -/
def BucketKey.compare [Ord κ] : BucketKey κ → BucketKey κ → Ordering :=
  compareLex (compareOn BucketKey.key) (compareLex (compareOn BucketKey.rg) (compareOn BucketKey.page))

instance [Ord κ] : Ord (BucketKey κ) := ⟨BucketKey.compare⟩

/-- What is put in the buckets, and the sizes of the pages, in the order of the
    insertions. -/
structure Buckets (κ : Type) where
  pushes : List (BucketKey κ × UInt32) := []
  pageSizes : List ((UInt32 × UInt32) × UInt32) := []

/-- The pushes of one page; `keys` are the keys of each row of the row group. -/
def bucketPage (keys : List (List κ)) (rg : UInt32) (page : DataPageLayout) :
    Res CodecError (List (BucketKey κ × UInt32)) :=
  List.flatten <$> (List.range page.numValues).mapM fun r => do
    let ks ← itemAt keys (page.firstRow + r)
    pure (ks.map fun key => ({ key, rg, page := page.pageIdx }, UInt32.ofNat r))

/-- One row group; the pages must have as many values as the column has. -/
def bucketRowGroup (source : ParquetFile) (what : String) (column : ℕ)
    (readKeys : ℕ → Res CodecError (List (List κ))) (rg : ℕ) : Res CodecError (Buckets κ) := do
  let keys ← readKeys rg
  let layouts ← walkDataPages source rg column
  let summed := (layouts.map (·.numValues)).sum
  if summed ≠ keys.length then codecErr (.invalidInput
    s!"page-layout walk for rg={rg} {what}={column} summed to {summed} values, but column decoded {keys.length}")
  else do
    let pushes ← layouts.mapM (bucketPage keys (UInt32.ofNat rg))
    pure { pushes := pushes.flatten
           pageSizes := layouts.map fun page =>
             ((UInt32.ofNat rg, page.pageIdx), UInt32.ofNat page.numValues) }

/-- The buckets of all row groups, in order. -/
def bucketRowGroups (source : ParquetFile) (md : FileMetaData) (what : String) (column : ℕ)
    (readKeys : ℕ → Res CodecError (List (List κ))) : Res CodecError (Buckets κ) := do
  let groups ← (List.range md.rowGroups.length).mapM (bucketRowGroup source what column readKeys)
  pure { pushes := groups.flatMap (·.pushes), pageSizes := groups.flatMap (·.pageSizes) }

variable [DecidableEq κ] [Ord κ]

/-- One row of the body.  The size of a page that was recorded twice is the last
    one. -/
def bucketEntry (b : Buckets κ) (k : BucketKey κ) : Res CodecError (κ × IndexTargets.Row) := do
  let numValues ← expectSome (b.pageSizes.reverse.lookup (k.rg, k.page))
    "page_sizes entry exists for emitted bucket"
  let positions ← expectSome ((groupAll [] b.pushes).lookup k) "bucket exists for emitted key"
  let rowset ← encodeTagged positions numValues.toNat
  pure (k.key, k.rg.toInt32, k.page.toInt32, rowset)

/-- The rows of the body, in the order of the keys. -/
def Buckets.entries (b : Buckets κ) : Res CodecError (List (κ × IndexTargets.Row)) :=
  (sortKeys ((groupAll [] b.pushes).map Prod.fst)).mapM (bucketEntry b)

end

/-- The columns that say where the rows are. -/
def targetColumns {κ : Type} (entries : List (κ × IndexTargets.Row)) : Columns := [
  ("target_rg", .i32 (entries.map fun e => e.2.1)),
  ("target_page", .i32 (entries.map fun e => e.2.2.1)),
  ("target_rowset", .byteArray (entries.map fun e => e.2.2.2))]

section
variable [FloatText]

/-- The options of a sidecar with one index, in its manifest. -/
def sidecarOptions (sourceFingerprint : SourceFingerprint) (entry : IndexEntry)
    (defaultCodec : CompressionCodec) (rowGroupSize : ℕ) : WriteOptions where
  rowGroupSize
  defaultCodec
  kvMetadata := some [(manifestKeyV3,
    IndexManifest.toJson { sourceFingerprint, indexes := [entry] })]

/-- `usize::MAX`. -/
def defaultRowGroupSize : ℕ := ({} : WriteOptions).rowGroupSize

variable [Platform]

/-! ## Sorted indexes -/

/-- What the sorted writers differ in: their names and types, how a column is
    read, and how the body is cut into row groups. -/
structure SortedWriter (κ : Type) where
  name : String
  columnType : ParquetType
  expected : String
  physicalType : PhysicalType
  read : ParquetFile → ℕ → ℕ → Res CodecError (List κ)
  column : List κ → ColumnData
  rowGroupSize : ℕ
  rowGroupCount : ℕ → UInt32

/-- The index of an INT64 column. -/
def SortedWriter.i64 : SortedWriter Int64 where
  name := "write_sorted_i64"
  columnType := .int64
  expected := "INT64"
  physicalType := .int64
  read := readColumnI64
  column := .i64
  rowGroupSize := sidecarRgRows
  rowGroupCount nRows := UInt32.ofNat (max (divCeil nRows sidecarRgRows) 1)

/-- The index of an INT32 column. -/
def SortedWriter.i32 : SortedWriter Int32 where
  name := "write_sorted_i32"
  columnType := .int32
  expected := "INT32"
  physicalType := .int32
  read := readColumnI32
  column := .i32
  rowGroupSize := defaultRowGroupSize
  rowGroupCount _ := 1

/-- The index of a BYTE_ARRAY column. -/
def SortedWriter.byteArray : SortedWriter Bytes where
  name := "write_sorted_byte_array"
  columnType := .byteArray
  expected := "BYTE_ARRAY"
  physicalType := .byteArray
  read := readColumnByteArray
  column := .byteArray
  rowGroupSize := defaultRowGroupSize
  rowGroupCount _ := 1

section
variable {κ : Type} [DecidableEq κ] [Ord κ]

/-- The table of a sorted index. -/
def sortedTable (w : SortedWriter κ) (source : ParquetFile) (indexName : String)
    (sourceColumn : ℕ) : Res CodecError (Columns × WriteOptions) := do
  let md ← mapIo (fun e => .invalidInput s!"read parquet metadata: {e.display}") source.metadata
  let leaf ← leafOrErr md.schema sourceColumn
  let columnType ← leafType leaf sourceColumn
  if columnType ≠ w.columnType then codecErr (.invalidInput
    s!"{w.name}: source column {sourceColumn} is {columnType.debug}, expected {w.expected}")
  else do
    let buckets ← bucketRowGroups source md "col" sourceColumn fun rg =>
      List.map (fun v => [v]) <$> w.read source rg sourceColumn
    let entries ← buckets.entries
    let fp ← computeSourceFingerprint source
    let name ← leafName leaf ""
    let entry : IndexEntry :=
      { name := indexName, kind := .sorted name w.physicalType, sidecarRowGroup := 0,
        sidecarRowGroupCount := w.rowGroupCount entries.length }
    pure (("value", w.column (entries.map Prod.fst)) :: targetColumns entries,
      sidecarOptions fp entry .snappy w.rowGroupSize)

/-- The sidecar of a sorted index. -/
def writeSorted (w : SortedWriter κ) (source : ParquetFile) (indexName : String)
    (sourceColumn : ℕ) : Res CodecError Bytes := do
  let table ← sortedTable w source indexName sourceColumn
  writeTableWithOptions table.1 table.2

end

/-- `write_sorted_i64`. -/
def writeSortedI64 : ParquetFile → String → ℕ → Res CodecError Bytes := writeSorted .i64

/-- `write_sorted_i32`. -/
def writeSortedI32 : ParquetFile → String → ℕ → Res CodecError Bytes := writeSorted .i32

/-- `write_sorted_byte_array`. -/
def writeSortedByteArray : ParquetFile → String → ℕ → Res CodecError Bytes := writeSorted .byteArray

/-! ## Pairs of columns -/

/-- By the first value, then by the second. -/
instance compositeOrd : Ord (Int64 × Int64) := lexOrd

/-- The pairs of a row group, row by row. -/
def readPairs (source : ParquetFile) (sourceColA sourceColB rg : ℕ) :
    Res CodecError (List (List (Int64 × Int64))) := do
  let valuesA ← readColumnI64 source rg sourceColA
  let valuesB ← readColumnI64 source rg sourceColB
  if valuesA.length ≠ valuesB.length then codecErr (.invalidInput
    s!"composite-prefix build: column lengths differ for rg={rg} (col_a={valuesA.length} rows, col_b={valuesB.length} rows)")
  else pure ((valuesA.zip valuesB).map fun pair => [pair])

/-- The table of an index on a pair of columns; the pages are those of the
    first. -/
def compositeTable (source : ParquetFile) (indexName : String) (sourceColA sourceColB : ℕ) :
    Res CodecError (Columns × WriteOptions) :=
  if sourceColA = sourceColB then codecErr (.invalidInput
    s!"write_sorted_composite_prefix_i64_i64: source_col_a and source_col_b must differ (both = {sourceColA})")
  else do
    let md ← mapIo (fun e => .invalidInput s!"read parquet metadata: {e.display}") source.metadata
    let leafA ← leafOrErr md.schema sourceColA
    let leafB ← leafOrErr md.schema sourceColB
    let typeA ← leafType leafA sourceColA
    let typeB ← leafType leafB sourceColB
    if typeA ≠ .int64 ∨ typeB ≠ .int64 then codecErr (.invalidInput
      s!"write_sorted_composite_prefix_i64_i64: source columns {sourceColA}/{sourceColB} are {typeA.debug}/{typeB.debug}, expected INT64/INT64")
    else do
      let buckets ← bucketRowGroups source md "col_a" sourceColA
        (readPairs source sourceColA sourceColB)
      let entries ← buckets.entries
      let fp ← computeSourceFingerprint source
      let nameA ← leafName leafA "a "
      let nameB ← leafName leafB "b "
      let entry : IndexEntry :=
        { name := indexName, kind := .compositePrefix [nameA, nameB] [.int64, .int64],
          sidecarRowGroup := 0, sidecarRowGroupCount := 1 }
      pure (("value_a", .i64 (entries.map fun e => e.1.1))
          :: ("value_b", .i64 (entries.map fun e => e.1.2)) :: targetColumns entries,
        sidecarOptions fp entry .snappy defaultRowGroupSize)

/-- `write_sorted_composite_prefix_i64_i64`. -/
def writeSortedCompositePrefixI64I64 (source : ParquetFile) (indexName : String)
    (sourceColA sourceColB : ℕ) : Res CodecError Bytes := do
  let table ← compositeTable source indexName sourceColA sourceColB
  writeTableWithOptions table.1 table.2

/-! ## Filters of pages -/

/-- `x > 0.0 && x < 1.0`, by the bits. -/
def F64.IsFraction (x : F64) : Prop := 0 < x.bits ∧ x.bits < 0x3FF0000000000000

instance (x : F64) : Decidable x.IsFraction := inferInstanceAs (Decidable (_ ∧ _))

/-- The filter of one page, of its distinct values.  Their order is that of a hash
    set in the source; the bytes do not depend on it. -/
def bloomPage (values : List Int64) (targetFpp : F64) (rg : UInt32) (page : DataPageLayout) :
    Res CodecError ((UInt32 × UInt32) × Bytes) := do
  let pageValues ← slice values page.firstRow (page.firstRow + page.numValues)
  let distinct := pageValues.dedup
  let numBlocks := optimalNumBlocks distinct.length targetFpp
  let bloom := (SplitBlockBloomFilterBuilder.new numBlocks).inserts
    (distinct.map fun v => .inl (parquetXxh64 (toLeBytes v)))
  pure ((rg, page.pageIdx), bloom.intoBytes)

/-- The filters of the pages of a row group, which have to hold as many values as the column. -/
def bloomRowGroup (source : ParquetFile) (sourceColumn : ℕ) (targetFpp : F64) (rg : ℕ) :
    Res CodecError (List ((UInt32 × UInt32) × Bytes)) := do
  let values ← readColumnI64 source rg sourceColumn
  let layouts ← walkDataPages source rg sourceColumn
  let summed := (layouts.map (·.numValues)).sum
  if summed ≠ values.length then codecErr (.invalidInput
    s!"page-layout walk for rg={rg} col={sourceColumn} summed to {summed} values, but column decoded {values.length}")
  else layouts.mapM (bloomPage values targetFpp (UInt32.ofNat rg))

/-- By row group, then by page. -/
instance pageOrd : Ord (UInt32 × UInt32) := lexOrd

/-- `sort_by_key(|(rg, page, _)| (*rg, *page))`. -/
def sortPages (entries : List ((UInt32 × UInt32) × Bytes)) : List ((UInt32 × UInt32) × Bytes) :=
  entries.insertionSort fun a b => (compare a.1 b.1).isLE

/-- The columns of the sidecar: for each filter its page. -/
def bloomColumns (entries : List ((UInt32 × UInt32) × Bytes)) : Columns := [
  ("source_rg", .i32 (entries.map fun e => e.1.1.toInt32)),
  ("source_page", .i32 (entries.map fun e => e.1.2.toInt32)),
  ("bloom_block", .byteArray (entries.map fun e => e.2))]

/-- The table of a page-bloom index. -/
def bloomTable (source : ParquetFile) (indexName : String) (sourceColumn : ℕ) (targetFpp : F64) :
    Res CodecError (Columns × WriteOptions) := do
  let md ← mapIo (fun e => .invalidInput s!"read parquet metadata: {e.display}") source.metadata
  let leaf ← leafOrErr md.schema sourceColumn
  let columnType ← leafType leaf sourceColumn
  if columnType ≠ .int64 then codecErr (.invalidInput
    s!"write_bloom_page_i64: source column {sourceColumn} is {columnType.debug}, expected INT64")
  else if ¬ targetFpp.IsFraction then codecErr (.invalidInput
    s!"write_bloom_page_i64: target_fpp must be in (0, 1), got {FloatText.display targetFpp}")
  else do
    let entries ← List.flatten <$>
      (List.range md.rowGroups.length).mapM (bloomRowGroup source sourceColumn targetFpp)
    let fp ← computeSourceFingerprint source
    let name ← leafName leaf ""
    let entry : IndexEntry :=
      { name := indexName, kind := .bloomPage name targetFpp, sidecarRowGroup := 0,
        sidecarRowGroupCount := 1 }
    pure (bloomColumns (sortPages entries),
      sidecarOptions fp entry .uncompressed defaultRowGroupSize)

/-- `write_bloom_page_i64`. -/
def writeBloomPageI64 (source : ParquetFile) (indexName : String) (sourceColumn : ℕ)
    (targetFpp : F64) : Res CodecError Bytes := do
  let table ← bloomTable source indexName sourceColumn targetFpp
  writeTableWithOptions table.1 table.2

/-! ## Tokens -/

/-- The table of an inverted index.  A token counts once in each row. -/
def invertedTable (source : ParquetFile) (indexName : String) (sourceColumn : ℕ)
    (tokenizer : Tokenizer) : Res CodecError (Columns × WriteOptions) := do
  let md ← mapIo (fun e => .invalidInput s!"read parquet metadata: {e.display}") source.metadata
  let leaf ← leafOrErr md.schema sourceColumn
  let columnType ← leafType leaf sourceColumn
  if columnType ≠ .byteArray then codecErr (.invalidInput
    s!"write_inverted_byte_array: source column {sourceColumn} is {columnType.debug}, expected BYTE_ARRAY")
  else do
    let buckets ← bucketRowGroups source md "col" sourceColumn fun rg =>
      List.map (fun v => (tokenizer.tokenize v).eraseDups) <$> readColumnByteArray source rg sourceColumn
    let entries ← buckets.entries
    let fp ← computeSourceFingerprint source
    let name ← leafName leaf ""
    let entry : IndexEntry :=
      { name := indexName, kind := .inverted name tokenizer, sidecarRowGroup := 0,
        sidecarRowGroupCount := 1 }
    pure (("token", .byteArray (entries.map Prod.fst)) :: targetColumns entries,
      sidecarOptions fp entry .snappy defaultRowGroupSize)

/-- `write_inverted_byte_array`. -/
def writeInvertedByteArray (source : ParquetFile) (indexName : String) (sourceColumn : ℕ)
    (tokenizer : Tokenizer) : Res CodecError Bytes := do
  let table ← invertedTable source indexName sourceColumn tokenizer
  writeTableWithOptions table.1 table.2

end

end EmatixParquet
