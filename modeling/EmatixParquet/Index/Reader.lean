/-
  The sidecar reader (`index/reader.rs`) — loading the indexes of a sidecar,
  lookups by name, and the lazy handle that decodes only the row groups whose
  bounds admit the key.
-/
import EmatixParquet.Codec.BloomFilter
import EmatixParquet.Codec.ExactStats
import EmatixParquet.Codec.MaskedBytes
import EmatixParquet.Index.Assemble
import EmatixParquet.Index.Fingerprint
import EmatixParquet.Index.Types

namespace EmatixParquet

open Wire

/-! ## Debug texts -/

/-- `{physical_type:?}`. -/
def PhysicalType.debug : PhysicalType → String
  | int32 => "Int32"
  | int64 => "Int64"
  | byteArray => "ByteArray"

/-- `{tokenizer:?}`. -/
def Tokenizer.debug : Tokenizer → String
  | whitespaceLowercaseV1 => "WhitespaceLowercaseV1"

/-- `{items:?}` of texts that are already written out. -/
def debugList (items : List String) : String := "[" ++ ", ".intercalate items ++ "]"

/-- `{x:?}` of an `f64`. -/
class FloatDebug where
  debug : F64 → String

/-- `{kind:?}`. -/
def IndexKind.debug [FloatDebug] : IndexKind → String
  | sorted sourceColumn physicalType =>
    "Sorted \x7b source_column: " ++ sourceColumn.quote ++ ", physical_type: " ++ physicalType.debug
      ++ " \x7d"
  | bloomPage sourceColumn targetFpp =>
    "BloomPage \x7b source_column: " ++ sourceColumn.quote ++ ", target_fpp: "
      ++ FloatDebug.debug targetFpp ++ " \x7d"
  | compositePrefix sourceColumns physicalTypes =>
    "CompositePrefix \x7b source_columns: " ++ debugList (sourceColumns.map String.quote)
      ++ ", physical_types: " ++ debugList (physicalTypes.map PhysicalType.debug) ++ " \x7d"
  | inverted sourceColumn tokenizer =>
    "Inverted \x7b source_column: " ++ sourceColumn.quote ++ ", tokenizer: " ++ tokenizer.debug
      ++ " \x7d"

/-- The type of a key, as the errors name it. -/
def Key.variantName : Key → String
  | i64 _ => "I64"
  | i32 _ => "I32"
  | bytes _ => "Bytes"

/-! ## Loaded indexes -/

/-- A filter for each page of the source. -/
structure LoadedBloomPage where
  sourceRgs : List Int32
  sourcePages : List Int32
  blooms : List Bytes
  deriving DecidableEq, Repr

/-- The body of an index, by its kind. -/
inductive LoadedIndexData where
  | sortedI64 (d : LoadedTyped Int64)
  | sortedI32 (d : LoadedTyped Int32)
  | sortedBytes (d : LoadedTyped Bytes)
  | bloomPage (d : LoadedBloomPage)
  | compositePrefixI64I64 (d : LoadedTypedCompositeI64I64)
  | inverted (d : LoadedTyped Bytes)

/-- An entry of the manifest, with its body. -/
structure LoadedIndex where
  entry : IndexEntry
  data : LoadedIndexData

/-- `ParquetIndex`: an opened sidecar, all bodies loaded. -/
structure ParquetIndex where
  manifest : IndexManifest
  indexes : List LoadedIndex
  rowsetFormat : RowsetFormat

section
variable [Platform]

/-- A column of `count` row groups, one after the other. -/
def readColumnRgs {α : Type} (read : ParquetFile → ℕ → ℕ → Res CodecError (List α))
    (f : ParquetFile) (start count column : ℕ) : Res CodecError (List α) :=
  List.flatten <$> (List.range' start count).mapM fun rg => read f rg column

/-- `read_column_i64_rgs`. -/
def readColumnI64Rgs : ParquetFile → ℕ → ℕ → ℕ → Res CodecError (List Int64) :=
  readColumnRgs readColumnI64

/-- `read_column_i32_rgs`. -/
def readColumnI32Rgs : ParquetFile → ℕ → ℕ → ℕ → Res CodecError (List Int32) :=
  readColumnRgs readColumnI32

/-- `read_column_byte_array_rgs`. -/
def readColumnByteArrayRgs : ParquetFile → ℕ → ℕ → ℕ → Res CodecError (List Bytes) :=
  readColumnRgs readColumnByteArray

/-- The columns of a row group of the sidecar have as many rows as its keys. -/
def checkAligned (name : String) (rg nValues : ℕ) (t : IndexTargets) : Res CodecError Unit :=
  if t.targetRgs.length ≠ nValues ∨ t.targetPages.length ≠ nValues ∨ t.rowsets.length ≠ nValues then
    codecErr (.invalidInput
      s!"index `{name}` row group {rg} has mismatched column lengths (value={nValues}, rg={t.targetRgs.length}, page={t.targetPages.length}, rowset={t.rowsets.length})")
  else .ok ()

/-- The body of a sorted index; it may span several row groups. -/
def loadSorted {κ : Type} (readValues : ParquetFile → ℕ → ℕ → ℕ → Res CodecError (List κ))
    (idxFile : ParquetFile) (entry : IndexEntry) : Res CodecError (LoadedTyped κ) := do
  let rg := entry.sidecarRowGroup.toNat
  let rgCount := max entry.sidecarRowGroupCount.toNat 1
  let values ← readValues idxFile rg rgCount 0
  let targetRgs ← readColumnI32Rgs idxFile rg rgCount 1
  let targetPages ← readColumnI32Rgs idxFile rg rgCount 2
  let rowsets ← readColumnByteArrayRgs idxFile rg rgCount 3
  let _ ← checkAligned entry.name rg values.length { targetRgs, targetPages, rowsets }
  pure { targetRgs, targetPages, rowsets, values }

/-- Only pairs of `INT64` columns are supported. -/
def loadComposite (idxFile : ParquetFile) (entry : IndexEntry) (sourceColumns : List String)
    (physicalTypes : List PhysicalType) : Res CodecError LoadedTypedCompositeI64I64 :=
  if sourceColumns.length ≠ 2 ∨ physicalTypes ≠ [.int64, .int64] then codecErr (.invalidInput
    s!"composite-prefix index `{entry.name}`: MVP supports exactly (INT64, INT64); got types {debugList (physicalTypes.map PhysicalType.debug)}")
  else do
    let rg := entry.sidecarRowGroup.toNat
    let valuesA ← readColumnI64 idxFile rg 0
    let valuesB ← readColumnI64 idxFile rg 1
    let targetRgs ← readColumnI32 idxFile rg 2
    let targetPages ← readColumnI32 idxFile rg 3
    let rowsets ← readColumnByteArray idxFile rg 4
    let n := valuesA.length
    if valuesB.length ≠ n ∨ targetRgs.length ≠ n ∨ targetPages.length ≠ n ∨ rowsets.length ≠ n then
      codecErr (.invalidInput
        s!"composite-prefix index `{entry.name}` row group {rg} has mismatched column lengths (a={n}, b={valuesB.length}, rg={targetRgs.length}, page={targetPages.length}, rowset={rowsets.length})")
    else pure { targetRgs, targetPages, rowsets, valuesA, valuesB }

/-- `load_inverted`: the tokens, with their targets. -/
def loadInverted (idxFile : ParquetFile) (entry : IndexEntry) :
    Res CodecError (LoadedTyped Bytes) := do
  let rg := entry.sidecarRowGroup.toNat
  let tokens ← readColumnByteArray idxFile rg 0
  let targetRgs ← readColumnI32 idxFile rg 1
  let targetPages ← readColumnI32 idxFile rg 2
  let rowsets ← readColumnByteArray idxFile rg 3
  let n := tokens.length
  if targetRgs.length ≠ n ∨ targetPages.length ≠ n ∨ rowsets.length ≠ n then
    codecErr (.invalidInput
      s!"inverted index `{entry.name}` row group {rg} has mismatched column lengths (tokens={n}, rg={targetRgs.length}, page={targetPages.length}, rowset={rowsets.length})")
  else pure { targetRgs, targetPages, rowsets, values := tokens }

/-- `load_bloom_page`: the filters, with the pages they are for. -/
def loadBloomPage (idxFile : ParquetFile) (entry : IndexEntry) :
    Res CodecError LoadedBloomPage := do
  let rg := entry.sidecarRowGroup.toNat
  let sourceRgs ← readColumnI32 idxFile rg 0
  let sourcePages ← readColumnI32 idxFile rg 1
  let blooms ← readColumnByteArray idxFile rg 2
  if sourceRgs.length ≠ sourcePages.length ∨ sourceRgs.length ≠ blooms.length then
    codecErr (.invalidInput
      s!"page-bloom index `{entry.name}` row group {rg} has mismatched column lengths (source_rgs={sourceRgs.length}, source_pages={sourcePages.length}, blooms={blooms.length})")
  else pure { sourceRgs, sourcePages, blooms }

/-- The body of an entry: composite keys are columns 0 and 1 of the sidecar, others column 0. -/
def loadIndexData (idxFile : ParquetFile) (entry : IndexEntry) : Res CodecError LoadedIndexData :=
  match entry.kind with
  | .sorted _ .int64 => .sortedI64 <$> loadSorted readColumnI64Rgs idxFile entry
  | .sorted _ .int32 => .sortedI32 <$> loadSorted readColumnI32Rgs idxFile entry
  | .sorted _ .byteArray => .sortedBytes <$> loadSorted readColumnByteArrayRgs idxFile entry
  | .compositePrefix sourceColumns physicalTypes =>
    .compositePrefixI64I64 <$> loadComposite idxFile entry sourceColumns physicalTypes
  | .inverted _ _ => .inverted <$> loadInverted idxFile entry
  | .bloomPage _ _ => .bloomPage <$> loadBloomPage idxFile entry

/-- `load_index`. -/
def loadIndex (idxFile : ParquetFile) (entry : IndexEntry) : Res CodecError LoadedIndex := do
  let data ← loadIndexData idxFile entry
  pure { entry, data }

/-- `ParquetIndex::open`: every index is decoded. -/
def ParquetIndex.open [FloatText] (idx : Bytes) (source : ParquetFile) :
    Res CodecError ParquetIndex := do
  let index ← LazyParquetIndex.open idx source
  let indexes ← index.manifest.indexes.mapM (loadIndex index.idxFile)
  pure { manifest := index.manifest, indexes, rowsetFormat := index.rowsetFormat }

/-! ## Lookups -/

namespace ParquetIndex

/-- `find_index`: the first with the name. -/
def findIndex (index : ParquetIndex) (name : String) : Res CodecError LoadedIndex :=
  okOr (index.indexes.find? fun i => i.entry.name = name) (.invalidInput
    s!"sidecar has no index named `{name}` (have: {debugList (index.indexes.map fun i => i.entry.name.quote)})")

end ParquetIndex

/-- The type of the keys of a sorted index. -/
def sortedPhysicalType (entry : IndexEntry) : Res CodecError PhysicalType :=
  match entry.kind with
  | .sorted _ physicalType => .ok physicalType
  | _ => codecErr (.invalidInput s!"index `{entry.name}` is not a sorted index")

/-- The hits of a key in the body of a sorted index. -/
def lookupEqIn (indexName : String) (data : LoadedIndexData) (key : Key) (format : RowsetFormat) :
    Res CodecError (List IndexHit) :=
  match data, key with
  | .sortedI64 d, .i64 v => eqHitsI64 d v format
  | .sortedI32 d, .i32 v => eqHitsI32 d v format
  | .sortedBytes d, .bytes v => eqHitsBytes d v format
  | _, _ => codecErr (.invalidInput s!"lookup_eq: key/index type mismatch on `{indexName}`")

/-- The hits of an interval; there are none where its ends are out of order. -/
def lookupRangeIn (indexName : String) (data : LoadedIndexData) (lo hi : Key)
    (format : RowsetFormat) : Res CodecError (List IndexHit) :=
  match data, lo, hi with
  | .sortedI64 d, .i64 a, .i64 b => if b < a then .ok [] else rangeHitsI64 d a b format
  | .sortedI32 d, .i32 a, .i32 b => if b < a then .ok [] else rangeHitsI32 d a b format
  | .sortedBytes d, .bytes a, .bytes b => if b < a then .ok [] else rangeHitsBytes d a b format
  | _, _, _ => codecErr (.invalidInput s!"lookup_range: key/index type mismatch on `{indexName}`")

namespace ParquetIndex

/-- `lookup_eq`: what a sorted index has for one key. -/
def lookupEq (index : ParquetIndex) (indexName : String) (key : Key) :
    Res CodecError (List IndexHit) := do
  let idx ← index.findIndex indexName
  let pt ← sortedPhysicalType idx.entry
  if key.physicalType ≠ pt then codecErr (.invalidInput
    s!"lookup_eq: key variant `{key.variantName}` does not match index `{indexName}` physical type {pt.debug}")
  else lookupEqIn indexName idx.data key index.rowsetFormat

/-- `lookup_range`: what it has from `lo` to `hi`. -/
def lookupRange (index : ParquetIndex) (indexName : String) (lo hi : Key) :
    Res CodecError (List IndexHit) := do
  let idx ← index.findIndex indexName
  let pt ← sortedPhysicalType idx.entry
  if lo.physicalType ≠ pt ∨ hi.physicalType ≠ pt then codecErr (.invalidInput
    s!"lookup_range: key variants ({lo.variantName}, {hi.variantName}) do not match index `{indexName}` physical type {pt.debug}")
  else lookupRangeIn indexName idx.data lo hi index.rowsetFormat

/-- `lookup_composite_eq`: what a composite index has for a pair. -/
def lookupCompositeEq (index : ParquetIndex) (indexName : String) (keyA keyB : Key) :
    Res CodecError (List IndexHit) := do
  let idx ← index.findIndex indexName
  match idx.data with
  | .compositePrefixI64I64 d =>
    match keyA, keyB with
    | .i64 a, .i64 b => compositeEqHits d a b index.rowsetFormat
    | _, _ => codecErr (.invalidInput
      s!"lookup_composite_eq: key variants `{keyA.variantName}`+`{keyB.variantName}` do not match (INT64, INT64)")
  | _ => codecErr (.invalidInput
    s!"lookup_composite_eq: index `{indexName}` is not a (INT64, INT64) composite-prefix index")

/-- `lookup_composite_prefix`: what it has for a first key. -/
def lookupCompositePrefix (index : ParquetIndex) (indexName : String) (keyA : Key) :
    Res CodecError (List IndexHit) := do
  let idx ← index.findIndex indexName
  match idx.data with
  | .compositePrefixI64I64 d =>
    match keyA with
    | .i64 a => compositePrefixHits d a index.rowsetFormat
    | _ => codecErr (.invalidInput
      s!"lookup_composite_prefix: key variant `{keyA.variantName}` does not match INT64")
  | _ => codecErr (.invalidInput
    s!"lookup_composite_prefix: index `{indexName}` is not a (INT64, INT64) composite-prefix index")

/-- `lookup_token`: what an inverted index has for a token. -/
def lookupToken (index : ParquetIndex) (indexName : String) (normalizedToken : Bytes) :
    Res CodecError (List IndexHit) := do
  let idx ← index.findIndex indexName
  match idx.data with
  | .inverted d => invertedEqHits d normalizedToken index.rowsetFormat
  | _ => codecErr (.invalidInput s!"lookup_token: index `{indexName}` is not an inverted index")

/-- The column whose pages the rowsets of an index refer to. -/
def indexedColumn (indexName : String) (entry : IndexEntry) : Res CodecError String :=
  match entry.kind with
  | .sorted sourceColumn _ => .ok sourceColumn
  | .compositePrefix sourceColumns _ => okOr sourceColumns.head?
    (.invalidInput s!"composite index `{indexName}` has empty source_columns")
  | .inverted sourceColumn _ => .ok sourceColumn
  | .bloomPage _ _ => codecErr (.invalidInput s!"index `{indexName}` does not produce IndexHits")

/-- `assemble_bitmaps`: for each row group a bitmap of its rows, or nothing. -/
def assembleBitmaps (index : ParquetIndex) (source : ParquetFile) (indexName : String)
    (hits : List IndexHit) : Res CodecError (List (UInt32 × Bytes)) := do
  let idx ← index.findIndex indexName
  let sourceColName ← indexedColumn indexName idx.entry
  assembleBitmapsFrom source sourceColName hits

/-- What the bitmaps select of a target column, one row group after the other. -/
def readBitmaps {α : Type} (readMasked : ParquetFile → ℕ → ℕ → Bytes → List α → Res CodecError (List α))
    (source : ParquetFile) (targetColumn : ℕ) (bitmaps : List (UInt32 × Bytes)) :
    Res CodecError (List α) :=
  bitmaps.foldlM (fun out e => readMasked source e.1.toNat targetColumn e.2 out) []

/-- The body of the `materialize_*`. -/
def materialize {α : Type} (readMasked : ParquetFile → ℕ → ℕ → Bytes → List α → Res CodecError (List α))
    (index : ParquetIndex) (source : ParquetFile) (indexName : String) (hits : List IndexHit)
    (targetColumn : ℕ) : Res CodecError (List α) :=
  if hits = [] then .ok []
  else do
    let bitmaps ← index.assembleBitmaps source indexName hits
    readBitmaps readMasked source targetColumn bitmaps

/-- `materialize_i64`. -/
def materializeI64 : ParquetIndex → ParquetFile → String → List IndexHit → ℕ →
    Res CodecError (List Int64) := materialize readColumnI64Masked

/-- `materialize_i32`. -/
def materializeI32 : ParquetIndex → ParquetFile → String → List IndexHit → ℕ →
    Res CodecError (List Int32) := materialize readColumnI32Masked

/-- `materialize_byte_array`. -/
def materializeByteArray : ParquetIndex → ParquetFile → String → List IndexHit → ℕ →
    Res CodecError (List Bytes) := materialize readColumnByteArrayMasked

/-- The same body as `materializeI64`. -/
def materializeI64Composite : ParquetIndex → ParquetFile → String → List IndexHit → ℕ →
    Res CodecError (List Int64) := materializeI64

/-- The body of the `read_column_*_where_eq`. -/
def readWhereEq {α : Type}
    (materialize : ParquetIndex → ParquetFile → String → List IndexHit → ℕ → Res CodecError (List α))
    (index : ParquetIndex) (source : ParquetFile) (indexName : String) (key : Key)
    (targetColumn : ℕ) : Res CodecError (List α) := do
  let hits ← index.lookupEq indexName key
  materialize index source indexName hits targetColumn

/-- The body of the `read_column_*_where_range`. -/
def readWhereRange {α : Type}
    (materialize : ParquetIndex → ParquetFile → String → List IndexHit → ℕ → Res CodecError (List α))
    (index : ParquetIndex) (source : ParquetFile) (indexName : String) (lo hi : Key)
    (targetColumn : ℕ) : Res CodecError (List α) := do
  let hits ← index.lookupRange indexName lo hi
  materialize index source indexName hits targetColumn

/-- `read_column_i64_where_eq`. -/
def readColumnI64WhereEq (index : ParquetIndex) (source : ParquetFile) (indexName : String)
    (key : Int64) (targetColumn : ℕ) : Res CodecError (List Int64) :=
  readWhereEq materializeI64 index source indexName (.i64 key) targetColumn

/-- `read_column_i64_where_range`. -/
def readColumnI64WhereRange (index : ParquetIndex) (source : ParquetFile) (indexName : String)
    (lo hi : Int64) (targetColumn : ℕ) : Res CodecError (List Int64) :=
  readWhereRange materializeI64 index source indexName (.i64 lo) (.i64 hi) targetColumn

/-- `read_column_i32_where_eq`. -/
def readColumnI32WhereEq (index : ParquetIndex) (source : ParquetFile) (indexName : String)
    (key : Int32) (targetColumn : ℕ) : Res CodecError (List Int32) :=
  readWhereEq materializeI32 index source indexName (.i32 key) targetColumn

/-- `read_column_i32_where_range`. -/
def readColumnI32WhereRange (index : ParquetIndex) (source : ParquetFile) (indexName : String)
    (lo hi : Int32) (targetColumn : ℕ) : Res CodecError (List Int32) :=
  readWhereRange materializeI32 index source indexName (.i32 lo) (.i32 hi) targetColumn

/-- `read_column_byte_array_where_eq`. -/
def readColumnByteArrayWhereEq (index : ParquetIndex) (source : ParquetFile) (indexName : String)
    (key : Bytes) (targetColumn : ℕ) : Res CodecError (List Bytes) :=
  readWhereEq materializeByteArray index source indexName (.bytes key) targetColumn

/-- `read_column_byte_array_where_range`. -/
def readColumnByteArrayWhereRange (index : ParquetIndex) (source : ParquetFile) (indexName : String)
    (lo hi : Bytes) (targetColumn : ℕ) : Res CodecError (List Bytes) :=
  readWhereRange materializeByteArray index source indexName (.bytes lo) (.bytes hi) targetColumn

/-- `read_column_i64_where_composite_eq`. -/
def readColumnI64WhereCompositeEq (index : ParquetIndex) (source : ParquetFile) (indexName : String)
    (keyA keyB : Int64) (targetColumn : ℕ) : Res CodecError (List Int64) := do
  let hits ← index.lookupCompositeEq indexName (.i64 keyA) (.i64 keyB)
  index.materializeI64Composite source indexName hits targetColumn

/-- `read_column_i64_where_composite_prefix`. -/
def readColumnI64WhereCompositePrefix (index : ParquetIndex) (source : ParquetFile)
    (indexName : String) (keyA : Int64) (targetColumn : ℕ) : Res CodecError (List Int64) := do
  let hits ← index.lookupCompositePrefix indexName (.i64 keyA)
  index.materializeI64Composite source indexName hits targetColumn

/-- The query must be one token. -/
def readColumnByteArrayWhereToken (index : ParquetIndex) (source : ParquetFile)
    (indexName : String) (query : Bytes) (targetColumn : ℕ) : Res CodecError (List Bytes) := do
  let idx ← index.findIndex indexName
  match idx.entry.kind with
  | .inverted _ tokenizer =>
    match tokenizer.tokenize query with
    | [tok] => do
      let hits ← index.lookupToken indexName tok
      index.materializeByteArray source indexName hits targetColumn
    | toks => codecErr (.invalidInput
      s!"read_column_byte_array_where_token: query produced {toks.length} tokens (expected 1; multi-token composition is a higher-level concern)")
  | _ => codecErr (.invalidInput
    s!"read_column_byte_array_where_token: index `{indexName}` is not an inverted index")

end ParquetIndex

/-! ## Filters of pages -/

/-- Bit by bit up to a byte boundary. -/
def setHead (bitmap : Bytes) (bit endBit : ℕ) : Res CodecError (Bytes × ℕ) :=
  if bit < endBit ∧ bit % 8 ≠ 0 then do
    let bitmap ← setRow bitmap bit
    setHead bitmap (bit + 1) endBit
  else .ok (bitmap, bit)
termination_by endBit - bit

/-- Whole bytes. -/
def setBody (bitmap : Bytes) (bit endBit : ℕ) : Res CodecError (Bytes × ℕ) :=
  if bit + 8 ≤ endBit then do
    let bitmap ← setAt bitmap (bit / 8) 0xFF
    setBody bitmap (bit + 8) endBit
  else .ok (bitmap, bit)
termination_by endBit - bit

/-- Bit by bit to the end. -/
def setTail (bitmap : Bytes) (bit endBit : ℕ) : Res CodecError Bytes :=
  if bit < endBit then do
    let bitmap ← setRow bitmap bit
    setTail bitmap (bit + 1) endBit
  else .ok bitmap
termination_by endBit - bit

/-- The bits of an interval, as far as there are any. -/
def setRangeBits (bitmap : Bytes) (startBit endBit : ℕ) : Res CodecError Bytes :=
  if endBit ≤ startBit then .ok bitmap
  else do
    let nBits := bitmap.length * 8
    let endBit := min endBit nBits
    let startBit := min startBit endBit
    let (bitmap, bit) ← setHead bitmap startBit endBit
    let (bitmap, bit) ← setBody bitmap bit endBit
    setTail bitmap bit endBit

/-- What the hash of a key is made of: its PLAIN encoding. -/
def Key.plainBytes : Key → Bytes
  | i64 v => toLeBytes v
  | i32 v => toLeBytes v
  | bytes v => v

/-- The page of row `i` of the body, if its filter may contain the hash. -/
def probePage (bloom : LoadedBloomPage) (hash : UInt64) (i : ℕ) :
    Res CodecError (List (UInt32 × UInt32)) := do
  let bytes ← itemAt bloom.blooms i
  let f ← SplitBlockBloomFilter.fromBytes bytes
  if f.containsHash hash then do
    let rg ← itemAt bloom.sourceRgs i
    let page ← itemAt bloom.sourcePages i
    pure [(rg.toUInt32, page.toUInt32)]
  else pure []

/-- The rows of a candidate page. -/
def setPage (rg : UInt32) (pageLayouts : List DataPageLayout) (bitmap : Bytes) (page : UInt32) :
    Res CodecError Bytes := do
  let layout ← okOr pageLayouts[page.toNat]? (.invalidInput
    s!"bloom hit references page {page.toNat} in rg {rg.toNat} but indexed column has only {pageLayouts.length} pages")
  setRangeBits bitmap layout.firstRow (layout.firstRow + layout.numValues)

/-- The candidate pages of one row group. -/
def candidateBitmap (source : ParquetFile) (md : FileMetaData) (sourceColIdx : ℕ)
    (group : UInt32 × List UInt32) : Res CodecError Bytes := do
  let rgMeta ← okOr md.rowGroups[group.1.toNat]? (.invalidInput
    s!"bloom hit references row_group {group.1.toNat} out of source range")
  let nRows := rgMeta.numRows.toUInt64.toNat
  let pageLayouts ← walkDataPages source group.1.toNat sourceColIdx
  group.2.foldlM (setPage group.1 pageLayouts) (List.replicate (divCeil nRows 8) 0)

namespace ParquetIndex

/-- `bloom_probe`: the pages whose filters may contain the key, in order. -/
def bloomProbe (index : ParquetIndex) (indexName : String) (key : Key) :
    Res CodecError (List (UInt32 × UInt32)) := do
  let idx ← index.findIndex indexName
  match idx.data with
  | .bloomPage bloom =>
    let hash := parquetXxh64 key.plainBytes
    List.flatten <$> (List.range bloom.blooms.length).mapM (probePage bloom hash)
  | _ => codecErr (.invalidInput s!"bloom_probe: index `{indexName}` is not a page-Bloom index")

/-- The rows of the candidate pages are read, and the target is compared with the
    key. -/
def readColumnI64ViaBloomEq (index : ParquetIndex) (source : ParquetFile) (indexName : String)
    (key : Int64) (targetColumn : ℕ) : Res CodecError (List Int64) := do
  let candidatePages ← index.bloomProbe indexName (.i64 key)
  if candidatePages = [] then pure []
  else do
    let idx ← index.findIndex indexName
    match idx.entry.kind with
    | .bloomPage sourceColName _ => do
      let sourceColIdx ← resolveLeafByName source sourceColName
      let md ← mapIo (fun e => .invalidInput s!"source metadata: {e.display}") source.metadata
      let decoded ← (groupSorted candidatePages).foldlM (fun decoded group => do
        let bitmap ← candidateBitmap source md sourceColIdx group
        readColumnI64Masked source group.1.toNat targetColumn bitmap decoded) []
      pure (decoded.filter fun v => v = key)
    | _ => .error (.panic "internal error: entered unreachable code: bloom_probe already validated the kind")

end ParquetIndex

/-! ## The lazy reader -/

/-- The bounds of an `INT64` column, where the footer has both in eight bytes. -/
def idxRgI64Bounds (md : FileMetaData) (rg column : ℕ) : Option (Int64 × Int64) := do
  let group ← md.rowGroups[rg]?
  let chunk ← group.columns[column]?
  let cm ← chunk.metaData
  let stats ← cm.statistics
  let mn ← stats.minValue.or stats.min
  let mx ← stats.maxValue.or stats.max
  if mn.length = 8 ∧ mx.length = 8 then some (fromLeBytes mn, fromLeBytes mx) else none

namespace LazyParquetIndex

/-- The footer says that the key is not in the row group. -/
def Pruned (idxMd : FileMetaData) (rg : ℕ) (key : Int64) : Prop :=
  ∃ bounds ∈ idxRgI64Bounds idxMd rg 0, key < bounds.1 ∨ bounds.2 < key

instance (idxMd : FileMetaData) (rg : ℕ) (key : Int64) : Decidable (Pruned idxMd rg key) :=
  inferInstanceAs (Decidable (∃ bounds ∈ idxRgI64Bounds idxMd rg 0, key < bounds.1 ∨ bounds.2 < key))

/-- The hits of one row group of the body. -/
def groupHits (index : LazyParquetIndex) (idxMd : FileMetaData) (key : Int64) (rg : ℕ) :
    Res CodecError (List IndexHit) :=
  if Pruned idxMd rg key then .ok []
  else do
    let values ← readColumnI64 index.idxFile rg 0
    match equalRun values key with
    | none => pure []
    | some (lo, hi) => do
      let targetRgs ← readColumnI32 index.idxFile rg 1
      let targetPages ← readColumnI32 index.idxFile rg 2
      let rowsets ← readColumnByteArray index.idxFile rg 3
      collectHits { targetRgs, targetPages, rowsets } lo hi index.rowsetFormat

/-- `eq_bitmaps`: what the lazy reader selects for a key. -/
def eqBitmaps [FloatDebug] (index : LazyParquetIndex) (source : ParquetFile) (indexName : String)
    (key : Int64) : Res CodecError (List (UInt32 × Bytes)) := do
  let entry ← okOr (index.manifest.indexes.find? fun e => e.name = indexName)
    (.invalidInput s!"sidecar has no index named `{indexName}`")
  match entry.kind with
  | .sorted sourceCol .int64 => do
    let start := entry.sidecarRowGroup.toNat
    let count := max entry.sidecarRowGroupCount.toNat 1
    let idxMd ← mapIo (fun e => .invalidInput s!"sidecar metadata: {e.display}") index.idxFile.metadata
    let hits ← List.flatten <$> (List.range' start count).mapM (index.groupHits idxMd key)
    if hits = [] then pure [] else assembleBitmapsFrom source sourceCol hits
  | other => codecErr (.invalidInput
    s!"lazy eq lookup supports sorted INT64 indexes; `{indexName}` is {other.debug}")

/-- The body of the lazy `read_column_*_where_eq`; the key is an `INT64` whatever
    the target column. -/
def readWhereEq [FloatDebug] {α : Type}
    (readMasked : ParquetFile → ℕ → ℕ → Bytes → List α → Res CodecError (List α))
    (index : LazyParquetIndex) (source : ParquetFile) (indexName : String) (key : Int64)
    (targetColumn : ℕ) : Res CodecError (List α) := do
  let bitmaps ← index.eqBitmaps source indexName key
  ParquetIndex.readBitmaps readMasked source targetColumn bitmaps

/-- `read_column_i64_where_eq`. -/
def readColumnI64WhereEq [FloatDebug] : LazyParquetIndex → ParquetFile → String → Int64 → ℕ →
    Res CodecError (List Int64) := readWhereEq readColumnI64Masked

/-- `read_column_i32_where_eq`. -/
def readColumnI32WhereEq [FloatDebug] : LazyParquetIndex → ParquetFile → String → Int64 → ℕ →
    Res CodecError (List Int32) := readWhereEq readColumnI32Masked

/-- `read_column_byte_array_where_eq`. -/
def readColumnByteArrayWhereEq [FloatDebug] : LazyParquetIndex → ParquetFile → String → Int64 → ℕ →
    Res CodecError (List Bytes) := readWhereEq readColumnByteArrayMasked

end LazyParquetIndex

end

end EmatixParquet
