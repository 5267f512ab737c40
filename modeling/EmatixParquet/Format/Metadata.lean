/-
  Parquet metadata — the structs of `metadata.rs` and their readers.

  Each reader is the field loop over an accumulator of optional fields, then
  the checks that the required ones were present.  A field with an unexpected
  id or type is an error.
-/
import EmatixParquet.Format.Struct

namespace EmatixParquet

open Wire

variable [Machine]

/-! ## Statistics and key/value pairs -/

/-- All fields are optional; `min`/`max` are the deprecated pair. -/
structure Statistics where
  max : Option Bytes := none
  min : Option Bytes := none
  nullCount : Option Int64 := none
  distinctCount : Option Int64 := none
  maxValue : Option Bytes := none
  minValue : Option Bytes := none
  isMaxValueExact : Option Bool := none
  isMinValueExact : Option Bool := none
  deriving DecidableEq, Repr

/-- One field of `Statistics`. -/
def readStatisticsStep (s : Statistics) (h : FieldHeader) : CursorM Statistics :=
  match h.id.toInt, h.fieldType with
  | 1, .binary => (fun v => { s with max := some v }) <$> readBinary
  | 2, .binary => (fun v => { s with min := some v }) <$> readBinary
  | 3, .i64 => (fun v => { s with nullCount := some v }) <$> readZigzagI64
  | 4, .i64 => (fun v => { s with distinctCount := some v }) <$> readZigzagI64
  | 5, .binary => (fun v => { s with maxValue := some v }) <$> readBinary
  | 6, .binary => (fun v => { s with minValue := some v }) <$> readBinary
  | 7, .boolTrue => pure { s with isMaxValueExact := some true }
  | 7, .boolFalse => pure { s with isMaxValueExact := some false }
  | 8, .boolTrue => pure { s with isMinValueExact := some true }
  | 8, .boolFalse => pure { s with isMinValueExact := some false }
  | _, _ => throwFormat (unknown "Statistics" h.id)

/-- `read_statistics`: no field is required. -/
def readStatistics : CursorM Statistics := readFields readStatisticsStep {}

/-- An entry of a key/value list; its value may be missing. -/
structure KeyValue where
  key : Bytes
  value : Option Bytes
  deriving DecidableEq, Repr

/-- The fields of a `KeyValue` read so far. -/
structure KeyValueAcc where
  key : Option Bytes := none
  value : Option Bytes := none

/-- One field of `KeyValue`. -/
def readKeyValueStep (a : KeyValueAcc) (h : FieldHeader) : CursorM KeyValueAcc :=
  match h.id.toInt, h.fieldType with
  | 1, .binary => (fun v => { a with key := some v }) <$> readBinary
  | 2, .binary => (fun v => { a with value := some v }) <$> readBinary
  | _, _ => throwFormat (unknown "KeyValue" h.id)

/-- `read_key_value`. -/
def readKeyValue : CursorM KeyValue := do
  let a ← readFields readKeyValueStep {}
  let key ← required a.key "KeyValue" 1
  pure { key, value := a.value }

/-! ## Page headers -/

/-- The header of a V1 data page. -/
structure DataPageHeader where
  numValues : Int32
  encoding : Encoding
  definitionLevelEncoding : Encoding
  repetitionLevelEncoding : Encoding
  statistics : Option Statistics
  deriving DecidableEq, Repr

/-- The fields of a `DataPageHeader` read so far. -/
structure DataPageHeaderAcc where
  numValues : Option Int32 := none
  encoding : Option Encoding := none
  defEnc : Option Encoding := none
  repEnc : Option Encoding := none
  statistics : Option Statistics := none

/-- One field of `DataPageHeader`. -/
def readDataPageHeaderStep (a : DataPageHeaderAcc) (h : FieldHeader) :
    CursorM DataPageHeaderAcc :=
  match h.id.toInt, h.fieldType with
  | 1, .i32 => (fun v => { a with numValues := some v }) <$> readZigzagI32
  | 2, .i32 => (fun v => { a with encoding := some v }) <$> ThriftEnum.read
  | 3, .i32 => (fun v => { a with defEnc := some v }) <$> ThriftEnum.read
  | 4, .i32 => (fun v => { a with repEnc := some v }) <$> ThriftEnum.read
  | 5, .struct => (fun v => { a with statistics := some v }) <$> readStatistics
  | _, _ => throwFormat (unknown "DataPageHeader" h.id)

/-- `read_data_page_header`: all but the statistics are required. -/
def readDataPageHeader : CursorM DataPageHeader := do
  let a ← readFields readDataPageHeaderStep {}
  let numValues ← required a.numValues "DataPageHeader" 1
  let encoding ← required a.encoding "DataPageHeader" 2
  let definitionLevelEncoding ← required a.defEnc "DataPageHeader" 3
  let repetitionLevelEncoding ← required a.repEnc "DataPageHeader" 4
  pure { numValues, encoding, definitionLevelEncoding, repetitionLevelEncoding,
         statistics := a.statistics }

/-- The header of an index page, which has no fields. -/
structure IndexPageHeader where
  deriving DecidableEq, Repr

/-- `read_index_page_header`. -/
def readIndexPageHeader : CursorM IndexPageHeader :=
  (fun _ => {}) <$> readEmptyStruct "IndexPageHeader"

/-- The header of a dictionary page. -/
structure DictionaryPageHeader where
  numValues : Int32
  encoding : Encoding
  isSorted : Option Bool
  deriving DecidableEq, Repr

/-- The fields of a `DictionaryPageHeader` read so far. -/
structure DictionaryPageHeaderAcc where
  numValues : Option Int32 := none
  encoding : Option Encoding := none
  isSorted : Option Bool := none

/-- One field of `DictionaryPageHeader`. -/
def readDictionaryPageHeaderStep (a : DictionaryPageHeaderAcc) (h : FieldHeader) :
    CursorM DictionaryPageHeaderAcc :=
  match h.id.toInt, h.fieldType with
  | 1, .i32 => (fun v => { a with numValues := some v }) <$> readZigzagI32
  | 2, .i32 => (fun v => { a with encoding := some v }) <$> ThriftEnum.read
  | 3, .boolTrue => pure { a with isSorted := some true }
  | 3, .boolFalse => pure { a with isSorted := some false }
  | _, _ => throwFormat (unknown "DictionaryPageHeader" h.id)

/-- `read_dictionary_page_header`. -/
def readDictionaryPageHeader : CursorM DictionaryPageHeader := do
  let a ← readFields readDictionaryPageHeaderStep {}
  let numValues ← required a.numValues "DictionaryPageHeader" 1
  let encoding ← required a.encoding "DictionaryPageHeader" 2
  pure { numValues, encoding, isSorted := a.isSorted }

/-- The header of a V2 data page: its levels stand in front of the values, and their lengths
    here. -/
structure DataPageHeaderV2 where
  numValues : Int32
  numNulls : Int32
  numRows : Int32
  encoding : Encoding
  definitionLevelsByteLength : Int32
  repetitionLevelsByteLength : Int32
  isCompressed : Bool
  statistics : Option Statistics
  deriving DecidableEq, Repr

/-- The fields of a `DataPageHeaderV2` read so far. -/
structure DataPageHeaderV2Acc where
  numValues : Option Int32 := none
  numNulls : Option Int32 := none
  numRows : Option Int32 := none
  encoding : Option Encoding := none
  defLen : Option Int32 := none
  repLen : Option Int32 := none
  /-- An absent field 7 means `true`. -/
  isCompressed : Bool := true
  statistics : Option Statistics := none

/-- One field of `DataPageHeaderV2`. -/
def readDataPageHeaderV2Step (a : DataPageHeaderV2Acc) (h : FieldHeader) :
    CursorM DataPageHeaderV2Acc :=
  match h.id.toInt, h.fieldType with
  | 1, .i32 => (fun v => { a with numValues := some v }) <$> readZigzagI32
  | 2, .i32 => (fun v => { a with numNulls := some v }) <$> readZigzagI32
  | 3, .i32 => (fun v => { a with numRows := some v }) <$> readZigzagI32
  | 4, .i32 => (fun v => { a with encoding := some v }) <$> ThriftEnum.read
  | 5, .i32 => (fun v => { a with defLen := some v }) <$> readZigzagI32
  | 6, .i32 => (fun v => { a with repLen := some v }) <$> readZigzagI32
  | 7, .boolTrue => pure { a with isCompressed := true }
  | 7, .boolFalse => pure { a with isCompressed := false }
  | 8, .struct => (fun v => { a with statistics := some v }) <$> readStatistics
  | _, _ => throwFormat (unknown "DataPageHeaderV2" h.id)

/-- `read_data_page_header_v2`. -/
def readDataPageHeaderV2 : CursorM DataPageHeaderV2 := do
  let a ← readFields readDataPageHeaderV2Step {}
  let numValues ← required a.numValues "DataPageHeaderV2" 1
  let numNulls ← required a.numNulls "DataPageHeaderV2" 2
  let numRows ← required a.numRows "DataPageHeaderV2" 3
  let encoding ← required a.encoding "DataPageHeaderV2" 4
  let definitionLevelsByteLength ← required a.defLen "DataPageHeaderV2" 5
  let repetitionLevelsByteLength ← required a.repLen "DataPageHeaderV2" 6
  pure { numValues, numNulls, numRows, encoding, definitionLevelsByteLength,
         repetitionLevelsByteLength, isCompressed := a.isCompressed, statistics := a.statistics }

/-- The header of any page: the part for its type is one of the last four fields. -/
structure PageHeader where
  pageType : PageType
  uncompressedPageSize : Int32
  compressedPageSize : Int32
  crc : Option Int32
  dataPageHeader : Option DataPageHeader
  indexPageHeader : Option IndexPageHeader
  dictionaryPageHeader : Option DictionaryPageHeader
  dataPageHeaderV2 : Option DataPageHeaderV2
  deriving DecidableEq, Repr

/-- The fields of a `PageHeader` read so far. -/
structure PageHeaderAcc where
  pageType : Option PageType := none
  uncompressed : Option Int32 := none
  compressed : Option Int32 := none
  crc : Option Int32 := none
  dph : Option DataPageHeader := none
  iph : Option IndexPageHeader := none
  dictph : Option DictionaryPageHeader := none
  v2 : Option DataPageHeaderV2 := none

/-- One field of `PageHeader`. -/
def readPageHeaderStep (a : PageHeaderAcc) (h : FieldHeader) : CursorM PageHeaderAcc :=
  match h.id.toInt, h.fieldType with
  | 1, .i32 => (fun v => { a with pageType := some v }) <$> ThriftEnum.read
  | 2, .i32 => (fun v => { a with uncompressed := some v }) <$> readZigzagI32
  | 3, .i32 => (fun v => { a with compressed := some v }) <$> readZigzagI32
  | 4, .i32 => (fun v => { a with crc := some v }) <$> readZigzagI32
  | 5, .struct => (fun v => { a with dph := some v }) <$> readDataPageHeader
  | 6, .struct => (fun v => { a with iph := some v }) <$> readIndexPageHeader
  | 7, .struct => (fun v => { a with dictph := some v }) <$> readDictionaryPageHeader
  | 8, .struct => (fun v => { a with v2 := some v }) <$> readDataPageHeaderV2
  | _, _ => throwFormat (unknown "PageHeader" h.id)

/-- `read_page_header`: that the part for the page type is there is not checked. -/
def readPageHeader : CursorM PageHeader := do
  let a ← readFields readPageHeaderStep {}
  let pageType ← required a.pageType "PageHeader" 1
  let uncompressedPageSize ← required a.uncompressed "PageHeader" 2
  let compressedPageSize ← required a.compressed "PageHeader" 3
  pure { pageType, uncompressedPageSize, compressedPageSize, crc := a.crc,
         dataPageHeader := a.dph, indexPageHeader := a.iph, dictionaryPageHeader := a.dictph,
         dataPageHeaderV2 := a.v2 }

/-! ## Logical types -/

/-- The parameters of a decimal. -/
structure DecimalType where
  scale : Int32
  precision : Int32
  deriving DecidableEq, Repr

/-- The parameters of an integer. -/
structure IntType where
  bitWidth : Int8
  isSigned : Bool
  deriving DecidableEq, Repr

/-- The unit of a time or a timestamp. -/
inductive TimeUnit where
  | millis | micros | nanos
  deriving DecidableEq, Repr

/-- The parameters of a timestamp. -/
structure TimestampType where
  isAdjustedToUtc : Bool
  unit : TimeUnit
  deriving DecidableEq, Repr

/-- The parameters of a time of day. -/
structure TimeType where
  isAdjustedToUtc : Bool
  unit : TimeUnit
  deriving DecidableEq, Repr

/-- The parameters of a variant. -/
structure VariantType where
  specificationVersion : Option Int8
  deriving DecidableEq, Repr

/-- The parameters of a geometry. -/
structure GeometryType where
  crs : Option Bytes
  deriving DecidableEq, Repr

/-- The parameters of a geography. -/
structure GeographyType where
  crs : Option Bytes
  algorithm : Option EdgeInterpolationAlgorithm
  deriving DecidableEq, Repr

/-- What the values of a column mean. -/
inductive LogicalType where
  | string | map | list | enum
  | decimal (t : DecimalType)
  | date
  | time (t : TimeType)
  | timestamp (t : TimestampType)
  | integer (t : IntType)
  | null | json | bson | uuid | float16
  | variant (t : VariantType)
  | geometry (t : GeometryType)
  | geography (t : GeographyType)
  deriving DecidableEq, Repr

/-- One variant of the union `TimeUnit`. -/
def readTimeUnitStep (_ : Option TimeUnit) (h : FieldHeader) : CursorM (Option TimeUnit) :=
  match h.id.toInt, h.fieldType with
  | 1, .struct => (fun _ => some .millis) <$> readEmptyStruct "MilliSeconds"
  | 2, .struct => (fun _ => some .micros) <$> readEmptyStruct "MicroSeconds"
  | 3, .struct => (fun _ => some .nanos) <$> readEmptyStruct "NanoSeconds"
  | _, _ => throwFormat (unknown "TimeUnit" h.id)

/-- `read_time_unit`. -/
def readTimeUnit : CursorM TimeUnit := do
  let chosen ← readFields readTimeUnitStep none
  requiredUnion chosen "TimeUnit"

/-- The fields of a `DecimalType` read so far. -/
structure DecimalTypeAcc where
  scale : Option Int32 := none
  precision : Option Int32 := none

/-- One field of `DecimalType`. -/
def readDecimalTypeStep (a : DecimalTypeAcc) (h : FieldHeader) : CursorM DecimalTypeAcc :=
  match h.id.toInt, h.fieldType with
  | 1, .i32 => (fun v => { a with scale := some v }) <$> readZigzagI32
  | 2, .i32 => (fun v => { a with precision := some v }) <$> readZigzagI32
  | _, _ => throwFormat (unknown "DecimalType" h.id)

/-- `read_decimal_type`. -/
def readDecimalType : CursorM DecimalType := do
  let a ← readFields readDecimalTypeStep {}
  let scale ← required a.scale "DecimalType" 1
  let precision ← required a.precision "DecimalType" 2
  pure { scale, precision }

/-- The fields of an `IntType` read so far. -/
structure IntTypeAcc where
  bitWidth : Option Int8 := none
  isSigned : Option Bool := none

/-- One field of `IntType`. -/
def readIntTypeStep (a : IntTypeAcc) (h : FieldHeader) : CursorM IntTypeAcc :=
  match h.id.toInt, h.fieldType with
  | 1, .byte => (fun v => { a with bitWidth := some v }) <$> readI8
  | 2, .boolTrue => pure { a with isSigned := some true }
  | 2, .boolFalse => pure { a with isSigned := some false }
  | _, _ => throwFormat (unknown "IntType" h.id)

/-- `read_int_type`. -/
def readIntType : CursorM IntType := do
  let a ← readFields readIntTypeStep {}
  let bitWidth ← required a.bitWidth "IntType" 1
  let isSigned ← required a.isSigned "IntType" 2
  pure { bitWidth, isSigned }

/-- The fields of a `TimestampType` or a `TimeType` read so far. -/
structure UtcUnitAcc where
  isUtc : Option Bool := none
  unit : Option TimeUnit := none

/-- `TimestampType` and `TimeType` have the same two fields. -/
def readUtcUnitStep (name : String) (a : UtcUnitAcc) (h : FieldHeader) : CursorM UtcUnitAcc :=
  match h.id.toInt, h.fieldType with
  | 1, .boolTrue => pure { a with isUtc := some true }
  | 1, .boolFalse => pure { a with isUtc := some false }
  | 2, .struct => (fun v => { a with unit := some v }) <$> readTimeUnit
  | _, _ => throwFormat (unknown name h.id)

/-- `read_timestamp_type`. -/
def readTimestampType : CursorM TimestampType := do
  let a ← readFields (readUtcUnitStep "TimestampType") {}
  let isAdjustedToUtc ← required a.isUtc "TimestampType" 1
  let unit ← required a.unit "TimestampType" 2
  pure { isAdjustedToUtc, unit }

/-- `read_time_type`. -/
def readTimeType : CursorM TimeType := do
  let a ← readFields (readUtcUnitStep "TimeType") {}
  let isAdjustedToUtc ← required a.isUtc "TimeType" 1
  let unit ← required a.unit "TimeType" 2
  pure { isAdjustedToUtc, unit }

/-- One field of `VariantType`. -/
def readVariantTypeStep (a : VariantType) (h : FieldHeader) : CursorM VariantType :=
  match h.id.toInt, h.fieldType with
  | 1, .byte => (fun v => { a with specificationVersion := some v }) <$> readI8
  | _, _ => throwFormat (unknown "VariantType" h.id)

/-- `read_variant_type`. -/
def readVariantType : CursorM VariantType :=
  readFields readVariantTypeStep { specificationVersion := none }

/-- One field of `GeometryType`. -/
def readGeometryTypeStep (a : GeometryType) (h : FieldHeader) : CursorM GeometryType :=
  match h.id.toInt, h.fieldType with
  | 1, .binary => (fun v => { a with crs := some v }) <$> readBinary
  | _, _ => throwFormat (unknown "GeometryType" h.id)

/-- `read_geometry_type`. -/
def readGeometryType : CursorM GeometryType := readFields readGeometryTypeStep { crs := none }

/-- One field of `GeographyType`. -/
def readGeographyTypeStep (a : GeographyType) (h : FieldHeader) : CursorM GeographyType :=
  match h.id.toInt, h.fieldType with
  | 1, .binary => (fun v => { a with crs := some v }) <$> readBinary
  | 2, .i32 => (fun v => { a with algorithm := some v }) <$> ThriftEnum.read
  | _, _ => throwFormat (unknown "GeographyType" h.id)

/-- `read_geography_type`. -/
def readGeographyType : CursorM GeographyType :=
  readFields readGeographyTypeStep { crs := none, algorithm := none }

/-- Id 9 is reserved. -/
def readLogicalTypeStep (_ : Option LogicalType) (h : FieldHeader) :
    CursorM (Option LogicalType) :=
  some <$> match h.id.toInt, h.fieldType with
    | 1, .struct => (fun _ => .string) <$> readEmptyStruct "StringType"
    | 2, .struct => (fun _ => .map) <$> readEmptyStruct "MapType"
    | 3, .struct => (fun _ => .list) <$> readEmptyStruct "ListType"
    | 4, .struct => (fun _ => .enum) <$> readEmptyStruct "EnumType"
    | 5, .struct => .decimal <$> readDecimalType
    | 6, .struct => (fun _ => .date) <$> readEmptyStruct "DateType"
    | 7, .struct => .time <$> readTimeType
    | 8, .struct => .timestamp <$> readTimestampType
    | 10, .struct => .integer <$> readIntType
    | 11, .struct => (fun _ => .null) <$> readEmptyStruct "NullType"
    | 12, .struct => (fun _ => .json) <$> readEmptyStruct "JsonType"
    | 13, .struct => (fun _ => .bson) <$> readEmptyStruct "BsonType"
    | 14, .struct => (fun _ => .uuid) <$> readEmptyStruct "UUIDType"
    | 15, .struct => (fun _ => .float16) <$> readEmptyStruct "Float16Type"
    | 16, .struct => .variant <$> readVariantType
    | 17, .struct => .geometry <$> readGeometryType
    | 18, .struct => .geography <$> readGeographyType
    | _, _ => throwFormat (unknown "LogicalType" h.id)

/-- `read_logical_type`: the last variant that is read counts. -/
def readLogicalType : CursorM LogicalType := do
  let chosen ← readFields readLogicalTypeStep none
  requiredUnion chosen "LogicalType"

/-! ## Schema elements -/

/-- A node of the schema, which is listed in preorder: a group says how many children it has, a
    leaf its type. -/
structure SchemaElement where
  columnType : Option ParquetType := none
  typeLength : Option Int32 := none
  repetitionType : Option FieldRepetitionType := none
  name : Bytes := []
  numChildren : Option Int32 := none
  convertedType : Option ConvertedType := none
  scale : Option Int32 := none
  precision : Option Int32 := none
  fieldId : Option Int32 := none
  logicalType : Option LogicalType := none
  deriving DecidableEq, Repr

/-- The fields of a `SchemaElement` read so far. -/
structure SchemaElementAcc where
  columnType : Option ParquetType := none
  typeLength : Option Int32 := none
  repetitionType : Option FieldRepetitionType := none
  name : Option Bytes := none
  numChildren : Option Int32 := none
  convertedType : Option ConvertedType := none
  scale : Option Int32 := none
  precision : Option Int32 := none
  fieldId : Option Int32 := none
  logicalType : Option LogicalType := none

/-- One field of `SchemaElement`. -/
def readSchemaElementStep (a : SchemaElementAcc) (h : FieldHeader) :
    CursorM SchemaElementAcc :=
  match h.id.toInt, h.fieldType with
  | 1, .i32 => (fun v => { a with columnType := some v }) <$> ThriftEnum.read
  | 2, .i32 => (fun v => { a with typeLength := some v }) <$> readZigzagI32
  | 3, .i32 => (fun v => { a with repetitionType := some v }) <$> ThriftEnum.read
  | 4, .binary => (fun v => { a with name := some v }) <$> readBinary
  | 5, .i32 => (fun v => { a with numChildren := some v }) <$> readZigzagI32
  | 6, .i32 => (fun v => { a with convertedType := some v }) <$> ThriftEnum.read
  | 7, .i32 => (fun v => { a with scale := some v }) <$> readZigzagI32
  | 8, .i32 => (fun v => { a with precision := some v }) <$> readZigzagI32
  | 9, .i32 => (fun v => { a with fieldId := some v }) <$> readZigzagI32
  | 10, .struct => (fun v => { a with logicalType := some v }) <$> readLogicalType
  | _, _ => throwFormat (unknown "SchemaElement" h.id)

/-- `read_schema_element`: only the name is required. -/
def readSchemaElement : CursorM SchemaElement := do
  let a ← readFields readSchemaElementStep {}
  let name ← required a.name "SchemaElement" 4
  pure { columnType := a.columnType, typeLength := a.typeLength,
         repetitionType := a.repetitionType, name, numChildren := a.numChildren,
         convertedType := a.convertedType, scale := a.scale, precision := a.precision,
         fieldId := a.fieldId, logicalType := a.logicalType }

/-! ## Encryption descriptors -/

/-- The parameters of AES-GCM for all modules. -/
structure AesGcmV1 where
  aadPrefix : Option Bytes := none
  aadFileUnique : Option Bytes := none
  supplyAadPrefix : Option Bool := none
  deriving DecidableEq, Repr

/-- The parameters of AES-GCM for all modules but the page bodies, which are under AES-CTR. -/
structure AesGcmCtrV1 where
  aadPrefix : Option Bytes := none
  aadFileUnique : Option Bytes := none
  supplyAadPrefix : Option Bool := none
  deriving DecidableEq, Repr

/-- How the modules of a file are encrypted. -/
inductive EncryptionAlgorithm where
  | aesGcmV1 (v : AesGcmV1)
  | aesGcmCtrV1 (v : AesGcmCtrV1)
  deriving DecidableEq, Repr

/-- One field of `AesGcmV1`. -/
def readAesGcmV1Step (out : AesGcmV1) (h : FieldHeader) : CursorM AesGcmV1 :=
  match h.id.toInt, h.fieldType with
  | 1, .binary => (fun v => { out with aadPrefix := some v }) <$> readBinary
  | 2, .binary => (fun v => { out with aadFileUnique := some v }) <$> readBinary
  | 3, .boolTrue => pure { out with supplyAadPrefix := some true }
  | 3, .boolFalse => pure { out with supplyAadPrefix := some false }
  | _, _ => throwFormat (unknown "AesGcmV1" h.id)

/-- `read_aes_gcm_v1`. -/
def readAesGcmV1 : CursorM AesGcmV1 := readFields readAesGcmV1Step {}

/-- One field of `AesGcmCtrV1`. -/
def readAesGcmCtrV1Step (out : AesGcmCtrV1) (h : FieldHeader) : CursorM AesGcmCtrV1 :=
  match h.id.toInt, h.fieldType with
  | 1, .binary => (fun v => { out with aadPrefix := some v }) <$> readBinary
  | 2, .binary => (fun v => { out with aadFileUnique := some v }) <$> readBinary
  | 3, .boolTrue => pure { out with supplyAadPrefix := some true }
  | 3, .boolFalse => pure { out with supplyAadPrefix := some false }
  | _, _ => throwFormat (unknown "AesGcmCtrV1" h.id)

/-- `read_aes_gcm_ctr_v1`. -/
def readAesGcmCtrV1 : CursorM AesGcmCtrV1 := readFields readAesGcmCtrV1Step {}

/-- One variant of the union `EncryptionAlgorithm`. -/
def readEncryptionAlgorithmStep (_ : Option EncryptionAlgorithm) (h : FieldHeader) :
    CursorM (Option EncryptionAlgorithm) :=
  match h.id.toInt, h.fieldType with
  | 1, .struct => (fun v => some (.aesGcmV1 v)) <$> readAesGcmV1
  | 2, .struct => (fun v => some (.aesGcmCtrV1 v)) <$> readAesGcmCtrV1
  | _, _ => throwFormat (unknown "EncryptionAlgorithm" h.id)

/-- `read_encryption_algorithm`. -/
def readEncryptionAlgorithm : CursorM EncryptionAlgorithm := do
  let chosen ← readFields readEncryptionAlgorithmStep none
  requiredUnion chosen "EncryptionAlgorithm"

/-- The key of a column that has one of its own. -/
structure EncryptionWithColumnKey where
  pathInSchema : List Bytes
  keyMetadata : Option Bytes
  deriving DecidableEq, Repr

/-- With which key a column is encrypted. -/
inductive ColumnCryptoMetaData where
  | encryptionWithFooterKey
  | encryptionWithColumnKey (k : EncryptionWithColumnKey)
  deriving DecidableEq, Repr

/-- The fields of an `EncryptionWithColumnKey` read so far. -/
structure EncryptionWithColumnKeyAcc where
  pathInSchema : Option (List Bytes) := none
  keyMetadata : Option Bytes := none

/-- One field of `EncryptionWithColumnKey`. -/
def readEncryptionWithColumnKeyStep (a : EncryptionWithColumnKeyAcc) (h : FieldHeader) :
    CursorM EncryptionWithColumnKeyAcc :=
  match h.id.toInt, h.fieldType with
  | 1, .list => (fun v => { a with pathInSchema := some v }) <$> readListBinary
  | 2, .binary => (fun v => { a with keyMetadata := some v }) <$> readBinary
  | _, _ => throwFormat (unknown "EncryptionWithColumnKey" h.id)

/-- `read_encryption_with_column_key`. -/
def readEncryptionWithColumnKey : CursorM EncryptionWithColumnKey := do
  let a ← readFields readEncryptionWithColumnKeyStep {}
  let pathInSchema ← required a.pathInSchema "EncryptionWithColumnKey" 1
  pure { pathInSchema, keyMetadata := a.keyMetadata }

/-- `read_encryption_with_footer_key`. -/
def readEncryptionWithFooterKey : CursorM Unit := readEmptyStruct "EncryptionWithFooterKey"

/-- One variant of the union `ColumnCryptoMetaData`. -/
def readColumnCryptoMetadataStep (_ : Option ColumnCryptoMetaData) (h : FieldHeader) :
    CursorM (Option ColumnCryptoMetaData) :=
  match h.id.toInt, h.fieldType with
  | 1, .struct => (fun _ => some .encryptionWithFooterKey) <$> readEncryptionWithFooterKey
  | 2, .struct => (fun v => some (.encryptionWithColumnKey v)) <$> readEncryptionWithColumnKey
  | _, _ => throwFormat (unknown "ColumnCryptoMetaData" h.id)

/-- `read_column_crypto_metadata`. -/
def readColumnCryptoMetadata : CursorM ColumnCryptoMetaData := do
  let chosen ← readFields readColumnCryptoMetadataStep none
  requiredUnion chosen "ColumnCryptoMetaData"

/-- What stands in front of an encrypted footer. -/
structure FileCryptoMetaData where
  encryptionAlgorithm : Option EncryptionAlgorithm := none
  keyMetadata : Option Bytes := none
  deriving DecidableEq, Repr

/-- One field of `FileCryptoMetaData`. -/
def readFileCryptoMetadataStep (a : FileCryptoMetaData) (h : FieldHeader) :
    CursorM FileCryptoMetaData :=
  match h.id.toInt, h.fieldType with
  | 1, .struct =>
    (fun v => { a with encryptionAlgorithm := some v }) <$> readEncryptionAlgorithm
  | 2, .binary => (fun v => { a with keyMetadata := some v }) <$> readBinary
  | _, _ => throwFormat (unknown "FileCryptoMetaData" h.id)

/-- `read_file_crypto_metadata`: the algorithm is required. -/
def readFileCryptoMetadata : CursorM FileCryptoMetaData := do
  let a ← readFields readFileCryptoMetadataStep {}
  let encryptionAlgorithm ← required a.encryptionAlgorithm "FileCryptoMetaData" 1
  pure { encryptionAlgorithm := some encryptionAlgorithm, keyMetadata := a.keyMetadata }

/-! ## Column chunks -/

/-- How many pages of a chunk have a type and an encoding. -/
structure PageEncodingStats where
  pageType : PageType
  encoding : Encoding
  count : Int32
  deriving DecidableEq, Repr

/-- The sizes of the values of a chunk before they are encoded. -/
structure SizeStatistics where
  unencodedByteArrayDataBytes : Option Int64 := none
  repetitionLevelHistogram : Option (List Int64) := none
  definitionLevelHistogram : Option (List Int64) := none
  deriving DecidableEq, Repr

/-- What the footer says of a column chunk. -/
structure ColumnMetaData where
  columnType : ParquetType
  encodings : List Encoding
  pathInSchema : List Bytes
  codec : CompressionCodec
  numValues : Int64
  totalUncompressedSize : Int64
  totalCompressedSize : Int64
  keyValueMetadata : Option (List KeyValue)
  dataPageOffset : Int64
  indexPageOffset : Option Int64
  dictionaryPageOffset : Option Int64
  statistics : Option Statistics
  encodingStats : Option (List PageEncodingStats)
  bloomFilterOffset : Option Int64
  bloomFilterLength : Option Int32
  sizeStatistics : Option SizeStatistics
  deriving DecidableEq, Repr

/-- Where the metadata of a chunk, its page index and its encryption are. -/
structure ColumnChunk where
  filePath : Option Bytes := none
  fileOffset : Int64 := 0
  metaData : Option ColumnMetaData := none
  offsetIndexOffset : Option Int64 := none
  offsetIndexLength : Option Int32 := none
  columnIndexOffset : Option Int64 := none
  columnIndexLength : Option Int32 := none
  cryptoMetadata : Option ColumnCryptoMetaData := none
  encryptedColumnMetadata : Option Bytes := none
  deriving DecidableEq, Repr

/-- The fields of a `PageEncodingStats` read so far. -/
structure PageEncodingStatsAcc where
  pageType : Option PageType := none
  encoding : Option Encoding := none
  count : Option Int32 := none

/-- One field of `PageEncodingStats`. -/
def readPageEncodingStatsStep (a : PageEncodingStatsAcc) (h : FieldHeader) :
    CursorM PageEncodingStatsAcc :=
  match h.id.toInt, h.fieldType with
  | 1, .i32 => (fun v => { a with pageType := some v }) <$> ThriftEnum.read
  | 2, .i32 => (fun v => { a with encoding := some v }) <$> ThriftEnum.read
  | 3, .i32 => (fun v => { a with count := some v }) <$> readZigzagI32
  | _, _ => throwFormat (unknown "PageEncodingStats" h.id)

/-- `read_page_encoding_stats`. -/
def readPageEncodingStats : CursorM PageEncodingStats := do
  let a ← readFields readPageEncodingStatsStep {}
  let pageType ← required a.pageType "PageEncodingStats" 1
  let encoding ← required a.encoding "PageEncodingStats" 2
  let count ← required a.count "PageEncodingStats" 3
  pure { pageType, encoding, count }

/-- One field of `SizeStatistics`. -/
def readSizeStatisticsStep (a : SizeStatistics) (h : FieldHeader) : CursorM SizeStatistics :=
  match h.id.toInt, h.fieldType with
  | 1, .i64 => (fun v => { a with unencodedByteArrayDataBytes := some v }) <$> readZigzagI64
  | 2, .list => (fun v => { a with repetitionLevelHistogram := some v }) <$> readListI64
  | 3, .list => (fun v => { a with definitionLevelHistogram := some v }) <$> readListI64
  | _, _ => throwFormat (unknown "SizeStatistics" h.id)

/-- `read_size_statistics`: no field is required. -/
def readSizeStatistics : CursorM SizeStatistics := readFields readSizeStatisticsStep {}

/-- The fields of a `ColumnMetaData` read so far. -/
structure ColumnMetaDataAcc where
  columnType : Option ParquetType := none
  encodings : Option (List Encoding) := none
  path : Option (List Bytes) := none
  codec : Option CompressionCodec := none
  numValues : Option Int64 := none
  totalUncompressed : Option Int64 := none
  totalCompressed : Option Int64 := none
  kv : Option (List KeyValue) := none
  dataPageOffset : Option Int64 := none
  indexPageOffset : Option Int64 := none
  dictPageOffset : Option Int64 := none
  statistics : Option Statistics := none
  encodingStats : Option (List PageEncodingStats) := none
  bloomOffset : Option Int64 := none
  bloomLength : Option Int32 := none
  sizeStatistics : Option SizeStatistics := none

/-- The list of encodings: raw integers, then each checked. -/
def readEncodings : CursorM (List Encoding) := do
  let raw ← readListI32
  Reader.lift (raw.mapM ThriftEnum.fromI32)

/-- One field of `ColumnMetaData`. -/
def readColumnMetadataStep (a : ColumnMetaDataAcc) (h : FieldHeader) :
    CursorM ColumnMetaDataAcc :=
  match h.id.toInt, h.fieldType with
  | 1, .i32 => (fun v => { a with columnType := some v }) <$> ThriftEnum.read
  | 2, .list => (fun v => { a with encodings := some v }) <$> readEncodings
  | 3, .list => (fun v => { a with path := some v }) <$> readListBinary
  | 4, .i32 => (fun v => { a with codec := some v }) <$> ThriftEnum.read
  | 5, .i64 => (fun v => { a with numValues := some v }) <$> readZigzagI64
  | 6, .i64 => (fun v => { a with totalUncompressed := some v }) <$> readZigzagI64
  | 7, .i64 => (fun v => { a with totalCompressed := some v }) <$> readZigzagI64
  | 8, .list => (fun v => { a with kv := some v }) <$> readListStruct readKeyValue
  | 9, .i64 => (fun v => { a with dataPageOffset := some v }) <$> readZigzagI64
  | 10, .i64 => (fun v => { a with indexPageOffset := some v }) <$> readZigzagI64
  | 11, .i64 => (fun v => { a with dictPageOffset := some v }) <$> readZigzagI64
  | 12, .struct => (fun v => { a with statistics := some v }) <$> readStatistics
  | 13, .list =>
    (fun v => { a with encodingStats := some v }) <$> readListStruct readPageEncodingStats
  | 14, .i64 => (fun v => { a with bloomOffset := some v }) <$> readZigzagI64
  | 15, .i32 => (fun v => { a with bloomLength := some v }) <$> readZigzagI32
  | 16, .struct => (fun v => { a with sizeStatistics := some v }) <$> readSizeStatistics
  | _, _ => throwFormat (unknown "ColumnMetaData" h.id)

/-- `read_column_metadata`: fields 1 to 7 and 9 are required. -/
def readColumnMetadata : CursorM ColumnMetaData := do
  let a ← readFields readColumnMetadataStep {}
  let columnType ← required a.columnType "ColumnMetaData" 1
  let encodings ← required a.encodings "ColumnMetaData" 2
  let pathInSchema ← required a.path "ColumnMetaData" 3
  let codec ← required a.codec "ColumnMetaData" 4
  let numValues ← required a.numValues "ColumnMetaData" 5
  let totalUncompressedSize ← required a.totalUncompressed "ColumnMetaData" 6
  let totalCompressedSize ← required a.totalCompressed "ColumnMetaData" 7
  let dataPageOffset ← required a.dataPageOffset "ColumnMetaData" 9
  pure { columnType, encodings, pathInSchema, codec, numValues, totalUncompressedSize,
         totalCompressedSize, keyValueMetadata := a.kv, dataPageOffset,
         indexPageOffset := a.indexPageOffset, dictionaryPageOffset := a.dictPageOffset,
         statistics := a.statistics, encodingStats := a.encodingStats,
         bloomFilterOffset := a.bloomOffset, bloomFilterLength := a.bloomLength,
         sizeStatistics := a.sizeStatistics }

/-- The fields of a `ColumnChunk` read so far. -/
structure ColumnChunkAcc where
  filePath : Option Bytes := none
  fileOffset : Option Int64 := none
  metaData : Option ColumnMetaData := none
  offsetIndexOffset : Option Int64 := none
  offsetIndexLength : Option Int32 := none
  columnIndexOffset : Option Int64 := none
  columnIndexLength : Option Int32 := none
  cryptoMetadata : Option ColumnCryptoMetaData := none
  encryptedColumnMetadata : Option Bytes := none

/-- One field of `ColumnChunk`. -/
def readColumnChunkStep (a : ColumnChunkAcc) (h : FieldHeader) : CursorM ColumnChunkAcc :=
  match h.id.toInt, h.fieldType with
  | 1, .binary => (fun v => { a with filePath := some v }) <$> readBinary
  | 2, .i64 => (fun v => { a with fileOffset := some v }) <$> readZigzagI64
  | 3, .struct => (fun v => { a with metaData := some v }) <$> readColumnMetadata
  | 4, .i64 => (fun v => { a with offsetIndexOffset := some v }) <$> readZigzagI64
  | 5, .i32 => (fun v => { a with offsetIndexLength := some v }) <$> readZigzagI32
  | 6, .i64 => (fun v => { a with columnIndexOffset := some v }) <$> readZigzagI64
  | 7, .i32 => (fun v => { a with columnIndexLength := some v }) <$> readZigzagI32
  | 8, .struct => (fun v => { a with cryptoMetadata := some v }) <$> readColumnCryptoMetadata
  | 9, .binary => (fun v => { a with encryptedColumnMetadata := some v }) <$> readBinary
  | _, _ => throwFormat (unknown "ColumnChunk" h.id)

/-- `read_column_chunk`: only the file offset is required. -/
def readColumnChunk : CursorM ColumnChunk := do
  let a ← readFields readColumnChunkStep {}
  let fileOffset ← required a.fileOffset "ColumnChunk" 2
  pure { filePath := a.filePath, fileOffset, metaData := a.metaData,
         offsetIndexOffset := a.offsetIndexOffset, offsetIndexLength := a.offsetIndexLength,
         columnIndexOffset := a.columnIndexOffset, columnIndexLength := a.columnIndexLength,
         cryptoMetadata := a.cryptoMetadata,
         encryptedColumnMetadata := a.encryptedColumnMetadata }

/-! ## Row groups -/

/-- A column that a row group is sorted by. -/
structure SortingColumn where
  columnIdx : Int32
  descending : Bool
  nullsFirst : Bool
  deriving DecidableEq, Repr

/-- The chunks of some rows, one for each column. -/
structure RowGroup where
  columns : List ColumnChunk := []
  totalByteSize : Int64 := 0
  numRows : Int64 := 0
  sortingColumns : Option (List SortingColumn) := none
  fileOffset : Option Int64 := none
  totalCompressedSize : Option Int64 := none
  ordinal : Option Int16 := none
  deriving DecidableEq, Repr

/-- The fields of a `SortingColumn` read so far. -/
structure SortingColumnAcc where
  columnIdx : Option Int32 := none
  descending : Option Bool := none
  nullsFirst : Option Bool := none

/-- One field of `SortingColumn`. -/
def readSortingColumnStep (a : SortingColumnAcc) (h : FieldHeader) : CursorM SortingColumnAcc :=
  match h.id.toInt, h.fieldType with
  | 1, .i32 => (fun v => { a with columnIdx := some v }) <$> readZigzagI32
  | 2, .boolTrue => pure { a with descending := some true }
  | 2, .boolFalse => pure { a with descending := some false }
  | 3, .boolTrue => pure { a with nullsFirst := some true }
  | 3, .boolFalse => pure { a with nullsFirst := some false }
  | _, _ => throwFormat (unknown "SortingColumn" h.id)

/-- `read_sorting_column`. -/
def readSortingColumn : CursorM SortingColumn := do
  let a ← readFields readSortingColumnStep {}
  let columnIdx ← required a.columnIdx "SortingColumn" 1
  let descending ← required a.descending "SortingColumn" 2
  let nullsFirst ← required a.nullsFirst "SortingColumn" 3
  pure { columnIdx, descending, nullsFirst }

/-- The fields of a `RowGroup` read so far. -/
structure RowGroupAcc where
  columns : Option (List ColumnChunk) := none
  totalByteSize : Option Int64 := none
  numRows : Option Int64 := none
  sortingColumns : Option (List SortingColumn) := none
  fileOffset : Option Int64 := none
  totalCompressedSize : Option Int64 := none
  ordinal : Option Int16 := none

/-- One field of `RowGroup`. -/
def readRowGroupStep (a : RowGroupAcc) (h : FieldHeader) : CursorM RowGroupAcc :=
  match h.id.toInt, h.fieldType with
  | 1, .list => (fun v => { a with columns := some v }) <$> readListStruct readColumnChunk
  | 2, .i64 => (fun v => { a with totalByteSize := some v }) <$> readZigzagI64
  | 3, .i64 => (fun v => { a with numRows := some v }) <$> readZigzagI64
  | 4, .list =>
    (fun v => { a with sortingColumns := some v }) <$> readListStruct readSortingColumn
  | 5, .i64 => (fun v => { a with fileOffset := some v }) <$> readZigzagI64
  | 6, .i64 => (fun v => { a with totalCompressedSize := some v }) <$> readZigzagI64
  | 7, .i16 => (fun v => { a with ordinal := some v }) <$> readZigzagI16
  | _, _ => throwFormat (unknown "RowGroup" h.id)

/-- `read_row_group`: the first three fields are required. -/
def readRowGroup : CursorM RowGroup := do
  let a ← readFields readRowGroupStep {}
  let columns ← required a.columns "RowGroup" 1
  let totalByteSize ← required a.totalByteSize "RowGroup" 2
  let numRows ← required a.numRows "RowGroup" 3
  pure { columns, totalByteSize, numRows, sortingColumns := a.sortingColumns,
         fileOffset := a.fileOffset, totalCompressedSize := a.totalCompressedSize,
         ordinal := a.ordinal }

/-! ## The footer -/

/-- The order that the bounds of a column are in. -/
inductive ColumnOrder where
  | typeDefinedOrder
  deriving DecidableEq, Repr

/-- One variant of the union `ColumnOrder`. -/
def readColumnOrderStep (_ : Option ColumnOrder) (h : FieldHeader) :
    CursorM (Option ColumnOrder) :=
  match h.id.toInt, h.fieldType with
  | 1, .struct => (fun _ => some .typeDefinedOrder) <$> readEmptyStruct "TypeDefinedOrder"
  | _, _ => throwFormat (unknown "ColumnOrder" h.id)

/-- `read_column_order`. -/
def readColumnOrder : CursorM ColumnOrder := do
  let chosen ← readFields readColumnOrderStep none
  requiredUnion chosen "ColumnOrder"

/-- The footer of a file. -/
structure FileMetaData where
  version : Int32 := 0
  schema : List SchemaElement := []
  numRows : Int64 := 0
  rowGroups : List RowGroup := []
  keyValueMetadata : Option (List KeyValue) := none
  createdBy : Option Bytes := none
  columnOrders : Option (List ColumnOrder) := none
  encryptionAlgorithm : Option EncryptionAlgorithm := none
  footerSigningKeyMetadata : Option Bytes := none
  deriving DecidableEq, Repr

/-- The fields of a `FileMetaData` read so far. -/
structure FileMetaDataAcc where
  version : Option Int32 := none
  schema : Option (List SchemaElement) := none
  numRows : Option Int64 := none
  rowGroups : Option (List RowGroup) := none
  keyValueMetadata : Option (List KeyValue) := none
  createdBy : Option Bytes := none
  columnOrders : Option (List ColumnOrder) := none
  encryptionAlgorithm : Option EncryptionAlgorithm := none
  footerSigningKeyMetadata : Option Bytes := none

/-- One field of `FileMetaData`. -/
def readFileMetadataStep (a : FileMetaDataAcc) (h : FieldHeader) : CursorM FileMetaDataAcc :=
  match h.id.toInt, h.fieldType with
  | 1, .i32 => (fun v => { a with version := some v }) <$> readZigzagI32
  | 2, .list => (fun v => { a with schema := some v }) <$> readListStruct readSchemaElement
  | 3, .i64 => (fun v => { a with numRows := some v }) <$> readZigzagI64
  | 4, .list => (fun v => { a with rowGroups := some v }) <$> readListStruct readRowGroup
  | 5, .list =>
    (fun v => { a with keyValueMetadata := some v }) <$> readListStruct readKeyValue
  | 6, .binary => (fun v => { a with createdBy := some v }) <$> readBinary
  | 7, .list => (fun v => { a with columnOrders := some v }) <$> readListStruct readColumnOrder
  | 8, .struct =>
    (fun v => { a with encryptionAlgorithm := some v }) <$> readEncryptionAlgorithm
  | 9, .binary => (fun v => { a with footerSigningKeyMetadata := some v }) <$> readBinary
  | _, _ => throwFormat (unknown "FileMetaData" h.id)

/-- `read_file_metadata`: the first four fields are required. -/
def readFileMetadata : CursorM FileMetaData := do
  let a ← readFields readFileMetadataStep {}
  let version ← required a.version "FileMetaData" 1
  let schema ← required a.schema "FileMetaData" 2
  let numRows ← required a.numRows "FileMetaData" 3
  let rowGroups ← required a.rowGroups "FileMetaData" 4
  pure { version, schema, numRows, rowGroups, keyValueMetadata := a.keyValueMetadata,
         createdBy := a.createdBy, columnOrders := a.columnOrders,
         encryptionAlgorithm := a.encryptionAlgorithm,
         footerSigningKeyMetadata := a.footerSigningKeyMetadata }

/-! ## The page index of a chunk -/

/-- Where a page is, and its first row. -/
structure PageLocation where
  offset : Int64
  compressedPageSize : Int32
  firstRowIndex : Int64
  deriving DecidableEq, Repr

/-- Where the pages of a chunk are. -/
structure OffsetIndex where
  pageLocations : List PageLocation
  unencodedByteArrayDataBytes : Option (List Int64)
  deriving DecidableEq, Repr

/-- The fields of a `PageLocation` read so far. -/
structure PageLocationAcc where
  offset : Option Int64 := none
  compressed : Option Int32 := none
  firstRow : Option Int64 := none

/-- One field of `PageLocation`. -/
def readPageLocationStep (a : PageLocationAcc) (h : FieldHeader) : CursorM PageLocationAcc :=
  match h.id.toInt, h.fieldType with
  | 1, .i64 => (fun v => { a with offset := some v }) <$> readZigzagI64
  | 2, .i32 => (fun v => { a with compressed := some v }) <$> readZigzagI32
  | 3, .i64 => (fun v => { a with firstRow := some v }) <$> readZigzagI64
  | _, _ => throwFormat (unknown "PageLocation" h.id)

/-- `read_page_location`. -/
def readPageLocation : CursorM PageLocation := do
  let a ← readFields readPageLocationStep {}
  let offset ← required a.offset "PageLocation" 1
  let compressedPageSize ← required a.compressed "PageLocation" 2
  let firstRowIndex ← required a.firstRow "PageLocation" 3
  pure { offset, compressedPageSize, firstRowIndex }

/-- The fields of an `OffsetIndex` read so far. -/
structure OffsetIndexAcc where
  pageLocations : Option (List PageLocation) := none
  unencoded : Option (List Int64) := none

/-- One field of `OffsetIndex`. -/
def readOffsetIndexStep (a : OffsetIndexAcc) (h : FieldHeader) : CursorM OffsetIndexAcc :=
  match h.id.toInt, h.fieldType with
  | 1, .list => (fun v => { a with pageLocations := some v }) <$> readListStruct readPageLocation
  | 2, .list => (fun v => { a with unencoded := some v }) <$> readListI64
  | _, _ => throwFormat (unknown "OffsetIndex" h.id)

/-- `read_offset_index`. -/
def readOffsetIndex : CursorM OffsetIndex := do
  let a ← readFields readOffsetIndexStep {}
  let pageLocations ← required a.pageLocations "OffsetIndex" 1
  pure { pageLocations, unencodedByteArrayDataBytes := a.unencoded }

/-- Where a page is null its bounds say nothing. -/
structure ColumnIndex where
  nullPages : List Bool
  minValues : List Bytes
  maxValues : List Bytes
  boundaryOrder : BoundaryOrder
  nullCounts : Option (List Int64)
  deriving DecidableEq, Repr

/-- The fields of a `ColumnIndex` read so far. -/
structure ColumnIndexAcc where
  nullPages : Option (List Bool) := none
  minValues : Option (List Bytes) := none
  maxValues : Option (List Bytes) := none
  boundaryOrder : Option BoundaryOrder := none
  nullCounts : Option (List Int64) := none

/-- One field of `ColumnIndex`. -/
def readColumnIndexStep (a : ColumnIndexAcc) (h : FieldHeader) : CursorM ColumnIndexAcc :=
  match h.id.toInt, h.fieldType with
  | 1, .list => (fun v => { a with nullPages := some v }) <$> readListBool
  | 2, .list => (fun v => { a with minValues := some v }) <$> readListBinary
  | 3, .list => (fun v => { a with maxValues := some v }) <$> readListBinary
  | 4, .i32 => (fun v => { a with boundaryOrder := some v }) <$> ThriftEnum.read
  | 5, .list => (fun v => { a with nullCounts := some v }) <$> readListI64
  | _, _ => throwFormat (unknown "ColumnIndex" h.id)

/-- `read_column_index`: only the null counts may be missing. -/
def readColumnIndex : CursorM ColumnIndex := do
  let a ← readFields readColumnIndexStep {}
  let nullPages ← required a.nullPages "ColumnIndex" 1
  let minValues ← required a.minValues "ColumnIndex" 2
  let maxValues ← required a.maxValues "ColumnIndex" 3
  let boundaryOrder ← required a.boundaryOrder "ColumnIndex" 4
  pure { nullPages, minValues, maxValues, boundaryOrder, nullCounts := a.nullCounts }

/-! ## The header of a bloom filter -/

/-- How a filter is laid out: in split blocks. -/
inductive BloomFilterAlgorithm where
  | splitBlock
  deriving DecidableEq, Repr

/-- The hash of a filter: XXHash64. -/
inductive BloomFilterHash where
  | xxHash
  deriving DecidableEq, Repr

/-- Bitsets are stored as they are. -/
inductive BloomFilterCompression where
  | uncompressed
  deriving DecidableEq, Repr

/-- What stands in front of a bitset. -/
structure BloomFilterHeader where
  numBytes : Int32
  algorithm : BloomFilterAlgorithm
  hash : BloomFilterHash
  compression : BloomFilterCompression
  deriving DecidableEq, Repr

/-- `while let Some(_inner) = read_field_header(cur, 0)? {}`. -/
def skipFieldHeaders : Loop (Fault FormatError) Unit Unit where
  step _ := do
    match ← readFieldHeader 0 with
    | none => pure (.inr ())
    | some _ => pure (.inl ())
  consumes {s bs s' rest} h := by
    obtain ⟨o, mid, ho, hrest⟩ := Reader.run_bind_eq_ok h
    exact lt_of_le_of_lt (Reader.run_length_le _ hrest) (readFieldHeader_consumes ho)

/-- `read_bloom_algorithm`, `read_bloom_hash` and `read_bloom_compression`: a
    union with one variant, an empty struct. -/
def readBloomUnion {α : Type} (name : String) (variant : α) : CursorM α := do
  let o ← readFields (fun (_ : Option α) h =>
    if h.id = 1 then (fun _ => some variant) <$> skipFieldHeaders.run ()
    else throwFormat (unknown name h.id)) none
  required o name 1

/-- The fields of a `BloomFilterHeader` read so far. -/
structure BloomFilterHeaderAcc where
  numBytes : Option Int32 := none
  algorithm : Option BloomFilterAlgorithm := none
  hash : Option BloomFilterHash := none
  compression : Option BloomFilterCompression := none

/-- One field of `BloomFilterHeader`. -/
def readBloomFilterHeaderStep (a : BloomFilterHeaderAcc) (h : FieldHeader) :
    CursorM BloomFilterHeaderAcc :=
  match h.id.toInt, h.fieldType with
  | 1, .i32 => (fun v => { a with numBytes := some v }) <$> readZigzagI32
  | 2, .struct => (fun v => { a with algorithm := some v }) <$>
      readBloomUnion "BloomFilterAlgorithm" .splitBlock
  | 3, .struct => (fun v => { a with hash := some v }) <$>
      readBloomUnion "BloomFilterHash" .xxHash
  | 4, .struct => (fun v => { a with compression := some v }) <$>
      readBloomUnion "BloomFilterCompression" .uncompressed
  | _, _ => throwFormat (unknown "BloomFilterHeader" h.id)

/-- `read_bloom_filter_header`. -/
def readBloomFilterHeader : CursorM BloomFilterHeader := do
  let a ← readFields readBloomFilterHeaderStep {}
  let numBytes ← required a.numBytes "BloomFilterHeader" 1
  let algorithm ← required a.algorithm "BloomFilterHeader" 2
  let hash ← required a.hash "BloomFilterHeader" 3
  let compression ← required a.compression "BloomFilterHeader" 4
  pure { numBytes, algorithm, hash, compression }

end EmatixParquet
