/-
  The i32-valued enums of Parquet (`types.rs`), read as zigzag varints.

  `ThriftEnum` carries the laws that the discriminant determines the variant,
  and that an error names the value; every enum read back from its written
  discriminant is itself (`parses_thriftEnum`).
-/
import EmatixParquet.Format.Compact

namespace EmatixParquet

open Wire

/-- `trait ThriftEnum`: the wire value of a variant, and its inverse. -/
class ThriftEnum (α : Type) where
  toI32 : α → Int32
  fromI32 : Int32 → Except (Fault FormatError) α
  fromI32_toI32 : ∀ a, fromI32 (toI32 a) = .ok a
  fromI32_error : ∀ {v f}, fromI32 v = .error f → ∃ name, f = .err (.invalidEnumValue name v)

section
variable {α : Type} [ThriftEnum α]

/-- `ThriftEnum::read`. -/
def ThriftEnum.read : CursorM α := do
  let v ← readZigzagI32
  Reader.lift (ThriftEnum.fromI32 v)

/-- `w.write_zigzag_i32(e as i32)`. -/
def writeThriftEnum (a : α) : Bytes := writeZigzagI32 (ThriftEnum.toI32 a)

theorem parses_thriftEnum (a : α) : ReadsBack ThriftEnum.read (writeThriftEnum a) a := by
  have h := parses_bind (parses_zigzagI32 (ThriftEnum.toI32 a))
    (f := fun v => Reader.lift (ThriftEnum.fromI32 v)) (b := a)
    (by rw [ThriftEnum.fromI32_toI32]; exact parses_pure a)
  rwa [List.append_nil] at h

end

/-! ## The enums -/

/-- The physical types. -/
inductive ParquetType where
  | boolean | int32 | int64 | int96 | float | double | byteArray | fixedLenByteArray
  deriving DecidableEq, Repr

instance : ThriftEnum ParquetType where
  toI32
    | .boolean => 0 | .int32 => 1 | .int64 => 2 | .int96 => 3 | .float => 4 | .double => 5
    | .byteArray => 6 | .fixedLenByteArray => 7
  fromI32 value := match value.toInt with
    | 0 => .ok .boolean
    | 1 => .ok .int32
    | 2 => .ok .int64
    | 3 => .ok .int96
    | 4 => .ok .float
    | 5 => .ok .double
    | 6 => .ok .byteArray
    | 7 => .ok .fixedLenByteArray
    | _ => .error (.err (.invalidEnumValue "ParquetType" value))
  fromI32_toI32 a := by cases a <;> rfl
  fromI32_error h := by
    split at h <;> cases h
    exact ⟨_, rfl⟩

/-- Value 1 is unassigned. -/
inductive Encoding where
  | plain | plainDictionary | rle | bitPacked | deltaBinaryPacked | deltaLengthByteArray
  | deltaByteArray | rleDictionary | byteStreamSplit
  deriving DecidableEq, Repr

instance : ThriftEnum Encoding where
  toI32
    | .plain => 0 | .plainDictionary => 2 | .rle => 3 | .bitPacked => 4
    | .deltaBinaryPacked => 5 | .deltaLengthByteArray => 6 | .deltaByteArray => 7
    | .rleDictionary => 8 | .byteStreamSplit => 9
  fromI32 value := match value.toInt with
    | 0 => .ok .plain
    | 2 => .ok .plainDictionary
    | 3 => .ok .rle
    | 4 => .ok .bitPacked
    | 5 => .ok .deltaBinaryPacked
    | 6 => .ok .deltaLengthByteArray
    | 7 => .ok .deltaByteArray
    | 8 => .ok .rleDictionary
    | 9 => .ok .byteStreamSplit
    | _ => .error (.err (.invalidEnumValue "Encoding" value))
  fromI32_toI32 a := by cases a <;> rfl
  fromI32_error h := by
    split at h <;> cases h
    exact ⟨_, rfl⟩

/-- The codecs of a column's pages. -/
inductive CompressionCodec where
  | uncompressed | snappy | gzip | lzo | brotli | lz4 | zstd | lz4Raw
  deriving DecidableEq, Repr

instance : ThriftEnum CompressionCodec where
  toI32
    | .uncompressed => 0 | .snappy => 1 | .gzip => 2 | .lzo => 3 | .brotli => 4 | .lz4 => 5
    | .zstd => 6 | .lz4Raw => 7
  fromI32 value := match value.toInt with
    | 0 => .ok .uncompressed
    | 1 => .ok .snappy
    | 2 => .ok .gzip
    | 3 => .ok .lzo
    | 4 => .ok .brotli
    | 5 => .ok .lz4
    | 6 => .ok .zstd
    | 7 => .ok .lz4Raw
    | _ => .error (.err (.invalidEnumValue "CompressionCodec" value))
  fromI32_toI32 a := by cases a <;> rfl
  fromI32_error h := by
    split at h <;> cases h
    exact ⟨_, rfl⟩

/-- The kinds of pages. -/
inductive PageType where
  | dataPage | indexPage | dictionaryPage | dataPageV2
  deriving DecidableEq, Repr

instance : ThriftEnum PageType where
  toI32 | .dataPage => 0 | .indexPage => 1 | .dictionaryPage => 2 | .dataPageV2 => 3
  fromI32 value := match value.toInt with
    | 0 => .ok .dataPage
    | 1 => .ok .indexPage
    | 2 => .ok .dictionaryPage
    | 3 => .ok .dataPageV2
    | _ => .error (.err (.invalidEnumValue "PageType" value))
  fromI32_toI32 a := by cases a <;> rfl
  fromI32_error h := by
    split at h <;> cases h
    exact ⟨_, rfl⟩

/-- Whether a field may be absent or repeated. -/
inductive FieldRepetitionType where
  | required | optional | repeated
  deriving DecidableEq, Repr

instance : ThriftEnum FieldRepetitionType where
  toI32 | .required => 0 | .optional => 1 | .repeated => 2
  fromI32 value := match value.toInt with
    | 0 => .ok .required
    | 1 => .ok .optional
    | 2 => .ok .repeated
    | _ => .error (.err (.invalidEnumValue "FieldRepetitionType" value))
  fromI32_toI32 a := by cases a <;> rfl
  fromI32_error h := by
    split at h <;> cases h
    exact ⟨_, rfl⟩

/-- The order of the page bounds of a column index. -/
inductive BoundaryOrder where
  | unordered | ascending | descending
  deriving DecidableEq, Repr

instance : ThriftEnum BoundaryOrder where
  toI32 | .unordered => 0 | .ascending => 1 | .descending => 2
  fromI32 value := match value.toInt with
    | 0 => .ok .unordered
    | 1 => .ok .ascending
    | 2 => .ok .descending
    | _ => .error (.err (.invalidEnumValue "BoundaryOrder" value))
  fromI32_toI32 a := by cases a <;> rfl
  fromI32_error h := by
    split at h <;> cases h
    exact ⟨_, rfl⟩

/-- How a geography's edges are interpolated. -/
inductive EdgeInterpolationAlgorithm where
  | spherical | vincenty | thomas | andoyer | karney
  deriving DecidableEq, Repr

instance : ThriftEnum EdgeInterpolationAlgorithm where
  toI32 | .spherical => 0 | .vincenty => 1 | .thomas => 2 | .andoyer => 3 | .karney => 4
  fromI32 value := match value.toInt with
    | 0 => .ok .spherical
    | 1 => .ok .vincenty
    | 2 => .ok .thomas
    | 3 => .ok .andoyer
    | 4 => .ok .karney
    | _ => .error (.err (.invalidEnumValue "EdgeInterpolationAlgorithm" value))
  fromI32_toI32 a := by cases a <;> rfl
  fromI32_error h := by
    split at h <;> cases h
    exact ⟨_, rfl⟩

/-- The converted types, which the logical types replace. -/
inductive ConvertedType where
  | utf8 | map | mapKeyValue | list | enum | decimal | date | timeMillis | timeMicros
  | timestampMillis | timestampMicros | uint8 | uint16 | uint32 | uint64 | int8 | int16
  | int32 | int64 | json | bson | interval
  deriving DecidableEq, Repr

instance : ThriftEnum ConvertedType where
  toI32
    | .utf8 => 0 | .map => 1 | .mapKeyValue => 2 | .list => 3 | .enum => 4 | .decimal => 5
    | .date => 6 | .timeMillis => 7 | .timeMicros => 8 | .timestampMillis => 9
    | .timestampMicros => 10 | .uint8 => 11 | .uint16 => 12 | .uint32 => 13 | .uint64 => 14
    | .int8 => 15 | .int16 => 16 | .int32 => 17 | .int64 => 18 | .json => 19 | .bson => 20
    | .interval => 21
  fromI32 value := match value.toInt with
    | 0 => .ok .utf8
    | 1 => .ok .map
    | 2 => .ok .mapKeyValue
    | 3 => .ok .list
    | 4 => .ok .enum
    | 5 => .ok .decimal
    | 6 => .ok .date
    | 7 => .ok .timeMillis
    | 8 => .ok .timeMicros
    | 9 => .ok .timestampMillis
    | 10 => .ok .timestampMicros
    | 11 => .ok .uint8
    | 12 => .ok .uint16
    | 13 => .ok .uint32
    | 14 => .ok .uint64
    | 15 => .ok .int8
    | 16 => .ok .int16
    | 17 => .ok .int32
    | 18 => .ok .int64
    | 19 => .ok .json
    | 20 => .ok .bson
    | 21 => .ok .interval
    | _ => .error (.err (.invalidEnumValue "ConvertedType" value))
  fromI32_toI32 a := by cases a <;> rfl
  fromI32_error h := by
    split at h <;> cases h
    exact ⟨_, rfl⟩

end EmatixParquet
