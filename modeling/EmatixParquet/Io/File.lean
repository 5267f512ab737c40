/-
  `ParquetFile` (`file.rs`) — a file of bytes, its footer, and reads of byte
  ranges.

  * `ParquetFile.open_recorded`: a body and a footer between the magics open to
    the part of the footer that a 32-bit length names;
  * `ParquetFile.recordedFooter_eq_iff`: that is all of it for footers shorter
    than `2 ^ 32` bytes;
  * `ParquetFile.readRange_eq`: a range inside the file is read whole.
-/
import EmatixParquet.Format.FileMetadata
import EmatixParquet.Codec.Plain

namespace EmatixParquet

open Wire

/-! ## Errors -/

/-- `{b:#x}`. -/
def hexByte (b : UInt8) : String := "0x" ++ String.ofList (Nat.toDigits 16 b.toNat)

/-- `{t:?}`. -/
def FieldType.debug : FieldType → String
  | boolTrue => "BoolTrue" | boolFalse => "BoolFalse" | byte => "Byte" | i16 => "I16"
  | i32 => "I32" | i64 => "I64" | double => "Double" | binary => "Binary" | list => "List"
  | set => "Set" | map => "Map" | struct => "Struct"

/-- `{e}`. -/
def FormatError.display : FormatError → String
  | unexpectedEof needed remaining =>
    s!"unexpected EOF: needed {needed} bytes, {remaining} remaining"
  | varintOverflow => "varint exceeded 10 continuation bytes"
  | invalidEnumValue typeName value => s!"invalid {typeName} discriminant: {value.toInt}"
  | invalidFieldType b => s!"invalid compact field type nibble: {hexByte b}"
  | unknownStructField structName fieldId => s!"{structName}: unknown field id {fieldId.toInt}"
  | missingRequiredField structName fieldId =>
    s!"{structName}: required field id {fieldId.toInt} missing"
  | unexpectedFieldType structName fieldId =>
    s!"{structName}: unexpected wire type for field id {fieldId.toInt}"
  | unexpectedListElementType expected actual =>
    s!"list element type: expected {expected.debug}, got {actual.debug}"
  | emptyUnion unionName => s!"union {unionName} had no variant set"
  | invalidBoolByte b => s!"invalid list<bool> element byte {hexByte b}"

/-- `format_to_codec`. -/
def formatToCodec (e : FormatError) : CodecError := .invalidInput s!"format: {e.display}"

/-- The failures of opening and reading a file. -/
inductive IoError where
  | io (msg : String)
  | format (e : FormatError)
  | notAParquetFile (expected found : Bytes) (position : String)
  | truncatedFooter (fileSize declaredFooterLength : ℕ)
  | outOfRangeRead (offset length fileSize : ℕ)
  deriving DecidableEq, Repr

/-- `{bytes:?}` of an array. -/
def debugBytes (bytes : Bytes) : String :=
  "[" ++ String.intercalate ", " (bytes.map fun b => toString b.toNat) ++ "]"

/-- Their messages. -/
def IoError.display : IoError → String
  | io msg => s!"I/O error: {msg}"
  | format e => s!"format decode error: {e.display}"
  | notAParquetFile expected found position =>
    s!"missing parquet magic at {position}: expected {debugBytes expected}, found {debugBytes found}"
  | truncatedFooter fileSize declared =>
    s!"footer length {declared} exceeds file size {fileSize}"
  | outOfRangeRead offset length fileSize =>
    s!"read of {length} bytes at offset {offset} extends past file size {fileSize}"

/-- A failure, as a result. -/
def ioErr {α : Type} (e : IoError) : Res IoError α := .error (.err e)

/-! ## Files -/

/-- `PAR1`. -/
def parquetMagic : Bytes := [0x50, 0x41, 0x52, 0x31]

/-- An open file: its content and the bytes of its footer. -/
structure ParquetFile where
  bytes : Bytes
  footerBytes : Bytes
  footerOffset : ℕ
  deriving DecidableEq, Repr

namespace ParquetFile

/-- `file_size`. -/
def fileSize (file : ParquetFile) : ℕ := file.bytes.length

/-- `ParquetFile::open` on a file with the given content. -/
def «open» (bytes : Bytes) : Res IoError ParquetFile :=
  let fileSize := bytes.length
  if fileSize < 4 + 8 then ioErr (.truncatedFooter fileSize 0)
  else
    let head := bytes.take 4
    if head ≠ parquetMagic then ioErr (.notAParquetFile parquetMagic head "file head")
    else
      let tail := bytes.drop (fileSize - 8)
      let tailMagic := tail.drop 4
      if tailMagic ≠ parquetMagic then
        ioErr (.notAParquetFile parquetMagic tailMagic "file tail")
      else
        let footerLen := leNat (tail.take 4)
        if fileSize - 8 - 4 < footerLen then ioErr (.truncatedFooter fileSize footerLen)
        else
          let footerOffset := fileSize - 8 - footerLen
          .ok { bytes, footerBytes := (bytes.drop footerOffset).take footerLen, footerOffset }

/-- `metadata` and `cached_metadata`, which memoizes it. -/
def metadata (file : ParquetFile) : Res IoError FileMetaData :=
  match readFileMetadata.run file.footerBytes with
  | .ok (md, _) => .ok md
  | .error e => .error (e.map .format)

/-- A written footer is read back. -/
theorem metadata_of_written {file : ParquetFile} {md : FileMetaData}
    (hw : writeFileMetadata md = .ok file.footerBytes) (hlen : file.footerBytes.length < 2 ^ 64) :
    file.metadata = .ok md := by
  have hread := parses_fileMetadata hw hlen []
  rw [List.append_nil] at hread
  rw [metadata, hread]

/-- `read_range`. -/
def readRange (file : ParquetFile) (offset length : ℕ) : Res IoError Bytes :=
  if file.fileSize < min (offset + length) (usizeBound - 1) then
    ioErr (.outOfRangeRead offset length file.fileSize)
  else if file.fileSize < offset + length then ioErr (.io "failed to fill whole buffer")
  else .ok ((file.bytes.drop offset).take length)

theorem readRange_eq {file : ParquetFile} {offset length : ℕ}
    (h : offset + length ≤ file.bytes.length) :
    file.readRange offset length = .ok ((file.bytes.drop offset).take length) := by
  rw [readRange, fileSize, if_neg (by omega), if_neg (by omega)]

/-- The part of a footer that is read: its length is stored in 32 bits. -/
def recordedFooter (footer : Bytes) : Bytes :=
  footer.drop (footer.length - footer.length % 2 ^ 32)

/-- The whole footer is read if and only if its length fits. -/
theorem recordedFooter_eq_iff {footer : Bytes} :
    recordedFooter footer = footer ↔ footer.length < 2 ^ 32 := by
  have hmod := Nat.mod_le footer.length (2 ^ 32)
  constructor
  · intro h
    have hlen := congrArg List.length h
    rw [recordedFooter, List.length_drop] at hlen
    exact (Nat.mod_lt footer.length (by decide)).trans_eq' (by omega)
  · intro h
    rw [recordedFooter, Nat.mod_eq_of_lt h, Nat.sub_self, List.drop_zero]

theorem recordedFooter_append {a b : Bytes} (h : (a ++ b).length % 2 ^ 32 = b.length) :
    recordedFooter (a ++ b) = b := by
  rw [recordedFooter, h]
  exact List.drop_left' (by simp)

/-- **A framed file opens** to what it records of its footer. -/
theorem open_recorded {body footer : Bytes} :
    «open» (parquetMagic ++ body ++ footer ++ leBytes 4 footer.length ++ parquetMagic)
      = .ok { bytes := parquetMagic ++ body ++ footer ++ leBytes 4 footer.length ++ parquetMagic
              footerBytes := recordedFooter footer
              footerOffset := 4 + body.length + (footer.length - footer.length % 2 ^ 32) } := by
  have hmagic : parquetMagic.length = 4 := rfl
  have hmod := Nat.mod_le footer.length (2 ^ 32)
  set bytes := parquetMagic ++ body ++ footer ++ leBytes 4 footer.length ++ parquetMagic
    with hbytes
  have hsize : bytes.length = 4 + body.length + footer.length + 8 := by
    simp [hbytes, hmagic]
    omega
  have hhead : bytes.take 4 = parquetMagic := by
    simp only [hbytes, List.append_assoc]
    exact List.take_left' hmagic
  have htail : bytes.drop (bytes.length - 8) = leBytes 4 footer.length ++ parquetMagic := by
    have hpre : (parquetMagic ++ body ++ footer).length = bytes.length - 8 := by
      simp [hsize, hmagic]
      omega
    generalize bytes.length - 8 = n at hpre
    rw [hbytes, List.append_assoc _ (leBytes _ _)]
    exact List.drop_left' hpre
  have hfooterLen : leNat (leBytes 4 footer.length) = footer.length % 2 ^ 32 := leNat_leBytes 4 _
  have hfooter : (bytes.drop (4 + body.length + (footer.length - footer.length % 2 ^ 32))).take
      (footer.length % 2 ^ 32) = recordedFooter footer := by
    have hpre : (parquetMagic ++ body).length = 4 + body.length := by simp [hmagic]
    rw [hbytes, List.append_assoc _ (leBytes _ _), List.append_assoc _ footer, ← List.drop_drop,
      List.drop_left' hpre, List.drop_append_of_le_length (Nat.sub_le _ _)]
    exact List.take_left' (by rw [List.length_drop]; omega)
  rw [«open»]
  dsimp only
  rw [if_neg (by omega), hhead, if_neg (by simp), htail, List.drop_left' (length_leBytes 4 _),
    if_neg (by simp), List.take_left' (length_leBytes 4 _), hfooterLen, if_neg (by omega),
    show bytes.length - 8 - footer.length % 2 ^ 32
      = 4 + body.length + (footer.length - footer.length % 2 ^ 32) by omega, hfooter]

/-- To its footer, when the length fits. -/
theorem open_frame {body footer : Bytes} (hlen : footer.length < 2 ^ 32) :
    «open» (parquetMagic ++ body ++ footer ++ leBytes 4 footer.length ++ parquetMagic)
      = .ok { bytes := parquetMagic ++ body ++ footer ++ leBytes 4 footer.length ++ parquetMagic
              footerBytes := footer
              footerOffset := 4 + body.length } := by
  rw [open_recorded, recordedFooter_eq_iff.mpr hlen, Nat.mod_eq_of_lt hlen, Nat.sub_self,
    Nat.add_zero]

end ParquetFile

end EmatixParquet
