/-
  The manifest of a sidecar (`index/manifest.rs`) — what it says, its JSON text
  and the parser of that text.

  `IndexManifest.toJson` writes it, `IndexManifest.fromJson` reads it.
-/
import EmatixParquet.Json.Parser

namespace EmatixParquet

open Wire

/-- Where the manifest is in the footer: its first version. -/
def manifestKey : String := "ematix_index_manifest_v1"

/-- Its second version. -/
def manifestKeyV2 : String := "ematix_index_manifest_v2"

/-- Its third version. -/
def manifestKeyV3 : String := "ematix_index_manifest_v3"

/-- The version that is written. -/
def manifestVersion : String := "v1"

/-- The state of a data file. -/
structure SourceFingerprint where
  footerLength : UInt32
  footerCrc32 : UInt32
  numRows : Int64
  numRowGroups : UInt32
  deriving DecidableEq, Repr

/-- The types of indexed columns. -/
inductive PhysicalType where
  | int32 | int64 | byteArray
  deriving DecidableEq, Repr

/-- How text is cut into tokens. -/
inductive Tokenizer where
  | whitespaceLowercaseV1
  deriving DecidableEq, Repr

/-- What an index is for. -/
inductive IndexKind where
  | sorted (sourceColumn : String) (physicalType : PhysicalType)
  | bloomPage (sourceColumn : String) (targetFpp : F64)
  | compositePrefix (sourceColumns : List String) (physicalTypes : List PhysicalType)
  | inverted (sourceColumn : String) (tokenizer : Tokenizer)
  deriving DecidableEq, Repr

/-- An index of the sidecar, over a column of the source. -/
structure IndexEntry where
  name : String
  kind : IndexKind
  sidecarRowGroup : UInt32
  sidecarRowGroupCount : UInt32
  deriving DecidableEq, Repr

/-- What a sidecar says of itself: its source, and its indexes. -/
structure IndexManifest where
  sourceFingerprint : SourceFingerprint
  indexes : List IndexEntry
  deriving DecidableEq, Repr

/-! ## Tokens -/

/-- `is_ascii_whitespace`: space, tab, line feed, form feed, carriage return. -/
def isAsciiWhitespace (b : UInt8) : Bool :=
  b = 0x20 || b = 0x09 || b = 0x0A || b = 0x0C || b = 0x0D

/-- `to_ascii_lowercase`. -/
def toAsciiLowercase (b : UInt8) : UInt8 := if 0x41 ≤ b ∧ b ≤ 0x5A then b + 32 else b

/-- The loop of `whitespace_lowercase_v1`, with the token that is being read. -/
def tokensFrom (buf : Bytes) : Bytes → List Bytes
  | [] => if buf = [] then [] else [buf]
  | b :: bs =>
    if isAsciiWhitespace b then
      if buf = [] then tokensFrom [] bs else buf :: tokensFrom [] bs
    else tokensFrom (buf ++ [toAsciiLowercase b]) bs

/-- The tokens of a text, normalised. -/
def Tokenizer.tokenize (value : Bytes) : Tokenizer → List Bytes
  | whitespaceLowercaseV1 => tokensFrom [] value

example : Tokenizer.whitespaceLowercaseV1.tokenize [0x20, 0x41, 0x62, 0x09, 0x20, 0xC3, 0x9C]
    = [[0x61, 0x62], [0xC3, 0x9C]] := by decide

/-! ## Errors -/

/-- What is wrong with a manifest. -/
inductive ManifestError where
  | missing
  | malformed (msg : String)
  | unsupportedVersion (v : String)
  | unsupportedTokenizer (t : String)
  | sourceFingerprintMismatch (expected actual : SourceFingerprint)
  deriving DecidableEq, Repr

/-- The four scalars, as the mismatch lists them. -/
def SourceFingerprint.display (fp : SourceFingerprint) : String :=
  let crc := "0x" ++ String.ofList (Nat.toDigits 16 fp.footerCrc32.toNat)
  s!"footer_len={fp.footerLength.toNat}, crc32={crc}, num_rows={fp.numRows.toInt}, n_rg={fp.numRowGroups.toNat}"

/-- `Display`. -/
def ManifestError.display : ManifestError → String
  | missing => s!"sidecar manifest key `{manifestKey}` missing"
  | malformed msg => s!"sidecar manifest malformed: {msg}"
  | unsupportedVersion v =>
    s!"sidecar manifest version `{v}` unsupported (expected `{manifestVersion}`)"
  | unsupportedTokenizer t => s!"sidecar manifest references unknown tokenizer `{t}`"
  | sourceFingerprintMismatch expected actual =>
    s!"sidecar fingerprint mismatch: source file changed (expected {expected.display}; got {actual.display})"

/-! ## Writing -/

instance : JsonError ManifestError := ⟨.malformed⟩

/-- `{x}` and `str::parse` of an `f64`. -/
class FloatText where
  display : F64 → String
  parse : String → Except String F64

/-- The characters of a number. -/
def isNumberByte (b : UInt8) : Bool :=
  (0x30 ≤ b && b ≤ 0x39) || b = 0x2E || b = 0x65 || b = 0x45 || b = 0x2B || b = 0x2D

/-- `x` is printed in the characters of numbers and read back. -/
def FloatText.Inverse [FloatText] (x : F64) : Prop :=
  display x ≠ "" ∧ (∀ b ∈ asBytes (display x), isNumberByte b = true) ∧ parse (display x) = .ok x

/-- `as_str`, the name in the manifest. -/
def PhysicalType.asStr : PhysicalType → String
  | int32 => "INT32"
  | int64 => "INT64"
  | byteArray => "BYTE_ARRAY"

/-- `as_str`, the name in the manifest. -/
def Tokenizer.asStr : Tokenizer → String
  | whitespaceLowercaseV1 => "whitespace_lowercase_v1"

/-- The fingerprint as an object. -/
def SourceFingerprint.writeJson (fp : SourceFingerprint) : String :=
  "\x7b\"footer_length\":" ++ toString fp.footerLength.toNat
    ++ (",\"footer_crc32\":" ++ toString fp.footerCrc32.toNat
    ++ (",\"num_rows\":" ++ toString fp.numRows.toInt
    ++ (",\"num_row_groups\":" ++ toString fp.numRowGroups.toNat ++ "\x7d")))

section
variable [FloatText]

/-- The members of an entry that depend on its kind. -/
def IndexKind.writeJson : IndexKind → String
  | sorted sourceColumn physicalType =>
    "\"type\":\"sorted\",\"source_column\":" ++ jsonString sourceColumn
      ++ (",\"physical_type\":\"" ++ physicalType.asStr ++ "\"")
  | bloomPage sourceColumn targetFpp =>
    "\"type\":\"bloom_page\",\"source_column\":" ++ jsonString sourceColumn
      ++ (",\"target_fpp\":" ++ FloatText.display targetFpp)
  | compositePrefix sourceColumns physicalTypes =>
    "\"type\":\"composite_prefix\",\"source_columns\":["
      ++ commaSeparated (sourceColumns.map jsonString)
      ++ ("],\"physical_types\":["
      ++ commaSeparated (physicalTypes.map fun t => "\"" ++ t.asStr ++ "\"") ++ "]")
  | inverted sourceColumn tokenizer =>
    "\"type\":\"inverted\",\"source_column\":" ++ jsonString sourceColumn
      ++ (",\"tokenizer\":\"" ++ tokenizer.asStr ++ "\"")

/-- An entry as an object; the members depend on its kind. -/
def IndexEntry.writeJson (e : IndexEntry) : String :=
  "\x7b\"name\":" ++ jsonString e.name
    ++ (",\"sidecar_row_group\":" ++ toString e.sidecarRowGroup.toNat
    ++ (",\"sidecar_row_group_count\":" ++ toString e.sidecarRowGroupCount.toNat
    ++ ("," ++ e.kind.writeJson ++ "\x7d")))

/-- `to_json`. -/
def IndexManifest.toJson (m : IndexManifest) : String :=
  "\x7b\"version\":\"" ++ manifestVersion
    ++ ("\",\"source_fingerprint\":" ++ m.sourceFingerprint.writeJson
    ++ (",\"indexes\":[" ++ commaSeparated (m.indexes.map IndexEntry.writeJson) ++ "]\x7d"))

end

/-! ## Parsing -/

/-- Parsers of the manifest. -/
abbrev JsonM (α : Type) := Reader ManifestError α

/-- After an escape, all bytes up to the next that ends or escapes. -/
def laterRun (c : UInt8) : JsonM String := do
  let more ← Reader.takeWhile isPlainByte
  utf8 "string" (c :: more)

/-- `number_str`; a sign in front is one of the characters of the loop. -/
def numberStr (len : ℕ) : JsonM String := do
  skipWs
  let start ← jsonPos len
  let digits ← Reader.takeWhile isNumberByte
  if digits = [] then malformed s!"expected number at pos {start}" else utf8 "number" digits

/-- `is_ascii_alphabetic`. -/
def isAsciiAlphabetic (b : UInt8) : Bool := (0x41 ≤ b && b ≤ 0x5A) || (0x61 ≤ b && b ≤ 0x7A)

/-- `is_ascii_digit`. -/
def isAsciiDigit (b : UInt8) : Bool := 0x30 ≤ b && b ≤ 0x39

/-- A name, or a number. -/
def manifestScalar (len : ℕ) (c : UInt8) : JsonM Unit :=
  if c = 0x74 ∨ c = 0x66 ∨ c = 0x6E then (fun _ => ()) <$> Reader.takeWhile isAsciiAlphabetic
  else if c = 0x2D ∨ c = 0x2B ∨ isAsciiDigit c then (fun _ => ()) <$> numberStr len
  else do
    let pos ← jsonPos len
    malformed s!"unexpected byte `{String.singleton (asChar c)}` at pos {pos}"

theorem numberStr_consumes (len : ℕ) : Consumes (numberStr len) := by
  refine .bind_right fun _ => .bind_right fun start bs a rest h => ?_
  obtain ⟨digits, mid, hdigits, h⟩ := Reader.run_bind_eq_ok h
  rw [Reader.run_takeWhile] at hdigits
  cases hdigits
  split at h
  · cases h
  · next hne =>
    have hsplit := congrArg List.length (List.takeWhile_append_dropWhile (p := isNumberByte) (l := bs))
    have hpos := List.length_pos_of_ne_nil hne
    have hle := Reader.run_length_le _ h
    rw [List.length_append] at hsplit
    omega

theorem manifestScalar_consumes {len : ℕ} {c : UInt8} {bs rest : Bytes}
    (h : (manifestScalar len c).run (c :: bs) = .ok ((), rest)) : rest.length < (c :: bs).length := by
  unfold manifestScalar at h
  split at h
  · next hc =>
    refine consumes_takeWhile (p := isAsciiAlphabetic) ?_ h
    rcases hc with rfl | rfl | rfl <;> decide
  · split at h
    · exact (numberStr_consumes len).map _ _ _ _ h
    · obtain ⟨pos, mid, -, h⟩ := Reader.run_bind_eq_ok h
      cases h

/-- The strings, the scalars and the errors of the manifest's JSON. -/
def manifestJson : Dialect ManifestError where
  later := laterRun
  eof := "unexpected EOF"
  scalar := manifestScalar
  scalar_consumes := manifestScalar_consumes

section
variable (len : ℕ)

/-- `n.parse().map_err(..)`. -/
def jsonNumber {ε α : Type} (what : String) (parse : String → Except ε α) : JsonM α := do
  let n ← numberStr len
  match parse n with
  | .ok v => pure v
  | .error _ => malformed s!"bad {what} `{n}`"

/-- `u32()`. -/
def jsonU32 : JsonM UInt32 := jsonNumber len "u32" parseU32

/-- `i64()`. -/
def jsonI64 : JsonM Int64 := jsonNumber len "i64" parseI64

/-- `f64()`. -/
def jsonF64 [FloatText] : JsonM F64 := jsonNumber len "f64" FloatText.parse

/-- The members of a fingerprint read so far. -/
structure FingerprintFields where
  footerLength : Option UInt32 := none
  footerCrc32 : Option UInt32 := none
  numRows : Option Int64 := none
  numRowGroups : Option UInt32 := none

/-- One member of a fingerprint; others are skipped. -/
def FingerprintFields.read (key : String) (s : FingerprintFields) : JsonM FingerprintFields :=
  match key with
  | "footer_length" => (fun v => { s with footerLength := some v }) <$> jsonU32 len
  | "footer_crc32" => (fun v => { s with footerCrc32 := some v }) <$> jsonU32 len
  | "num_rows" => (fun v => { s with numRows := some v }) <$> jsonI64 len
  | "num_row_groups" => (fun v => { s with numRowGroups := some v }) <$> jsonU32 len
  | _ => (fun _ => s) <$> skipValue manifestJson len

/-- `SourceFingerprint::parse_json`. -/
def SourceFingerprint.parseJson : JsonM SourceFingerprint := do
  let s ← jsonObject manifestJson len (FingerprintFields.read len) {}
  let footerLength ← member "source_fingerprint.footer_length" s.footerLength
  let footerCrc32 ← member "source_fingerprint.footer_crc32" s.footerCrc32
  let numRows ← member "source_fingerprint.num_rows" s.numRows
  let numRowGroups ← member "source_fingerprint.num_row_groups" s.numRowGroups
  pure { footerLength, footerCrc32, numRows, numRowGroups }

/-- What has been read of an entry. -/
structure EntryFields where
  name : Option String := none
  sidecarRowGroup : Option UInt32 := none
  sidecarRowGroupCount : Option UInt32 := none
  typ : Option String := none
  sourceColumn : Option String := none
  physicalType : Option String := none
  targetFpp : Option F64 := none
  sourceColumns : Option (List String) := none
  physicalTypes : Option (List String) := none
  tokenizer : Option String := none

/-- `PhysicalType::parse`. -/
def PhysicalType.parse (s : String) : JsonM PhysicalType :=
  match s with
  | "INT32" => pure .int32
  | "INT64" => pure .int64
  | "BYTE_ARRAY" => pure .byteArray
  | other => malformed s!"unsupported physical_type `{other}`"

/-- `Tokenizer::parse`. -/
def Tokenizer.parse (s : String) : JsonM Tokenizer :=
  match s with
  | "whitespace_lowercase_v1" => pure .whitespaceLowercaseV1
  | other => Reader.fail (.unsupportedTokenizer other)

section
variable [FloatText]

/-- One member of an entry; others are skipped. -/
def EntryFields.read (key : String) (s : EntryFields) : JsonM EntryFields :=
  match key with
  | "name" => (fun v => { s with name := some v }) <$> jsonStr manifestJson len
  | "sidecar_row_group" => (fun v => { s with sidecarRowGroup := some v }) <$> jsonU32 len
  | "sidecar_row_group_count" =>
    (fun v => { s with sidecarRowGroupCount := some v }) <$> jsonU32 len
  | "type" => (fun v => { s with typ := some v }) <$> jsonStr manifestJson len
  | "source_column" => (fun v => { s with sourceColumn := some v }) <$> jsonStr manifestJson len
  | "physical_type" => (fun v => { s with physicalType := some v }) <$> jsonStr manifestJson len
  | "target_fpp" => (fun v => { s with targetFpp := some v }) <$> jsonF64 len
  | "source_columns" => (fun v => { s with sourceColumns := some v }) <$> stringArray manifestJson len
  | "physical_types" => (fun v => { s with physicalTypes := some v }) <$> stringArray manifestJson len
  | "tokenizer" => (fun v => { s with tokenizer := some v }) <$> jsonStr manifestJson len
  | _ => (fun _ => s) <$> skipValue manifestJson len

end

/-- The columns and the types of a composite index. -/
def compositeKind (sourceColumns types : List String) : JsonM IndexKind :=
  if sourceColumns.length ≠ types.length then
    malformed "composite_prefix: source_columns and physical_types differ in length"
  else .compositePrefix sourceColumns <$> types.mapM PhysicalType.parse

/-- The kind that `type` names. -/
def EntryFields.kind (s : EntryFields) (typ : String) : JsonM IndexKind :=
  match typ with
  | "sorted" => do
    let sourceColumn ← member "sorted.source_column" s.sourceColumn
    let physicalType ← member "sorted.physical_type" s.physicalType
    .sorted sourceColumn <$> PhysicalType.parse physicalType
  | "bloom_page" => do
    let sourceColumn ← member "bloom_page.source_column" s.sourceColumn
    let targetFpp ← member "bloom_page.target_fpp" s.targetFpp
    pure (.bloomPage sourceColumn targetFpp)
  | "composite_prefix" => do
    let sourceColumns ← member "composite_prefix.source_columns" s.sourceColumns
    let types ← member "composite_prefix.physical_types" s.physicalTypes
    compositeKind sourceColumns types
  | "inverted" => do
    let sourceColumn ← member "inverted.source_column" s.sourceColumn
    let tokenizer ← member "inverted.tokenizer" s.tokenizer
    .inverted sourceColumn <$> Tokenizer.parse tokenizer
  | other => malformed s!"unknown index type `{other}`"

/-- The entry whose members were read; older sidecars have no count. -/
def EntryFields.entry (s : EntryFields) : JsonM IndexEntry := do
  let name ← member "index.name" s.name
  let sidecarRowGroup ← member "index.sidecar_row_group" s.sidecarRowGroup
  let sidecarRowGroupCount := max (s.sidecarRowGroupCount.getD 1) 1
  let typ ← member "index.type" s.typ
  let kind ← s.kind typ
  pure { name, kind, sidecarRowGroup, sidecarRowGroupCount }

section
variable [FloatText]

/-- `parse_one_index`. -/
def parseOneIndex : JsonM IndexEntry := do
  let s ← jsonObject manifestJson len (EntryFields.read len) {}
  s.entry

theorem parseOneIndex_consumes : Consumes (parseOneIndex len) :=
  (jsonObject_consumes manifestJson len _ _).bind_left

/-- The array of the indexes. -/
def parseIndexes : JsonM (List IndexEntry) :=
  jsonList len (parseOneIndex len) (parseOneIndex_consumes len)

/-- The members of a manifest read so far. -/
structure ManifestFields where
  version : Option String := none
  fingerprint : Option SourceFingerprint := none
  indexes : Option (List IndexEntry) := none

/-- Unknown keys are skipped. -/
def ManifestFields.read (key : String) (s : ManifestFields) : JsonM ManifestFields :=
  match key with
  | "version" => (fun v => { s with version := some v }) <$> jsonStr manifestJson len
  | "source_fingerprint" =>
    (fun v => { s with fingerprint := some v }) <$> SourceFingerprint.parseJson len
  | "indexes" => (fun v => { s with indexes := some v }) <$> parseIndexes len
  | _ => (fun _ => s) <$> skipValue manifestJson len

/-- The manifest, if nothing is missing. -/
def ManifestFields.manifest (s : ManifestFields) : JsonM IndexManifest := do
  let version ← member "missing `version` key" s.version
  if version ≠ manifestVersion then Reader.fail (.unsupportedVersion version)
  else
    let sourceFingerprint ← member "missing `source_fingerprint` key" s.fingerprint
    let indexes ← member "missing `indexes` key" s.indexes
    pure { sourceFingerprint, indexes }

end

end

/-- `from_json`; what follows the object is not looked at. -/
def IndexManifest.fromJson [FloatText] (s : String) : Except ManifestError IndexManifest :=
  let len := (asBytes s).length
  (·.1) <$> (do
    let fields ← jsonObject manifestJson len (ManifestFields.read len) {}
    fields.manifest).run (asBytes s)

/-- `codec_err`. -/
def manifestErr (e : ManifestError) : CodecError := .invalidInput e.display

end EmatixParquet
