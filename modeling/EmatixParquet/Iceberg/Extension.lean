/-
  The extension of an Iceberg data file (`extension.rs`, `summary.rs`,
  `iceberg_rs.rs`) — what it says, its JSON text and the parser of that text.

  `EmatixDataFileExtension.toJson` writes it, `EmatixDataFileExtension.fromJson`
  reads it.  As the `key_metadata` of a data file the text comes after four
  bytes that tell it from the metadata of others.
-/
import EmatixParquet.Json.Parser
import EmatixParquet.Wire.Reads

namespace EmatixParquet

open Wire

/-- The version that is written. -/
def ematixExtensionVersion : String := "v1"

/-- A bound of a summary. -/
inductive SummaryKey where
  | i64 (v : Int64)
  | i32 (v : Int32)
  | bytes (b : Bytes)
  deriving DecidableEq, Repr

/-- What the extension says of an index: the ends of its keys. -/
structure IndexSummary where
  name : String
  minKey : Option SummaryKey
  maxKey : Option SummaryKey
  datasetBloom : Option Bytes
  deriving DecidableEq, Repr

/-- The extension of a data file: where its sidecar is, and what the indexes are. -/
structure EmatixDataFileExtension where
  sidecarRelativePath : String
  summaries : List IndexSummary
  deriving DecidableEq, Repr

/-- What is wrong with key metadata, or with a query. -/
inductive IcebergIndexError where
  | malformed (msg : String)
  | unsupportedVersion (v : String)
  deriving DecidableEq, Repr

instance : JsonError IcebergIndexError := ⟨.malformed⟩

/-! ## Writing -/

/-- `{b:02x}`. -/
def hexPair (b : UInt8) : List Char := [hexDigit (b.toNat / 16), hexDigit (b.toNat % 16)]

/-- Two digits for each byte. -/
def writeHex (bytes : Bytes) : String := String.ofList (bytes.flatMap hexPair)

/-- A key as an object of its type and its value. -/
def SummaryKey.write : SummaryKey → String
  | i64 v => "\x7b\"type\":\"i64\",\"value\":" ++ (toString v.toInt ++ "\x7d")
  | i32 v => "\x7b\"type\":\"i32\",\"value\":" ++ (toString v.toInt ++ "\x7d")
  | bytes b => "\x7b\"type\":\"bytes\",\"value_hex\":\"" ++ (writeHex b ++ "\"\x7d")

/-- A member that is left out where there is no value. -/
def optionalMember {α : Type} (start : String) (write : α → String) (stop : String) :
    Option α → String
  | none => ""
  | some a => start ++ (write a ++ stop)

/-- A summary as an object; ends that are not known are left out. -/
def IndexSummary.write (summary : IndexSummary) : String :=
  "\x7b\"name\":" ++ (jsonString summary.name
    ++ (optionalMember ",\"min_key\":" SummaryKey.write "" summary.minKey
    ++ (optionalMember ",\"max_key\":" SummaryKey.write "" summary.maxKey
    ++ (optionalMember ",\"dataset_bloom_hex\":\"" writeHex "\"" summary.datasetBloom ++ "\x7d"))))

/-- `to_json`. -/
def EmatixDataFileExtension.toJson (e : EmatixDataFileExtension) : String :=
  "\x7b\"version\":\"" ++ (ematixExtensionVersion
    ++ ("\",\"sidecar_relative_path\":" ++ (jsonString e.sidecarRelativePath
    ++ (",\"summaries\":[" ++ (commaSeparated (e.summaries.map IndexSummary.write) ++ "]\x7d")))))

/-! ## Parsing -/

/-- Parsers of the extension. -/
abbrev ExtM (α : Type) := Reader IcebergIndexError α

section
variable (len : ℕ)

/-- After an escape, byte by byte: `out.push(c as char)`. -/
def laterByte (c : UInt8) : ExtM String := pure (String.singleton (asChar c))

/-- `is_ascii_digit`. -/
def isDigitByte (b : UInt8) : Bool := 0x30 ≤ b && b ≤ 0x39

/-- `i64`: a sign, digits, and what is made of them. -/
def extI64 : ExtM Int64 := do
  skipWs
  let sign ← consumeIf 0x2D
  let digits ← Reader.takeWhile isDigitByte
  let raw ← utf8 "number" ((if sign then [0x2D] else []) ++ digits)
  match parseI64 raw with
  | .ok v => pure v
  | .error e => malformed s!"i64 parse `{raw}`: {e.display}"

/-- One of the three literals. -/
def expectLiteral (text : String) : ExtM Unit := do
  if ← Reader.consumePrefix (asBytes text) then pure () else malformed s!"expected `{text}`"

/-- A scalar that is skipped, by its first byte. -/
def extScalar (c : UInt8) : ExtM Unit :=
  if c = 0x74 then expectLiteral "true"
  else if c = 0x66 then expectLiteral "false"
  else if c = 0x6E then expectLiteral "null"
  else if c = 0x2D ∨ isDigitByte c then (fun _ => ()) <$> extI64
  else do
    let pos ← jsonPos len
    malformed s!"unexpected char `{String.singleton (asChar c)}` at pos {pos}"

theorem expectLiteral_consumes {text : String} (h : asBytes text ≠ []) :
    Consumes (expectLiteral text) := by
  intro bs a rest hrun
  obtain ⟨found, mid, hfound, hrun⟩ := Reader.run_bind_eq_ok hrun
  change Except.ok _ = _ at hfound
  by_cases hp : asBytes text <+: bs
  · rw [if_pos hp] at hfound
    cases hfound
    cases hrun
    have := hp.length_le
    have := List.length_pos_of_ne_nil h
    rw [List.length_drop]
    omega
  · rw [if_neg hp] at hfound
    cases hfound
    cases hrun

/-- No digits are no number. -/
theorem extI64_consumes : Consumes extI64 := by
  refine .bind_right fun _ bs a rest h => ?_
  obtain ⟨sign, mid, hsign, h⟩ := Reader.run_bind_eq_ok h
  obtain ⟨digits, mid', hdigits, h⟩ := Reader.run_bind_eq_ok h
  have hle := Reader.run_length_le _ h
  rw [consumeIf_eq] at hsign
  rw [Reader.run_takeWhile] at hdigits
  cases hdigits
  cases bs with
  | nil =>
    cases hsign
    cases h
  | cons c bs =>
    by_cases hc : c = 0x2D
    · rw [List.head?_cons, if_pos (congrArg some hc)] at hsign
      cases hsign
      exact Nat.lt_succ_of_le (hle.trans (List.dropWhile_suffix _).length_le)
    · rw [List.head?_cons, if_neg fun hsome => hc (Option.some.inj hsome)] at hsign
      cases hsign
      by_cases hdigit : isDigitByte c = true
      · rw [List.dropWhile_cons_of_pos hdigit] at hle
        exact Nat.lt_succ_of_le (hle.trans (List.dropWhile_suffix _).length_le)
      · rw [List.takeWhile_cons_of_neg hdigit] at h
        cases h

theorem extScalar_consumes {len : ℕ} {c : UInt8} {bs rest : Bytes}
    (h : (extScalar len c).run (c :: bs) = .ok ((), rest)) : rest.length < (c :: bs).length := by
  unfold extScalar at h
  split at h
  · exact expectLiteral_consumes (by decide) _ _ _ h
  · split at h
    · exact expectLiteral_consumes (by decide) _ _ _ h
    · split at h
      · exact expectLiteral_consumes (by decide) _ _ _ h
      · split at h
        · exact extI64_consumes.map _ _ _ _ h
        · obtain ⟨pos, mid, -, h⟩ := Reader.run_bind_eq_ok h
          cases h

/-- The strings, the scalars and the errors of the extension's JSON. -/
def extensionJson : Dialect IcebergIndexError where
  later := laterByte
  eof := "unexpected end"
  scalar := extScalar
  scalar_consumes := extScalar_consumes

/-! ### Hexadecimal text -/

/-- The value of a digit. -/
def hexNibble (c : UInt8) : Except IcebergIndexError UInt8 :=
  if 0x30 ≤ c ∧ c ≤ 0x39 then .ok (c - 0x30)
  else if 0x61 ≤ c ∧ c ≤ 0x66 then .ok (10 + c - 0x61)
  else if 0x41 ≤ c ∧ c ≤ 0x46 then .ok (10 + c - 0x41)
  else .error (.malformed s!"invalid hex byte `{String.singleton (asChar c)}`")

/-- `chunks_exact(2)`. -/
def parseHexPairs : Bytes → Except IcebergIndexError Bytes
  | hi :: lo :: bs => do
    let hi ← hexNibble hi
    let lo ← hexNibble lo
    (((hi <<< 4) ||| lo) :: ·) <$> parseHexPairs bs
  | _ => .ok []

/-- The bytes of a string of digits. -/
def parseHex (s : String) : Except IcebergIndexError Bytes :=
  let bytes := asBytes s
  if bytes.length % 2 ≠ 0 then .error (.malformed s!"hex string length {bytes.length} is odd")
  else parseHexPairs bytes

/-! ### Objects -/

/-- The members of a key read so far. -/
structure KeyFields where
  typ : Option String := none
  intValue : Option Int64 := none
  bytesValue : Option Bytes := none

/-- A string of digits. -/
def hexStr : ExtM Bytes := do
  let hex ← jsonStr extensionJson len
  Reader.lift (parseHex hex)

/-- One member of a key; others are skipped. -/
def KeyFields.read (key : String) (s : KeyFields) : ExtM KeyFields :=
  match key with
  | "type" => (fun v => { s with typ := some v }) <$> jsonStr extensionJson len
  | "value" => (fun v => { s with intValue := some v }) <$> extI64
  | "value_hex" => (fun v => { s with bytesValue := some v }) <$> hexStr len
  | _ => (fun _ => s) <$> skipValue extensionJson len

/-- `i32::try_from`. -/
def narrowKey (v : Int64) : ExtM SummaryKey :=
  if -2 ^ 31 ≤ v.toInt ∧ v.toInt < 2 ^ 31 then pure (.i32 (Int32.ofInt v.toInt))
  else malformed s!"summary_key.value `{v.toInt}` out of i32 range"

/-- The key that `type` names. -/
def KeyFields.key (s : KeyFields) (typ : String) : ExtM SummaryKey :=
  match typ with
  | "i64" => .i64 <$> member "summary_key.value (i64)" s.intValue
  | "i32" => do
    let v ← member "summary_key.value (i32)" s.intValue
    narrowKey v
  | "bytes" => .bytes <$> member "summary_key.value_hex (bytes)" s.bytesValue
  | other => malformed s!"unknown summary_key.type `{other}`"

/-- `parse_summary_key`. -/
def parseSummaryKey : ExtM SummaryKey := do
  let s ← jsonObject extensionJson len (KeyFields.read len) {}
  let typ ← member "summary_key.type" s.typ
  s.key typ

/-- The members of a summary read so far. -/
structure SummaryFields where
  name : Option String := none
  minKey : Option SummaryKey := none
  maxKey : Option SummaryKey := none
  datasetBloom : Option Bytes := none

/-- Unknown keys are skipped. -/
def SummaryFields.read (key : String) (s : SummaryFields) : ExtM SummaryFields :=
  match key with
  | "name" => (fun v => { s with name := some v }) <$> jsonStr extensionJson len
  | "min_key" => (fun v => { s with minKey := some v }) <$> parseSummaryKey len
  | "max_key" => (fun v => { s with maxKey := some v }) <$> parseSummaryKey len
  | "dataset_bloom_hex" => (fun v => { s with datasetBloom := some v }) <$> hexStr len
  | _ => (fun _ => s) <$> skipValue extensionJson len

/-- The summary, if it has a name. -/
def SummaryFields.summary (s : SummaryFields) : ExtM IndexSummary := do
  let name ← member "summary.name" s.name
  pure { name, minKey := s.minKey, maxKey := s.maxKey, datasetBloom := s.datasetBloom }

/-- `parse_one_summary`. -/
def parseOneSummary : ExtM IndexSummary := do
  let s ← jsonObject extensionJson len (SummaryFields.read len) {}
  s.summary

theorem parseOneSummary_consumes : Consumes (parseOneSummary len) :=
  (jsonObject_consumes extensionJson len _ _).bind_left

/-- The array of the summaries. -/
def parseSummaries : ExtM (List IndexSummary) :=
  jsonList len (parseOneSummary len) (parseOneSummary_consumes len)

/-- The members of an extension read so far. -/
structure ExtensionFields where
  version : Option String := none
  sidecarRelativePath : Option String := none
  summaries : Option (List IndexSummary) := none

/-- Unknown keys are skipped. -/
def ExtensionFields.read (key : String) (s : ExtensionFields) : ExtM ExtensionFields :=
  match key with
  | "version" => (fun v => { s with version := some v }) <$> jsonStr extensionJson len
  | "sidecar_relative_path" =>
    (fun v => { s with sidecarRelativePath := some v }) <$> jsonStr extensionJson len
  | "summaries" => (fun v => { s with summaries := some v }) <$> parseSummaries len
  | _ => (fun _ => s) <$> skipValue extensionJson len

/-- There need not be summaries. -/
def ExtensionFields.extension (s : ExtensionFields) : ExtM EmatixDataFileExtension := do
  let version ← member "missing `version`" s.version
  if version ≠ ematixExtensionVersion then Reader.fail (.unsupportedVersion version)
  else
    let sidecarRelativePath ← member "missing `sidecar_relative_path`" s.sidecarRelativePath
    pure { sidecarRelativePath, summaries := s.summaries.getD [] }

end

/-- `from_json`; what follows the object is not looked at. -/
def EmatixDataFileExtension.fromJson (s : String) :
    Except IcebergIndexError EmatixDataFileExtension :=
  let len := (asBytes s).length
  (·.1) <$> (do
    let fields ← jsonObject extensionJson len (ExtensionFields.read len) {}
    fields.extension).run (asBytes s)

/-! ## Key metadata -/

/-- `EMTX`. -/
def keyMetadataMagic : Bytes := [0x45, 0x4D, 0x54, 0x58]

/-- `MAGIC || utf-8(JSON)`. -/
def encodeKeyMetadata (e : EmatixDataFileExtension) : Bytes := keyMetadataMagic ++ asBytes e.toJson

/-- `Utf8Error`: where the text stops to be UTF-8, and how many bytes are at
    fault; none if bytes are missing. -/
structure Utf8Error where
  validUpTo : ℕ
  errorLen : Option ℕ
  deriving DecidableEq, Repr

/-- `Display`. -/
def Utf8Error.display (e : Utf8Error) : String :=
  match e.errorLen with
  | some n => s!"invalid utf-8 sequence of {n} bytes from index {e.validUpTo}"
  | none => s!"incomplete utf-8 byte sequence from index {e.validUpTo}"

/-- A byte that goes on with a character. -/
def isContinuation (b : UInt8) : Bool := 0x80 ≤ b && b ≤ 0xBF

/-- The second byte of a character of three or four bytes. -/
def isSecond (b c : UInt8) : Bool :=
  if b = 0xE0 then 0xA0 ≤ c && c ≤ 0xBF
  else if b = 0xED then 0x80 ≤ c && c ≤ 0x9F
  else if b = 0xF0 then 0x90 ≤ c && c ≤ 0xBF
  else if b = 0xF4 then 0x80 ≤ c && c ≤ 0x8F
  else isContinuation c

/-- `run_utf8_validation`, from the index `pos` on. -/
def utf8ErrorFrom (pos : ℕ) : Bytes → Option Utf8Error
  | [] => none
  | b :: bs =>
    if b < 0x80 then utf8ErrorFrom (pos + 1) bs
    else if 0xC2 ≤ b ∧ b ≤ 0xDF then
      match bs with
      | [] => some ⟨pos, none⟩
      | c :: bs => if isContinuation c then utf8ErrorFrom (pos + 2) bs else some ⟨pos, some 1⟩
    else if 0xE0 ≤ b ∧ b ≤ 0xEF then
      match bs with
      | [] => some ⟨pos, none⟩
      | [c] => some ⟨pos, if isSecond b c then none else some 1⟩
      | c :: d :: bs =>
        if ¬ isSecond b c then some ⟨pos, some 1⟩
        else if isContinuation d then utf8ErrorFrom (pos + 3) bs else some ⟨pos, some 2⟩
    else if 0xF0 ≤ b ∧ b ≤ 0xF4 then
      match bs with
      | [] => some ⟨pos, none⟩
      | [c] => some ⟨pos, if isSecond b c then none else some 1⟩
      | [c, d] =>
        some ⟨pos, if ¬ isSecond b c then some 1 else if isContinuation d then none else some 2⟩
      | c :: d :: e :: bs =>
        if ¬ isSecond b c then some ⟨pos, some 1⟩
        else if ¬ isContinuation d then some ⟨pos, some 2⟩
        else if isContinuation e then utf8ErrorFrom (pos + 4) bs else some ⟨pos, some 3⟩
    else some ⟨pos, some 1⟩

/-- The error of `from_utf8`, in words. -/
def utf8ErrorText (bs : Bytes) : String := ((utf8ErrorFrom 0 bs).map Utf8Error.display).getD ""

/-- Without the magic, the bytes are not ours. -/
def decodeKeyMetadata (bytes : Bytes) : Except IcebergIndexError (Option EmatixDataFileExtension) :=
  if bytes.length < keyMetadataMagic.length
      ∨ bytes.take keyMetadataMagic.length ≠ keyMetadataMagic then .ok none
  else
    let jsonBytes := bytes.drop keyMetadataMagic.length
    match fromUtf8 jsonBytes with
    | none => .error (.malformed s!"key_metadata after magic is not UTF-8: {utf8ErrorText jsonBytes}")
    | some json => some <$> EmatixDataFileExtension.fromJson json

end EmatixParquet
