/-
  Parsing a manifest ends: `from_json` over the parser that keeps a position.

  * `fromJsonAt_eq`: it does what `IndexManifest.fromJson` says, on every text, so that
    it ends, and with no index or slice out of range;
  * `LoopsAdvance`: every loop of the parser moves the position on with each turn,
    although a comma between members or elements may be missing.
-/
import EmatixParquet.Index.JsonParser

namespace EmatixParquet

open Wire Scanner

/-! ## `from_json` with a position -/

section
variable (text : Bytes)

/-- `u32` at a position. -/
def jsonU32At : JsonScan UInt32 := jsonNumberAt text "u32" parseU32

/-- `i64` at a position. -/
def jsonI64At : JsonScan Int64 := jsonNumberAt text "i64" parseI64

/-- `f64` at a position. -/
def jsonF64At [FloatText] : JsonScan F64 := jsonNumberAt text "f64" FloatText.parse

/-- `string_array`. -/
def stringArrayAt : JsonScan (List String) := listAt text (stringAt text)

/-- A member of the fingerprint, at a position. -/
def FingerprintFields.readAt (key : String) (s : FingerprintFields) : JsonScan FingerprintFields :=
  match key with
  | "footer_length" => (fun v => { s with footerLength := some v }) <$> jsonU32At text
  | "footer_crc32" => (fun v => { s with footerCrc32 := some v }) <$> jsonU32At text
  | "num_rows" => (fun v => { s with numRows := some v }) <$> jsonI64At text
  | "num_row_groups" => (fun v => { s with numRowGroups := some v }) <$> jsonU32At text
  | _ => (fun _ => s) <$> text.skipValueAt

/-- The fingerprint whose members were read. -/
def FingerprintFields.fingerprint (s : FingerprintFields) : JsonM SourceFingerprint := do
  let footerLength ← member "source_fingerprint.footer_length" s.footerLength
  let footerCrc32 ← member "source_fingerprint.footer_crc32" s.footerCrc32
  let numRows ← member "source_fingerprint.num_rows" s.numRows
  let numRowGroups ← member "source_fingerprint.num_row_groups" s.numRowGroups
  pure { footerLength, footerCrc32, numRows, numRowGroups }

/-- `SourceFingerprint::parse_json`. -/
def SourceFingerprint.parseJsonAt : JsonScan SourceFingerprint := do
  let s ← objectAt text (FingerprintFields.readAt text) {}
  quiet s.fingerprint

section
variable [FloatText]

/-- A member of an index entry, at a position. -/
def EntryFields.readAt (key : String) (s : EntryFields) : JsonScan EntryFields :=
  match key with
  | "name" => (fun v => { s with name := some v }) <$> stringAt text
  | "sidecar_row_group" => (fun v => { s with sidecarRowGroup := some v }) <$> jsonU32At text
  | "sidecar_row_group_count" =>
    (fun v => { s with sidecarRowGroupCount := some v }) <$> jsonU32At text
  | "type" => (fun v => { s with typ := some v }) <$> stringAt text
  | "source_column" => (fun v => { s with sourceColumn := some v }) <$> stringAt text
  | "physical_type" => (fun v => { s with physicalType := some v }) <$> stringAt text
  | "target_fpp" => (fun v => { s with targetFpp := some v }) <$> jsonF64At text
  | "source_columns" => (fun v => { s with sourceColumns := some v }) <$> stringArrayAt text
  | "physical_types" => (fun v => { s with physicalTypes := some v }) <$> stringArrayAt text
  | "tokenizer" => (fun v => { s with tokenizer := some v }) <$> stringAt text
  | _ => (fun _ => s) <$> text.skipValueAt

/-- `parse_one_index`. -/
def parseOneIndexAt : JsonScan IndexEntry := do
  let s ← objectAt text (EntryFields.readAt text) {}
  quiet s.entry

/-- `parse_indexes` at a position. -/
def parseIndexesAt : JsonScan (List IndexEntry) := listAt text (parseOneIndexAt text)

/-- A member of the manifest, at a position. -/
def ManifestFields.readAt (key : String) (s : ManifestFields) : JsonScan ManifestFields :=
  match key with
  | "version" => (fun v => { s with version := some v }) <$> stringAt text
  | "source_fingerprint" =>
    (fun v => { s with fingerprint := some v }) <$> SourceFingerprint.parseJsonAt text
  | "indexes" => (fun v => { s with indexes := some v }) <$> parseIndexesAt text
  | _ => (fun _ => s) <$> text.skipValueAt

end

end

/-- `from_json`, from the first byte on. -/
def IndexManifest.fromJsonAt [FloatText] (s : String) : Exec (Fault ManifestError) IndexManifest :=
  (·.1) <$> (do
    let fields ← objectAt (asBytes s) (ManifestFields.readAt (asBytes s)) {}
    quiet fields.manifest).run 0

/-! ## Members -/

variable {text : Bytes} {k : ℕ}

theorem tracks_jsonU32At : Tracks text k (jsonU32At text) (jsonU32 text.length) :=
  tracks_jsonNumberAt "u32" parseU32

theorem tracks_jsonI64At : Tracks text k (jsonI64At text) (jsonI64 text.length) :=
  tracks_jsonNumberAt "i64" parseI64

theorem tracks_jsonF64At [FloatText] : Tracks text k (jsonF64At text) (jsonF64 text.length) :=
  tracks_jsonNumberAt "f64" FloatText.parse

theorem tracks_stringArrayAt :
    Tracks text k (stringArrayAt text) (stringArray manifestJson text.length) :=
  tracks_listAt tracks_stringAt (jsonStr_consumes manifestJson text.length)

theorem tracks_fingerprintRead (key : String) (s : FingerprintFields) :
    Tracks text k (s.readAt text key) (FingerprintFields.read text.length key s) := by
  unfold FingerprintFields.readAt
  split
  · exact tracks_jsonU32At.map _
  · exact tracks_jsonU32At.map _
  · exact tracks_jsonI64At.map _
  · exact tracks_jsonU32At.map _
  · rw [FingerprintFields.read.eq_5]
    · exact tracks_skipValue.map _
    all_goals assumption

theorem isQuiet_member {α : Type} (what : String) (o : Option α) :
    IsQuiet (member what o : JsonM α) := by
  cases o with
  | none => exact isQuiet_fail _
  | some a => exact isQuiet_pure a

theorem isQuiet_fingerprint (s : FingerprintFields) : IsQuiet s.fingerprint :=
  (isQuiet_member _ _).bind fun _ => (isQuiet_member _ _).bind fun _ =>
    (isQuiet_member _ _).bind fun _ => (isQuiet_member _ _).bind fun _ => isQuiet_pure _

theorem tracks_parseJsonAt : Tracks text k (SourceFingerprint.parseJsonAt text)
    (SourceFingerprint.parseJson text.length) :=
  (tracks_objectAt tracks_fingerprintRead {}).bind fun s => tracks_quiet (isQuiet_fingerprint s)

/-! ## Entries -/

theorem isQuiet_parsePhysicalType (s : String) : IsQuiet (PhysicalType.parse s) := by
  unfold PhysicalType.parse
  split
  · exact isQuiet_pure _
  · exact isQuiet_pure _
  · exact isQuiet_pure _
  · exact isQuiet_malformed _

theorem isQuiet_parseTokenizer (s : String) : IsQuiet (Tokenizer.parse s) := by
  unfold Tokenizer.parse
  split
  · exact isQuiet_pure _
  · exact isQuiet_fail _

theorem isQuiet_compositeKind (cs ts : List String) : IsQuiet (compositeKind cs ts) := by
  unfold compositeKind
  split
  · exact isQuiet_malformed _
  · exact (isQuiet_mapM isQuiet_parsePhysicalType ts).map _

theorem isQuiet_kind (s : EntryFields) (typ : String) : IsQuiet (s.kind typ) := by
  unfold EntryFields.kind
  split
  · exact (isQuiet_member _ _).bind fun _ => (isQuiet_member _ _).bind fun _ =>
      (isQuiet_parsePhysicalType _).map _
  · exact (isQuiet_member _ _).bind fun _ => (isQuiet_member _ _).bind fun _ => isQuiet_pure _
  · exact (isQuiet_member _ _).bind fun _ => (isQuiet_member _ _).bind fun _ =>
      isQuiet_compositeKind _ _
  · exact (isQuiet_member _ _).bind fun _ => (isQuiet_member _ _).bind fun _ =>
      (isQuiet_parseTokenizer _).map _
  · exact isQuiet_malformed _

theorem isQuiet_entry (s : EntryFields) : IsQuiet s.entry :=
  (isQuiet_member _ _).bind fun _ => (isQuiet_member _ _).bind fun _ =>
    (isQuiet_member _ _).bind fun _ => (isQuiet_kind s _).bind fun _ => isQuiet_pure _

theorem isQuiet_manifest (s : ManifestFields) : IsQuiet s.manifest := by
  refine (isQuiet_member _ _).bind fun version => ?_
  split
  · exact isQuiet_fail _
  · exact (isQuiet_member _ _).bind fun _ => (isQuiet_member _ _).bind fun _ => isQuiet_pure _

section
variable [FloatText]

theorem tracks_entryRead (key : String) (s : EntryFields) :
    Tracks text k (s.readAt text key) (EntryFields.read text.length key s) := by
  unfold EntryFields.readAt
  split
  · exact tracks_stringAt.map _
  · exact tracks_jsonU32At.map _
  · exact tracks_jsonU32At.map _
  · exact tracks_stringAt.map _
  · exact tracks_stringAt.map _
  · exact tracks_stringAt.map _
  · exact tracks_jsonF64At.map _
  · exact tracks_stringArrayAt.map _
  · exact tracks_stringArrayAt.map _
  · exact tracks_stringAt.map _
  · rw [EntryFields.read.eq_11]
    · exact tracks_skipValue.map _
    all_goals assumption

theorem tracks_parseOneIndexAt : Tracks text k (parseOneIndexAt text) (parseOneIndex text.length) :=
  (tracks_objectAt tracks_entryRead {}).bind fun s => tracks_quiet (isQuiet_entry s)

theorem tracks_parseIndexesAt : Tracks text k (parseIndexesAt text) (parseIndexes text.length) :=
  tracks_listAt tracks_parseOneIndexAt (parseOneIndex_consumes text.length)

/-! ## Manifests -/

theorem tracks_manifestRead (key : String) (s : ManifestFields) :
    Tracks text k (s.readAt text key) (ManifestFields.read text.length key s) := by
  unfold ManifestFields.readAt
  split
  · exact tracks_stringAt.map _
  · exact tracks_parseJsonAt.map _
  · exact tracks_parseIndexesAt.map _
  · rw [ManifestFields.read.eq_4]
    · exact tracks_skipValue.map _
    all_goals assumption

/-- **The parser with a position refines the total one.** -/
theorem fromJsonAt_eq (s : String) :
    IndexManifest.fromJsonAt s = ended ((IndexManifest.fromJson s).mapError .err) := by
  have htracks := @Tracks.bind _ _ _ (asBytes s) 0 _ _ _ _ (tracks_objectAt tracks_manifestRead {})
    (fun fields => tracks_quiet (isQuiet_manifest fields)) 0 le_rfl (Nat.zero_le _)
  rw [List.drop_zero] at htracks
  rw [IndexManifest.fromJsonAt, htracks, IndexManifest.fromJson]
  generalize Reader.run _ (asBytes s) = y
  cases y <;> rfl

/-- The loops of the parser, over the bytes `text`. -/
structure LoopsAdvance (text : Bytes) : Prop where
  bytes : ∀ p, Advances text 0 (whileTurn text p : Unit → JsonScan (Unit ⊕ Unit))
  characters : ∀ start, Advances text start (stringTurn text start)
  fingerprint : Advances text 0 (memberTurn text (FingerprintFields.readAt text))
  entry : Advances text 0 (memberTurn text (EntryFields.readAt text))
  manifest : Advances text 0 (memberTurn text (ManifestFields.readAt text))
  strings : Advances text 0 (elementTurn text (stringAt text))
  indexes : Advances text 0 (elementTurn text (parseOneIndexAt text))
  skippedMembers : Advances text 0 fun _ : Unit => text.skipMemberTurn
  skippedElements : Advances text 0 fun _ : Unit => text.skipElementTurn

theorem loopsAdvance (text : Bytes) : LoopsAdvance text where
  bytes := whileTurn_advances
  characters := stringTurn_advances
  fingerprint := Tracks.advances (tracks_memberTurn tracks_fingerprintRead)
  entry := Tracks.advances (tracks_memberTurn tracks_entryRead)
  manifest := Tracks.advances (tracks_memberTurn tracks_manifestRead)
  strings := Tracks.advances
    (tracks_elementTurn tracks_stringAt (jsonStr_consumes manifestJson text.length))
  indexes := Tracks.advances
    (tracks_elementTurn tracks_parseOneIndexAt (parseOneIndex_consumes text.length))
  skippedMembers := skipMemberTurn_advances
  skippedElements := skipElementTurn_advances

/-- **Parsing ends**, with a manifest or an error and without a panic, and every loop
    moves on. -/
theorem fromJson_ends (s : String) :
    IndexManifest.fromJsonAt s = ended ((IndexManifest.fromJson s).mapError .err) ∧
    LoopsAdvance (asBytes s) :=
  ⟨fromJsonAt_eq s, loopsAdvance (asBytes s)⟩

end

end EmatixParquet
