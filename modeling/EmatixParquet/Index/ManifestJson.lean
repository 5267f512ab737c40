/-
  What is read of a manifest that was written.

  Every part of a manifest that was written is read back, or is refused because
  of an escape that the parser does not know (`orRefused`).

  * `reads_manifestStr`: a string is read back if and only if it is clean: the
    writer escapes every control character, the parser knows three of them;
  * `fromJson_toJson`: a manifest is read back if and only if its names are
    clean.
-/
import EmatixParquet.Index.Manifest
import EmatixParquet.Json.Reads

namespace EmatixParquet

open Wire

variable {α β : Type}

/-- Read back, or refused. -/
def orRefused (p : Prop) [Decidable p] (a : α) : Except ManifestError α :=
  if p then .ok a else .error unknownEscape

theorem orRefused_bind (p q : Prop) [Decidable p] [Decidable q] (a : α) (b : β)
    (f : α → Except ManifestError β) (h : p → f a = orRefused q b) :
    (orRefused p a >>= f) = orRefused (p ∧ q) b := by
  by_cases hp : p
  · simp only [orRefused, hp, if_true, true_and]
    exact h hp
  · simp [orRefused, hp, bind, Except.bind]

theorem map_orRefused (p : Prop) [Decidable p] (a : α) (f : α → β) :
    f <$> orRefused p a = orRefused p (f a) := by
  by_cases hp : p <;> simp [orRefused, hp, Functor.map, Except.map]

theorem orRefused_eq_ok {p : Prop} [Decidable p] {a b : α} :
    orRefused p a = .ok b ↔ p ∧ a = b := by
  by_cases hp : p <;> simp [orRefused, hp]

theorem orRefused_congr {p q : Prop} [Decidable p] [Decidable q] (h : p ↔ q) (a : α) :
    orRefused p a = orRefused q a := by
  by_cases hp : p
  · rw [orRefused, orRefused, if_pos hp, if_pos (h.mp hp)]
  · rw [orRefused, orRefused, if_neg hp, if_neg (mt h.mpr hp)]

/-- Three members, the middle one of which may be refused. -/
theorem fold_orRefused {σ α₁ α₃ : Type} (p : Prop) [Decidable p] (a₁ : α₁) (a : α) (a₃ : α₃)
    (f₁ : σ → α₁ → σ) (f : σ → α → σ) (f₃ : σ → α₃ → σ) (s : σ) :
    [fun s => f₁ s <$> (.ok a₁ : Except ManifestError α₁), fun s => f s <$> orRefused p a,
      fun s => f₃ s <$> .ok a₃].foldlM (fun s g => g s) s
      = orRefused p (f₃ (f (f₁ s a₁) a) a₃) := by
  by_cases hp : p
  · rw [orRefused, orRefused, if_pos hp, if_pos hp]
    rfl
  · rw [orRefused, orRefused, if_neg hp, if_neg hp]
    rfl

theorem mapM_orRefused (p : α → Prop) [DecidablePred p] (xs : List α) :
    (xs.map fun a => orRefused (p a) a).mapM id = orRefused (∀ a ∈ xs, p a) xs := by
  induction xs with
  | nil => rw [List.map_nil, List.mapM_nil, orRefused, if_pos (by simp)]; rfl
  | cons a xs ih =>
    rw [List.map_cons, List.mapM_cons, ih, orRefused_congr List.forall_mem_cons]
    refine orRefused_bind _ _ _ _ _ fun _ => ?_
    rw [bind_pure_comp, map_orRefused]

/-- What is read back is completed without reading more. -/
theorem reads_complete {follow : Bytes → Prop} {p : Prop} [Decidable p] {a : α} {b : β}
    {r : JsonM α} {f : α → JsonM β} {w : Bytes} (h : Reads follow (orRefused p a) r w)
    (hf : f a = pure b) : Reads follow (orRefused p b) (r >>= f) w := by
  by_cases hp : p
  · rw [orRefused, if_pos hp] at h ⊢
    exact h.bind_pure rfl hf
  · rw [orRefused, if_neg hp] at h ⊢
    exact h.bind_nil (g := fun _ => .ok b) fun _ ha => by cases ha

/-! ## Strings and numbers -/

theorem laterRun_hears : Hears laterRun fun c => [c] := by
  intro s cs t hout hcs ht
  have hplain := isPlainByte_of_plain hcs
  rw [List.flatMap_singleton']
  cases hw : encode cs with
  | nil =>
    cases cs with
    | nil => simp
    | cons c cs => simp [String.utf8EncodeChar_ne_nil] at hw
  | cons b w =>
    rw [hw] at hplain
    have hb := hplain b List.mem_cons_self
    simp only [isPlainByte, Bool.and_eq_true, decide_eq_true_eq] at hb
    refine (stringLoop laterRun).run_of_inl ?_
    change (s.byte laterRun b).run (w ++ t) = _
    rw [StringState.byte, if_neg hb.1, if_neg hb.2, Reader.run_map, StringState.accumulate,
      if_neg hout, Reader.run_map, laterRun, Reader.run_bind_ok (Reader.run_takeWhile_append
        isPlainByte (fun b hb => hplain b (List.mem_cons_of_mem _ hb)) ht), utf8, ← hw,
      fromUtf8_encode]
    rfl

/-- **Strings**: clean ones are read back, others are refused. -/
theorem reads_manifestStr {follow : Bytes → Prop} (len : ℕ) (v : String) :
    Reads follow (orRefused (Clean v) v) (jsonStr manifestJson len) (asBytes (jsonString v)) := by
  have hread := @reads_stringWith _ _ _ _ follow laterRun_hears len v
  have hheard : heardString (fun c => [c]) v = orRefused (Clean v) v := by
    rw [heardString, heardFrom_clean, orRefused]
    by_cases hv : ∀ c ∈ v.toList, CleanChar c
    · rw [if_pos hv, if_pos (show Clean v from hv)]
      exact congrArg Except.ok (String.ofList_toList ..)
    · rw [if_neg hv, if_neg (show ¬ Clean v from hv)]
  rwa [hheard] at hread

theorem isNumberByte_of_ended {t : Bytes} (ht : Ended t) :
    ∀ b ∈ t.head?, isNumberByte b = false := by
  intro b hb
  rcases ht b hb with rfl | rfl | rfl | rfl | hspace
  · decide
  · decide
  · decide
  · decide
  · rcases isJsonSpace_iff.mp hspace with rfl | rfl | rfl | rfl <;> decide

theorem isJsonSpace_of_number {b : UInt8} (h : isNumberByte b = true) : isJsonSpace b = false := by
  by_contra hspace
  rw [Bool.not_eq_false, isJsonSpace_iff] at hspace
  revert h
  rcases hspace with rfl | rfl | rfl | rfl <;> decide

/-- A text in the characters of numbers. -/
theorem reads_jsonNumber {ε : Type} (len : ℕ) (what : String) {parse : String → Except ε α}
    {text : String} {a : α} (hne : text ≠ "") (hbytes : ∀ b ∈ asBytes text, isNumberByte b = true)
    (hparse : parse text = .ok a) :
    Reads Ended (.ok a) (jsonNumber len what parse) (asBytes text) := by
  intro t ht
  have hnil : asBytes text ≠ [] := by
    rw [asBytes_eq_encode]
    cases hl : text.toList with
    | nil => exact absurd (String.toList_eq_nil_iff.mp hl) hne
    | cons c cs => simp [String.utf8EncodeChar_ne_nil]
  have hsolid : Solid (asBytes text ++ t) := by
    obtain ⟨b, w, hw⟩ := List.exists_cons_of_ne_nil hnil
    rw [hw] at hbytes ⊢
    exact solid_cons (isJsonSpace_of_number (hbytes b List.mem_cons_self))
  have hnumber : (numberStr len).run (asBytes text ++ t) = .ok (text, t) := by
    rw [numberStr, Reader.run_bind_ok (skipWs_solid hsolid), jsonPos, Reader.run_bind, Reader.run_map]
    simp only [Reader.run_remaining]
    rw [Reader.run_bind_ok (Reader.run_takeWhile_append isNumberByte hbytes (isNumberByte_of_ended ht)),
      if_neg hnil, utf8, fromUtf8_asBytes]
    rfl
  rw [jsonNumber, Reader.run_bind_ok hnumber, hparse]
  rfl

theorem isNumberByte_of_digit {b : UInt8} (h : 0x30 ≤ b ∧ b ≤ 0x39) : isNumberByte b = true := by
  simp [isNumberByte, h]

theorem reads_jsonU32 (len : ℕ) (n : UInt32) :
    Reads Ended (.ok n) (jsonU32 len) (asBytes (toString n.toNat)) := by
  refine reads_jsonNumber len "u32" (fun h => ?_) (fun b hb => ?_) (parseU32_toString n)
  · have := congrArg String.toList h
    rw [toList_toString] at this
    exact Nat.toDigits_ne_nil this
  · rw [asBytes_eq_encode, toList_toString] at hb
    exact isNumberByte_of_digit (encode_toDigits _ b hb)

theorem reads_jsonI64 (len : ℕ) (n : Int64) :
    Reads Ended (.ok n) (jsonI64 len) (asBytes (toString n.toInt)) := by
  refine reads_jsonNumber len "i64" (fun h => ?_) (fun b hb => ?_) (parseI64_toString n)
  · have := congrArg String.toList h
    rw [toList_toString_int] at this
    split at this
    · exact Nat.toDigits_ne_nil this
    · simp at this
  · rw [asBytes_eq_encode, toList_toString_int] at hb
    split at hb
    · exact isNumberByte_of_digit (encode_toDigits _ b hb)
    · rw [encode_cons, List.mem_append] at hb
      rcases hb with hb | hb
      · have hminus : String.utf8EncodeChar '-' = [0x2D] := by decide
        rw [hminus, List.mem_singleton] at hb
        rw [hb]
        decide
      · exact isNumberByte_of_digit (encode_toDigits _ b hb)

/-! ## The fingerprint -/

section
variable {σ : Type} {member : String → σ → JsonM σ} (len : ℕ)

/-- A member whose value is read into the state. -/
theorem isManifestMember (key : String) (hkey : Clean key) {r : JsonM α} {x : Except ManifestError α}
    {w : Bytes} (h : Reads Ended x r w) {store : σ → α → σ}
    (hmember : ∀ s, member key s = store s <$> r) :
    IsMember manifestJson len member (memberText key w) fun s => store s <$> x := by
  refine @isMember _ _ σ manifestJson _ laterRun_hears len key ?_ member _ w fun s => ?_
  · rw [heardFrom_clean, if_pos (show ∀ c ∈ key.toList, CleanChar c from hkey)]
  · rw [hmember]
    exact h.map _

end

theorem fingerprintText (fp : SourceFingerprint) : asBytes fp.writeJson
    = 0x7B :: (joinComma [memberText "footer_length" (asBytes (toString fp.footerLength.toNat)),
        memberText "footer_crc32" (asBytes (toString fp.footerCrc32.toNat)),
        memberText "num_rows" (asBytes (toString fp.numRows.toInt)),
        memberText "num_row_groups" (asBytes (toString fp.numRowGroups.toNat))] ++ [0x7D]) := by
  have h₁ : asBytes "\x7b\"footer_length\":" = 0x7B :: (asBytes (jsonString "footer_length") ++ [0x3A]) := by
    decide +kernel
  have h₂ : asBytes ",\"footer_crc32\":" = 0x2C :: (asBytes (jsonString "footer_crc32") ++ [0x3A]) := by
    decide +kernel
  have h₃ : asBytes ",\"num_rows\":" = 0x2C :: (asBytes (jsonString "num_rows") ++ [0x3A]) := by
    decide +kernel
  have h₄ : asBytes ",\"num_row_groups\":" = 0x2C :: (asBytes (jsonString "num_row_groups") ++ [0x3A]) := by
    decide +kernel
  have h₅ : asBytes "\x7d" = [0x7D] := by decide
  unfold SourceFingerprint.writeJson
  generalize toString fp.footerLength.toNat = a
  generalize toString fp.footerCrc32.toNat = b
  generalize toString fp.numRows.toInt = c
  generalize toString fp.numRowGroups.toNat = d
  simp only [asBytes_append, h₁, h₂, h₃, h₄, h₅, joinComma, memberText]
  simp only [List.cons_append, List.append_assoc, List.nil_append]

theorem reads_fingerprint {follow : Bytes → Prop} (len : ℕ) (fp : SourceFingerprint) :
    Reads follow (.ok fp) (SourceFingerprint.parseJson len) (asBytes fp.writeJson) := by
  rw [fingerprintText]
  have hlength := isManifestMember len "footer_length" (by decide) (reads_jsonU32 len fp.footerLength)
    fun s => FingerprintFields.read.eq_1 len s
  have hcrc := isManifestMember len "footer_crc32" (by decide) (reads_jsonU32 len fp.footerCrc32)
    fun s => FingerprintFields.read.eq_2 len s
  have hrows := isManifestMember len "num_rows" (by decide) (reads_jsonI64 len fp.numRows)
    fun s => FingerprintFields.read.eq_3 len s
  have hgroups := isManifestMember len "num_row_groups" (by decide)
    (reads_jsonU32 len fp.numRowGroups) fun s => FingerprintFields.read.eq_4 len s
  have hobject := @reads_object _ _ follow FingerprintFields manifestJson len
    (FingerprintFields.read len) _ _
    (.cons hlength (.cons hcrc (.cons hrows (.cons hgroups .nil)))) {}
  exact hobject.bind_pure rfl rfl

/-! ## Entries -/

/-- A constant that the writer puts between quotes. -/
theorem reads_constant {follow : Bytes → Prop} (len : ℕ) {v : String} (hv : Clean v) :
    Reads follow (.ok v) (jsonStr manifestJson len) (asBytes (jsonString v)) := by
  have hread := @reads_manifestStr follow len v
  rwa [orRefused, if_pos hv] at hread

theorem jsonString_head (v : String) {close : UInt8} (hclose : close ≠ 0x22) :
    ∃ b w, asBytes (jsonString v) = b :: w ∧ isJsonSpace b = false ∧ b ≠ close := by
  have hquote : asBytes "\"" = [0x22] := by decide
  refine ⟨0x22, asBytes (String.ofList (v.toList.flatMap escapeChar)) ++ [0x22], ?_, by decide,
    hclose.symm⟩
  rw [jsonString, asBytes_append, asBytes_append, hquote]
  rfl

theorem reads_stringArray {follow : Bytes → Prop} (len : ℕ) (vs : List String) :
    Reads follow (orRefused (∀ v ∈ vs, Clean v) vs) (stringArray manifestJson len)
      (0x5B :: (joinComma (vs.map fun v => asBytes (jsonString v)) ++ [0x5D])) := by
  rw [← mapM_orRefused]
  refine reads_list (List.forall₂_map_left_iff.mpr (List.forall₂_map_right_iff.mpr ?_))
  exact List.forall₂_same.mpr fun v _ => ⟨jsonString_head v (by decide), reads_manifestStr len v⟩

theorem PhysicalType.clean (t : PhysicalType) : Clean t.asStr := by
  cases t <;> decide

theorem PhysicalType.parse_asStr (t : PhysicalType) : PhysicalType.parse t.asStr = pure t := by
  cases t <;> rfl

theorem PhysicalType.quoted (t : PhysicalType) : "\"" ++ t.asStr ++ "\"" = jsonString t.asStr := by
  cases t <;> decide +kernel

theorem Tokenizer.parse_asStr (t : Tokenizer) : Tokenizer.parse t.asStr = pure t := by
  cases t
  rfl

theorem mapM_parse (ts : List PhysicalType) :
    ts.mapM (PhysicalType.parse ∘ PhysicalType.asStr) = pure ts := by
  induction ts with
  | nil => rfl
  | cons t ts ih =>
    rw [List.mapM_cons, Function.comp_apply, PhysicalType.parse_asStr, ih]
    rfl

/-- The columns an index is over. -/
def IndexKind.columns : IndexKind → List String
  | sorted sourceColumn _ => [sourceColumn]
  | bloomPage sourceColumn _ => [sourceColumn]
  | compositePrefix sourceColumns _ => sourceColumns
  | inverted sourceColumn _ => [sourceColumn]

section
variable [FloatText]

/-- What the members of a kind put into the fields. -/
def EntryFields.store (s : EntryFields) : IndexKind → EntryFields
  | .sorted sourceColumn physicalType =>
    { s with typ := some "sorted", sourceColumn := some sourceColumn,
             physicalType := some physicalType.asStr }
  | .bloomPage sourceColumn targetFpp =>
    { s with typ := some "bloom_page", sourceColumn := some sourceColumn,
             targetFpp := some targetFpp }
  | .compositePrefix sourceColumns physicalTypes =>
    { s with typ := some "composite_prefix", sourceColumns := some sourceColumns,
             physicalTypes := some (physicalTypes.map PhysicalType.asStr) }
  | .inverted sourceColumn tokenizer =>
    { s with typ := some "inverted", sourceColumn := some sourceColumn,
             tokenizer := some tokenizer.asStr }

/-- What the parser can take of a kind: types match columns, and the rate is a
    number that is read as it was printed. -/
def IndexKind.Valid : IndexKind → Prop
  | .bloomPage _ targetFpp => FloatText.Inverse targetFpp
  | .compositePrefix sourceColumns physicalTypes => sourceColumns.length = physicalTypes.length
  | _ => True

/-- The members `ws` of an entry are read into its fields by `gs`. -/
structure KindReads (len : ℕ) (k : IndexKind) (ws : List Bytes)
    (gs : List (EntryFields → Except ManifestError EntryFields)) : Prop where
  text : asBytes k.writeJson = joinComma ws
  members : List.Forall₂ (IsMember manifestJson len (EntryFields.read len)) ws gs
  fold : ∀ s, gs.foldlM (fun s g => g s) s = orRefused (∀ v ∈ k.columns, Clean v) (s.store k)

/-- A kind over one column: its name, the column, and one member more. -/
theorem kindReads_column (len : ℕ) {k : IndexKind} {typ c third : String} {a : α} {w : Bytes}
    {r : JsonM α} {store : EntryFields → α → EntryFields} (htyp : Clean typ) (hthird : Clean third)
    (hread : ∀ s, EntryFields.read len third s = store s <$> r) (hr : Reads Ended (.ok a) r w)
    (htext : asBytes k.writeJson = joinComma [memberText "type" (asBytes (jsonString typ)),
      memberText "source_column" (asBytes (jsonString c)), memberText third w])
    (hcolumns : k.columns = [c])
    (hstore : ∀ s : EntryFields,
      store { s with typ := some typ, sourceColumn := some c } a = s.store k) :
    ∃ ws gs, ws ≠ [] ∧ KindReads len k ws gs := by
  have htype := isManifestMember len "type" (by decide) (reads_constant len htyp)
    fun s => EntryFields.read.eq_4 len s
  have hcolumn := isManifestMember len "source_column" (by decide) (reads_manifestStr len c)
    fun s => EntryFields.read.eq_5 len s
  have hlast := isManifestMember len third hthird hr hread
  refine ⟨_, _, by simp, ⟨htext, .cons htype (.cons hcolumn (.cons hlast .nil)), fun s => ?_⟩⟩
  rw [hcolumns, ← hstore, orRefused_congr List.forall_mem_singleton]
  exact fold_orRefused ..

theorem kindReads_sorted (len : ℕ) (c : String) (t : PhysicalType) :
    ∃ ws gs, ws ≠ [] ∧ KindReads len (.sorted c t) ws gs := by
  have h₁ : asBytes "\"type\":\"sorted\",\"source_column\":"
      = memberText "type" (asBytes (jsonString "sorted"))
        ++ 0x2C :: (asBytes (jsonString "source_column") ++ [0x3A]) := by decide +kernel
  have h₂ : asBytes ",\"physical_type\":\""
      = 0x2C :: (asBytes (jsonString "physical_type") ++ [0x3A]) ++ asBytes "\"" := by decide +kernel
  refine kindReads_column len (by decide) (by decide) (fun s => EntryFields.read.eq_6 len s)
    (reads_constant len t.clean) ?_ rfl fun s => rfl
  unfold IndexKind.writeJson
  simp only [asBytes_append, h₁, h₂, ← t.quoted, joinComma]
  simp only [memberText, List.cons_append, List.append_assoc, List.nil_append]

theorem kindReads_bloomPage (len : ℕ) (c : String) {x : F64} (hx : FloatText.Inverse x) :
    ∃ ws gs, ws ≠ [] ∧ KindReads len (.bloomPage c x) ws gs := by
  have h₁ : asBytes "\"type\":\"bloom_page\",\"source_column\":"
      = memberText "type" (asBytes (jsonString "bloom_page"))
        ++ 0x2C :: (asBytes (jsonString "source_column") ++ [0x3A]) := by decide +kernel
  have h₂ : asBytes ",\"target_fpp\":"
      = 0x2C :: (asBytes (jsonString "target_fpp") ++ [0x3A]) := by decide +kernel
  obtain ⟨hne, hbytes, hparse⟩ := hx
  refine kindReads_column len (by decide) (by decide) (fun s => EntryFields.read.eq_7 len s)
    (reads_jsonNumber len "f64" hne hbytes hparse) ?_ rfl fun s => rfl
  unfold IndexKind.writeJson
  simp only [asBytes_append, h₁, h₂, joinComma]
  simp only [memberText, List.cons_append, List.append_assoc, List.nil_append]

theorem kindReads_inverted (len : ℕ) (c : String) (t : Tokenizer) :
    ∃ ws gs, ws ≠ [] ∧ KindReads len (.inverted c t) ws gs := by
  have h₁ : asBytes "\"type\":\"inverted\",\"source_column\":"
      = memberText "type" (asBytes (jsonString "inverted"))
        ++ 0x2C :: (asBytes (jsonString "source_column") ++ [0x3A]) := by decide +kernel
  have h₂ : asBytes ",\"tokenizer\":\""
      = 0x2C :: (asBytes (jsonString "tokenizer") ++ [0x3A]) ++ asBytes "\"" := by decide +kernel
  have hclean : Clean t.asStr := by
    cases t
    decide
  have hquoted : asBytes (jsonString t.asStr) = asBytes "\"" ++ asBytes t.asStr ++ asBytes "\"" := by
    cases t
    decide +kernel
  refine kindReads_column len (by decide) (by decide) (fun s => EntryFields.read.eq_10 len s)
    (reads_constant len hclean) ?_ rfl fun s => rfl
  unfold IndexKind.writeJson
  simp only [asBytes_append, h₁, h₂, hquoted, joinComma]
  simp only [memberText, List.cons_append, List.append_assoc, List.nil_append]

theorem kindReads_compositePrefix (len : ℕ) (cs : List String) (ts : List PhysicalType) :
    ∃ ws gs, ws ≠ [] ∧ KindReads len (.compositePrefix cs ts) ws gs := by
  have h₁ : asBytes "\"type\":\"composite_prefix\",\"source_columns\":["
      = memberText "type" (asBytes (jsonString "composite_prefix"))
        ++ 0x2C :: (asBytes (jsonString "source_columns") ++ [0x3A, 0x5B]) := by decide +kernel
  have h₂ : asBytes "],\"physical_types\":["
      = 0x5D :: 0x2C :: (asBytes (jsonString "physical_types") ++ [0x3A, 0x5B]) := by decide +kernel
  have h₃ : asBytes "]" = [0x5D] := by decide
  have htypes : ∀ v ∈ ts.map PhysicalType.asStr, Clean v :=
    List.forall_mem_map.mpr fun t _ => t.clean
  have harray := @reads_stringArray Ended len (ts.map PhysicalType.asStr)
  rw [orRefused, if_pos htypes] at harray
  have htype := isManifestMember len "type" (by decide)
    (reads_constant len (v := "composite_prefix") (by decide)) fun s => EntryFields.read.eq_4 len s
  have hcolumns := isManifestMember len "source_columns" (by decide) (reads_stringArray len cs)
    fun s => EntryFields.read.eq_8 len s
  have hlast := isManifestMember len "physical_types" (by decide) harray
    fun s => EntryFields.read.eq_9 len s
  refine ⟨_, _, by simp, ⟨?_, .cons htype (.cons hcolumns (.cons hlast .nil)), fun s => ?_⟩⟩
  · unfold IndexKind.writeJson
    simp only [asBytes_append, h₁, h₂, h₃, PhysicalType.quoted, asBytes_commaSeparated, List.map_map,
      joinComma, Function.comp_def]
    simp only [memberText, List.cons_append, List.append_assoc, List.nil_append]
  · exact fold_orRefused ..

/-- **The members of a kind.** -/
theorem kindReads (len : ℕ) {k : IndexKind} (hk : k.Valid) :
    ∃ ws gs, ws ≠ [] ∧ KindReads len k ws gs := by
  cases k with
  | sorted c t => exact kindReads_sorted len c t
  | bloomPage c x => exact kindReads_bloomPage len c hk
  | compositePrefix cs ts => exact kindReads_compositePrefix len cs ts
  | inverted c t => exact kindReads_inverted len c t

theorem kind_store {s : EntryFields} {k : IndexKind} (hk : k.Valid) {typ : String}
    (htyp : (s.store k).typ = some typ) : (s.store k).kind typ = pure k := by
  cases k with
  | sorted c t =>
    cases htyp
    simp [EntryFields.kind, EntryFields.store, member, PhysicalType.parse_asStr]
  | bloomPage c x =>
    cases htyp
    simp [EntryFields.kind, EntryFields.store, member]
  | compositePrefix cs ts =>
    cases htyp
    have hlen : cs.length = ts.length := hk
    simp [EntryFields.kind, EntryFields.store, member, compositeKind, mapM_parse, hlen]
  | inverted c t =>
    cases htyp
    simp [EntryFields.kind, EntryFields.store, member, Tokenizer.parse_asStr]

/-- An entry as the parser can take it. -/
structure IndexEntry.Valid (e : IndexEntry) : Prop where
  count : 1 ≤ e.sidecarRowGroupCount
  kind : e.kind.Valid

/-- The names in an entry. -/
def IndexEntry.names (e : IndexEntry) : List String := e.name :: e.kind.columns

/-- The members that every entry has. -/
def EntryFields.start (e : IndexEntry) : EntryFields where
  name := some e.name
  sidecarRowGroup := some e.sidecarRowGroup
  sidecarRowGroupCount := some e.sidecarRowGroupCount

theorem entry_store {e : IndexEntry} (he : e.Valid) :
    ((EntryFields.start e).store e.kind).entry = pure e := by
  obtain ⟨hcount, hkind⟩ := he
  have hmax : max e.sidecarRowGroupCount 1 = e.sidecarRowGroupCount := by
    change (if e.sidecarRowGroupCount ≤ 1 then 1 else e.sidecarRowGroupCount) = _
    split
    · next h => exact UInt32.le_antisymm hcount h
    · rfl
  have hstore : ∃ typ, ((EntryFields.start e).store e.kind).typ = some typ := by
    cases e.kind <;> exact ⟨_, rfl⟩
  have hfields : ∀ {s : EntryFields} {k}, (s.store k).name = s.name ∧
      (s.store k).sidecarRowGroup = s.sidecarRowGroup ∧
      (s.store k).sidecarRowGroupCount = s.sidecarRowGroupCount := by
    intro s k
    cases k <;> exact ⟨rfl, rfl, rfl⟩
  obtain ⟨typ, htyp⟩ := hstore
  obtain ⟨hname, hgroup, hgroups⟩ := @hfields (EntryFields.start e) e.kind
  rw [EntryFields.entry, hname, hgroup, hgroups, htyp]
  simp only [member, pure_bind, kind_store hkind htyp]
  simp only [EntryFields.start, pure_bind, Option.getD_some, hmax]

theorem entryText (e : IndexEntry) : asBytes e.writeJson
    = 0x7B :: (joinComma [memberText "name" (asBytes (jsonString e.name)),
        memberText "sidecar_row_group" (asBytes (toString e.sidecarRowGroup.toNat)),
        memberText "sidecar_row_group_count" (asBytes (toString e.sidecarRowGroupCount.toNat))]
      ++ 0x2C :: (asBytes e.kind.writeJson ++ [0x7D])) := by
  have h₁ : asBytes "\x7b\"name\":" = 0x7B :: (asBytes (jsonString "name") ++ [0x3A]) := by
    decide +kernel
  have h₂ : asBytes ",\"sidecar_row_group\":"
      = 0x2C :: (asBytes (jsonString "sidecar_row_group") ++ [0x3A]) := by decide +kernel
  have h₃ : asBytes ",\"sidecar_row_group_count\":"
      = 0x2C :: (asBytes (jsonString "sidecar_row_group_count") ++ [0x3A]) := by decide +kernel
  have h₄ : asBytes "," = [0x2C] := by decide
  have h₅ : asBytes "\x7d" = [0x7D] := by decide
  unfold IndexEntry.writeJson
  generalize toString e.sidecarRowGroup.toNat = a
  generalize toString e.sidecarRowGroupCount.toNat = b
  generalize e.kind.writeJson = k
  simp only [asBytes_append, h₁, h₂, h₃, h₄, h₅, joinComma, memberText]
  simp only [List.cons_append, List.append_assoc, List.nil_append]

/-- **An entry** is read back if its names are clean. -/
theorem reads_entry {follow : Bytes → Prop} (len : ℕ) {e : IndexEntry} (he : e.Valid) :
    Reads follow (orRefused (∀ v ∈ e.names, Clean v) e) (parseOneIndex len) (asBytes e.writeJson) := by
  obtain ⟨ws, gs, hne, htext, hmembers, hfold⟩ := kindReads len he.kind
  have hname := isManifestMember len "name" (by decide) (reads_manifestStr len e.name)
    fun s => EntryFields.read.eq_1 len s
  have hgroup := isManifestMember len "sidecar_row_group" (by decide)
    (reads_jsonU32 len e.sidecarRowGroup) fun s => EntryFields.read.eq_2 len s
  have hcount := isManifestMember len "sidecar_row_group_count" (by decide)
    (reads_jsonU32 len e.sidecarRowGroupCount) fun s => EntryFields.read.eq_3 len s
  have hobject := @reads_object _ _ follow EntryFields manifestJson len (EntryFields.read len) _ _
    (.cons hname (.cons hgroup (.cons hcount hmembers))) {}
  have htexts : asBytes e.writeJson = 0x7B :: (joinComma
      ([memberText "name" (asBytes (jsonString e.name)),
        memberText "sidecar_row_group" (asBytes (toString e.sidecarRowGroup.toNat)),
        memberText "sidecar_row_group_count" (asBytes (toString e.sidecarRowGroupCount.toNat))] ++ ws)
      ++ [0x7D]) := by
    rw [entryText, joinComma_append (by simp) hne, htext]
    simp only [List.cons_append, List.append_assoc]
  have hfields : ((fun s => (fun v => { s with name := some v }) <$> orRefused (Clean e.name) e.name) ::
      (fun s => (fun v => { s with sidecarRowGroup := some v }) <$> .ok e.sidecarRowGroup) ::
      (fun s => (fun v => { s with sidecarRowGroupCount := some v }) <$> .ok e.sidecarRowGroupCount) ::
      gs).foldlM (fun s g => g s) {}
      = orRefused (∀ v ∈ e.names, Clean v) ((EntryFields.start e).store e.kind) := by
    have hnames : (∀ v ∈ e.names, Clean v) ↔ Clean e.name ∧ ∀ v ∈ e.kind.columns, Clean v :=
      List.forall_mem_cons
    rw [orRefused_congr hnames, List.foldlM_cons]
    dsimp only
    rw [map_orRefused]
    exact orRefused_bind _ _ _ _ _ fun _ => hfold (EntryFields.start e)
  rw [hfields] at hobject
  rw [htexts]
  exact reads_complete hobject (entry_store he)

/-! ## Manifests -/

/-- A manifest as the parser can take it. -/
def IndexManifest.Valid (m : IndexManifest) : Prop := ∀ e ∈ m.indexes, e.Valid

/-- The names in a manifest. -/
def IndexManifest.names (m : IndexManifest) : List String := m.indexes.flatMap IndexEntry.names

theorem entry_head (e : IndexEntry) :
    ∃ b w, asBytes e.writeJson = b :: w ∧ isJsonSpace b = false ∧ b ≠ 0x5D := by
  rw [entryText]
  exact ⟨_, _, rfl, by decide, by decide⟩

theorem reads_indexes {follow : Bytes → Prop} (len : ℕ) {es : List IndexEntry}
    (h : ∀ e ∈ es, e.Valid) : Reads follow (orRefused (∀ e ∈ es, ∀ v ∈ e.names, Clean v) es)
      (parseIndexes len) (0x5B :: (joinComma (es.map fun e => asBytes e.writeJson) ++ [0x5D])) := by
  rw [← mapM_orRefused]
  refine reads_list (List.forall₂_map_left_iff.mpr (List.forall₂_map_right_iff.mpr ?_))
  exact List.forall₂_same.mpr fun e he => ⟨entry_head e, reads_entry len (h e he)⟩

theorem manifestText (m : IndexManifest) : asBytes m.toJson
    = 0x7B :: (joinComma [memberText "version" (asBytes (jsonString manifestVersion)),
        memberText "source_fingerprint" (asBytes m.sourceFingerprint.writeJson),
        memberText "indexes"
          (0x5B :: (joinComma (m.indexes.map fun e => asBytes e.writeJson) ++ [0x5D]))] ++ [0x7D]) := by
  have h₁ : asBytes "\x7b\"version\":\"" ++ asBytes manifestVersion
      = 0x7B :: (asBytes (jsonString "version") ++ 0x3A :: 0x22 :: asBytes manifestVersion) := by
    decide +kernel
  have h₂ : asBytes "\",\"source_fingerprint\":"
      = 0x22 :: 0x2C :: (asBytes (jsonString "source_fingerprint") ++ [0x3A]) := by decide +kernel
  have h₃ : asBytes ",\"indexes\":[" = 0x2C :: (asBytes (jsonString "indexes") ++ [0x3A, 0x5B]) := by
    decide +kernel
  have h₄ : asBytes "]\x7d" = [0x5D, 0x7D] := by decide
  have h₅ : asBytes (jsonString manifestVersion) = 0x22 :: (asBytes manifestVersion ++ [0x22]) := by
    decide +kernel
  unfold IndexManifest.toJson
  generalize m.sourceFingerprint.writeJson = a
  simp only [asBytes_append, h₁, h₂, h₃, h₄, h₅, asBytes_commaSeparated, List.map_map, joinComma,
    memberText, Function.comp_def]
  simp only [List.cons_append, List.append_assoc, List.nil_append]

/-- **A manifest** is read back if its names are clean, and refused otherwise. -/
theorem fromJson_toJson {m : IndexManifest} (hm : m.Valid) :
    IndexManifest.fromJson m.toJson = orRefused (∀ v ∈ m.names, Clean v) m := by
  have hnames : (∀ v ∈ m.names, Clean v) ↔ ∀ e ∈ m.indexes, ∀ v ∈ e.names, Clean v :=
    List.forall_mem_flatMap
  have hread : ∀ len, Reads (fun _ => True) (orRefused (∀ v ∈ m.names, Clean v) m)
      (jsonObject manifestJson len (ManifestFields.read len) {} >>= ManifestFields.manifest)
      (asBytes m.toJson) := by
    intro len
    have hversion := isManifestMember len "version" (by decide)
      (reads_constant len (v := manifestVersion) (by decide)) fun s => ManifestFields.read.eq_1 len s
    have hfingerprint := isManifestMember len "source_fingerprint" (by decide)
      (reads_fingerprint len m.sourceFingerprint) fun s => ManifestFields.read.eq_2 len s
    have hindexes := isManifestMember len "indexes" (by decide) (reads_indexes len hm)
      fun s => ManifestFields.read.eq_3 len s
    have hobject := @reads_object _ _ (fun _ => True) ManifestFields manifestJson len
      (ManifestFields.read len) _ _ (.cons hversion (.cons hfingerprint (.cons hindexes .nil))) {}
    have hfields : [fun s : ManifestFields => (fun v => { s with version := some v }) <$>
          (.ok manifestVersion : Except ManifestError String),
        fun s => (fun v => { s with fingerprint := some v }) <$> .ok m.sourceFingerprint,
        fun s => (fun v => { s with indexes := some v }) <$>
          orRefused (∀ e ∈ m.indexes, ∀ v ∈ e.names, Clean v) m.indexes].foldlM (fun s g => g s) {}
        = orRefused (∀ e ∈ m.indexes, ∀ v ∈ e.names, Clean v)
          { version := some manifestVersion, fingerprint := some m.sourceFingerprint,
            indexes := some m.indexes } := by
      by_cases h : ∀ e ∈ m.indexes, ∀ v ∈ e.names, Clean v
      · rw [orRefused, orRefused, if_pos h, if_pos h]
        rfl
      · rw [orRefused, orRefused, if_neg h, if_neg h]
        rfl
    rw [hfields] at hobject
    rw [manifestText, orRefused_congr hnames]
    exact reads_complete hobject rfl
  have hrun := hread (asBytes m.toJson).length [] trivial
  rw [List.append_nil] at hrun
  rw [IndexManifest.fromJson, hrun]
  cases orRefused (∀ v ∈ m.names, Clean v) m <;> rfl

/-- **The round trip** of a manifest. -/
theorem manifest_roundTrip {m : IndexManifest} (hm : m.Valid) :
    IndexManifest.fromJson m.toJson = .ok m ↔ ∀ v ∈ m.names, Clean v := by
  rw [fromJson_toJson hm, orRefused_eq_ok, and_iff_left rfl]

end

/-! ## A control character in a name -/

/-- The rate 0.01, printed and read. -/
@[reducible]
def FloatText.hundredth : FloatText where
  display _ := "0.01"
  parse s := if s = "0.01" then .ok ⟨0x3F847AE147AE147B⟩ else .error "invalid float literal"

/-- A Bloom index over the column `column`. -/
def oneBloom (column : String) : IndexManifest where
  sourceFingerprint := { footerLength := 700, footerCrc32 := 1, numRows := -1, numRowGroups := 2 }
  indexes := [
    { name := "by key", kind := .bloomPage column ⟨0x3F847AE147AE147B⟩, sidecarRowGroup := 0,
      sidecarRowGroupCount := 1 }]

theorem oneBloom_valid (column : String) : @IndexManifest.Valid FloatText.hundredth (oneBloom column) := by
  let _ := FloatText.hundredth
  refine List.forall_mem_singleton.mpr ⟨by simp, by decide, ?_, by decide⟩
  change ∀ b ∈ asBytes "0.01", isNumberByte b = true
  decide +kernel

/-- A quote, a line feed and a letter that is not ASCII. -/
theorem manifest_roundTrip_quoted :
    @IndexManifest.fromJson FloatText.hundredth
      (@IndexManifest.toJson FloatText.hundredth (oneBloom "\"\nß")) = .ok (oneBloom "\"\nß") :=
  (@manifest_roundTrip FloatText.hundredth _ (oneBloom_valid _)).mpr (by decide)

/-- The control character U+0001 is written as an escape that is not read. -/
theorem manifest_control :
    @IndexManifest.Valid FloatText.hundredth (oneBloom "\u0001") ∧
    @IndexManifest.fromJson FloatText.hundredth
      (@IndexManifest.toJson FloatText.hundredth (oneBloom "\u0001")) = .error unknownEscape := by
  let _ := FloatText.hundredth
  refine ⟨oneBloom_valid _, ?_⟩
  rw [fromJson_toJson (oneBloom_valid _), orRefused, if_neg (by decide)]

end EmatixParquet
