/-
  File-level pruning (`summary.rs`, `iceberg_rs.rs`) — which data files a query
  may skip, from the summaries of their extensions.

  * `couldContainRange_iff`: a summary rules a query out exactly where their
    intervals are disjoint;
  * `pruneDataFiles_sound`: no file that may hold an answer is skipped.
-/
import EmatixParquet.Iceberg.Extension
import EmatixParquet.Index.Types

namespace EmatixParquet

open Wire

/-! ## Summaries -/

/-- The type of an end, as the errors name it. -/
def SummaryKey.variantName : SummaryKey → String
  | i64 _ => "I64"
  | i32 _ => "I32"
  | bytes _ => "Bytes"

/-- The key of an end. -/
def SummaryKey.asKey : SummaryKey → Key
  | i64 v => .i64 v
  | i32 v => .i32 v
  | bytes b => .bytes b

/-- The type of a key, as the errors name it. -/
def keyVariantName : Key → String
  | .i64 _ => "I64"
  | .i32 _ => "I32"
  | .bytes _ => "Bytes"

/-- Keys of two types are not compared. -/
def keyLt : Key → Key → Bool
  | .i64 a, .i64 b => a < b
  | .i32 a, .i32 b => a < b
  | .bytes a, .bytes b => a < b
  | _, _ => false

/-- `key_gt`: keys of two types are in no order. -/
def keyGt : Key → Key → Bool
  | .i64 a, .i64 b => a > b
  | .i32 a, .i32 b => a > b
  | .bytes a, .bytes b => a > b
  | _, _ => false

namespace IndexSummary

/-- The key of a query has to have the type of the ends. -/
def checkType (s : IndexSummary) (bound : SummaryKey) (query : Key) :
    Except IcebergIndexError Unit :=
  match bound, query with
  | .i64 _, .i64 _ | .i32 _, .i32 _ | .bytes _, .bytes _ => .ok ()
  | bound, query => .error (.malformed
      s!"summary `{s.name}` has bound type {bound.variantName} but query key is {keyVariantName query}")

/-- Whether the query is on the far side of a bound, if there are both. -/
def beyond (s : IndexSummary) (far : Key → Key → Bool) (query : Option Key)
    (bound : Option SummaryKey) : Except IcebergIndexError Bool :=
  match query, bound with
  | some query, some bound => do
    s.checkType bound query
    pure (far query bound.asKey)
  | _, _ => .ok false

/-- `could_contain_eq`. -/
def couldContainEq (s : IndexSummary) (key : Key) : Except IcebergIndexError Bool := do
  if ← s.beyond keyLt (some key) s.minKey then return false
  if ← s.beyond keyGt (some key) s.maxKey then return false
  return true

/-- `could_contain_range`. -/
def couldContainRange (s : IndexSummary) (low high : Option Key) :
    Except IcebergIndexError Bool := do
  if ← s.beyond keyLt high s.minKey then return false
  if ← s.beyond keyGt low s.maxKey then return false
  return true

end IndexSummary

/-- The first summary of that name. -/
def EmatixDataFileExtension.summary (e : EmatixDataFileExtension) (name : String) :
    Option IndexSummary :=
  e.summaries.find? fun s => s.name == name

/-! ## Data files -/

/-- `DataFile`: what pruning asks of it. -/
class DataFile (δ : Type) where
  keyMetadata : δ → Option Bytes

section
variable {δ : Type} [DataFile δ]

/-- `extract_extension`: the extension in the key metadata of a file. -/
def extractExtension (df : δ) : Except IcebergIndexError (Option EmatixDataFileExtension) :=
  match DataFile.keyMetadata df with
  | some bytes => decodeKeyMetadata bytes
  | none => .ok none

/-- A file is kept unless its summary rules the query out. -/
def keepsFile (couldContain : IndexSummary → Except IcebergIndexError Bool) (indexName : String)
    (df : δ) : Except IcebergIndexError Bool := do
  match ← extractExtension df with
  | none => return true
  | some ext =>
    match ext.summary indexName with
    | none => return true
    | some summary => couldContain summary

/-- `for df in files`. -/
def pruneDataFiles (couldContain : IndexSummary → Except IcebergIndexError Bool)
    (indexName : String) (kept : List δ) : List δ → Except IcebergIndexError (List δ)
  | [] => .ok kept
  | df :: files => do
    let keep ← keepsFile couldContain indexName df
    pruneDataFiles couldContain indexName (if keep then kept ++ [df] else kept) files

/-- `prune_data_files_eq`. -/
def pruneDataFilesEq (files : List δ) (indexName : String) (key : Key) :
    Except IcebergIndexError (List δ) :=
  pruneDataFiles (fun summary => summary.couldContainEq key) indexName [] files

/-- `prune_data_files_range`. -/
def pruneDataFilesRange (files : List δ) (indexName : String) (low high : Option Key) :
    Except IcebergIndexError (List δ) :=
  pruneDataFiles (fun summary => summary.couldContainRange low high) indexName [] files

end

/-! ## Comparisons -/

theorem keyGt_eq (a b : Key) : keyGt a b = keyLt b a := by
  cases a <;> cases b <;> rfl

/-- Keys of one type compare as they are ordered. -/
theorem keyLt_eq_false_iff {a b : Key} (h : a.physicalType = b.physicalType) :
    keyLt a b = false ↔ b ≤ a := by
  cases a with
  | i64 v =>
    cases b with
    | i64 w => exact decide_eq_false_iff_not.trans Std.not_lt
    | _ => cases h
  | i32 v =>
    cases b with
    | i32 w => exact decide_eq_false_iff_not.trans Std.not_lt
    | _ => cases h
  | bytes v =>
    cases b with
    | bytes w => exact decide_eq_false_iff_not.trans Std.not_lt
    | _ => cases h

theorem checkType_eq_ok {s : IndexSummary} {bound : SummaryKey} {query : Key}
    (h : query.physicalType = bound.asKey.physicalType) : s.checkType bound query = .ok () := by
  cases bound <;> cases query <;> first | rfl | cases h

/-- `far` leaves the queries that are at the bound or on its near side. -/
theorem beyond_ok {far : Key → Key → Bool} {near : Key → Key → Prop}
    (hfar : ∀ {a b : Key}, a.physicalType = b.physicalType → (far a b = false ↔ near a b))
    (s : IndexSummary) {query : Option Key} {bound : Option SummaryKey}
    (hty : ∀ q ∈ query, ∀ b ∈ bound, q.physicalType = b.asKey.physicalType) :
    ∃ out, s.beyond far query bound = .ok out ∧
      (out = false ↔ ∀ q ∈ query, ∀ b ∈ bound, near q b.asKey) := by
  cases query with
  | none => exact ⟨false, rfl, by simp⟩
  | some q =>
    cases bound with
    | none => exact ⟨false, rfl, by simp⟩
    | some b =>
      have h := hty q rfl b rfl
      refine ⟨far q b.asKey, ?_, by simp [hfar h]⟩
      rw [IndexSummary.beyond, checkType_eq_ok h]
      rfl

/-! ## What a summary rules out -/

namespace IndexSummary

/-- The lower end, if it is known. -/
def low (s : IndexSummary) : Option Key := s.minKey.map SummaryKey.asKey

/-- The upper end, if it is known. -/
def high (s : IndexSummary) : Option Key := s.maxKey.map SummaryKey.asKey

/-- Within the recorded bounds. -/
def Within (s : IndexSummary) (v : Key) : Prop := Key.Between s.low s.high v

theorem couldContainEq_eq (s : IndexSummary) (key : Key) :
    s.couldContainEq key = s.couldContainRange (some key) (some key) := rfl

/-- Keys of one type are answered: the file may contain a match unless one
    interval ends before the other starts. -/
theorem couldContainRange_ok (s : IndexSummary) {ty : PhysicalType} {low high : Option Key}
    (hslow : ∀ b ∈ s.low, b.physicalType = ty) (hshigh : ∀ b ∈ s.high, b.physicalType = ty)
    (hlow : ∀ l ∈ low, l.physicalType = ty) (hhigh : ∀ h ∈ high, h.physicalType = ty) :
    ∃ out, s.couldContainRange low high = .ok out ∧
      (out = true ↔ (∀ b ∈ s.low, ∀ h ∈ high, b ≤ h) ∧ ∀ l ∈ low, ∀ b ∈ s.high, l ≤ b) := by
  have hmin : ∀ b ∈ s.minKey, b.asKey.physicalType = ty :=
    fun b hb => hslow b.asKey (Option.mem_map_of_mem _ hb)
  have hmax : ∀ b ∈ s.maxKey, b.asKey.physicalType = ty :=
    fun b hb => hshigh b.asKey (Option.mem_map_of_mem _ hb)
  obtain ⟨below, hbelow, hbelowIff⟩ := @beyond_ok keyLt (fun a b => b ≤ a)
    keyLt_eq_false_iff s high s.minKey fun q hq b hb => (hhigh q hq).trans (hmin b hb).symm
  obtain ⟨above, habove, haboveIff⟩ := @beyond_ok keyGt (fun a b => a ≤ b)
    (fun {a b} h => by rw [keyGt_eq, keyLt_eq_false_iff h.symm]) s low s.maxKey
    fun q hq b hb => (hlow q hq).trans (hmax b hb).symm
  have hrange : s.couldContainRange low high = .ok (!below && !above) := by
    unfold couldContainRange
    rw [hbelow, habove]
    cases below <;> cases above <;> rfl
  refine ⟨_, hrange, ?_⟩
  rw [Bool.and_eq_true, Bool.not_eq_true', Bool.not_eq_true', hbelowIff, haboveIff]
  simp only [IndexSummary.low, IndexSummary.high, Option.mem_map, forall_exists_index, and_imp,
    forall_apply_eq_imp_iff₂]
  exact and_congr_left' ⟨fun h b hb q hq => h q hq b hb, fun h q hq b hb => h b hb q hq⟩

/-- A value within the bounds that answers the query keeps the file. -/
theorem couldContainRange_of_within {s : IndexSummary} {low high : Option Key} {v : Key}
    (hv : s.Within v) (hquery : Key.Between low high v) :
    s.couldContainRange low high = .ok true := by
  obtain ⟨out, hout, hiff⟩ := s.couldContainRange_ok
    (fun b hb => Key.physicalType_eq_of_le (hv.1 b hb))
    (fun b hb => (Key.physicalType_eq_of_le (hv.2 b hb)).symm)
    (fun l hl => Key.physicalType_eq_of_le (hquery.1 l hl))
    (fun h hh => (Key.physicalType_eq_of_le (hquery.2 h hh)).symm)
  rw [hout, hiff.mpr ⟨fun b hb h hh => Key.le_trans (hv.1 b hb) (hquery.2 h hh),
    fun l hl b hb => Key.le_trans (hquery.1 l hl) (hv.2 b hb)⟩]

/-- **Exact.**  Ordered bounds rule an ordered query out where they have no key
    in common. -/
theorem couldContainRange_iff (s : IndexSummary) {ty : PhysicalType} {low high : Option Key}
    (hs : Key.Ends ty s.low s.high) (hquery : Key.Ends ty low high) :
    ∃ out, s.couldContainRange low high = .ok out ∧
      (out = false ↔ ¬ ∃ v, v.physicalType = ty ∧ s.Within v ∧ Key.Between low high v) := by
  obtain ⟨out, hout, hiff⟩ :=
    s.couldContainRange_ok hs.lowType hs.highType hquery.lowType hquery.highType
  refine ⟨out, hout, ?_⟩
  rw [← Bool.not_eq_true, hiff]
  exact not_congr (hs.meet_iff hquery).symm

end IndexSummary

/-! ## What is kept -/

section
variable {δ : Type} [DataFile δ]

/-- The files that must not be skipped: those that say nothing of the index, and
    those that may hold a value that answers the query. -/
inductive Needed (indexName : String) (answers : Key → Prop) (df : δ) : Prop where
  | noExtension (h : extractExtension df = .ok none)
  | noSummary (ext : EmatixDataFileExtension) (h : extractExtension df = .ok (some ext))
    (hs : ext.summary indexName = none)
  | value (ext : EmatixDataFileExtension) (s : IndexSummary) (v : Key)
    (h : extractExtension df = .ok (some ext)) (hs : ext.summary indexName = some s)
    (hv : s.Within v) (hanswers : answers v)

/-- Files are dropped, none that is needed. -/
structure Kept (files kept : List δ) (needed : δ → Prop) : Prop where
  sublist : kept.Sublist files
  keeps : ∃ keep : δ → Bool, kept = files.filter keep ∧ ∀ df ∈ files, needed df → keep df = true

/-- The answer for a file. -/
def keepAnswer (couldContain : IndexSummary → Except IcebergIndexError Bool) (indexName : String)
    (df : δ) : Bool :=
  (keepsFile couldContain indexName df).toOption.getD true

theorem pruneDataFiles_eq {couldContain : IndexSummary → Except IcebergIndexError Bool}
    {indexName : String} {files kept out : List δ}
    (h : pruneDataFiles couldContain indexName kept files = .ok out) :
    out = kept ++ files.filter (keepAnswer couldContain indexName) := by
  induction files generalizing kept with
  | nil =>
    cases h
    simp
  | cons df files ih =>
    obtain ⟨keep, hkeep, h⟩ := bind_eq_ok.mp h
    have hanswer : keepAnswer couldContain indexName df = keep := by
      rw [keepAnswer, hkeep]
      rfl
    rw [ih h, List.filter_cons, hanswer]
    cases keep <;> simp

/-- A needed file is kept, if the summaries of values that answer are. -/
theorem keepAnswer_of_needed {couldContain : IndexSummary → Except IcebergIndexError Bool}
    {indexName : String} {answers : Key → Prop} {df : δ}
    (hanswers : ∀ (s : IndexSummary) (v : Key), s.Within v → answers v → couldContain s = .ok true)
    (h : Needed indexName answers df) : keepAnswer couldContain indexName df = true := by
  have hkeeps : keepsFile couldContain indexName df = .ok true := by
    unfold keepsFile
    cases h with
    | noExtension h =>
      rw [h]
      rfl
    | noSummary ext h hs =>
      rw [h, ok_bind]
      dsimp only
      rw [hs]
      rfl
    | value ext s v h hs hv hv' =>
      rw [h, ok_bind]
      dsimp only
      rw [hs]
      exact hanswers s v hv hv'
  rw [keepAnswer, hkeeps]
  rfl

theorem kept_of_pruneDataFiles {couldContain : IndexSummary → Except IcebergIndexError Bool}
    {indexName : String} {answers : Key → Prop} {files kept : List δ}
    (hanswers : ∀ (s : IndexSummary) (v : Key), s.Within v → answers v → couldContain s = .ok true)
    (h : pruneDataFiles couldContain indexName [] files = .ok kept) :
    Kept files kept (Needed indexName answers) := by
  have hkept := pruneDataFiles_eq h
  rw [List.nil_append] at hkept
  refine ⟨hkept ▸ List.filter_sublist, _, hkept, fun df _ hneeded => ?_⟩
  exact keepAnswer_of_needed hanswers hneeded

/-- **Pruning is sound**, and its answer for ranges **exact**. -/
theorem pruneDataFiles_sound (files : List δ) (indexName : String) :
    (∀ key kept, pruneDataFilesEq files indexName key = .ok kept →
      Kept files kept (Needed indexName (· = key))) ∧
    (∀ low high kept, pruneDataFilesRange files indexName low high = .ok kept →
      Kept files kept (Needed indexName (Key.Between low high))) ∧
    ∀ (s : IndexSummary) (ty : PhysicalType) (low high : Option Key),
      Key.Ends ty s.low s.high → Key.Ends ty low high →
      ∃ out, s.couldContainRange low high = .ok out ∧
        (out = false ↔ ¬ ∃ v, v.physicalType = ty ∧ s.Within v ∧ Key.Between low high v) := by
  refine ⟨fun key kept h => kept_of_pruneDataFiles ?_ h,
    fun low high kept h => kept_of_pruneDataFiles ?_ h,
    fun s ty low high hs hquery => s.couldContainRange_iff hs hquery⟩
  · rintro s v hv rfl
    rw [s.couldContainEq_eq]
    exact IndexSummary.couldContainRange_of_within hv (by simp [Key.Between, Key.le_refl])
  · exact fun s v hv hquery => IndexSummary.couldContainRange_of_within hv hquery

end

/-- The key metadata of a file whose values of `k` lie between 10 and 20. -/
def sampleKeyMetadata : Bytes :=
  encodeKeyMetadata { sidecarRelativePath := "f", summaries :=
    [{ name := "k", minKey := some (.i64 10), maxKey := some (.i64 20), datasetBloom := none }] }

/-- A file that says nothing, and that one. -/
def sampleDataFiles : List (Option Bytes) := [none, some sampleKeyMetadata]

/-- No key of the query is between 10 and 20. -/
theorem pruneDataFiles_sound_sample :
    @Kept _ sampleDataFiles [none] (@Needed _ ⟨id⟩ "k" (· = .i64 5)) ∧
    @Kept _ sampleDataFiles [none] (@Needed _ ⟨id⟩ "k" (Key.Between (some (.i64 21)) none)) ∧
    ∃ out, IndexSummary.couldContainRange ⟨"k", some (.i64 10), some (.i64 20), none⟩
        (some (.i64 21)) none = .ok out ∧
      (out = false ↔ ¬ ∃ v, v.physicalType = .int64 ∧
        IndexSummary.Within ⟨"k", some (.i64 10), some (.i64 20), none⟩ v ∧
        Key.Between (some (.i64 21)) none v) := by
  let _ : DataFile (Option Bytes) := ⟨id⟩
  obtain ⟨hEq, hRange, hExact⟩ := pruneDataFiles_sound sampleDataFiles "k"
  have hkeptEq : pruneDataFilesEq sampleDataFiles "k" (.i64 5) = .ok [none] := by decide +kernel
  have hkeptRange : pruneDataFilesRange sampleDataFiles "k" (some (.i64 21)) none = .ok [none] := by
    decide +kernel
  have hle : Key.i64 10 ≤ Key.i64 20 := show (10 : Int64) ≤ 20 by decide
  have hbounds : Key.Ends .int64 (some (.i64 10)) (some (.i64 20)) :=
    ⟨by simp [Key.physicalType], by simp [Key.physicalType], by simpa using hle⟩
  have hquery : Key.Ends .int64 (some (.i64 21)) none :=
    ⟨by simp [Key.physicalType], by simp, by simp⟩
  exact ⟨hEq _ _ hkeptEq, hRange _ _ _ hkeptRange, hExact _ .int64 _ _ hbounds hquery⟩

end EmatixParquet
