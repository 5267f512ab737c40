/-
  Lookups in a decoded index body (`index/reader.rs`): what a sorted column of
  values says of the rows beside it.

  * `run_equalRun`: the binary search and the walks around what it finds give
    the run of equal values;
  * `eqHits_eq`, `rangeHits_eq`: the hits are those of the rows whose value is
    the one that is looked up, or lies between the ends;
  * `compositeEqHits_eq`, `compositePrefixHits_eq`: the same of pairs.
-/
import EmatixParquet.Codec.Read
import EmatixParquet.Index.Rowset
import EmatixParquet.Wire.Search

namespace EmatixParquet

open Wire

/-- A page of the source, and rows of it. -/
structure IndexHit where
  rowGroup : UInt32
  page : UInt32
  rowset : Bytes
  deriving DecidableEq, Repr

/-- The three columns that every index with rowsets has. -/
structure IndexTargets where
  targetRgs : List Int32
  targetPages : List Int32
  rowsets : List Bytes
  deriving DecidableEq, Repr

namespace IndexTargets

/-- One row of them. -/
abbrev Row := Int32 × Int32 × Bytes

/-- The targets, row by row. -/
def rows (t : IndexTargets) : List Row := t.targetRgs.zip (t.targetPages.zip t.rowsets)

/-- As many rows as there are values. -/
structure Aligned (t : IndexTargets) (n : ℕ) : Prop where
  targetRgs : t.targetRgs.length = n
  targetPages : t.targetPages.length = n
  rowsets : t.rowsets.length = n

theorem Aligned.length_rows {t : IndexTargets} {n : ℕ} (h : t.Aligned n) : t.rows.length = n := by
  simp [rows, h.targetRgs, h.targetPages, h.rowsets]

end IndexTargets

/-- The hit of one row. -/
def toHit (format : RowsetFormat) (row : IndexTargets.Row) : Res CodecError IndexHit := do
  let rowset ← toBitmap row.2.2 format
  pure { rowGroup := row.1.toUInt32, page := row.2.1.toUInt32, rowset }

/-- `collect_hits`: the targets from `start` to `stop`, their row sets decoded. -/
def collectHits (t : IndexTargets) (start stop : ℕ) (format : RowsetFormat) :
    Res CodecError (List IndexHit) :=
  (List.range' start (stop - start)).mapM fun i => do
    let rg ← itemAt t.targetRgs i
    let page ← itemAt t.targetPages i
    let rowset ← itemAt t.rowsets i
    toHit format (rg, page, rowset)

/-- A run over indices is one over what they stand for. -/
theorem mapM_range' {ε α β : Type} {f : ℕ → Except ε β} {g : α → Except ε β} {xs : List α}
    {start : ℕ} (h : ∀ i x, xs[i]? = some x → f (start + i) = g x) :
    (List.range' start xs.length).mapM f = xs.mapM g := by
  induction xs generalizing start with
  | nil => rfl
  | cons x xs ih =>
    have hhead : f start = g x := h 0 x rfl
    have htail : ∀ i y, xs[i]? = some y → f (start + 1 + i) = g y := by
      intro i y hy
      rw [Nat.add_assoc, Nat.add_comm 1 i]
      exact h (i + 1) y (by simpa using hy)
    rw [List.length_cons, List.range'_succ, List.mapM_cons, List.mapM_cons, hhead, ih htail]

/-- **The hits of an interval** of rows. -/
theorem collectHits_eq {t : IndexTargets} {n start stop : ℕ} (h : t.Aligned n) (hstop : stop ≤ n)
    (format : RowsetFormat) :
    collectHits t start stop format = ((t.rows.take stop).drop start).mapM (toHit format) := by
  have hlen : ((t.rows.take stop).drop start).length = stop - start := by
    rw [List.length_drop, List.length_take, h.length_rows, Nat.min_eq_left hstop]
  rw [collectHits, ← hlen]
  refine mapM_range' fun i row hrow => ?_
  obtain ⟨hi, -⟩ := List.getElem?_eq_some_iff.mp hrow
  rw [hlen] at hi
  have hrgs := h.targetRgs
  have hpages := h.targetPages
  have hrowsets := h.rowsets
  rw [List.getElem?_drop, List.getElem?_take_of_lt (by omega), IndexTargets.rows,
    List.getElem?_zip_eq_some] at hrow
  obtain ⟨hrg, hrest⟩ := hrow
  obtain ⟨hpage, hrowset⟩ := List.getElem?_zip_eq_some.mp hrest
  rw [itemAt, hrg, itemAt, hpage, itemAt, hrowset]
  rfl

/-- The hits of a run of keys are those of the rows whose key satisfies it. -/
theorem collectHits_run {κ : Type} {p : κ → Bool} {keys : List κ} {t : IndexTargets}
    {start stop : ℕ} (h : t.Aligned keys.length) (hrun : Wire.Run p keys start stop)
    (format : RowsetFormat) :
    collectHits t start stop format
      = ((keys.zip t.rows).filter fun r => p r.1).mapM fun r => toHit format r.2 := by
  have hkeys : (keys.zip t.rows).map Prod.fst = keys := List.map_fst_zip (by rw [h.length_rows])
  have hrows : (keys.zip t.rows).map Prod.snd = t.rows := List.map_snd_zip (by rw [h.length_rows])
  rw [← hkeys] at hrun
  rw [collectHits_eq h (by rw [← hkeys]; exact hrun.stop_le), ← hrun.rows]
  conv_lhs => rw [← hrows, ← List.map_take, ← List.map_drop, List.mapM_map]
  rfl

/-! ## One column of values -/

/-- A decoded body: the values in order, and where they are. -/
structure LoadedTyped (κ : Type) extends IndexTargets where
  values : List κ
  deriving DecidableEq, Repr

section
variable {κ : Type}

namespace LoadedTyped

/-- There are as many targets as keys. -/
def Aligned (d : LoadedTyped κ) : Prop := d.toIndexTargets.Aligned d.values.length

/-- The values with their rows. -/
def entries (d : LoadedTyped κ) : List (κ × IndexTargets.Row) := d.values.zip d.rows

end LoadedTyped

/-- `binary_search`, and the walks to both sides of what it finds. -/
def equalRun [Ord κ] [DecidableEq κ] (values : List κ) (target : κ) : Option (ℕ × ℕ) :=
  match binarySearchBy (fun v => compare v target) values with
  | .error _ => none
  | .ok pos => some (walkBack (fun v => decide (v = target)) values pos,
      walkOn (fun v => decide (v = target)) values values.length (pos + 1))

/-- The targets of one key. -/
def eqHits [Ord κ] [DecidableEq κ] (d : LoadedTyped κ) (target : κ) (format : RowsetFormat) :
    Res CodecError (List IndexHit) :=
  match equalRun d.values target with
  | some (start, stop) => collectHits d.toIndexTargets start stop format
  | none => .ok []

/-- The targets of the keys from `lo` to `hi`. -/
def rangeHits [LE κ] [LT κ] [DecidableLE κ] [DecidableLT κ] (d : LoadedTyped κ) (lo hi : κ)
    (format : RowsetFormat) : Res CodecError (List IndexHit) :=
  collectHits d.toIndexTargets (partitionPoint (fun v => decide (v < lo)) d.values)
    (partitionPoint (fun v => decide (v ≤ hi)) d.values) format

end

/-- `eq_hits_i64`. -/
def eqHitsI64 : LoadedTyped Int64 → Int64 → RowsetFormat → Res CodecError (List IndexHit) := eqHits

/-- `eq_hits_i32`. -/
def eqHitsI32 : LoadedTyped Int32 → Int32 → RowsetFormat → Res CodecError (List IndexHit) := eqHits

/-- `eq_hits_bytes`. -/
def eqHitsBytes : LoadedTyped Bytes → Bytes → RowsetFormat → Res CodecError (List IndexHit) := eqHits

/-- `inverted_eq_hits`. -/
def invertedEqHits : LoadedTyped Bytes → Bytes → RowsetFormat → Res CodecError (List IndexHit) :=
  eqHits

/-- `range_hits_i64`. -/
def rangeHitsI64 :
    LoadedTyped Int64 → Int64 → Int64 → RowsetFormat → Res CodecError (List IndexHit) := rangeHits

/-- `range_hits_i32`. -/
def rangeHitsI32 :
    LoadedTyped Int32 → Int32 → Int32 → RowsetFormat → Res CodecError (List IndexHit) := rangeHits

/-- `range_hits_bytes`. -/
def rangeHitsBytes :
    LoadedTyped Bytes → Bytes → Bytes → RowsetFormat → Res CodecError (List IndexHit) := rangeHits

section
variable {κ : Type} [Ord κ] [LE κ] [LT κ] [DecidableLE κ] [DecidableLT κ] [DecidableEq κ]
  [Std.IsLinearOrder κ] [Std.LawfulOrderLT κ] [Std.LawfulOrderOrd κ]

omit [DecidableLE κ] [DecidableLT κ] [DecidableEq κ] in
theorem ascending_of_pairwise {values : List κ} (h : values.Pairwise (· ≤ ·)) (target : κ) :
    Ascending (fun v => compare v target) values := by
  refine h.imp fun {a b} hab => ⟨fun hb => ?_, fun ha => ?_⟩
  · rw [Std.compare_eq_lt] at hb ⊢
    exact Std.lt_of_le_of_lt hab hb
  · rw [Std.compare_eq_gt] at ha ⊢
    exact Std.lt_of_lt_of_le ha hab

omit [DecidableLE κ] [DecidableLT κ] in
/-- **The run of equal values**; it is empty where there are none. -/
theorem run_equalRun {values : List κ} (h : values.Pairwise (· ≤ ·)) (target : κ) :
    Wire.Run (fun v => decide (v = target)) values ((equalRun values target).getD (0, 0)).1
      ((equalRun values target).getD (0, 0)).2 := by
  have hasc := ascending_of_pairwise h target
  rw [equalRun]
  cases hs : binarySearchBy (fun v => compare v target) values with
  | ok pos =>
    obtain ⟨x, hx, heq⟩ := binarySearchBy_ok hs
    exact run_duplicates hasc (fun v => by simp) hx heq
  | error pos =>
    obtain ⟨-, hall⟩ := binarySearchBy_error hasc hs
    refine ⟨Nat.le_refl _, Nat.zero_le _, fun {i v} hv => ⟨fun heq => ?_, fun hi => by simp at hi⟩⟩
    -- an element that is equal would be neither smaller nor greater
    obtain ⟨hlt, hgt⟩ := hall i v hv
    rw [decide_eq_true_eq] at heq
    rw [Std.compare_eq_iff_eq.mpr heq] at hlt hgt
    rcases Nat.lt_or_ge i pos with hi | hi
    · cases hlt hi
    · cases hgt hi

omit [DecidableLE κ] [DecidableLT κ] in
/-- **`eq_hits_*`** finds the rows of the value. -/
theorem eqHits_eq {d : LoadedTyped κ} (h : d.Aligned) (hsorted : d.values.Pairwise (· ≤ ·))
    (target : κ) (format : RowsetFormat) :
    eqHits d target format
      = (d.entries.filter fun r => r.1 = target).mapM fun r => toHit format r.2 := by
  have hrun := run_equalRun hsorted target
  rw [LoadedTyped.entries, ← collectHits_run h hrun format, eqHits]
  cases equalRun d.values target with
  | some run => rfl
  | none => rfl

omit [Ord κ] [DecidableEq κ] [Std.LawfulOrderOrd κ] in
/-- The values between two ends. -/
theorem run_between {values : List κ} (hsorted : values.Pairwise (· ≤ ·)) {lo hi : κ}
    (hle : lo ≤ hi) :
    Wire.Run (fun v => decide (lo ≤ v ∧ v ≤ hi)) values
      (partitionPoint (fun v => decide (v < lo)) values)
      (partitionPoint (fun v => decide (v ≤ hi)) values) := by
  have hlo : Wire.Run (fun v => decide (v < lo)) values 0
      (partitionPoint (fun v => decide (v < lo)) values) :=
    run_partitionPoint (hsorted.imp fun {a b} hab hb => by
      simp only [decide_eq_true_eq] at hb ⊢
      exact Std.lt_of_le_of_lt hab hb)
  have hhi : Wire.Run (fun v => decide (v ≤ hi)) values 0
      (partitionPoint (fun v => decide (v ≤ hi)) values) :=
    run_partitionPoint (hsorted.imp fun {a b} hab hb => by
      simp only [decide_eq_true_eq] at hb ⊢
      exact Std.le_trans hab hb)
  have hrun := hlo.between hhi (hlo.le_of_imp hhi fun v hv => by
    simp only [decide_eq_true_eq] at hv ⊢
    exact Std.le_trans (Std.le_of_lt hv) hle)
  have hboth : (fun v => decide (lo ≤ v ∧ v ≤ hi)) = fun v => !decide (v < lo) && decide (v ≤ hi) := by
    funext v
    rw [Bool.decide_and, ← decide_not, decide_eq_decide.mpr Std.not_lt]
  rwa [hboth]

omit [Ord κ] [DecidableEq κ] [Std.LawfulOrderOrd κ] in
/-- **`range_hits_*`** finds the rows between the ends. -/
theorem rangeHits_eq {d : LoadedTyped κ} (h : d.Aligned) (hsorted : d.values.Pairwise (· ≤ ·))
    {lo hi : κ} (hle : lo ≤ hi) (format : RowsetFormat) :
    rangeHits d lo hi format
      = (d.entries.filter fun r => lo ≤ r.1 ∧ r.1 ≤ hi).mapM fun r => toHit format r.2 :=
  collectHits_run h (run_between hsorted hle) format

omit [Ord κ] [Std.LawfulOrderOrd κ] in
/-- The values equal to one. -/
theorem run_partition {values : List κ} (hsorted : values.Pairwise (· ≤ ·)) (target : κ) :
    Wire.Run (fun v => decide (v = target)) values
      (partitionPoint (fun v => decide (v < target)) values)
      (partitionPoint (fun v => decide (v ≤ target)) values) := by
  have heq : (fun v => decide (v = target)) = fun v => decide (target ≤ v ∧ v ≤ target) := by
    funext v
    refine decide_eq_decide.mpr ⟨?_, fun h => Std.le_antisymm h.2 h.1⟩
    rintro rfl
    exact ⟨Std.le_refl _, Std.le_refl _⟩
  rw [heq]
  exact run_between hsorted (Std.le_refl _)

end

/-! ## Two columns of values -/

/-- A decoded body in the order of the pairs. -/
structure LoadedTypedCompositeI64I64 extends IndexTargets where
  valuesA : List Int64
  valuesB : List Int64
  deriving DecidableEq, Repr

namespace LoadedTypedCompositeI64I64

/-- The keys. -/
def pairs (d : LoadedTypedCompositeI64I64) : List (Int64 × Int64) := d.valuesA.zip d.valuesB

/-- The keys, with their targets. -/
def entries (d : LoadedTypedCompositeI64I64) : List ((Int64 × Int64) × IndexTargets.Row) :=
  d.pairs.zip d.rows

/-- All columns have as many rows, and the pairs are in order. -/
structure InOrder (d : LoadedTypedCompositeI64I64) : Prop where
  valuesB : d.valuesB.length = d.valuesA.length
  targets : d.toIndexTargets.Aligned d.valuesA.length
  sorted : d.pairs.Pairwise fun x y => x.1 < y.1 ∨ x.1 = y.1 ∧ x.2 ≤ y.2

end LoadedTypedCompositeI64I64

/-- `composite_eq_hits`. -/
def compositeEqHits (d : LoadedTypedCompositeI64I64) (a b : Int64) (format : RowsetFormat) :
    Res CodecError (List IndexHit) :=
  let aStart := partitionPoint (fun v => decide (v < a)) d.valuesA
  let aEnd := partitionPoint (fun v => decide (v ≤ a)) d.valuesA
  if aStart = aEnd then .ok []
  else do
    let bSlice ← slice d.valuesB aStart aEnd
    let bStartLocal := partitionPoint (fun v => decide (v < b)) bSlice
    let bEndLocal := partitionPoint (fun v => decide (v ≤ b)) bSlice
    if bStartLocal = bEndLocal then pure []
    else collectHits d.toIndexTargets (aStart + bStartLocal) (aStart + bEndLocal) format

/-- `composite_prefix_hits`. -/
def compositePrefixHits (d : LoadedTypedCompositeI64I64) (a : Int64) (format : RowsetFormat) :
    Res CodecError (List IndexHit) :=
  collectHits d.toIndexTargets (partitionPoint (fun v => decide (v < a)) d.valuesA)
    (partitionPoint (fun v => decide (v ≤ a)) d.valuesA) format

namespace LoadedTypedCompositeI64I64

variable {d : LoadedTypedCompositeI64I64}

theorem InOrder.map_fst (h : d.InOrder) : d.pairs.map Prod.fst = d.valuesA :=
  List.map_fst_zip h.valuesB.ge

theorem InOrder.map_snd (h : d.InOrder) : d.pairs.map Prod.snd = d.valuesB :=
  List.map_snd_zip h.valuesB.le

theorem InOrder.length_pairs (h : d.InOrder) : d.pairs.length = d.valuesA.length := by
  rw [← h.map_fst, List.length_map]

/-- The pairs with the given first value. -/
theorem InOrder.run_fst (h : d.InOrder) (a : Int64) :
    Wire.Run (fun x : Int64 × Int64 => decide (x.1 = a)) d.pairs
      (partitionPoint (fun v => decide (v < a)) d.valuesA)
      (partitionPoint (fun v => decide (v ≤ a)) d.valuesA) := by
  have hsorted : d.valuesA.Pairwise (· ≤ ·) := by
    rw [← h.map_fst, List.pairwise_map]
    refine h.sorted.imp fun {x y} hxy => ?_
    rcases hxy with hlt | ⟨heq, -⟩
    · exact Std.le_of_lt hlt
    · exact Std.le_of_eq heq
  have hrun := run_partition hsorted a
  obtain ⟨hle, hlen, hiff⟩ := hrun
  refine ⟨hle, hlen.trans h.length_pairs.ge, fun {i x} hx => hiff (x := x.1) ?_⟩
  rw [← h.map_fst, List.getElem?_map, hx]
  rfl

/-- Among them, the pairs with the given second value. -/
theorem InOrder.run_snd (h : d.InOrder) (a b : Int64) {start stop : ℕ}
    (hrun : Wire.Run (fun x : Int64 × Int64 => decide (x.1 = a)) d.pairs start stop) :
    Wire.Run (fun x : Int64 × Int64 => decide (x.2 = b)) ((d.pairs.take stop).drop start)
      (partitionPoint (fun v => decide (v < b)) ((d.valuesB.take stop).drop start))
      (partitionPoint (fun v => decide (v ≤ b)) ((d.valuesB.take stop).drop start)) := by
  have hmap : ((d.pairs.take stop).drop start).map Prod.snd = (d.valuesB.take stop).drop start := by
    rw [List.map_drop, List.map_take, h.map_snd]
  have hconst : ∀ x ∈ (d.pairs.take stop).drop start, x.1 = a := by
    intro x hx
    have hid : Wire.Run (fun x : Int64 × Int64 => decide (x.1 = a)) (d.pairs.map id) start stop := by
      rwa [List.map_id]
    rw [hid.rows] at hx
    simpa using (List.mem_filter.mp hx).2
  have hsorted : ((d.valuesB.take stop).drop start).Pairwise (· ≤ ·) := by
    rw [← hmap, List.pairwise_map]
    refine (h.sorted.sublist ((List.drop_sublist _ _).trans (List.take_sublist _ _))).imp_of_mem ?_
    intro x y hx hy hxy
    rcases hxy with hlt | ⟨-, hle⟩
    · rw [hconst x hx, hconst y hy] at hlt
      exact absurd hlt (Std.lt_irrefl)
    · exact hle
  obtain ⟨hle, hlen, hiff⟩ := run_partition hsorted b
  refine ⟨hle, hlen.trans (by rw [← hmap, List.length_map]), fun {i x} hx => hiff (x := x.2) ?_⟩
  rw [← hmap, List.getElem?_map, hx]
  rfl

end LoadedTypedCompositeI64I64

/-- An empty interval has no hits. -/
theorem collectHits_self (t : IndexTargets) (i : ℕ) (format : RowsetFormat) :
    collectHits t i i format = .ok [] := by
  rw [collectHits, Nat.sub_self]
  rfl

section
variable {d : LoadedTypedCompositeI64I64}

theorem compositePrefixHits_eq (h : d.InOrder) (a : Int64) (format : RowsetFormat) :
    compositePrefixHits d a format
      = (d.entries.filter fun r => r.1.1 = a).mapM fun r => toHit format r.2 :=
  collectHits_run (by rw [h.length_pairs]; exact h.targets) (h.run_fst a) format

theorem compositeEqHits_eq (h : d.InOrder) (a b : Int64) (format : RowsetFormat) :
    compositeEqHits d a b format
      = (d.entries.filter fun r => r.1 = (a, b)).mapM fun r => toHit format r.2 := by
  have hfst := h.run_fst a
  have hsnd := h.run_snd a b hfst
  have haligned : d.toIndexTargets.Aligned d.pairs.length := by
    rw [h.length_pairs]
    exact h.targets
  have hboth : (fun r : (Int64 × Int64) × IndexTargets.Row => decide (r.1 = (a, b)))
      = fun r => decide (r.1.1 = a) && decide (r.1.2 = b) := by
    funext r
    rw [← Bool.decide_and, decide_eq_decide]
    exact Prod.ext_iff
  have hhits := collectHits_run haligned (hfst.within hsnd) format
  rw [LoadedTypedCompositeI64I64.entries, hboth, ← hhits, compositeEqHits]
  have hlen := hfst.stop_le
  have hle := hfst.start_le
  rw [h.length_pairs] at hlen
  generalize partitionPoint (fun v => decide (v < a)) d.valuesA = aStart at *
  generalize partitionPoint (fun v => decide (v ≤ a)) d.valuesA = aEnd at *
  dsimp only
  by_cases hempty : aStart = aEnd
  · have hnil : (d.valuesB.take aEnd).drop aStart = [] := by
      rw [List.drop_eq_nil_iff, List.length_take]
      omega
    rw [if_pos hempty, hnil]
    exact (collectHits_self _ _ _).symm
  · have hvaluesB := h.valuesB
    rw [if_neg hempty, slice_ok hle (by omega), ok_bind]
    split
    · next heq =>
      rw [heq]
      exact (collectHits_self _ _ _).symm
    · rfl

end

end EmatixParquet
