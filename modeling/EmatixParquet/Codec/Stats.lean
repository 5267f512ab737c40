/-
  Column statistics (`write.rs`) — the least and the greatest value of a
  column, as bytes.

  * `statsOf_bounds`: the recorded pair are the least and the greatest value of
    the column.
-/
import EmatixParquet.Codec.Column
import Mathlib.Order.Bounds.Defs

namespace EmatixParquet

open Wire

/-- What the writer records of a column's values. -/
structure ColumnStats where
  min : Option Bytes := none
  max : Option Bytes := none
  nullCount : Int64 := 0
  deriving DecidableEq, Repr

/-- Both the deprecated pair and the current one. -/
def ColumnStats.asStatistics (s : ColumnStats) : Statistics where
  max := s.max
  min := s.min
  nullCount := some s.nullCount
  distinctCount := none
  maxValue := s.max
  minValue := s.min
  isMaxValueExact := s.max.map fun _ => true
  isMinValueExact := s.min.map fun _ => true

section
variable {α : Type}

/-- `if x < mn { mn = x }` over the rest of the column. -/
def foldMin (lt : α → α → Bool) (mn : α) (values : List α) : α :=
  values.foldl (fun mn x => if lt x mn then x else mn) mn

/-- `if x > mx { mx = x }`. -/
def foldMax (lt : α → α → Bool) (mx : α) (values : List α) : α :=
  values.foldl (fun mx x => if lt mx x then x else mx) mx

/-- `stats_{i32, i64, u64, byte_array}`. -/
def statsOf (lt : α → α → Bool) (bytes : α → Bytes) : List α → ColumnStats
  | [] => {}
  | first :: rest =>
    { min := some (bytes (foldMin lt first rest)), max := some (bytes (foldMax lt first rest)) }

end

/-- `stats_i32`. -/
def statsI32 : List Int32 → ColumnStats := statsOf (fun a b => decide (a < b)) toLeBytes

/-- `stats_i64`. -/
def statsI64 : List Int64 → ColumnStats := statsOf (fun a b => decide (a < b)) toLeBytes

/-- The comparison is unsigned. -/
def statsU64 : List UInt64 → ColumnStats := statsOf (fun a b => decide (a < b)) toLeBytes

/-- Unsigned lexicographic order; no length prefix. -/
def statsByteArray : List Bytes → ColumnStats := statsOf (fun a b => decide (a < b)) id

/-! ## Doubles and booleans -/

namespace F64

/-- Minus zero. -/
def negZero : F64 := ⟨0x8000000000000000⟩

/-- Zero. -/
def posZero : F64 := ⟨0⟩

/-- All exponent bits set, and some bit of the fraction. -/
def isNan (x : F64) : Bool := 0x7FF0000000000000 < (x.bits &&& 0x7FFFFFFFFFFFFFFF)

/-- The rank of a number among the numbers; both zeros have rank 0. -/
def rank (x : F64) : ℤ :=
  let magnitude := ((x.bits &&& 0x7FFFFFFFFFFFFFFF).toNat : ℤ)
  if x.bits < 0x8000000000000000 then magnitude else -magnitude

/-- `x < y`. -/
def lt (x y : F64) : Bool := !x.isNan && !y.isNan && decide (x.rank < y.rank)

end F64

/-- `m.map_or(x, |m| if better { x } else { m })`. -/
def keepBetter (better : F64 → F64 → Bool) (m : Option F64) (x : F64) : Option F64 :=
  match m with
  | none => some x
  | some m => some (if better x m then x else m)

/-- NaNs do not count; a least value of `+0.0` is stored as `-0.0`, a greatest
    value of `-0.0` as `+0.0`. -/
def statsF64 (values : List F64) : ColumnStats :=
  let numbers := values.filter fun x => !x.isNan
  let mn := numbers.foldl (keepBetter F64.lt) none
  let mx := numbers.foldl (keepBetter fun x m => m.lt x) none
  match mn, mx with
  | some mn, some mx =>
    let mn := if mn = F64.posZero then F64.negZero else mn
    let mx := if mx = F64.negZero then F64.posZero else mx
    { min := some (toLeBytes mn), max := some (toLeBytes mx) }
  | _, _ => {}

/-- `false < true`, in one byte. -/
def statsBool : List Bool → ColumnStats
  | [] => {}
  | values =>
    let anyTrue := values.any id
    let anyFalse := values.any (!·)
    { min := some [(!anyFalse).toUInt8], max := some [anyTrue.toUInt8] }

/-- `compute_stats`: by the order of the column's type. -/
def computeStats : ColumnData → ColumnStats
  | .i32 v => statsI32 v
  | .i64 v => statsI64 v
  | .u64 v => statsU64 v
  | .f64 v => statsF64 v
  | .bool v => statsBool v
  | .byteArray v => statsByteArray v

/-! ## Bounds -/

/-- The kept value is one of the values, and below all of them in an order whose
    strict part `lt` decides. -/
theorem foldMin_spec {α : Type} {lt : α → α → Bool} {le : α → α → Prop} (hrefl : ∀ a, le a a)
    (htrans : ∀ {a b c}, le a b → le b c → le a c) (hlt : ∀ {a b}, lt a b = true → le a b)
    (hge : ∀ {a b}, lt a b = false → le b a) (mn : α) (values : List α) :
    foldMin lt mn values ∈ mn :: values ∧ ∀ v ∈ mn :: values, le (foldMin lt mn values) v := by
  induction values generalizing mn with
  | nil =>
    refine ⟨by simp [foldMin], fun v hv => ?_⟩
    rw [List.mem_singleton.mp hv]
    exact hrefl _
  | cons x values ih =>
    have hfold : foldMin lt mn (x :: values) = foldMin lt (if lt x mn then x else mn) values := rfl
    obtain ⟨hmem, hlower⟩ := ih (if lt x mn then x else mn)
    have hkept : le (if lt x mn then x else mn) mn ∧ le (if lt x mn then x else mn) x := by
      by_cases h : lt x mn = true
      · rw [if_pos h]
        exact ⟨hlt h, hrefl x⟩
      · rw [if_neg h]
        exact ⟨hrefl mn, hge (Bool.eq_false_iff.mpr h)⟩
    have hhead := hlower _ List.mem_cons_self
    rw [hfold]
    refine ⟨?_, fun v hv => ?_⟩
    · rcases List.mem_cons.mp hmem with heq | hmem
      · rw [heq]
        split <;> simp
      · exact List.mem_cons_of_mem _ (List.mem_cons_of_mem _ hmem)
    · rcases List.mem_cons.mp hv with rfl | hv
      · exact htrans hhead hkept.1
      rcases List.mem_cons.mp hv with rfl | hv
      · exact htrans hhead hkept.2
      · exact hlower v (List.mem_cons_of_mem _ hv)

section
variable {α : Type} [LE α] [LT α] [DecidableLT α] [Std.IsLinearOrder α] [Std.LawfulOrderLT α]

theorem isLeast_foldMin (mn : α) (values : List α) :
    IsLeast {v | v ∈ mn :: values} (foldMin (fun a b => decide (a < b)) mn values) :=
  @foldMin_spec α _ (· ≤ ·) Std.le_refl Std.le_trans
    (fun h => Std.le_of_lt (of_decide_eq_true h)) (fun h => Std.not_lt.mp (of_decide_eq_false h))
    mn values

/-- The greatest value is the least of the opposite order. -/
theorem isGreatest_foldMax (mx : α) (values : List α) :
    IsGreatest {v | v ∈ mx :: values} (foldMax (fun a b => decide (a < b)) mx values) :=
  @foldMin_spec α (fun a b => decide (b < a)) (fun a b => b ≤ a) Std.le_refl
    (fun hab hbc => Std.le_trans hbc hab) (fun h => Std.le_of_lt (of_decide_eq_true h))
    (fun h => Std.not_lt.mp (of_decide_eq_false h)) mx values

/-- **Statistics bound the column.** -/
theorem statsOf_bounds {bytes : α → Bytes} {values : List α} (hne : values ≠ []) :
    ∃ mn mx, statsOf (fun a b => decide (a < b)) bytes values
        = { min := some (bytes mn), max := some (bytes mx) } ∧
      IsLeast {v | v ∈ values} mn ∧ IsGreatest {v | v ∈ values} mx := by
  obtain ⟨first, rest, rfl⟩ := List.exists_cons_of_ne_nil hne
  exact ⟨_, _, rfl, isLeast_foldMin first rest, isGreatest_foldMax first rest⟩

end

end EmatixParquet
