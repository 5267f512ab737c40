/-
  The values of index queries (`index/types.rs`) and their order.

  Keys of one physical type are ordered as the type is: the integers signed, the
  bytes lexicographically.  Keys of two types are not ordered.
-/
import EmatixParquet.Index.Manifest

namespace EmatixParquet

open Wire

/-- A key to look up. -/
inductive Key where
  | i64 (v : Int64)
  | i32 (v : Int32)
  | bytes (b : Bytes)
  deriving DecidableEq, Repr

namespace Key

/-- The type of the column that holds such keys. -/
def physicalType : Key → PhysicalType
  | i64 _ => .int64
  | i32 _ => .int32
  | bytes _ => .byteArray

/-- Keys of one type, in the order of that type. -/
protected def le : Key → Key → Prop
  | i64 a, i64 b => a ≤ b
  | i32 a, i32 b => a ≤ b
  | bytes a, bytes b => a ≤ b
  | _, _ => False

instance : LE Key := ⟨Key.le⟩

theorem physicalType_eq_of_le {a b : Key} (h : a ≤ b) : a.physicalType = b.physicalType := by
  cases a <;> cases b <;> first | rfl | exact h.elim

protected theorem le_refl (a : Key) : a ≤ a := by
  cases a with
  | i64 v => exact Std.le_refl v
  | i32 v => exact Std.le_refl v
  | bytes b => exact Std.le_refl b

protected theorem le_trans {a b c : Key} (hab : a ≤ b) (hbc : b ≤ c) : a ≤ c := by
  cases a <;> cases b <;> cases c <;> first
    | exact hab.elim
    | exact hbc.elim
    | exact Std.le_trans (α := Int64) hab hbc
    | exact Std.le_trans (α := Int32) hab hbc
    | exact Std.le_trans (α := Bytes) hab hbc

/-- The order is total on the keys of one type. -/
protected theorem le_total {a b : Key} (h : a.physicalType = b.physicalType) : a ≤ b ∨ b ≤ a := by
  cases a with
  | i64 v =>
    cases b with
    | i64 w => exact Std.le_total (α := Int64)
    | _ => cases h
  | i32 v =>
    cases b with
    | i32 w => exact Std.le_total (α := Int32)
    | _ => cases h
  | bytes v =>
    cases b with
    | bytes w => exact Std.le_total (α := Bytes)
    | _ => cases h

/-- There is a key of each type. -/
theorem exists_physicalType (ty : PhysicalType) : ∃ v : Key, v.physicalType = ty := by
  cases ty with
  | int32 => exact ⟨.i32 0, rfl⟩
  | int64 => exact ⟨.i64 0, rfl⟩
  | byteArray => exact ⟨.bytes [], rfl⟩

end Key

/-! ## Intervals of keys -/

/-- Between two ends, either of which may be open. -/
def Key.Between (low high : Option Key) (v : Key) : Prop :=
  (∀ l ∈ low, l ≤ v) ∧ ∀ h ∈ high, v ≤ h

/-- The ends that there are have one type and are in order. -/
structure Key.Ends (ty : PhysicalType) (low high : Option Key) : Prop where
  lowType : ∀ l ∈ low, l.physicalType = ty
  highType : ∀ h ∈ high, h.physicalType = ty
  ordered : ∀ l ∈ low, ∀ h ∈ high, l ≤ h

section
variable {ty : PhysicalType} {a b : Option Key}

/-- Unless both ends are open, one of them is the last in a total order: the
    greater of two low ends, the lesser of two high ends. -/
theorem Key.exists_last {r : Key → Key → Prop} (hrefl : ∀ x, r x x)
    (htotal : ∀ {x y : Key}, x.physicalType = y.physicalType → r x y ∨ r y x)
    (ha : ∀ x ∈ a, x.physicalType = ty) (hb : ∀ x ∈ b, x.physicalType = ty) :
    (a = none ∧ b = none) ∨ ∃ m, (m ∈ a ∨ m ∈ b) ∧ (∀ x ∈ a, r x m) ∧ ∀ x ∈ b, r x m := by
  cases a with
  | none =>
    cases b with
    | none => exact .inl ⟨rfl, rfl⟩
    | some y => exact .inr ⟨y, by simp [hrefl]⟩
  | some x =>
    cases b with
    | none => exact .inr ⟨x, by simp [hrefl]⟩
    | some y =>
      right
      rcases htotal ((ha x rfl).trans (hb y rfl).symm) with h | h
      · exact ⟨y, by simp [hrefl, h]⟩
      · exact ⟨x, by simp [hrefl, h]⟩

/-- Two intervals have a key in common if and only if each starts before the
    other ends. -/
theorem Key.Ends.meet_iff {low high low' high' : Option Key} (h : Key.Ends ty low high)
    (h' : Key.Ends ty low' high') :
    (∃ v, v.physicalType = ty ∧ Key.Between low high v ∧ Key.Between low' high' v) ↔
      (∀ l ∈ low, ∀ u ∈ high', l ≤ u) ∧ ∀ l ∈ low', ∀ u ∈ high, l ≤ u := by
  constructor
  · rintro ⟨v, -, ⟨hl, hu⟩, ⟨hl', hu'⟩⟩
    exact ⟨fun l hlow u hhigh => Key.le_trans (hl l hlow) (hu' u hhigh),
      fun l hlow u hhigh => Key.le_trans (hl' l hlow) (hu u hhigh)⟩
  · rintro ⟨hcross, hcross'⟩
    rcases Key.exists_last Key.le_refl Key.le_total h.lowType h'.lowType with ⟨rfl, rfl⟩ | ⟨m, hm, hle, hle'⟩
    · rcases @Key.exists_last ty _ _ (fun x y => y ≤ x) Key.le_refl
          (fun h => (Key.le_total h).symm) h.highType h'.highType
        with ⟨rfl, rfl⟩ | ⟨m, hm, hge, hge'⟩
      · obtain ⟨v, hv⟩ := Key.exists_physicalType ty
        exact ⟨v, hv, by simp [Key.Between]⟩
      · exact ⟨m, hm.elim (h.highType m) (h'.highType m), ⟨by simp, hge⟩, ⟨by simp, hge'⟩⟩
    · refine ⟨m, hm.elim (h.lowType m) (h'.lowType m), ⟨hle, fun u hu => ?_⟩,
        ⟨hle', fun u hu => ?_⟩⟩
      · exact hm.elim (h.ordered m · u hu) (hcross' m · u hu)
      · exact hm.elim (hcross m · u hu) (h'.ordered m · u hu)

end

end EmatixParquet
