/-
  Searching a sorted list by halving, as the standard library does.

  `Run p xs start stop` says that the elements of `xs` that satisfy `p` are
  those from `start` on and before `stop`.

  * `binarySearchBy_ok`, `binarySearchBy_error`: what is found satisfies the
    comparison; where nothing is found, smaller elements come before and greater
    ones after;
  * `run_partitionPoint`: the elements before the partition point are those that
    satisfy the predicate;
  * `run_duplicates`: walking from a found element to both sides stops at the
    ends of the run of equal elements;
  * `Run.rows`: the rows of a run are the rows that satisfy the predicate;
  * `isLE_compare_list`: lists compare as they are ordered.
-/
import Mathlib.Data.List.Basic
import Mathlib.Order.Defs.LinearOrder
import Mathlib.Tactic.Common

namespace Wire

variable {α β : Type}

/-! ## Runs -/

/-- The elements that satisfy `p` are those in `start..stop`. -/
structure Run (p : α → Bool) (xs : List α) (start stop : ℕ) : Prop where
  start_le : start ≤ stop
  stop_le : stop ≤ xs.length
  iff : ∀ {i x}, xs[i]? = some x → (p x = true ↔ start ≤ i ∧ i < stop)

namespace Run

variable {p : α → Bool} {xs : List α} {start stop : ℕ}

/-- The rows of the run of a column. -/
theorem rows {key : β → α} {rs : List β} (h : Run p (rs.map key) start stop) :
    (rs.take stop).drop start = rs.filter fun r => p (key r) := by
  obtain ⟨hle, hstop, hiff⟩ := h
  rw [List.length_map] at hstop
  have hsplit : rs = rs.take start ++ ((rs.take stop).drop start ++ rs.drop stop) := by
    conv_lhs => rw [← List.take_append_drop stop rs, ← List.take_append_drop start (rs.take stop),
      List.take_take, Nat.min_eq_left hle, List.append_assoc]
  have hbefore : (rs.take start).filter (fun r => p (key r)) = [] := by
    rw [List.filter_eq_nil_iff]
    intro r hr hp
    obtain ⟨i, hi, rfl⟩ := List.getElem_of_mem hr
    rw [List.length_take] at hi
    have := (hiff (i := i) (x := key rs[i]) (by simp [show i < rs.length by omega])).mp
      (by simpa using hp)
    omega
  have hafter : (rs.drop stop).filter (fun r => p (key r)) = [] := by
    rw [List.filter_eq_nil_iff]
    intro r hr hp
    obtain ⟨i, hi, rfl⟩ := List.getElem_of_mem hr
    rw [List.length_drop] at hi
    have := (hiff (i := stop + i) (x := key rs[stop + i]) (by
      simp [show stop + i < rs.length by omega])).mp (by simpa using hp)
    omega
  have hinside : ((rs.take stop).drop start).filter (fun r => p (key r))
      = (rs.take stop).drop start := by
    rw [List.filter_eq_self]
    intro r hr
    obtain ⟨i, hi, rfl⟩ := List.getElem_of_mem hr
    rw [List.length_drop, List.length_take] at hi
    have hlt : start + i < rs.length := by omega
    have := (hiff (i := start + i) (x := key rs[start + i]) (by simp [hlt])).mpr
      ⟨by omega, by omega⟩
    simpa using this
  conv_rhs => rw [hsplit, List.filter_append, List.filter_append, hbefore, hinside, hafter]
  simp

/-- A run from the start is no longer than one whose predicate is weaker. -/
theorem le_of_imp {q : α → Bool} (hp : Run p xs 0 start) (hq : Run q xs 0 stop)
    (h : ∀ x, p x = true → q x = true) : start ≤ stop := by
  rcases Nat.eq_zero_or_pos start with hzero | hpos
  · omega
  · have hlt : start - 1 < xs.length := by have := hp.stop_le; omega
    have hget := List.getElem?_eq_getElem hlt
    have := (hq.iff hget).mp (h _ ((hp.iff hget).mpr ⟨by omega, by omega⟩))
    omega

/-- Two runs from the start make one between their ends. -/
theorem between {q : α → Bool} (hp : Run p xs 0 start) (hq : Run q xs 0 stop)
    (hle : start ≤ stop) : Run (fun x => !p x && q x) xs start stop where
  start_le := hle
  stop_le := hq.stop_le
  iff {i x} h := by
    have h₁ := hp.iff h
    have h₂ := hq.iff h
    cases hpx : p x <;> cases hqx : q x <;> simp [hpx, hqx] at h₁ h₂ ⊢ <;> omega

/-- A run inside a run. -/
theorem within {q : α → Bool} {start' stop' : ℕ} (hp : Run p xs start stop)
    (hq : Run q ((xs.take stop).drop start) start' stop') :
    Run (fun x => p x && q x) xs (start + start') (start + stop') := by
  have hlen : ((xs.take stop).drop start).length = stop - start := by
    rw [List.length_drop, List.length_take, Nat.min_eq_left hp.stop_le]
  have hle := hq.start_le
  have hstop := hq.stop_le
  have hstart := hp.start_le
  have hend := hp.stop_le
  refine ⟨by omega, by omega, fun {i x} hx => ?_⟩
  rw [Bool.and_eq_true, hp.iff hx]
  constructor
  · rintro ⟨hi, hqx⟩
    have hx' : ((xs.take stop).drop start)[i - start]? = some x := by
      rw [List.getElem?_drop, List.getElem?_take_of_lt (by omega), ← hx]
      congr 1
      omega
    have := (hq.iff hx').mp hqx
    omega
  · intro hi
    have hx' : ((xs.take stop).drop start)[i - start]? = some x := by
      rw [List.getElem?_drop, List.getElem?_take_of_lt (by omega), ← hx]
      congr 1
      omega
    exact ⟨by omega, (hq.iff hx').mpr (by omega)⟩

end Run

/-! ## Binary search -/

/-- `while size > 1`: the half that may hold the element, for at most `turns`
    turns. -/
def searchFrom (cmp : α → Ordering) (xs : List α) : ℕ → ℕ → ℕ → ℕ
  | 0, base, _ => base
  | turns + 1, base, size =>
    if 1 < size then
      let half := size / 2
      let mid := base + half
      let base := if xs[mid]?.map cmp = some .gt then base else mid
      searchFrom cmp xs turns base (size - half)
    else base

/-- The last comparison, at `base`. -/
def searchAt (cmp : α → Ordering) (xs : List α) (base : ℕ) : Except ℕ ℕ :=
  match xs[base]?.map cmp with
  | none => .error 0
  | some .eq => .ok base
  | some .lt => .error (base + 1)
  | some .gt => .error base

/-- `binary_search_by`: where an equal element is, or where one would be put. -/
def binarySearchBy (cmp : α → Ordering) (xs : List α) : Except ℕ ℕ :=
  searchAt cmp xs (searchFrom cmp xs xs.length 0 xs.length)

/-- Smaller elements come first, greater ones last. -/
def Ascending (cmp : α → Ordering) (xs : List α) : Prop :=
  xs.Pairwise fun a b => (cmp b = .lt → cmp a = .lt) ∧ (cmp a = .gt → cmp b = .gt)

section
variable {cmp : α → Ordering} {xs : List α}

theorem Ascending.of_getElem? (h : Ascending cmp xs) {i j : ℕ} {a b : α} (ha : xs[i]? = some a)
    (hb : xs[j]? = some b) (hij : i < j) :
    (cmp b = .lt → cmp a = .lt) ∧ (cmp a = .gt → cmp b = .gt) := by
  obtain ⟨hi, rfl⟩ := List.getElem?_eq_some_iff.mp ha
  obtain ⟨hj, rfl⟩ := List.getElem?_eq_some_iff.mp hb
  exact List.pairwise_iff_getElem.mp h i j hi hj hij

/-- **The search narrows down**: it ends at an element that is not greater, or
    at the first one, and all those after it are greater. -/
theorem searchFrom_spec (h : Ascending cmp xs) {turns base size : ℕ} (hturns : size ≤ turns)
    (hpos : 0 < size) (hend : base + size ≤ xs.length)
    (hbase : base = 0 ∨ ∀ x, xs[base]? = some x → cmp x ≠ .gt)
    (hafter : ∀ i x, xs[i]? = some x → base + size ≤ i → cmp x = .gt) :
    let i := searchFrom cmp xs turns base size
    i < xs.length ∧ (i = 0 ∨ ∀ x, xs[i]? = some x → cmp x ≠ .gt) ∧
      ∀ j x, xs[j]? = some x → i < j → cmp x = .gt := by
  induction turns generalizing base size with
  | zero => omega
  | succ turns ih =>
    rw [searchFrom]
    by_cases hsize : 1 < size
    · rw [if_pos hsize]
      dsimp only
      have hmid : base + size / 2 < xs.length := by omega
      have hget := List.getElem?_eq_getElem hmid
      by_cases hgt : cmp xs[base + size / 2] = .gt
      · rw [if_pos (by simp [hget, hgt])]
        refine ih (by omega) (by omega) (by omega) hbase fun i x hi hle => ?_
        rcases Nat.lt_or_ge (base + size / 2) i with hlt | hge
        · exact (h.of_getElem? hget hi hlt).2 hgt
        · obtain rfl : i = base + size / 2 := by omega
          rw [hget, Option.some.injEq] at hi
          rw [← hi, hgt]
      · rw [if_neg (by simp [hget, hgt])]
        refine ih (by omega) (by omega) (by omega) (.inr fun x hx => ?_) fun i x hi hle => ?_
        · rw [hget, Option.some.injEq] at hx
          rwa [← hx]
        · exact hafter i x hi (by omega)
    · rw [if_neg hsize]
      exact ⟨by omega, hbase, fun j x hj hlt => hafter j x hj (by omega)⟩

theorem binarySearchBy_ok {i : ℕ} (h : binarySearchBy cmp xs = .ok i) :
    ∃ x, xs[i]? = some x ∧ cmp x = .eq := by
  unfold binarySearchBy searchAt at h
  split at h
  · cases h
  · next hx =>
    obtain rfl := Except.ok.inj h
    exact Option.map_eq_some_iff.mp hx
  · cases h
  · cases h

/-- **Where an element would be put**: after the smaller ones, before the
    greater ones, and there are no others. -/
theorem binarySearchBy_error (hasc : Ascending cmp xs) {i : ℕ}
    (h : binarySearchBy cmp xs = .error i) :
    i ≤ xs.length ∧ ∀ j x, xs[j]? = some x → (j < i → cmp x = .lt) ∧ (i ≤ j → cmp x = .gt) := by
  rcases Nat.eq_zero_or_pos xs.length with hnil | hpos
  · rw [List.length_eq_zero_iff] at hnil
    subst hnil
    cases h
    exact ⟨Nat.le_refl _, fun j x hj => by simp at hj⟩
  · obtain ⟨hlt, hbase, hafter⟩ := searchFrom_spec hasc (Nat.le_refl _) hpos (by omega) (.inl rfl)
      fun j x hj hle => by
        obtain ⟨hj, -⟩ := List.getElem?_eq_some_iff.mp hj
        omega
    rw [binarySearchBy] at h
    generalize searchFrom cmp xs xs.length 0 xs.length = base at hlt hbase hafter h
    have hget := List.getElem?_eq_getElem hlt
    rw [searchAt, hget, Option.map_some] at h
    split at h
    · next hnone => cases hnone
    · cases h
    · next hcmp =>
      rw [Option.some.injEq] at hcmp
      obtain rfl := Except.error.inj h
      refine ⟨by omega, fun j x hj => ⟨fun hle => ?_, fun hle => hafter j x hj (by omega)⟩⟩
      rcases Nat.lt_or_ge j base with hjb | hjb
      · exact (hasc.of_getElem? hj hget hjb).1 hcmp
      · obtain rfl : j = base := by omega
        rw [hget, Option.some.injEq] at hj
        rw [← hj, hcmp]
    · next hcmp =>
      rw [Option.some.injEq] at hcmp
      obtain rfl := Except.error.inj h
      have hzero : base = 0 := hbase.resolve_right fun hne => hne _ hget hcmp
      subst hzero
      refine ⟨by omega, fun j x hj => ⟨fun hle => by omega, fun _ => ?_⟩⟩
      rcases Nat.eq_zero_or_pos j with rfl | hjpos
      · rw [hget, Option.some.injEq] at hj
        rw [← hj, hcmp]
      · exact hafter j x hj hjpos

end

/-! ## Partition points -/

/-- `partition_point`. -/
def partitionPoint (p : α → Bool) (xs : List α) : ℕ :=
  match binarySearchBy (fun x => if p x then .lt else .gt) xs with
  | .ok i => i
  | .error i => i

/-- **The partition point** of a list whose elements satisfy `p` up to some
    point. -/
theorem run_partitionPoint {p : α → Bool} {xs : List α}
    (h : xs.Pairwise fun a b => p b = true → p a = true) : Run p xs 0 (partitionPoint p xs) := by
  have hasc : Ascending (fun x => if p x then Ordering.lt else .gt) xs := by
    refine h.imp fun {a b} hab => ?_
    cases ha : p a <;> cases hb : p b <;> simp_all
  rw [partitionPoint]
  cases hs : binarySearchBy (fun x => if p x then Ordering.lt else .gt) xs with
  | ok i =>
    obtain ⟨x, -, hx⟩ := binarySearchBy_ok hs
    cases hp : p x <;> simp [hp] at hx
  | error i =>
    obtain ⟨hle, hall⟩ := binarySearchBy_error hasc hs
    refine ⟨Nat.zero_le _, hle, fun {j x} hj => ?_⟩
    obtain ⟨hlt, hge⟩ := hall j x hj
    dsimp only at hlt hge ⊢
    rcases Nat.lt_or_ge j i with hji | hji
    · have hx := hlt hji
      cases hp : p x <;> simp [hp] at hx ⊢
      exact hji
    · have hx := hge hji
      cases hp : p x <;> simp [hp] at hx ⊢
      exact hji

/-! ## Duplicates -/

/-- `while start > 0 && xs[start - 1] == target { start -= 1 }`. -/
def walkBack (p : α → Bool) (xs : List α) : ℕ → ℕ
  | 0 => 0
  | start + 1 => if xs[start]?.any p then walkBack p xs start else start + 1

/-- `while stop < xs.len() && xs[stop] == target { stop += 1 }`, for at most
    `turns` turns. -/
def walkOn (p : α → Bool) (xs : List α) : ℕ → ℕ → ℕ
  | 0, stop => stop
  | turns + 1, stop => if xs[stop]?.any p then walkOn p xs turns (stop + 1) else stop

section
variable {p : α → Bool} {xs : List α}

theorem walkBack_spec (start : ℕ) :
    walkBack p xs start ≤ start ∧
      (∀ j, walkBack p xs start ≤ j → j < start → xs[j]?.any p = true) ∧
      (walkBack p xs start = 0 ∨ xs[walkBack p xs start - 1]?.any p = false) := by
  induction start with
  | zero => exact ⟨Nat.le_refl _, fun j _ hj => absurd hj (Nat.not_lt_zero _), .inl rfl⟩
  | succ start ih =>
    obtain ⟨hle, hall, hend⟩ := ih
    rw [walkBack]
    by_cases h : xs[start]?.any p = true
    · rw [if_pos h]
      refine ⟨by omega, fun j hj hlt => ?_, hend⟩
      rcases Nat.lt_succ_iff_lt_or_eq.mp hlt with hlt | rfl
      · exact hall j hj hlt
      · exact h
    · rw [if_neg h]
      exact ⟨Nat.le_refl _, fun j hj hlt => by omega, .inr (by simpa using h)⟩

theorem walkOn_spec {turns stop : ℕ} (hturns : xs.length ≤ stop + turns) :
    stop ≤ walkOn p xs turns stop ∧
      (∀ j, stop ≤ j → j < walkOn p xs turns stop → xs[j]?.any p = true) ∧
      xs[walkOn p xs turns stop]?.any p = false := by
  induction turns generalizing stop with
  | zero =>
    refine ⟨Nat.le_refl _, fun j hj hlt => absurd hlt (Nat.not_lt.mpr hj), ?_⟩
    rw [walkOn, List.getElem?_eq_none_iff.mpr (by omega)]
    rfl
  | succ turns ih =>
    rw [walkOn]
    by_cases h : xs[stop]?.any p = true
    · obtain ⟨hle, hall, hend⟩ := @ih (stop + 1) (by omega)
      rw [if_pos h]
      refine ⟨by omega, fun j hj hlt => ?_, hend⟩
      rcases Nat.eq_or_lt_of_le hj with rfl | hj
      · exact h
      · exact hall j hj hlt
    · rw [if_neg h]
      exact ⟨Nat.le_refl _, fun j hj hlt => by omega, by simpa using h⟩

/-- **The run of equal elements** around one of them. -/
theorem run_duplicates {cmp : α → Ordering} (hasc : Ascending cmp xs)
    (hp : ∀ y, p y = true ↔ cmp y = .eq) {pos : ℕ} {x : α} (hx : xs[pos]? = some x)
    (heq : cmp x = .eq) :
    Run p xs (walkBack p xs pos) (walkOn p xs xs.length (pos + 1)) := by
  obtain ⟨hlen, -⟩ := List.getElem?_eq_some_iff.mp hx
  obtain ⟨hle, hback, hbackEnd⟩ := @walkBack_spec _ p xs pos
  obtain ⟨hge, hon, honEnd⟩ := @walkOn_spec _ p xs xs.length (pos + 1) (by omega)
  generalize walkBack p xs pos = start at hle hback hbackEnd ⊢
  generalize walkOn p xs xs.length (pos + 1) = stop at hge hon honEnd ⊢
  have hfails : ∀ {i : ℕ} {y : α}, xs[i]? = some y → xs[i]?.any p = false → cmp y ≠ .eq := by
    intro i y hy hany heq
    simp [hy, (hp y).mpr heq] at hany
  -- where the walks stop, the elements are smaller and greater
  have hbefore : ∀ {i : ℕ} {y : α}, xs[i]? = some y → i < start → cmp y = .lt := by
    intro i y hy hi
    obtain ⟨z, hz⟩ : ∃ z, xs[start - 1]? = some z := ⟨_, List.getElem?_eq_getElem (by omega)⟩
    have hzlt : cmp z = .lt := by
      cases hc : cmp z with
      | lt => rfl
      | eq => exact absurd hc (hfails hz (hbackEnd.resolve_left (by omega)))
      | gt => simp [(hasc.of_getElem? hz hx (by omega)).2 hc] at heq
    rcases Nat.lt_or_ge i (start - 1) with hlt | hge
    · exact (hasc.of_getElem? hy hz hlt).1 hzlt
    · obtain rfl : i = start - 1 := by omega
      rwa [Option.some.inj (hy.symm.trans hz)]
  have hafter : ∀ {i : ℕ} {y : α}, xs[i]? = some y → stop ≤ i → cmp y = .gt := by
    intro i y hy hi
    obtain ⟨hil, -⟩ := List.getElem?_eq_some_iff.mp hy
    obtain ⟨z, hz⟩ : ∃ z, xs[stop]? = some z := ⟨_, List.getElem?_eq_getElem (by omega)⟩
    have hzgt : cmp z = .gt := by
      cases hc : cmp z with
      | gt => rfl
      | eq => exact absurd hc (hfails hz honEnd)
      | lt => simp [(hasc.of_getElem? hx hz (by omega)).1 hc] at heq
    rcases Nat.lt_or_eq_of_le hi with hlt | rfl
    · exact (hasc.of_getElem? hz hy hlt).2 hzgt
    · rwa [Option.some.inj (hy.symm.trans hz)]
  refine ⟨by omega, ?_, fun {i y} hy => ⟨fun hpy => ⟨?_, ?_⟩, fun hi => ?_⟩⟩
  · by_contra hlt
    have hany := hon (stop - 1) (by omega) (by omega)
    rw [List.getElem?_eq_none_iff.mpr (by omega)] at hany
    cases hany
  · by_contra hlt
    have hlt := hbefore hy (by omega)
    simp [(hp y).mp hpy] at hlt
  · by_contra hge
    have hgt := hafter hy (by omega)
    simp [(hp y).mp hpy] at hgt
  · rcases Nat.lt_trichotomy i pos with hlt | rfl | hgt
    · simpa [hy] using hback i hi.1 hlt
    · rw [hx, Option.some.injEq] at hy
      rw [← hy, hp, heq]
    · simpa [hy] using hon i hgt hi.2

end

/-! ## Lists in dictionary order -/

section
variable [Ord α] [LE α] [LT α] [Std.IsLinearOrder α] [Std.LawfulOrderLT α] [Std.LawfulOrderOrd α]

/-- The dictionary order goes by the first elements that differ. -/
theorem isLE_compare_list (as bs : List α) : (compare as bs).isLE = true ↔ as ≤ bs := by
  induction as generalizing bs with
  | nil => cases bs <;> simp
  | cons a as ih =>
    cases bs with
    | nil => simp
    | cons b bs =>
      have ih := ih bs
      rw [List.compare_eq_compareLex] at ih ⊢
      rw [List.compareLex_cons_cons, List.cons_le_cons_iff, Ordering.isLE_then_iff_or, ← ih,
        Std.compare_eq_lt, Std.compare_eq_iff_eq]

/-- The order of lists agrees with their `compare`. -/
instance lawfulOrderOrdList : Std.LawfulOrderOrd (List α) where
  isLE_compare := isLE_compare_list
  isGE_compare as bs := by rw [← isLE_compare_list, Std.OrientedCmp.isGE_iff_isLE]

end

end Wire
