/-
  Maps from keys to lists of values, filled one value at a time, and lists of
  keys in order.

  A map is the list of its entries, in the order of first insertion.

  * `lookup_groupAll`: under a key are the values pushed with it, in order;
  * `nodup_keys_groupAll`, `mem_keys_groupAll`: each pushed key has one entry;
  * `pairwise_sortKeys`: sorted keys are in order;
  * `mem_groupSorted`, `pairwise_keys_groupSorted`: the entries of a map that is
    kept in order.
-/
import Mathlib.Data.List.Sort
import Mathlib.Tactic.Common

namespace Wire

variable {κ β : Type}

/-! ## Grouping -/

section
variable [DecidableEq κ]

/-- `map.entry(k).or_default().push(v)`. -/
def pushAt (k : κ) (v : β) : List (κ × List β) → List (κ × List β)
  | [] => [(k, [v])]
  | (k', vs) :: m => if k' = k then (k', vs ++ [v]) :: m else (k', vs) :: pushAt k v m

/-- The map after a sequence of pushes. -/
def groupAll (m : List (κ × List β)) (ps : List (κ × β)) : List (κ × List β) :=
  ps.foldl (fun m p => pushAt p.1 p.2 m) m

/-- The values pushed with a key. -/
def valuesAt (k : κ) (ps : List (κ × β)) : List β :=
  (ps.filter fun p => p.1 = k).map Prod.snd

@[simp] theorem valuesAt_nil (k : κ) : valuesAt k ([] : List (κ × β)) = [] := rfl

theorem valuesAt_cons (k : κ) (p : κ × β) (ps : List (κ × β)) :
    valuesAt k (p :: ps) = if p.1 = k then p.2 :: valuesAt k ps else valuesAt k ps := by
  by_cases h : p.1 = k <;> simp [valuesAt, h]

theorem mem_valuesAt {k : κ} {v : β} {ps : List (κ × β)} : v ∈ valuesAt k ps ↔ (k, v) ∈ ps := by
  simp only [valuesAt, List.mem_map, List.mem_filter, decide_eq_true_eq]
  constructor
  · rintro ⟨⟨k', v'⟩, ⟨hp, rfl⟩, rfl⟩
    exact hp
  · intro h
    exact ⟨(k, v), ⟨h, rfl⟩, rfl⟩

theorem lookup_cons {β : Type} (k k' : κ) (v : β) (m : List (κ × β)) :
    ((k, v) :: m).lookup k' = if k = k' then some v else m.lookup k' := by
  by_cases h : k = k'
  · subst h
    rw [List.lookup_cons_self, if_pos rfl]
  · rw [if_neg h, List.lookup_cons, beq_eq_false_iff_ne.mpr (Ne.symm h)]

theorem lookup_pushAt (k k' : κ) (v : β) (m : List (κ × List β)) :
    (pushAt k v m).lookup k' = if k = k' then some ((m.lookup k).getD [] ++ [v])
      else m.lookup k' := by
  induction m with
  | nil => rw [pushAt, lookup_cons]; rfl
  | cons e m ih =>
    obtain ⟨k₀, vs⟩ := e
    rw [pushAt, lookup_cons k₀ k, lookup_cons k₀ k']
    by_cases h₀ : k₀ = k
    · subst h₀
      rw [if_pos rfl, if_pos rfl, lookup_cons]
      split <;> rfl
    · rw [if_neg h₀, if_neg h₀, lookup_cons, ih]
      by_cases h : k₀ = k'
      · subst h
        rw [if_pos rfl, if_neg (Ne.symm h₀)]
        simp
      · rw [if_neg h]
        simp [h]

theorem keys_pushAt (k : κ) (v : β) (m : List (κ × List β)) :
    (pushAt k v m).map Prod.fst
      = if k ∈ m.map Prod.fst then m.map Prod.fst else m.map Prod.fst ++ [k] := by
  induction m with
  | nil => rfl
  | cons e m ih =>
    obtain ⟨k₀, vs⟩ := e
    rw [pushAt]
    by_cases h₀ : k₀ = k
    · simp [h₀]
    · rw [if_neg h₀, List.map_cons, ih]
      simp only [List.map_cons, List.mem_cons, Ne.symm h₀, false_or]
      split <;> simp

/-- **What a map holds** after a sequence of pushes, under each key. -/
theorem getD_lookup_groupAll (k : κ) (m : List (κ × List β)) (ps : List (κ × β)) :
    ((groupAll m ps).lookup k).getD [] = (m.lookup k).getD [] ++ valuesAt k ps := by
  induction ps generalizing m with
  | nil => simp [groupAll]
  | cons p ps ih =>
    have hstep : groupAll m (p :: ps) = groupAll (pushAt p.1 p.2 m) ps := rfl
    rw [hstep, ih, lookup_pushAt, valuesAt_cons]
    by_cases h : p.1 = k <;> simp [h]

theorem nodup_keys_groupAll {m : List (κ × List β)} (hm : (m.map Prod.fst).Nodup)
    (ps : List (κ × β)) : ((groupAll m ps).map Prod.fst).Nodup := by
  induction ps generalizing m with
  | nil => exact hm
  | cons p ps ih =>
    refine ih ?_
    rw [keys_pushAt]
    split
    · exact hm
    · next h => exact List.nodup_append.mpr ⟨hm, List.nodup_singleton _, by
        intro a ha b hb hab
        rw [List.mem_singleton] at hb
        exact h (hb ▸ hab ▸ ha)⟩

theorem mem_keys_groupAll {k : κ} {m : List (κ × List β)} {ps : List (κ × β)} :
    k ∈ (groupAll m ps).map Prod.fst ↔ k ∈ m.map Prod.fst ∨ k ∈ ps.map Prod.fst := by
  induction ps generalizing m with
  | nil => simp [groupAll]
  | cons p ps ih =>
    have hstep : groupAll m (p :: ps) = groupAll (pushAt p.1 p.2 m) ps := rfl
    rw [hstep, ih, keys_pushAt, List.map_cons, List.mem_cons]
    split
    · next h =>
      constructor
      · tauto
      · rintro (h' | rfl | h')
        exacts [.inl h', .inl h, .inr h']
    · simp only [List.mem_append, List.mem_singleton]
      tauto

/-- The values of a key that was pushed. -/
theorem lookup_groupAll {k : κ} {ps : List (κ × β)} (h : k ∈ ps.map Prod.fst) :
    (groupAll [] ps).lookup k = some (valuesAt k ps) := by
  have hget := getD_lookup_groupAll k [] ps
  obtain ⟨e, he, rfl⟩ := List.mem_map.mp (mem_keys_groupAll.mpr (.inr h))
  cases hl : (groupAll [] ps).lookup e.1 with
  | none => simp [List.lookup_eq_none_iff] at hl; exact absurd rfl (hl _ _ he)
  | some vs => simpa [hl] using hget

end

/-! ## Keys in order -/

section
variable [Ord κ]

/-- The keys in ascending order. -/
def sortKeys (ks : List κ) : List κ := ks.insertionSort fun a b => (compare a b).isLE

theorem perm_sortKeys (ks : List κ) : (sortKeys ks).Perm ks := List.perm_insertionSort _ _

theorem mem_sortKeys {ks : List κ} {k : κ} : k ∈ sortKeys ks ↔ k ∈ ks :=
  (perm_sortKeys ks).mem_iff

variable [Std.TransOrd κ]

theorem pairwise_sortKeys (ks : List κ) :
    (sortKeys ks).Pairwise fun a b => (compare a b).isLE = true := by
  have : Std.Total fun a b : κ => (compare a b).isLE = true := ⟨fun a b => by
    cases h : compare a b <;> simp [Std.OrientedOrd.eq_swap (a := b), h]⟩
  have : IsTrans κ fun a b => (compare a b).isLE = true := ⟨fun _ _ _ => Std.TransOrd.isLE_trans⟩
  exact List.pairwise_insertionSort _ ks

end

/-! ## Maps in the order of their keys -/

section
variable [DecidableEq κ] [Ord κ]

/-- The entries of a map that was filled by these pushes, in the order of the
    keys. -/
def groupSorted (ps : List (κ × β)) : List (κ × List β) :=
  let m := groupAll [] ps
  (sortKeys (m.map Prod.fst)).map fun k => (k, (m.lookup k).getD [])

/-- Under each key that was pushed are the values pushed with it. -/
theorem mem_groupSorted {k : κ} {vs : List β} {ps : List (κ × β)} :
    (k, vs) ∈ groupSorted ps ↔ k ∈ ps.map Prod.fst ∧ vs = valuesAt k ps := by
  have hkeys : ∀ k, k ∈ sortKeys ((groupAll [] ps).map Prod.fst) ↔ k ∈ ps.map Prod.fst := by
    intro k
    rw [mem_sortKeys, mem_keys_groupAll]
    simp
  have hget : ∀ k, ((groupAll [] ps).lookup k).getD [] = valuesAt k ps := by
    intro k
    rw [getD_lookup_groupAll]
    rfl
  rw [groupSorted, List.mem_map]
  simp only [hkeys, hget, Prod.mk.injEq]
  constructor
  · rintro ⟨k', hk', rfl, rfl⟩
    exact ⟨hk', rfl⟩
  · rintro ⟨hk, rfl⟩
    exact ⟨k, hk, rfl, rfl⟩

/-- The keys are in strict order. -/
theorem pairwise_keys_groupSorted [Std.TransOrd κ] [Std.LawfulEqOrd κ] (ps : List (κ × β)) :
    ((groupSorted ps).map Prod.fst).Pairwise fun a b => compare a b = .lt := by
  have hkeys : (groupSorted ps).map Prod.fst = sortKeys ((groupAll [] ps).map Prod.fst) := by
    rw [groupSorted, List.map_map]
    exact List.map_id _
  have hnodup : (sortKeys ((groupAll [] ps).map Prod.fst)).Nodup :=
    (perm_sortKeys _).nodup_iff.mpr (nodup_keys_groupAll (by simp) ps)
  rw [hkeys]
  refine (List.pairwise_and_iff.mpr ⟨pairwise_sortKeys _, hnodup⟩).imp ?_
  rintro a b ⟨hle, hne⟩
  cases hab : compare a b with
  | lt => rfl
  | eq => exact absurd (Std.compare_eq_iff_eq.mp hab) hne
  | gt => simp [hab] at hle

end

end Wire
