/-
  Computations that may run forever.

  An execution either runs forever or ends with an outcome, a result or an error.

  * `whileDo turn s` takes turns from the state `s` on, up to the last;
  * `Ends Q x`: the execution ends, and its outcome satisfies `Q`; `Ends.bind` and
    `ends_whileDo`, with a number that falls from turn to turn, put executions
    together.
-/
import Mathlib.Tactic.Common

namespace Wire

variable {ε σ α β : Type}

/-- An execution, which may run forever. -/
abbrev Exec (ε α : Type) := ExceptT ε Option α

/-- The execution that ends at once. -/
def ended (r : Except ε α) : Exec ε α := ExceptT.mk (some r)

theorem ended_inj {r r' : Except ε α} : (ended r : Exec ε α) = ended r' ↔ r = r' := by
  constructor
  · intro h
    exact Option.some.inj h
  · rintro rfl
    rfl

@[simp] theorem ended_ok_bind (a : α) (f : α → Exec ε β) : (ended (.ok a) >>= f) = f a := rfl

@[simp] theorem ended_error_bind (e : ε) (f : α → Exec ε β) :
    (ended (.error e) >>= f) = ended (.error e) := rfl

/-- What a loop does in one turn: it goes on with a state (`inl`), or is done. -/
structure WhileLoop (ε σ β : Type) where
  turn : σ → Exec ε (σ ⊕ β)

/-- Turn after turn, until one of them is the last. -/
def WhileLoop.run (loop : WhileLoop ε σ β) (s : σ) : Exec ε β := do
  match ← loop.turn s with
  | .inl s' => loop |>.run s'
  | .inr b => pure b
partial_fixpoint

/-- `while`: turns until one of them breaks. -/
def whileDo (turn : σ → Exec ε (σ ⊕ β)) : σ → Exec ε β := WhileLoop.run ⟨turn⟩

section
variable {turn : σ → Exec ε (σ ⊕ β)} {s s' : σ}

/-- A loop unfolds to one turn. -/
theorem whileDo_eq (turn : σ → Exec ε (σ ⊕ β)) (s : σ) :
    whileDo turn s = (turn s >>= Sum.elim (whileDo turn) pure) := by
  rw [whileDo, WhileLoop.run]
  refine bind_congr fun r => ?_
  cases r <;> rfl

theorem whileDo_of_inl (h : turn s = ended (.ok (.inl s'))) :
    whileDo turn s = whileDo turn s' := by
  rw [whileDo_eq, h]
  rfl

theorem whileDo_of_inr {b : β} (h : turn s = ended (.ok (.inr b))) :
    whileDo turn s = ended (.ok b) := by
  rw [whileDo_eq, h]
  rfl

theorem whileDo_of_error {e : ε} (h : turn s = ended (.error e)) :
    whileDo turn s = ended (.error e) := by
  rw [whileDo_eq, h]
  rfl

end

/-- The execution ends with an outcome that satisfies `Q`. -/
def Ends (Q : Except ε α → Prop) (x : Exec ε α) : Prop := ∃ r, x = ended r ∧ Q r

theorem ends_ended {Q : Except ε α → Prop} {r : Except ε α} (h : Q r) : Ends Q (ended r) :=
  ⟨r, rfl, h⟩

theorem Ends.bind {P : Except ε α → Prop} {Q : Except ε β → Prop} {x : Exec ε α}
    {f : α → Exec ε β} (hx : Ends P x) (hok : ∀ a, P (.ok a) → Ends Q (f a))
    (herror : ∀ e, P (.error e) → Q (.error e)) : Ends Q (x >>= f) := by
  obtain ⟨r, rfl, hr⟩ := hx
  cases r with
  | ok a => exact hok a hr
  | error e => exact ends_ended (herror e hr)

/-- What a turn from `s` leads to: another state of the loop, further on, or the end. -/
def Turned (I : σ → Prop) (m : σ → ℕ) (Q : Except ε β → Prop) (s : σ) :
    Except ε (σ ⊕ β) → Prop
  | .ok (.inl s') => I s' ∧ m s' < m s
  | .ok (.inr b) => Q (.ok b)
  | .error e => Q (.error e)

/-- **A loop ends** if each turn ends and makes `m` smaller, by induction on `m`. -/
theorem ends_whileDo {turn : σ → Exec ε (σ ⊕ β)} {I : σ → Prop} {m : σ → ℕ}
    {Q : Except ε β → Prop} (hturn : ∀ s, I s → Ends (Turned I m Q s) (turn s)) {s : σ}
    (h : I s) : Ends Q (whileDo turn s) := by
  obtain ⟨n, hn⟩ : ∃ n, m s < n := ⟨_, Nat.lt_succ_self _⟩
  induction n generalizing s with
  | zero => exact absurd hn (Nat.not_lt_zero _)
  | succ n ih =>
    obtain ⟨r, hr, hpost⟩ := hturn s h
    rcases r with e | (s' | b)
    · rw [whileDo_of_error hr]
      exact ends_ended hpost
    · rw [whileDo_of_inl hr]
      obtain ⟨hs', hlt⟩ := hpost
      exact ih hs' (by omega)
    · rw [whileDo_of_inr hr]
      exact ends_ended hpost

end Wire
