/-
  Readers with checks.

  `E` are the failures of interest (panics, say), and `Fails E r` the inputs on
  which a reader fails that way.  A reader is calm when there are none;
  `Guarded E P r r'` says that `r'` is `r` with a check: it fails that way on the
  inputs of `P`, and does what `r` does on all others.

  Both are closed under the reader combinators; for a loop, `Loop.Meets` is
  what the check of one turn makes of the whole run (`Loop.guarded`).

  Where the inputs that fail are found by walking over the bytes, `Ahead r T p`
  says that the walk `r` from `p` comes to a place of `T`.
-/
import EmatixParquet.Wire.Reader
import Mathlib.Logic.Relation

namespace Wire

variable {ε α β σ : Type} {E : ε → Prop}

/-! ## Walks -/

section
variable {r : σ → σ → Prop} {T : σ → Prop} {p q : σ}

/-- A state of `T` lies on some path from `p`. -/
def Ahead (r : σ → σ → Prop) (T : σ → Prop) (p : σ) : Prop :=
  ∃ q, Relation.ReflTransGen r p q ∧ T q

theorem ahead_iff : Ahead r T p ↔ T p ∨ ∃ q, r p q ∧ Ahead r T q := by
  constructor
  · rintro ⟨q, hsteps, hq⟩
    rcases hsteps.cases_head with rfl | ⟨p', hstep, hrest⟩
    · exact .inl hq
    · exact .inr ⟨p', hstep, q, hrest, hq⟩
  · rintro (hp | ⟨p', hstep, q, hrest, hq⟩)
    · exact ⟨p, .refl, hp⟩
    · exact ⟨q, .head hstep hrest, hq⟩

/-- Where there is no step, what lies ahead is the place itself. -/
theorem ahead_of_stuck (h : ∀ q, ¬ r p q) : Ahead r T p ↔ T p := by
  rw [ahead_iff]
  simp [h]

theorem ahead_of_step (hp : ¬ T p) (hstep : r p q) (honly : ∀ p', r p p' → p' = q) :
    Ahead r T p ↔ Ahead r T q := by
  rw [ahead_iff]
  constructor
  · rintro (h | ⟨p', hp', h⟩)
    · exact absurd h hp
    · exact honly p' hp' ▸ h
  · exact fun h => .inr ⟨q, hstep, h⟩

end

namespace Reader

/-! ## The inputs that fail -/

/-- The reader fails on an input, with an error of `E`. -/
def Fails (E : ε → Prop) (r : Reader ε α) (bs : List UInt8) : Prop :=
  ∃ e, E e ∧ r.run bs = .error e

theorem not_fails_of_ok {r : Reader ε α} {bs : List UInt8} {p : α × List UInt8}
    (h : r.run bs = .ok p) : ¬ Fails E r bs := by
  rintro ⟨e, -, he⟩
  rw [h] at he
  cases he

theorem fails_of_error {r : Reader ε α} {bs : List UInt8} {e : ε} (h : r.run bs = .error e) :
    Fails E r bs ↔ E e := by
  constructor
  · rintro ⟨e', he, h'⟩
    cases h.symm.trans h'
    exact he
  · exact fun he => ⟨e, he, h⟩

theorem fails_bind {r : Reader ε α} {f : α → Reader ε β} {bs : List UInt8} :
    Fails E (r >>= f) bs ↔ Fails E r bs ∨ ∃ a mid, r.run bs = .ok (a, mid) ∧ Fails E (f a) mid := by
  cases hr : r.run bs with
  | error e => simp [Fails, run_bind, hr]
  | ok p =>
    obtain ⟨a, mid⟩ := p
    simp [Fails, run_bind, hr]

theorem fails_map {r : Reader ε α} {f : α → β} {bs : List UInt8} :
    Fails E (f <$> r) bs ↔ Fails E r bs := by
  cases hr : r.run bs with
  | error e => simp [Fails, run_map, hr]
  | ok p => simp [Fails, run_map, hr]

/-! ## Calm readers -/

/-- No input makes the reader fail with an error of `E`. -/
def Calm (E : ε → Prop) (r : Reader ε α) : Prop := ∀ bs e, r.run bs = .error e → ¬ E e

theorem Calm.not_fails {r : Reader ε α} (h : Calm E r) (bs : List UInt8) : ¬ Fails E r bs :=
  fun ⟨e, he, hrun⟩ => h bs e hrun he

theorem calm_pure (a : α) : Calm E (pure a : Reader ε α) := fun _ _ h => by cases h

theorem calm_fail {e : ε} (he : ¬ E e) : Calm E (fail e : Reader ε α) := by
  rintro bs _ ⟨⟩
  exact he

theorem calm_lift {x : Except ε α} (hx : ∀ e, x = .error e → ¬ E e) : Calm E (lift x) := by
  cases x with
  | ok a => exact calm_pure a
  | error e => exact calm_fail (hx e rfl)

theorem Calm.bind {r : Reader ε α} {f : α → Reader ε β} (hr : Calm E r) (hf : ∀ a, Calm E (f a)) :
    Calm E (r >>= f) := by
  intro bs e h
  rw [run_bind] at h
  split at h
  · next hrun =>
    cases h
    exact hr _ _ hrun
  · exact hf _ _ _ h

theorem Calm.map {r : Reader ε α} (f : α → β) (hr : Calm E r) : Calm E (f <$> r) := by
  intro bs e h
  rw [run_map] at h
  split at h
  · next hrun =>
    cases h
    exact hr _ _ hrun
  · cases h

theorem Calm.times {r : Reader ε α} (hr : Calm E r) (n : ℕ) : Calm E (r.times n) := by
  induction n with
  | zero => exact calm_pure []
  | succ n ih => exact hr.bind fun a => ih.map (a :: ·)

/-! ## Guarded readers -/

/-- `r'` is `r` with a check before it: it stops on `P` and agrees elsewhere. -/
structure Guarded (E : ε → Prop) (P : List UInt8 → Prop) (r r' : Reader ε α) : Prop where
  stops : ∀ {bs}, P bs → ∃ e, E e ∧ r'.run bs = .error e
  same : ∀ {bs}, ¬ P bs → r'.run bs = r.run bs

variable {P Q : List UInt8 → Prop} {r r' : Reader ε α}

/-- No check. -/
theorem Guarded.refl (r : Reader ε α) : Guarded E (fun _ => False) r r where
  stops h := h.elim
  same _ := rfl

theorem Guarded.congr (h : Guarded E P r r') (hPQ : ∀ bs, P bs ↔ Q bs) : Guarded E Q r r' where
  stops hQ := h.stops ((hPQ _).mpr hQ)
  same hQ := h.same fun hP => hQ ((hPQ _).mp hP)

/-- Where the unchecked reader is calm, the inputs that fail are those of `P`. -/
theorem Guarded.fails_iff (h : Guarded E P r r') (hr : Calm E r) {bs : List UInt8} :
    (∃ e, E e ∧ r'.run bs = .error e) ↔ P bs := by
  refine ⟨fun ⟨e, he, hrun⟩ => ?_, h.stops⟩
  by_contra hP
  rw [h.same hP] at hrun
  exact hr _ _ hrun he

theorem Guarded.bind {f f' : α → Reader ε β} {P' : α → List UInt8 → Prop} (h : Guarded E P r r')
    (hf : ∀ a, Guarded E (P' a) (f a) (f' a)) :
    Guarded E (fun bs => P bs ∨ ∃ a mid, r.run bs = .ok (a, mid) ∧ P' a mid) (r >>= f) (r' >>= f')
    where
  stops := by
    rintro bs hbs
    by_cases hP : P bs
    · obtain ⟨e, he, hrun⟩ := h.stops hP
      exact ⟨e, he, by rw [run_bind, hrun]⟩
    · obtain ⟨a, mid, hrun, hP'⟩ := hbs.resolve_left hP
      obtain ⟨e, he, hrun'⟩ := (hf a).stops hP'
      exact ⟨e, he, by rw [run_bind_ok ((h.same hP).trans hrun), hrun']⟩
  same := by
    intro bs hbs
    rw [not_or] at hbs
    rw [run_bind, run_bind, h.same hbs.1]
    cases hrun : r.run bs with
    | error e => rfl
    | ok p => exact (hf p.1).same fun hP' => hbs.2 ⟨p.1, p.2, hrun, hP'⟩

/-- Nothing is checked after `r'`. -/
theorem Guarded.bind_left (h : Guarded E P r r') (f : α → Reader ε β) :
    Guarded E P (r >>= f) (r' >>= f) :=
  (h.bind fun a => .refl (f a)).congr fun bs => by simp

theorem Guarded.map (h : Guarded E P r r') (f : α → β) : Guarded E P (f <$> r) (f <$> r') where
  stops hP := by
    obtain ⟨e, he, hrun⟩ := h.stops hP
    exact ⟨e, he, by rw [run_map, hrun]⟩
  same hP := by rw [run_map, run_map, h.same hP]

/-- One of the `n` elements: those before it are read. -/
def Meets (P : List UInt8 → Prop) (r : Reader ε α) (n : ℕ) (bs : List UInt8) : Prop :=
  ∃ k < n, ∃ as mid, (r.times k).run bs = .ok (as, mid) ∧ P mid

theorem meets_succ {n : ℕ} {bs : List UInt8} : Meets P r (n + 1) bs ↔
    P bs ∨ ∃ a mid, r.run bs = .ok (a, mid) ∧ Meets P r n mid := by
  constructor
  · rintro ⟨k, hk, as, mid, hrun, hP⟩
    cases k with
    | zero =>
      cases hrun
      exact .inl hP
    | succ k =>
      obtain ⟨a, mid', ha, hrest⟩ := run_bind_eq_ok hrun
      rw [run_map] at hrest
      split at hrest
      · cases hrest
      · next hrest' =>
        cases hrest
        exact .inr ⟨a, mid', ha, k, by omega, _, _, hrest', hP⟩
  · rintro (hP | ⟨a, mid, ha, k, hk, as, mid', hrun, hP⟩)
    · exact ⟨0, Nat.succ_pos n, [], bs, rfl, hP⟩
    · refine ⟨k + 1, by omega, a :: as, mid', ?_, hP⟩
      rw [times, run_bind_ok ha, run_map, hrun]

theorem Guarded.times (h : Guarded E P r r') (n : ℕ) :
    Guarded E (Meets P r n) (r.times n) (r'.times n) := by
  induction n with
  | zero => exact (Guarded.refl _).congr fun bs => by simp [Meets]
  | succ n ih => exact (h.bind fun a => ih.map (a :: ·)).congr fun bs => meets_succ.symm

end Reader

/-! ## Loops -/

namespace Loop

variable (L M : Loop ε σ β)

theorem calm_run (hL : ∀ s, (L.step s).Calm E) (s : σ) : (L.run s).Calm E := by
  intro bs e h
  obtain ⟨n, hn⟩ : ∃ n, bs.length < n := ⟨_, Nat.lt_succ_self _⟩
  induction n generalizing s bs with
  | zero => exact absurd hn (Nat.not_lt_zero _)
  | succ n ih =>
    rw [run_eq] at h
    split at h
    · next hstep =>
      cases h
      exact hL s _ _ hstep
    · cases h
    · next hstep =>
      have hlt := L.consumes hstep
      exact ih _ _ h (by omega)

/-- A turn of the loop starts at a state and bytes of `bad`. -/
inductive Meets (bad : σ → List UInt8 → Prop) : σ → List UInt8 → Prop
  | here {s : σ} {bs : List UInt8} (h : bad s bs) : Meets bad s bs
  | later {s s' : σ} {bs rest : List UInt8} (hstep : (L.step s).run bs = .ok (.inl s', rest))
    (hrest : Meets bad s' rest) : Meets bad s bs

/-- The check of one turn, for states of which an invariant holds, and the check
    of the run. -/
theorem guarded {bad : σ → List UInt8 → Prop} {I : σ → Prop}
    (hstep : ∀ {s}, I s → (L.step s).Guarded E (bad s) (M.step s))
    (hkeep : ∀ {s bs s' rest}, I s → (L.step s).run bs = .ok (.inl s', rest) → I s')
    {s : σ} (hs : I s) : (L.run s).Guarded E (L.Meets bad s) (M.run s) where
  stops := by
    intro bs h
    induction h with
    | here h =>
      obtain ⟨e, he, hrun⟩ := (hstep hs).stops h
      exact ⟨e, he, run_of_error _ hrun⟩
    | @later s s' bs rest hL _ ih =>
      by_cases hbad : bad s bs
      · obtain ⟨e, he, hrun⟩ := (hstep hs).stops hbad
        exact ⟨e, he, run_of_error _ hrun⟩
      · rw [run_of_inl _ (((hstep hs).same hbad).trans hL)]
        exact ih (hkeep hs hL)
  same := by
    intro bs h
    obtain ⟨n, hn⟩ : ∃ n, bs.length < n := ⟨_, Nat.lt_succ_self _⟩
    induction n generalizing s bs with
    | zero => exact absurd hn (Nat.not_lt_zero _)
    | succ n ih =>
      rw [run_eq, run_eq, (hstep hs).same fun hbad => h (.here hbad)]
      cases hl : (L.step s).run bs with
      | error e => rfl
      | ok p =>
        obtain ⟨x, rest⟩ := p
        cases x with
        | inr b => rfl
        | inl s' =>
          have hlt := L.consumes hl
          exact ih (hkeep hs hl) (fun hmeets => h (.later hl hmeets)) (by omega)

end Loop

end Wire
