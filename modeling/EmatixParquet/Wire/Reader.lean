/-
  Byte readers — a cursor over a byte string, as a monad.

  A reader takes the bytes that remain and returns a value with the bytes it
  leaves, or fails; it carries the proof that what it leaves is a suffix of
  what it was given, so that a position can only move forward.

  * `SameOk x y`: both computations succeed with the same value, or both fail;
  * `Loop` is a reader iterated while it consumes at least one byte; the
    consumption proof makes `Loop.run` total, and `Loop.run_eq` is the
    unfolding equation of the loop;
  * `Parses bound r w a`: on `w` (shorter than `bound`) followed by anything,
    `r` returns `a` and stops exactly at the end of `w`.  It is closed under
    the reader combinators (`parses_bind`, `parses_times`).
-/
import Mathlib.Data.List.Basic
import Mathlib.Data.List.Forall2
import Mathlib.Order.Defs.PartialOrder
import Mathlib.Tactic.Common

namespace Wire

/-- How a computation can fail: an error value, or a panic with its message. -/
inductive Fault (ε : Type) where
  | err (e : ε)
  | panic (msg : String)
  deriving DecidableEq, Repr

/-- An error translated; a panic stays. -/
def Fault.map {ε ε' : Type} (f : ε → ε') : Fault ε → Fault ε'
  | err e => err (f e)
  | panic msg => panic msg

/-- The fault is a panic. -/
def Panics {ε : Type} (f : Fault ε) : Prop := ∃ msg, f = .panic msg

/-- The outcome of a fallible computation. -/
abbrev Res (ε α : Type) := Except (Fault ε) α

/-- A property of the members of a list is decided member by member, also where
    the type is finite. -/
instance (priority := 1100) decidableForallMem {α : Type} (p : α → Prop) [DecidablePred p]
    (as : List α) : Decidable (∀ a ∈ as, p a) := List.decidableBAll p as

/-- A computation that returned went through every one of its steps. -/
theorem bind_eq_ok {ε α β : Type} {x : Except ε α} {f : α → Except ε β} {b : β} :
    (x >>= f) = .ok b ↔ ∃ a, x = .ok a ∧ f a = .ok b := by
  cases x <;> simp [bind, Except.bind]

theorem bind_eq_error {ε α β : Type} {x : Except ε α} {f : α → Except ε β} {e : ε} :
    (x >>= f) = .error e ↔ x = .error e ∨ ∃ a, x = .ok a ∧ f a = .error e := by
  cases x <;> simp [bind, Except.bind]

theorem ok_bind {ε α β : Type} (a : α) (f : α → Except ε β) :
    ((Except.ok a : Except ε α) >>= f) = f a := rfl

theorem map_eq_ok {ε α β : Type} {x : Except ε α} {f : α → β} {b : β} :
    f <$> x = .ok b ↔ ∃ a, x = .ok a ∧ f a = b := by
  cases x <;> simp [Functor.map, Except.map]

theorem map_eq_error {ε α β : Type} {x : Except ε α} {f : α → β} {e : ε} :
    f <$> x = .error e ↔ x = .error e := by
  cases x <;> simp [Functor.map, Except.map]

theorem mapM_eq_ok {ε α β : Type} {f : α → Except ε β} {as : List α} {bs : List β} :
    as.mapM f = .ok bs ↔ List.Forall₂ (fun a b => f a = .ok b) as bs := by
  induction as generalizing bs with
  | nil => cases bs <;> simp [pure, Except.pure]
  | cons a as ih =>
    rw [List.mapM_cons, bind_eq_ok, List.forall₂_cons_left_iff]
    simp only [bind_eq_ok, ih, pure, Except.pure, Except.ok.injEq]
    constructor
    · rintro ⟨b, hb, bs', hbs, rfl⟩
      exact ⟨b, bs', hb, hbs, rfl⟩
    · rintro ⟨b, bs', hb, hbs, rfl⟩
      exact ⟨b, hb, bs', hbs, rfl⟩

/-- The results, one by one. -/
theorem mapM_getElem? {ε α β : Type} {f : α → Except ε β} {as : List α} {bs : List β}
    (h : as.mapM f = .ok bs) (i : ℕ) :
    (∀ a, as[i]? = some a → ∃ b, bs[i]? = some b ∧ f a = .ok b) ∧
      ∀ b, bs[i]? = some b → ∃ a, as[i]? = some a ∧ f a = .ok b := by
  rw [mapM_eq_ok] at h
  induction h generalizing i with
  | nil => simp
  | @cons a b as bs hab _ ih =>
    cases i with
    | zero => simp [hab]
    | succ i => simpa using ih i

theorem mem_mapM {ε α β : Type} {f : α → Except ε β} {as : List α} {bs : List β}
    (h : as.mapM f = .ok bs) {b : β} : b ∈ bs ↔ ∃ a ∈ as, f a = .ok b := by
  rw [mapM_eq_ok] at h
  induction h with
  | nil => simp
  | @cons a b' as bs hab _ ih =>
    rw [List.mem_cons, ih]
    simp [hab, eq_comm]

/-- What each result shares with what it was made from. -/
theorem map_mapM {ε α β γ : Type} {f : α → Except ε β} {as : List α} {bs : List β} {p : α → γ}
    {q : β → γ} (h : as.mapM f = .ok bs) (hf : ∀ a b, f a = .ok b → q b = p a) :
    bs.map q = as.map p := by
  rw [mapM_eq_ok] at h
  induction h with
  | nil => rfl
  | @cons a b as bs hab _ ih => rw [List.map_cons, List.map_cons, hf a b hab, ih]

theorem exists_mapM {ε α β : Type} {f : α → Except ε β} {as : List α}
    (h : ∀ a ∈ as, ∃ b, f a = .ok b) : ∃ bs, as.mapM f = .ok bs := by
  induction as with
  | nil => exact ⟨[], rfl⟩
  | cons a as ih =>
    obtain ⟨b, hb⟩ := h a List.mem_cons_self
    obtain ⟨bs, hbs⟩ := ih fun c hc => h c (List.mem_cons_of_mem _ hc)
    exact ⟨b :: bs, mapM_eq_ok.mpr (.cons hb (mapM_eq_ok.mp hbs))⟩

/-- **The first error** of a list of steps. -/
theorem mapM_eq_error {ε α β : Type} {f : α → Except ε β} {as : List α} {e : ε} :
    as.mapM f = .error e ↔ ∃ (i : ℕ) (a : α), as[i]? = some a ∧ f a = .error e ∧
      ∀ j < i, ∀ a', as[j]? = some a' → ∃ b, f a' = .ok b := by
  induction as with
  | nil => simp [pure, Except.pure]
  | cons a as ih =>
    rw [List.mapM_cons]
    cases ha : f a with
    | error e' =>
      constructor
      · rintro ⟨⟩
        exact ⟨0, a, rfl, ha, fun j hj => absurd hj (Nat.not_lt_zero j)⟩
      · rintro ⟨i, a', ha', he, hbefore⟩
        cases i with
        | zero =>
          cases ha'
          rw [ha] at he
          cases he
          rfl
        | succ i =>
          obtain ⟨b, hb⟩ := hbefore 0 (Nat.succ_pos i) a rfl
          rw [ha] at hb
          cases hb
    | ok b =>
      have hrest : (do
          let b ← (.ok b : Except ε β)
          let bs ← as.mapM f
          pure (b :: bs)) = .error e ↔ as.mapM f = .error e := by
        cases as.mapM f <;> simp [bind, Except.bind, pure, Except.pure]
      rw [hrest, ih]
      constructor
      · rintro ⟨i, a', ha', he, hbefore⟩
        refine ⟨i + 1, a', ha', he, fun j hj a'' ha'' => ?_⟩
        cases j with
        | zero =>
          cases ha''
          exact ⟨b, ha⟩
        | succ j => exact hbefore j (by omega) a'' ha''
      · rintro ⟨i, a', ha', he, hbefore⟩
        cases i with
        | zero =>
          cases ha'
          rw [ha] at he
          cases he
        | succ i =>
          exact ⟨i, a', ha', he, fun j hj a'' ha'' => hbefore (j + 1) (by omega) a'' ha''⟩

theorem mapM_length {ε α β : Type} {f : α → Except ε β} {as : List α} {bs : List β}
    (h : as.mapM f = .ok bs) : bs.length = as.length :=
  (mapM_eq_ok.mp h).length_eq.symm

/-- Steps that agree on the elements of the list. -/
theorem foldlM_congr {ε α β : Type} {f g : β → α → Except ε β} {as : List α}
    (h : ∀ b, ∀ a ∈ as, f b a = g b a) (b : β) : as.foldlM f b = as.foldlM g b := by
  induction as generalizing b with
  | nil => rfl
  | cons a as ih =>
    rw [List.foldlM_cons, List.foldlM_cons, h b a List.mem_cons_self]
    exact bind_congr fun b' => ih (fun c a' ha => h c a' (List.mem_cons_of_mem _ ha)) b'

/-! ## Agreement -/

/-- Both succeed with the same value, or both fail. -/
def SameOk {ε ε' α : Type} (x : Except ε α) (y : Except ε' α) : Prop :=
  ∀ a, x = .ok a ↔ y = .ok a

namespace SameOk

variable {ε ε' α β : Type} {x : Except ε α} {y : Except ε' α}

theorem of_ok (a : α) : SameOk (.ok a : Except ε α) (.ok a : Except ε' α) :=
  fun _ => by simp

theorem of_error (e : ε) (e' : ε') : SameOk (.error e : Except ε α) (.error e' : Except ε' α) :=
  fun _ => by simp

theorem rfl (x : Except ε α) : SameOk x x := fun _ => Iff.rfl

theorem symm (h : SameOk x y) : SameOk y x := fun a => (h a).symm

theorem mapError (f : ε' → ε) (y : Except ε' α) : SameOk (y.mapError f) y := by
  intro a
  cases y <;> simp [Except.mapError]

theorem bind {f : α → Except ε β} {g : α → Except ε' β} (h : SameOk x y)
    (hf : ∀ a, y = .ok a → SameOk (f a) (g a)) : SameOk (x >>= f) (y >>= g) := by
  intro b
  rw [bind_eq_ok, bind_eq_ok]
  constructor
  · rintro ⟨a, ha, hb⟩
    have hy := (h a).mp ha
    exact ⟨a, hy, (hf a hy b).mp hb⟩
  · rintro ⟨a, ha, hb⟩
    exact ⟨a, (h a).mpr ha, (hf a ha b).mpr hb⟩

theorem map (f : α → β) (h : SameOk x y) : SameOk (f <$> x) (f <$> y) := by
  intro b
  rw [map_eq_ok, map_eq_ok]
  exact exists_congr fun a => and_congr_left fun _ => h a

theorem mapM {f : β → Except ε α} {g : β → Except ε' α} (h : ∀ b, SameOk (f b) (g b))
    (bs : List β) : SameOk (bs.mapM f) (bs.mapM g) := by
  intro as
  rw [mapM_eq_ok, mapM_eq_ok]
  have hfg : (fun b a => f b = .ok a) = fun b a => g b = .ok a :=
    funext fun b => funext fun a => propext (h b a)
  rw [hfg]

end SameOk

/-- `bytes[start..end]`: a range outside the bytes is a panic. -/
def slice {ε α : Type} (bs : List α) (start stop : ℕ) : Res ε (List α) :=
  if start ≤ stop ∧ stop ≤ bs.length then .ok ((bs.take stop).drop start)
  else .error (.panic "range out of bounds")

theorem slice_ok {ε α : Type} {bs : List α} {start stop : ℕ} (h : start ≤ stop)
    (h' : stop ≤ bs.length) :
    (slice bs start stop : Res ε (List α)) = .ok ((bs.take stop).drop start) :=
  if_pos ⟨h, h'⟩

theorem slice_eq_ok {ε α : Type} {bs w : List α} {start stop : ℕ} :
    (slice bs start stop : Res ε (List α)) = .ok w ↔
      start ≤ stop ∧ stop ≤ bs.length ∧ (bs.take stop).drop start = w := by
  rw [slice]
  split
  · next h => simp [h]
  · next h => simp only [reduceCtorEq, false_iff]; exact fun h' => h ⟨h'.1, h'.2.1⟩

theorem slice_eq_error {ε α : Type} {bs : List α} {start stop : ℕ} {f : Fault ε}
    (h : (slice bs start stop : Res ε (List α)) = .error f) : Panics f := by
  rw [slice] at h
  split at h
  · cases h
  · cases h
    exact ⟨_, rfl⟩
/-- A reader of bytes: `run bs` is the value read and the bytes left. -/
structure Reader (ε α : Type) where
  run : List UInt8 → Except ε (α × List UInt8)
  suffix : ∀ {bs a rest}, run bs = .ok (a, rest) → rest <:+ bs

namespace Reader

variable {ε α β σ : Type}

theorem run_length_le (r : Reader ε α) {bs : List UInt8} {a : α} {rest : List UInt8}
    (h : r.run bs = .ok (a, rest)) : rest.length ≤ bs.length :=
  (r.suffix h).length_le

/-- Reads nothing. -/
def ret (a : α) : Reader ε α where
  run bs := .ok (a, bs)
  suffix h := by cases h; exact List.suffix_refl _

/-- Fails without reading. -/
def fail (e : ε) : Reader ε α where
  run _ := .error e
  suffix h := by cases h

/-- Reads with `r`, then with the reader `r`'s value selects. -/
def andThen (r : Reader ε α) (f : α → Reader ε β) : Reader ε β where
  run bs := match r.run bs with
    | .error e => .error e
    | .ok (a, rest) => (f a).run rest
  suffix {bs b rest} h := by
    split at h
    · cases h
    · next hr => exact ((f _).suffix h).trans (r.suffix hr)

instance : Monad (Reader ε) where
  pure := ret
  bind := andThen

@[ext] theorem ext {r r' : Reader ε α} (h : ∀ bs, r.run bs = r'.run bs) : r = r' := by
  cases r
  cases r'
  congr
  exact funext h

instance : LawfulMonad (Reader ε) := by
  refine LawfulMonad.mk' _ (fun r => ?_) (fun _ _ => rfl) (fun r f g => ?_)
  · refine ext fun bs => ?_
    change (andThen r ret).run bs = r.run bs
    simp only [andThen, ret]
    cases r.run bs <;> rfl
  · refine ext fun bs => ?_
    change (andThen (andThen r f) g).run bs = (andThen r fun a => andThen (f a) g).run bs
    simp only [andThen]
    cases r.run bs <;> rfl

@[simp] theorem run_pure (a : α) (bs : List UInt8) :
    (pure a : Reader ε α).run bs = .ok (a, bs) := rfl

@[simp] theorem run_fail (e : ε) (bs : List UInt8) :
    (fail e : Reader ε α).run bs = .error e := rfl

theorem run_bind (r : Reader ε α) (f : α → Reader ε β) (bs : List UInt8) :
    (r >>= f).run bs = match r.run bs with
      | .error e => .error e
      | .ok (a, rest) => (f a).run rest := rfl

theorem run_map (r : Reader ε α) (f : α → β) (bs : List UInt8) :
    (f <$> r).run bs = match r.run bs with
      | .error e => .error e
      | .ok (a, rest) => .ok (f a, rest) := rfl

theorem run_bind_ok {r : Reader ε α} {f : α → Reader ε β} {bs rest : List UInt8} {a : α}
    (h : r.run bs = .ok (a, rest)) : (r >>= f).run bs = (f a).run rest := by
  rw [run_bind, h]

/-- A successful sequence is two successful reads. -/
theorem run_bind_eq_ok {r : Reader ε α} {f : α → Reader ε β} {bs rest : List UInt8} {b : β}
    (h : (r >>= f).run bs = .ok (b, rest)) :
    ∃ a mid, r.run bs = .ok (a, mid) ∧ (f a).run mid = .ok (b, rest) := by
  rw [run_bind] at h
  split at h
  · cases h
  · next a mid hr => exact ⟨a, mid, hr, h⟩

/-- The result of a computation that reads nothing. -/
def lift (x : Except ε α) : Reader ε α :=
  match x with
  | .ok a => pure a
  | .error e => fail e

@[simp] theorem lift_ok (a : α) : lift (.ok a : Except ε α) = pure a := rfl

@[simp] theorem lift_error (e : ε) : (lift (.error e) : Reader ε α) = fail e := rfl

theorem run_lift_eq_ok {x : Except ε α} {bs rest : List UInt8} {a : α} :
    (lift x).run bs = .ok (a, rest) ↔ x = .ok a ∧ bs = rest := by
  cases x <;> simp

/-- Whether no bytes are left. -/
def atEnd : Reader ε Bool where
  run bs := .ok (bs.isEmpty, bs)
  suffix h := by cases h; exact List.suffix_refl _

theorem run_atEnd_of_ne_nil (f : Bool → Reader ε α) {bs : List UInt8} (h : bs ≠ []) :
    (atEnd >>= f).run bs = (f false).run bs := by
  cases bs with
  | nil => exact absurd rfl h
  | cons b bs => rfl

/-- The next byte, if there is one. -/
def next : Reader ε (Option UInt8) where
  run
    | [] => .ok (none, [])
    | b :: bs => .ok (some b, bs)
  suffix {bs a rest} h := by
    cases bs with
    | nil => cases h; exact List.suffix_refl _
    | cons b bs => cases h; exact List.suffix_cons _ _

/-- The next byte, which is not consumed. -/
def peek : Reader ε (Option UInt8) where
  run bs := .ok (bs.head?, bs)
  suffix h := by cases h; exact List.suffix_refl _

/-- The bytes up to the first that fails the test. -/
def takeWhile (p : UInt8 → Bool) : Reader ε (List UInt8) where
  run bs := .ok (bs.takeWhile p, bs.dropWhile p)
  suffix h := by cases h; exact List.dropWhile_suffix _

/-- The number of bytes left. -/
def remaining : Reader ε ℕ where
  run bs := .ok (bs.length, bs)
  suffix h := by cases h; exact List.suffix_refl _

@[simp] theorem run_next_nil : (next : Reader ε _).run [] = .ok (none, []) := rfl

@[simp] theorem run_next_cons (b : UInt8) (bs : List UInt8) :
    (next : Reader ε _).run (b :: bs) = .ok (some b, bs) := rfl

@[simp] theorem run_peek (bs : List UInt8) :
    (peek : Reader ε _).run bs = .ok (bs.head?, bs) := rfl

@[simp] theorem run_takeWhile (p : UInt8 → Bool) (bs : List UInt8) :
    (takeWhile p : Reader ε _).run bs = .ok (bs.takeWhile p, bs.dropWhile p) := rfl

@[simp] theorem run_remaining (bs : List UInt8) :
    (remaining : Reader ε _).run bs = .ok (bs.length, bs) := rfl

/-- Bytes that pass the test, and then none that does. -/
theorem run_takeWhile_append (p : UInt8 → Bool) {as bs : List UInt8} (has : ∀ a ∈ as, p a = true)
    (hbs : ∀ b ∈ bs.head?, p b = false) :
    (takeWhile p : Reader ε _).run (as ++ bs) = .ok (as, bs) := by
  rw [run_takeWhile, List.takeWhile_append_of_pos has, List.dropWhile_append_of_pos has]
  cases bs with
  | nil => simp
  | cons b bs => simp [hbs b rfl]

/-- The same reader with its errors converted. -/
def mapError {ε' : Type} (f : ε → ε') (r : Reader ε α) : Reader ε' α where
  run bs := (r.run bs).mapError f
  suffix {bs a rest} h := by
    cases hr : r.run bs with
    | error e => rw [hr] at h; cases h
    | ok p => rw [hr] at h; cases h; exact r.suffix hr

theorem run_mapError_eq_ok {ε' : Type} {f : ε → ε'} {r : Reader ε α} {bs : List UInt8}
    {p : α × List UInt8} : (r.mapError f).run bs = .ok p ↔ r.run bs = .ok p := by
  change Except.mapError f (r.run bs) = .ok p ↔ r.run bs = .ok p
  cases r.run bs <;> simp [Except.mapError]

/-- Reads `n` values one after the other. -/
def times (r : Reader ε α) : ℕ → Reader ε (List α)
  | 0 => pure []
  | n + 1 => do
    let a ← r
    (a :: ·) <$> r.times n

end Reader

/-! ## Loops -/

/-- A loop over the bytes: `step` continues with a new state (`inl`) or ends
    with a result (`inr`), and consumes at least one byte when it continues. -/
structure Loop (ε σ β : Type) where
  step : σ → Reader ε (σ ⊕ β)
  consumes : ∀ {s bs s' rest}, (step s).run bs = .ok (.inl s', rest) → rest.length < bs.length

namespace Loop

variable {ε σ β : Type} (L : Loop ε σ β)

/-- The loop on fewer than `n` bytes. -/
def go : (n : ℕ) → (s : σ) → (bs : List UInt8) → bs.length < n →
    Except ε (β × List UInt8)
  | 0, _, _, h => absurd h (Nat.not_lt_zero _)
  | n + 1, s, bs, h =>
    match e : (L.step s).run bs with
    | .error err => .error err
    | .ok (.inr b, rest) => .ok (b, rest)
    | .ok (.inl s', rest) => go n s' rest (Nat.lt_of_lt_of_le (L.consumes e) (Nat.le_of_lt_succ h))

theorem go_suffix (n : ℕ) (s : σ) (bs : List UInt8) (h : bs.length < n) {b : β}
    {rest : List UInt8} (hg : L.go n s bs h = .ok (b, rest)) : rest <:+ bs := by
  induction n generalizing s bs with
  | zero => exact absurd h (Nat.not_lt_zero _)
  | succ n ih =>
    rw [go] at hg
    split at hg
    · cases hg
    · next e => cases hg; exact (L.step s).suffix e
    · next e => exact (ih _ _ _ hg).trans ((L.step s).suffix e)

/-- The number of bytes allowed for does not matter. -/
theorem go_irrel (n m : ℕ) (s : σ) (bs : List UInt8) (hn : bs.length < n)
    (hm : bs.length < m) : L.go n s bs hn = L.go m s bs hm := by
  induction n generalizing m s bs with
  | zero => exact absurd hn (Nat.not_lt_zero _)
  | succ n ih =>
    cases m with
    | zero => exact absurd hm (Nat.not_lt_zero _)
    | succ m =>
      rw [go, go]
      split
      · rfl
      · rfl
      · exact ih m _ _ _ _

/-- The loop from state `s`. -/
def run (s : σ) : Reader ε β where
  run bs := L.go (bs.length + 1) s bs (Nat.lt_succ_self _)
  suffix h := L.go_suffix _ _ _ _ h

/-- One turn of the loop. -/
theorem run_eq (s : σ) (bs : List UInt8) :
    (L.run s).run bs = match (L.step s).run bs with
      | .error err => .error err
      | .ok (.inr b, rest) => .ok (b, rest)
      | .ok (.inl s', rest) => (L.run s').run rest := by
  change L.go _ _ _ _ = _
  rw [go]
  split
  · next e => rw [e]
  · next e => rw [e]
  · next e =>
    simp only [e]
    exact L.go_irrel _ _ _ _ _ _

theorem run_of_inl {s s' : σ} {bs rest : List UInt8}
    (h : (L.step s).run bs = .ok (.inl s', rest)) : (L.run s).run bs = (L.run s').run rest := by
  rw [run_eq, h]

theorem run_of_inr {s : σ} {b : β} {bs rest : List UInt8}
    (h : (L.step s).run bs = .ok (.inr b, rest)) : (L.run s).run bs = .ok (b, rest) := by
  rw [run_eq, h]

theorem run_of_error {s : σ} {bs : List UInt8} {e : ε}
    (h : (L.step s).run bs = .error e) : (L.run s).run bs = .error e := by
  rw [run_eq, h]

/-- The state and the bytes at the last turn, of the first `n`. -/
def stopsWithin : ℕ → σ → List UInt8 → σ × List UInt8
  | 0, s, bs => (s, bs)
  | n + 1, s, bs =>
    match (L.step s).run bs with
    | .ok (.inl s', rest) => stopsWithin n s' rest
    | _ => (s, bs)

/-- The state and the bytes at the last turn, at which the loop ends or fails. -/
def stopsAt (s : σ) (bs : List UInt8) : σ × List UInt8 := L.stopsWithin (bs.length + 1) s bs

/-- A loop whose steps agree with those of `L` as long as `R` holds, and keep
    it, agrees with `L`. -/
theorem run_sameOk {ε' : Type} (M : Loop ε' σ β) (R : σ → List UInt8 → Prop)
    (hstep : ∀ {s bs}, R s bs → SameOk ((M.step s).run bs) ((L.step s).run bs))
    (hkeep : ∀ {s bs s' rest}, R s bs → (L.step s).run bs = .ok (.inl s', rest) → R s' rest)
    {s : σ} {bs : List UInt8} (h : R s bs) : SameOk ((M.run s).run bs) ((L.run s).run bs) := by
  obtain ⟨n, hn⟩ : ∃ n, bs.length < n := ⟨_, Nat.lt_succ_self _⟩
  induction n generalizing s bs with
  | zero => exact absurd hn (Nat.not_lt_zero _)
  | succ n ih =>
    rw [run_eq, run_eq]
    cases hl : (L.step s).run bs with
    | error e =>
      cases hm : (M.step s).run bs with
      | error e' => exact .of_error _ _
      | ok r => exact absurd ((hstep h r).mp hm) (by simp [hl])
    | ok r =>
      rw [(hstep h r).mpr hl]
      obtain ⟨r, rest⟩ := r
      cases r with
      | inr b => exact .of_ok _
      | inl s' =>
        have hlt := L.consumes hl
        exact ih (hkeep h hl) (by omega)

/-- A loop whose states are images of those of `L` runs alike. -/
theorem run_map {τ γ : Type} (M : Loop ε τ γ) (f : σ → τ) (g : β → γ) (I : σ → Prop)
    (hstep : ∀ {s bs}, I s →
      (M.step (f s)).run bs = (fun r => (Sum.map f g r.1, r.2)) <$> (L.step s).run bs)
    (hkeep : ∀ {s bs s' rest}, I s → (L.step s).run bs = .ok (.inl s', rest) → I s')
    {s : σ} {bs : List UInt8} (h : I s) :
    (M.run (f s)).run bs = (fun r => (g r.1, r.2)) <$> (L.run s).run bs := by
  obtain ⟨n, hn⟩ : ∃ n, bs.length < n := ⟨_, Nat.lt_succ_self _⟩
  induction n generalizing s bs with
  | zero => exact absurd hn (Nat.not_lt_zero _)
  | succ n ih =>
    rw [run_eq, run_eq, hstep h]
    cases hl : (L.step s).run bs with
    | error e => rfl
    | ok r =>
      obtain ⟨r, rest⟩ := r
      cases r with
      | inr b => rfl
      | inl s' =>
        have hlt := L.consumes hl
        exact ih (hkeep h hl) (show rest.length < n by omega)

/-- Loops that keep a relation between their states, on the same bytes, end in
    related results. -/
theorem run_related {τ γ : Type} (M : Loop ε τ γ) (R : σ → τ → Prop) (Q : β → γ → Prop)
    (hstep : ∀ {s t bs r r' rest rest'}, R s t → (L.step s).run bs = .ok (r, rest) →
      (M.step t).run bs = .ok (r', rest') → rest = rest' ∧ Sum.LiftRel R Q r r')
    {s : σ} {t : τ} {bs rest rest' : List UInt8} {b : β} {c : γ} (h : R s t)
    (hL : (L.run s).run bs = .ok (b, rest)) (hM : (M.run t).run bs = .ok (c, rest')) : Q b c := by
  obtain ⟨n, hn⟩ : ∃ n, bs.length < n := ⟨_, Nat.lt_succ_self _⟩
  induction n generalizing s t bs with
  | zero => exact absurd hn (Nat.not_lt_zero _)
  | succ n ih =>
    rw [run_eq] at hL hM
    cases hl : (L.step s).run bs with
    | error e => simp [hl] at hL
    | ok r =>
      cases hm : (M.step t).run bs with
      | error e => simp [hm] at hM
      | ok r' =>
        obtain ⟨r, mid⟩ := r
        obtain ⟨r', mid'⟩ := r'
        obtain ⟨rfl, hr⟩ := hstep h hl hm
        rw [hl] at hL
        rw [hm] at hM
        cases hr with
        | inl hst =>
          have hlt := L.consumes hl
          exact ih hst hL hM (by omega)
        | inr hbc =>
          cases hL
          cases hM
          exact hbc

/-- **Simulation**: a loop whose steps are those of `L`, up to a relation between
    the states and what is left to read, ends as `L` does. -/
theorem run_simulates {ε' τ γ : Type} (M : Loop ε' τ γ) (R : σ → τ → List UInt8 → Prop)
    (Q : β → γ → Prop)
    (hstep : ∀ {s t bs r rest}, R s t bs → (L.step s).run bs = .ok (r, rest) →
      ∃ r', (M.step t).run bs = .ok (r', rest) ∧ Sum.LiftRel (R · · rest) Q r r')
    {s : σ} {t : τ} {bs rest : List UInt8} {b : β} (h : R s t bs)
    (hL : (L.run s).run bs = .ok (b, rest)) : ∃ c, (M.run t).run bs = .ok (c, rest) ∧ Q b c := by
  obtain ⟨n, hn⟩ : ∃ n, bs.length < n := ⟨_, Nat.lt_succ_self _⟩
  induction n generalizing s t bs with
  | zero => exact absurd hn (Nat.not_lt_zero _)
  | succ n ih =>
    rw [run_eq] at hL
    rw [run_eq]
    cases hl : (L.step s).run bs with
    | error e => simp [hl] at hL
    | ok r =>
      obtain ⟨r, mid⟩ := r
      obtain ⟨r', hm, hr⟩ := hstep h hl
      rw [hl] at hL
      rw [hm]
      cases hr with
      | inl hst =>
        have hlt := L.consumes hl
        exact ih hst hL (by omega)
      | inr hbc =>
        cases hL
        exact ⟨_, rfl, hbc⟩

/-- An invariant of the turns holds where the loop ends. -/
theorem run_invariant (I : σ → Prop) (Q : β → Prop)
    (hstep : ∀ {s bs r rest}, I s → (L.step s).run bs = .ok (r, rest) → r.elim I Q)
    {s : σ} {bs rest : List UInt8} {b : β} (h : I s) (hL : (L.run s).run bs = .ok (b, rest)) :
    Q b := by
  obtain ⟨n, hn⟩ : ∃ n, bs.length < n := ⟨_, Nat.lt_succ_self _⟩
  induction n generalizing s bs with
  | zero => exact absurd hn (Nat.not_lt_zero _)
  | succ n ih =>
    rw [run_eq] at hL
    cases hl : (L.step s).run bs with
    | error e => simp [hl] at hL
    | ok r =>
      obtain ⟨r, mid⟩ := r
      have hr := hstep h hl
      rw [hl] at hL
      cases r with
      | inl s' =>
        have hlt := L.consumes hl
        exact ih hr hL (by omega)
      | inr b' =>
        cases hL
        exact hr

end Loop

/-! ## What a reader makes of a written text -/

section
variable {ε α β : Type} {bound : ℕ}

/-- On the text `w` followed by anything, `r` returns `a` and leaves exactly
    what follows, provided `w` is shorter than `bound`. -/
def Parses (bound : ℕ) (r : Reader ε α) (w : List UInt8) (a : α) : Prop :=
  w.length < bound → ∀ t, r.run (w ++ t) = .ok (a, t)

theorem parses_pure (a : α) : Parses bound (pure a : Reader ε α) [] a :=
  fun _ _ => rfl

theorem parses_bind {r : Reader ε α} {f : α → Reader ε β} {w w' : List UInt8} {a : α} {b : β}
    (h : Parses bound r w a) (h' : Parses bound (f a) w' b) :
    Parses bound (r >>= f) (w ++ w') b := by
  intro hb t
  rw [List.length_append] at hb
  rw [List.append_assoc, Reader.run_bind_ok (h (by omega) (w' ++ t))]
  exact h' (by omega) t

theorem parses_map {r : Reader ε α} {w : List UInt8} {a : α} (f : α → β)
    (h : Parses bound r w a) : Parses bound (f <$> r) w (f a) := by
  intro hb t
  rw [Reader.run_map, h hb t]

/-- A list of values is read back from the texts of its elements. -/
theorem parses_times {r : Reader ε α} {ws : List (List UInt8)} {as : List α}
    (h : List.Forall₂ (Parses bound r) ws as) :
    Parses bound (r.times as.length) ws.flatten as := by
  induction h with
  | nil => exact parses_pure []
  | cons hw _ ih => exact parses_bind hw (parses_map (_ :: ·) ih)

end

end Wire
