/-
  Parsers that keep a position in a text, and may run forever.

  A scanner looks at the bytes of a text by index, where an index outside the text is
  a panic; its loops (`repeatDo`) go on for as long as their body says so.

  * `Tracks text k x r`: from every position from `k` on, the scanner does what the
    reader does on the bytes that are left; in particular it ends, and does not panic;
  * `Tracks.bind`, `run_of_turnsAlike`, `tracks_repeatDo`: scanners are put together as
    readers are; a loop ends because that of the reader consumes bytes;
  * `Advances`: a turn that the loop goes on from has moved the position.
-/
import EmatixParquet.Wire.Reader
import EmatixParquet.Wire.While
import Mathlib.Order.Basic
import Mathlib.Order.Nat

namespace Wire

variable {ε α β σ : Type}

/-- A parser with a position in its text. -/
abbrev Scanner (ε α : Type) := StateT ℕ (Exec (Fault ε)) α

namespace Scanner

/-- A failure, wherever the cursor stands. -/
def fail (e : ε) : Scanner ε α := fun _ => ended (.error (.err e))

/-- `self.pos`. -/
def position : Scanner ε ℕ := fun pos => ended (.ok (pos, pos))

/-- `self.pos += 1`. -/
def advance : Scanner ε Unit := fun pos => ended (.ok ((), pos + 1))

section
variable (text : List UInt8)

/-- `self.pos < self.s.len()`. -/
def inside : Scanner ε Bool := fun pos => ended (.ok (decide (pos < text.length), pos))

/-- `self.s[self.pos]`. -/
def byteHere : Scanner ε UInt8 := fun pos =>
  match text[pos]? with
  | some b => ended (.ok (b, pos))
  | none => ended (.error (.panic "index out of bounds"))

/-- `&self.s[start..self.pos]`. -/
def sliceFrom (start : ℕ) : Scanner ε (List UInt8) := fun pos =>
  ended ((fun w => (w, pos)) <$> slice text start pos)

/-- `self.pos < self.s.len() && p(self.s[self.pos])`. -/
def nextIs (p : UInt8 → Bool) : Scanner ε Bool := do
  if ← inside text then p <$> byteHere text else pure false

end

/-- `loop { .. }`: the body goes on with a state (`inl`), or breaks (`inr`). -/
def repeatDo (body : σ → Scanner ε (σ ⊕ β)) (s : σ) : Scanner ε β := fun pos =>
  whileDo (fun p : σ × ℕ => (fun r => r.1.map (·, r.2) (·, r.2)) <$> (body p.1).run p.2) (s, pos)

/-- A turn of `while nextIs(p) { self.pos += 1 }`. -/
def whileTurn (text : List UInt8) (p : UInt8 → Bool) (_ : Unit) : Scanner ε (Unit ⊕ Unit) := do
  if ← nextIs text p then
    advance
    pure (.inl ())
  else pure (.inr ())

/-- The bytes that satisfy `p`, skipped one by one. -/
def skipWhile (text : List UInt8) (p : UInt8 → Bool) : Scanner ε Unit :=
  repeatDo (whileTurn text p) ()

/-- A computation that reads nothing. -/
def quiet (r : Reader ε α) : Scanner ε α := fun pos =>
  ended ((((fun p => (p.1, pos)) <$> r.run []).mapError .err))

/-! ## Scanners and readers -/

/-- The outcome of a reader, as that of a scanner of the whole text. -/
def landed (text : List UInt8) : Except ε (α × List UInt8) → Except (Fault ε) (α × ℕ)
  | .ok (a, rest) => .ok (a, text.length - rest.length)
  | .error e => .error (.err e)

/-- From every position from `k` on, `x` does what `r` does on what is left. -/
def Tracks (text : List UInt8) (k : ℕ) (x : Scanner ε α) (r : Reader ε α) : Prop :=
  ∀ pos, k ≤ pos → pos ≤ text.length →
    x.run pos = ended (landed text (r.run (text.drop pos)))

variable {text : List UInt8} {k pos : ℕ}

/-- What a reader leaves begins at a position of the text. -/
theorem position_of_rest {r : Reader ε α} {a : α} {rest : List UInt8} (hpos : pos ≤ text.length)
    (h : r.run (text.drop pos) = .ok (a, rest)) :
    pos ≤ text.length - rest.length ∧ text.drop (text.length - rest.length) = rest := by
  have hsuffix := r.suffix h
  have hle := hsuffix.length_le
  rw [List.length_drop] at hle
  refine ⟨by omega, ?_⟩
  exact (List.suffix_iff_eq_drop.mp (hsuffix.trans (List.drop_suffix pos text))).symm

theorem Tracks.mono {x : Scanner ε α} {r : Reader ε α} {k' : ℕ} (h : Tracks text k x r)
    (hk : k ≤ k') : Tracks text k' x r :=
  fun pos hpos => h pos (hk.trans hpos)

theorem tracks_pure (a : α) : Tracks text k (pure a : Scanner ε α) (pure a) := by
  intro pos _ hpos
  rw [Reader.run_pure, landed, List.length_drop, Nat.sub_sub_self hpos]
  rfl

theorem tracks_fail (e : ε) : Tracks text k (fail e : Scanner ε α) (Reader.fail e) :=
  fun _ _ _ => rfl

/-- What follows a scanner that moves the position need only track from further on. -/
theorem Tracks.bind_of_lt {x : Scanner ε α} {r : Reader ε α} {f : α → Scanner ε β}
    {g : α → Reader ε β} (hx : Tracks text k x r)
    (hf : ∀ pos, k ≤ pos → pos ≤ text.length → ∀ a rest, r.run (text.drop pos) = .ok (a, rest) →
      Tracks text (text.length - rest.length) (f a) (g a)) :
    Tracks text k (x >>= f) (r >>= g) := by
  intro pos hk hpos
  rw [StateT.run_bind, hx pos hk hpos, Reader.run_bind]
  cases hr : r.run (text.drop pos) with
  | error e => rfl
  | ok p =>
    obtain ⟨a, rest⟩ := p
    obtain ⟨-, hdrop⟩ := position_of_rest hpos hr
    change (f a).run (text.length - rest.length) = _
    rw [hf pos hk hpos a rest hr _ le_rfl (Nat.sub_le _ _), hdrop]

theorem Tracks.bind {x : Scanner ε α} {r : Reader ε α} {f : α → Scanner ε β} {g : α → Reader ε β}
    (hx : Tracks text k x r) (hf : ∀ a, Tracks text k (f a) (g a)) :
    Tracks text k (x >>= f) (r >>= g) :=
  hx.bind_of_lt fun _ hk hpos a _ hr => (hf a).mono (hk.trans (position_of_rest hpos hr).1)

theorem Tracks.map {x : Scanner ε α} {r : Reader ε α} (f : α → β) (hx : Tracks text k x r) :
    Tracks text k (f <$> x) (f <$> r) := by
  rw [map_eq_pure_bind, map_eq_pure_bind]
  exact hx.bind fun a => tracks_pure (f a)

/-- The outcomes of two turns agree: the same error, or the same result, or states
    that `R` relates where the turns ended. -/
def TurnsAlike {τ : Type} (text : List UInt8) (R : ℕ → σ → τ → Prop) :
    Except (Fault ε) ((σ ⊕ β) × ℕ) → Except ε ((τ ⊕ β) × List UInt8) → Prop
  | .error f, .error e => f = .err e
  | .ok (r, pos), .ok (r', rest) =>
    pos = text.length - rest.length ∧ Sum.LiftRel (R pos) Eq r r'
  | _, _ => False

/-- **A loop**, or any scanner that unfolds to turns as a loop does, with states that
    are related to those of a reader's loop; by induction on the bytes that are left. -/
theorem run_of_turnsAlike {τ : Type} {body : σ → Scanner ε (σ ⊕ β)} {L : Loop ε τ β}
    {F : σ → Scanner ε β} (hF : ∀ s, F s = (body s >>= Sum.elim F pure))
    {R : ℕ → σ → τ → Prop}
    (hbody : ∀ s t pos, k ≤ pos → pos ≤ text.length → R pos s t →
      ∃ o, (body s).run pos = ended o ∧ TurnsAlike text R o ((L.step t).run (text.drop pos)))
    {s : σ} {t : τ} (hk : k ≤ pos) (hpos : pos ≤ text.length) (hR : R pos s t) :
    (F s).run pos = ended (landed text ((L.run t).run (text.drop pos))) := by
  obtain ⟨n, hn⟩ : ∃ n, text.length - pos < n := ⟨_, Nat.lt_succ_self _⟩
  induction n generalizing s t pos with
  | zero => exact absurd hn (Nat.not_lt_zero _)
  | succ n ih =>
    obtain ⟨o, ho, halike⟩ := hbody s t pos hk hpos hR
    rw [hF, StateT.run_bind, ho, L.run_eq]
    cases hr : (L.step t).run (text.drop pos) with
    | error e =>
      rw [hr] at halike
      rcases o with f | ⟨r, pos'⟩
      · cases halike
        rfl
      · cases halike
    | ok p =>
      obtain ⟨r', rest⟩ := p
      rw [hr] at halike
      rcases o with f | ⟨r, pos'⟩
      · cases halike
      · obtain ⟨rfl, hrel⟩ := halike
        obtain ⟨hge, hdrop⟩ := position_of_rest hpos hr
        cases hrel with
        | inr hb =>
          cases hb
          rfl
        | @inl s' t' hst =>
          have hlt := L.consumes hr
          rw [List.length_drop] at hlt
          change (F s').run (text.length - rest.length) = _
          rw [ih (by omega) (by omega) hst (by omega), hdrop]

theorem turnsAlike_landed (y : Except ε ((σ ⊕ β) × List UInt8)) :
    TurnsAlike text (fun _ => Eq) (landed text y) y := by
  rcases y with e | ⟨r, rest⟩
  · rfl
  · exact ⟨rfl, by cases r <;> constructor <;> rfl⟩

theorem tracks_of_unfolds {body : σ → Scanner ε (σ ⊕ β)} {L : Loop ε σ β}
    {F : σ → Scanner ε β} (hF : ∀ s, F s = (body s >>= Sum.elim F pure))
    (hbody : ∀ s, Tracks text k (body s) (L.step s)) (s : σ) : Tracks text k (F s) (L.run s) := by
  intro pos hk hpos
  refine run_of_turnsAlike hF (R := fun _ => Eq) ?_ hk hpos rfl
  rintro s t pos hk hpos rfl
  exact ⟨_, hbody s pos hk hpos, turnsAlike_landed _⟩

theorem repeatDo_eq (body : σ → Scanner ε (σ ⊕ β)) (s : σ) :
    repeatDo body s = (body s >>= Sum.elim (repeatDo body) pure) := by
  funext pos
  rw [repeatDo, whileDo_eq, bind_map_left]
  change _ = ((body s).run pos >>= fun r => (Sum.elim (repeatDo body) pure r.1).run r.2)
  refine bind_congr fun r => ?_
  obtain ⟨r | r, pos'⟩ := r <;> rfl

theorem tracks_repeatDo {body : σ → Scanner ε (σ ⊕ β)} {L : Loop ε σ β}
    (hbody : ∀ s, Tracks text k (body s) (L.step s)) (s : σ) :
    Tracks text k (repeatDo body s) (L.run s) :=
  tracks_of_unfolds (repeatDo_eq body) hbody s

/-- Every turn ends without a panic, and has moved the position if it is not the last. -/
def Advances (text : List UInt8) (k : ℕ) (body : σ → Scanner ε (σ ⊕ β)) : Prop :=
  ∀ s pos, k ≤ pos → pos ≤ text.length → ∃ o, (body s).run pos = ended o ∧
    (∀ msg, o ≠ .error (.panic msg)) ∧
    ∀ s' pos', o = .ok (.inl s', pos') → pos < pos' ∧ pos' ≤ text.length

theorem advances_of_turnsAlike {τ : Type} {body : σ → Scanner ε (σ ⊕ β)} {L : Loop ε τ β}
    {R : ℕ → σ → τ → Prop} (hR : ∀ s pos, ∃ t, R pos s t)
    (hbody : ∀ s t pos, k ≤ pos → pos ≤ text.length → R pos s t →
      ∃ o, (body s).run pos = ended o ∧ TurnsAlike text R o ((L.step t).run (text.drop pos))) :
    Advances text k body := by
  intro s pos hk hpos
  obtain ⟨t, ht⟩ := hR s pos
  obtain ⟨o, ho, halike⟩ := hbody s t pos hk hpos ht
  refine ⟨o, ho, ?_, ?_⟩
  · rintro msg rfl
    cases hr : (L.step t).run (text.drop pos) <;> rw [hr] at halike <;> cases halike
  · rintro s' pos' rfl
    cases hr : (L.step t).run (text.drop pos) with
    | error e =>
      rw [hr] at halike
      cases halike
    | ok p =>
      obtain ⟨r', rest⟩ := p
      rw [hr] at halike
      obtain ⟨rfl, hrel⟩ := halike
      cases hrel
      have hlt := L.consumes hr
      rw [List.length_drop] at hlt
      omega

theorem Tracks.advances {body : σ → Scanner ε (σ ⊕ β)} {L : Loop ε σ β}
    (hbody : ∀ s, Tracks text k (body s) (L.step s)) : Advances text k body := by
  refine advances_of_turnsAlike (L := L) (R := fun _ => Eq) (fun s _ => ⟨s, rfl⟩) ?_
  rintro s t pos hk hpos rfl
  exact ⟨_, hbody s pos hk hpos, turnsAlike_landed _⟩

/-! ## Single bytes -/

theorem run_position : (position : Scanner ε ℕ).run pos = ended (.ok (pos, pos)) := rfl

theorem run_advance : (advance : Scanner ε Unit).run pos = ended (.ok ((), pos + 1)) := rfl

theorem run_inside_bind (f : Bool → Scanner ε β) :
    (inside text >>= f).run pos = (f (decide (pos < text.length))).run pos := rfl

theorem run_byteHere {b : UInt8} (h : text[pos]? = some b) :
    (byteHere text : Scanner ε UInt8).run pos = ended (.ok (b, pos)) := by
  change (match text[pos]? with
    | some b => (ended (.ok (b, pos)) : Exec (Fault ε) _)
    | none => ended (.error (.panic "index out of bounds"))) = _
  rw [h]

theorem run_nextIs (p : UInt8 → Bool) (hpos : pos ≤ text.length) :
    (nextIs text p : Scanner ε Bool).run pos = ended (.ok ((text.drop pos).head?.any p, pos)) := by
  rw [nextIs, run_inside_bind, List.head?_drop]
  by_cases h : pos < text.length
  · rw [if_pos (decide_eq_true h), StateT.run_map, run_byteHere (List.getElem?_eq_getElem h),
      List.getElem?_eq_getElem h]
    rfl
  · rw [if_neg (by simpa using h), List.getElem?_eq_none (by omega)]
    rfl

/-- A test of the next byte, in a scanner that goes on with its outcome. -/
theorem tracks_nextIs_bind {p : UInt8 → Bool} {f : Bool → Scanner ε β} {r : Reader ε β}
    (h : ∀ pos, k ≤ pos → pos ≤ text.length →
      (f ((text.drop pos).head?.any p)).run pos = ended (landed text (r.run (text.drop pos)))) :
    Tracks text k (nextIs text p >>= f) r := by
  intro pos hk hpos
  rw [StateT.run_bind, run_nextIs p hpos]
  exact h pos hk hpos

theorem whileTurn_advances (p : UInt8 → Bool) :
    Advances text k (whileTurn text p : Unit → Scanner ε (Unit ⊕ Unit)) := by
  intro s pos _ hpos
  rw [whileTurn, StateT.run_bind, run_nextIs p hpos, ended_ok_bind]
  by_cases h : pos < text.length
  · rw [List.drop_eq_getElem_cons h, List.head?_cons, Option.any_some]
    by_cases hp : p text[pos] = true
    · rw [if_pos hp]
      refine ⟨.ok (.inl (), pos + 1), rfl, fun _ => nofun, ?_⟩
      rintro s' pos' ⟨⟩
      exact ⟨Nat.lt_succ_self pos, h⟩
    · rw [if_neg hp]
      exact ⟨.ok (.inr (), pos), rfl, fun _ => nofun, fun _ _ => nofun⟩
  · rw [List.drop_eq_nil_of_le (Nat.not_lt.mp h)]
    exact ⟨.ok (.inr (), pos), rfl, fun _ => nofun, fun _ _ => nofun⟩

/-- Where the bytes that pass the test end. -/
theorem position_of_takeWhile (p : UInt8 → Bool) (hpos : pos ≤ text.length) :
    pos + ((text.drop pos).takeWhile p).length ≤ text.length ∧
    pos + ((text.drop pos).takeWhile p).length
      = text.length - ((text.drop pos).dropWhile p).length := by
  have hlen := congrArg List.length (List.takeWhile_append_dropWhile (p := p) (l := text.drop pos))
  rw [List.length_append, List.length_drop] at hlen
  omega

/-- The slice of these bytes. -/
theorem slice_takeWhile (p : UInt8 → Bool) :
    (text.take (pos + ((text.drop pos).takeWhile p).length)).drop pos
      = (text.drop pos).takeWhile p := by
  rw [List.drop_take, Nat.add_sub_cancel_left]
  exact (List.prefix_iff_eq_take.mp (List.takeWhile_prefix p)).symm

/-- The bytes that pass the test are skipped. -/
theorem run_skipWhile (p : UInt8 → Bool) (hpos : pos ≤ text.length) :
    (skipWhile text p : Scanner ε Unit).run pos
      = ended (.ok ((), pos + ((text.drop pos).takeWhile p).length)) := by
  obtain ⟨n, hn⟩ : ∃ n, text.length - pos < n := ⟨_, Nat.lt_succ_self _⟩
  induction n generalizing pos with
  | zero => exact absurd hn (Nat.not_lt_zero _)
  | succ n ih =>
    rw [skipWhile, repeatDo_eq, whileTurn, StateT.run_bind, StateT.run_bind, run_nextIs p hpos]
    by_cases h : pos < text.length
    · rw [List.drop_eq_getElem_cons h, List.head?_cons, Option.any_some, List.takeWhile_cons]
      by_cases hp : p text[pos] = true
      · rw [if_pos hp, hp]
        change (skipWhile text p).run (pos + 1) = _
        rw [ih (by omega) (by omega), List.length_cons]
        exact congrArg (fun i => ended (.ok ((), i))) (by omega)
      · rw [if_neg hp, Bool.eq_false_iff.mpr hp]
        rfl
    · rw [List.drop_eq_nil_of_le (by omega)]
      rfl

theorem tracks_skipWhile (p : UInt8 → Bool) :
    Tracks text k (skipWhile text p : Scanner ε Unit) ((fun _ => ()) <$> Reader.takeWhile p) := by
  intro pos hk hpos
  rw [run_skipWhile p hpos, Reader.run_map, Reader.run_takeWhile]
  exact congrArg (fun i => ended (.ok ((), i))) (position_of_takeWhile p hpos).2

/-- The slice from a position before. -/
theorem run_sliceFrom {start : ℕ} (h : start ≤ pos) (hpos : pos ≤ text.length) :
    (sliceFrom text start : Scanner ε _).run pos
      = ended (.ok ((text.take pos).drop start, pos)) := by
  change ended (_ <$> slice text start pos) = _
  rw [slice_ok h hpos]
  rfl

/-! ## Computations that read nothing -/

/-- `r` returns without reading, whatever is there to read. -/
def IsQuiet (r : Reader ε α) : Prop := ∃ x : Except ε α, r = Reader.lift x

theorem tracks_quiet {r : Reader ε α} (h : IsQuiet r) : Tracks text k (quiet r) r := by
  obtain ⟨x, rfl⟩ := h
  cases x with
  | error e => exact fun _ _ _ => rfl
  | ok a => exact tracks_pure a

/-- What a quiet computation is, and what its scanner does anywhere. -/
theorem IsQuiet.run_eq {r : Reader ε α} (h : IsQuiet r) : ∃ x : Except ε α, r = Reader.lift x ∧
    ∀ pos, (quiet r).run pos = ended (((fun a => (a, pos)) <$> x).mapError .err) := by
  obtain ⟨x, rfl⟩ := h
  cases x with
  | error e => exact ⟨.error e, rfl, fun _ => rfl⟩
  | ok a => exact ⟨.ok a, rfl, fun _ => rfl⟩

theorem isQuiet_pure (a : α) : IsQuiet (pure a : Reader ε α) := ⟨.ok a, rfl⟩

theorem isQuiet_fail (e : ε) : IsQuiet (Reader.fail e : Reader ε α) := ⟨.error e, rfl⟩

theorem IsQuiet.bind {r : Reader ε α} {f : α → Reader ε β} (h : IsQuiet r)
    (hf : ∀ a, IsQuiet (f a)) : IsQuiet (r >>= f) := by
  obtain ⟨x, rfl⟩ := h
  cases x with
  | error e => exact ⟨.error e, rfl⟩
  | ok a => exact hf a

theorem IsQuiet.map {r : Reader ε α} (f : α → β) (h : IsQuiet r) : IsQuiet (f <$> r) := by
  obtain ⟨x, rfl⟩ := h
  cases x with
  | error e => exact ⟨.error e, rfl⟩
  | ok a => exact ⟨.ok (f a), rfl⟩

theorem isQuiet_mapM {f : α → Reader ε β} (h : ∀ a, IsQuiet (f a)) (as : List α) :
    IsQuiet (as.mapM f) := by
  induction as with
  | nil => exact isQuiet_pure []
  | cons a as ih =>
    rw [List.mapM_cons]
    exact (h a).bind fun b => ih.bind fun bs => isQuiet_pure (b :: bs)

end Scanner

end Wire
