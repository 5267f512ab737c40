/-
  What a reader makes of a text, its failures included.

  `Reads follow x r w` says that on the text `w`, followed by anything that
  satisfies `follow`, the reader `r` has the outcome `x` and leaves exactly what
  follows.  Sequences of texts are read as sequences of outcomes (`Reads.bind`),
  so the outcome on a composed text is computed from those on its parts.
-/
import EmatixParquet.Wire.Reader

namespace Wire

/-- Whether the next bytes are `w`; then they are consumed. -/
def Reader.consumePrefix {ε : Type} (w : List UInt8) : Reader ε Bool where
  run bs := .ok (if w <+: bs then (true, bs.drop w.length) else (false, bs))
  suffix {bs a rest} h := by
    obtain h := Except.ok.inj h
    split at h
    · cases h
      exact List.drop_suffix _ _
    · cases h
      exact List.suffix_refl _

variable {ε α β : Type} {follow follow' : List UInt8 → Prop}

/-- On `w` and what follows it, `r` has the outcome `x`. -/
def Reads (follow : List UInt8 → Prop) (x : Except ε α) (r : Reader ε α) (w : List UInt8) : Prop :=
  ∀ t, follow t → r.run (w ++ t) = x.map fun a => (a, t)

theorem reads_pure (a : α) : Reads follow (.ok a : Except ε α) (pure a) [] := fun _ _ => rfl

namespace Reads

variable {r : Reader ε α} {x : Except ε α} {w w' : List UInt8}

theorem mono (h : Reads follow x r w) (hfollow : ∀ t, follow' t → follow t) :
    Reads follow' x r w := fun t ht => h t (hfollow t ht)

/-- **One text after the other.** -/
theorem bind {f : α → Reader ε β} {g : α → Except ε β} (h : Reads follow' x r w)
    (hfollow : ∀ t, follow t → follow' (w' ++ t))
    (h' : ∀ a, x = .ok a → Reads follow (g a) (f a) w') :
    Reads follow (x >>= g) (r >>= f) (w ++ w') := by
  intro t ht
  rw [List.append_assoc, Reader.run_bind, h _ (hfollow t ht)]
  cases x with
  | error e => rfl
  | ok a => exact h' a rfl t ht

/-- A text, and a reader that reads nothing more. -/
theorem bind_nil {f : α → Reader ε β} {g : α → Except ε β} (h : Reads follow x r w)
    (h' : ∀ a, x = .ok a → Reads follow (g a) (f a) []) : Reads follow (x >>= g) (r >>= f) w := by
  have hbind : Reads follow (x >>= g) (r >>= f) (w ++ []) := h.bind (fun _ ht => ht) h'
  rwa [List.append_nil] at hbind

/-- A text that is read as `a`, and the rest. -/
theorem bind_ok {f : α → Reader ε β} {y : Except ε β} {a : α} (h : Reads follow' (.ok a) r w)
    (hfollow : ∀ t, follow t → follow' (w' ++ t)) (h' : Reads follow y (f a) w') :
    Reads follow y (r >>= f) (w ++ w') := by
  refine bind (g := fun _ => y) h hfollow fun b hb => ?_
  cases hb
  exact h'

theorem map (f : α → β) (h : Reads follow x r w) : Reads follow (f <$> x) (f <$> r) w := by
  intro t ht
  rw [Reader.run_map, h t ht]
  cases x <;> rfl

/-- A text that is read as `a`, and a conclusion from `a`. -/
theorem bind_pure {f : α → Reader ε β} {a : α} {b : β} (h : Reads follow x r w) (hx : x = .ok a)
    (hf : f a = pure b) : Reads follow (.ok b) (r >>= f) w := by
  subst hx
  refine bind_nil (g := fun _ => .ok b) h fun a' ha => ?_
  cases ha
  rw [hf]
  exact reads_pure b

/-- A text, and a conclusion from what is read of it. -/
theorem bind_conclude {γ : Type} {f : α → Reader ε β} {g : γ → α} {k : γ → β} {y : Except ε γ}
    (h : Reads follow (g <$> y) r w) (hf : ∀ c, f (g c) = pure (k c)) :
    Reads follow (k <$> y) (r >>= f) w := by
  cases y with
  | error e => exact h.bind_nil (g := fun _ => .error e) fun a ha => by cases ha
  | ok c => exact h.bind_pure rfl (hf c)

end Reads

end Wire
