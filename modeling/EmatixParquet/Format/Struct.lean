/-
  Thrift structs — the loop every struct reader of `metadata.rs` runs
  (`while let Some(h) = read_field_header(cur, prev)?`), and the field-by-field
  writing of `metadata_writer.rs`.

  A reader is given by its accumulator and by `step`, the body of its `match`
  on the field id and type; a writer is a chain of fields, each written
  relative to the previous id.

  `Wrote step a₀ w a` says that reading what `w` has written so far takes the
  loop from the accumulator `a₀` to `a`.  It holds of the empty writer and is
  extended by each field (`Wrote.field`, `Wrote.opt`); at STOP it gives the
  round trip of the struct (`Wrote.stop`).
-/
import EmatixParquet.Format.Types
import Mathlib.Data.Option.Basic

namespace EmatixParquet

open Wire

variable {α σ : Type}

/-! ## Reading -/

/-- The error of a required field that is not there. -/
def missing (structName : String) (fieldId : Int16) : FormatError :=
  .missingRequiredField structName fieldId

/-- The error of a field id the struct does not have. -/
def unknown (structName : String) (fieldId : Int16) : FormatError :=
  .unknownStructField structName fieldId

/-- `o.ok_or_else(|| missing(struct_name, field_id))?`. -/
def required (o : Option α) (structName : String) (fieldId : Int16) : CursorM α :=
  match o with
  | some a => pure a
  | none => throwFormat (missing structName fieldId)

/-- `o.ok_or(FormatError::EmptyUnion { union_name })`. -/
def requiredUnion (o : Option α) (unionName : String) : CursorM α :=
  match o with
  | some a => pure a
  | none => throwFormat (.emptyUnion unionName)

@[simp] theorem required_some (a : α) (s : String) (i : Int16) :
    required (some a) s i = pure a := rfl

@[simp] theorem requiredUnion_some (a : α) (s : String) : requiredUnion (some a) s = pure a := rfl

/-- The field loop: the accumulator with the id of the previous field. -/
def fieldLoop [Machine] (step : σ → FieldHeader → CursorM σ) :
    Loop (Fault FormatError) (σ × Int16) σ where
  step s := do
    match ← readFieldHeader s.2 with
    | none => pure (.inr s.1)
    | some h => (fun a => .inl (a, h.id)) <$> step s.1 h
  consumes {s bs s' rest} h := by
    obtain ⟨o, mid, ho, hrest⟩ := Reader.run_bind_eq_ok h
    refine lt_of_le_of_lt ?_ (readFieldHeader_consumes ho)
    exact Reader.run_length_le _ hrest

/-- Reads the fields of a struct up to and including STOP. -/
def readFields [Machine] (step : σ → FieldHeader → CursorM σ) (init : σ) : CursorM σ :=
  (fieldLoop step).run (init, 0)

/-- An empty struct: just the STOP byte. -/
def readEmptyStruct [Machine] (name : String) : CursorM Unit := do
  match ← readFieldHeader 0 with
  | some h => throwFormat (unknown name h.id)
  | none => pure ()

/-! ## Writing -/

/-- A struct being written: the bytes so far and the previous field id. -/
structure StructWriter where
  buf : Bytes
  prev : Int16

namespace StructWriter

/-- A struct without fields yet. -/
def new : StructWriter := ⟨[], 0⟩

/-- A field header and the field's body. -/
def field (w : StructWriter) (id : Int16) (fieldType : FieldType) (body : Bytes) :
    StructWriter :=
  ⟨w.buf ++ (writeFieldHeader id fieldType w.prev ++ body), id⟩

/-- An optional field. -/
def opt (w : StructWriter) (id : Int16) (fieldType : FieldType) (body : α → Bytes)
    (o : Option α) : StructWriter :=
  match o with
  | some a => w.field id fieldType (body a)
  | none => w

/-- A boolean field carries its value in the header. -/
def bool (w : StructWriter) (id : Int16) (b : Bool) : StructWriter :=
  w.field id (if b then .boolTrue else .boolFalse) []

/-- A boolean field, if there is one; its value is in the type nibble. -/
def optBool (w : StructWriter) (id : Int16) (o : Option Bool) : StructWriter :=
  match o with
  | some b => w.bool id b
  | none => w

/-- The end of a struct. -/
def stop (w : StructWriter) : Bytes := w.buf ++ [0x00]

end StructWriter

namespace StructWriter

variable {w : StructWriter} {id : Int16} {ty : FieldType} {n m : ℕ}

theorem le_field {body : Bytes} (h : n ≤ w.buf.length) (hbody : m ≤ body.length) :
    n + m ≤ (w.field id ty body).buf.length := by
  simp only [field, List.length_append]
  omega

theorem le_opt {body : α → Bytes} {o : Option α} (h : n ≤ w.buf.length) :
    n ≤ (w.opt id ty body o).buf.length := by
  cases o with
  | none => exact h
  | some a => exact le_field h (Nat.zero_le _)

theorem le_stop (h : n ≤ w.buf.length) : n ≤ w.stop.length := by
  rw [stop, List.length_append]
  omega

end StructWriter

theorem StructWriter.stop_ne_nil (w : StructWriter) : w.stop ≠ [] :=
  List.append_ne_nil_of_right_ne_nil _ (List.cons_ne_nil _ _)

/-- The text of an empty struct. -/
abbrev writeStop : Bytes := StructWriter.new.stop

theorem parses_emptyStruct (name : String) : ReadsBack (readEmptyStruct name) writeStop () :=
  fun _ _ => rfl

/-! ## Reading back what was written -/

/-- The loop from `a₀`, on what `w` has written, arrives at `a`. -/
def Wrote (step : σ → FieldHeader → CursorM σ) (a₀ : σ) (w : StructWriter) (a : σ) : Prop :=
  w.buf.length < usizeBound → ∀ t,
    ((fieldLoop step).run (a₀, 0)).run (w.buf ++ t) = ((fieldLoop step).run (a, w.prev)).run t

namespace Wrote

variable {step : σ → FieldHeader → CursorM σ} {a₀ a a' : σ} {w : StructWriter}

theorem new : Wrote step a₀ .new a₀ := fun _ _ => rfl

theorem field (hw : Wrote step a₀ w a) (id : Int16) (ty : FieldType) {body : Bytes}
    (h : ReadsBack (step a ⟨id, ty⟩) body a') : Wrote step a₀ (w.field id ty body) a' := by
  intro hlen t
  simp only [StructWriter.field, List.length_append] at hlen ⊢
  rw [List.append_assoc, hw (by omega), List.append_assoc]
  refine Loop.run_of_inl _ ?_
  simp only [fieldLoop]
  rw [Reader.run_bind_ok (parses_fieldHeader id ty w.prev (by omega) _)]
  exact parses_map (fun a => (Sum.inl (a, id) : (σ × Int16) ⊕ σ)) h (by omega) t

/-- An optional field sets a part of the accumulator that was not set yet. -/
theorem opt (hw : Wrote step a₀ w a) (id : Int16) (ty : FieldType) {body : α → Bytes}
    (set : σ → Option α → σ) (o : Option α) (hnone : set a none = a)
    (h : ∀ x, ReadsBack (step a ⟨id, ty⟩) (body x) (set a (some x))) : Wrote step a₀ (w.opt id ty body o) (set a o) := by
  cases o with
  | none => rwa [hnone]
  | some x => exact hw.field id ty (h x)

/-- The same, where the body is related to the value rather than computed from it. -/
theorem optRel (hw : Wrote step a₀ w a) (id : Int16) (ty : FieldType) {R : α → Bytes → Prop}
    (set : σ → Option α → σ) {o : Option α} {body : Option Bytes} (hrel : Option.Rel R o body)
    (hnone : set a none = a) (h : ∀ x b, R x b → ReadsBack (step a ⟨id, ty⟩) b (set a (some x))) :
    Wrote step a₀ (w.opt id ty (fun b => b) body) (set a o) := by
  cases hrel with
  | none => rwa [hnone]
  | some hx => exact hw.field id ty (h _ _ hx)

theorem optBool (hw : Wrote step a₀ w a) (id : Int16) (set : σ → Option Bool → σ)
    (o : Option Bool) (hnone : set a none = a)
    (htrue : step a ⟨id, .boolTrue⟩ = pure (set a (some true)))
    (hfalse : step a ⟨id, .boolFalse⟩ = pure (set a (some false))) : Wrote step a₀ (w.optBool id o) (set a o) := by
  rcases o with _ | _ | _
  · rwa [hnone]
  · exact hw.field id .boolFalse (by rw [hfalse]; exact parses_pure _)
  · exact hw.field id .boolTrue (by rw [htrue]; exact parses_pure _)

/-- **Struct round trip**: the fields and STOP are read back. -/
theorem stop (hw : Wrote step a₀ w a) : ReadsBack (readFields step a₀) w.stop a := by
  intro hlen t
  rw [StructWriter.stop, List.length_append] at hlen
  rw [StructWriter.stop, List.append_assoc, readFields, hw (by omega)]
  refine Loop.run_of_inr _ ?_
  simp only [fieldLoop]
  rw [Reader.run_bind_ok (parses_fieldStop w.prev (by decide) t)]
  rfl

/-- The same, with the checks of the required fields. -/
theorem finish {β : Type} (hw : Wrote step a₀ w a) {f : σ → CursorM β} {b : β}
    (h : f a = pure b) : ReadsBack (readFields step a₀ >>= f) w.stop b := by
  have hb : ReadsBack (f a) [] b := by
    rw [h]
    exact parses_pure b
  have hbind := parses_bind hw.stop hb
  rwa [List.append_nil] at hbind

end Wrote

end EmatixParquet
