/-
  What the parser of an extension makes of a member that it does not know.

  A value is simple when its numbers are integers of 64 bits and its strings
  have no escapes but those that the parser knows.  A simple value is skipped
  as a whole (`skip_json`); any other fails, at once or, where the parser stops
  inside a number, in the loop around it (`Stuck`).
-/
import EmatixParquet.Iceberg.RoundTrip

namespace EmatixParquet

open Wire

/-! ## Simple values -/

/-- The escapes that the scanner knows. -/
def EscapeLetter.simple : EscapeLetter → Bool
  | b => false
  | f => false
  | _ => true

/-- The parser knows this part of a string. -/
def StringPart.simple : StringPart → Bool
  | char _ _ => true
  | escape e => e.simple
  | unicode _ _ _ _ => false

/-- The integer that a number begins with. -/
def NumberText.value (n : NumberText) : ℤ := if n.negative then -n.int else n.int

/-- An integer of 64 bits. -/
def NumberText.simple (n : NumberText) : Bool :=
  n.fraction = none && n.exponent = none && (-2 ^ 63 ≤ n.value && n.value < 2 ^ 63)

mutual

/-- A value that the scanner can skip. -/
def Json.simple : Json → Bool
  | .null => true
  | .bool _ => true
  | .number n => n.simple
  | .string parts => parts.all StringPart.simple
  | .array elements => elements.simple
  | .object members => members.simple

/-- Elements that the scanner can skip. -/
def Elements.simple : Elements → Bool
  | .nil _ => true
  | .cons _ value _ rest => value.simple && rest.simple

/-- Members that the scanner can skip. -/
def Members.simple : Members → Bool
  | .nil _ => true
  | .cons _ key _ _ value _ rest => key.all StringPart.simple && value.simple && rest.simple

end

/-! ## Items that fail -/

/-- Where the parser stops inside a number. -/
def IsNumberRest (b : UInt8) : Prop := b = 0x2E ∨ b = 0x65 ∨ b = 0x45

/-- On `w`, `r` fails or stops inside a number. -/
def Stuck {α : Type} (r : ExtM α) (w : Bytes) : Prop := ∀ t, Ended t →
  (∃ e, r.run (w ++ t) = .error e) ∨ ∃ a b u, r.run (w ++ t) = .ok (a, b :: u) ∧ IsNumberRest b

theorem IsNumberRest.solid {b : UInt8} (h : IsNumberRest b) : isJsonSpace b = false ∧ b ≠ 0x2C := by
  rcases h with rfl | rfl | rfl <;> decide

section
variable {σ : Type} {close : UInt8} {item : σ → {r : ExtM σ // Consumes r}}

/-- An item with its outcome, or stuck. -/
def ItemReads (close : UInt8) (item : σ → {r : ExtM σ // Consumes r}) (p : Padded)
    (o : Option (σ → Except IcebergIndexError σ)) : Prop :=
  p.IsItem close ∧ ∀ s, match o with
    | some g => Reads Ended (g s) (item s).1 p.text
    | none => Stuck (item s).1 p.text

/-- The loop fails where a number goes on. -/
theorem itemLoop_numberRest (hclose : close = 0x5D ∨ close = 0x7D) {s : σ} {b : UInt8}
    (hb : IsNumberRest b) (u : Bytes) {e : IcebergIndexError}
    (hitem : (item s).1.run (b :: u) = .error e) :
    ((itemLoop close item).run s).run (b :: u) = .error e := by
  have hp : Padded.IsItem { text := [b] } close := by
    refine ⟨spaces_nil, spaces_nil, b, [], rfl, hb.solid.1, ?_⟩
    rcases hb with rfl | rfl | rfl <;> rcases hclose with rfl | rfl <;> decide
  have hstep : ((itemLoop close item).step s).run (Padded.bytes { text := [b] } ++ u) = _ :=
    itemLoop_step hp s u
  refine (itemLoop close item).run_of_error (hstep.trans ?_)
  exact (Reader.run_bind ..).trans (by rw [show ([b] ++ ([] ++ u) : Bytes) = b :: u from rfl, hitem])

/-- **A stuck item** fails the loop, whatever comes before and after. -/
theorem items_stuck (hend : close = 0x5D ∨ close = 0x7D)
    (hrest : ∀ s b u, IsNumberRest b → ∃ e, (item s).1.run (b :: u) = .error e)
    {ps : List Padded} {os : List (Option (σ → Except IcebergIndexError σ))}
    (h : List.Forall₂ (ItemReads close item) ps os) (hnone : none ∈ os) {pad : Bytes}
    (hpad : Spaces pad) (s : σ) (t : Bytes) :
    ∃ e, ((itemLoop close item).run s).run (itemsText close ps pad ++ t) = .error e := by
  have hspace : isJsonSpace close = false := by rcases hend with rfl | rfl <;> decide
  have hcomma : close ≠ 0x2C := by rcases hend with rfl | rfl <;> decide
  induction h generalizing s pad with
  | nil => cases hnone
  | @cons p o ps os hp _ ih =>
    obtain ⟨hitem, hread⟩ := hp
    obtain ⟨sep, pad', htext, hsep, hpad', hcomma⟩ :=
      itemsText_cons (ε := IcebergIndexError) hspace hcomma hend hitem.after ps hpad t
    rw [htext, Loop.run_eq, itemLoop_step hitem, Reader.run_bind]
    cases o with
    | some g =>
      have hnone' : none ∈ os := by simpa using hnone
      rw [hread s _ hsep]
      cases g s with
      | error e => exact ⟨e, rfl⟩
      | ok s' =>
        simp only [Except.map]
        rw [Reader.run_bind_ok hcomma]
        exact ih hnone' hpad' s'
    | none =>
      rcases hread s _ hsep with ⟨e, he⟩ | ⟨s', b, u, hu, hb⟩
      · rw [he]
        exact ⟨e, rfl⟩
      · obtain ⟨e, he⟩ := hrest s' b u hb
        have hstay : (consumeCommaOrClose : ExtM Unit).run (b :: u) = .ok ((), b :: u) :=
          run_consumeNoComma spaces_nil hb.solid.1 hb.solid.2
        rw [hu]
        simp only
        rw [Reader.run_bind_ok hstay]
        exact ⟨e, itemLoop_numberRest hend hb u he⟩

end

/-! ## Strings -/

/-- What is heard of the parts of a string, after an escape or before the first. -/
def heardParts : Bool → List StringPart → List Char
  | _, [] => []
  | esc, .char c _ :: parts => (if esc then bytewise c else [c]) ++ heardParts esc parts
  | _, .escape e :: parts => Char.ofNat e.unit :: heardParts true parts
  | _, .unicode _ _ _ _ :: parts => heardParts true parts

section
variable {esc : Bool} {s : StringState} {done : List Char}

theorem stringLoop_char (h : At esc s done) {c : Char} (hc : PlainChar c) :
    ∃ s', At esc s' (done ++ if esc then bytewise c else [c]) ∧ ∀ t,
      ((stringLoop laterByte).run s).run (String.utf8EncodeChar c ++ t)
        = ((stringLoop laterByte).run s').run t := by
  have hplain := isPlainByte_of_plainChar hc
  cases esc with
  | false =>
    obtain ⟨hout, hraw⟩ := h
    have hs : s = { raw := s.raw } := by
      cases s
      cases hout
      rfl
    refine ⟨{ raw := s.raw ++ String.utf8EncodeChar c }, ⟨rfl, by simp [hraw]⟩, fun t => ?_⟩
    rw [hs]
    exact stringLoop_raw hplain t
  | true =>
    obtain ⟨hout, hne⟩ := h
    have hne' : s.out ≠ "" := by
      rw [hout]
      simpa using hne
    refine ⟨_, ⟨?_, by simp [hne]⟩, fun t => stringLoop_laterByte hne' hplain t⟩
    rw [hout, if_pos rfl, String.ofList_append]
    rfl

/-- An escape that the parser does not know. -/
theorem stringLoop_refused (h : At esc s done) {b : UInt8} (hb : unescape b = none) (t : Bytes) :
    ∃ e, ((stringLoop laterByte).run s).run (0x5C :: b :: t) = .error e := by
  refine ⟨JsonError.malformed s!"unsupported escape `\\{String.singleton (asChar b)}`",
    (stringLoop laterByte).run_of_error ?_⟩
  change (s.byte laterByte 0x5C).run (b :: t) = _
  rw [StringState.byte, if_neg (by decide), if_pos rfl, Reader.run_map, StringState.escape,
    h.committed, pure_bind, Reader.run_bind_ok (Reader.run_next_cons b t)]
  simp only [hb]
  rfl

theorem unescape_letter (e : EscapeLetter) :
    ∃ b, String.utf8EncodeChar e.letter = [b] ∧
      unescape b = if e.simple then some (Char.ofNat e.unit) else none := by
  cases e <;> exact ⟨_, rfl, by decide⟩

/-- `a` if `b` holds, and an error otherwise. -/
def OkIf {ε α : Type} (b : Bool) (x : Except ε α) (a : α) : Prop :=
  (b = true → x = .ok a) ∧ (b = false → ∃ e, x = .error e)

theorem OkIf.error {ε α : Type} {b : Bool} {x : Except ε α} {a : α} (hb : b = false)
    (h : ∃ e, x = .error e) : OkIf b x a :=
  ⟨fun h' => absurd (h'.symm.trans hb) (by decide), fun _ => h⟩

/-- The loop of `string` on the parts of a string. -/
theorem stringLoop_parts (h : At esc s done) (parts : List StringPart) (t : Bytes) :
    OkIf (parts.all StringPart.simple)
      (((stringLoop laterByte).run s).run (encode (parts.flatMap StringPart.chars) ++ 0x22 :: t))
      (String.ofList (done ++ heardParts esc parts), t) := by
  have hslash : String.utf8EncodeChar '\\' = [0x5C] := by decide
  have hu : String.utf8EncodeChar 'u' = [0x75] := by decide
  induction parts generalizing esc s done with
  | nil =>
    refine ⟨fun _ => ?_, fun h => by cases h⟩
    simpa [heardParts] using stringLoop_quote h t
  | cons part parts ih =>
    rw [List.flatMap_cons, List.all_cons]
    cases part with
    | char c hc =>
      obtain ⟨s', hs', hrun⟩ := stringLoop_char h hc
      rw [StringPart.chars, encode_append, encode_cons, encode_nil, List.append_nil,
        List.append_assoc, hrun, heardParts, ← List.append_assoc, StringPart.simple, Bool.true_and]
      exact ih hs'
    | escape e =>
      obtain ⟨b, hb, hun⟩ := unescape_letter e
      rw [StringPart.chars, encode_append, encode_cons, encode_cons, hslash, hb, encode_nil,
        StringPart.simple]
      cases hsimple : e.simple with
      | false =>
        rw [hsimple] at hun
        exact .error rfl (stringLoop_refused h hun _)
      | true =>
        rw [hsimple, if_pos rfl] at hun
        obtain ⟨s', hs', hrun⟩ := @stringLoop_escape _ _ laterByte _ _ _ h _ _ hun
          (encode (parts.flatMap StringPart.chars) ++ 0x22 :: t)
        have hparts := ih hs'
        rw [← hrun, List.append_assoc, List.singleton_append] at hparts
        rw [Bool.true_and, heardParts]
        exact hparts
    | unicode h₁ h₂ h₃ h₄ =>
      rw [StringPart.chars, encode_append, encode_cons, encode_cons, hslash, hu, StringPart.simple]
      exact .error rfl (stringLoop_refused h rfl _)

end

/-- **A string**, with white space in front. -/
theorem run_quoted (len : ℕ) {w : Bytes} (hw : Spaces w) (parts : List StringPart) (t : Bytes) :
    OkIf (parts.all StringPart.simple)
      ((jsonStr extensionJson len).run (w ++ (encode (quoted parts) ++ t)))
      (String.ofList (heardParts false parts), t) := by
  have hstart : At false {} [] := ⟨rfl, rfl⟩
  have hquote : String.utf8EncodeChar '"' = [0x22] := by decide
  have htext : encode (quoted parts) ++ t
      = 0x22 :: (encode (parts.flatMap StringPart.chars) ++ 0x22 :: t) := by
    rw [quoted, encode_cons, encode_append, encode_cons, hquote]
    simp
  have hopen : (expect len 0x22 : ExtM Unit).run
      (0x22 :: (encode (parts.flatMap StringPart.chars) ++ 0x22 :: t))
      = .ok ((), encode (parts.flatMap StringPart.chars) ++ 0x22 :: t) :=
    run_expect len spaces_nil (by decide)
  rw [htext, jsonStr, stringWith, Reader.run_bind_ok (skipWs_run hw (solid_cons (by decide))),
    Reader.run_bind_ok hopen]
  exact stringLoop_parts hstart parts t

/-! ## Numbers -/

/-- Simple texts are read, others are stuck. -/
def Skips (b : Bool) (r : ExtM Unit) (w : Bytes) : Prop :=
  (b = true → Reads Ended (.ok ()) r w) ∧ (b = false → Stuck r w)

theorem extNumber_integer (n : NumberText) :
    OkIf (-2 ^ 63 ≤ n.value && n.value < 2 ^ 63) (extNumber (String.ofList n.integer))
      (Int64.ofInt n.value) := by
  have hsigned : parseSigned n.integer = .ok n.value := by
    rw [NumberText.integer, NumberText.value]
    cases n.negative with
    | false => exact parseSigned_toDigits n.int
    | true =>
      change parseSigned ('-' :: Nat.toDigits 10 n.int) = _
      rw [parseSigned, parseDigits_toDigits]
      rfl
  rw [extNumber, parseI64, String.toList_ofList, hsigned, ok_bind]
  by_cases hhi : 2 ^ 63 ≤ n.value
  · rw [if_pos hhi]
    exact .error (by simp only [Bool.and_eq_false_iff, decide_eq_false_iff_not]; omega) ⟨_, rfl⟩
  · rw [if_neg hhi]
    by_cases hlo : n.value < -2 ^ 63
    · rw [if_pos hlo]
      exact .error (by simp only [Bool.and_eq_false_iff, decide_eq_false_iff_not]; omega) ⟨_, rfl⟩
    · rw [if_neg hlo]
      refine ⟨fun _ => rfl, fun h => ?_⟩
      simp only [Bool.and_eq_false_iff, decide_eq_false_iff_not] at h
      omega

/-- The integer part of a number, up to what is not a digit. -/
theorem run_integer (n : NumberText) {t : Bytes} (ht : ∀ b ∈ t.head?, isDigitByte b = false) :
    OkIf (-2 ^ 63 ≤ n.value && n.value < 2 ^ 63) (extI64.run (encode n.integer ++ t))
      (Int64.ofInt n.value, t) := by
  have hdigits : ∀ c ∈ Nat.toDigits 10 n.int, c.isDigit = true :=
    fun c hc => Nat.isDigit_of_mem_toDigits (by decide) (by decide) hc
  have hread := @reads_extI64 n.negative _ Nat.toDigits_ne_nil hdigits t ht
  obtain ⟨hok, herror⟩ := extNumber_integer n
  rw [NumberText.integer, hread]
  refine ⟨fun h => ?_, fun h => ?_⟩
  · rw [← NumberText.integer, hok h]
    rfl
  · obtain ⟨e, he⟩ := herror h
    rw [← NumberText.integer, he]
    exact ⟨e, rfl⟩

/-- What comes after the integer part. -/
theorem number_rest (n : NumberText) : n.fraction = none ∧ n.exponent = none ∧ n.chars = n.integer ∨
    ∃ c cs, n.chars = n.integer ++ c :: cs ∧ ¬ (n.fraction = none ∧ n.exponent = none) ∧
      (c = '.' ∨ c = 'e' ∨ c = 'E') := by
  obtain ⟨negative, int, fraction, exponent⟩ := n
  cases fraction with
  | some d => exact .inr ⟨'.', _, rfl, by simp, .inl rfl⟩
  | none =>
    cases exponent with
    | some e =>
      refine .inr ⟨if e.upper then 'E' else 'e', _, rfl, by simp, ?_⟩
      cases e.upper <;> simp
    | none => exact .inl ⟨rfl, rfl, by simp [NumberText.chars]⟩

/-- **A number**: skipped if it is an integer of 64 bits. -/
theorem skips_number (n : NumberText) : Skips n.simple ((fun _ => ()) <$> extI64) (encode n.chars) := by
  rcases number_rest n with ⟨hfraction, hexponent, hchars⟩ | ⟨c, cs, hchars, hnot, hc⟩
  · have hsimple : n.simple = (-2 ^ 63 ≤ n.value && n.value < 2 ^ 63) := by
      simp [NumberText.simple, hfraction, hexponent]
    rw [hsimple, hchars]
    refine ⟨fun h t ht => ?_, fun h t ht => .inl ?_⟩
    · rw [Reader.run_map, (run_integer n (not_digit_of_ended ht)).1 h]
      rfl
    · obtain ⟨e, he⟩ := (run_integer n (not_digit_of_ended ht)).2 h
      exact ⟨e, by rw [Reader.run_map, he]⟩
  · have hsimple : n.simple = false := by
      have : (decide (n.fraction = none) && decide (n.exponent = none)) = false := by
        simpa using hnot
      rw [NumberText.simple, this, Bool.false_and]
    refine ⟨fun h => absurd (h.symm.trans hsimple) (by decide), fun _ t ht => ?_⟩
    obtain ⟨b, hb, hrest, hdigit⟩ : ∃ b, String.utf8EncodeChar c = [b] ∧ IsNumberRest b ∧
        isDigitByte b = false := by
      rcases hc with rfl | rfl | rfl
      · exact ⟨_, rfl, .inl rfl, by decide⟩
      · exact ⟨_, rfl, .inr (.inl rfl), by decide⟩
      · exact ⟨_, rfl, .inr (.inr rfl), by decide⟩
    have htext : encode n.chars ++ t = encode n.integer ++ b :: (encode cs ++ t) := by
      rw [hchars, encode_append, encode_cons, hb]
      simp
    obtain ⟨hok, herror⟩ := @run_integer n (b :: (encode cs ++ t)) (by rintro _ ⟨⟩; exact hdigit)
    rw [htext, Reader.run_map]
    cases hrange : (decide (-2 ^ 63 ≤ n.value) && decide (n.value < 2 ^ 63)) with
    | true =>
      rw [hok hrange]
      exact .inr ⟨(), b, _, rfl, hrest⟩
    | false =>
      obtain ⟨e, he⟩ := herror hrange
      rw [he]
      exact .inl ⟨e, rfl⟩

/-! ## Values -/

section
variable {σ : Type} {close : UInt8} {item : σ → {r : ExtM σ // Consumes r}}

/-- Items that leave the state as it is. -/
theorem items_skipped {follow : Bytes → Prop} (hend : close = 0x5D ∨ close = 0x7D) {ps : List Padded}
    {os : List (Option (σ → Except IcebergIndexError σ))}
    (h : List.Forall₂ (ItemReads close item) ps os) (hall : ∀ o ∈ os, o = some fun s => .ok s)
    {pad : Bytes} (hpad : Spaces pad) (s : σ) :
    Reads follow (.ok s) ((itemLoop close item).run s) (itemsText close ps pad) := by
  have hgs : List.Forall₂ (fun p (g : σ → Except IcebergIndexError σ) =>
      p.IsItem close ∧ ∀ s, Reads Ended (g s) (item s).1 p.text) ps (os.map fun _ s => .ok s) := by
    rw [List.forall₂_map_right_iff]
    induction h with
    | nil => exact .nil
    | @cons p o ps os hp _ ih =>
      obtain ⟨hitem, hread⟩ := hp
      rw [hall o List.mem_cons_self] at hread
      exact .cons ⟨hitem, hread⟩ (ih fun o ho => hall o (List.mem_cons_of_mem _ ho))
  have hfold : (os.map fun _ (s : σ) => (.ok s : Except IcebergIndexError σ)).foldlM
      (fun s g => g s) s = .ok s := by
    clear h hall hgs
    induction os with
    | nil => rfl
    | cons o os ih => exact ih
  have hread : Reads follow _ _ _ := reads_padded hend hgs hpad s
  rwa [hfold] at hread

end

/-- The literals. -/
theorem run_expectLiteral (text : String) (t : Bytes) :
    (expectLiteral text).run (asBytes text ++ t) = .ok ((), t) := by
  have hfound : (Reader.consumePrefix (asBytes text) : ExtM Bool).run (asBytes text ++ t)
      = .ok (true, t) := by
    change Except.ok _ = _
    rw [if_pos (List.prefix_append ..), List.drop_left]
  rw [expectLiteral, Reader.run_bind_ok hfound]
  rfl

theorem skips_literal {r : ExtM Unit} {text : String} {cs : List Char} (hcs : encode cs = asBytes text)
    (hr : r = expectLiteral text) : Skips true r (encode cs) := by
  refine ⟨fun _ t _ => ?_, fun h => by cases h⟩
  rw [hcs, hr, run_expectLiteral]
  rfl

theorem digit_head (n : NumberText) : ∃ c w, encode n.chars = c :: w ∧ (c = 0x2D ∨ isDigitByte c = true) := by
  obtain ⟨cs, hchars⟩ : ∃ cs, n.chars = n.integer ++ cs := ⟨_, rfl⟩
  rw [hchars, encode_append, NumberText.integer]
  cases n.negative with
  | true =>
    rw [integerChars_true]
    exact ⟨_, _, rfl, .inl rfl⟩
  | false =>
    obtain ⟨c, ds, hds⟩ := List.exists_cons_of_ne_nil (Nat.toDigits_ne_nil (b := 10) (n := n.int))
    have hc : c.isDigit = true :=
      Nat.isDigit_of_mem_toDigits (by decide) (by decide) (hds ▸ List.mem_cons_self)
    obtain ⟨henc, hdigit⟩ := isDigitByte_of_digit hc
    rw [integerChars_false, hds, encode_cons, henc]
    exact ⟨_, _, rfl, .inr hdigit⟩

theorem head_digit {c : UInt8} (h : c = 0x2D ∨ isDigitByte c = true) :
    isJsonSpace c = false ∧ c ≠ 0x5D := by
  constructor
  · by_contra hspace
    rw [Bool.not_eq_false, isJsonSpace_iff] at hspace
    revert h
    rcases hspace with rfl | rfl | rfl | rfl <;> decide
  · rintro rfl
    revert h
    decide

/-- The first byte of a value. -/
theorem value_head (x : Json) :
    ∃ c w, encode x.chars = c :: w ∧ isJsonSpace c = false ∧ c ≠ 0x5D := by
  cases x with
  | null => exact ⟨0x6E, [0x75, 0x6C, 0x6C], by rw [Json.chars]; decide, by decide⟩
  | bool b =>
    cases b with
    | true => exact ⟨0x74, [0x72, 0x75, 0x65], by rw [Json.chars]; decide, by decide⟩
    | false => exact ⟨0x66, [0x61, 0x6C, 0x73, 0x65], by rw [Json.chars]; decide, by decide⟩
  | number n =>
    obtain ⟨c, w, hw, hc⟩ := digit_head n
    exact ⟨c, w, by rw [Json.chars, hw], head_digit hc⟩
  | string parts => exact ⟨0x22, _, by rw [Json.chars, quoted, encode_cons]; rfl, by decide⟩
  | array elements => exact ⟨0x5B, _, by rw [Json.chars, encode_cons]; rfl, by decide⟩
  | object members => exact ⟨0x7B, _, by rw [Json.chars, encode_cons]; rfl, by decide⟩

theorem extScalar_number (len : ℕ) {c : UInt8} (h : c = 0x2D ∨ isDigitByte c = true)
    (inner : {r : ExtM Unit // Consumes r}) :
    skipFirst extensionJson len inner c = (fun _ => ()) <$> extI64 := by
  have hne : ∀ b : UInt8, (b ≠ 0x2D ∧ isDigitByte b = false) → c ≠ b := by
    rintro b ⟨hb, hdigit⟩ rfl
    rcases h with h | h
    · exact hb h
    · exact absurd (h.symm.trans hdigit) (by decide)
  rw [skipFirst, if_neg (hne _ (by decide)), if_neg (hne _ (by decide)), if_neg (hne _ (by decide))]
  change extScalar len c = _
  rw [extScalar, if_neg (hne _ (by decide)), if_neg (hne _ (by decide)), if_neg (hne _ (by decide)),
    if_pos h]

/-! ### Members -/

section
variable {σ : Type} (len : ℕ) (member : String → σ → ExtM σ) (s : σ)
variable (key : List StringPart) (beforeColon afterColon : List Space) (value : List Char)

theorem encode_memberChars (t : Bytes) : encode (memberChars key beforeColon afterColon value) ++ t
    = [] ++ (encode (quoted key) ++ (encode (blank beforeColon)
      ++ 0x3A :: (encode (blank afterColon) ++ encode value ++ t))) := by
  have hcolon : String.utf8EncodeChar ':' = [0x3A] := by decide
  rw [memberChars, encode_append, encode_append, encode_cons, encode_append, hcolon]
  simp

theorem run_member (h : key.all StringPart.simple = true) (t : Bytes) :
    (readMember extensionJson len member s).1.run
        (encode (memberChars key beforeColon afterColon value) ++ t)
      = (member (String.ofList (heardParts false key)) s).run
          (encode (blank afterColon) ++ encode value ++ t) := by
  have hkey := (run_quoted len spaces_nil key (encode (blank beforeColon)
    ++ 0x3A :: (encode (blank afterColon) ++ encode value ++ t))).1 h
  have hcolon : (expect len 0x3A : ExtM Unit).run (encode (blank beforeColon)
      ++ 0x3A :: (encode (blank afterColon) ++ encode value ++ t))
      = .ok ((), encode (blank afterColon) ++ encode value ++ t) :=
    run_expect len (spaces_blank _) (by decide)
  rw [encode_memberChars]
  exact (Reader.run_bind_ok hkey).trans (Reader.run_bind_ok hcolon)

theorem run_member_error (h : key.all StringPart.simple = false) (t : Bytes) :
    ∃ e, (readMember extensionJson len member s).1.run
      (encode (memberChars key beforeColon afterColon value) ++ t) = .error e := by
  obtain ⟨e, he⟩ := (run_quoted len spaces_nil key (encode (blank beforeColon)
    ++ 0x3A :: (encode (blank afterColon) ++ encode value ++ t))).2 h
  refine ⟨e, ?_⟩
  rw [encode_memberChars]
  exact (Reader.run_bind ..).trans (by rw [he])

theorem memberChars_head : ∃ b w, encode (memberChars key beforeColon afterColon value) = b :: w ∧
    isJsonSpace b = false ∧ b ≠ 0x7D :=
  ⟨0x22, _, by rw [memberChars, quoted, List.cons_append, encode_cons]; rfl, by decide⟩

end

/-- No bracket is where a number goes on. -/
theorem expect_numberRest (len : ℕ) {b c : UInt8} (h : IsNumberRest b) (hc : ¬ IsNumberRest c)
    (u : Bytes) : ∃ e, (expect len c : ExtM Unit).run (b :: u) = .error e := by
  have hb : b ≠ c := by
    rintro rfl
    exact hc h
  have hfound : (consumeIf c : ExtM Bool).run (b :: u) = .ok (false, b :: u) := by
    rw [consumeIf_eq, List.head?_cons, if_neg fun h => hb (Option.some.inj h)]
  refine ⟨JsonError.malformed
    s!"expected `{String.singleton (asChar c)}` at pos {len - (b :: u).length}", ?_⟩
  rw [expect, Reader.run_bind_ok (skipWs_solid (solid_cons h.solid.1)), Reader.run_bind_ok hfound]
  rfl

theorem readMember_numberRest {σ : Type} (len : ℕ) (member : String → σ → ExtM σ) (s : σ)
    {b : UInt8} (h : IsNumberRest b) (u : Bytes) :
    ∃ e, (readMember extensionJson len member s).1.run (b :: u) = .error e := by
  obtain ⟨e, he⟩ := expect_numberRest len h (c := 0x22) (by rintro (h | h | h) <;> cases h) u
  refine ⟨e, ?_⟩
  have hstr : (jsonStr extensionJson len).run (b :: u) = .error e := by
    rw [jsonStr, stringWith, Reader.run_bind_ok (skipWs_solid (solid_cons h.solid.1)),
      Reader.run_bind, he]
  exact (Reader.run_bind ..).trans (by rw [hstr])

theorem parseOneSummary_numberRest (len : ℕ) {b : UInt8} (h : IsNumberRest b) (u : Bytes) :
    ∃ e, (parseOneSummary len).run (b :: u) = .error e := by
  obtain ⟨e, he⟩ := expect_numberRest len h (c := 0x7B) (by rintro (h | h | h) <;> cases h) u
  refine ⟨e, ?_⟩
  have hobject : (jsonObject extensionJson len (SummaryFields.read len) {}).run (b :: u) = .error e := by
    rw [jsonObject, Reader.run_bind, he]
  exact (Reader.run_bind ..).trans (by rw [hobject])

/-- The outcome of an item that is skipped, if it can be. -/
def outcome {σ : Type} (b : Bool) : Option (σ → Except IcebergIndexError σ) :=
  if b then some fun s => .ok s else none

/-- A member whose key is skipped as a string and whose value is skipped. -/
theorem itemReads_member {σ : Type} {len : ℕ} {member : String → σ → ExtM σ}
    {key : List StringPart} {beforeColon afterColon before after : List Space} {value : List Char}
    {b : Bool} {r : ExtM Unit}
    (hmember : ∀ s, key.all StringPart.simple = true →
      member (String.ofList (heardParts false key)) s = (fun _ => s) <$> r)
    (hvalue : Skips b r (encode (blank afterColon) ++ encode value)) :
    ItemReads 0x7D (readMember extensionJson len member)
      { before := encode (blank before)
        text := encode (memberChars key beforeColon afterColon value)
        after := encode (blank after) }
      (outcome (key.all StringPart.simple && b)) := by
  refine ⟨⟨spaces_blank _, spaces_blank _, memberChars_head ..⟩, fun s => ?_⟩
  cases hkey : key.all StringPart.simple with
  | false => exact fun t _ => .inl (run_member_error len member s key _ _ _ hkey t)
  | true =>
    cases b with
    | true =>
      intro t ht
      rw [run_member len member s key _ _ _ hkey, hmember s hkey, Reader.run_map, hvalue.1 rfl t ht]
      rfl
    | false =>
      intro t ht
      rw [run_member len member s key _ _ _ hkey, hmember s hkey, Reader.run_map]
      rcases hvalue.2 rfl t ht with ⟨e, he⟩ | ⟨a, b, u, hu, hb⟩
      · rw [he]
        exact .inl ⟨e, rfl⟩
      · rw [hu]
        exact .inr ⟨s, b, u, rfl, hb⟩

/-! ### The whole grammar -/

section
variable (len : ℕ)

/-- A value after white space is read by its first byte. -/
theorem skips_first {depth : ℕ} {x : Json} {c : UInt8} {v : Bytes} {b : Bool}
    (htext : encode x.chars = c :: v)
    (h : Skips b (skipFirst extensionJson len (skipValueFrom extensionJson len depth) c)
      (encode x.chars)) {w : Bytes} (hw : Spaces w) :
    Skips b (skipValueFrom extensionJson len (depth + 1)).1 (w ++ encode x.chars) := by
  obtain ⟨c', v', hv', hsolid, -⟩ := value_head x
  obtain rfl : c' = c := (List.cons.inj (hv'.symm.trans htext)).1
  have hrun : ∀ t, (skipValueFrom extensionJson len (depth + 1)).1.run (w ++ encode x.chars ++ t)
      = (skipFirst extensionJson len (skipValueFrom extensionJson len depth) c').run
        (encode x.chars ++ t) := by
    intro t
    have hskip : (skipWs : ExtM Unit).run (w ++ (encode x.chars ++ t)) = .ok ((), encode x.chars ++ t) := by
      rw [htext]
      exact skipWs_run hw (solid_cons hsolid)
    rw [List.append_assoc]
    refine (Reader.run_bind_ok hskip).trans ?_
    rw [htext, List.cons_append, Reader.run_bind_ok (Reader.run_peek _), List.head?_cons]
  exact ⟨fun hb t ht => by rw [hrun, h.1 hb t ht], fun hb t ht => by rw [hrun]; exact h.2 hb t ht⟩

/-- Nothing that is skipped begins where a number goes on. -/
theorem skipValue_numberRest (depth : ℕ) {b : UInt8} (h : IsNumberRest b) (u : Bytes) :
    ∃ e, (skipValueFrom extensionJson len depth).1.run (b :: u) = .error e := by
  cases depth with
  | zero => exact ⟨_, rfl⟩
  | succ depth =>
    have hskip : (skipWs : ExtM Unit).run (b :: u) = .ok ((), b :: u) :=
      skipWs_solid (solid_cons h.solid.1)
    have hrun : (skipValueFrom extensionJson len (depth + 1)).1.run (b :: u)
        = (skipFirst extensionJson len (skipValueFrom extensionJson len depth) b).run (b :: u) :=
      Reader.run_bind_ok hskip
    rw [hrun]
    rcases h with rfl | rfl | rfl <;> exact ⟨_, rfl⟩

/-- The loop over items that are skipped. -/
theorem skips_items {close : UInt8} (hend : close = 0x5D ∨ close = 0x7D)
    {item : Unit → {r : ExtM Unit // Consumes r}}
    (hrest : ∀ s b u, IsNumberRest b → ∃ e, (item s).1.run (b :: u) = .error e)
    {ps : List Padded} {bs : List Bool}
    (h : List.Forall₂ (fun p b => ItemReads close item p (outcome b)) ps bs) {pad : Bytes}
    (hpad : Spaces pad) {r : ExtM Unit} {w : Bytes} {o : UInt8} (ho : isJsonSpace o = false)
    (hr : r = do
      expect len o
      (itemLoop close item).run ())
    (hw : w = o :: itemsText close ps pad) : Skips (bs.all id) r w := by
  have hos : List.Forall₂ (ItemReads close item) ps (bs.map outcome) :=
    List.forall₂_map_right_iff.mpr h
  have hopen : ∀ t, r.run (w ++ t) = ((itemLoop close item).run ()).run (itemsText close ps pad ++ t) := by
    intro t
    have hexpect : (expect len o : ExtM Unit).run (o :: (itemsText close ps pad ++ t))
        = .ok ((), itemsText close ps pad ++ t) := run_expect len spaces_nil ho
    rw [hr, hw]
    exact Reader.run_bind_ok hexpect
  constructor
  · intro hall t ht
    rw [hopen]
    refine items_skipped hend hos (fun o ho => ?_) hpad () t ht
    obtain ⟨b, hb, rfl⟩ := List.mem_map.mp ho
    have htrue : b = true := List.all_eq_true.mp hall b hb
    rw [outcome, if_pos htrue]
  · intro hall t _
    obtain ⟨b, hb, hfalse⟩ := List.all_eq_false.mp hall
    have hne : ¬ b = true := hfalse
    have hnone : none ∈ bs.map (@outcome Unit) := List.mem_map.mpr ⟨b, hb, if_neg hne⟩
    rw [hopen]
    exact .inl (items_stuck hend hrest hos hnone hpad () t)

/-- Strings that are skipped. -/
theorem skips_quoted (parts : List StringPart) : Skips (parts.all StringPart.simple)
    ((fun _ => ()) <$> jsonStr extensionJson len) (encode (quoted parts)) := by
  constructor
  · intro h t _
    have hrun := (run_quoted len spaces_nil parts t).1 h
    rw [List.nil_append] at hrun
    rw [Reader.run_map, hrun]
    rfl
  · intro h t _
    obtain ⟨e, he⟩ := (run_quoted len spaces_nil parts t).2 h
    rw [List.nil_append] at he
    exact .inl ⟨e, by rw [Reader.run_map, he]⟩

/-- Which elements are simple. -/
def Elements.flags : Elements → List Bool
  | .nil _ => []
  | .cons _ value _ rest => value.simple :: rest.flags

/-- Which members are simple. -/
def Members.flags : Members → List Bool
  | .nil _ => []
  | .cons _ key _ _ value _ rest => (key.all StringPart.simple && value.simple) :: rest.flags

theorem Elements.all_flags : ∀ es : Elements, es.flags.all id = es.simple
  | .nil _ => by rw [Elements.simple]; rfl
  | .cons _ value _ rest => by
    rw [Elements.flags, List.all_cons, rest.all_flags, Elements.simple, id]

theorem Members.all_flags : ∀ ms : Members, ms.flags.all id = ms.simple
  | .nil _ => by rw [Members.simple]; rfl
  | .cons _ key _ _ value _ rest => by
    rw [Members.flags, List.all_cons, rest.all_flags, Members.simple, id]

theorem length_bracketed {o c : Char} (cs : List Char) (ho : o.toNat < 128) (hc : c.toNat < 128) :
    (encode (o :: (cs ++ [c]))).length = (encode cs).length + 2 := by
  rw [encode_cons, encode_append, encode_cons, encode_nil, encodeChar_ascii ho, encodeChar_ascii hc]
  simp

theorem length_element (before : List Space) (value : Json) (after : List Space) (rest : Elements) :
    (encode value.chars).length ≤ (encode (Elements.cons before value after rest).chars).length ∧
    (encode rest.chars).length ≤ (encode (Elements.cons before value after rest).chars).length := by
  cases rest with
  | nil pad =>
    rw [Elements.chars, Elements.chars]
    simp only [encode_append, List.length_append]
    omega
  | cons before' value' after' rest =>
    rw [Elements.chars]
    simp only [encode_append, encode_cons, List.length_append]
    omega

theorem length_member (before : List Space) (key : List StringPart) (beforeColon afterColon : List Space)
    (value : Json) (after : List Space) (rest : Members) :
    (encode value.chars).length ≤ (encode (Members.cons before key beforeColon afterColon value
      after rest).chars).length ∧
    (encode rest.chars).length ≤ (encode (Members.cons before key beforeColon afterColon value
      after rest).chars).length := by
  cases rest with
  | nil pad =>
    rw [Members.chars, Members.chars, memberChars]
    simp only [encode_append, encode_cons, List.length_append]
    omega
  | cons before' key' beforeColon' afterColon' value' after' rest =>
    rw [Members.chars, memberChars]
    simp only [encode_append, encode_cons, List.length_append]
    omega

mutual

/-- **Values** are skipped if and only if they are simple; by induction on the
    syntax tree, inside as many brackets as the text has bytes. -/
theorem skips_json : ∀ (x : Json) (depth : ℕ), (encode x.chars).length ≤ depth →
    ∀ w : Bytes, Spaces w → Skips x.simple (skipValueFrom extensionJson len depth).1 (w ++ encode x.chars)
  | x, 0, h, _, _ => by
    obtain ⟨c, w, hw, -⟩ := value_head x
    rw [hw] at h
    cases h
  | .null, depth + 1, _, _, hw => by
    refine skips_first len (c := 0x6E) (v := [0x75, 0x6C, 0x6C]) (by rw [Json.chars]; decide) ?_ hw
    rw [Json.simple, Json.chars]
    exact @skips_literal _ "null" _ (by decide) rfl
  | .bool true, depth + 1, _, _, hw => by
    refine skips_first len (c := 0x74) (v := [0x72, 0x75, 0x65]) (by rw [Json.chars]; decide) ?_ hw
    rw [Json.simple, Json.chars]
    exact @skips_literal _ "true" _ (by decide) rfl
  | .bool false, depth + 1, _, _, hw => by
    refine skips_first len (c := 0x66) (v := [0x61, 0x6C, 0x73, 0x65]) (by rw [Json.chars]; decide) ?_ hw
    rw [Json.simple, Json.chars]
    exact @skips_literal _ "false" _ (by decide) rfl
  | .number n, depth + 1, _, _, hw => by
    obtain ⟨c, v, hv, hc⟩ := digit_head n
    have htext : encode (Json.number n).chars = c :: v := by rw [Json.chars, hv]
    refine skips_first len htext ?_ hw
    rw [extScalar_number len hc, Json.simple, Json.chars]
    exact skips_number n
  | .string parts, depth + 1, _, _, hw => by
    have htext : ∃ v, encode (Json.string parts).chars = 0x22 :: v := by
      rw [Json.chars, quoted, encode_cons]
      exact ⟨_, rfl⟩
    obtain ⟨v, htext⟩ := htext
    refine skips_first len htext ?_ hw
    rw [Json.simple, Json.chars]
    exact skips_quoted len parts
  | .array es, depth + 1, h, _, hw => by
    have htext : encode (Json.array es).chars = 0x5B :: itemsText 0x5D es.padded es.pad := by
      rw [← encode_elements, Json.chars, encode_cons, encode_append]
      rfl
    have hlen : (encode es.chars).length ≤ depth := by
      rw [Json.chars, length_bracketed _ (by decide) (by decide)] at h
      omega
    refine skips_first len htext ?_ hw
    rw [Json.simple, ← es.all_flags]
    exact skips_items len (.inl rfl) (fun _ b u hb => skipValue_numberRest len depth hb u)
      (reads_elements es depth hlen) es.spaces_pad (by decide) rfl htext
  | .object ms, depth + 1, h, _, hw => by
    have htext : encode (Json.object ms).chars = 0x7B :: itemsText 0x7D ms.padded ms.pad := by
      rw [← encode_members, Json.chars, encode_cons, encode_append]
      rfl
    have hlen : (encode ms.chars).length ≤ depth := by
      rw [Json.chars, length_bracketed _ (by decide) (by decide)] at h
      omega
    refine skips_first len htext ?_ hw
    rw [Json.simple, ← ms.all_flags]
    exact skips_items len (.inr rfl) (fun s b u hb => readMember_numberRest len _ s hb u)
      (reads_members ms depth hlen) ms.spaces_pad (by decide) rfl htext

theorem reads_elements : ∀ (es : Elements) (depth : ℕ), (encode es.chars).length ≤ depth →
    List.Forall₂ (fun p b => ItemReads 0x5D (fun _ : Unit => skipValueFrom extensionJson len depth) p
      (outcome b)) es.padded es.flags
  | .nil _, _, _ => .nil
  | .cons before value after rest, depth, h => by
    obtain ⟨hvalue, hrest⟩ := length_element before value after rest
    have hskips := skips_json value depth (hvalue.trans h) [] spaces_nil
    refine .cons ⟨⟨spaces_blank _, spaces_blank _, value_head value⟩, fun s => ?_⟩
      (reads_elements rest depth (hrest.trans h))
    cases hsimple : value.simple with
    | true => exact hskips.1 hsimple
    | false => exact hskips.2 hsimple

theorem reads_members : ∀ (ms : Members) (depth : ℕ), (encode ms.chars).length ≤ depth →
    List.Forall₂ (fun p b => ItemReads 0x7D (readMember extensionJson len
      fun _ (_ : Unit) => (skipValueFrom extensionJson len depth).1) p (outcome b)) ms.padded ms.flags
  | .nil _, _, _ => .nil
  | .cons before key beforeColon afterColon value after rest, depth, h => by
    obtain ⟨hvalue, hrest⟩ := length_member before key beforeColon afterColon value after rest
    have hskips := skips_json value depth (hvalue.trans h) _ (spaces_blank afterColon)
    refine .cons ?_ (reads_members rest depth (hrest.trans h))
    exact itemReads_member (fun s _ => (id_map _).symm) hskips

end

/-- **Skipped values.** -/
theorem skips_skipValue (x : Json) {w : Bytes} (hw : Spaces w) :
    Skips x.simple (skipValue extensionJson len) (w ++ encode x.chars) := by
  have hrun : ∀ t, (skipValue extensionJson len).run (w ++ encode x.chars ++ t)
      = (skipValueFrom extensionJson len ((w ++ encode x.chars ++ t).length + 1)).1.run
        (w ++ encode x.chars ++ t) := fun t => Reader.run_bind_ok (Reader.run_remaining _)
  have hskips : ∀ t, Skips x.simple
      (skipValueFrom extensionJson len ((w ++ encode x.chars ++ t).length + 1)).1
      (w ++ encode x.chars) := by
    intro t
    refine skips_json len x _ ?_ w hw
    simp only [List.length_append]
    omega
  exact ⟨fun hb t ht => by rw [hrun, (hskips t).1 hb t ht],
    fun hb t ht => by rw [hrun]; exact (hskips t).2 hb t ht⟩

end

/-! ## An extra member -/

/-- A member with white space around its parts. -/
structure Extra where
  before : List Space := []
  key : List StringPart
  beforeColon : List Space := []
  afterColon : List Space := []
  value : Json
  after : List Space := []

/-- The text of an extra member. -/
def Extra.text (m : Extra) : String := String.ofList (blank m.before
  ++ (memberChars m.key m.beforeColon m.afterColon m.value.chars ++ blank m.after))

/-- Key and value are such as the parser can skip. -/
def Extra.simple (m : Extra) : Bool := m.key.all StringPart.simple && m.value.simple

/-- The key stands for none of these names. -/
def Extra.Unknown (m : Extra) (names : List String) : Prop := ∀ v ∈ names, units m.key ≠ textUnits v

instance (m : Extra) (names : List String) : Decidable (m.Unknown names) :=
  inferInstanceAs (Decidable (∀ v ∈ names, _))

/-- The keys that the extension reads. -/
def extensionKeys : List String := ["version", "sidecar_relative_path", "summaries"]

/-- The keys that a summary reads. -/
def summaryKeys : List String := ["name", "min_key", "max_key", "dataset_bloom_hex"]

/-- The texts with an extra member in the object or in that of a summary. -/
inductive EmatixDataFileExtension.Inserted (e : EmatixDataFileExtension) (m : Extra) : String → Prop
  | top {before after} : m.Unknown extensionKeys →
    e.members (e.summaries.map IndexSummary.write) = before ++ after →
    Inserted e m (objectString (before ++ m.text :: after))
  | summary {front s back before after} : m.Unknown summaryKeys → e.summaries = front ++ s :: back →
    s.members = before ++ after →
    Inserted e m (objectString (e.members (front.map IndexSummary.write
      ++ objectString (before ++ m.text :: after) :: back.map IndexSummary.write)))

/-! ### Keys -/

/-- A character that no escape stands for. -/
def OrdinaryChar (c : Char) : Prop := PlainChar c ∧ c ≠ '/'

instance : DecidablePred OrdinaryChar := fun _ => inferInstanceAs (Decidable (_ ∧ _))

theorem not_ordinary {e : EscapeLetter} (h : e.simple = true) : ¬ OrdinaryChar (Char.ofNat e.unit) := by
  cases e <;> revert h <;> decide

/-- A key that is heard in ordinary characters has no escapes. -/
theorem units_of_heard {parts : List StringPart} (hsimple : parts.all StringPart.simple = true)
    {l : List Char} (h : heardParts false parts = l) (hl : ∀ c ∈ l, OrdinaryChar c) :
    units parts = l.flatMap charUnits := by
  induction parts generalizing l with
  | nil =>
    subst h
    rfl
  | cons part parts ih =>
    rw [List.all_cons, Bool.and_eq_true] at hsimple
    cases part with
    | char c hc =>
      rw [heardParts, if_neg (by decide), List.singleton_append] at h
      subst h
      have hrest := ih hsimple.2 rfl fun c hc => hl c (List.mem_cons_of_mem _ hc)
      rw [units] at hrest ⊢
      rw [List.flatMap_cons, List.flatMap_cons, hrest]
      rfl
    | escape e =>
      rw [heardParts] at h
      subst h
      exact absurd (hl _ List.mem_cons_self) (not_ordinary hsimple.1)
    | unicode h₁ h₂ h₃ h₄ => exact absurd hsimple.1 Bool.false_ne_true

/-- An unknown key is not heard as a known one. -/
theorem Extra.Unknown.heard {m : Extra} {names : List String} (h : m.Unknown names)
    (hsimple : m.key.all StringPart.simple = true)
    (hnames : ∀ v ∈ names, ∀ c ∈ v.toList, OrdinaryChar c) :
    ∀ v ∈ names, String.ofList (heardParts false m.key) ≠ v := by
  rintro v hv rfl
  refine h _ hv ?_
  rw [textUnits]
  refine units_of_heard hsimple ?_ (hnames _ hv)
  exact (String.toList_ofList ..).symm

theorem read_unknownExtension {key : String} (h : ∀ v ∈ extensionKeys, key ≠ v) (len : ℕ)
    (s : ExtensionFields) :
    ExtensionFields.read len key s = (fun _ => s) <$> skipValue extensionJson len := by
  refine ExtensionFields.read.eq_4 len key s ?_ ?_ ?_ <;>
  · intro hkey
    exact h _ (by simp [extensionKeys]) hkey

theorem read_unknownSummary {key : String} (h : ∀ v ∈ summaryKeys, key ≠ v) (len : ℕ)
    (s : SummaryFields) :
    SummaryFields.read len key s = (fun _ => s) <$> skipValue extensionJson len := by
  refine SummaryFields.read.eq_5 len key s ?_ ?_ ?_ ?_ <;>
  · intro hkey
    exact h _ (by simp [summaryKeys]) hkey

/-! ### Objects with an extra member -/

section
variable {σ : Type} {len : ℕ} {member : String → σ → ExtM σ}

/-- The extra member as an item. -/
def Extra.padded (m : Extra) : Padded where
  before := encode (blank m.before)
  text := encode (memberChars m.key m.beforeColon m.afterColon m.value.chars)
  after := encode (blank m.after)

theorem Extra.asBytes_text (m : Extra) : asBytes m.text = m.padded.bytes := by
  rw [Extra.text, asBytes_ofList]
  exact (encode_append ..).trans (congrArg _ (encode_append ..))

theorem Extra.itemReads {m : Extra} (hmember : ∀ s, m.key.all StringPart.simple = true →
      member (String.ofList (heardParts false m.key)) s = (fun _ => s) <$> skipValue extensionJson len) :
    ItemReads 0x7D (readMember extensionJson len member) m.padded (outcome m.simple) :=
  itemReads_member hmember (skips_skipValue len m.value (spaces_blank _))

theorem IsMember.itemReads {w : Bytes} {g : σ → Except IcebergIndexError σ}
    (h : IsMember extensionJson len member w g) :
    ItemReads 0x7D (readMember extensionJson len member) { text := w } (some g) := by
  obtain ⟨⟨key, v, rfl⟩, hread⟩ := h
  exact ⟨⟨spaces_nil, spaces_nil, memberText_head key v (by decide)⟩, hread⟩

/-- The members around the extra one. -/
theorem itemReads_members {ws : List Bytes} {gs : List (σ → Except IcebergIndexError σ)}
    (h : List.Forall₂ (IsMember extensionJson len member) ws gs) :
    List.Forall₂ (ItemReads 0x7D (readMember extensionJson len member))
      (ws.map fun w => { text := w }) (gs.map some) :=
  List.forall₂_map_left_iff.mpr (List.forall₂_map_right_iff.mpr (h.imp fun _ _ h => h.itemReads))

theorem itemsText_extra (ws₁ ws₂ : List Bytes) (m : Extra) :
    joinComma (ws₁ ++ m.padded.bytes :: ws₂) ++ [0x7D]
      = itemsText 0x7D ((ws₁.map fun w => ({ text := w } : Padded)) ++ m.padded
        :: ws₂.map fun w => ({ text := w } : Padded)) [] := by
  simp [itemsText, Padded.bytes, Function.comp_def]

/-- The outcomes of the members on either side. -/
theorem split_members {R : Bytes → (σ → Except IcebergIndexError σ) → Prop} {ws₁ ws₂ : List Bytes}
    {gs : List (σ → Except IcebergIndexError σ)} (h : List.Forall₂ R (ws₁ ++ ws₂) gs) :
    ∃ gs₁ gs₂, gs = gs₁ ++ gs₂ ∧ List.Forall₂ R ws₁ gs₁ ∧ List.Forall₂ R ws₂ gs₂ := by
  induction ws₁ generalizing gs with
  | nil => exact ⟨[], gs, rfl, .nil, h⟩
  | cons w ws₁ ih =>
    cases h with
    | cons hw h =>
      obtain ⟨gs₁, gs₂, rfl, h₁, h₂⟩ := ih h
      exact ⟨_ :: gs₁, gs₂, rfl, .cons hw h₁, h₂⟩

theorem run_object {w : Bytes} (s : σ) (t : Bytes) : (jsonObject extensionJson len member s).run (0x7B :: w ++ t)
    = ((itemLoop 0x7D (readMember extensionJson len member)).run s).run (w ++ t) := by
  have hopen : (expect len 0x7B : ExtM Unit).run (0x7B :: (w ++ t)) = .ok ((), w ++ t) :=
    run_expect len spaces_nil (by decide)
  exact Reader.run_bind_ok hopen

/-- **A simple extra member** changes nothing. -/
theorem reads_object_extra {follow : Bytes → Prop} {ws₁ ws₂ : List Bytes}
    {gs : List (σ → Except IcebergIndexError σ)} {m : Extra}
    (h : List.Forall₂ (IsMember extensionJson len member) (ws₁ ++ ws₂) gs)
    (hm : ItemReads 0x7D (readMember extensionJson len member) m.padded (outcome m.simple))
    (hsimple : m.simple = true) (s : σ) :
    Reads follow (gs.foldlM (fun s g => g s) s) (jsonObject extensionJson len member s)
      (0x7B :: (joinComma (ws₁ ++ m.padded.bytes :: ws₂) ++ [0x7D])) := by
  obtain ⟨gs₁, gs₂, rfl, h₁, h₂⟩ := split_members h
  rw [hsimple] at hm
  have hplain : ∀ {ws : List Bytes} {gs : List (σ → Except IcebergIndexError σ)},
      List.Forall₂ (IsMember extensionJson len member) ws gs →
      List.Forall₂ (fun p (g : σ → Except IcebergIndexError σ) => p.IsItem 0x7D ∧
        ∀ s, Reads Ended (g s) (readMember extensionJson len member s).1 p.text)
        (ws.map fun w => ({ text := w } : Padded)) gs :=
    fun h => List.forall₂_map_left_iff.mpr (h.imp fun _ _ h => h.itemReads)
  have hitems := List.rel_append (hplain h₁) (.cons hm (hplain h₂))
  have hfold : (gs₁ ++ (fun s => .ok s) :: gs₂).foldlM (fun s g => g s) s
      = (gs₁ ++ gs₂).foldlM (fun s g => g s) s := by
    simp only [List.foldlM_append, List.foldlM_cons]
    rfl
  have hread : Reads follow _ _ _ := reads_padded (.inr rfl) hitems spaces_nil s
  rw [hfold, ← itemsText_extra] at hread
  exact fun t ht => (run_object s t).trans (hread t ht)

/-- **Any other extra member** makes the object fail. -/
theorem object_extra_error {ws₁ ws₂ : List Bytes} {gs : List (σ → Except IcebergIndexError σ)}
    {m : Extra} (h : List.Forall₂ (IsMember extensionJson len member) (ws₁ ++ ws₂) gs)
    (hm : ItemReads 0x7D (readMember extensionJson len member) m.padded (outcome m.simple))
    (hsimple : m.simple = false) (s : σ) (t : Bytes) :
    ∃ e, (jsonObject extensionJson len member s).run
      (0x7B :: (joinComma (ws₁ ++ m.padded.bytes :: ws₂) ++ [0x7D]) ++ t) = .error e := by
  obtain ⟨gs₁, gs₂, rfl, h₁, h₂⟩ := split_members h
  rw [hsimple] at hm
  have hitems := List.rel_append (itemReads_members h₁) (.cons hm (itemReads_members h₂))
  have hnone : none ∈ gs₁.map some ++ none :: gs₂.map some := by simp
  rw [run_object, itemsText_extra]
  exact items_stuck (.inr rfl) (fun s b u hb => readMember_numberRest len member s hb u) hitems hnone
    spaces_nil s t

end

/-! ### Summaries with an extra member -/

theorem asBytes_extra (before after : List String) (m : Extra) :
    asBytes (objectString (before ++ m.text :: after)) = 0x7B ::
      (joinComma (before.map asBytes ++ m.padded.bytes :: after.map asBytes) ++ [0x7D]) := by
  rw [asBytes_objectString, List.map_append, List.map_cons, m.asBytes_text]

section
variable {m : Extra} {summary : IndexSummary} {before after : List String}

theorem Extra.Unknown.inSummary (h : m.Unknown summaryKeys) (len : ℕ) :
    ItemReads 0x7D (readMember extensionJson len (SummaryFields.read len)) m.padded
      (outcome m.simple) :=
  Extra.itemReads fun s hkey => read_unknownSummary (h.heard hkey (by decide)) len s

theorem Extra.Unknown.inExtension (h : m.Unknown extensionKeys) (len : ℕ) :
    ItemReads 0x7D (readMember extensionJson len (ExtensionFields.read len)) m.padded
      (outcome m.simple) :=
  Extra.itemReads fun s hkey => read_unknownExtension (h.heard hkey (by decide)) len s

theorem reads_summary_extra {follow : Bytes → Prop} (len : ℕ) (hu : m.Unknown summaryKeys)
    (hs : summary.members = before ++ after) (hsimple : m.simple = true) :
    Reads follow summary.heard (parseOneSummary len)
      (asBytes (objectString (before ++ m.text :: after))) := by
  have hmembers := isMember_summary len summary
  rw [hs, List.map_append] at hmembers
  have hobject : Reads follow _ _ _ := reads_object_extra hmembers (hu.inSummary len) hsimple {}
  rw [fold_summary] at hobject
  rw [asBytes_extra]
  exact hobject.bind_conclude fun _ => rfl

theorem summary_extra_error (len : ℕ) (hu : m.Unknown summaryKeys)
    (hs : summary.members = before ++ after) (hsimple : m.simple = false) (t : Bytes) :
    ∃ e, (parseOneSummary len).run (asBytes (objectString (before ++ m.text :: after)) ++ t)
      = .error e := by
  have hmembers := isMember_summary len summary
  rw [hs, List.map_append] at hmembers
  obtain ⟨e, he⟩ := object_extra_error hmembers (hu.inSummary len) hsimple {} t
  refine ⟨e, ?_⟩
  rw [asBytes_extra, parseOneSummary, Reader.run_bind, he]

theorem object_head (ms : List String) :
    ∃ b w, asBytes (objectString ms) = b :: w ∧ isJsonSpace b = false ∧ b ≠ 0x5D := by
  rw [asBytes_objectString]
  exact brace_head _

theorem summary_head (s : IndexSummary) :
    ∃ b w, asBytes s.write = b :: w ∧ isJsonSpace b = false ∧ b ≠ 0x5D := by
  rw [asBytes_writeSummary]
  exact brace_head _

theorem reads_summaries_extra {follow : Bytes → Prop} (len : ℕ) (hu : m.Unknown summaryKeys)
    (hs : summary.members = before ++ after) (hsimple : m.simple = true) (front back : List IndexSummary) :
    Reads follow ((front ++ summary :: back).mapM IndexSummary.heard) (parseSummaries len)
      (asBytes ("[" ++ (commaSeparated (front.map IndexSummary.write
        ++ objectString (before ++ m.text :: after) :: back.map IndexSummary.write) ++ "]"))) := by
  have hopen : asBytes "[" = [0x5B] := by decide
  have hclose : asBytes "]" = [0x5D] := by decide
  have hplain : ∀ l : List IndexSummary, List.Forall₂ (fun w (x : Except IcebergIndexError IndexSummary) =>
      (∃ b w', w = b :: w' ∧ isJsonSpace b = false ∧ b ≠ 0x5D) ∧ Reads Ended x (parseOneSummary len) w)
      (l.map fun s => asBytes s.write) (l.map IndexSummary.heard) :=
    fun l => List.forall₂_map_left_iff.mpr (List.forall₂_map_right_iff.mpr (List.forall₂_same.mpr
      fun s _ => ⟨summary_head s, reads_summary len s⟩))
  have hitems := List.rel_append (hplain front) (.cons
    ⟨object_head (before ++ m.text :: after), reads_summary_extra len hu hs hsimple⟩ (hplain back))
  have hread : Reads follow _ (jsonList len (parseOneSummary len) (parseOneSummary_consumes len)) _ :=
    reads_list hitems
  dsimp only at hread
  have houtcomes : front.map IndexSummary.heard ++ summary.heard :: back.map IndexSummary.heard
      = (front ++ summary :: back).map IndexSummary.heard := by rw [List.map_append, List.map_cons]
  rw [houtcomes, List.mapM_map] at hread
  rw [asBytes_append, asBytes_append, asBytes_commaSeparated, hopen, hclose, List.map_append,
    List.map_cons, List.map_map, List.map_map]
  exact hread

theorem summaries_extra_error (len : ℕ) (hu : m.Unknown summaryKeys)
    (hs : summary.members = before ++ after) (hsimple : m.simple = false) (front back : List IndexSummary)
    (t : Bytes) : ∃ e, (parseSummaries len).run
      (asBytes ("[" ++ (commaSeparated (front.map IndexSummary.write
        ++ objectString (before ++ m.text :: after) :: back.map IndexSummary.write) ++ "]")) ++ t)
      = .error e := by
  have hopen : asBytes "[" = [0x5B] := by decide
  have hclose : asBytes "]" = [0x5D] := by decide
  let item : List IndexSummary → {r : ExtM (List IndexSummary) // Consumes r} :=
    fun out => ⟨(out ++ [·]) <$> parseOneSummary len, (parseOneSummary_consumes len).map _⟩
  have hplain : ∀ l : List IndexSummary, List.Forall₂ (ItemReads 0x5D item)
      (l.map fun s => { text := asBytes s.write })
      (l.map fun s => some fun out => (out ++ [·]) <$> s.heard) :=
    fun l => List.forall₂_map_left_iff.mpr (List.forall₂_map_right_iff.mpr (List.forall₂_same.mpr
      fun s _ => ⟨⟨spaces_nil, spaces_nil, summary_head s⟩, fun out => (reads_summary len s).map _⟩))
  have hextra : ItemReads 0x5D item { text := asBytes (objectString (before ++ m.text :: after)) } none := by
    refine ⟨⟨spaces_nil, spaces_nil, object_head _⟩, fun out t _ => .inl ?_⟩
    obtain ⟨e, he⟩ := summary_extra_error len hu hs hsimple t
    exact ⟨e, (Reader.run_map ..).trans (by rw [he])⟩
  have hrest : ∀ out b u, IsNumberRest b → ∃ e, (item out).1.run (b :: u) = .error e := by
    intro out b u hb
    obtain ⟨e, he⟩ := parseOneSummary_numberRest len hb u
    exact ⟨e, (Reader.run_map ..).trans (by rw [he])⟩
  have hitems := List.rel_append (hplain front) (.cons hextra (hplain back))
  obtain ⟨e, he⟩ := items_stuck (.inl rfl) hrest hitems (by simp) spaces_nil [] t
  refine ⟨e, ?_⟩
  have htext : asBytes ("[" ++ (commaSeparated (front.map IndexSummary.write
      ++ objectString (before ++ m.text :: after) :: back.map IndexSummary.write) ++ "]"))
      = 0x5B :: itemsText 0x5D ((front.map fun s => ({ text := asBytes s.write } : Padded))
        ++ { text := asBytes (objectString (before ++ m.text :: after)) }
        :: back.map fun s => { text := asBytes s.write }) [] := by
    rw [asBytes_append, asBytes_append, asBytes_commaSeparated, hopen, hclose]
    simp [itemsText, Padded.bytes, Function.comp_def]
  have hexpect : (expect len 0x5B : ExtM Unit).run (0x5B :: (itemsText 0x5D
      ((front.map fun s => ({ text := asBytes s.write } : Padded))
        ++ { text := asBytes (objectString (before ++ m.text :: after)) }
        :: back.map fun s => { text := asBytes s.write }) [] ++ t)) = .ok ((), _) :=
    run_expect len spaces_nil (by decide)
  rw [htext]
  exact (Reader.run_bind_ok hexpect).trans he

end

/-! ## Forward compatibility -/

/-- Which strings are heard at all. -/
theorem heardFrom_isSome (heard : Char → List Char) (esc : Bool) (cs : List Char) :
    (heardFrom heard esc cs).isSome ↔ ∀ c ∈ cs, CleanChar c := by
  induction cs generalizing esc with
  | nil => simp [heardFrom]
  | cons c cs ih =>
    rw [heardFrom, List.forall_mem_cons]
    by_cases hplain : PlainChar c
    · have hclean : CleanChar c := .inl hplain.1
      rw [if_pos hplain, Option.map_eq_map, Option.isSome_map, ih, and_iff_right hclean]
    · rw [if_neg hplain]
      by_cases hclean : CleanChar c
      · rw [if_pos hclean, Option.map_eq_map, Option.isSome_map, ih, and_iff_right hclean]
      · simp [hclean]

theorem heardString_isSome (v : String) :
    (heardString bytewise v : Except IcebergIndexError String).toOption.isSome ↔ Clean v := by
  rw [heardString, Clean, ← heardFrom_isSome bytewise false]
  cases heardFrom bytewise false v.toList <;> simp [Except.toOption]

theorem heard_summaries_isSome (summaries : List IndexSummary) :
    (summaries.mapM IndexSummary.heard).toOption.isSome ↔ ∀ s ∈ summaries, Clean s.name := by
  induction summaries with
  | nil => simp [pure, Except.pure, Except.toOption]
  | cons s ss ih =>
    rw [List.mapM_cons, List.forall_mem_cons, ← ih, ← heardString_isSome, IndexSummary.heard]
    cases (heardString bytewise s.name : Except IcebergIndexError String) with
    | error _ => simp [bind, Except.bind, Except.toOption]
    | ok v =>
      cases ss.mapM IndexSummary.heard <;>
        simp [bind, Except.bind, pure, Except.pure, Except.toOption]

/-- An extension is read, rightly or not, if its strings are clean. -/
theorem heard_extension_isSome (e : EmatixDataFileExtension) :
    e.heard.toOption.isSome ↔ ∀ v ∈ e.strings, Clean v := by
  rw [EmatixDataFileExtension.strings, List.forall_mem_cons, List.forall_mem_map,
    ← heard_summaries_isSome, ← heardString_isSome, EmatixDataFileExtension.heard]
  cases (heardString bytewise e.sidecarRelativePath : Except IcebergIndexError String) with
  | error _ => simp [bind, Except.bind, Except.toOption]
  | ok v =>
    cases e.summaries.mapM IndexSummary.heard <;>
      simp [bind, Except.bind, pure, Except.pure, Except.toOption]

section
variable {e : EmatixDataFileExtension} {m : Extra} {s : String}

/-- What `fromJson` makes of a text that is read as an extension. -/
theorem fromJson_of_reads {x : Except IcebergIndexError EmatixDataFileExtension}
    (h : ∀ len, Reads (fun _ => True) x
      (jsonObject extensionJson len (ExtensionFields.read len) {} >>= ExtensionFields.extension)
      (asBytes s)) : EmatixDataFileExtension.fromJson s = x := by
  have hrun := h (asBytes s).length [] trivial
  rw [List.append_nil] at hrun
  rw [EmatixDataFileExtension.fromJson, hrun]
  cases x <;> rfl

theorem fromJson_of_error (h : ∀ len, ∃ err,
    (jsonObject extensionJson len (ExtensionFields.read len) {}).run (asBytes s) = .error err) :
    ∃ err, EmatixDataFileExtension.fromJson s = .error err := by
  obtain ⟨err, herr⟩ := h (asBytes s).length
  refine ⟨err, ?_⟩
  rw [EmatixDataFileExtension.fromJson, Reader.run_bind, herr]
  rfl

/-- With a simple member the text is read as it was without. -/
theorem fromJson_simple (h : e.Inserted m s) (hsimple : m.simple = true) :
    EmatixDataFileExtension.fromJson s = e.heard := by
  refine fromJson_of_reads fun len => ?_
  rw [← id_map e.heard]
  cases h with
  | @top before after hu hsplit =>
    have hmembers := isMember_extension len e (reads_summaries len e.summaries)
    rw [hsplit, List.map_append] at hmembers
    have hobject : Reads (fun _ => True) _ _ _ :=
      reads_object_extra hmembers (hu.inExtension len) hsimple {}
    rw [fold_extension] at hobject
    rw [asBytes_extra]
    exact hobject.bind_conclude fun _ => rfl
  | @summary front summary back before after hu hfront hsplit =>
    have hsummaries : Reads Ended _ _ _ := reads_summaries_extra len hu hsplit hsimple front back
    rw [← hfront] at hsummaries
    have hobject := @reads_object _ _ (fun _ => True) ExtensionFields extensionJson len
      (ExtensionFields.read len) _ _ (isMember_extension len e hsummaries) {}
    rw [fold_extension] at hobject
    rw [asBytes_objectString]
    exact hobject.bind_conclude fun _ => rfl

theorem run_memberText {σ : Type} (len : ℕ) (member : String → σ → ExtM σ) (s : σ) {key : String}
    (hkey : Legible key) (w t : Bytes) :
    (readMember extensionJson len member s).1.run (memberText key w ++ t)
      = (member key s).run (w ++ t) := by
  have hread : (jsonStr extensionJson len).run (asBytes (jsonString key) ++ 0x3A :: (w ++ t))
      = .ok (key, 0x3A :: (w ++ t)) := @reads_legible (fun _ => True) len key hkey _ trivial
  have hcolon : (expect len 0x3A : ExtM Unit).run (0x3A :: (w ++ t)) = .ok ((), w ++ t) :=
    run_expect len spaces_nil (by decide)
  rw [memberText, List.append_assoc, List.cons_append]
  exact (Reader.run_bind_ok hread).trans (Reader.run_bind_ok hcolon)

/-- With any other member the text is refused. -/
theorem fromJson_refused (h : e.Inserted m s) (hsimple : m.simple = false) :
    ∃ err, EmatixDataFileExtension.fromJson s = .error err := by
  refine fromJson_of_error fun len => ?_
  cases h with
  | @top before after hu hsplit =>
    have hmembers := isMember_extension len e (reads_summaries len e.summaries)
    rw [hsplit, List.map_append] at hmembers
    have herror := object_extra_error hmembers (hu.inExtension len) hsimple {} []
    rwa [← asBytes_extra, List.append_nil] at herror
  | @summary front summary back before after hu hfront hsplit =>
    cases isMember_extension len e (reads_summaries len e.summaries) with
    | cons hversion hrest =>
    cases hrest with
    | cons hpath _ =>
    have hstuck : ItemReads 0x7D (readMember extensionJson len (ExtensionFields.read len))
        { text := memberText "summaries" (asBytes ("[" ++ (commaSeparated (front.map IndexSummary.write
          ++ objectString (before ++ m.text :: after) :: back.map IndexSummary.write) ++ "]"))) } none := by
      refine ⟨⟨spaces_nil, spaces_nil, memberText_head _ _ (by decide)⟩, fun s t _ => .inl ?_⟩
      obtain ⟨e, he⟩ := summaries_extra_error len hu hsplit hsimple front back t
      refine ⟨e, ?_⟩
      rw [run_memberText len _ s (by decide), ExtensionFields.read.eq_3, Reader.run_map, he]
    have hitems := List.Forall₂.cons hversion.itemReads (.cons hpath.itemReads (.cons hstuck .nil))
    obtain ⟨e', he⟩ := items_stuck (.inr rfl) (fun s b u hb => readMember_numberRest len _ s hb u) hitems
      (by simp) spaces_nil {} []
    refine ⟨e', ?_⟩
    rw [asBytes_objectString, ← List.append_nil (0x7B :: _), run_object, ← he]
    simp [itemsText, Padded.bytes, EmatixDataFileExtension.members, asBytes_memberString]

/-- **Forward compatibility**: an unknown member leaves the result as it is if
    and only if the parser can skip it, or refuses the extension anyway. -/
theorem forward_compatibility (h : e.Inserted m s) :
    ((EmatixDataFileExtension.fromJson s).toOption
      = (EmatixDataFileExtension.fromJson e.toJson).toOption
      ↔ m.simple = true ∨ ∃ v ∈ e.strings, ¬ Clean v) ∧
    (m.simple = true →
      EmatixDataFileExtension.fromJson s = EmatixDataFileExtension.fromJson e.toJson) := by
  rw [extension_fromJson]
  refine ⟨?_, fun hsimple => fromJson_simple h hsimple⟩
  cases hsimple : m.simple with
  | true => simp [fromJson_simple h hsimple]
  | false =>
    obtain ⟨err, herr⟩ := fromJson_refused h hsimple
    have hclean : (∃ v ∈ e.strings, ¬ Clean v) ↔ e.heard.toOption = none := by
      rw [← Option.not_isSome_iff_eq_none, heard_extension_isSome]
      push Not
      rfl
    rw [herr, hclean]
    exact ⟨fun h => .inr h.symm, fun h => (h.resolve_left (by decide)).symm⟩

end

/-! ## A number with a fraction -/

/-- One summary without bounds. -/
def oneSummary : EmatixDataFileExtension where
  sidecarRelativePath := "a.idx"
  summaries := [{ name := "by key", minKey := none, maxKey := none, datasetBloom := none }]

/-- `"x": value`. -/
def extraX (value : Json) : Extra where
  key := [.char 'x' (by decide)]
  afterColon := [.space]
  value

/-- A member whose value is `[-5, {"/\\n" : true}]`. -/
def nestedExtra : Extra := extraX <| .array <|
  .cons [] (.number { negative := true, int := 5, fraction := none, exponent := none }) [] <|
  .cons [.space] (.object (.cons [] [.char '/' (by decide), .escape .n] [.space] [.space]
    (.bool true) [] (.nil []))) [] (.nil [])

/-- A member whose value is `1.5`. -/
def fractionExtra : Extra := extraX <|
  .number { negative := false, int := 1, fraction := some ⟨5, []⟩, exponent := none }

theorem nested_inserted : oneSummary.Inserted nestedExtra (objectString (oneSummary.members
    ([].map IndexSummary.write ++ objectString ([memberString "name" (jsonString "by key")]
      ++ nestedExtra.text :: []) :: [].map IndexSummary.write))) := by
  refine .summary (by decide +kernel) (List.nil_append _).symm ?_
  simp [IndexSummary.members, optionalMembers]

theorem fraction_inserted : oneSummary.Inserted fractionExtra (objectString ([] ++ fractionExtra.text
    :: oneSummary.members (oneSummary.summaries.map IndexSummary.write))) :=
  .top (by decide +kernel) (List.nil_append _).symm

/-- A nested value in a summary is ignored. -/
theorem forward_nested :
    EmatixDataFileExtension.fromJson (objectString (oneSummary.members
      ([].map IndexSummary.write ++ objectString ([memberString "name" (jsonString "by key")]
        ++ nestedExtra.text :: []) :: [].map IndexSummary.write)))
      = EmatixDataFileExtension.fromJson oneSummary.toJson :=
  (forward_compatibility nested_inserted).2 (by decide +kernel)

/-- A fraction is not: the text is read without the member, and refused with it. -/
theorem forward_fraction :
    oneSummary.Inserted fractionExtra (objectString ([] ++ fractionExtra.text
      :: oneSummary.members (oneSummary.summaries.map IndexSummary.write))) ∧
    (∃ err, EmatixDataFileExtension.fromJson (objectString ([] ++ fractionExtra.text
      :: oneSummary.members (oneSummary.summaries.map IndexSummary.write))) = .error err) ∧
    EmatixDataFileExtension.fromJson oneSummary.toJson = .ok oneSummary := by
  refine ⟨fraction_inserted, fromJson_refused fraction_inserted (by decide +kernel), ?_⟩
  rw [extension_fromJson]
  exact (heard_extension_eq_ok oneSummary).mpr (by decide)

end EmatixParquet
