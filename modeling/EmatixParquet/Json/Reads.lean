/-
  What the parser makes of written JSON.

  * `reads_items`: a loop over items folds what is read of each of them;
  * `stringLoop_escaped`: the loop of a string, on the text the writer writes;
  * `parseU32_toString`, `parseI64_toString`: decimal texts;
  * `reads_object`, `reads_list`: objects and arrays, part by part.
-/
import EmatixParquet.Json.Parser
import EmatixParquet.Wire.Reads

namespace EmatixParquet

open Wire

variable {ε : Type}

/-! ## Texts -/

theorem asBytes_append (s t : String) : asBytes (s ++ t) = asBytes s ++ asBytes t := by
  simp [asBytes, String.toByteArray_append]

theorem asBytes_eq_encode (s : String) : asBytes s = encode s.toList := by
  conv_lhs => rw [← String.ofList_toList (s := s), asBytes_ofList]
  rfl

theorem fromUtf8_asBytes (s : String) : fromUtf8 (asBytes s) = some s := by
  rw [asBytes_eq_encode, fromUtf8_encode, String.ofList_toList]

/-- Texts of bytes with commas between them. -/
def joinComma : List Bytes → Bytes
  | [] => []
  | [w] => w
  | w :: w' :: ws => w ++ 0x2C :: joinComma (w' :: ws)

theorem asBytes_commaSeparated (ss : List String) :
    asBytes (commaSeparated ss) = joinComma (ss.map asBytes) := by
  induction ss using commaSeparated.induct with
  | case1 => decide
  | case2 s => rfl
  | case3 s s' ss ih =>
    rw [commaSeparated, asBytes_append, asBytes_append, ih]
    rfl

/-- Neither a number nor a string goes on. -/
def Ended (t : Bytes) : Prop := ∀ b ∈ t.head?, b = 0x2C ∨ b = 0x3A ∨ b = 0x5D ∨ b = 0x7D ∨ isJsonSpace b

theorem ended_cons {b : UInt8} {t : Bytes}
    (h : b = 0x2C ∨ b = 0x3A ∨ b = 0x5D ∨ b = 0x7D ∨ isJsonSpace b) : Ended (b :: t) := by
  rintro _ ⟨⟩
  exact h

theorem isJsonSpace_iff {b : UInt8} :
    isJsonSpace b = true ↔ b = 0x20 ∨ b = 0x09 ∨ b = 0x0A ∨ b = 0x0D := by
  simp [isJsonSpace, or_assoc]

/-- White space. -/
def Spaces (w : Bytes) : Prop := ∀ b ∈ w, isJsonSpace b = true

theorem spaces_nil : Spaces [] := by simp [Spaces]

/-- What a skipped run of spaces leaves. -/
def Solid (t : Bytes) : Prop := ∀ b ∈ t.head?, isJsonSpace b = false

theorem skipWs_run {w t : Bytes} (hw : Spaces w) (ht : Solid t) :
    (skipWs : Reader ε Unit).run (w ++ t) = .ok ((), t) := by
  rw [skipWs, Reader.run_bind_ok (Reader.run_takeWhile_append isJsonSpace hw ht)]
  rfl

theorem skipWs_solid {t : Bytes} (ht : Solid t) : (skipWs : Reader ε Unit).run t = .ok ((), t) :=
  skipWs_run spaces_nil ht

theorem solid_cons {b : UInt8} {t : Bytes} (h : isJsonSpace b = false) : Solid (b :: t) := by
  rintro _ ⟨⟩
  exact h

/-- The expected byte. -/
theorem run_expect [JsonError ε] (len : ℕ) {b : UInt8} {w t : Bytes} (hw : Spaces w) (h : isJsonSpace b = false) :
    (expect len b : Reader ε Unit).run (w ++ b :: t) = .ok ((), t) := by
  have hfound : (consumeIf b : Reader ε Bool).run (b :: t) = .ok (true, t) := by simp [consumeIf_eq]
  rw [expect, Reader.run_bind_ok (skipWs_run hw (solid_cons h)), Reader.run_bind_ok hfound]
  rfl

theorem reads_expect [JsonError ε] {follow : Bytes → Prop} (len : ℕ) {b : UInt8} (h : isJsonSpace b = false) :
    Reads follow (.ok ()) (expect len b : Reader ε Unit) [b] :=
  fun _ _ => run_expect len spaces_nil h

theorem run_tryClose {b c : UInt8} {w t : Bytes} (hw : Spaces w) (h : isJsonSpace c = false) :
    (tryClose b : Reader ε Bool).run (w ++ c :: t)
      = .ok (if c = b then (true, t) else (false, c :: t)) := by
  rw [tryClose, Reader.run_bind_ok (skipWs_run hw (solid_cons h)), consumeIf_eq]
  by_cases hc : c = b <;> simp [hc]

theorem run_consumeComma {w t : Bytes} (hw : Spaces w) :
    (consumeCommaOrClose : Reader ε Unit).run (w ++ 0x2C :: t) = .ok ((), t) := by
  have hfound : (consumeIf 0x2C : Reader ε Bool).run (0x2C :: t) = .ok (true, t) := by
    simp [consumeIf_eq]
  rw [consumeCommaOrClose, Reader.run_bind_ok (skipWs_run hw (solid_cons (by decide))),
    Reader.run_bind_ok hfound]
  rfl

theorem run_consumeNoComma {c : UInt8} {w t : Bytes} (hw : Spaces w) (h : isJsonSpace c = false)
    (hc : c ≠ 0x2C) : (consumeCommaOrClose : Reader ε Unit).run (w ++ c :: t) = .ok ((), c :: t) := by
  have hfound : (consumeIf 0x2C : Reader ε Bool).run (c :: t) = .ok (false, c :: t) := by
    simp [consumeIf_eq, hc]
  rw [consumeCommaOrClose, Reader.run_bind_ok (skipWs_run hw (solid_cons h)),
    Reader.run_bind_ok hfound]
  rfl

/-! ## Items -/

section
variable {σ : Type}

/-- A text with white space around it. -/
structure Padded where
  before : Bytes := []
  text : Bytes
  after : Bytes := []

/-- The text with the whitespace around it. -/
def Padded.bytes (p : Padded) : Bytes := p.before ++ (p.text ++ p.after)

/-- The text of an item, which does not close the list it is in. -/
structure Padded.IsItem (p : Padded) (close : UInt8) : Prop where
  before : Spaces p.before
  after : Spaces p.after
  head : ∃ b w, p.text = b :: w ∧ isJsonSpace b = false ∧ b ≠ close

/-- One item, up to the comma after it. -/
theorem itemLoop_step {close : UInt8} {item : σ → {r : Reader ε σ // Consumes r}} {p : Padded}
    (hp : p.IsItem close) (s : σ) (t : Bytes) :
    ((itemLoop close item).step s).run (p.bytes ++ t)
      = ((item s).1 >>= fun s => consumeCommaOrClose >>= fun _ => pure (.inl s)).run
          (p.text ++ (p.after ++ t)) := by
  obtain ⟨b, w, htext, hspace, hclose⟩ := hp.head
  have hopen : (tryClose close : Reader ε Bool).run (p.bytes ++ t)
      = .ok (false, p.text ++ (p.after ++ t)) := by
    have h := @run_tryClose ε close b p.before (w ++ (p.after ++ t)) hp.before hspace
    rw [if_neg hclose] at h
    rw [Padded.bytes, htext]
    simpa using h
  exact Reader.run_bind_ok hopen

/-- The items of a list from one on, and its end. -/
def itemsText (close : UInt8) (ps : List Padded) (pad : Bytes) : Bytes :=
  joinComma (ps.map Padded.bytes) ++ (pad ++ [close])

theorem ended_spaces {w t : Bytes} (hw : Spaces w) (ht : Ended t) : Ended (w ++ t) := by
  cases w with
  | nil => exact ht
  | cons b w => exact ended_cons (.inr (.inr (.inr (.inr (hw b List.mem_cons_self)))))

/-- What comes after an item: the comma and the other items, or the end. -/
theorem itemsText_cons {close : UInt8} (hspace : isJsonSpace close = false) (hcomma : close ≠ 0x2C)
    (hend : close = 0x5D ∨ close = 0x7D) {p : Padded} (hp : Spaces p.after) (ps : List Padded)
    {pad : Bytes} (hpad : Spaces pad) (t : Bytes) :
    ∃ sep pad', itemsText close (p :: ps) pad ++ t = p.bytes ++ sep ∧ Ended (p.after ++ sep) ∧
      Spaces pad' ∧ (consumeCommaOrClose : Reader ε Unit).run (p.after ++ sep)
        = .ok ((), itemsText close ps pad' ++ t) := by
  cases ps with
  | nil =>
    have hclose : Ended (close :: t) := ended_cons (by tauto)
    refine ⟨pad ++ close :: t, [], by simp [itemsText, joinComma],
      ended_spaces hp (ended_spaces hpad hclose), spaces_nil, ?_⟩
    have hboth : Spaces (p.after ++ pad) := by
      intro b hb
      rcases List.mem_append.mp hb with hb | hb
      exacts [hp b hb, hpad b hb]
    rw [← List.append_assoc]
    exact run_consumeNoComma hboth hspace hcomma
  | cons q ps =>
    refine ⟨0x2C :: (itemsText close (q :: ps) pad ++ t), pad, by simp [itemsText, joinComma],
      ended_spaces hp (ended_cons (.inl rfl)), hpad, run_consumeComma hp⟩

/-- **Items one after the other**, up to the closing byte. -/
theorem reads_padded {follow : Bytes → Prop} {close : UInt8} (hend : close = 0x5D ∨ close = 0x7D)
    {item : σ → {r : Reader ε σ // Consumes r}} {ps : List Padded} {gs : List (σ → Except ε σ)}
    (h : List.Forall₂ (fun p g => p.IsItem close ∧ ∀ s, Reads Ended (g s) (item s).1 p.text) ps gs)
    {pad : Bytes} (hpad : Spaces pad) (s : σ) :
    Reads follow (gs.foldlM (fun s g => g s) s) ((itemLoop close item).run s)
      (itemsText close ps pad) := by
  have hspace : isJsonSpace close = false := by rcases hend with rfl | rfl <;> decide
  have hcomma : close ≠ 0x2C := by rcases hend with rfl | rfl <;> decide
  induction h generalizing s pad with
  | nil =>
    intro t _
    have hclosed : (tryClose close : Reader ε Bool).run (pad ++ close :: t) = .ok (true, t) := by
      rw [run_tryClose hpad hspace, if_pos rfl]
    refine (itemLoop close item).run_of_inr ?_
    rw [show itemsText close [] pad ++ t = pad ++ close :: t by simp [itemsText, joinComma]]
    exact Reader.run_bind_ok hclosed
  | @cons p g ps gs hp _ ih =>
    intro t ht
    obtain ⟨hitem, hread⟩ := hp
    obtain ⟨sep, pad', htext, hsep, hpad', hcomma⟩ :=
      itemsText_cons (ε := ε) hspace hcomma hend hitem.after ps hpad t
    rw [htext, Loop.run_eq, itemLoop_step hitem, Reader.run_bind, hread s _ hsep, List.foldlM_cons]
    cases g s with
    | error e => rfl
    | ok s' =>
      simp only [Except.map]
      rw [Reader.run_bind_ok hcomma]
      exact ih hpad' s' t ht

/-- Items without white space. -/
theorem reads_items {follow : Bytes → Prop} {close : UInt8} (hend : close = 0x5D ∨ close = 0x7D)
    {item : σ → {r : Reader ε σ // Consumes r}} {ws : List Bytes} {gs : List (σ → Except ε σ)}
    (h : List.Forall₂ (fun w g => (∃ b w', w = b :: w' ∧ isJsonSpace b = false ∧ b ≠ close) ∧
      ∀ s, Reads Ended (g s) (item s).1 w) ws gs) (s : σ) :
    Reads follow (gs.foldlM (fun s g => g s) s) ((itemLoop close item).run s)
      (joinComma ws ++ [close]) := by
  have hps : List.Forall₂ (fun p g => p.IsItem close ∧ ∀ s, Reads Ended (g s) (item s).1 p.text)
      (ws.map fun w => ({ text := w } : Padded)) gs :=
    List.forall₂_map_left_iff.mpr (h.imp fun w g hw => ⟨⟨spaces_nil, spaces_nil, hw.1⟩, hw.2⟩)
  have hread : Reads follow _ _ _ := reads_padded hend hps spaces_nil s
  have htext : itemsText close (ws.map fun w => ({ text := w } : Padded)) [] = joinComma ws ++ [close] := by
    simp [itemsText, Padded.bytes, Function.comp_def]
  rwa [htext] at hread

end

/-! ## Strings -/

/-- The parser knows what the writer writes for this character. -/
def CleanChar (c : Char) : Prop := 0x20 ≤ c.toNat ∨ c = '\n' ∨ c = '\r' ∨ c = '\t'

instance : DecidablePred CleanChar := fun _ => inferInstanceAs (Decidable (_ ∨ _))

/-- No control characters but line feeds, carriage returns and tabs. -/
def Clean (v : String) : Prop := ∀ c ∈ v.toList, CleanChar c

instance : DecidablePred Clean := fun _ => inferInstanceAs (Decidable (∀ c ∈ _, _))

/-- Neither a quote nor a backslash nor a control character. -/
def PlainChar (c : Char) : Prop := 0x20 ≤ c.toNat ∧ c ≠ '"' ∧ c ≠ '\\'

instance : DecidablePred PlainChar := fun _ => inferInstanceAs (Decidable (_ ∧ _))

theorem isPlainByte_of_plainChar {c : Char} (h : PlainChar c) :
    ∀ b ∈ String.utf8EncodeChar c, isPlainByte b = true := by
  intro b hb
  obtain ⟨-, hquote, hslash⟩ := h
  rw [isPlainByte, Bool.and_eq_true, decide_eq_true_eq, decide_eq_true_eq]
  constructor
  · rintro rfl
    exact hquote (char_of_mem_encodeChar hb (by decide))
  · rintro rfl
    exact hslash (char_of_mem_encodeChar hb (by decide))

theorem isPlainByte_of_plain {cs : List Char} (h : ∀ c ∈ cs, PlainChar c) :
    ∀ b ∈ encode cs, isPlainByte b = true := by
  intro b hb
  obtain ⟨c, hc, hb⟩ := List.mem_flatMap.mp hb
  exact isPlainByte_of_plainChar (h c hc) b hb

theorem escapeChar_plain {c : Char} (h : PlainChar c) : escapeChar c = [c] := by
  obtain ⟨hlow, hquote, hslash⟩ := h
  rw [escapeChar, if_neg hquote, if_neg hslash, if_neg, if_neg, if_neg, if_neg (by omega)]
  all_goals
    rintro rfl
    exact absurd hlow (by decide)

/-- Every other character is escaped; the parser knows the escape if and only if
    the character is clean. -/
theorem escapeChar_special {c : Char} (h : ¬ PlainChar c) :
    (CleanChar c ∧ ∃ b, unescape b = some c ∧ encode (escapeChar c) = [0x5C, b]) ∨
    (¬ CleanChar c ∧ ∃ w, encode (escapeChar c) = 0x5C :: 0x75 :: w) := by
  by_cases hquote : c = '"'
  · subst hquote
    exact .inl ⟨by decide, 0x22, by decide, by decide⟩
  by_cases hslash : c = '\\'
  · subst hslash
    exact .inl ⟨by decide, 0x5C, by decide, by decide⟩
  have hlow : c.toNat < 0x20 := by
    by_contra hge
    exact h ⟨by omega, hquote, hslash⟩
  by_cases hn : c = '\n'
  · subst hn
    exact .inl ⟨by decide, 0x6E, by decide, by decide⟩
  by_cases hr : c = '\r'
  · subst hr
    exact .inl ⟨by decide, 0x72, by decide, by decide⟩
  by_cases ht : c = '\t'
  · subst ht
    exact .inl ⟨by decide, 0x74, by decide, by decide⟩
  rw [escapeChar, if_neg hquote, if_neg hslash, if_neg hn, if_neg hr, if_neg ht, if_pos hlow]
  refine .inr ⟨?_, _, rfl⟩
  rintro (h | h | h | h)
  exacts [by omega, hn h, hr h, ht h]

/-- The escaped text of some characters. -/
def escaped (cs : List Char) : Bytes := encode (cs.flatMap escapeChar)

@[simp] theorem escaped_nil : escaped [] = [] := rfl

@[simp] theorem escaped_cons (c : Char) (cs : List Char) :
    escaped (c :: cs) = encode (escapeChar c) ++ escaped cs := by
  simp [escaped]

theorem escaped_append (cs cs' : List Char) : escaped (cs ++ cs') = escaped cs ++ escaped cs' := by
  simp [escaped]

theorem escaped_plain {cs : List Char} (h : ∀ c ∈ cs, PlainChar c) : escaped cs = encode cs := by
  induction cs with
  | nil => rfl
  | cons c cs ih =>
    rw [escaped_cons, escapeChar_plain (h c List.mem_cons_self),
      ih fun c hc => h c (List.mem_cons_of_mem _ hc)]
    simp

/-- A run of plain characters ends at a quote or a backslash. -/
theorem head_escaped {cs : List Char} (h : ∀ c ∈ cs.head?, ¬ PlainChar c) (t : Bytes) :
    ∀ b ∈ (escaped cs ++ 0x22 :: t).head?, isPlainByte b = false := by
  cases cs with
  | nil =>
    rintro _ ⟨⟩
    decide
  | cons c cs =>
    rw [escaped_cons]
    rcases escapeChar_special (h c rfl) with ⟨-, b, -, hw⟩ | ⟨-, w, hw⟩ <;>
    · rw [hw]
      rintro _ ⟨⟩
      decide

/-- Plain characters, and then one that is not. -/
theorem plain_split (cs : List Char) : ∃ pre post, cs = pre ++ post ∧ (∀ c ∈ pre, PlainChar c) ∧
    ∀ c ∈ post.head?, ¬ PlainChar c := by
  induction cs with
  | nil => exact ⟨[], [], rfl, by simp, by simp⟩
  | cons c cs ih =>
    by_cases hc : PlainChar c
    · obtain ⟨pre, post, rfl, hpre, hpost⟩ := ih
      exact ⟨c :: pre, post, rfl, List.forall_mem_cons.mpr ⟨hc, hpre⟩, hpost⟩
    · exact ⟨[], c :: cs, rfl, by simp, by simpa using hc⟩

variable [JsonError ε]

/-- `\u`. -/
def unknownEscape : ε :=
  JsonError.malformed s!"unsupported escape `\\{String.singleton (asChar 0x75)}`"

section
variable (later : UInt8 → Reader ε String) (heard : Char → List Char)

/-- After an escape, a run of plain characters is heard character by character. -/
def Hears : Prop := ∀ (s : StringState) (cs : List Char) (t : Bytes), s.out ≠ "" →
  (∀ c ∈ cs, PlainChar c) → (∀ b ∈ t.head?, isPlainByte b = false) →
  ((stringLoop later).run s).run (encode cs ++ t)
    = ((stringLoop later).run { s with out := s.out ++ String.ofList (cs.flatMap heard) }).run t

/-- What is heard of a string, after an escape or before the first one. -/
def heardFrom : Bool → List Char → Option (List Char)
  | _, [] => some []
  | esc, c :: cs =>
    if PlainChar c then ((if esc then heard c else [c]) ++ ·) <$> heardFrom esc cs
    else if CleanChar c then (c :: ·) <$> heardFrom true cs
    else none

/-- What is heard of a string. -/
def heardString (v : String) : Except ε String :=
  match heardFrom heard false v.toList with
  | some l => .ok (String.ofList l)
  | none => .error unknownEscape

/-- The loop of `string` has read these characters. -/
def At (esc : Bool) (s : StringState) (done : List Char) : Prop :=
  if esc then s.out = String.ofList done ∧ done ≠ [] else s.out = "" ∧ s.raw = encode done

variable {later heard} {esc : Bool} {s : StringState} {done : List Char}

theorem At.committed (h : At esc s done) : (s.committed : Reader ε String) = pure (String.ofList done) := by
  cases esc with
  | false => rw [StringState.committed, if_pos h.1, h.2, utf8, fromUtf8_encode]
  | true =>
    obtain ⟨hout, hne⟩ := h
    rw [StringState.committed, if_neg, hout]
    rw [hout]
    simpa using hne

/-- The closing quote. -/
theorem stringLoop_quote (h : At esc s done) (t : Bytes) :
    ((stringLoop later).run s).run (0x22 :: t) = .ok (String.ofList done, t) := by
  refine (stringLoop later).run_of_inr ?_
  change (s.byte later 0x22).run t = _
  rw [StringState.byte, if_pos rfl, h.committed]
  rfl

/-- An escape that the parser knows. -/
theorem stringLoop_escape (h : At esc s done) {b : UInt8} {c : Char} (hb : unescape b = some c)
    (t : Bytes) : ∃ s', At true s' (done ++ [c]) ∧
      ((stringLoop later).run s).run (0x5C :: b :: t) = ((stringLoop later).run s').run t := by
  refine ⟨{ s with out := (String.ofList done).push c }, ⟨?_, by simp⟩,
    (stringLoop later).run_of_inl ?_⟩
  · rw [String.push_eq_append, String.ofList_append]
    rfl
  · change (s.byte later 0x5C).run (b :: t) = _
    rw [StringState.byte, if_neg (by decide), if_pos rfl, Reader.run_map, StringState.escape,
      h.committed, pure_bind, Reader.run_bind_ok (Reader.run_next_cons b t)]
    simp only [hb]
    rfl

theorem stringLoop_unknown (h : At esc s done) (t : Bytes) :
    ((stringLoop later).run s).run (0x5C :: 0x75 :: t) = .error unknownEscape := by
  refine (stringLoop later).run_of_error ?_
  change (s.byte later 0x5C).run (0x75 :: t) = _
  rw [StringState.byte, if_neg (by decide), if_pos rfl, Reader.run_map, StringState.escape,
    h.committed, pure_bind, Reader.run_bind_ok (Reader.run_next_cons 0x75 t)]
  rfl

/-- Before the first escape, byte by byte. -/
theorem stringLoop_raw {raw w : Bytes} (hw : ∀ b ∈ w, isPlainByte b = true) (t : Bytes) :
    ((stringLoop later).run { raw }).run (w ++ t)
      = ((stringLoop later).run { raw := raw ++ w }).run t := by
  induction w generalizing raw with
  | nil => rw [List.append_nil, List.nil_append]
  | cons b w ih =>
    have hb := hw b List.mem_cons_self
    simp only [isPlainByte, Bool.and_eq_true, decide_eq_true_eq] at hb
    have hstep : ((stringLoop later).step { raw }).run (b :: (w ++ t))
        = .ok (.inl { raw := raw ++ [b] }, w ++ t) := by
      change (StringState.byte later { raw } b).run _ = _
      rw [StringState.byte, if_neg hb.1, if_neg hb.2]
      rfl
    rw [List.cons_append, (stringLoop later).run_of_inl hstep,
      ih fun b hb => hw b (List.mem_cons_of_mem _ hb), List.append_assoc, List.singleton_append]

/-- Plain characters, up to one that is not. -/
theorem stringLoop_plain (hears : Hears later heard) (h : At esc s done) {cs : List Char}
    (hcs : ∀ c ∈ cs, PlainChar c) {t : Bytes} (ht : ∀ b ∈ t.head?, isPlainByte b = false) :
    ∃ s', At esc s' (done ++ if esc then cs.flatMap heard else cs) ∧
      ((stringLoop later).run s).run (encode cs ++ t) = ((stringLoop later).run s').run t := by
  cases esc with
  | false =>
    obtain ⟨hout, hraw⟩ := h
    refine ⟨{ raw := s.raw ++ encode cs }, ⟨rfl, by simp [hraw]⟩, ?_⟩
    have hs : s = { raw := s.raw } := by
      cases s
      cases hout
      rfl
    rw [hs]
    exact stringLoop_raw (isPlainByte_of_plain hcs) t
  | true =>
    obtain ⟨hout, hne⟩ := h
    refine ⟨_, ⟨?_, by simp [hne]⟩, hears s cs t (by rw [hout]; simpa using hne) hcs ht⟩
    rw [hout, if_pos rfl, String.ofList_append]

theorem heardFrom_plain {cs : List Char} (h : ∀ c ∈ cs, PlainChar c) (esc : Bool) (cs' : List Char) :
    heardFrom heard esc (cs ++ cs')
      = ((if esc then cs.flatMap heard else cs) ++ ·) <$> heardFrom heard esc cs' := by
  induction cs with
  | nil => cases esc <;> simp
  | cons c cs ih =>
    rw [List.cons_append, heardFrom, if_pos (h c List.mem_cons_self),
      ih fun c hc => h c (List.mem_cons_of_mem _ hc)]
    cases heardFrom heard esc cs' <;> cases esc <;> simp

/-- **The loop of `string`** on an escaped text, by induction on its length:
    runs of plain characters and escapes alternate. -/
theorem stringLoop_escaped (hears : Hears later heard) (h : At esc s done) (cs : List Char)
    (t : Bytes) : ((stringLoop later).run s).run (escaped cs ++ 0x22 :: t)
      = match heardFrom heard esc cs with
        | some l => .ok (String.ofList (done ++ l), t)
        | none => .error unknownEscape := by
  induction hlen : cs.length using Nat.strong_induction_on generalizing esc s done cs with
  | _ n ih =>
  subst hlen
  obtain ⟨pre, post, rfl, hpre, hpost⟩ := plain_split cs
  obtain ⟨s', hs', hrun⟩ := stringLoop_plain hears h hpre (head_escaped hpost t)
  rw [escaped_append, escaped_plain hpre, List.append_assoc, hrun, heardFrom_plain hpre]
  cases post with
  | nil =>
    rw [escaped_nil, List.nil_append, stringLoop_quote hs']
    simp [heardFrom]
  | cons c post =>
    rw [escaped_cons, heardFrom, if_neg (hpost c rfl)]
    rcases escapeChar_special (hpost c rfl) with ⟨hclean, b, hb, hw⟩ | ⟨hclean, w, hw⟩
    · obtain ⟨s'', hs'', hrun'⟩ :=
        @stringLoop_escape _ _ later _ _ _ hs' _ _ hb (escaped post ++ 0x22 :: t)
      have hlt : post.length < (pre ++ c :: post).length := by
        rw [List.length_append, List.length_cons]
        omega
      rw [hw, if_pos hclean, List.append_assoc, List.cons_append, List.cons_append, List.nil_append,
        hrun', ih _ hlt hs'' post rfl]
      cases heardFrom heard true post <;> simp
    · rw [hw, if_neg hclean, List.append_assoc, List.cons_append, List.cons_append,
        stringLoop_unknown hs']
      rfl

/-- **Strings**, as they are written. -/
theorem reads_stringWith {follow : Bytes → Prop} (hears : Hears later heard) (len : ℕ) (v : String) :
    Reads follow (heardString heard v) (stringWith later len) (asBytes (jsonString v)) := by
  intro t _
  have hquote : asBytes "\"" = [0x22] := by decide
  have htext : asBytes (jsonString v) ++ t = 0x22 :: (escaped v.toList ++ 0x22 :: t) := by
    rw [jsonString, asBytes_append, asBytes_append, hquote, asBytes_ofList]
    simp [escaped, encode]
  have hopen : (expect len 0x22 : Reader ε Unit).run (0x22 :: (escaped v.toList ++ 0x22 :: t))
      = .ok ((), escaped v.toList ++ 0x22 :: t) := run_expect len spaces_nil (by decide)
  have hstart : At false {} [] := ⟨rfl, rfl⟩
  rw [htext, stringWith, Reader.run_bind_ok (skipWs_solid (solid_cons (by decide))),
    Reader.run_bind_ok hopen, stringLoop_escaped hears hstart, heardString]
  cases heardFrom heard false v.toList <;> rfl

end

/-- A parser that hears every character as it is. -/
theorem heardFrom_clean (esc : Bool) (cs : List Char) :
    heardFrom (fun c => [c]) esc cs = if ∀ c ∈ cs, CleanChar c then some cs else none := by
  induction cs generalizing esc with
  | nil => simp [heardFrom]
  | cons c cs ih =>
    rw [heardFrom]
    by_cases hplain : PlainChar c
    · have hclean : CleanChar c := .inl hplain.1
      rw [if_pos hplain, ih]
      by_cases hcs : ∀ c ∈ cs, CleanChar c <;> cases esc <;> simp [hclean, hcs]
    · rw [if_neg hplain, ih]
      by_cases hclean : CleanChar c <;> by_cases hcs : ∀ c ∈ cs, CleanChar c <;> simp [hclean, hcs]

/-! ## Integers -/

theorem isDigit_range {c : Char} (h : c.isDigit = true) : 0x30 ≤ c.toNat ∧ c.toNat ≤ 0x39 := by
  simp only [Char.isDigit, Bool.and_eq_true, decide_eq_true_eq] at h
  exact ⟨h.1, h.2⟩

theorem encode_toDigits (n : ℕ) :
    ∀ b ∈ encode (Nat.toDigits 10 n), 0x30 ≤ b ∧ b ≤ 0x39 := by
  intro b hb
  obtain ⟨c, hc, hb⟩ := List.mem_flatMap.mp hb
  obtain ⟨hlo, hhi⟩ := isDigit_range (Nat.isDigit_of_mem_toDigits (by decide) (by decide) hc)
  rw [encodeChar_ascii (by omega), List.mem_singleton] at hb
  rw [hb, UInt8.le_iff_toNat_le, UInt8.le_iff_toNat_le, UInt8.toNat_ofNat_of_lt' (show c.toNat < 2 ^ 8 by omega)]
  exact ⟨hlo, hhi⟩

theorem parseDigits_toDigits (n : ℕ) : parseDigits (Nat.toDigits 10 n) = .ok n := by
  rw [parseDigits, if_pos, Nat.ofDigitChars_ten_toDigits]
  refine ⟨Nat.toDigits_ne_nil, List.all_eq_true.mpr fun c hc => ?_⟩
  exact Nat.isDigit_of_mem_toDigits (by decide) (by decide) hc

theorem toList_toString (n : ℕ) : (toString n).toList = Nat.toDigits 10 n := by
  rw [Nat.toString_eq_ofList_toDigits, String.toList_ofList]

/-- A number begins with a digit. -/
theorem toDigits_head (n : ℕ) : ∃ c cs, Nat.toDigits 10 n = c :: cs ∧ c ≠ '-' ∧ c ≠ '+' := by
  obtain ⟨c, cs, hl⟩ := List.exists_cons_of_ne_nil (Nat.toDigits_ne_nil (b := 10) (n := n))
  have hc := isDigit_range (Nat.isDigit_of_mem_toDigits (b := 10) (n := n) (by decide) (by decide)
    (hl ▸ List.mem_cons_self))
  refine ⟨c, cs, hl, ?_, ?_⟩ <;>
  · rintro rfl
    revert hc
    decide

theorem parseSigned_toDigits (n : ℕ) : parseSigned (Nat.toDigits 10 n) = .ok (n : ℤ) := by
  obtain ⟨c, cs, hl, hminus, hplus⟩ := toDigits_head n
  have hparse := parseDigits_toDigits n
  rw [hl] at hparse ⊢
  rw [parseSigned.eq_4, hparse]
  · rfl
  · simp
  · rintro _ ⟨⟩
    exact hminus rfl
  · rintro _ ⟨⟩
    exact hplus rfl

theorem parseU32_toString (n : UInt32) : parseU32 (toString n.toNat) = .ok n := by
  obtain ⟨c, cs, hl, hminus, -⟩ := toDigits_head n.toNat
  have hlt := n.toNat_lt
  have hhead : ¬ (toString n.toNat).toList.head? = some '-' := by
    rw [toList_toString, hl]
    simpa using hminus
  rw [parseU32, if_neg hhead, toList_toString, parseSigned_toDigits]
  change (if _ then _ else _) = _
  rw [if_neg (by omega), Int.toNat_natCast, UInt32.ofNat_toNat]
  rfl

/-- The text of an integer. -/
theorem toList_toString_int (n : ℤ) : (toString n).toList
    = if 0 ≤ n then Nat.toDigits 10 n.toNat else '-' :: Nat.toDigits 10 (-n).toNat := by
  rw [Int.toString_eq_repr, Int.repr_eq_if]
  split <;> simp [Nat.repr_eq_ofList_toDigits]

theorem parseI64_toString (n : Int64) : parseI64 (toString n.toInt) = .ok n := by
  have hparse : parseSigned (toString n.toInt).toList = .ok n.toInt := by
    rw [toList_toString_int]
    split
    · next h => rw [parseSigned_toDigits, Int.toNat_of_nonneg h]
    · next h =>
      rw [parseSigned, parseDigits_toDigits]
      change Except.ok (-(((-n.toInt).toNat : ℕ) : ℤ)) = _
      rw [Int.toNat_of_nonneg (by omega), neg_neg]
  have hlo := n.le_toInt
  have hhi := n.toInt_lt
  rw [parseI64, hparse]
  change (if _ then _ else _) = _
  rw [if_neg (by omega), if_neg (by omega), Int64.ofInt_toInt]
  rfl

/-! ## Members -/

/-- A member, as it is written. -/
def memberText (key : String) (w : Bytes) : Bytes := asBytes (jsonString key) ++ 0x3A :: w

/-- A member, as a string. -/
def memberString (key w : String) : String := jsonString key ++ (":" ++ w)

/-- An object, as a string. -/
def objectString (ms : List String) : String := "\x7b" ++ (commaSeparated ms ++ "\x7d")

theorem asBytes_memberString (key w : String) :
    asBytes (memberString key w) = memberText key (asBytes w) := by
  have hcolon : asBytes ":" = [0x3A] := by decide
  rw [memberString, asBytes_append, asBytes_append, hcolon]
  rfl

theorem asBytes_objectString (ms : List String) :
    asBytes (objectString ms) = 0x7B :: (joinComma (ms.map asBytes) ++ [0x7D]) := by
  have hopen : asBytes "\x7b" = [0x7B] := by decide
  have hclose : asBytes "\x7d" = [0x7D] := by decide
  rw [objectString, asBytes_append, asBytes_append, asBytes_commaSeparated, hopen, hclose]
  rfl

theorem joinComma_append {ws ws' : List Bytes} (h : ws ≠ []) (h' : ws' ≠ []) :
    joinComma (ws ++ ws') = joinComma ws ++ 0x2C :: joinComma ws' := by
  induction ws using joinComma.induct with
  | case1 => exact absurd rfl h
  | case2 w =>
    obtain ⟨w', ws', rfl⟩ := List.exists_cons_of_ne_nil h'
    rfl
  | case3 w w' ws ih =>
    rw [List.cons_append, List.cons_append, joinComma, ← List.cons_append, ih (by simp), joinComma]
    simp

/-- The text of a member begins with a quote. -/
theorem memberText_head (key : String) (w : Bytes) {close : UInt8} (hclose : close ≠ 0x22) :
    ∃ b w', memberText key w = b :: w' ∧ isJsonSpace b = false ∧ b ≠ close := by
  have hquote : asBytes "\"" = [0x22] := by decide
  refine ⟨0x22, asBytes (String.ofList (key.toList.flatMap escapeChar)) ++ [0x22] ++ 0x3A :: w, ?_,
    by decide, hclose.symm⟩
  rw [memberText, jsonString, asBytes_append, asBytes_append, hquote]
  rfl

/-- On the text `w` of a member, `g` is what becomes of the state. -/
def IsMember {σ : Type} (d : Dialect ε) (len : ℕ) (member : String → σ → Reader ε σ) (w : Bytes)
    (g : σ → Except ε σ) : Prop :=
  (∃ key v, w = memberText key v) ∧ ∀ s, Reads Ended (g s) (readMember d len member s).1 w

/-- A member is read as its value is. -/
theorem isMember {σ : Type} {d : Dialect ε} {heard : Char → List Char}
    (hears : Hears d.later heard) (len : ℕ) {key : String}
    (hkey : heardFrom heard false key.toList = some key.toList)
    {member : String → σ → Reader ε σ} {g : σ → Except ε σ} {w : Bytes}
    (h : ∀ s, Reads Ended (g s) (member key s) w) :
    IsMember d len member (memberText key w) g := by
  refine ⟨⟨key, w, rfl⟩, fun s => ?_⟩
  have hstr : Reads (fun _ => True) (.ok key) (jsonStr d len) (asBytes (jsonString key)) := by
    have hread := @reads_stringWith ε _ _ _ (fun _ => True) hears len key
    rw [heardString, hkey] at hread
    dsimp only at hread
    rwa [String.ofList_toList] at hread
  have hcolon : Reads (fun _ => True) (.ok ()) (expect len 0x3A : Reader ε Unit) [0x3A] :=
    reads_expect len (by decide)
  exact hstr.bind_ok (fun _ _ => trivial) (hcolon.bind_ok (fun _ _ => trivial) (h s))

/-- **An object** is read member by member. -/
theorem reads_object {follow : Bytes → Prop} {σ : Type} {d : Dialect ε} {len : ℕ}
    {member : String → σ → Reader ε σ} {ws : List Bytes} {gs : List (σ → Except ε σ)}
    (h : List.Forall₂ (IsMember d len member) ws gs) (s : σ) :
    Reads follow (gs.foldlM (fun s g => g s) s) (jsonObject d len member s)
      (0x7B :: (joinComma ws ++ [0x7D])) := by
  have hopen : Reads (fun _ => True) (.ok ()) (expect len 0x7B : Reader ε Unit) [0x7B] :=
    reads_expect len (by decide)
  refine hopen.bind_ok (fun _ _ => trivial) (reads_items (.inr rfl) (h.imp fun w g hw => ?_) s)
  obtain ⟨⟨key, v, rfl⟩, hread⟩ := hw
  exact ⟨memberText_head key v (by decide), hread⟩

/-- **An array** is read element by element. -/
theorem reads_list {follow : Bytes → Prop} {α : Type} {len : ℕ} {item : Reader ε α}
    {hitem : Consumes item} {ws : List Bytes} {xs : List (Except ε α)}
    (h : List.Forall₂ (fun w x => (∃ b w', w = b :: w' ∧ isJsonSpace b = false ∧ b ≠ 0x5D) ∧
      Reads Ended x item w) ws xs) :
    Reads follow (xs.mapM id) (jsonList len item hitem) (0x5B :: (joinComma ws ++ [0x5D])) := by
  have hopen : Reads (fun _ => True) (.ok ()) (expect len 0x5B : Reader ε Unit) [0x5B] :=
    reads_expect len (by decide)
  have hfold : ∀ (out : List α) (xs : List (Except ε α)),
      (xs.map fun x (out : List α) => (out ++ [·]) <$> x).foldlM (fun s g => g s) out
        = (out ++ ·) <$> xs.mapM id := by
    intro out xs
    induction xs generalizing out with
    | nil => simp [Functor.map, Except.map, pure, Except.pure]
    | cons x xs ih =>
      rw [List.map_cons, List.foldlM_cons, List.mapM_cons]
      cases x with
      | error e => rfl
      | ok a =>
        refine (ih (out ++ [a])).trans ?_
        simp only [id_eq]
        cases xs.mapM id <;> simp [Functor.map, Except.map, bind, Except.bind, pure, Except.pure]
  have hitems : List.Forall₂ (fun w (g : List α → Except ε (List α)) =>
      (∃ b w', w = b :: w' ∧ isJsonSpace b = false ∧ b ≠ 0x5D) ∧
        ∀ s : List α, Reads Ended (g s) ((s ++ [·]) <$> item) w) ws
      (xs.map fun x (out : List α) => (out ++ [·]) <$> x) :=
    List.forall₂_map_right_iff.mpr (h.imp fun w x hw => ⟨hw.1, fun s => hw.2.map _⟩)
  have hnil : (([] : List α) ++ ·) <$> xs.mapM id = xs.mapM id := by
    cases xs.mapM id <;> simp [Functor.map, Except.map]
  rw [← hnil, ← hfold]
  exact hopen.bind_ok (fun _ _ => trivial) (reads_items (.inl rfl) hitems [])

end EmatixParquet
