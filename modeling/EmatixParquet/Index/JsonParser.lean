/-
  The JSON parser of the manifest as it is written (`index/manifest.rs`): a position in
  the bytes of the text, with indexing, slicing, and loops that end only where their
  bodies do.

  Each method is related to the reader of the same name, which has no position and is
  total: `tracks_skipWsAt`, .., `tracks_stringAt`, `tracks_skipValueAt`.  A separator
  may be missing, so that the loops move on by what they read; `skip_value` calls
  itself on what is inside of a value, with fewer bytes left.
-/
import EmatixParquet.Index.Manifest
import EmatixParquet.Wire.Scanner

namespace EmatixParquet

open Wire Scanner

/-- A method of `JsonParser`. -/
abbrev JsonScan (α : Type) := Scanner ManifestError α

variable {α σ : Type}

/-- `malformed`. -/
def malformedAt (msg : String) : JsonScan α := Scanner.fail (.malformed msg)

section
variable (text : Bytes)

/-- `skip_ws`. -/
def skipWsAt : JsonScan Unit := skipWhile text isJsonSpace

/-- `expect`: the byte after white space. -/
def expectAt (b : UInt8) : JsonScan Unit := do
  skipWsAt text
  if ← nextIs text (· = b) then advance
  else do
    let pos ← position
    malformedAt s!"expected `{String.singleton (asChar b)}` at pos {pos}"

/-- `consume_if`: the byte after white space, if it is that. -/
def consumeIfAt (b : UInt8) : JsonScan Bool := do
  if ← nextIs text (· = b) then do
    advance
    pure true
  else pure false

/-- `try_obj_close` and `try_arr_close`. -/
def tryCloseAt (b : UInt8) : JsonScan Bool := do
  skipWsAt text
  consumeIfAt text b

/-- A comma is consumed; a closing bracket stays. -/
def consumeCommaOrCloseAt : JsonScan Unit := do
  skipWsAt text
  let _ ← consumeIfAt text 0x2C

/-! ### Strings -/

/-- `std::str::from_utf8(..).map_err(..)`. -/
def utf8At (what : String) (bs : Bytes) : JsonScan String := quiet (utf8 what bs)

/-- `out`, with the bytes from `start` on if it is empty. -/
def committedAt (start : ℕ) (out : String) : JsonScan String := do
  if out = "" then do
    let raw ← sliceFrom text start
    utf8At "string" raw
  else pure out

/-- The character after a backslash. -/
def escapeAt (out : String) : JsonScan String := do
  if ← inside text then do
    let e ← byteHere text
    match unescape e with
    | some c => do
      advance
      pure (out.push c)
    | none => malformedAt s!"unsupported escape `\\{String.singleton (asChar e)}`"
  else malformedAt "trailing backslash"

/-- The bytes up to the next that ends or escapes. -/
def chunkAt : JsonScan String := do
  let chunkStart ← position
  skipWhile text isPlainByte
  let raw ← sliceFrom text chunkStart
  utf8At "string" raw

/-- A turn of the loop of `string`. -/
def stringTurn (start : ℕ) (out : String) : JsonScan (String ⊕ String) := do
  if ← inside text then do
    let c ← byteHere text
    if c = 0x22 then do
      let s ← committedAt text start out
      advance
      pure (.inr s)
    else if c = 0x5C then do
      let out ← committedAt text start out
      advance
      let out ← escapeAt text out
      pure (.inl out)
    else if out = "" then do
      advance
      pure (.inl out)
    else do
      let piece ← chunkAt text
      pure (.inl (out ++ piece))
  else malformedAt "unterminated string"

/-- `string`. -/
def stringAt : JsonScan String := do
  skipWsAt text
  expectAt text 0x22
  let start ← position
  repeatDo (stringTurn text start) ""

/-! ### Numbers -/

/-- A sign or none, and the bytes after it. -/
def numberBytesAt : JsonScan Unit := do
  if ← nextIs text (fun c => c = 0x2D || c = 0x2B) then advance
  skipWhile text isNumberByte

/-- `number_str`. -/
def numberStrAt : JsonScan String := do
  skipWsAt text
  let start ← position
  numberBytesAt text
  let stop ← position
  if start = stop then malformedAt s!"expected number at pos {start}"
  else do
    let w ← sliceFrom text start
    utf8At "number" w

/-- `n.parse().map_err(..)`. -/
def jsonNumberAt {ε : Type} (what : String) (parse : String → Except ε α) : JsonScan α := do
  let n ← numberStrAt text
  match parse n with
  | .ok v => pure v
  | .error _ => malformedAt s!"bad {what} `{n}`"

/-! ### Objects and arrays -/

/-- A turn of the loop over the members of an object; `read` reads the value. -/
def memberTurn (read : String → σ → JsonScan σ) (s : σ) : JsonScan (σ ⊕ σ) := do
  if ← tryCloseAt text 0x7D then pure (.inr s)
  else do
    let key ← stringAt text
    expectAt text 0x3A
    let s ← read key s
    consumeCommaOrCloseAt text
    pure (.inl s)

/-- An object, member by member. -/
def objectAt (read : String → σ → JsonScan σ) (init : σ) : JsonScan σ := do
  expectAt text 0x7B
  repeatDo (memberTurn text read) init

/-- A turn of the loop over the elements of an array. -/
def elementTurn (item : JsonScan α) (out : List α) : JsonScan (List α ⊕ List α) := do
  if ← tryCloseAt text 0x5D then pure (.inr out)
  else do
    let a ← item
    consumeCommaOrCloseAt text
    pure (.inl (out ++ [a]))

/-- An array, element by element. -/
def listAt (item : JsonScan α) : JsonScan (List α) := do
  expectAt text 0x5B
  repeatDo (elementTurn text item) []

end

/-! ### Values that are skipped -/

mutual

/-- `skip_value`, by the first byte. -/
def Bytes.skipValueAt (text : Bytes) : JsonScan Unit := do
  skipWsAt text
  if ← inside text then do
    let c ← byteHere text
    if c = 0x22 then do
      let _ ← stringAt text
      pure ()
    else if c = 0x7B then do
      expectAt text 0x7B
      text |>.skipMembersAt
    else if c = 0x5B then do
      expectAt text 0x5B
      text |>.skipElementsAt
    else if c = 0x74 ∨ c = 0x66 ∨ c = 0x6E then skipWhile text isAsciiAlphabetic
    else if c = 0x2D ∨ c = 0x2B ∨ isAsciiDigit c then do
      let _ ← numberStrAt text
      pure ()
    else do
      let pos ← position
      malformedAt s!"unexpected byte `{String.singleton (asChar c)}` at pos {pos}"
  else malformedAt "unexpected EOF"
partial_fixpoint

/-- A turn of the loop over the members of an object that is skipped. -/
def Bytes.skipMemberTurn (text : Bytes) : JsonScan (Unit ⊕ Unit) := do
  if ← tryCloseAt text 0x7D then pure (.inr ())
  else do
    let _ ← stringAt text
    expectAt text 0x3A
    text |>.skipValueAt
    consumeCommaOrCloseAt text
    pure (.inl ())
partial_fixpoint

/-- The members of an object that is skipped. -/
def Bytes.skipMembersAt (text : Bytes) : JsonScan Unit := do
  match ← (text |>.skipMemberTurn) with
  | .inl _ => text |>.skipMembersAt
  | .inr _ => pure ()
partial_fixpoint

/-- A turn of the loop over the elements of an array that is skipped. -/
def Bytes.skipElementTurn (text : Bytes) : JsonScan (Unit ⊕ Unit) := do
  if ← tryCloseAt text 0x5D then pure (.inr ())
  else do
    text |>.skipValueAt
    consumeCommaOrCloseAt text
    pure (.inl ())
partial_fixpoint

/-- The elements of an array that is skipped. -/
def Bytes.skipElementsAt (text : Bytes) : JsonScan Unit := do
  match ← (text |>.skipElementTurn) with
  | .inl _ => text |>.skipElementsAt
  | .inr _ => pure ()
partial_fixpoint

end

/-! ## Single tokens -/

variable {text : Bytes} {k pos : ℕ}

theorem tracks_skipWsAt : Tracks text k (skipWsAt text) skipWs := tracks_skipWhile isJsonSpace

theorem run_jsonPos (hpos : pos ≤ text.length) :
    (jsonPos text.length : JsonM ℕ).run (text.drop pos) = .ok (pos, text.drop pos) := by
  rw [jsonPos, Reader.run_map, Reader.run_remaining]
  dsimp only
  rw [List.length_drop, Nat.sub_sub_self hpos]

theorem tracks_position : Tracks text k position (jsonPos text.length : JsonM ℕ) := by
  intro pos _ hpos
  rw [run_jsonPos hpos, landed, List.length_drop, Nat.sub_sub_self hpos]
  rfl

theorem tracks_malformedAt (msg : String) :
    Tracks text k (malformedAt msg : JsonScan α) (malformed msg) := tracks_fail _

/-- A byte is consumed where it is next. -/
theorem tracks_consumeIfAt (b : UInt8) : Tracks text k (consumeIfAt text b) (consumeIf b) := by
  refine tracks_nextIs_bind fun pos _ hpos => ?_
  rw [consumeIf_eq]
  by_cases hhead : (text.drop pos).head? = some b
  · have hany : (text.drop pos).head?.any (fun c => decide (c = b)) = true := by rw [hhead]; simp
    have hlt : pos < text.length := by
      rw [List.head?_drop] at hhead
      exact (List.getElem?_eq_some_iff.mp hhead).1
    rw [hany, if_pos hhead, landed, List.length_tail, List.length_drop]
    exact congrArg (fun i => ended (.ok (true, i))) (by omega)
  · have hany : (text.drop pos).head?.any (fun c => decide (c = b)) = false := by
      cases h : (text.drop pos).head? with
      | none => rfl
      | some c =>
        rw [h] at hhead
        exact decide_eq_false fun hc => hhead (congrArg some hc)
    rw [hany, if_neg hhead, landed, List.length_drop, Nat.sub_sub_self hpos]
    rfl

theorem tracks_tryCloseAt (b : UInt8) : Tracks text k (tryCloseAt text b) (tryClose b) :=
  tracks_skipWsAt.bind fun _ => tracks_consumeIfAt b

theorem tracks_consumeCommaOrCloseAt :
    Tracks text k (consumeCommaOrCloseAt text) consumeCommaOrClose :=
  tracks_skipWsAt.bind fun _ => (tracks_consumeIfAt 0x2C).bind fun _ => tracks_pure ()

/-- The scanner looks at the byte and then consumes it, the reader does both at once. -/
theorem expectAt_eq (b : UInt8) : expectAt text b = (do
    skipWsAt text
    if ← consumeIfAt text b then pure ()
    else do
      let pos ← position
      malformedAt s!"expected `{String.singleton (asChar b)}` at pos {pos}") := by
  rw [expectAt]
  refine bind_congr fun _ => ?_
  rw [consumeIfAt, bind_assoc]
  refine bind_congr fun found => ?_
  cases found <;> rfl

theorem tracks_expectAt (b : UInt8) : Tracks text k (expectAt text b) (expect text.length b) := by
  rw [expectAt_eq]
  refine tracks_skipWsAt.bind fun _ => (tracks_consumeIfAt b).bind fun found => ?_
  cases found with
  | true => exact tracks_pure ()
  | false => exact tracks_position.bind fun pos => tracks_malformedAt _

/-! ## Strings -/

theorem isQuiet_utf8 (what : String) (bs : Bytes) : IsQuiet (utf8 what bs : JsonM String) := by
  unfold utf8
  split
  · exact isQuiet_pure _
  · exact isQuiet_fail _

/-- The state of the scanner is that of the reader, whose bytes so far are those from
    `start` on as long as there was no escape. -/
def SameString (text : Bytes) (start pos : ℕ) (out : String) (s : StringState) : Prop :=
  s.out = out ∧ (out = "" → s.raw = (text.take pos).drop start)

/-- What is committed does not depend on what is left. -/
theorem run_committedAt {start : ℕ} {out : String} {s : StringState} (hstart : start ≤ pos)
    (hpos : pos ≤ text.length) (h : SameString text start pos out s) :
    ∃ x : Except ManifestError String, s.committed = Reader.lift x ∧
      (committedAt text start out).run pos
        = ended (((fun a => (a, pos)) <$> x).mapError .err) := by
  obtain ⟨hout, hraw⟩ := h
  rw [StringState.committed, committedAt, hout]
  by_cases hempty : out = ""
  · rw [if_pos hempty, if_pos hempty, hraw hempty, StateT.run_bind, run_sliceFrom hstart hpos,
      ended_ok_bind]
    obtain ⟨x, hx, hrun⟩ := (isQuiet_utf8 "string" ((text.take pos).drop start)).run_eq
    exact ⟨x, hx, hrun pos⟩
  · rw [if_neg hempty, if_neg hempty]
    exact ⟨.ok out, rfl, rfl⟩

theorem string_push_ne (out : String) (c : Char) : out.push c ≠ "" := by
  intro h
  have := congrArg String.length h
  simp at this

theorem string_append_ne {out : String} (h : out ≠ "") (piece : String) : out ++ piece ≠ "" := by
  intro h'
  have hlen := congrArg String.length h'
  rw [String.length_append] at hlen
  exact h (String.length_eq_zero_iff.mp (by simpa using (Nat.add_eq_zero_iff.mp hlen).1))

/-- Where one byte after `pos` is left. -/
theorem length_sub_drop_succ (h : pos < text.length) :
    pos + 1 = text.length - (text.drop (pos + 1)).length := by
  rw [List.length_drop]
  omega

/-- The character at `pos`, after a backslash. -/
theorem escapeAt_alike {start : ℕ} {out : String} {s : StringState}
    (hs : s.committed = (Reader.lift (.ok out) : JsonM String)) (pos : ℕ) :
    ∃ o, (escapeAt text out).run pos = ended o ∧
      TurnsAlike text (SameString text start) ((fun p => (.inl p.1, p.2)) <$> o)
        ((.inl <$> s.escape : JsonM (StringState ⊕ String)).run (text.drop pos)) := by
  rw [StringState.escape, hs, Reader.lift_ok, pure_bind]
  by_cases hlt : pos < text.length
  · have hget := List.getElem?_eq_getElem hlt
    rw [List.drop_eq_getElem_cons hlt, escapeAt, run_inside_bind, if_pos (decide_eq_true hlt),
      StateT.run_bind, run_byteHere hget, ended_ok_bind, Reader.run_map, Reader.run_bind_ok (Reader.run_next_cons _ _)]
    dsimp only
    cases hu : unescape text[pos] with
    | none => exact ⟨_, rfl, rfl⟩
    | some c =>
      refine ⟨.ok (out.push c, pos + 1), rfl, length_sub_drop_succ hlt, .inl ⟨rfl, fun h => ?_⟩⟩
      exact absurd h (string_push_ne out c)
  · rw [List.drop_eq_nil_of_le (Nat.not_lt.mp hlt), escapeAt, run_inside_bind,
      if_neg (by simpa using hlt)]
    exact ⟨_, rfl, rfl⟩

/-- The bytes from the plain one at `pos` on. -/
theorem chunkAt_alike {start : ℕ} {out : String} {s : StringState} (hlt : pos < text.length)
    (hplain : isPlainByte text[pos] = true) (hout : out ≠ "") :
    ∃ o, (chunkAt text).run pos = ended o ∧
      TurnsAlike text (SameString text start) ((fun p => (.inl (out ++ p.1), p.2)) <$> o)
        (((fun piece => (.inl { s with out := out ++ piece } : StringState ⊕ String)) <$>
          laterRun text[pos]).run (text.drop (pos + 1))) := by
  obtain ⟨hlen, hland⟩ := position_of_takeWhile isPlainByte hlt.le
  have hstop : (text.drop pos).takeWhile isPlainByte
      = text[pos] :: (text.drop (pos + 1)).takeWhile isPlainByte := by
    rw [List.drop_eq_getElem_cons hlt, List.takeWhile_cons, if_pos hplain]
  have hrest : (text.drop pos).dropWhile isPlainByte
      = (text.drop (pos + 1)).dropWhile isPlainByte := by
    rw [List.drop_eq_getElem_cons hlt, List.dropWhile_cons_of_pos hplain]
  obtain ⟨x, hx, hrun⟩ :=
    (isQuiet_utf8 "string" (text[pos] :: (text.drop (pos + 1)).takeWhile isPlainByte)).run_eq
  have hscan : (chunkAt text).run pos = ended (((fun a =>
      (a, pos + ((text.drop pos).takeWhile isPlainByte).length)) <$> x).mapError .err) := by
    rw [chunkAt, StateT.run_bind, run_position, ended_ok_bind, StateT.run_bind,
      run_skipWhile isPlainByte hlt.le, ended_ok_bind, StateT.run_bind,
      run_sliceFrom (Nat.le_add_right _ _) hlen, ended_ok_bind, slice_takeWhile, hstop]
    exact hrun _
  refine ⟨_, hscan, ?_⟩
  have hread : (laterRun text[pos]).run (text.drop (pos + 1)) = (fun a =>
      (a, (text.drop (pos + 1)).dropWhile isPlainByte)) <$> x := by
    rw [laterRun, Reader.run_bind_ok (Reader.run_takeWhile _ _), hx]
    cases x <;> rfl
  rw [Reader.run_map, hread]
  cases x with
  | error e => rfl
  | ok piece =>
    refine ⟨hland.trans ?_, .inl ⟨rfl, fun h => absurd h (string_append_ne hout piece)⟩⟩
    rw [hrest]

/-- **A turn of the loop of `string`.** -/
theorem stringTurn_alike {start : ℕ} (out : String) (s : StringState) (pos : ℕ)
    (hstart : start ≤ pos) (hpos : pos ≤ text.length) (h : SameString text start pos out s) :
    ∃ o, (stringTurn text start out).run pos = ended o ∧
      TurnsAlike text (SameString text start) o
        (((stringLoop laterRun).step s).run (text.drop pos)) := by
  rw [stringTurn, run_inside_bind]
  by_cases hlt : pos < text.length
  · obtain ⟨x, hx, hcommit⟩ := run_committedAt hstart hpos h
    have hstep : ((stringLoop laterRun).step s).run (text[pos] :: text.drop (pos + 1))
        = (s.byte laterRun text[pos]).run (text.drop (pos + 1)) := rfl
    rw [if_pos (decide_eq_true hlt), StateT.run_bind, run_byteHere (List.getElem?_eq_getElem hlt),
      ended_ok_bind, List.drop_eq_getElem_cons hlt, hstep, StringState.byte]
    dsimp only
    by_cases hquote : text[pos] = 0x22
    · rw [if_pos hquote, if_pos hquote, StateT.run_bind, hcommit, hx]
      cases x with
      | error e => exact ⟨_, rfl, rfl⟩
      | ok a => exact ⟨.ok (.inr a, pos + 1), rfl, length_sub_drop_succ hlt, .inr rfl⟩
    · rw [if_neg hquote, if_neg hquote]
      by_cases hslash : text[pos] = 0x5C
      · rw [if_pos hslash, if_pos hslash, StateT.run_bind, hcommit]
        cases x with
        | error e =>
          rw [StringState.escape, hx]
          exact ⟨_, rfl, rfl⟩
        | ok a =>
          obtain ⟨o, ho, halike⟩ := @escapeAt_alike text start a s hx (pos + 1)
          refine ⟨_, ?_, halike⟩
          change (ended (.ok (a, pos)) >>= _) = _
          rw [ended_ok_bind, StateT.run_bind, run_advance, ended_ok_bind, StateT.run_bind, ho]
          cases o <;> rfl
      · rw [if_neg hslash, if_neg hslash, StringState.accumulate, h.1]
        by_cases hempty : out = ""
        · rw [if_pos hempty, if_pos hempty]
          refine ⟨.ok (.inl out, pos + 1), rfl, length_sub_drop_succ hlt, .inl ⟨rfl, fun _ => ?_⟩⟩
          dsimp only
          rw [h.2 hempty, List.take_succ_eq_append_getElem hlt,
            List.drop_append_of_le_length (by rw [List.length_take_of_le hpos]; exact hstart)]
        · rw [if_neg hempty, if_neg hempty]
          have hplain : isPlainByte text[pos] = true := by simp [isPlainByte, hquote, hslash]
          obtain ⟨o, ho, halike⟩ := @chunkAt_alike text pos start out s hlt hplain hempty
          rw [Functor.map_map]
          refine ⟨_, ?_, halike⟩
          rw [StateT.run_bind, ho]
          cases o <;> rfl
  · rw [if_neg (by simpa using hlt), List.drop_eq_nil_of_le (Nat.not_lt.mp hlt)]
    exact ⟨_, rfl, rfl⟩

theorem tracks_stringAt : Tracks text k (stringAt text) (jsonStr manifestJson text.length) := by
  refine tracks_skipWsAt.bind fun _ => (tracks_expectAt 0x22).bind fun _ => ?_
  intro pos _ hpos
  rw [StateT.run_bind, run_position, ended_ok_bind]
  refine run_of_turnsAlike (repeatDo_eq _) stringTurn_alike le_rfl hpos ⟨rfl, fun _ => ?_⟩
  exact (List.drop_eq_nil_of_le (List.length_take_le pos text)).symm

theorem stringTurn_advances (start : ℕ) : Advances text start (stringTurn text start) :=
  advances_of_turnsAlike (fun out pos => ⟨⟨out, (text.take pos).drop start⟩, rfl, fun _ => rfl⟩)
    stringTurn_alike

/-! ## Numbers -/

theorem isNumberByte_of_sign {c : UInt8} (h : (c = 0x2D || c = 0x2B) = true) :
    isNumberByte c = true := by
  simp only [Bool.or_eq_true, decide_eq_true_eq] at h
  rcases h with rfl | rfl <;> rfl

/-- The sign is one of the bytes of the number. -/
theorem run_numberBytesAt (hpos : pos ≤ text.length) : (numberBytesAt text).run pos
    = ended (.ok ((), pos + ((text.drop pos).takeWhile isNumberByte).length)) := by
  rw [numberBytesAt, StateT.run_bind, run_nextIs _ hpos, ended_ok_bind]
  by_cases hlt : pos < text.length
  · rw [List.drop_eq_getElem_cons hlt, List.head?_cons, Option.any_some]
    by_cases hsign : (decide (text[pos] = 0x2D) || decide (text[pos] = 0x2B)) = true
    · rw [if_pos hsign, StateT.run_bind, run_advance, ended_ok_bind,
        run_skipWhile _ (show pos + 1 ≤ text.length from hlt), List.takeWhile_cons,
        if_pos (isNumberByte_of_sign hsign), List.length_cons]
      exact congrArg (fun i => ended (.ok ((), i))) (by omega)
    · rw [if_neg hsign, ← List.drop_eq_getElem_cons hlt]
      exact run_skipWhile _ hpos
  · rw [List.drop_eq_nil_of_le (Nat.not_lt.mp hlt)]
    change (skipWhile text isNumberByte).run pos = _
    rw [run_skipWhile _ hpos, List.drop_eq_nil_of_le (Nat.not_lt.mp hlt)]

theorem isQuiet_malformed (msg : String) : IsQuiet (malformed msg : JsonM α) := isQuiet_fail _

theorem tracks_numberStrAt : Tracks text k (numberStrAt text) (numberStr text.length) := by
  refine tracks_skipWsAt.bind fun _ => ?_
  intro pos hk hpos
  obtain ⟨hlen, hland⟩ := position_of_takeWhile isNumberByte hpos
  rw [StateT.run_bind, run_position, ended_ok_bind, StateT.run_bind, run_numberBytesAt hpos,
    ended_ok_bind, StateT.run_bind, run_position, ended_ok_bind,
    Reader.run_bind_ok (run_jsonPos hpos), Reader.run_bind_ok (Reader.run_takeWhile _ _)]
  dsimp only
  by_cases hnil : (text.drop pos).takeWhile isNumberByte = []
  · rw [if_pos hnil, if_pos (by rw [hnil]; rfl)]
    rfl
  · have hpositive := List.length_pos_of_ne_nil hnil
    rw [if_neg hnil, if_neg (by omega), StateT.run_bind,
      run_sliceFrom (Nat.le_add_right _ _) hlen, ended_ok_bind, slice_takeWhile]
    obtain ⟨x, hx, hrun⟩ :=
      (isQuiet_utf8 "number" ((text.drop pos).takeWhile isNumberByte)).run_eq
    refine (hrun _).trans ?_
    rw [hx, hland]
    cases x <;> rfl

theorem tracks_jsonNumberAt {ε : Type} (what : String) (parse : String → Except ε α) :
    Tracks text k (jsonNumberAt text what parse) (jsonNumber text.length what parse) := by
  refine tracks_numberStrAt.bind fun n => ?_
  cases parse n with
  | ok v => exact tracks_pure v
  | error e => exact tracks_malformedAt _

/-! ## Objects and arrays -/

/-- **A turn over the members** of an object. -/
theorem tracks_memberTurn {readAt : String → σ → JsonScan σ} {read : String → σ → JsonM σ}
    (hread : ∀ key s, Tracks text k (readAt key s) (read key s)) (s : σ) :
    Tracks text k (memberTurn text readAt s)
      ((itemLoop 0x7D (readMember manifestJson text.length read)).step s) := by
  refine (tracks_tryCloseAt 0x7D).bind fun closed => ?_
  cases closed with
  | true => exact tracks_pure _
  | false =>
    change Tracks text k _ ((readMember manifestJson text.length read s).1 >>= _)
    dsimp only [readMember]
    rw [bind_assoc]
    refine tracks_stringAt.bind fun key => ?_
    rw [bind_assoc]
    exact (tracks_expectAt 0x3A).bind fun _ => (hread key s).bind fun s =>
      tracks_consumeCommaOrCloseAt.bind fun _ => tracks_pure _

theorem tracks_objectAt {readAt : String → σ → JsonScan σ} {read : String → σ → JsonM σ}
    (hread : ∀ key s, Tracks text k (readAt key s) (read key s)) (init : σ) :
    Tracks text k (objectAt text readAt init) (jsonObject manifestJson text.length read init) :=
  (tracks_expectAt 0x7B).bind fun _ => tracks_repeatDo (tracks_memberTurn hread) init

/-- **A turn over the elements** of an array. -/
theorem tracks_elementTurn {itemAt : JsonScan α} {item : JsonM α} (hitem : Tracks text k itemAt item)
    (hconsumes : Consumes item) (out : List α) :
    Tracks text k (elementTurn text itemAt out)
      ((itemLoop 0x5D fun out : List α => ⟨(out ++ [·]) <$> item, hconsumes.map _⟩).step out) := by
  refine (tracks_tryCloseAt 0x5D).bind fun closed => ?_
  cases closed with
  | true => exact tracks_pure _
  | false =>
    change Tracks text k _ ((out ++ [·]) <$> item >>= _)
    rw [map_eq_pure_bind, bind_assoc]
    exact hitem.bind fun a => tracks_consumeCommaOrCloseAt.bind fun _ => tracks_pure _

theorem tracks_listAt {itemAt : JsonScan α} {item : JsonM α} (hitem : Tracks text k itemAt item)
    (hconsumes : Consumes item) :
    Tracks text k (listAt text itemAt) (jsonList text.length item hconsumes) :=
  (tracks_expectAt 0x5B).bind fun _ => tracks_repeatDo (tracks_elementTurn hitem hconsumes) []

/-! ## Values that are skipped -/

theorem skipMemberTurn_eq : text.skipMemberTurn = memberTurn text (fun _ _ => text.skipValueAt) () := by
  rw [Bytes.skipMemberTurn]
  rfl

section
variable {inner : {r : JsonM Unit // Consumes r}} (hinner : Tracks text k text.skipValueAt inner.1)
include hinner

theorem tracks_skipMemberTurn : Tracks text k text.skipMemberTurn
    ((itemLoop 0x7D (readMember manifestJson text.length fun _ _ => inner.1)).step ()) := by
  rw [skipMemberTurn_eq]
  exact tracks_memberTurn (fun _ _ => hinner) ()

theorem tracks_skipElementTurn :
    Tracks text k text.skipElementTurn ((itemLoop 0x5D fun _ => inner).step ()) := by
  rw [Bytes.skipElementTurn]
  refine (tracks_tryCloseAt 0x5D).bind fun closed => ?_
  cases closed with
  | true => exact tracks_pure _
  | false => exact hinner.bind fun _ => tracks_consumeCommaOrCloseAt.bind fun _ => tracks_pure _

theorem tracks_skipMembersAt : Tracks text k text.skipMembersAt
    ((itemLoop 0x7D (readMember manifestJson text.length fun _ _ => inner.1)).run ()) := by
  have hunfold : text.skipMembersAt
      = text.skipMemberTurn >>= Sum.elim (fun _ => text.skipMembersAt) pure := by
    conv_lhs => rw [Bytes.skipMembersAt]
    refine bind_congr fun r => ?_
    cases r <;> rfl
  exact @tracks_of_unfolds _ _ _ _ k (fun _ => text.skipMemberTurn) _ (fun _ => text.skipMembersAt)
    (fun _ => hunfold) (fun _ => tracks_skipMemberTurn hinner) ()

theorem tracks_skipElementsAt :
    Tracks text k text.skipElementsAt ((itemLoop 0x5D fun _ => inner).run ()) := by
  have hunfold : text.skipElementsAt
      = text.skipElementTurn >>= Sum.elim (fun _ => text.skipElementsAt) pure := by
    conv_lhs => rw [Bytes.skipElementsAt]
    refine bind_congr fun r => ?_
    cases r <;> rfl
  exact @tracks_of_unfolds _ _ _ _ k (fun _ => text.skipElementTurn) _
    (fun _ => text.skipElementsAt) (fun _ => hunfold) (fun _ => tracks_skipElementTurn hinner) ()

end

/-- What follows a byte that was expected begins behind it. -/
theorem tracks_expectAt_bind {b : UInt8} {x : JsonScan α} {r : JsonM α}
    (h : Tracks text (k + 1) x r) :
    Tracks text k (expectAt text b >>= fun _ => x) (expect text.length b >>= fun _ => r) := by
  refine (tracks_expectAt b).bind_of_lt fun pos hk hpos a rest hr => h.mono ?_
  have hlt := expect_consumes _ _ _ _ _ hr
  rw [List.length_drop] at hlt
  omega

/-- A name, or a number. -/
theorem tracks_manifestScalar (c : UInt8) : Tracks text k
    (if c = 0x74 ∨ c = 0x66 ∨ c = 0x6E then skipWhile text isAsciiAlphabetic
    else if c = 0x2D ∨ c = 0x2B ∨ isAsciiDigit c then do
      let _ ← numberStrAt text
      pure ()
    else do
      let pos ← position
      malformedAt s!"unexpected byte `{String.singleton (asChar c)}` at pos {pos}")
    (manifestScalar text.length c) := by
  unfold manifestScalar
  split
  · exact tracks_skipWhile isAsciiAlphabetic
  · split
    · exact tracks_numberStrAt.map fun _ => ()
    · exact tracks_position.bind fun pos => tracks_malformedAt _

/-- **`skip_value`**: the values inside of a value begin further on, and are skipped
    with one byte less to go; by induction on these bytes. -/
theorem tracks_skipValueAt (depth : ℕ) (h : text.length < k + depth) :
    Tracks text k text.skipValueAt (skipValueFrom manifestJson text.length depth).1 := by
  induction depth generalizing k with
  | zero => exact fun pos hk hpos => absurd hpos (by omega)
  | succ depth ih =>
    have hinner := @ih (k + 1) (by omega)
    rw [Bytes.skipValueAt]
    refine tracks_skipWsAt.bind fun _ => ?_
    intro pos hk hpos
    rw [run_inside_bind]
    by_cases hlt : pos < text.length
    · have hpeek : (Reader.peek : JsonM _).run (text.drop pos)
          = .ok (some text[pos], text.drop pos) := by
        rw [List.drop_eq_getElem_cons hlt]
        rfl
      rw [if_pos (decide_eq_true hlt), StateT.run_bind, run_byteHere (List.getElem?_eq_getElem hlt),
        ended_ok_bind, Reader.run_bind_ok hpeek]
      dsimp only [skipFirst]
      by_cases hstring : text[pos] = 0x22
      · rw [if_pos hstring, if_pos hstring]
        exact tracks_stringAt.map (fun _ => ()) pos hk hpos
      rw [if_neg hstring, if_neg hstring]
      by_cases hobject : text[pos] = 0x7B
      · rw [if_pos hobject, if_pos hobject]
        exact tracks_expectAt_bind (tracks_skipMembersAt hinner) pos hk hpos
      rw [if_neg hobject, if_neg hobject]
      by_cases harray : text[pos] = 0x5B
      · rw [if_pos harray, if_pos harray]
        exact tracks_expectAt_bind (tracks_skipElementsAt hinner) pos hk hpos
      rw [if_neg harray, if_neg harray]
      change _ = ended (landed text ((manifestScalar text.length text[pos]).run (text.drop pos)))
      exact tracks_manifestScalar text[pos] pos hk hpos
    · rw [if_neg (by simpa using hlt), List.drop_eq_nil_of_le (Nat.not_lt.mp hlt)]
      rfl

theorem tracks_skipValue : Tracks text k text.skipValueAt (skipValue manifestJson text.length) := by
  intro pos hk hpos
  rw [skipValue, Reader.run_bind_ok (Reader.run_remaining _)]
  refine tracks_skipValueAt _ ?_ pos le_rfl hpos
  rw [List.length_drop]
  omega

/-- The turns of the skipped objects and arrays move on. -/
theorem skipMemberTurn_advances : Advances text 0 fun _ : Unit => text.skipMemberTurn :=
  Tracks.advances fun _ => tracks_skipMemberTurn (tracks_skipValueAt (text.length + 1) (by omega))

theorem skipElementTurn_advances : Advances text 0 fun _ : Unit => text.skipElementTurn :=
  Tracks.advances fun _ => tracks_skipElementTurn (tracks_skipValueAt (text.length + 1) (by omega))

end EmatixParquet
