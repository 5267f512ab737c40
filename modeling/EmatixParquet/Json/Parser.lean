/-
  The JSON parser — the one of `index/manifest.rs` and its copy in the Iceberg
  crate (`extension.rs`).

  The two agree but for their error type, the way a string goes on after an
  escape, and the scalars they skip; a `Dialect` says how they differ.  The
  parser works on the bytes of the text.  Its loops run over the members of an
  object or the elements of an array (`itemLoop`) or over the characters of a
  string (`stringLoop`), and end because each turn consumes at least one byte.

  The writer of strings, which both have, is `jsonString`.
-/
import EmatixParquet.Codec.Column
import EmatixParquet.Wire.Utf8

namespace EmatixParquet

open Wire

/-! ## Writing -/

/-- A hexadecimal digit, in lower case. -/
def hexDigit (n : ℕ) : Char := n.digitChar

/-- What `write_json_string` writes for a character. -/
def escapeChar (c : Char) : List Char :=
  if c = '"' then ['\\', '"']
  else if c = '\\' then ['\\', '\\']
  else if c = '\n' then ['\\', 'n']
  else if c = '\r' then ['\\', 'r']
  else if c = '\t' then ['\\', 't']
  else if c.toNat < 0x20 then ['\\', 'u', '0', '0', hexDigit (c.toNat / 16), hexDigit (c.toNat % 16)]
  else [c]

/-- `write_json_string`. -/
def jsonString (v : String) : String := "\"" ++ String.ofList (v.toList.flatMap escapeChar) ++ "\""

/-- Texts with commas between them. -/
def commaSeparated : List String → String
  | [] => ""
  | [s] => s
  | s :: s' :: ss => s ++ ("," ++ commaSeparated (s' :: ss))

/-! ## Parsing -/

/-- Errors with a `Malformed` variant. -/
class JsonError (ε : Type) where
  malformed : String → ε

variable {ε : Type} [JsonError ε]

/-- A failure with a message. -/
def malformed {α : Type} (msg : String) : Reader ε α := Reader.fail (JsonError.malformed msg)

/-- `b as char`. -/
def asChar (b : UInt8) : Char := Char.ofNat b.toNat

/-- `std::str::from_utf8`. -/
def utf8 (what : String) (bs : Bytes) : Reader ε String :=
  match fromUtf8 bs with
  | some s => pure s
  | none => malformed ("non-utf8 in " ++ what)

/-- The four bytes of whitespace. -/
def isJsonSpace (b : UInt8) : Bool := b = 0x20 || b = 0x09 || b = 0x0A || b = 0x0D

/-- `skip_ws`. -/
def skipWs : Reader ε Unit := do
  let _ ← Reader.takeWhile isJsonSpace

/-- Whether the next byte is `b`; then it is consumed. -/
def consumeIf (b : UInt8) : Reader ε Bool := do
  match ← Reader.peek with
  | some c =>
    if c = b then
      let _ ← Reader.next
      pure true
    else pure false
  | none => pure false

/-- `try_obj_close` and `try_arr_close`. -/
def tryClose (b : UInt8) : Reader ε Bool := do
  skipWs
  consumeIf b

/-- `consume_comma_or_close`: a comma may be missing. -/
def consumeCommaOrClose : Reader ε Unit := do
  skipWs
  let _ ← consumeIf 0x2C

/-- `self.pos`, in a text of `len` bytes. -/
def jsonPos (len : ℕ) : Reader ε ℕ := (len - ·) <$> Reader.remaining

/-- `expect`: whitespace, then the byte. -/
def expect (len : ℕ) (b : UInt8) : Reader ε Unit := do
  skipWs
  if ← consumeIf b then pure ()
  else
    let pos ← jsonPos len
    malformed s!"expected `{String.singleton (asChar b)}` at pos {pos}"

/-! ### Strings -/

/-- Bytes that neither end nor escape. -/
def isPlainByte (b : UInt8) : Bool := b ≠ 0x22 && b ≠ 0x5C

/-- The escapes of one letter. -/
def unescape (b : UInt8) : Option Char :=
  if b = 0x22 then some '"'
  else if b = 0x5C then some '\\'
  else if b = 0x2F then some '/'
  else if b = 0x6E then some '\n'
  else if b = 0x72 then some '\r'
  else if b = 0x74 then some '\t'
  else none

/-- What has been read of a string: as long as there was no escape, `out` is
    empty and `raw` is all of it. -/
structure StringState where
  out : String := ""
  raw : Bytes := []

namespace StringState

/-- `if out.is_empty() { .. from_utf8(&self.s[start..self.pos]) .. }`. -/
def committed (s : StringState) : Reader ε String :=
  if s.out = "" then utf8 "string" s.raw else pure s.out

/-- The character after a backslash. -/
def escape (s : StringState) : Reader ε StringState := do
  let out ← s.committed
  match ← Reader.next with
  | none => malformed "trailing backslash"
  | some e =>
    match unescape e with
    | some c => pure { s with out := out.push c }
    | none => malformed s!"unsupported escape `\\{String.singleton (asChar e)}`"

/-- A byte that neither ends nor escapes; after an escape `later` takes it. -/
def accumulate (later : UInt8 → Reader ε String) (s : StringState) (c : UInt8) :
    Reader ε StringState :=
  if s.out = "" then pure { s with raw := s.raw ++ [c] }
  else (fun piece => { s with out := s.out ++ piece }) <$> later c

/-- A turn of the loop of `string`, on the byte `c`. -/
def byte (later : UInt8 → Reader ε String) (s : StringState) (c : UInt8) :
    Reader ε (StringState ⊕ String) :=
  if c = 0x22 then .inr <$> s.committed
  else if c = 0x5C then .inl <$> s.escape
  else .inl <$> s.accumulate later c

end StringState

/-- The bytes of a string, up to its quote. -/
def stringLoop (later : UInt8 → Reader ε String) : Loop ε StringState String where
  step s := do
    match ← Reader.next with
    | none => malformed "unterminated string"
    | some c => s.byte later c
  consumes {s bs s' rest} h := by
    obtain ⟨o, mid, ho, h⟩ := Reader.run_bind_eq_ok h
    cases bs with
    | nil => cases ho; cases h
    | cons b bs =>
      cases ho
      exact Nat.lt_succ_of_le (Reader.run_length_le _ h)

/-- `string`. -/
def stringWith (later : UInt8 → Reader ε String) (len : ℕ) : Reader ε String := do
  skipWs
  expect len 0x22
  (stringLoop later).run {}

/-! ### Integers -/

/-- `from_str` of an integer type. -/
inductive ParseIntError where
  | empty | invalidDigit | posOverflow | negOverflow
  deriving DecidableEq, Repr

/-- The messages of `str::parse`. -/
def ParseIntError.display : ParseIntError → String
  | empty => "cannot parse integer from empty string"
  | invalidDigit => "invalid digit found in string"
  | posOverflow => "number too large to fit in target type"
  | negOverflow => "number too small to fit in target type"

/-- A run of decimal digits. -/
def parseDigits (cs : List Char) : Except ParseIntError ℕ :=
  if cs ≠ [] ∧ cs.all Char.isDigit then .ok (Nat.ofDigitChars 10 cs 0) else .error .invalidDigit

/-- The sign, and the digits after it. -/
def parseSigned : List Char → Except ParseIntError ℤ
  | [] => .error .empty
  | '-' :: cs => (fun n : ℕ => -(n : ℤ)) <$> parseDigits cs
  | '+' :: cs => (fun n : ℕ => (n : ℤ)) <$> parseDigits cs
  | cs => (fun n : ℕ => (n : ℤ)) <$> parseDigits cs

/-- `str::parse::<i64>`. -/
def parseI64 (s : String) : Except ParseIntError Int64 := do
  let n ← parseSigned s.toList
  if 2 ^ 63 ≤ n then .error .posOverflow
  else if n < -2 ^ 63 then .error .negOverflow
  else pure (Int64.ofInt n)

/-- `str::parse::<u32>`: a minus sign is not a digit. -/
def parseU32 (s : String) : Except ParseIntError UInt32 :=
  if s.toList.head? = some '-' then .error .invalidDigit
  else do
    let n ← parseSigned s.toList
    if 2 ^ 32 ≤ n then .error .posOverflow else pure (UInt32.ofNat n.toNat)

/-! ### Progress -/

/-- A reader that takes at least one byte when it succeeds. -/
def Consumes {α : Type} (r : Reader ε α) : Prop :=
  ∀ bs a rest, r.run bs = .ok (a, rest) → rest.length < bs.length

section
omit [JsonError ε]
variable {α β : Type} {r : Reader ε α}

theorem Consumes.bind_left {f : α → Reader ε β} (h : Consumes r) : Consumes (r >>= f) := by
  intro bs b rest hrun
  obtain ⟨a, mid, hr, hf⟩ := Reader.run_bind_eq_ok hrun
  exact lt_of_le_of_lt (Reader.run_length_le _ hf) (h _ _ _ hr)

theorem Consumes.bind_right {f : α → Reader ε β} (h : ∀ a, Consumes (f a)) : Consumes (r >>= f) := by
  intro bs b rest hrun
  obtain ⟨a, mid, hr, hf⟩ := Reader.run_bind_eq_ok hrun
  exact lt_of_lt_of_le (h a _ _ _ hf) (Reader.run_length_le _ hr)

theorem Consumes.map (f : α → β) (h : Consumes r) : Consumes (f <$> r) := by
  intro bs b rest hrun
  rw [Reader.run_map] at hrun
  split at hrun
  · cases hrun
  · next hr =>
    cases hrun
    exact h _ _ _ hr

theorem consumes_fail (e : ε) : Consumes (Reader.fail e : Reader ε α) :=
  fun _ _ _ h => by cases h

/-- Some bytes that pass a test, unless there are none. -/
theorem consumes_takeWhile {p : UInt8 → Bool} {f : Bytes → Reader ε β} {c : UInt8} {bs rest : Bytes}
    {b : β} (hc : p c = true) (h : (Reader.takeWhile p >>= f).run (c :: bs) = .ok (b, rest)) :
    rest.length < (c :: bs).length := by
  obtain ⟨w, mid, hw, h⟩ := Reader.run_bind_eq_ok h
  rw [Reader.run_takeWhile, List.dropWhile_cons_of_pos hc] at hw
  cases hw
  exact Nat.lt_succ_of_le ((Reader.run_length_le _ h).trans (List.dropWhile_suffix _).length_le)

theorem consumeIf_eq (b : UInt8) (bs : Bytes) : (consumeIf b : Reader ε Bool).run bs
    = .ok (if bs.head? = some b then (true, bs.tail) else (false, bs)) := by
  cases bs with
  | nil => rfl
  | cons c bs => by_cases hc : c = b <;> simp [consumeIf, Reader.run_bind, Reader.run_map, hc]

end

theorem expect_consumes (len : ℕ) (b : UInt8) : Consumes (expect len b : Reader ε Unit) := by
  refine .bind_right fun _ bs a rest h => ?_
  obtain ⟨found, mid, hfound, h⟩ := Reader.run_bind_eq_ok h
  rw [consumeIf_eq] at hfound
  cases bs with
  | nil =>
    cases hfound
    cases h
  | cons c bs =>
    by_cases hc : c = b
    · simp only [List.head?_cons, hc, if_true] at hfound
      cases hfound
      cases h
      simp
    · simp only [List.head?_cons, Option.some.injEq, hc, if_false] at hfound
      cases hfound
      obtain ⟨pos, mid', -, h⟩ := Reader.run_bind_eq_ok h
      cases h

theorem stringWith_consumes (later : UInt8 → Reader ε String) (len : ℕ) :
    Consumes (stringWith later len) :=
  .bind_right fun _ => .bind_left (expect_consumes len 0x22)

/-! ### Dialects -/

/-- How the two parsers differ: the text after an escape, an empty rest, and the
    values that are neither strings nor objects nor arrays, which begin with the
    given byte. -/
structure Dialect (ε : Type) [JsonError ε] where
  later : UInt8 → Reader ε String
  eof : String
  scalar : ℕ → UInt8 → Reader ε Unit
  scalar_consumes : ∀ {len c bs rest}, (scalar len c).run (c :: bs) = .ok ((), rest) →
    rest.length < (c :: bs).length

section
variable {σ : Type} (d : Dialect ε) (len : ℕ)

/-- `string`. -/
def jsonStr : Reader ε String := stringWith d.later len

theorem jsonStr_consumes : Consumes (jsonStr d len) := stringWith_consumes d.later len

/-! ### Objects and arrays -/

/-- The loop up to a closing byte. -/
def itemLoop (close : UInt8) (item : σ → {r : Reader ε σ // Consumes r}) : Loop ε σ σ where
  step s := do
    if ← tryClose close then pure (.inr s)
    else
      let s ← (item s).1
      consumeCommaOrClose
      pure (.inl s)
  consumes {s bs s' rest} h := by
    obtain ⟨closed, mid, hclosed, h⟩ := Reader.run_bind_eq_ok h
    have hle := Reader.run_length_le _ hclosed
    cases closed with
    | true => cases h
    | false =>
      have hlt := (item s).2.bind_left _ _ _ h
      omega

/-- A member: its key, a colon and what `member` reads. -/
def readMember (member : String → σ → Reader ε σ) (s : σ) : {r : Reader ε σ // Consumes r} :=
  ⟨do
    let key ← jsonStr d len
    expect len 0x3A
    member key s, (jsonStr_consumes d len).bind_left⟩

/-- `expect_obj_open` and the loop over the members. -/
def jsonObject (member : String → σ → Reader ε σ) (init : σ) : Reader ε σ := do
  expect len 0x7B
  (itemLoop 0x7D (readMember d len member)).run init

/-- `expect_arr_open` and the loop over the elements. -/
def jsonArray (item : σ → {r : Reader ε σ // Consumes r}) (init : σ) : Reader ε σ := do
  expect len 0x5B
  (itemLoop 0x5D item).run init

theorem jsonObject_consumes (member : String → σ → Reader ε σ) (init : σ) :
    Consumes (jsonObject d len member init) :=
  (expect_consumes len 0x7B).bind_left

theorem jsonArray_consumes (item : σ → {r : Reader ε σ // Consumes r}) (init : σ) :
    Consumes (jsonArray len item init) :=
  (expect_consumes len 0x5B).bind_left

/-- The elements of an array, one reader for each. -/
def jsonList {α : Type} (item : Reader ε α) (h : Consumes item) : Reader ε (List α) :=
  jsonArray len (fun out => ⟨(out ++ [·]) <$> item, h.map _⟩) []

/-- `string_array`. -/
def stringArray : Reader ε (List String) := jsonList len (jsonStr d len) (jsonStr_consumes d len)

/-! ### Values that are skipped -/

/-- The value that begins with the byte `c`; `inner` skips the values in it. -/
def skipFirst (inner : {r : Reader ε Unit // Consumes r}) (c : UInt8) : Reader ε Unit :=
  if c = 0x22 then (fun _ => ()) <$> jsonStr d len
  else if c = 0x7B then jsonObject d len (fun _ _ => inner.1) ()
  else if c = 0x5B then jsonArray len (fun _ => inner) ()
  else d.scalar len c

theorem skipFirst_consumes {inner : {r : Reader ε Unit // Consumes r}} {c : UInt8} {bs rest : Bytes}
    (h : (skipFirst d len inner c).run (c :: bs) = .ok ((), rest)) :
    rest.length < (c :: bs).length := by
  unfold skipFirst at h
  split at h
  · exact (jsonStr_consumes d len).map _ _ _ _ h
  · split at h
    · exact jsonObject_consumes d len _ _ _ _ _ h
    · split at h
      · exact jsonArray_consumes len _ _ _ _ _ h
      · exact d.scalar_consumes h

/-- `skip_value`, inside fewer than `depth` objects and arrays. -/
def skipValueFrom : ℕ → {r : Reader ε Unit // Consumes r}
  | 0 => ⟨malformed d.eof, consumes_fail _⟩
  | depth + 1 => ⟨do
      skipWs
      match ← Reader.peek with
      | none => malformed d.eof
      | some c => skipFirst d len (skipValueFrom depth) c, by
      refine .bind_right fun _ bs a rest h => ?_
      obtain ⟨o, mid, ho, h⟩ := Reader.run_bind_eq_ok h
      cases ho
      cases bs with
      | nil => cases h
      | cons c bs => exact skipFirst_consumes d len h⟩

/-- `skip_value`: there are at most as many objects and arrays around a value as
    bytes. -/
def skipValue : Reader ε Unit := do
  let n ← Reader.remaining
  (skipValueFrom d len (n + 1)).1

/-- `ok_or_else(|| Malformed(what))`. -/
def member {α : Type} (what : String) : Option α → Reader ε α
  | some a => pure a
  | none => malformed what

end

end EmatixParquet
