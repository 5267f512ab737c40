/-
  The grammar of JSON — every well-formed value with every text it has.

  A `Json` is a syntax tree that keeps the white space, the digits of numbers
  and the escapes of strings, so `Json.chars` reaches every text of the grammar.
  A string stands for UTF-16 code units (`units`).
-/
import EmatixParquet.Json.Reads

namespace EmatixParquet

open Wire

/-! ## White space, strings and numbers -/

/-- What may stand between tokens. -/
inductive Space where
  | space | tab | lineFeed | carriageReturn
  deriving DecidableEq, Repr

/-- Its character. -/
def Space.char : Space → Char
  | space => ' '
  | tab => '\t'
  | lineFeed => '\n'
  | carriageReturn => '\r'

/-- White space. -/
def blank (ws : List Space) : List Char := ws.map Space.char

/-- The escapes of one letter. -/
inductive EscapeLetter where
  | quote | backslash | slash | b | f | n | r | t
  deriving DecidableEq, Repr

/-- The letter after the backslash. -/
def EscapeLetter.letter : EscapeLetter → Char
  | quote => '"'
  | backslash => '\\'
  | slash => '/'
  | b => 'b'
  | f => 'f'
  | n => 'n'
  | r => 'r'
  | t => 't'

/-- The code unit that the escape stands for. -/
def EscapeLetter.unit : EscapeLetter → ℕ
  | quote => 0x22
  | backslash => 0x5C
  | slash => 0x2F
  | b => 0x08
  | f => 0x0C
  | n => 0x0A
  | r => 0x0D
  | t => 0x09

/-- A hexadecimal digit, of either case. -/
structure HexChar where
  value : Fin 16
  upper : Bool
  deriving DecidableEq, Repr

/-- Its character. -/
def HexChar.char (h : HexChar) : Char :=
  if h.upper then (hexDigit h.value).toUpper else hexDigit h.value

/-- A part of a string: a character, an escape, or a code unit in hexadecimal. -/
inductive StringPart where
  | char (c : Char) (h : PlainChar c)
  | escape (e : EscapeLetter)
  | unicode (h₁ h₂ h₃ h₄ : HexChar)
  deriving DecidableEq, Repr

/-- How a part is written. -/
def StringPart.chars : StringPart → List Char
  | char c _ => [c]
  | escape e => ['\\', e.letter]
  | unicode h₁ h₂ h₃ h₄ => ['\\', 'u', h₁.char, h₂.char, h₃.char, h₄.char]

/-- The UTF-16 code units of a character. -/
def charUnits (c : Char) : List ℕ :=
  if c.toNat < 0x10000 then [c.toNat]
  else [0xD800 + (c.toNat - 0x10000) / 0x400, 0xDC00 + (c.toNat - 0x10000) % 0x400]

/-- The code units that it stands for. -/
def StringPart.units : StringPart → List ℕ
  | char c _ => charUnits c
  | escape e => [e.unit]
  | unicode h₁ h₂ h₃ h₄ => [((h₁.value * 16 + h₂.value) * 16 + h₃.value) * 16 + h₄.value]

/-- A string between its quotes. -/
def quoted (parts : List StringPart) : List Char :=
  '"' :: (parts.flatMap StringPart.chars ++ ['"'])

/-- What a string stands for. -/
def units (parts : List StringPart) : List ℕ := parts.flatMap StringPart.units

/-- What a text stands for. -/
def textUnits (v : String) : List ℕ := v.toList.flatMap charUnits

/-- One digit or more. -/
structure Digits where
  first : Fin 10
  rest : List (Fin 10)
  deriving DecidableEq, Repr

/-- How digits are written. -/
def Digits.chars (d : Digits) : List Char := (d.first :: d.rest).map fun i => i.val.digitChar

/-- A power of ten. -/
structure Exponent where
  upper : Bool
  sign : Option Bool
  digits : Digits
  deriving DecidableEq, Repr

/-- How an exponent is written. -/
def Exponent.chars (e : Exponent) : List Char :=
  (if e.upper then 'E' else 'e') :: ((match e.sign with
    | none => []
    | some false => ['+']
    | some true => ['-']) ++ e.digits.chars)

/-- The text of an integer: a sign and digits. -/
def integerChars (negative : Bool) (digits : List Char) : List Char :=
  (if negative then ['-'] else []) ++ digits

/-- A number; its integer part has no zeros in front. -/
structure NumberText where
  negative : Bool
  int : ℕ
  fraction : Option Digits
  exponent : Option Exponent
  deriving DecidableEq, Repr

/-- A number without its fraction and exponent. -/
def NumberText.integer (n : NumberText) : List Char := integerChars n.negative (Nat.toDigits 10 n.int)

/-- How a number is written. -/
def NumberText.chars (n : NumberText) : List Char :=
  n.integer ++ ((n.fraction.elim [] fun d => '.' :: d.chars) ++ n.exponent.elim [] Exponent.chars)

/-! ## Values -/

mutual

/-- A value. -/
inductive Json where
  | null
  | bool (b : Bool)
  | number (n : NumberText)
  | string (parts : List StringPart)
  | array (elements : Elements)
  | object (members : Members)

/-- What is between the brackets of an array. -/
inductive Elements where
  | nil (pad : List Space)
  | cons (before : List Space) (value : Json) (after : List Space) (rest : Elements)

/-- What is between the braces of an object. -/
inductive Members where
  | nil (pad : List Space)
  | cons (before : List Space) (key : List StringPart) (beforeColon afterColon : List Space)
      (value : Json) (after : List Space) (rest : Members)

end

/-- The text of a member. -/
def memberChars (key : List StringPart) (beforeColon afterColon : List Space) (value : List Char) :
    List Char :=
  quoted key ++ (blank beforeColon ++ ':' :: (blank afterColon ++ value))

mutual

/-- The text of a value. -/
def Json.chars : Json → List Char
  | .null => ['n', 'u', 'l', 'l']
  | .bool true => ['t', 'r', 'u', 'e']
  | .bool false => ['f', 'a', 'l', 's', 'e']
  | .number n => n.chars
  | .string parts => quoted parts
  | .array elements => '[' :: (elements.chars ++ [']'])
  | .object members => '{' :: (members.chars ++ ['}'])

/-- How the elements are written, with what follows them. -/
def Elements.chars : Elements → List Char
  | .nil pad => blank pad
  | .cons before value after (.nil pad) =>
    blank before ++ (value.chars ++ (blank after ++ blank pad))
  | .cons before value after (.cons before' value' after' rest) =>
    blank before ++ (value.chars ++ (blank after ++ ',' :: (Elements.cons before' value' after' rest).chars))

/-- How the members are written, with what follows them. -/
def Members.chars : Members → List Char
  | .nil pad => blank pad
  | .cons before key beforeColon afterColon value after (.nil pad) =>
    blank before ++ (memberChars key beforeColon afterColon value.chars ++ (blank after ++ blank pad))
  | .cons before key beforeColon afterColon value after
      (.cons before' key' beforeColon' afterColon' value' after' rest) =>
    blank before ++ (memberChars key beforeColon afterColon value.chars
      ++ (blank after ++ ',' ::
        (Members.cons before' key' beforeColon' afterColon' value' after' rest).chars))

end

/-! ## Items -/

/-- The elements of an array as texts with white space around them. -/
def Elements.padded : Elements → List Padded
  | .nil _ => []
  | .cons before value after rest =>
    { before := encode (blank before), text := encode value.chars, after := encode (blank after) }
      :: rest.padded

/-- The white space before the closing bracket. -/
def Elements.pad : Elements → Bytes
  | .nil pad => encode (blank pad)
  | .cons _ _ _ rest => rest.pad

/-- The members of an object as texts with white space around them. -/
def Members.padded : Members → List Padded
  | .nil _ => []
  | .cons before key beforeColon afterColon value after rest =>
    { before := encode (blank before)
      text := encode (memberChars key beforeColon afterColon value.chars)
      after := encode (blank after) } :: rest.padded

/-- The white space before the closing brace. -/
def Members.pad : Members → Bytes
  | .nil pad => encode (blank pad)
  | .cons _ _ _ _ _ _ rest => rest.pad

theorem spaces_blank (ws : List Space) : Spaces (encode (blank ws)) := by
  intro b hb
  obtain ⟨c, hc, hb⟩ := List.mem_flatMap.mp hb
  obtain ⟨s, -, rfl⟩ := List.mem_map.mp hc
  cases s <;>
  · rw [List.mem_singleton.mp hb]
    decide

theorem Elements.spaces_pad : ∀ es : Elements, Spaces es.pad
  | .nil pad => spaces_blank pad
  | .cons _ _ _ rest => rest.spaces_pad

theorem Members.spaces_pad : ∀ ms : Members, Spaces ms.pad
  | .nil pad => spaces_blank pad
  | .cons _ _ _ _ _ _ rest => rest.spaces_pad

theorem itemsText_cons_cons (close : UInt8) (p q : Padded) (ps : List Padded) (pad : Bytes) :
    itemsText close (p :: q :: ps) pad = p.bytes ++ 0x2C :: itemsText close (q :: ps) pad := by
  simp [itemsText, joinComma]

theorem itemsText_singleton (close : UInt8) (p : Padded) (pad : Bytes) :
    itemsText close [p] pad = p.bytes ++ (pad ++ [close]) := rfl

theorem encode_comma (cs : List Char) : encode (',' :: cs) = 0x2C :: encode cs := rfl

theorem encode_elements : ∀ es : Elements,
    encode es.chars ++ [0x5D] = itemsText 0x5D es.padded es.pad
  | .nil pad => by rw [Elements.chars]; rfl
  | .cons before value after (.nil pad) => by
    rw [Elements.chars, Elements.padded, Elements.padded, itemsText_singleton, Elements.pad,
      Elements.pad, Padded.bytes]
    simp only [encode_append, List.append_assoc]
  | .cons before value after (.cons before' value' after' rest) => by
    have ih := encode_elements (.cons before' value' after' rest)
    rw [Elements.chars, Elements.padded, Elements.pad]
    rw [Elements.padded] at ih ⊢
    rw [itemsText_cons_cons, ← ih, Padded.bytes]
    simp only [encode_append, encode_comma, List.append_assoc, List.cons_append]

theorem encode_members : ∀ ms : Members,
    encode ms.chars ++ [0x7D] = itemsText 0x7D ms.padded ms.pad
  | .nil pad => by rw [Members.chars]; rfl
  | .cons before key beforeColon afterColon value after (.nil pad) => by
    rw [Members.chars, Members.padded, Members.padded, itemsText_singleton, Members.pad,
      Members.pad, Padded.bytes]
    simp only [encode_append, List.append_assoc]
  | .cons before key beforeColon afterColon value after
      (.cons before' key' beforeColon' afterColon' value' after' rest) => by
    have ih := encode_members (.cons before' key' beforeColon' afterColon' value' after' rest)
    rw [Members.chars, Members.padded, Members.pad]
    rw [Members.padded] at ih ⊢
    rw [itemsText_cons_cons, ← ih, Padded.bytes]
    simp only [encode_append, encode_comma, List.append_assoc, List.cons_append]

end EmatixParquet
