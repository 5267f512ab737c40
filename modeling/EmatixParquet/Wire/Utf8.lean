/-
  UTF-8 — strings as bytes and back.

  * `fromUtf8_encode`: what was encoded is decoded;
  * `encodeChar_ascii`, `encodeChar_high`: an ASCII character is its own byte,
    every other character has bytes from 128 on, so that an ASCII byte in a text
    is a character of the text.
-/
import Mathlib.Data.List.Basic
import Mathlib.Tactic.Common

namespace Wire

/-- `std::str::from_utf8`. -/
def fromUtf8 (bs : List UInt8) : Option String := String.fromUTF8? bs.toByteArray

/-- The bytes of a text. -/
def encode (l : List Char) : List UInt8 := l.flatMap String.utf8EncodeChar

@[simp] theorem encode_nil : encode [] = [] := rfl

@[simp] theorem encode_cons (c : Char) (l : List Char) :
    encode (c :: l) = String.utf8EncodeChar c ++ encode l := List.flatMap_cons

@[simp] theorem encode_append (l l' : List Char) : encode (l ++ l') = encode l ++ encode l' :=
  List.flatMap_append

/-- **Encoding and decoding.** -/
theorem fromUtf8_encode (l : List Char) : fromUtf8 (encode l) = some (String.ofList l) := by
  have hbytes : (encode l).toByteArray = (String.ofList l).toByteArray :=
    String.toByteArray_ofList.symm
  rw [fromUtf8, hbytes, String.fromUTF8?, dif_pos (String.ofList l).isValidUTF8]
  rfl

theorem encodeChar_ascii {c : Char} (h : c.toNat < 128) :
    String.utf8EncodeChar c = [UInt8.ofNat c.toNat] := by
  rw [String.utf8EncodeChar]
  exact if_pos (by change c.toNat ≤ 127; omega)

theorem encodeChar_high {c : Char} (h : 128 ≤ c.toNat) :
    ∀ b ∈ String.utf8EncodeChar c, 128 ≤ b.toNat := by
  intro b hb
  have hnot : ¬ c.val.toNat ≤ 127 := by change ¬ c.toNat ≤ 127; omega
  simp only [String.utf8EncodeChar, hnot, if_false] at hb
  split at hb
  · simp only [List.mem_cons, List.not_mem_nil, or_false] at hb
    rcases hb with rfl | rfl <;> rw [UInt8.toNat_ofNat'] <;> omega
  · split at hb
    · simp only [List.mem_cons, List.not_mem_nil, or_false] at hb
      rcases hb with rfl | rfl | rfl <;> rw [UInt8.toNat_ofNat'] <;> omega
    · simp only [List.mem_cons, List.not_mem_nil, or_false] at hb
      rcases hb with rfl | rfl | rfl | rfl <;> rw [UInt8.toNat_ofNat'] <;> omega

/-- An ASCII byte of a text is one of its characters. -/
theorem char_of_mem_encodeChar {c : Char} {b : UInt8} (hb : b ∈ String.utf8EncodeChar c)
    (hlt : b.toNat < 128) : c = Char.ofNat b.toNat := by
  rcases Nat.lt_or_ge c.toNat 128 with hc | hc
  · rw [encodeChar_ascii hc, List.mem_singleton] at hb
    rw [hb, UInt8.toNat_ofNat_of_lt' (show c.toNat < 2 ^ 8 by omega), Char.ofNat_toNat]
  · have := encodeChar_high hc b hb
    omega

end Wire
