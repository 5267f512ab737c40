/-
  Bitmaps — byte strings as sequences of bits, bit `r` in byte `r / 8` at
  position `r % 8`.

  * `testBit_bytes`: bit `r` of the byte string's number is bit `r % 8` of byte
    `r / 8`; what concatenating, replacing a byte and or-ing into a byte do to
    it (`testBit_append`, `testBit_set`, `testBit_set_or`);
  * `bytes_ext`: byte strings of one length with the same bits are equal;
  * `bitmapOf n bit`: the bitmap of `n` bits, zero in the padding of its last
    byte (`testBit_bitmapOf`).
-/
import EmatixParquet.Wire.Bits

namespace Wire

/-- Bit `r` of a byte string, which is 0 past its end. -/
theorem testBit_bytes (bs : List UInt8) (r : ℕ) :
    (leNat bs).testBit r = (bs[r / 8]?.getD 0).toNat.testBit (r % 8) := by
  cases hb : bs[r / 8]? with
  | some b =>
    have h := testBit_leNat hb (Nat.mod_lt r (by decide))
    rwa [Nat.div_add_mod] at h
  | none =>
    have hlen : bs.length ≤ r / 8 := List.getElem?_eq_none_iff.mp hb
    have hpow : (256 : ℕ) ^ bs.length ≤ 2 ^ r := by
      rw [show (256 : ℕ) = 2 ^ 8 from rfl, ← Nat.pow_mul]
      exact Nat.pow_le_pow_right (by decide) (by omega)
    rw [Nat.testBit_lt_two_pow ((leNat_lt bs).trans_le hpow)]
    simp

theorem testBit_of_le {bs : List UInt8} {r : ℕ} (h : 8 * bs.length ≤ r) :
    (leNat bs).testBit r = false := by
  rw [testBit_bytes, List.getElem?_eq_none_iff.mpr (by omega)]
  simp

theorem byte_ext {a b : UInt8} (h : ∀ i < 8, a.toNat.testBit i = b.toNat.testBit i) : a = b := by
  refine UInt8.toNat_inj.mp (Nat.eq_of_testBit_eq fun i => ?_)
  by_cases hi : i < 8
  · exact h i hi
  · have hpow : 2 ^ 8 ≤ 2 ^ i := Nat.pow_le_pow_right (by decide) (by omega)
    rw [Nat.testBit_lt_two_pow (a.toNat_lt.trans_le hpow),
      Nat.testBit_lt_two_pow (b.toNat_lt.trans_le hpow)]

/-- **Bytes are their bits.** -/
theorem bytes_ext {as bs : List UInt8} (hlen : as.length = bs.length)
    (h : ∀ r < 8 * as.length, (leNat as).testBit r = (leNat bs).testBit r) : as = bs := by
  refine List.ext_getElem hlen fun k hk hk' => byte_ext fun i hi => ?_
  have hbit := h (8 * k + i) (by omega)
  rwa [testBit_leNat (List.getElem?_eq_getElem hk) hi,
    testBit_leNat (List.getElem?_eq_getElem hk') hi] at hbit

theorem testBit_append (as bs : List UInt8) (r : ℕ) :
    (leNat (as ++ bs)).testBit r
      = if r < 8 * as.length then (leNat as).testBit r
        else (leNat bs).testBit (r - 8 * as.length) := by
  rw [testBit_bytes]
  split
  · next h => rw [testBit_bytes, List.getElem?_append_left (by omega)]
  · next h =>
    rw [testBit_bytes, List.getElem?_append_right (by omega),
      show (r - 8 * as.length) / 8 = r / 8 - as.length by omega,
      show (r - 8 * as.length) % 8 = r % 8 by omega]

/-- Byte `k` replaced. -/
theorem testBit_set {bs : List UInt8} {k : ℕ} (hk : k < bs.length) (b : UInt8) (r : ℕ) :
    (leNat (bs.set k b)).testBit r
      = if r / 8 = k then b.toNat.testBit (r % 8) else (leNat bs).testBit r := by
  rw [testBit_bytes, testBit_bytes, List.getElem?_set]
  by_cases h : r / 8 = k
  · subst h
    simp [hk]
  · rw [if_neg (Ne.symm h), if_neg h]

/-- A byte or-ed into byte `k`. -/
theorem testBit_set_or {bs : List UInt8} {k : ℕ} (hk : k < bs.length) (b : UInt8) (r : ℕ) :
    (leNat (bs.set k (bs[k] ||| b))).testBit r
      = ((leNat bs).testBit r || (decide (r / 8 = k) && b.toNat.testBit (r % 8))) := by
  rw [testBit_set hk]
  by_cases h : r / 8 = k
  · subst h
    rw [if_pos rfl, UInt8.toNat_or, Nat.testBit_or, testBit_bytes,
      List.getElem?_eq_getElem hk]
    simp
  · simp [h]

/-- The bit `b` of a byte, shifted to position `s`. -/
theorem testBit_shiftLeft_bit {b : UInt8} (hb : b = 0 ∨ b = 1) {s i : ℕ} (hs : s < 8) :
    (b <<< UInt8.ofNat s).toNat.testBit i = (decide (i = s) && (b == 1)) := by
  rcases hb with rfl | rfl
  · simp
  · have hpow : 2 ^ s < 2 ^ 8 := Nat.pow_lt_pow_right (by decide) hs
    have hone : ((1 : UInt8) <<< UInt8.ofNat s).toNat = 2 ^ s := by
      rw [UInt8.toNat_shiftLeft, UInt8.toNat_ofNat_of_lt' (show s < 2 ^ 8 by omega),
        Nat.mod_eq_of_lt hs, UInt8.toNat_one, Nat.shiftLeft_eq, Nat.one_mul, Nat.mod_eq_of_lt hpow]
    rw [hone, Nat.testBit_two_pow]
    simp [eq_comm]

/-- The bit `b` or-ed in at `row`. -/
theorem testBit_set_bit {bs : List UInt8} {row : ℕ} (hk : row / 8 < bs.length) {b : UInt8}
    (hb : b = 0 ∨ b = 1) (r : ℕ) :
    (leNat (bs.set (row / 8) (bs[row / 8] ||| (b <<< UInt8.ofNat (row % 8))))).testBit r
      = ((leNat bs).testBit r || (decide (r = row) && (b == 1))) := by
  rw [testBit_set_or hk, testBit_shiftLeft_bit hb (Nat.mod_lt _ (by decide)), ← Bool.and_assoc,
    ← Bool.decide_and]
  congr 3
  exact propext ⟨fun h => by omega, fun h => by rw [h]; exact ⟨rfl, rfl⟩⟩

/-- The bytes of `src` in place of those from byte `k` on. -/
theorem testBit_copy {bs src : List UInt8} {k : ℕ} (hk : k + src.length ≤ bs.length) (r : ℕ) :
    (leNat (bs.take k ++ src ++ bs.drop (k + src.length))).testBit r
      = if 8 * k ≤ r ∧ r < 8 * (k + src.length) then (leNat src).testBit (r - 8 * k)
        else (leNat bs).testBit r := by
  have hlen : (bs.take k).length = k := List.length_take_of_le (by omega)
  rw [testBit_bytes]
  split
  · next h =>
    rw [List.append_assoc, List.getElem?_append_right (by omega), hlen,
      List.getElem?_append_left (by omega), testBit_bytes, show (r - 8 * k) / 8 = r / 8 - k by omega,
      show (r - 8 * k) % 8 = r % 8 by omega]
  · next h =>
    rw [testBit_bytes bs]
    by_cases hr : r / 8 < k
    · rw [List.append_assoc, List.getElem?_append_left (by omega), List.getElem?_take_of_lt hr]
    · rw [List.getElem?_append_right (by rw [List.length_append]; omega), List.length_append, hlen,
        List.getElem?_drop, show k + src.length + (r / 8 - (k + src.length)) = r / 8 by omega]

/-! ## The bitmap of a predicate -/

/-- The byte with the given bits. -/
def byteOf (bit : ℕ → Bool) : UInt8 := UInt8.ofNat (Nat.ofBits fun i : Fin 8 => bit i)

theorem testBit_byteOf (bit : ℕ → Bool) {i : ℕ} (hi : i < 8) :
    (byteOf bit).toNat.testBit i = bit i := by
  rw [byteOf, UInt8.toNat_ofNat_of_lt' (Nat.ofBits_lt_two_pow _), Nat.testBit_ofBits_lt _ i hi]

/-- `n` bits in as few bytes as hold them. -/
def bitmapOf (n : ℕ) (bit : ℕ → Bool) : List UInt8 :=
  (List.range ((n + 7) / 8)).map fun k => byteOf fun i => decide (8 * k + i < n) && bit (8 * k + i)

@[simp] theorem length_bitmapOf (n : ℕ) (bit : ℕ → Bool) :
    (bitmapOf n bit).length = (n + 7) / 8 := by simp [bitmapOf]

theorem testBit_bitmapOf (n : ℕ) (bit : ℕ → Bool) (r : ℕ) :
    (leNat (bitmapOf n bit)).testBit r = (decide (r < n) && bit r) := by
  by_cases hr : r / 8 < (n + 7) / 8
  · have hget : (bitmapOf n bit)[r / 8]?
        = some (byteOf fun i => decide (8 * (r / 8) + i < n) && bit (8 * (r / 8) + i)) := by
      simp [bitmapOf, hr]
    rw [testBit_bytes, hget, Option.getD_some, testBit_byteOf _ (Nat.mod_lt _ (by decide)),
      Nat.div_add_mod]
  · rw [testBit_of_le (by rw [length_bitmapOf]; omega), show decide (r < n) = false by simp; omega,
      Bool.false_and]

/-- A bitmap of the right length with the right bits. -/
theorem eq_bitmapOf {bs : List UInt8} {n : ℕ} {bit : ℕ → Bool} (hlen : bs.length = (n + 7) / 8)
    (h : ∀ r, (leNat bs).testBit r = (decide (r < n) && bit r)) : bs = bitmapOf n bit :=
  bytes_ext (by rw [hlen, length_bitmapOf]) fun r _ => by rw [h, testBit_bitmapOf]

end Wire
