/-
  Variable-length integers — the arithmetic of base-128 digits and of the
  zigzag code.

  * `unzigzag_zigzag`: the zigzag code of a two's-complement word is undone by
    `unzigzag`, at every width, and `toInt_unzigzag` says which integer a code means;
  * `or_shiftLeft_digit`: adding one base-128 digit on top of `s` bits with
    shifts and `|||` is adding it arithmetically.
-/
import Mathlib.Data.Nat.Bitwise
import Mathlib.Data.UInt
import Mathlib.Tactic.Common
import Mathlib.Tactic.Ring

namespace Wire

/-! ## Zigzag -/

section
variable {w : ℕ}

/-- Zigzag: small magnitudes of either sign become small unsigned numbers. -/
def zigzag (v : BitVec w) : BitVec w := (v <<< 1) ^^^ v.sshiftRight (w - 1)

/-- The inverse of `zigzag`. -/
def unzigzag (u : BitVec w) : BitVec w := (u >>> 1) ^^^ -(u &&& 1#w)

/-- The sign shift fills the word with the sign bit. -/
theorem getLsbD_sshiftRight_sign (v : BitVec w) {i : ℕ} (hi : i < w) :
    (v.sshiftRight (w - 1)).getLsbD i = v.msb := by
  rw [BitVec.getLsbD_sshiftRight]
  by_cases h0 : w - 1 + i < w
  · obtain rfl : i = 0 := by omega
    have hw : ¬ w = 0 := by omega
    simp [hw, BitVec.msb_eq_getLsbD_last]
  · simp [h0, hi]

/-- The lowest bit, as a mask. -/
theorem and_one_eq (u : BitVec w) : u &&& 1#w = if u.getLsbD 0 then 1#w else 0#w := by
  ext j hj
  rcases j with _ | j
  · cases h0 : u.getLsbD 0 <;> simp [← BitVec.getLsbD_eq_getElem, h0, hj]
  · split <;> simp

/-- The negation of the lowest bit is the mask of that bit. -/
theorem getLsbD_neg_and_one (u : BitVec w) {i : ℕ} (hi : i < w) :
    (-(u &&& 1#w)).getLsbD i = u.getLsbD 0 := by
  rw [and_one_eq]
  cases u.getLsbD 0
  · simp
  · rw [if_pos rfl, BitVec.neg_one_eq_allOnes]
    simp [hi]

theorem getLsbD_zigzag_zero (v : BitVec w) (hw : 0 < w) : (zigzag v).getLsbD 0 = v.msb := by
  rw [zigzag, BitVec.getLsbD_xor, getLsbD_sshiftRight_sign v hw]
  simp

theorem getLsbD_zigzag_succ (v : BitVec w) {i : ℕ} (hi : i + 1 < w) :
    (zigzag v).getLsbD (i + 1) = (v.getLsbD i ^^ v.msb) := by
  rw [zigzag, BitVec.getLsbD_xor, getLsbD_sshiftRight_sign v hi]
  simp only [BitVec.getLsbD_shiftLeft, hi]
  simp

/-- **Zigzag round trip.** -/
theorem unzigzag_zigzag (v : BitVec w) : unzigzag (zigzag v) = v := by
  ext i hi
  have hneg : (-(zigzag v &&& 1#w)).getLsbD i = v.msb := by
    rw [getLsbD_neg_and_one _ hi, getLsbD_zigzag_zero v (by omega)]
  rw [← BitVec.getLsbD_eq_getElem, ← BitVec.getLsbD_eq_getElem, unzigzag, BitVec.getLsbD_xor,
    hneg, BitVec.getLsbD_ushiftRight, Nat.add_comm 1 i]
  by_cases hlast : i + 1 < w
  · rw [getLsbD_zigzag_succ v hlast]
    cases v.getLsbD i <;> cases v.msb <;> rfl
  · -- the last bit: the shift brings in a zero, and the mask is the sign bit
    have hz : (zigzag v).getLsbD (i + 1) = false := BitVec.getLsbD_of_ge _ _ (by omega)
    have hmsb : v.msb = v.getLsbD i := by
      rw [BitVec.msb_eq_getLsbD_last, show w - 1 = i by omega]
    rw [hz, hmsb, Bool.false_xor]

/-- The integer of a zigzag code: even codes count up from 0, odd ones down from
    -1. -/
def zigzagInt (n : ℕ) : ℤ := if n % 2 = 0 then n / 2 else -(n / 2) - 1

theorem zigzagInt_injective : Function.Injective zigzagInt := by
  intro m n h
  unfold zigzagInt at h
  split_ifs at h <;> omega

/-- The codes below `2 ^ (k + 1)` are those of the integers of `k + 1` bits. -/
theorem zigzagInt_range {n k : ℕ} :
    (-2 ^ k ≤ zigzagInt n ∧ zigzagInt n < 2 ^ k) ↔ n < 2 ^ (k + 1) := by
  have hpow : (2 : ℕ) ^ (k + 1) = 2 * 2 ^ k := Nat.pow_succ'
  have hcast : ((2 ^ k : ℕ) : ℤ) = 2 ^ k := by push_cast; rfl
  rw [hpow, ← hcast]
  generalize 2 ^ k = b
  unfold zigzagInt
  split_ifs <;> omega

/-- **What a code means.** -/
theorem toInt_unzigzag (hw : 0 < w) (u : BitVec w) : (unzigzag u).toInt = zigzagInt u.toNat := by
  have hpow : (2 : ℕ) ^ w = 2 * 2 ^ (w - 1) := by
    rw [← Nat.pow_succ', Nat.succ_eq_add_one, Nat.sub_add_cancel hw]
  have hlt := u.isLt
  have hhalf : (u >>> 1).toNat = u.toNat / 2 := by
    rw [BitVec.toNat_ushiftRight, Nat.shiftRight_eq_div_pow, Nat.pow_one]
  have hlow : u.getLsbD 0 = decide (u.toNat % 2 = 1) := by
    rw [BitVec.getLsbD, Nat.testBit_zero]
  rw [unzigzag, and_one_eq, zigzagInt]
  by_cases hodd : u.toNat % 2 = 1
  · rw [hlow, decide_eq_true hodd, if_pos rfl, BitVec.neg_one_eq_allOnes, BitVec.xor_allOnes,
      BitVec.toInt_not, hhalf, if_neg (by omega)]
    have hmod : ((2 : ℤ) ^ w - 1 - (u.toNat / 2 : ℕ)) % (2 ^ w : ℕ) = 2 ^ w - 1 - (u.toNat / 2 : ℕ) := by
      have hcast : ((2 ^ w : ℕ) : ℤ) = 2 ^ w := by push_cast; rfl
      refine Int.emod_eq_of_lt ?_ ?_ <;> rw [← hcast] <;> omega
    rw [Int.bmod_def, hmod]
    have hcast : ((2 : ℤ) ^ w) = (2 ^ w : ℕ) := by push_cast; rfl
    rw [hcast, if_neg (by omega)]
    omega
  · have hfalse : u.getLsbD 0 = false := by rw [hlow, decide_eq_false hodd]
    rw [hfalse, if_neg (by decide), BitVec.neg_zero, BitVec.xor_zero, BitVec.toInt_eq_toNat_of_lt
      (by rw [hhalf]; omega), hhalf, if_pos (by omega)]
    omega

end

/-! ## Base-128 digits -/

/-- A digit or-ed in above the `s` bits of `r` is added to `r`. -/
theorem or_shiftLeft_digit {r s : ℕ} (d : ℕ) (hr : r < 2 ^ s) :
    r ||| (d <<< s) = r + d * 2 ^ s := by
  rw [Nat.or_comm, ← Nat.shiftLeft_add_eq_or_of_lt hr, Nat.shiftLeft_eq, Nat.add_comm]

/-- Unsigned LEB128: base-128 digits, lowest first, under a continuation bit in
    every byte but the last. -/
inductive Uleb128 : List UInt8 → ℕ → Prop
  | last {b} : b.toNat < 128 → Uleb128 [b] b.toNat
  | more {b bs n} : 128 ≤ b.toNat → Uleb128 bs n → Uleb128 (b :: bs) (b.toNat - 128 + 128 * n)

/-- The bytes of a number determine it, and where it ends. -/
theorem Uleb128.unique {as bs : List UInt8} {m n : ℕ} (h : Uleb128 as m) (h' : Uleb128 bs n)
    {s t : List UInt8} (heq : as ++ s = bs ++ t) : as = bs ∧ m = n ∧ s = t := by
  induction h generalizing bs n with
  | last hb =>
    cases h' with
    | last hb' =>
      obtain ⟨rfl, rfl⟩ := List.cons.inj heq
      exact ⟨rfl, rfl, rfl⟩
    | more hb' _ =>
      obtain ⟨rfl, -⟩ := List.cons.inj heq
      omega
  | more hb _ ih =>
    cases h' with
    | last hb' =>
      obtain ⟨rfl, -⟩ := List.cons.inj heq
      omega
    | more hb' h' =>
      obtain ⟨rfl, htail⟩ := List.cons.inj heq
      obtain ⟨rfl, rfl, rfl⟩ := ih h' htail
      exact ⟨rfl, rfl, rfl⟩

/-- The lowest seven bits of a number, and the rest. -/
theorem low7_add_rest (v s : ℕ) : v % 128 * 2 ^ s + v / 128 * 2 ^ (s + 7) = v * 2 ^ s := by
  have h := Nat.mod_add_div v 128
  calc v % 128 * 2 ^ s + v / 128 * 2 ^ (s + 7)
      = (v % 128 + 128 * (v / 128)) * 2 ^ s := by ring
    _ = v * 2 ^ s := by rw [h]

end Wire
