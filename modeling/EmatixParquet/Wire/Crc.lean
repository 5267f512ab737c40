/-
  Cyclic redundancy checks — the remainder of a bit stream under a reflected
  polynomial, as a register that is shifted once for each bit.

  * `shiftOut_xor`, `shiftOut_injective`: the shift is linear, and it loses
    nothing when the polynomial has its top bit set;
  * `feedBits_eq_steps`: up to `n` bits are fed in one piece, by xor and shifts;
  * `feedBits_xor`: the registers of two streams differ by the register of their
    difference, so that `feedBits_ne_of_window` tells streams apart whose
    difference lies in a window of `n` bits;
  * `shiftOut_iterate_eq`: `k` shifts of a register are those of its lowest `k`
    bits, and the others moved down, which is what a table of shifted bytes uses;
  * `feedBits_bitStream`: bytes are fed whole, the least significant bit first.
-/
import EmatixParquet.Wire.Bits

namespace Wire

/-! ## The register -/

section
variable {n : ℕ} {poly : BitVec n}

/-- One shift of the register. -/
def shiftOut (poly c : BitVec n) : BitVec n :=
  if c.getLsbD 0 then poly ^^^ (c >>> 1) else c >>> 1

/-- The shift, with the lowest bit as a mask. -/
theorem getLsbD_shiftOut (c : BitVec n) (i : ℕ) :
    (shiftOut poly c).getLsbD i = (c.getLsbD (1 + i) ^^ (c.getLsbD 0 && poly.getLsbD i)) := by
  unfold shiftOut
  cases c.getLsbD 0 <;> simp [Bool.xor_comm]

theorem shiftOut_xor (a b : BitVec n) :
    shiftOut poly (a ^^^ b) = shiftOut poly a ^^^ shiftOut poly b := by
  apply BitVec.eq_of_getLsbD_eq
  intro i _
  simp only [getLsbD_shiftOut, BitVec.getLsbD_xor]
  cases a.getLsbD 0 <;> cases b.getLsbD 0 <;> cases a.getLsbD (1 + i) <;>
    cases b.getLsbD (1 + i) <;> simp

@[simp] theorem shiftOut_zero : shiftOut poly 0#n = 0#n := by simp [shiftOut]

/-- A clear lowest bit is shifted out and nothing else happens. -/
theorem shiftOut_of_low {c : BitVec n} (h : c.getLsbD 0 = false) : shiftOut poly c = c >>> 1 := by
  simp [shiftOut, h]

theorem iterate_shiftOut_xor (k : ℕ) (a b : BitVec n) :
    (shiftOut poly)^[k] (a ^^^ b) = (shiftOut poly)^[k] a ^^^ (shiftOut poly)^[k] b := by
  induction k generalizing a b with
  | zero => rfl
  | succ k ih => simp only [Function.iterate_succ_apply, shiftOut_xor, ih]

theorem iterate_shiftOut_zero (k : ℕ) : (shiftOut poly)^[k] 0#n = 0#n :=
  Function.iterate_fixed shiftOut_zero k

/-- The top bit tells whether a polynomial was added. -/
theorem eq_zero_of_shiftOut (hpoly : poly.msb = true) {c : BitVec n}
    (h : shiftOut poly c = 0#n) : c = 0#n := by
  have hn : 0 < n := by
    by_contra hn
    obtain rfl : n = 0 := by omega
    simp [BitVec.msb, BitVec.getMsbD] at hpoly
  have hbit (i : ℕ) : (c.getLsbD (1 + i) ^^ (c.getLsbD 0 && poly.getLsbD i)) = false := by
    rw [← getLsbD_shiftOut, h, BitVec.getLsbD_zero]
  have hlow : c.getLsbD 0 = false := by
    have htop := hbit (n - 1)
    rw [BitVec.msb_eq_getLsbD_last] at hpoly
    rw [hpoly, BitVec.getLsbD_of_ge c _ (by omega)] at htop
    simpa using htop
  apply BitVec.eq_of_getLsbD_eq
  intro i _
  rw [BitVec.getLsbD_zero]
  cases i with
  | zero => exact hlow
  | succ i => simpa [hlow, Nat.add_comm] using hbit i

theorem shiftOut_injective (hpoly : poly.msb = true) : Function.Injective (shiftOut poly) := by
  intro a b h
  have hz : shiftOut poly (a ^^^ b) = 0#n := by rw [shiftOut_xor, h, BitVec.xor_self]
  exact BitVec.xor_eq_zero_iff.mp (eq_zero_of_shiftOut hpoly hz)

theorem iterate_shiftOut_ne_zero (hpoly : poly.msb = true) {c : BitVec n} (h : c ≠ 0#n) (k : ℕ) :
    (shiftOut poly)^[k] c ≠ 0#n := by
  intro hz
  rw [← iterate_shiftOut_zero k] at hz
  exact h ((shiftOut_injective hpoly).iterate k hz)

/-- Clear low bits are shifted out one by one. -/
theorem iterate_shiftOut_of_low {c : BitVec n} {k : ℕ} (h : ∀ i < k, c.getLsbD i = false) :
    (shiftOut poly)^[k] c = c >>> k := by
  induction k generalizing c with
  | zero => simp
  | succ k ih =>
    have hnext : ∀ i < k, (c >>> 1).getLsbD i = false := fun i hi => by
      rw [BitVec.getLsbD_ushiftRight]
      exact h (1 + i) (by omega)
    rw [Function.iterate_succ_apply, shiftOut_of_low (h 0 (by omega)), ih hnext,
      ← BitVec.shiftRight_add, Nat.add_comm]

/-- **By a table**: `k` shifts of the register are those of its lowest `k` bits,
    and the other bits moved down. -/
theorem shiftOut_iterate_eq (c : BitVec n) (k : ℕ) :
    (shiftOut poly)^[k] c
      = (c >>> k) ^^^ (shiftOut poly)^[k] (c &&& BitVec.ofNat n (2 ^ k - 1)) := by
  have hmask (i : ℕ) : (BitVec.ofNat n (2 ^ k - 1)).getLsbD i = (decide (i < n) && decide (i < k)) := by
    rw [BitVec.getLsbD_ofNat, Nat.testBit_two_pow_sub_one]
  set low := c &&& BitVec.ofNat n (2 ^ k - 1) with hlow
  have hhigh : ∀ i < k, (c ^^^ low).getLsbD i = false := fun i hi => by
    simp only [hlow, BitVec.getLsbD_xor, BitVec.getLsbD_and, hmask]
    by_cases hn : i < n
    · simp [hn, hi]
    · simp [BitVec.getLsbD_of_ge c i (by omega)]
  have hshift : (c ^^^ low) >>> k = c >>> k := by
    apply BitVec.eq_of_getLsbD_eq
    intro i _
    simp [hlow, hmask]
  calc (shiftOut poly)^[k] c
      = (shiftOut poly)^[k] ((c ^^^ low) ^^^ low) := by
        rw [BitVec.xor_assoc, BitVec.xor_self, BitVec.xor_zero]
    _ = (c >>> k) ^^^ (shiftOut poly)^[k] low := by
        rw [iterate_shiftOut_xor, iterate_shiftOut_of_low hhigh, hshift]

end

/-! ## Feeding bits -/

section
variable {n : ℕ} {poly : BitVec n}

/-- A bit at the low end of the register. -/
def lowBit (n : ℕ) (b : Bool) : BitVec n := if b then 1#n else 0#n

/-- A bit stream, fed bit by bit. -/
def feedBits (poly : BitVec n) (c : BitVec n) (bits : List Bool) : BitVec n :=
  bits.foldl (fun c b => shiftOut poly (c ^^^ lowBit n b)) c

@[simp] theorem feedBits_nil (c : BitVec n) : feedBits poly c [] = c := rfl

theorem feedBits_cons (c : BitVec n) (b : Bool) (bits : List Bool) :
    feedBits poly c (b :: bits) = feedBits poly (shiftOut poly (c ^^^ lowBit n b)) bits := rfl

theorem feedBits_append (c : BitVec n) (as bs : List Bool) :
    feedBits poly c (as ++ bs) = feedBits poly (feedBits poly c as) bs := List.foldl_append

theorem lowBit_xor (a b : Bool) : lowBit n (a ^^ b) = lowBit n a ^^^ lowBit n b := by
  cases a <;> cases b <;> simp [lowBit]

/-- **Superposition**: registers differ by the register of the difference. -/
theorem feedBits_xor (c d : BitVec n) {as bs : List Bool} (h : as.length = bs.length) :
    feedBits poly (c ^^^ d) (List.zipWith (· ^^ ·) as bs)
      = feedBits poly c as ^^^ feedBits poly d bs := by
  induction as generalizing c d bs with
  | nil =>
    obtain rfl : bs = [] := List.eq_nil_of_length_eq_zero h.symm
    rfl
  | cons a as ih =>
    cases bs with
    | nil => simp at h
    | cons b bs =>
      have hpair : c ^^^ d ^^^ lowBit n (a ^^ b) = (c ^^^ lowBit n a) ^^^ (d ^^^ lowBit n b) := by
        rw [lowBit_xor]
        ac_rfl
      rw [List.zipWith_cons_cons, feedBits_cons, hpair, shiftOut_xor,
        ih _ _ (Nat.succ.inj h), feedBits_cons, feedBits_cons]

/-- Clear bits only shift the register. -/
theorem feedBits_replicate_false (c : BitVec n) (k : ℕ) :
    feedBits poly c (List.replicate k false) = (shiftOut poly)^[k] c := by
  induction k generalizing c with
  | zero => rfl
  | succ k ih => simp [List.replicate_succ, feedBits_cons, lowBit, ih]

/-- The number of a bit stream, least significant bit first. -/
def ofBits (n : ℕ) : List Bool → BitVec n
  | [] => 0#n
  | b :: bits => lowBit n b ^^^ (ofBits n bits <<< 1)

theorem getLsbD_ofBits (bits : List Bool) (i : ℕ) :
    (ofBits n bits).getLsbD i = (decide (i < n) && bits.getD i false) := by
  induction bits generalizing i with
  | nil => simp [ofBits]
  | cons b bits ih =>
    rw [ofBits, BitVec.getLsbD_xor, BitVec.getLsbD_shiftLeft, ih]
    cases i with
    | zero => cases b <;> simp [lowBit]
    | succ i =>
      have hlow : (lowBit n b).getLsbD (i + 1) = false := by
        cases b <;> simp [lowBit, BitVec.getLsbD_one]
      rw [hlow]
      by_cases hi : i + 1 < n
      · simp [hi, Nat.lt_of_succ_lt hi]
      · simp [hi]

/-- **In one piece**: up to `n` bits are added to the register, which is then
    shifted as often. -/
theorem feedBits_eq_steps (c : BitVec n) {bits : List Bool} (h : bits.length ≤ n) :
    feedBits poly c bits = (shiftOut poly)^[bits.length] (c ^^^ ofBits n bits) := by
  induction bits generalizing c with
  | nil => simp [ofBits]
  | cons b bits ih =>
    rw [List.length_cons] at h
    have hback : shiftOut poly (ofBits n bits <<< 1) = ofBits n bits := by
      rw [shiftOut_of_low (by simp)]
      apply BitVec.eq_of_getLsbD_eq
      intro i hi
      by_cases hn : i + 1 < n
      · rw [BitVec.getLsbD_ushiftRight, BitVec.getLsbD_shiftLeft, Nat.add_comm 1 i]
        simp [hn]
      · have hlen : bits.length ≤ i := by omega
        simp [Nat.add_comm 1 i, hn, getLsbD_ofBits, List.getElem?_eq_none hlen]
    rw [feedBits_cons, ih _ (by omega), List.length_cons, Function.iterate_succ_apply, ofBits,
      ← BitVec.xor_assoc, shiftOut_xor (c ^^^ lowBit n b), hback]

/-- A window of up to `n` bits leaves a trace if one of them is set. -/
theorem feedBits_zero_ne (hpoly : poly.msb = true) {bits : List Bool} (h : bits.length ≤ n)
    (hset : true ∈ bits) : feedBits poly 0#n bits ≠ 0#n := by
  rw [feedBits_eq_steps _ h, BitVec.zero_xor]
  refine iterate_shiftOut_ne_zero hpoly (fun hz => ?_) _
  obtain ⟨i, hi, hbit⟩ := List.getElem_of_mem hset
  have hget := getLsbD_ofBits (n := n) bits i
  rw [hz, List.getD_eq_getElem _ _ hi, hbit] at hget
  simp [show i < n by omega] at hget

/-- A stream whose set bits lie in a window of `n` bits. -/
theorem feedBits_window_ne (hpoly : poly.msb = true) {bits : List Bool} {p : ℕ}
    (hset : true ∈ bits) (hwin : ∀ i, bits[i]? = some true → p ≤ i ∧ i < p + n) :
    feedBits poly 0#n bits ≠ 0#n := by
  have hclear (l : List Bool) (h : ∀ b ∈ l, b = false) : l = List.replicate l.length false :=
    List.eq_replicate_of_mem h
  have hbefore : bits.take p = List.replicate (bits.take p).length false := by
    refine hclear _ fun b hb => ?_
    obtain ⟨i, hi, rfl⟩ := List.getElem_of_mem hb
    rw [List.length_take] at hi
    rw [List.getElem_take]
    by_contra hne
    have := hwin i (by rw [List.getElem?_eq_getElem (by omega)]; simpa using hne)
    omega
  have hafter : (bits.drop p).drop n = List.replicate ((bits.drop p).drop n).length false := by
    refine hclear _ fun b hb => ?_
    obtain ⟨i, hi, rfl⟩ := List.getElem_of_mem hb
    rw [List.length_drop, List.length_drop] at hi
    rw [List.getElem_drop, List.getElem_drop]
    by_contra hne
    have := hwin (p + (n + i)) (by rw [List.getElem?_eq_getElem (by omega)]; simpa using hne)
    omega
  have hsplit : bits = bits.take p ++ ((bits.drop p).take n ++ (bits.drop p).drop n) := by
    rw [List.take_append_drop, List.take_append_drop]
  have hmem : true ∈ (bits.drop p).take n := by
    rw [hsplit, hbefore, hafter] at hset
    simpa using hset
  rw [hsplit, feedBits_append, feedBits_append, hbefore, feedBits_replicate_false,
    iterate_shiftOut_zero, hafter, feedBits_replicate_false]
  refine iterate_shiftOut_ne_zero hpoly ?_ _
  exact feedBits_zero_ne hpoly (by simp) hmem

/-- **Bursts are seen**: two streams of one length that differ, all within a
    window of `n` bits, leave different registers. -/
theorem feedBits_ne_of_window (hpoly : poly.msb = true) (c : BitVec n) {as bs : List Bool}
    {p : ℕ} (hlen : as.length = bs.length) (hne : as ≠ bs)
    (hwin : ∀ i, as[i]? ≠ bs[i]? → p ≤ i ∧ i < p + n) :
    feedBits poly c as ≠ feedBits poly c bs := by
  intro heq
  have hzero : feedBits poly 0#n (List.zipWith (· ^^ ·) as bs) = 0#n := by
    have hsup : feedBits poly (c ^^^ c) _ = _ ^^^ _ := feedBits_xor c c hlen
    rwa [BitVec.xor_self, heq, BitVec.xor_self] at hsup
  have hdiff (i : ℕ) : (List.zipWith (· ^^ ·) as bs)[i]? = some true → as[i]? ≠ bs[i]? := by
    intro h heq
    obtain ⟨a, b, ha, hb, hab⟩ := List.getElem?_zipWith_eq_some.mp h
    rw [ha, hb] at heq
    cases heq
    simp at hab
  refine feedBits_window_ne hpoly ?_ (fun i hi => hwin i (hdiff i hi)) hzero
  obtain ⟨i, hi⟩ : ∃ i, as[i]? ≠ bs[i]? := by
    by_contra hall
    push Not at hall
    exact hne (List.ext_getElem? hall)
  have hia : i < as.length := by
    by_contra h
    exact hi (by rw [List.getElem?_eq_none (by omega), List.getElem?_eq_none (by omega)])
  have hib : i < bs.length := by omega
  rw [List.getElem?_eq_getElem hia, List.getElem?_eq_getElem hib] at hi
  have hxor : (as[i] ^^ bs[i]) = true := by
    rw [bne_iff_ne]
    simpa using hi
  refine List.mem_iff_getElem?.mpr ⟨i, ?_⟩
  exact List.getElem?_zipWith_eq_some.mpr
    ⟨_, _, List.getElem?_eq_getElem hia, List.getElem?_eq_getElem hib, hxor⟩

end

/-! ## Bytes -/

theorem ofBits_byteBits {n : ℕ} (b : UInt8) : ofBits n (byteBits b) = BitVec.ofNat n b.toNat := by
  apply BitVec.eq_of_getLsbD_eq
  intro i hi
  rw [getLsbD_ofBits, BitVec.getLsbD_ofNat, byteBits, List.getD_eq_getElem?_getD, List.getElem?_map]
  by_cases h8 : i < 8
  · simp [List.getElem?_range h8]
  · have hzero : b.toNat.testBit i = false := by
      refine Nat.testBit_lt_two_pow (b.toNat_lt.trans_le ?_)
      exact Nat.pow_le_pow_right (by decide) (by omega)
    rw [List.getElem?_eq_none (by simpa using h8), hzero]
    simp

/-- **Byte by byte**: a byte is added to the register, which is then shifted
    eight times. -/
theorem feedBits_bitStream {n : ℕ} {poly : BitVec n} (h : 8 ≤ n) (c : BitVec n)
    (bytes : List UInt8) :
    feedBits poly c (bitStream bytes)
      = bytes.foldl (fun c b => (shiftOut poly)^[8] (c ^^^ BitVec.ofNat n b.toNat)) c := by
  induction bytes generalizing c with
  | nil => rfl
  | cons b bytes ih =>
    rw [bitStream_cons, feedBits_append, ih, List.foldl_cons,
      feedBits_eq_steps _ (by simpa using h), length_byteBits, ofBits_byteBits]

theorem byteBits_injective : Function.Injective byteBits := by
  intro a b h
  have hof := congrArg (ofBits 8) h
  rw [ofBits_byteBits, ofBits_byteBits] at hof
  have hnat := congrArg BitVec.toNat hof
  rw [BitVec.toNat_ofNat, BitVec.toNat_ofNat, Nat.mod_eq_of_lt a.toNat_lt,
    Nat.mod_eq_of_lt b.toNat_lt] at hnat
  exact UInt8.toNat_inj.mp hnat

theorem bitStream_injective : Function.Injective bitStream := by
  intro as
  induction as with
  | nil =>
    intro bs h
    have := congrArg List.length h
    rw [length_bitStream, length_bitStream] at this
    exact (List.eq_nil_of_length_eq_zero (by simpa using this.symm)).symm
  | cons a as ih =>
    intro bs h
    cases bs with
    | nil =>
      have := congrArg List.length h
      rw [length_bitStream, length_bitStream] at this
      simp at this
    | cons b bs =>
      obtain ⟨hhead, htail⟩ := List.append_inj h (by simp)
      rw [byteBits_injective hhead, ih htail]

end Wire
