/-
  Bit strings — a byte string read as one little-endian number, whose digits
  in base `2 ^ w` are the values packed into it least significant bit first.

  * `leNat bs` is the number; `leNat_take`, `leNat_drop` and
    `leNat_modify_or` say what slicing the bytes and or-ing bits into one of
    them do to it;
  * `lowDigits b n N` are the first `n` digits of `N` in base `b`
    (`lowDigits_ofDigits`, `lowDigits_add`, `lowDigits_eq_map`);
  * `bitStream bs` are the bits, and `bitField bs p w` the number of `w` of them
    (`ofDigits_bitStream`, `bitField_eq`);
  * `selectFrom bit pos vs` are the values whose bit is set, `countBits` the
    number of bits set; bit `i` of a mask is `(leNat mask).testBit i`
    (`testBit_leNat`);
  * `toNat_accumulateLe`: shifting bytes into a 64-bit accumulator computes
    `leNat`.
-/
import EmatixParquet.Wire.Varint
import Mathlib.Data.Nat.Digits.Defs
import Mathlib.Data.UInt
import Mathlib.Tactic.Linarith

namespace Wire

/-! ## Bytes as a number -/

/-- The little-endian number of a byte string. -/
def leNat (bs : List UInt8) : ℕ := Nat.ofDigits 256 (bs.map UInt8.toNat)

@[simp] theorem leNat_nil : leNat [] = 0 := rfl

theorem leNat_cons (b : UInt8) (bs : List UInt8) : leNat (b :: bs) = b.toNat + 256 * leNat bs :=
  Nat.ofDigits_cons

theorem leNat_append (as bs : List UInt8) :
    leNat (as ++ bs) = leNat as + 256 ^ as.length * leNat bs := by
  rw [leNat, List.map_append, Nat.ofDigits_append, List.length_map, leNat, leNat]

theorem leNat_lt (bs : List UInt8) : leNat bs < 256 ^ bs.length := by
  have h := Nat.ofDigits_lt_base_pow_length (b := 256) (l := bs.map UInt8.toNat) (by decide)
    (fun x hx => by
      obtain ⟨b, -, rfl⟩ := List.mem_map.mp hx
      exact b.toNat_lt)
  rwa [List.length_map] at h

theorem leNat_replicate_zero (n : ℕ) : leNat (List.replicate n 0) = 0 := by
  induction n with
  | zero => rfl
  | succ n ih => rw [List.replicate_succ, leNat_cons, ih]; rfl

/-- The first `k` bytes are the number modulo `256 ^ k`. -/
theorem leNat_take (bs : List UInt8) (k : ℕ) : leNat (bs.take k) = leNat bs % 256 ^ k := by
  by_cases hk : k ≤ bs.length
  · have hlen : (bs.take k).length = k := List.length_take_of_le hk
    have hlt := leNat_lt (bs.take k)
    conv_rhs => rw [← List.take_append_drop k bs, leNat_append]
    rw [hlen] at hlt ⊢
    rw [Nat.add_mul_mod_self_left, Nat.mod_eq_of_lt hlt]
  · rw [List.take_of_length_le (by omega), Nat.mod_eq_of_lt]
    exact (leNat_lt bs).trans_le (Nat.pow_le_pow_right (by decide) (by omega))

/-- Dropping `k` bytes divides the number by `256 ^ k`. -/
theorem leNat_drop (bs : List UInt8) (k : ℕ) : leNat (bs.drop k) = leNat bs / 256 ^ k := by
  by_cases hk : k ≤ bs.length
  · have hlen : (bs.take k).length = k := List.length_take_of_le hk
    have hlt := leNat_lt (bs.take k)
    conv_rhs => rw [← List.take_append_drop k bs, leNat_append]
    rw [hlen] at hlt ⊢
    rw [Nat.add_mul_div_left _ _ (by positivity), Nat.div_eq_of_lt hlt, Nat.zero_add]
  · rw [List.drop_of_length_le (by omega), Nat.div_eq_of_lt]
    · rfl
    · exact (leNat_lt bs).trans_le (Nat.pow_le_pow_right (by decide) (by omega))

theorem toNat_or_shiftLeft {b c : UInt8} {s : ℕ} (hb : b.toNat < 2 ^ s)
    (hc : c.toNat * 2 ^ s < 256) :
    (b ||| (c <<< UInt8.ofNat s)).toNat = b.toNat + c.toNat * 2 ^ s := by
  rcases Nat.eq_zero_or_pos c.toNat with hz | hpos
  · obtain rfl : c = 0 := UInt8.toNat_inj.mp hz
    simp
  · have hs : s < 8 := by
      by_contra hs
      have : 2 ^ 8 ≤ 2 ^ s := Nat.pow_le_pow_right (by decide) (by omega)
      have : 1 * 2 ^ s ≤ c.toNat * 2 ^ s := Nat.mul_le_mul_right _ hpos
      omega
    have hsn : (UInt8.ofNat s).toNat % 8 = s := by
      rw [UInt8.toNat_ofNat_of_lt' (by exact lt_trans hs (by decide)), Nat.mod_eq_of_lt hs]
    rw [UInt8.toNat_or, UInt8.toNat_shiftLeft, hsn,
      Nat.mod_eq_of_lt (by rwa [Nat.shiftLeft_eq]), or_shiftLeft_digit _ hb]

/-- Or-ing the byte `c`, shifted above the bits in use, into byte `k`. -/
theorem leNat_modify_or (bs : List UInt8) (k : ℕ) (hk : k < bs.length) {s : ℕ} {c : UInt8}
    (hlow : leNat bs < 256 ^ k * 2 ^ s) (hc : c.toNat * 2 ^ s < 256) :
    leNat (bs.modify k (· ||| (c <<< UInt8.ofNat s))) = leNat bs + c.toNat * 2 ^ s * 256 ^ k := by
  induction k generalizing bs with
  | zero =>
    cases bs with
    | nil => exact absurd hk (Nat.not_lt_zero _)
    | cons b bs =>
      rw [leNat_cons, Nat.pow_zero, Nat.one_mul] at hlow
      rw [List.modify_zero_cons, leNat_cons, leNat_cons, toNat_or_shiftLeft (by omega) hc]
      ring
  | succ k ih =>
    cases bs with
    | nil => exact absurd hk (Nat.not_lt_zero _)
    | cons b bs =>
      rw [leNat_cons, Nat.pow_succ', Nat.mul_assoc] at hlow
      rw [List.modify_succ_cons, leNat_cons, leNat_cons,
        ih bs (by simpa using hk) (by omega), Nat.pow_succ']
      ring

/-! ## Digits -/

/-- The first `n` digits of `N` in base `b`, least significant first. -/
def lowDigits (b : ℕ) : ℕ → ℕ → List ℕ
  | 0, _ => []
  | n + 1, N => N % b :: lowDigits b n (N / b)

@[simp] theorem length_lowDigits (b n N : ℕ) : (lowDigits b n N).length = n := by
  induction n generalizing N with
  | zero => rfl
  | succ n ih => rw [lowDigits, List.length_cons, ih]

theorem lowDigits_add (b m n N : ℕ) :
    lowDigits b (m + n) N = lowDigits b m N ++ lowDigits b n (N / b ^ m) := by
  induction m generalizing N with
  | zero => simp [lowDigits]
  | succ m ih =>
    rw [Nat.succ_add, lowDigits, ih, lowDigits, List.cons_append, Nat.div_div_eq_div_mul,
      Nat.pow_succ']

theorem lowDigits_eq_map (b n N : ℕ) :
    lowDigits b n N = (List.range n).map fun i => N / b ^ i % b := by
  induction n generalizing N with
  | zero => rfl
  | succ n ih =>
    rw [lowDigits, ih, List.range_succ_eq_map, List.map_cons, List.map_map]
    simp [Nat.div_div_eq_div_mul, Nat.pow_succ', Function.comp_def]

/-- The digits a number was made of. -/
theorem lt_of_mem_lowDigits {b d n N : ℕ} (hb : 0 < b) (h : d ∈ lowDigits b n N) : d < b := by
  rw [lowDigits_eq_map] at h
  obtain ⟨i, -, rfl⟩ := List.mem_map.mp h
  exact Nat.mod_lt _ hb

theorem lowDigits_ofDigits {b : ℕ} {ds : List ℕ} (h : ∀ d ∈ ds, d < b) {n : ℕ}
    (hn : n ≤ ds.length) : lowDigits b n (Nat.ofDigits b ds) = ds.take n := by
  induction n generalizing ds with
  | zero => rfl
  | succ n ih =>
    cases ds with
    | nil => simp at hn
    | cons d ds =>
      have hd : d < b := h d List.mem_cons_self
      have hb : 0 < b := by omega
      rw [lowDigits, Nat.ofDigits_cons, Nat.add_mul_mod_self_left, Nat.mod_eq_of_lt hd,
        Nat.add_mul_div_left _ _ hb, Nat.div_eq_of_lt hd, Nat.zero_add,
        ih (fun x hx => h x (List.mem_cons_of_mem _ hx)) (by simpa using hn), List.take_succ_cons]

/-- The low digits do not see what a modulus cuts off above them. -/
theorem lowDigits_mod (b n N q : ℕ) : lowDigits b n (N % (b ^ n * q)) = lowDigits b n N := by
  induction n generalizing N with
  | zero => rfl
  | succ n ih =>
    rw [Nat.pow_succ', Nat.mul_assoc, lowDigits, lowDigits, Nat.mod_mul_right_mod,
      Nat.mod_mul_right_div_self, ih]

theorem lowDigits_take {b m n : ℕ} (h : m ≤ n) (N : ℕ) :
    (lowDigits b n N).take m = lowDigits b m N := by
  obtain ⟨k, rfl⟩ := Nat.exists_eq_add_of_le h
  rw [lowDigits_add, List.take_left' (length_lowDigits ..)]

/-- Digits of the first `k` bytes, as long as these hold them. -/
theorem lowDigits_leNat_take {w n k : ℕ} (h : n * w ≤ 8 * k) (bs : List UInt8) :
    lowDigits (2 ^ w) n (leNat (bs.take k)) = lowDigits (2 ^ w) n (leNat bs) := by
  have hpow : 256 ^ k = (2 ^ w) ^ n * 2 ^ (8 * k - n * w) := by
    rw [show (256 : ℕ) = 2 ^ 8 from rfl, ← Nat.pow_mul, ← Nat.pow_mul, ← Nat.pow_add]
    congr 1
    rw [Nat.mul_comm w n]
    omega
  rw [leNat_take, hpow, lowDigits_mod]

/-! ## Masks -/

/-- Byte `k` of a byte string, as a digit of its number. -/
theorem leNat_digit {bs : List UInt8} {k : ℕ} {b : UInt8} (h : bs[k]? = some b) :
    leNat bs / 256 ^ k % 256 = b.toNat := by
  have hdrop : bs.drop k = b :: bs.drop (k + 1) := by
    obtain ⟨hk, rfl⟩ := List.getElem?_eq_some_iff.mp h
    exact List.drop_eq_getElem_cons hk
  have hb : b.toNat < 256 := b.toNat_lt
  rw [← leNat_drop, hdrop, leNat_cons, Nat.add_mul_mod_self_left, Nat.mod_eq_of_lt hb]

/-- Bit `i` of byte `k` is bit `8 * k + i` of the byte string's number. -/
theorem testBit_leNat {bs : List UInt8} {k i : ℕ} {b : UInt8} (h : bs[k]? = some b)
    (hi : i < 8) : (leNat bs).testBit (8 * k + i) = b.toNat.testBit i := by
  have hpow : 2 ^ (8 * k) = 256 ^ k := by
    rw [Nat.pow_mul]
  rw [Nat.add_comm, Nat.testBit_add, hpow, ← leNat_digit h, show (256 : ℕ) = 2 ^ 8 from rfl,
    Nat.testBit_mod_two_pow]
  simp [hi]

/-- The bits of a byte, least significant first. -/
def byteBits (b : UInt8) : List Bool := (List.range 8).map b.toNat.testBit

/-- The bits of a byte string: bytes in order, the least significant bit of each
    byte first. -/
def bitStream (bytes : List UInt8) : List Bool := bytes.flatMap byteBits

@[simp] theorem bitStream_cons (b : UInt8) (bytes : List UInt8) :
    bitStream (b :: bytes) = byteBits b ++ bitStream bytes := List.flatMap_cons

@[simp] theorem length_byteBits (b : UInt8) : (byteBits b).length = 8 := by simp [byteBits]

@[simp] theorem length_bitStream (bytes : List UInt8) : (bitStream bytes).length = 8 * bytes.length := by
  induction bytes with
  | nil => rfl
  | cons b bytes ih =>
    rw [bitStream_cons, List.length_append, length_byteBits, ih, List.length_cons]
    omega

theorem ofDigits_lowDigits (b n N : ℕ) : Nat.ofDigits b (lowDigits b n N) = N % b ^ n := by
  induction n generalizing N with
  | zero => rw [lowDigits, Nat.pow_zero, Nat.mod_one]; rfl
  | succ n ih => rw [lowDigits, Nat.ofDigits_cons, ih, Nat.pow_succ', Nat.mod_mul]

/-- The bits of a byte string are the binary digits of its number. -/
theorem ofDigits_bitStream (bytes : List UInt8) :
    Nat.ofDigits 2 ((bitStream bytes).map Bool.toNat) = leNat bytes := by
  induction bytes with
  | nil => rfl
  | cons b bytes ih =>
    have hbits : (byteBits b).map Bool.toNat = lowDigits 2 8 b.toNat := by
      rw [lowDigits_eq_map, byteBits, List.map_map]
      exact List.map_congr_left fun i _ => Nat.toNat_testBit ..
    rw [bitStream_cons, List.map_append, Nat.ofDigits_append, ih, hbits, ofDigits_lowDigits,
      length_lowDigits, leNat_cons, Nat.mod_eq_of_lt b.toNat_lt]
    rfl

/-- The integer of the `w` bits from bit `p` on, least significant first. -/
def bitField (bytes : List UInt8) (p w : ℕ) : ℕ :=
  Nat.ofDigits 2 ((((bitStream bytes).drop p).take w).map Bool.toNat)

theorem bitField_eq (bytes : List UInt8) (p w : ℕ) :
    bitField bytes p w = leNat bytes / 2 ^ p % 2 ^ w := by
  have hlt : ∀ d ∈ (bitStream bytes).map Bool.toNat, d < 2 := by
    intro d hd
    obtain ⟨b, -, rfl⟩ := List.mem_map.mp hd
    exact b.toNat_lt
  rw [bitField, List.map_take, List.map_drop, ← Nat.ofDigits_mod_pow_eq_ofDigits_take w (by decide) _
    (fun d hd => hlt d (List.mem_of_mem_drop hd)), ← Nat.ofDigits_div_pow_eq_ofDigits_drop p
    (by decide) _ hlt, ofDigits_bitStream]

/-- The values at the positions, from `pos` on, whose bit is set. -/
def selectFrom {α : Type} (bit : ℕ → Bool) : ℕ → List α → List α
  | _, [] => []
  | pos, v :: vs => if bit pos then v :: selectFrom bit (pos + 1) vs else selectFrom bit (pos + 1) vs

section
variable {α : Type} {bit : ℕ → Bool}

theorem selectFrom_append (pos : ℕ) (xs ys : List α) :
    selectFrom bit pos (xs ++ ys) = selectFrom bit pos xs ++ selectFrom bit (pos + xs.length) ys := by
  induction xs generalizing pos with
  | nil => rfl
  | cons x xs ih =>
    rw [List.cons_append, selectFrom, selectFrom, ih, List.length_cons,
      show pos + 1 + xs.length = pos + (xs.length + 1) by omega]
    split <;> rfl

theorem selectFrom_congr {bit' : ℕ → Bool} (pos pos' : ℕ) {vs : List α}
    (h : ∀ i < vs.length, bit (pos + i) = bit' (pos' + i)) :
    selectFrom bit pos vs = selectFrom bit' pos' vs := by
  induction vs generalizing pos pos' with
  | nil => rfl
  | cons v vs ih =>
    have h0 := h 0 (by simp)
    have hrest := ih (pos + 1) (pos' + 1) fun i hi => by
      have := h (i + 1) (by simpa using hi)
      rwa [show pos + 1 + i = pos + (i + 1) by omega, show pos' + 1 + i = pos' + (i + 1) by omega]
    rw [Nat.add_zero, Nat.add_zero] at h0
    rw [selectFrom, selectFrom, h0, hrest]

/-- Nothing is selected where no bit is set. -/
theorem selectFrom_eq_nil {pos : ℕ} {vs : List α} (h : ∀ i < vs.length, bit (pos + i) = false) :
    selectFrom bit pos vs = [] := by
  induction vs generalizing pos with
  | nil => rfl
  | cons v vs ih =>
    have h0 := h 0 (by simp)
    rw [Nat.add_zero] at h0
    rw [selectFrom, h0]
    refine ih fun i hi => ?_
    have := h (i + 1) (by simpa using hi)
    rwa [show pos + 1 + i = pos + (i + 1) by omega]

/-- A value whose bit is set is selected. -/
theorem getElem_mem_selectFrom (pos : ℕ) {i : ℕ} {vs : List α} (hi : i < vs.length)
    (h : bit (pos + i) = true) : vs[i] ∈ selectFrom bit pos vs := by
  induction vs generalizing pos i with
  | nil => simp at hi
  | cons v vs ih =>
    rw [selectFrom]
    cases i with
    | zero => simp [show bit pos = true from h]
    | succ i =>
      have hlt : i < vs.length := by simpa using hi
      have hrest : vs[i] ∈ selectFrom bit (pos + 1) vs :=
        ih (pos + 1) hlt (by rwa [show pos + 1 + i = pos + (i + 1) by omega])
      split
      · exact List.mem_cons_of_mem _ hrest
      · exact hrest

/-- The number of set bits at `n` positions from `pos` on. -/
def countBits (bit : ℕ → Bool) (pos n : ℕ) : ℕ :=
  ((List.range n).filter fun i => bit (pos + i)).length

theorem countBits_succ (pos n : ℕ) :
    countBits bit pos (n + 1) = (bit pos).toNat + countBits bit (pos + 1) n := by
  rw [countBits, List.range_succ_eq_map, List.filter_cons, List.filter_map, Nat.add_zero]
  have hcongr : ((fun i => bit (pos + i)) ∘ Nat.succ) = fun i => bit (pos + 1 + i) := by
    funext i
    exact congrArg bit (by simp only [Nat.succ_eq_add_one]; omega)
  rw [hcongr]
  cases bit pos
  · simp [countBits]
  · simp [countBits, Nat.add_comm]

theorem countBits_add (pos m n : ℕ) :
    countBits bit pos (m + n) = countBits bit pos m + countBits bit (pos + m) n := by
  induction m generalizing pos with
  | zero => simp [countBits]
  | succ m ih =>
    rw [show m + 1 + n = m + n + 1 by omega, countBits_succ, countBits_succ, ih,
      show pos + 1 + m = pos + (m + 1) by omega, Nat.add_assoc]

theorem selectFrom_replicate (pos n : ℕ) (v : α) :
    selectFrom bit pos (List.replicate n v) = List.replicate (countBits bit pos n) v := by
  induction n generalizing pos with
  | zero => rfl
  | succ n ih =>
    rw [List.replicate_succ, selectFrom, ih, countBits_succ]
    cases bit pos
    · simp
    · rw [if_pos rfl, Bool.toNat_true, Nat.add_comm 1, List.replicate_succ]

end

/-! ## Lengths in bits -/

/-- The number of bits of `n`: a word's size less its leading zeros. -/
def bitLength (n : ℕ) : ℕ := if n = 0 then 0 else Nat.log2 n + 1

theorem lt_two_pow_bitLength (n : ℕ) : n < 2 ^ bitLength n := by
  rw [bitLength]
  split
  · next h => simp [h]
  · exact Nat.lt_log2_self

theorem bitLength_le {n k : ℕ} (h : n < 2 ^ k) : bitLength n ≤ k := by
  rw [bitLength]
  split
  · exact Nat.zero_le _
  · next hn => exact (Nat.log2_lt hn).mpr h

/-! ## Accumulators -/

/-- Bytes shifted one after the other into a 64-bit word, from byte `j` on. -/
def accumulateFrom (j : ℕ) (acc : UInt64) : List UInt8 → UInt64
  | [] => acc
  | b :: bs => accumulateFrom (j + 1) (acc ||| (b.toUInt64 <<< UInt64.ofNat (j * 8))) bs

/-- The little-endian word of at most eight bytes. -/
def accumulateLe (bs : List UInt8) : UInt64 := accumulateFrom 0 0 bs

theorem toNat_accumulateFrom (j : ℕ) (acc : UInt64) (bs : List UInt8)
    (hacc : acc.toNat < 2 ^ (j * 8)) (hj : j + bs.length ≤ 8) :
    (accumulateFrom j acc bs).toNat = acc.toNat + 2 ^ (j * 8) * leNat bs := by
  induction bs generalizing j acc with
  | nil => rfl
  | cons b bs ih =>
    rw [List.length_cons] at hj
    have hb : b.toNat < 2 ^ 8 := b.toNat_lt
    have hshift : (UInt64.ofNat (j * 8)).toNat % 64 = j * 8 := by
      rw [UInt64.toNat_ofNat_of_lt' (show j * 8 < 2 ^ 64 by omega)]
      omega
    have hfit : b.toNat * 2 ^ (j * 8) < 2 ^ (j * 8 + 8) := by
      rw [Nat.pow_add, Nat.mul_comm]
      exact Nat.mul_lt_mul_of_pos_left hb (by positivity)
    have h64 : b.toNat * 2 ^ (j * 8) < 2 ^ 64 :=
      hfit.trans_le (Nat.pow_le_pow_right (by decide) (by omega))
    have hor : (acc ||| (b.toUInt64 <<< UInt64.ofNat (j * 8))).toNat
        = acc.toNat + b.toNat * 2 ^ (j * 8) := by
      rw [UInt64.toNat_or, UInt64.toNat_shiftLeft, hshift, UInt8.toNat_toUInt64,
        Nat.mod_eq_of_lt (by rwa [Nat.shiftLeft_eq]), or_shiftLeft_digit _ hacc]
    have hnext : acc.toNat + b.toNat * 2 ^ (j * 8) < 2 ^ ((j + 1) * 8) := by
      have hle : (b.toNat + 1) * 2 ^ (j * 8) ≤ 2 ^ 8 * 2 ^ (j * 8) :=
        Nat.mul_le_mul_right _ (by omega)
      rw [Nat.succ_mul j 8, Nat.pow_add, Nat.mul_comm (2 ^ (j * 8)) (2 ^ 8)]
      rw [Nat.add_mul] at hle
      omega
    rw [accumulateFrom, ih (j + 1) _ (by rw [hor]; exact hnext) (by omega), hor, leNat_cons,
      Nat.succ_mul, Nat.pow_add]
    ring

/-- The accumulator computes the number of up to eight bytes. -/
theorem toNat_accumulateLe (bs : List UInt8) (h : bs.length ≤ 8) :
    (accumulateLe bs).toNat = leNat bs := by
  rw [accumulateLe, toNat_accumulateFrom 0 0 bs (by decide) (by omega)]
  simp

end Wire
