/-
  Bit unpacking into 64 bits (`unpack_indices64_into` of `bitpack.rs`).

  The workers are those of `unpack_indices_into` over a `u128`: a value of 64
  bits can touch nine bytes.

  * `unpackIndices64_eq`: they yield the first digits of the packed bytes in base
    `2 ^ w`, for every width up to 64.
-/
import EmatixParquet.Codec.Bitpack

namespace EmatixParquet

open Wire

/-! ## The workers -/

/-- `u128`. -/
abbrev U128 := BitVec 128

/-- The mask of the low bits; that of 64 bits is a constant. -/
def bitMask128 (numBits : ℕ) : U128 :=
  if numBits = 64 then 0xFFFFFFFFFFFFFFFF else ((1 : U128) <<< numBits) - 1

/-- `acc |= (chunk[start_byte + j] as u128) << (j * 8)`, from byte `j` on. -/
def accumulateFrom128 (acc : U128) (j : ℕ) : Bytes → U128
  | [] => acc
  | b :: bs => accumulateFrom128 (acc ||| (b.toBitVec.setWidth 128 <<< (j * 8))) (j + 1) bs

/-- `v as u64`. -/
def u128AsU64 (v : U128) : UInt64 := UInt64.ofBitVec (v.setWidth 64)

/-- Value `i` of a chunk: the bytes it touches, shifted and masked. -/
def unpackAt64 (chunk : Bytes) (numBits i : ℕ) : Res CodecError UInt64 := do
  let startBit := i * numBits
  let startByte := startBit / 8
  let bitInByte := startBit % 8
  let bytesNeeded := divCeil (numBits + bitInByte) 8
  let window ← slice chunk startByte (startByte + bytesNeeded)
  pure (u128AsU64 ((accumulateFrom128 0 0 window >>> bitInByte) &&& bitMask128 numBits))

/-- `while bits < NUM_BITS`. -/
def refill128 (numBits : ℕ) (buf : U128) (bits : ℕ) : Bytes → Res CodecError (U128 × ℕ × Bytes)
  | [] =>
    if bits < numBits then .error (.panic "index out of bounds") else .ok (buf, bits, [])
  | b :: rest =>
    if bits < numBits then
      refill128 numBits (buf ||| (b.toBitVec.setWidth 128 <<< bits)) (bits + 8) rest
    else .ok (buf, bits, b :: rest)

/-- The last values, streamed through a bit buffer. -/
def unpackTail64 (numBits : ℕ) : ℕ → U128 → ℕ → Bytes → Res CodecError (List UInt64)
  | 0, _, _, _ => .ok []
  | n + 1, buf, bits, rest => do
    let (buf, bits, rest) ← refill128 numBits buf bits rest
    let vs ← unpackTail64 numBits n (buf >>> numBits) (bits - numBits) rest
    pure (u128AsU64 (buf &&& bitMask128 numBits) :: vs)

/-- The full chunks of 32 values from byte `packedIdx` on, then the tail. -/
def unpackChunksFrom64 (numBits : ℕ) (packed : Bytes) (tail : ℕ) :
    ℕ → ℕ → Res CodecError (List UInt64)
  | 0, packedIdx =>
    if 0 < tail then do
      let tailBytes := divCeil (tail * numBits) 8
      let chunk ← slice packed packedIdx (packedIdx + tailBytes)
      unpackTail64 numBits tail 0 0 chunk
    else .ok []
  | fullChunks + 1, packedIdx => do
    let chunkBytes := numBits * 32 / 8
    let chunk ← slice packed packedIdx (packedIdx + chunkBytes)
    let vs ← (List.range 32).mapM (unpackAt64 chunk numBits)
    let ws ← unpackChunksFrom64 numBits packed tail fullChunks (packedIdx + chunkBytes)
    pure (vs ++ ws)

/-- `unpack_indices64_into`: the unpacked values. -/
def unpackIndices64 (packed : Bytes) (numValues : ℕ) (bitWidth : UInt8) :
    Res CodecError (List UInt64) :=
  if 64 < bitWidth then codecErr (.bitWidthOutOfRange bitWidth)
  else if numValues = 0 then .ok []
  else if bitWidth = 0 then .ok (List.replicate numValues 0)
  else unpackChunksFrom64 bitWidth.toNat packed (numValues % 32) (numValues / 32) 0

/-! ## What they compute -/

section
variable {w : ℕ}

theorem toNat_and_bitMask128 (hw : w ≤ 64) (v : U128) :
    (v &&& bitMask128 w).toNat = v.toNat % 2 ^ w := by
  have hmask : (bitMask128 w).toNat = 2 ^ w - 1 := by
    by_cases h64 : w = 64
    · subst h64
      rfl
    · have hpow : 2 ^ w < 2 ^ 128 := Nat.pow_lt_pow_right (by decide) (by omega)
      have hone : (1 : ℕ) ≤ 2 ^ w := Nat.one_le_two_pow
      have hunit : (1 : U128).toNat = 1 := rfl
      rw [bitMask128, if_neg h64, BitVec.toNat_sub, BitVec.toNat_shiftLeft, hunit,
        Nat.shiftLeft_eq]
      omega
  rw [BitVec.toNat_and, hmask, Nat.and_two_pow_sub_one_eq_mod]

theorem toNat_u128AsU64 (v : U128) : (u128AsU64 v).toNat = v.toNat % 2 ^ 64 := by
  simp [u128AsU64]

/-- One byte more, above the bits that are there. -/
theorem toNat_or_byte {buf : U128} {bits : ℕ} (hbuf : buf.toNat < 2 ^ bits) (hbits : bits ≤ 120)
    (b : UInt8) : (buf ||| (b.toBitVec.setWidth 128 <<< bits)).toNat
      = buf.toNat + b.toNat * 2 ^ bits := by
  have hb : b.toNat < 2 ^ 8 := b.toNat_lt
  have hfit : b.toNat * 2 ^ bits < 2 ^ 128 := by
    calc b.toNat * 2 ^ bits < 2 ^ 8 * 2 ^ bits := Nat.mul_lt_mul_of_pos_right hb (by positivity)
      _ = 2 ^ (8 + bits) := (Nat.pow_add ..).symm
      _ ≤ 2 ^ 128 := Nat.pow_le_pow_right (by decide) (by omega)
  have hwide : (b.toBitVec.setWidth 128).toNat = b.toNat := by
    rw [BitVec.toNat_setWidth, UInt8.toNat_toBitVec]
    omega
  rw [BitVec.toNat_or, BitVec.toNat_shiftLeft, hwide, Nat.mod_eq_of_lt (by rwa [Nat.shiftLeft_eq]),
    or_shiftLeft_digit _ hbuf]

theorem toNat_accumulateFrom128 {acc : U128} {j : ℕ} {bs : Bytes} (hacc : acc.toNat < 2 ^ (j * 8))
    (h : j + bs.length ≤ 16) :
    (accumulateFrom128 acc j bs).toNat = acc.toNat + 2 ^ (j * 8) * leNat bs := by
  induction bs generalizing acc j with
  | nil => rw [accumulateFrom128, leNat_nil, Nat.mul_zero, Nat.add_zero]
  | cons b bs ih =>
    rw [List.length_cons] at h
    have hor := toNat_or_byte hacc (show j * 8 ≤ 120 by omega) b
    have hlt : (acc ||| (b.toBitVec.setWidth 128 <<< (j * 8))).toNat < 2 ^ ((j + 1) * 8) := by
      have hb : b.toNat + 1 ≤ 2 ^ 8 := b.toNat_lt
      have hmul := Nat.mul_le_mul_right (2 ^ (j * 8)) hb
      rw [hor, Nat.succ_mul, Nat.pow_add, Nat.mul_comm (2 ^ (j * 8))]
      rw [Nat.succ_mul] at hmul
      omega
    rw [accumulateFrom128, ih hlt (by omega), hor, leNat_cons, Nat.succ_mul, Nat.pow_add]
    ring

/-- Value `i` is digit `i` of the chunk. -/
theorem unpackAt64_eq {chunk : Bytes} {i : ℕ} (hw : w ≤ 64)
    (h : (i + 1) * w ≤ 8 * chunk.length) :
    unpackAt64 chunk w i = .ok (UInt64.ofNat (leNat chunk / (2 ^ w) ^ i % 2 ^ w)) := by
  have hmul : (i + 1) * w = i * w + w := Nat.succ_mul i w
  have hneed : divCeil (w + i * w % 8) 8 ≤ 9 := by
    rw [divCeil]
    omega
  have hstop : i * w / 8 + divCeil (w + i * w % 8) 8 ≤ chunk.length := by
    rw [divCeil]
    omega
  rw [unpackAt64, slice_ok (Nat.le_add_right _ _) hstop]
  refine congrArg Except.ok (UInt64.toNat_inj.mp ?_)
  set window := (chunk.take (i * w / 8 + divCeil (w + i * w % 8) 8)).drop (i * w / 8)
    with hwindow
  have hlen : window.length = divCeil (w + i * w % 8) 8 := by
    rw [hwindow, List.length_drop, List.length_take_of_le hstop]
    omega
  have hnat : leNat window
      = leNat chunk / 256 ^ (i * w / 8) % 256 ^ divCeil (w + i * w % 8) 8 := by
    rw [hwindow, List.drop_take, leNat_take, leNat_drop, Nat.add_sub_cancel_left]
  have hacc : (accumulateFrom128 0 0 window).toNat = leNat window := by
    rw [toNat_accumulateFrom128 (by decide) (by omega)]
    simp
  have hlt : leNat chunk / (2 ^ w) ^ i % 2 ^ w < 2 ^ 64 :=
    (Nat.mod_lt _ (by positivity)).trans_le (Nat.pow_le_pow_right (by decide) hw)
  rw [UInt64.toNat_ofNat_of_lt' hlt, toNat_u128AsU64, toNat_and_bitMask128 hw,
    BitVec.toNat_ushiftRight, Nat.shiftRight_eq_div_pow, hacc, hnat, window_digit,
    ← Nat.pow_mul, Nat.mul_comm w i]
  · rw [← Nat.pow_mul, Nat.mul_comm w i] at hlt
    exact Nat.mod_eq_of_lt hlt
  · rw [divCeil]
    omega

/-- The bit buffer holds the lowest `bits` bits of what remains. -/
theorem refill128_eq {buf : U128} {bits : ℕ} {rest : Bytes} (hw : w ≤ 64) (hbits : bits < w + 8)
    (hbuf : buf.toNat < 2 ^ bits) (h : w ≤ bits + 8 * rest.length) :
    ∃ buf' bits' rest', refill128 w buf bits rest = .ok (buf', bits', rest') ∧
      w ≤ bits' ∧ bits' < w + 8 ∧ buf'.toNat < 2 ^ bits' ∧
      bits' + 8 * rest'.length = bits + 8 * rest.length ∧
      buf'.toNat + 2 ^ bits' * leNat rest' = buf.toNat + 2 ^ bits * leNat rest := by
  induction rest generalizing buf bits with
  | nil =>
    rw [refill128, if_neg (by simpa using h)]
    exact ⟨buf, bits, [], rfl, by simpa using h, hbits, hbuf, rfl, rfl⟩
  | cons b rest ih =>
    rw [refill128]
    split
    · next hlt =>
      have hor := toNat_or_byte hbuf (show bits ≤ 120 by omega) b
      have hnext : (buf ||| (b.toBitVec.setWidth 128 <<< bits)).toNat < 2 ^ (bits + 8) := by
        have hb : b.toNat + 1 ≤ 2 ^ 8 := b.toNat_lt
        have hmul := Nat.mul_le_mul_right (2 ^ bits) hb
        rw [Nat.succ_mul] at hmul
        rw [hor, Nat.pow_add, Nat.mul_comm (2 ^ bits)]
        omega
      rw [List.length_cons] at h
      obtain ⟨buf', bits', rest', hrun, hle, hlt', hbuf', hlen, hval⟩ :=
        ih (show bits + 8 < w + 8 by omega) hnext (by omega)
      refine ⟨buf', bits', rest', hrun, hle, hlt', hbuf', ?_, ?_⟩
      · rw [hlen, List.length_cons]
        omega
      · rw [hval, hor, leNat_cons, Nat.pow_add]
        ring
    · exact ⟨buf, bits, b :: rest, rfl, by omega, hbits, hbuf, rfl, rfl⟩

/-- Each turn emits the lowest digit of what remains. -/
theorem unpackTail64_eq {n : ℕ} {buf : U128} {bits : ℕ} {rest : Bytes} (hw : w ≤ 64)
    (hbits : bits < w + 8) (hbuf : buf.toNat < 2 ^ bits) (h : n * w ≤ bits + 8 * rest.length) :
    unpackTail64 w n buf bits rest
      = .ok ((lowDigits (2 ^ w) n (buf.toNat + 2 ^ bits * leNat rest)).map UInt64.ofNat) := by
  induction n generalizing buf bits rest with
  | zero => rfl
  | succ n ih =>
    rw [Nat.succ_mul] at h
    obtain ⟨buf', bits', rest', hrun, hle, hlt, hbuf', hlen, hval⟩ :=
      refill128_eq hw hbits hbuf (show w ≤ bits + 8 * rest.length by omega)
    have hsplit : 2 ^ bits' = 2 ^ w * 2 ^ (bits' - w) := by
      rw [← Nat.pow_add]
      congr 1
      omega
    have hdigit : u128AsU64 (buf' &&& bitMask128 w)
        = UInt64.ofNat ((buf.toNat + 2 ^ bits * leNat rest) % 2 ^ w) := by
      refine UInt64.toNat_inj.mp ?_
      have hlt64 : buf'.toNat % 2 ^ w < 2 ^ 64 :=
        (Nat.mod_lt _ (by positivity)).trans_le (Nat.pow_le_pow_right (by decide) hw)
      rw [toNat_u128AsU64, toNat_and_bitMask128 hw, ← hval, hsplit, Nat.mul_assoc,
        Nat.add_mul_mod_self_left, UInt64.toNat_ofNat_of_lt' hlt64, Nat.mod_eq_of_lt hlt64]
    have hshift : (buf' >>> w).toNat = buf'.toNat / 2 ^ w := by
      rw [BitVec.toNat_ushiftRight, Nat.shiftRight_eq_div_pow]
    have hrest : (buf' >>> w).toNat + 2 ^ (bits' - w) * leNat rest'
        = (buf.toNat + 2 ^ bits * leNat rest) / 2 ^ w := by
      rw [hshift, ← hval, hsplit, Nat.mul_assoc, Nat.add_mul_div_left _ _ (by positivity)]
    have hbuf'' : (buf' >>> w).toNat < 2 ^ (bits' - w) := by
      rw [hshift, Nat.div_lt_iff_lt_mul (by positivity), Nat.mul_comm, ← hsplit]
      exact hbuf'
    have htail := ih (show bits' - w < w + 8 by omega) hbuf''
      (show n * w ≤ bits' - w + 8 * rest'.length by omega)
    rw [hrest] at htail
    rw [unpackTail64, hrun, lowDigits, List.map_cons, ← hdigit]
    change (unpackTail64 w n (buf' >>> w) (bits' - w) rest' >>= _) = _
    rw [htail]
    rfl

/-- The chunks from `packedIdx` on, by induction on their number. -/
theorem unpackChunksFrom64_eq (packed : Bytes) {tail : ℕ} (hw : w ≤ 64)
    (fullChunks packedIdx : ℕ) (h : (32 * fullChunks + tail) * w ≤ 8 * (packed.length - packedIdx))
    (hidx : packedIdx ≤ packed.length) :
    unpackChunksFrom64 w packed tail fullChunks packedIdx
      = .ok ((lowDigits (2 ^ w) (32 * fullChunks + tail) (leNat (packed.drop packedIdx))).map
          UInt64.ofNat) := by
  induction fullChunks generalizing packedIdx with
  | zero =>
    rw [Nat.mul_zero, Nat.zero_add] at h ⊢
    rw [unpackChunksFrom64]
    split
    · set tailBytes := divCeil (tail * w) 8 with htb
      have hbits : tail * w ≤ 8 * tailBytes := by
        rw [htb, divCeil]
        omega
      have hstop : packedIdx + tailBytes ≤ packed.length := by
        rw [htb, divCeil]
        omega
      have hlen : ((packed.take (packedIdx + tailBytes)).drop packedIdx).length = tailBytes := by
        rw [List.length_drop, List.length_take_of_le hstop]
        omega
      change (slice packed packedIdx (packedIdx + tailBytes) >>= unpackTail64 w tail 0 0) = _
      rw [slice_ok (Nat.le_add_right _ _) hstop]
      refine (unpackTail64_eq hw (by omega) (by decide) (by rw [hlen]; omega)).trans ?_
      rw [List.drop_take, Nat.add_sub_cancel_left]
      have hempty : (0 : U128).toNat = 0 := rfl
      rw [hempty, Nat.pow_zero, Nat.one_mul, Nat.zero_add, lowDigits_leNat_take hbits]
    · next hzero =>
      obtain rfl : tail = 0 := by omega
      rfl
  | succ n ih =>
    have hchunk : w * 32 / 8 = 4 * w := by omega
    have hmul : (32 * (n + 1) + tail) * w = 32 * w + (32 * n + tail) * w := by ring
    have hstop : packedIdx + 4 * w ≤ packed.length := by omega
    set chunk := (packed.take (packedIdx + 4 * w)).drop packedIdx with hchunkDef
    have hlen : chunk.length = 4 * w := by
      rw [hchunkDef, List.length_drop, List.length_take_of_le hstop]
      omega
    have hwindows : (List.range 32).mapM (unpackAt64 chunk w)
        = .ok ((lowDigits (2 ^ w) 32 (leNat chunk)).map UInt64.ofNat) := by
      refine mapM_eq_ok.mpr ?_
      rw [lowDigits_eq_map, List.map_map, List.forall₂_map_right_iff]
      refine List.forall₂_same.mpr fun i hi => ?_
      have hi := Nat.mul_le_mul_right w (show i + 1 ≤ 32 from List.mem_range.mp hi)
      exact unpackAt64_eq hw (by omega)
    have hdigits : lowDigits (2 ^ w) 32 (leNat chunk)
        = lowDigits (2 ^ w) 32 (leNat (packed.drop packedIdx)) := by
      rw [hchunkDef, List.drop_take, Nat.add_sub_cancel_left, lowDigits_leNat_take (by omega)]
    have hpow : 256 ^ (4 * w) = (2 ^ w) ^ 32 := by
      rw [show (256 : ℕ) = 2 ^ 8 from rfl, ← Nat.pow_mul, ← Nat.pow_mul]
      congr 1
      omega
    have hrest := ih (packedIdx + 4 * w) (by omega) hstop
    rw [← List.drop_drop, leNat_drop, hpow] at hrest
    rw [unpackChunksFrom64, hchunk, slice_ok (Nat.le_add_right _ _) hstop,
      show 32 * (n + 1) + tail = 32 + (32 * n + tail) by ring, lowDigits_add, List.map_append,
      ← hdigits]
    change ((List.range 32).mapM (unpackAt64 chunk w) >>= _) = _
    rw [hwindows, ok_bind, hrest]
    rfl

/-- **Unpacking into 64 bits** yields the first digits of the packed bytes. -/
theorem unpackIndices64_eq {packed : Bytes} {n : ℕ} {bitWidth : UInt8} (hbw : bitWidth ≤ 64)
    (h : n * bitWidth.toNat ≤ 8 * packed.length) :
    unpackIndices64 packed n bitWidth
      = .ok ((lowDigits (2 ^ bitWidth.toNat) n (leNat packed)).map UInt64.ofNat) := by
  have hbw64 : bitWidth.toNat ≤ 64 := UInt8.le_iff_toNat_le.mp hbw
  have hn : 32 * (n / 32) + n % 32 = n := Nat.div_add_mod n 32
  rw [unpackIndices64, if_neg (UInt8.not_lt.mpr hbw)]
  by_cases hzero : n = 0
  · subst hzero
    rfl
  rw [if_neg hzero]
  by_cases hbw0 : bitWidth = 0
  · subst hbw0
    rw [if_pos rfl, lowDigits_eq_map, List.map_map]
    refine congrArg Except.ok (Eq.symm (List.eq_replicate_iff.mpr ⟨by simp, fun b hb => ?_⟩))
    obtain ⟨i, -, rfl⟩ := List.mem_map.mp hb
    simp [Nat.mod_one]
  · rw [if_neg hbw0]
    have hfrom := unpackChunksFrom64_eq packed hbw64 (n / 32) 0 (by rw [hn]; exact h)
      (Nat.zero_le _)
    rwa [hn, List.drop_zero] at hfrom

end

/-! ## Missing bytes -/

section
variable {w : ℕ} {f : Fault CodecError}

theorem refill128_eq_error {buf : U128} {bits : ℕ} {rest : Bytes}
    (h : refill128 w buf bits rest = .error f) : Panics f := by
  induction rest generalizing buf bits with
  | nil =>
    rw [refill128] at h
    split at h
    · cases h
      exact ⟨_, rfl⟩
    · cases h
  | cons b rest ih =>
    rw [refill128] at h
    split at h
    · exact ih h
    · cases h

theorem unpackTail64_eq_error {n : ℕ} {buf : U128} {bits : ℕ} {rest : Bytes}
    (h : unpackTail64 w n buf bits rest = .error f) : Panics f := by
  induction n generalizing buf bits rest with
  | zero => cases h
  | succ n ih =>
    rw [unpackTail64] at h
    rcases bind_eq_error.mp h with h | ⟨⟨buf', bits', rest'⟩, -, h⟩
    · exact refill128_eq_error h
    · rcases bind_eq_error.mp h with h | ⟨vs, -, h⟩
      · exact ih h
      · cases h

/-- Unpacking fails by a panic only, for want of bytes. -/
theorem unpackChunksFrom64_outcome (packed : Bytes) (tail fullChunks packedIdx : ℕ) :
    (∀ f, unpackChunksFrom64 w packed tail fullChunks packedIdx = .error f → Panics f) ∧
    ∀ vs, unpackChunksFrom64 w packed tail fullChunks packedIdx = .ok vs →
      (32 * fullChunks + tail) * w ≤ 8 * (packed.length - packedIdx) := by
  induction fullChunks generalizing packedIdx with
  | zero =>
    rw [unpackChunksFrom64]
    split
    · refine ⟨fun f h => ?_, fun vs h => ?_⟩
      · rcases bind_eq_error.mp h with h | ⟨chunk, -, h⟩
        · exact slice_eq_error h
        · exact unpackTail64_eq_error h
      · obtain ⟨chunk, hchunk, -⟩ := bind_eq_ok.mp h
        obtain ⟨-, hstop, -⟩ := slice_eq_ok.mp hchunk
        rw [divCeil] at hstop
        rw [Nat.mul_zero, Nat.zero_add]
        omega
    · next hzero =>
      obtain rfl : tail = 0 := by omega
      exact ⟨fun f h => (by cases h), fun vs _ => by simp⟩
  | succ n ih =>
    rw [unpackChunksFrom64]
    refine ⟨fun f h => ?_, fun vs h => ?_⟩
    · rcases bind_eq_error.mp h with h | ⟨chunk, -, h⟩
      · exact slice_eq_error h
      rcases bind_eq_error.mp h with h | ⟨vs, -, h⟩
      · obtain ⟨i, j, -, hi, -⟩ := mapM_eq_error.mp h
        rcases bind_eq_error.mp hi with hi | ⟨v, -, hv⟩
        · exact slice_eq_error hi
        · cases hv
      rcases bind_eq_error.mp h with h | ⟨ws, -, h⟩
      · exact (ih _).1 _ h
      · cases h
    · obtain ⟨chunk, hchunk, h⟩ := bind_eq_ok.mp h
      obtain ⟨vs', -, h⟩ := bind_eq_ok.mp h
      obtain ⟨ws, hws, -⟩ := bind_eq_ok.mp h
      obtain ⟨-, hstop, -⟩ := slice_eq_ok.mp hchunk
      have hrest := (ih _).2 _ hws
      have hmul : (32 * (n + 1) + tail) * w = 32 * w + (32 * n + tail) * w := by ring
      omega
end

theorem unpackIndices64_short {packed : Bytes} {n : ℕ} {bitWidth : UInt8} (hbw : bitWidth ≤ 64)
    (h : 8 * packed.length < n * bitWidth.toNat) :
    ∃ f, unpackIndices64 packed n bitWidth = .error f ∧ Panics f := by
  rw [unpackIndices64, if_neg (UInt8.not_lt.mpr hbw)]
  by_cases hn : n = 0
  · simp [hn] at h
  by_cases hzero : bitWidth = 0
  · simp [hzero] at h
  rw [if_neg hn, if_neg hzero]
  obtain ⟨herror, hok⟩ :=
    unpackChunksFrom64_outcome (w := bitWidth.toNat) packed (n % 32) (n / 32) 0
  cases hrun : unpackChunksFrom64 bitWidth.toNat packed (n % 32) (n / 32) 0 with
  | ok vs =>
    have hfits := hok vs hrun
    rw [Nat.div_add_mod, Nat.sub_zero] at hfits
    omega
  | error f => exact ⟨f, rfl, herror f hrun⟩

end EmatixParquet
