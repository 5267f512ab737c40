/-
  The unpackers against the bits of a byte string, and against the packer.

  * `toNat_unpacked`: the digits of the packed bytes are their bit fields;
  * `unpackIndices_fields`, `unpackIndices64_fields`, `unpack8Indices_fields`: what
    each unpacker yields;
  * `packLsbFirstIn_eq`: `pack_lsb_first` indexes in range;
  * `unpack_inverts`: so they undo it.
-/
import EmatixParquet.Codec.Bitpack64
import EmatixParquet.Codec.Dict
import EmatixParquet.Codec.Rle

namespace EmatixParquet

open Wire

/-- Value `i` is the integer of bits `i * w` to `(i + 1) * w`. -/
def AreFields (packed : Bytes) (n w : ℕ) (values : List ℕ) : Prop :=
  values.length = n ∧ ∀ i v, values[i]? = some v → v = bitField packed (i * w) w

theorem areFields_lowDigits (packed : Bytes) (n w : ℕ) :
    AreFields packed n w (lowDigits (2 ^ w) n (leNat packed)) := by
  refine ⟨length_lowDigits .., fun i v hv => ?_⟩
  rw [lowDigits_eq_map, List.getElem?_map] at hv
  obtain ⟨j, hj, rfl⟩ := Option.map_eq_some_iff.mp hv
  obtain ⟨hlt, rfl⟩ := List.getElem?_eq_some_iff.mp hj
  rw [List.getElem_range, bitField_eq, ← Nat.pow_mul, Nat.mul_comm w]

/-- Digits that a word holds are not reduced in it. -/
theorem map_toNat_lowDigits {α : Type} {toNat : α → ℕ} {ofNat : ℕ → α} {w k : ℕ}
    (hback : ∀ d < 2 ^ k, toNat (ofNat d) = d) (hw : w ≤ k) (n N : ℕ) :
    ((lowDigits (2 ^ w) n N).map ofNat).map toNat = lowDigits (2 ^ w) n N := by
  rw [List.map_map]
  refine (List.map_congr_left fun d hd => ?_).trans (List.map_id _)
  have hlt : d < 2 ^ w := lt_of_mem_lowDigits (by positivity) hd
  exact hback d (hlt.trans_le (Nat.pow_le_pow_right (by decide) hw))

/-- Whole bytes hold the bits of the values. -/
theorem mul_le_of_divCeil_le {n w k : ℕ} (h : divCeil (n * w) 8 ≤ k) : n * w ≤ 8 * k := by
  have hceil : divCeil (n * w) 8 = (n * w + 7) / 8 := rfl
  omega

section
variable {packed : Bytes} {n : ℕ} {bitWidth : UInt8}

theorem unpackIndices_fields (hbw : bitWidth ≤ 32)
    (h : divCeil (n * bitWidth.toNat) 8 ≤ packed.length) :
    ∃ vs, unpackIndices packed n bitWidth = .ok vs ∧
      AreFields packed n bitWidth.toNat (vs.map UInt32.toNat) := by
  refine ⟨_, unpackIndices_eq hbw (mul_le_of_divCeil_le h), ?_⟩
  rw [map_toNat_lowDigits (fun _ => UInt32.toNat_ofNat_of_lt') (UInt8.le_iff_toNat_le.mp hbw)]
  exact areFields_lowDigits ..

theorem unpackIndices64_fields (hbw : bitWidth ≤ 64)
    (h : divCeil (n * bitWidth.toNat) 8 ≤ packed.length) :
    ∃ vs, unpackIndices64 packed n bitWidth = .ok vs ∧
      AreFields packed n bitWidth.toNat (vs.map UInt64.toNat) := by
  refine ⟨_, unpackIndices64_eq hbw (mul_le_of_divCeil_le h), ?_⟩
  rw [map_toNat_lowDigits (fun _ => UInt64.toNat_ofNat_of_lt') (UInt8.le_iff_toNat_le.mp hbw)]
  exact areFields_lowDigits ..

theorem unpack8Indices_fields {build : Build} (hbw : bitWidth ≤ 32)
    (h : bitWidth.toNat ≤ packed.length)
    (hexact : build = .debug → packed.length = bitWidth.toNat) :
    ∃ vs, unpack8Indices build packed bitWidth = .ok vs ∧
      AreFields packed 8 bitWidth.toNat (vs.map UInt32.toNat) := by
  refine ⟨_, unpack8Indices_eq hbw h hexact, ?_⟩
  rw [map_toNat_lowDigits (fun _ => UInt32.toNat_ofNat_of_lt') (UInt8.le_iff_toNat_le.mp hbw)]
  exact areFields_lowDigits ..

end

/-! ## The packer -/

/-- `packBits`, where the code indexes. -/
def packBitsIn (body : Bytes) (byteIx : ℕ) (shift : Fin 8) (remaining : ℕ) (value : UInt64) :
    Res CodecError Bytes :=
  if remaining = 0 then .ok body
  else if byteIx < body.length then
    let take := min (8 - shift.val) remaining
    let takeMask := (1 <<< UInt64.ofNat take) - 1
    let chunk := (value &&& takeMask).toUInt8
    packBitsIn (body.modify byteIx (· ||| (chunk <<< UInt8.ofNat shift.val))) (byteIx + 1) 0
      (remaining - take) (value >>> UInt64.ofNat take)
  else .error (.panic "index out of bounds")
termination_by remaining
decreasing_by omega

/-- The loop over the values. -/
def packFromIn (bw : ℕ) (body : Bytes) (i : ℕ) : List UInt32 → Res CodecError Bytes
  | [] => .ok body
  | idx :: rest => do
    let bitPos := i * bw
    let body ← packBitsIn body (bitPos / 8) (Fin.ofNat 8 bitPos) bw idx.toUInt64
    packFromIn bw body (i + 1) rest

/-- `pack_lsb_first`, with its `debug_assert_eq!`. -/
def packLsbFirstIn (build : Build) (indices : List UInt32) (bitWidth : UInt8) :
    Res CodecError Bytes :=
  if build = .debug ∧ indices.length % 8 ≠ 0 then
    .error (.panic "assertion `left == right` failed")
  else
    packFromIn bitWidth.toNat (List.replicate (indices.length / 8 * bitWidth.toNat) 0) 0 indices

/-- By induction on the bits that remain: what fits is written. -/
theorem packBitsIn_eq (body : Bytes) (byteIx : ℕ) (shift : Fin 8) (remaining : ℕ) (value : UInt64)
    (hfit : 8 * byteIx + shift.val + remaining ≤ 8 * body.length) :
    packBitsIn body byteIx shift remaining value = .ok (packBits body byteIx shift remaining value) ∧
      (packBits body byteIx shift remaining value).length = body.length := by
  induction remaining using Nat.strong_induction_on generalizing body byteIx shift value with
  | _ remaining ih =>
    rw [packBitsIn, packBits]
    by_cases hzero : remaining = 0
    · rw [if_pos hzero, if_pos hzero]
      exact ⟨rfl, rfl⟩
    · rw [if_neg hzero, if_neg hzero, if_pos (by omega)]
      have hshift := shift.isLt
      have hnext := ih (remaining - min (8 - shift.val) remaining) (by omega)
        (body.modify byteIx (· |||
          (((value &&& ((1 <<< UInt64.ofNat (min (8 - shift.val) remaining)) - 1)).toUInt8)
            <<< UInt8.ofNat shift.val)))
        (byteIx + 1) 0 (value >>> UInt64.ofNat (min (8 - shift.val) remaining))
        (by rw [List.length_modify, Fin.val_zero]; omega)
      rw [List.length_modify] at hnext
      exact hnext

theorem packFromIn_eq {bw : ℕ} {body : Bytes} {i : ℕ} {indices : List UInt32}
    (hfit : (i + indices.length) * bw ≤ 8 * body.length) :
    packFromIn bw body i indices = .ok (packFrom bw body i indices) := by
  induction indices generalizing body i with
  | nil => rfl
  | cons idx rest ih =>
    have hstep : (i + 1) * bw ≤ (i + (rest.length + 1)) * bw := Nat.mul_le_mul_right _ (by omega)
    rw [List.length_cons] at hfit
    rw [Nat.succ_mul] at hstep
    obtain ⟨hrun, hlen⟩ := packBitsIn_eq body (i * bw / 8) (Fin.ofNat 8 (i * bw)) bw idx.toUInt64
      (by rw [Fin.val_ofNat]; omega)
    rw [packFromIn, packFrom]
    rw [hrun, ok_bind]
    exact ih (by rwa [hlen, show i + 1 + rest.length = i + (rest.length + 1) by omega])

section
variable {indices : List UInt32} {bitWidth : UInt8}

/-- Of whole blocks of 8 values, every index is in range. -/
theorem packLsbFirstIn_eq (h8 : indices.length % 8 = 0) (build : Build) :
    packLsbFirstIn build indices bitWidth = .ok (packLsbFirst indices bitWidth.toNat) := by
  rw [packLsbFirstIn, if_neg (fun hne => hne.2 h8), packLsbFirst, packFromIn_eq]
  rw [List.length_replicate, Nat.zero_add, ← Nat.mul_assoc,
    Nat.mul_div_cancel' (Nat.dvd_of_mod_eq_zero h8)]

/-- The packed bytes are as many as the bits of their values. -/
theorem length_packLsbFirst_mul (h8 : indices.length % 8 = 0)
    (hlt : ∀ v ∈ indices, v.toNat < 2 ^ bitWidth.toNat) :
    8 * (packLsbFirst indices bitWidth.toNat).length = indices.length * bitWidth.toNat := by
  rw [(leNat_packLsbFirst h8 hlt).2, ← Nat.mul_assoc,
    Nat.mul_div_cancel' (Nat.dvd_of_mod_eq_zero h8)]

theorem unpackIndices_packLsbFirst (hbw : bitWidth ≤ 32) (h8 : indices.length % 8 = 0)
    (hlt : ∀ v ∈ indices, v.toNat < 2 ^ bitWidth.toNat) :
    unpackIndices (packLsbFirst indices bitWidth.toNat) indices.length bitWidth = .ok indices := by
  rw [unpackIndices_eq hbw (length_packLsbFirst_mul h8 hlt).ge,
    lowDigits_packLsbFirst h8 hlt le_rfl, List.take_length, List.map_map]
  exact congrArg Except.ok ((List.map_congr_left fun v _ => UInt32.ofNat_toNat).trans (List.map_id _))

theorem unpackIndices64_packLsbFirst (hbw : bitWidth ≤ 64) (h8 : indices.length % 8 = 0)
    (hlt : ∀ v ∈ indices, v.toNat < 2 ^ bitWidth.toNat) :
    unpackIndices64 (packLsbFirst indices bitWidth.toNat) indices.length bitWidth
      = .ok (indices.map UInt32.toUInt64) := by
  rw [unpackIndices64_eq hbw (length_packLsbFirst_mul h8 hlt).ge,
    lowDigits_packLsbFirst h8 hlt le_rfl, List.take_length, List.map_map]
  refine congrArg Except.ok (List.map_congr_left fun v _ => UInt64.toNat_inj.mp ?_)
  exact UInt64.toNat_ofNat_of_lt' (v.toNat_lt.trans (by decide))

theorem unpack8Indices_packLsbFirst (hbw : bitWidth ≤ 32) (h8 : indices.length = 8)
    (hlt : ∀ v ∈ indices, v.toNat < 2 ^ bitWidth.toNat) (build : Build) :
    unpack8Indices build (packLsbFirst indices bitWidth.toNat) bitWidth = .ok indices := by
  have hmod : indices.length % 8 = 0 := by rw [h8]
  have hlen := length_packLsbFirst_mul hmod hlt
  rw [h8] at hlen
  rw [unpack8Indices_eq hbw (by omega) (fun _ => by omega), lowDigits_packLsbFirst hmod hlt h8.ge,
    List.take_of_length_le h8.le, List.map_map]
  exact congrArg Except.ok ((List.map_congr_left fun v _ => UInt32.ofNat_toNat).trans (List.map_id _))

end

/-- **Unpacking inverts packing**: each unpacker yields the bit fields of its
    bytes, and the values that were packed; where builds assert, `unpack_8_indices` of
    bytes of no more than a block. -/
theorem unpack_inverts :
    (∀ (packed : Bytes) (n : ℕ) (w : UInt8), 1 ≤ w → w ≤ 32 →
      divCeil (n * w.toNat) 8 ≤ packed.length →
      ∃ vs, unpackIndices packed n w = .ok vs ∧
        AreFields packed n w.toNat (vs.map UInt32.toNat)) ∧
    (∀ (packed : Bytes) (n : ℕ) (w : UInt8), 1 ≤ w → w ≤ 64 →
      divCeil (n * w.toNat) 8 ≤ packed.length →
      ∃ vs, unpackIndices64 packed n w = .ok vs ∧
        AreFields packed n w.toNat (vs.map UInt64.toNat)) ∧
    (∀ (build : Build) (packed : Bytes) (w : UInt8), 1 ≤ w → w ≤ 32 → w.toNat ≤ packed.length →
      (build = .debug → packed.length = w.toNat) →
      ∃ vs, unpack8Indices build packed w = .ok vs ∧
        AreFields packed 8 w.toNat (vs.map UInt32.toNat)) ∧
    ∀ (build : Build) (indices : List UInt32) (w : UInt8), 1 ≤ w → w ≤ 64 →
      indices.length % 8 = 0 → (∀ v ∈ indices, v.toNat < 2 ^ w.toNat) →
      ∃ packed, packLsbFirstIn build indices w = .ok packed ∧
        unpackIndices64 packed indices.length w = .ok (indices.map UInt32.toUInt64) ∧
        (w ≤ 32 → unpackIndices packed indices.length w = .ok indices ∧
          (indices.length = 8 → unpack8Indices build packed w = .ok indices)) :=
  ⟨fun _ _ _ _ => unpackIndices_fields, fun _ _ _ _ => unpackIndices64_fields,
    fun _ _ _ _ => unpack8Indices_fields, fun build _ _ _ hbw h8 hlt =>
      ⟨_, packLsbFirstIn_eq h8 build, unpackIndices64_packLsbFirst hbw h8 hlt, fun hbw =>
        ⟨unpackIndices_packLsbFirst hbw h8 hlt, fun h =>
          unpack8Indices_packLsbFirst hbw h hlt build⟩⟩⟩

/-- Eight values of 31 bits, the second of which lies in five bytes; three of 5 bits in
    two bytes; one of 33 in five; and a block of 3 bits a value. -/
theorem unpack_inverts_wide :
    (∃ packed, packLsbFirstIn .debug [0x7FFFFFFF, 1, 2, 3, 4, 5, 6, 0x40000000] 31 = .ok packed ∧
      unpackIndices packed 8 31 = .ok [0x7FFFFFFF, 1, 2, 3, 4, 5, 6, 0x40000000]) ∧
    (∃ vs, unpackIndices [0xFF, 0x03] 3 5 = .ok vs ∧
      AreFields [0xFF, 0x03] 3 5 (vs.map UInt32.toNat)) ∧
    (∃ vs, unpackIndices64 [0, 0, 0, 0, 1] 1 33 = .ok vs ∧
      AreFields [0, 0, 0, 0, 1] 1 33 (vs.map UInt64.toNat)) ∧
    ∃ vs, unpack8Indices .debug [0x88, 0xC6, 0xFA] 3 = .ok vs ∧
      AreFields [0x88, 0xC6, 0xFA] 8 3 (vs.map UInt32.toNat) := by
  obtain ⟨packed, hpacked, -, hunpack⟩ := unpack_inverts.2.2.2 .debug
    [0x7FFFFFFF, 1, 2, 3, 4, 5, 6, 0x40000000] 31 (by decide) (by decide) rfl (by decide)
  exact ⟨⟨packed, hpacked, (hunpack (by decide)).1⟩,
    unpack_inverts.1 [0xFF, 0x03] 3 5 (by decide) (by decide) (by decide),
    unpack_inverts.2.1 [0, 0, 0, 0, 1] 1 33 (by decide) (by decide) (by decide),
    unpack_inverts.2.2.1 .debug [0x88, 0xC6, 0xFA] 3 (by decide) (by decide) (by decide)
      (fun _ => rfl)⟩

/-- A byte too many for eight values of one bit, in a build with assertions; and a value
    that is not one of eight, in any build. -/
theorem unpack_inverts_asserts :
    unpack8Indices .debug [1, 0] 1 = .error (.panic "assertion `left == right` failed") ∧
      packLsbFirstIn .debug [1] 1 = .error (.panic "assertion `left == right` failed") ∧
      packLsbFirstIn .release [1] 1 = .error (.panic "index out of bounds") := by
  refine ⟨rfl, rfl, ?_⟩
  rw [packLsbFirstIn, if_neg (by decide), packFromIn]
  rw [packBitsIn, if_neg (by decide), if_neg (by decide)]
  rfl

end EmatixParquet
