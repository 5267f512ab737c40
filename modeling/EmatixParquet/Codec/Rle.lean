/-
  RLE / bit-packed hybrid — the encoders of `rle.rs` and the loop its decoders
  run.

  * `leNat_packLsbFirst`: the packer writes the indices as the digits of one
    number in base `2 ^ bitWidth`;
  * `encodeRleBitPacked_runs`, `encodeRleBitPackedSingleRun_runs`: the encoders
    emit a sequence of runs whose values are the indices, followed by zero
    padding;
  * `hybridLoop_runs`: the decoding loop on a sequence of runs hands the
    handlers exactly the values of the runs, in order, up to `num_values`;
  * `decodeRleBitPacked_runs`: the 64-bit decoder reads the runs of indices back.
-/
import EmatixParquet.Codec.Bitpack

namespace EmatixParquet

open Wire

variable {α : Type}

/-! ## Packing -/

/-- The inner loop of `pack_lsb_first`: the `remaining` low bits of `value`,
    byte by byte from bit `shift` of byte `byteIx` on. -/
def packBits (body : Bytes) (byteIx : ℕ) (shift : Fin 8) (remaining : ℕ) (value : UInt64) :
    Bytes :=
  if remaining = 0 then body
  else
    let take := min (8 - shift.val) remaining
    let takeMask := (1 <<< UInt64.ofNat take) - 1
    let chunk := (value &&& takeMask).toUInt8
    packBits (body.modify byteIx (· ||| (chunk <<< UInt8.ofNat shift.val))) (byteIx + 1) 0
      (remaining - take) (value >>> UInt64.ofNat take)
termination_by remaining
decreasing_by omega

/-- The outer loop of `pack_lsb_first`, from index `i` on. -/
def packFrom (bw : ℕ) (body : Bytes) (i : ℕ) : List UInt32 → Bytes
  | [] => body
  | idx :: rest =>
    let bitPos := i * bw
    packFrom bw (packBits body (bitPos / 8) ⟨bitPos % 8, Nat.mod_lt _ (by decide)⟩ bw
      idx.toUInt64) (i + 1) rest

/-- `pack_lsb_first`: what it appends to the output. -/
def packLsbFirst (indices : List UInt32) (bw : ℕ) : Bytes :=
  packFrom bw (List.replicate (indices.length / 8 * bw) 0) 0 indices

/-! ## Encoding -/

/-- A run header and the packed values, whose number is a multiple of 8. -/
def bitPackedRun (values : List UInt32) (bitWidth : ℕ) : Bytes :=
  writeUvarint ((UInt64.ofNat (values.length / 8) <<< 1) ||| 1) ++ packLsbFirst values bitWidth

/-- `value as u64` in `bytes` little-endian bytes. -/
def valueBytesLe (value : UInt32) (bytes : ℕ) : Bytes :=
  (List.range bytes).map fun b => (value.toUInt64 >>> UInt64.ofNat (b * 8)).toUInt8

/-- A run header and the repeated value. -/
def rleRun (count : ℕ) (value : UInt32) (bitWidth : ℕ) : Bytes :=
  writeUvarint (UInt64.ofNat count <<< 1) ++ valueBytesLe value (divCeil bitWidth 8)

/-- `padded.resize(num_groups * 8, 0)`. -/
def padToGroups (values : List UInt32) : List UInt32 :=
  values ++ List.replicate (divCeil values.length 8 * 8 - values.length) 0

/-- `encode_rle_bit_packed_single_run`: one packed run, padded to whole groups. -/
def encodeRleBitPackedSingleRun (indices : List UInt32) (bitWidth : UInt8) : Bytes :=
  if indices = [] then []
  else if bitWidth = 0 then writeUvarint (UInt64.ofNat indices.length <<< 1)
  else if 32 < bitWidth then []
  else bitPackedRun (padToGroups indices) bitWidth.toNat

/-- A repetition this long is worth an RLE run. -/
def rleThreshold : ℕ := 8

/-- The loop of `encode_rle_bit_packed` over the indices that remain, with the
    values pending in the bit-pack accumulator and the output so far. -/
def encodeRuns (bitWidth : ℕ) (pending : List UInt32) (out : Bytes) : List UInt32 → Bytes
  | [] =>
    -- the only place padding is allowed: the decoder stops at `num_values`
    if pending = [] then out else out ++ bitPackedRun (padToGroups pending) bitWidth
  | v :: rest =>
    let runLen := 1 + (rest.takeWhile (· == v)).length
    let next := rest.dropWhile (· == v)
    let pendingMod := pending.length % 8
    let borrow := if pendingMod = 0 then 0 else 8 - pendingMod
    if rleThreshold + borrow ≤ runLen then
      let pending := pending ++ List.replicate borrow v
      let residual := runLen - borrow
      let out := if pending = [] then out else out ++ bitPackedRun pending bitWidth
      encodeRuns bitWidth [] (out ++ rleRun residual v bitWidth) next
    else encodeRuns bitWidth (pending ++ List.replicate runLen v) out next
termination_by indices => indices.length
decreasing_by
  all_goals exact Nat.lt_succ_of_le (List.dropWhile_sublist _).length_le

/-- `encode_rle_bit_packed`: repeats of eight or more become runs of their own. -/
def encodeRleBitPacked (indices : List UInt32) (bitWidth : UInt8) : Bytes :=
  if indices = [] then []
  else if bitWidth = 0 then writeUvarint (UInt64.ofNat indices.length <<< 1)
  else if 32 < bitWidth then []
  else encodeRuns bitWidth.toNat [] [] indices

/-! ## Decoding -/

/-- The loop of the hybrid decoders.  `onPacked` and `onRle` turn a run's bytes
    and the number of values to emit, at a given position of the output, into
    what the decoder appends.  `count * 8` and `total * bit_width` wrap. -/
def hybridLoop (bitWidth numValues : ℕ)
    (onPacked onRle : ℕ → Bytes → ℕ → Res CodecError (List α)) :
    Loop (Fault CodecError) (ℕ × List α) (List α) where
  step s :=
    if s.1 < numValues then do
      let header ← wire readUvarint
      let count := (header >>> 1).toNat
      if header &&& 1 = 1 then do
        let total := count * 8 % usizeBound
        let needed := divCeil (total * bitWidth % usizeBound) 8
        let chunk ← wire (take needed)
        let toEmit := min (numValues - s.1) total
        let vs ← Reader.lift (onPacked s.1 chunk toEmit)
        pure (.inl (s.1 + toEmit, s.2 ++ vs))
      else do
        let valueChunk ← wire (take (divCeil bitWidth 8))
        let toEmit := min (numValues - s.1) count
        let vs ← Reader.lift (onRle s.1 valueChunk toEmit)
        pure (.inl (s.1 + toEmit, s.2 ++ vs))
    else pure (.inr s.2)
  consumes {s bs s' rest} h := by
    split at h
    · obtain ⟨header, mid, hheader, hrest⟩ := Reader.run_bind_eq_ok h
      exact lt_of_le_of_lt (Reader.run_length_le _ hrest) (readUvarint_consumes hheader)
    · cases h

/-- The loop on the bytes of a stream. -/
def hybridDecode (bitWidth numValues : ℕ)
    (onPacked onRle : ℕ → Bytes → ℕ → Res CodecError (List α)) (bytes : Bytes) :
    Res CodecError (List α) :=
  (·.1) <$> ((hybridLoop bitWidth numValues onPacked onRle).run (0, [])).run bytes

/-- The bit-packed branch of `decode_rle_bit_packed`. -/
def packedValues (bitWidth : ℕ) (_ : ℕ) (chunk : Bytes) (toEmit : ℕ) :
    Res CodecError (List UInt64) :=
  (List.range toEmit).mapM (unpackAt chunk bitWidth)

/-- Its RLE branch. -/
def rleValues (_ : ℕ) (valueChunk : Bytes) (toEmit : ℕ) : Res CodecError (List UInt64) :=
  .ok (List.replicate toEmit (accumulateLe valueChunk))

/-- `decode_rle_bit_packed`. -/
def decodeRleBitPacked (bytes : Bytes) (bitWidth : UInt8) (numValues : ℕ) :
    Res CodecError (List UInt64) :=
  if 64 < bitWidth then codecErr (.bitWidthOutOfRange bitWidth)
  else if numValues = 0 then .ok []
  else if bitWidth = 0 then .ok (List.replicate numValues 0)
  else hybridDecode bitWidth.toNat numValues (packedValues bitWidth.toNat) rleValues bytes

/-! ## The packer writes digits -/

theorem toNat_takeMask (v : UInt64) {t : ℕ} (ht : t ≤ 8) :
    (v &&& ((1 <<< UInt64.ofNat t) - 1)).toUInt8.toNat = v.toNat % 2 ^ t := by
  have hmask : (1 <<< UInt64.ofNat t) - 1 = bitMask t := by rw [bitMask, if_neg (by omega)]
  have hlt : v.toNat % 2 ^ t < 2 ^ 8 :=
    (Nat.mod_lt _ (by positivity)).trans_le (Nat.pow_le_pow_right (by decide) ht)
  rw [hmask, UInt64.toNat_toUInt8, toNat_and_bitMask (by omega), Nat.mod_eq_of_lt hlt]

/-- The inner loop adds `value` above the bits in use. -/
theorem packBits_eq {body : Bytes} {byteIx : ℕ} {shift : Fin 8} {remaining : ℕ} {value : UInt64}
    (hlow : leNat body < 2 ^ (8 * byteIx + shift.val)) (hvalue : value.toNat < 2 ^ remaining)
    (hfit : 8 * byteIx + shift.val + remaining ≤ 8 * body.length) :
    leNat (packBits body byteIx shift remaining value)
        = leNat body + value.toNat * 2 ^ (8 * byteIx + shift.val) ∧
      (packBits body byteIx shift remaining value).length = body.length := by
  induction remaining using Nat.strong_induction_on generalizing body byteIx shift value with
  | _ remaining ih =>
    rw [packBits]
    split
    · next hz =>
      subst hz
      have : value.toNat = 0 := by simpa using hvalue
      simp [this]
    · next hz =>
      dsimp only
      set t := min (8 - shift.val) remaining with ht
      set chunk := (value &&& ((1 <<< UInt64.ofNat t) - 1)).toUInt8 with hchunk
      have hc : chunk.toNat = value.toNat % 2 ^ t := toNat_takeMask value (by omega)
      have hclt : chunk.toNat < 2 ^ t := by
        rw [hc]
        exact Nat.mod_lt _ (by positivity)
      have hpos : 2 ^ (8 * byteIx + shift.val) = 256 ^ byteIx * 2 ^ shift.val := by
        rw [Nat.pow_add, Nat.pow_mul]
      have hcbyte : chunk.toNat * 2 ^ shift.val < 256 := by
        calc chunk.toNat * 2 ^ shift.val < 2 ^ t * 2 ^ shift.val :=
              Nat.mul_lt_mul_of_pos_right hclt (by positivity)
          _ ≤ 2 ^ 8 := by
              rw [← Nat.pow_add]
              exact Nat.pow_le_pow_right (by decide) (by omega)
      have hor := leNat_modify_or body byteIx (by omega) (hpos ▸ hlow) hcbyte
      set body' := body.modify byteIx (· ||| (chunk <<< UInt8.ofNat shift.val)) with hbody'
      have hlen : body'.length = body.length := List.length_modify _ _ _
      have hsum : leNat body' = leNat body + chunk.toNat * 2 ^ (8 * byteIx + shift.val) := by
        rw [hor, hpos]
        ring
      have hshift : (value >>> UInt64.ofNat t).toNat = value.toNat / 2 ^ t :=
        toNat_shiftRight_ofNat _ (by omega)
      have hlow' : leNat body' < 2 ^ (8 * byteIx + shift.val + t) := by
        have : chunk.toNat * 2 ^ (8 * byteIx + shift.val) + 2 ^ (8 * byteIx + shift.val)
            ≤ 2 ^ t * 2 ^ (8 * byteIx + shift.val) := by
          rw [← Nat.succ_mul]
          exact Nat.mul_le_mul_right _ hclt
        rw [hsum, Nat.pow_add 2 (8 * byteIx + shift.val) t, Nat.mul_comm _ (2 ^ t)]
        omega
      have hvalue' : (value >>> UInt64.ofNat t).toNat < 2 ^ (remaining - t) := by
        rw [hshift, Nat.div_lt_iff_lt_mul (by positivity), ← Nat.pow_add,
          Nat.sub_add_cancel (by omega)]
        exact hvalue
      by_cases hlast : remaining - t = 0
      · -- the value ends inside this byte
        have hvt : value.toNat < 2 ^ t := by rwa [show t = remaining by omega]
        rw [hlast, packBits, if_pos rfl, hsum, hc, Nat.mod_eq_of_lt hvt]
        exact ⟨rfl, hlen⟩
      · -- the byte is full: on to bit 0 of the next
        have hnext : 8 * byteIx + shift.val + t = 8 * (byteIx + 1) + (0 : Fin 8).val := by
          simp only [Fin.val_zero]
          omega
        have hfit' : 8 * (byteIx + 1) + (0 : Fin 8).val + (remaining - t) ≤ 8 * body'.length := by
          rw [hlen, ← hnext]
          omega
        rw [hnext] at hlow'
        obtain ⟨hval, hlen'⟩ := ih (remaining - t) (by omega) hlow' hvalue' hfit'
        rw [hval, hlen', hlen, hsum, hshift, ← hnext, hc, Nat.pow_add _ _ t]
        refine ⟨?_, rfl⟩
        have hsplit := Nat.mod_add_div value.toNat (2 ^ t)
        calc leNat body + value.toNat % 2 ^ t * 2 ^ (8 * byteIx + shift.val)
              + value.toNat / 2 ^ t * (2 ^ (8 * byteIx + shift.val) * 2 ^ t)
            = leNat body + (value.toNat % 2 ^ t + 2 ^ t * (value.toNat / 2 ^ t))
                * 2 ^ (8 * byteIx + shift.val) := by ring
          _ = _ := by rw [hsplit]

/-- The number formed by indices as digits in base `2 ^ bw`. -/
def digitsNat (bw : ℕ) (indices : List UInt32) : ℕ :=
  Nat.ofDigits (2 ^ bw) (indices.map UInt32.toNat)

theorem packFrom_eq {bw : ℕ} {body : Bytes} {i : ℕ} {indices : List UInt32}
    (hlow : leNat body < 2 ^ (i * bw)) (hall : ∀ v ∈ indices, v.toNat < 2 ^ bw)
    (hfit : (i + indices.length) * bw ≤ 8 * body.length) :
    leNat (packFrom bw body i indices)
        = leNat body + digitsNat bw indices * 2 ^ (i * bw) ∧
      (packFrom bw body i indices).length = body.length := by
  induction indices generalizing body i with
  | nil => simp [packFrom, digitsNat]
  | cons v rest ih =>
    have hv : v.toUInt64.toNat < 2 ^ bw := by
      rw [UInt32.toNat_toUInt64]
      exact hall v List.mem_cons_self
    have hpos : 8 * (i * bw / 8) + i * bw % 8 = i * bw := Nat.div_add_mod _ _
    rw [List.length_cons] at hfit
    have hstep : (i + 1) * bw ≤ (i + (rest.length + 1)) * bw := Nat.mul_le_mul_right _ (by omega)
    rw [Nat.succ_mul] at hstep
    set shift : Fin 8 := ⟨i * bw % 8, Nat.mod_lt _ (by decide)⟩ with hs
    have hpos : 8 * (i * bw / 8) + shift.val = i * bw := hpos
    obtain ⟨hval, hlen⟩ := packBits_eq (hpos ▸ hlow) hv (by omega)
    rw [hpos, UInt32.toNat_toUInt64] at hval
    rw [UInt32.toNat_toUInt64] at hv
    set body' := packBits body (i * bw / 8) shift bw v.toUInt64 with hbody'
    have hlow' : leNat body' < 2 ^ ((i + 1) * bw) := by
      have : (v.toNat + 1) * 2 ^ (i * bw) ≤ 2 ^ bw * 2 ^ (i * bw) := Nat.mul_le_mul_right _ hv
      rw [hval, Nat.succ_mul i bw, Nat.pow_add, Nat.mul_comm (2 ^ (i * bw))]
      rw [Nat.succ_mul] at this
      omega
    have hfit' : (i + 1 + rest.length) * bw ≤ 8 * body'.length := by
      rwa [hlen, show i + 1 + rest.length = i + (rest.length + 1) by omega]
    obtain ⟨hval', hlen'⟩ := ih hlow' (fun x hx => hall x (List.mem_cons_of_mem _ hx)) hfit'
    rw [packFrom, ← hs, ← hbody', hval', hlen', hlen, hval, digitsNat, digitsNat, List.map_cons,
      Nat.ofDigits_cons, Nat.succ_mul i bw, Nat.pow_add]
    exact ⟨by ring, rfl⟩

/-- **Packing** writes the indices as digits in base `2 ^ bw`. -/
theorem leNat_packLsbFirst {bw : ℕ} {indices : List UInt32} (h8 : indices.length % 8 = 0)
    (hall : ∀ v ∈ indices, v.toNat < 2 ^ bw) :
    leNat (packLsbFirst indices bw) = digitsNat bw indices ∧
      (packLsbFirst indices bw).length = indices.length / 8 * bw := by
  have hlen : 8 * (indices.length / 8 * bw) = indices.length * bw := by
    rw [← Nat.mul_assoc, Nat.mul_div_cancel' (Nat.dvd_of_mod_eq_zero h8)]
  have hzero : leNat (List.replicate (indices.length / 8 * bw) 0) < 2 ^ (0 * bw) := by
    rw [leNat_replicate_zero]
    positivity
  have hfit : (0 + indices.length) * bw
      ≤ 8 * (List.replicate (indices.length / 8 * bw) (0 : UInt8)).length := by
    rw [List.length_replicate, hlen, Nat.zero_add]
  obtain ⟨hval, hlen'⟩ := packFrom_eq hzero hall hfit
  rw [leNat_replicate_zero, Nat.zero_add, Nat.zero_mul, Nat.pow_zero, Nat.mul_one] at hval
  rw [List.length_replicate] at hlen'
  exact ⟨hval, hlen'⟩

/-- The digits of packed indices are the indices. -/
theorem lowDigits_packLsbFirst {bw n : ℕ} {indices : List UInt32}
    (h8 : indices.length % 8 = 0) (hall : ∀ v ∈ indices, v.toNat < 2 ^ bw)
    (hn : n ≤ indices.length) :
    lowDigits (2 ^ bw) n (leNat (packLsbFirst indices bw)) = (indices.take n).map UInt32.toNat := by
  have hdigits : ∀ d ∈ indices.map UInt32.toNat, d < 2 ^ bw := by
    intro d hd
    obtain ⟨v, hv, rfl⟩ := List.mem_map.mp hd
    exact hall v hv
  rw [(leNat_packLsbFirst h8 hall).1, digitsNat,
    lowDigits_ofDigits hdigits (by rwa [List.length_map]), List.map_take]

theorem length_valueBytesLe (v : UInt32) (k : ℕ) : (valueBytesLe v k).length = k := by
  rw [valueBytesLe, List.length_map, List.length_range]

theorem leNat_valueBytesLe (v : UInt32) {k : ℕ} (hk : k ≤ 8) :
    leNat (valueBytesLe v k) = v.toNat % 256 ^ k := by
  induction k with
  | zero => rw [Nat.pow_zero, Nat.mod_one]; rfl
  | succ k ih =>
    have hbyte : ((v.toUInt64 >>> UInt64.ofNat (k * 8)).toUInt8).toNat
        = v.toNat / 256 ^ k % 256 := by
      rw [UInt64.toNat_toUInt8, toNat_shiftRight_ofNat _ (by omega), UInt32.toNat_toUInt64,
        Nat.mul_comm k 8, Nat.pow_mul]
    have hsucc : valueBytesLe v (k + 1)
        = valueBytesLe v k ++ [(v.toUInt64 >>> UInt64.ofNat (k * 8)).toUInt8] := by
      rw [valueBytesLe, List.range_succ, List.map_append]
      rfl
    rw [hsucc, leNat_append, length_valueBytesLe, ih (by omega), leNat_cons, leNat_nil, hbyte,
      Nat.mul_zero, Nat.add_zero, Nat.pow_succ, Nat.mod_mul]

/-- The value of an RLE run is read back. -/
theorem accumulateLe_valueBytesLe {v : UInt32} {bw : ℕ} (hv : v.toNat < 2 ^ bw) (hbw : bw ≤ 32) :
    accumulateLe (valueBytesLe v (divCeil bw 8)) = v.toUInt64 := by
  have hk : divCeil bw 8 ≤ 4 := by
    rw [divCeil]
    omega
  have hpow : 2 ^ bw ≤ 256 ^ divCeil bw 8 := by
    rw [show (256 : ℕ) = 2 ^ 8 from rfl, ← Nat.pow_mul, divCeil]
    exact Nat.pow_le_pow_right (by decide) (by omega)
  refine UInt64.toNat_inj.mp ?_
  rw [toNat_accumulateLe _ (by rw [length_valueBytesLe]; omega), leNat_valueBytesLe _ (by omega),
    Nat.mod_eq_of_lt (by omega), UInt32.toNat_toUInt64]

/-! ## Runs -/

/-- A run of the hybrid encoding. -/
inductive Run where
  | rle (count : ℕ) (value : UInt32)
  | packed (values : List UInt32)

namespace Run

/-- The values of a run. -/
def values : Run → List UInt32
  | rle count value => List.replicate count value
  | packed vs => vs

/-- The bytes of a run. -/
def encode (bw : ℕ) : Run → Bytes
  | rle count value => rleRun count value bw
  | packed vs => bitPackedRun vs bw

/-- A run a writer may emit: values that fit the width, not empty, groups of
    8 if packed, and small enough for the header and the bit positions. -/
structure Fits (bw : ℕ) (r : Run) : Prop where
  lt : ∀ v ∈ r.values, v.toNat < 2 ^ bw
  pos : 0 < r.values.length
  small : r.values.length * 32 < 2 ^ 64
  groups : ∀ vs, r = packed vs → vs.length % 8 = 0

end Run

/-- The values of a sequence of runs. -/
abbrev runValues (runs : List Run) : List UInt32 := runs.flatMap Run.values

/-- The text of a sequence of runs. -/
abbrev encodeAll (bw : ℕ) (runs : List Run) : Bytes := runs.flatMap (Run.encode bw)

/-! ## The encoders emit runs -/

theorem length_padToGroups (vs : List UInt32) : (padToGroups vs).length = divCeil vs.length 8 * 8 := by
  rw [padToGroups, List.length_append, List.length_replicate, divCeil]
  omega

theorem padToGroups_fits {bw : ℕ} {vs : List UInt32} (hne : vs ≠ [])
    (hlt : ∀ v ∈ vs, v.toNat < 2 ^ bw) (hsmall : vs.length * 32 < 2 ^ 63) :
    (Run.packed (padToGroups vs)).Fits bw := by
  have hpos : 0 < vs.length := List.length_pos_iff.mpr hne
  have hlen := length_padToGroups vs
  rw [divCeil] at hlen
  refine ⟨fun v hv => ?_, ?_, ?_, ?_⟩
  · rcases List.mem_append.mp hv with hv | hv
    · exact hlt v hv
    · rw [List.eq_of_mem_replicate hv]
      positivity
  · simp only [Run.values]
    omega
  · simp only [Run.values]
    omega
  · rintro _ ⟨⟩
    omega

/-- The values equal to the head, then the rest: the list itself. -/
theorem replicate_append_dropWhile (v : UInt32) (rest : List UInt32) :
    List.replicate (rest.takeWhile (· == v)).length v ++ rest.dropWhile (· == v) = rest := by
  have hall : ∀ x ∈ rest.takeWhile (· == v), x = v := fun x hx =>
    beq_iff_eq.mp (List.all_eq_true.mp List.all_takeWhile x hx)
  rw [← List.eq_replicate_of_mem hall, List.takeWhile_append_dropWhile]

/-- An aligned bit-pack accumulator is flushed as one run, or none. -/
theorem flush_eq (bw : ℕ) {pending : List UInt32} (out : Bytes)
    (h8 : pending.length % 8 = 0) (hlt : ∀ v ∈ pending, v.toNat < 2 ^ bw)
    (hsmall : pending.length * 32 < 2 ^ 64) :
    ∃ runs, (if pending = [] then out else out ++ bitPackedRun pending bw)
        = out ++ encodeAll bw runs ∧ runValues runs = pending ∧ ∀ r ∈ runs, r.Fits bw := by
  split
  · next hp => exact ⟨[], by simp, by simp [hp], by simp⟩
  · next hp =>
    refine ⟨[.packed pending], by simp [Run.encode], by simp [Run.values], fun r hr => ?_⟩
    rw [List.mem_singleton.mp hr]
    exact ⟨hlt, List.length_pos_iff.mpr hp, hsmall, by rintro _ ⟨⟩; exact h8⟩

/-- **The coalescing encoder emits runs**: by induction over the indices that
    remain, what it appends to `out` are runs of the pending values and of
    these indices, padded with zeros at the very end only. -/
theorem encodeRuns_eq (bw : ℕ) (pending : List UInt32) (out : Bytes) (indices : List UInt32)
    (hlt : ∀ v ∈ pending ++ indices, v.toNat < 2 ^ bw)
    (hsmall : (pending ++ indices).length * 32 < 2 ^ 63) :
    ∃ runs k, encodeRuns bw pending out indices = out ++ encodeAll bw runs ∧
      runValues runs = pending ++ indices ++ List.replicate k 0 ∧
      ∀ r ∈ runs, r.Fits bw := by
  induction hn : indices.length using Nat.strong_induction_on
    generalizing pending out indices with
  | _ n ih =>
  cases indices with
  | nil =>
    rw [encodeRuns]
    split
    · next hp => exact ⟨[], 0, by simp [hp]⟩
    · next hp =>
      rw [List.append_nil] at hlt hsmall
      refine ⟨[.packed (padToGroups pending)], divCeil pending.length 8 * 8 - pending.length,
        ?_, ?_, ?_⟩
      · simp [Run.encode]
      · simp [Run.values, padToGroups]
      · intro r hr
        rw [List.mem_singleton.mp hr]
        exact padToGroups_fits hp hlt hsmall
  | cons v rest =>
    have hrest := replicate_append_dropWhile v rest
    rw [encodeRuns]
    dsimp only
    generalize hl : (rest.takeWhile (· == v)).length = l at hrest ⊢
    generalize hnext : rest.dropWhile (· == v) = next at hrest ⊢
    have hcons : v :: rest = List.replicate (1 + l) v ++ next := by
      rw [Nat.add_comm, List.replicate_succ, List.cons_append, hrest]
    have hshort : next.length < n := by
      rw [← hn, hcons, List.length_append, List.length_replicate]
      omega
    generalize hborrow : (if pending.length % 8 = 0 then 0 else 8 - pending.length % 8) = borrow
    have haligned : (pending.length + borrow) % 8 = 0 := by
      split at hborrow <;> omega
    have hv : v.toNat < 2 ^ bw := hlt v (by simp)
    have hnextlt : ∀ x ∈ next, x.toNat < 2 ^ bw := fun x hx => hlt x (by simp [hcons, hx])
    have hreplicate : ∀ m, ∀ x ∈ pending ++ List.replicate m v, x.toNat < 2 ^ bw := by
      intro m x hx
      rcases List.mem_append.mp hx with hx | hx
      · exact hlt x (by simp [hx])
      · rwa [List.eq_of_mem_replicate hx]
    rw [hcons, List.length_append, List.length_append, List.length_replicate] at hsmall
    split
    · -- the repetition is worth an RLE run, once it has aligned the pending values
      next hworth =>
      rw [rleThreshold] at hworth
      have hrle : (Run.rle (1 + l - borrow) v).Fits bw := by
        refine ⟨fun x hx => ?_, ?_, ?_, by rintro _ ⟨⟩⟩
        · rwa [List.eq_of_mem_replicate hx]
        · rw [Run.values, List.length_replicate]
          omega
        · rw [Run.values, List.length_replicate]
          omega
      obtain ⟨flushed, hflush, hflushed, hfits⟩ := flush_eq bw out
        (by rw [List.length_append, List.length_replicate]; exact haligned) (hreplicate borrow)
        (by rw [List.length_append, List.length_replicate]; omega)
      rw [hflush]
      obtain ⟨runs, k, hout, hruns, hfits'⟩ := ih next.length hshort []
        (out ++ encodeAll bw flushed ++ rleRun (1 + l - borrow) v bw) next hnextlt
        (by rw [List.nil_append]; omega) rfl
      refine ⟨flushed ++ .rle (1 + l - borrow) v :: runs, k, ?_, ?_, ?_⟩
      · rw [hout]
        simp [encodeAll, Run.encode]
      · have hsplit : List.replicate (1 + l) v
            = List.replicate borrow v ++ List.replicate (1 + l - borrow) v := by
          rw [← List.replicate_add, Nat.add_sub_cancel' (by omega)]
        rw [runValues] at hruns hflushed
        rw [runValues, List.flatMap_append, List.flatMap_cons, hruns, hflushed, hcons, hsplit]
        simp only [Run.values, List.nil_append, List.append_assoc]
      · intro r hr
        rcases List.mem_append.mp hr with hr | hr
        · exact hfits r hr
        · rcases List.mem_cons.mp hr with rfl | hr
          · exact hrle
          · exact hfits' r hr
    · -- too short: the whole repetition joins the pending values
      have hall : ∀ x ∈ pending ++ List.replicate (1 + l) v ++ next, x.toNat < 2 ^ bw := by
        intro x hx
        rcases List.mem_append.mp hx with hx | hx
        · exact hreplicate _ x hx
        · exact hnextlt x hx
      obtain ⟨runs, k, hout, hruns, hfits⟩ := ih next.length hshort
        (pending ++ List.replicate (1 + l) v) out next hall
        (by simp only [List.length_append, List.length_replicate]; omega) rfl
      exact ⟨runs, k, hout, by rw [hruns, hcons, List.append_assoc pending], hfits⟩

/-! ## The decoding loop on runs -/

/-- What a decoder's handlers make of the values of a run that starts at a
    given position of the output: `emit e vs`, for values that satisfy `P`. -/
structure Handles (bw : ℕ) (P : UInt32 → Prop)
    (onPacked onRle : ℕ → Bytes → ℕ → Res CodecError (List α))
    (emit : ℕ → List UInt32 → List α) : Prop where
  packed : ∀ e vs n, vs.length % 8 = 0 → (∀ v ∈ vs, v.toNat < 2 ^ bw) → n ≤ vs.length →
    (∀ v ∈ vs.take n, P v) → onPacked e (packLsbFirst vs bw) n = .ok (emit e (vs.take n))
  rle : ∀ e v n, v.toNat < 2 ^ bw → P v →
    onRle e (valueBytesLe v (divCeil bw 8)) n = .ok (emit e (List.replicate n v))
  append : ∀ e xs ys, emit e (xs ++ ys) = emit e xs ++ emit (e + xs.length) ys

theorem header_packed {g : ℕ} (hg : g < 2 ^ 63) :
    ((UInt64.ofNat g <<< 1) ||| 1) &&& 1 = 1 ∧
      (((UInt64.ofNat g <<< 1) ||| 1) >>> 1).toNat = g := by
  have hshift : (UInt64.ofNat g <<< 1).toNat = g * 2 := by
    rw [UInt64.toNat_shiftLeft, UInt64.toNat_ofNat_of_lt' (show g < 2 ^ 64 by omega),
      Nat.shiftLeft_eq]
    exact Nat.mod_eq_of_lt (by change g * 2 < 2 ^ 64; omega)
  have hor : ((UInt64.ofNat g <<< 1) ||| 1).toNat = g * 2 + 1 := by
    rw [UInt64.toNat_or, hshift, Nat.mul_comm]
    exact (Nat.two_pow_add_eq_or_of_lt (i := 1) (b := 1) (by decide) g).symm
  refine ⟨UInt64.toNat_inj.mp ?_, ?_⟩
  · rw [UInt64.toNat_and, hor]
    refine (Nat.and_two_pow_sub_one_eq_mod _ 1).trans ?_
    change (g * 2 + 1) % 2 ^ 1 = 1
    omega
  · rw [UInt64.toNat_shiftRight, hor, Nat.shiftRight_eq_div_pow]
    change (g * 2 + 1) / 2 ^ 1 = g
    omega

theorem header_rle {c : ℕ} (hc : c < 2 ^ 63) :
    ¬ (UInt64.ofNat c <<< 1) &&& 1 = 1 ∧ ((UInt64.ofNat c <<< 1) >>> 1).toNat = c := by
  have hshift : (UInt64.ofNat c <<< 1).toNat = c * 2 := by
    rw [UInt64.toNat_shiftLeft, UInt64.toNat_ofNat_of_lt' (show c < 2 ^ 64 by omega),
      Nat.shiftLeft_eq]
    exact Nat.mod_eq_of_lt (by change c * 2 < 2 ^ 64; omega)
  refine ⟨fun h => ?_, ?_⟩
  · have h1 := congrArg UInt64.toNat h
    rw [UInt64.toNat_and, hshift] at h1
    have h2 : c * 2 % 2 = 1 := (Nat.and_two_pow_sub_one_eq_mod _ 1).symm.trans h1
    omega
  · rw [UInt64.toNat_shiftRight, hshift, Nat.shiftRight_eq_div_pow]
    change c * 2 / 2 ^ 1 = c
    omega

section
variable {bw numValues : ℕ} {P : UInt32 → Prop}
  {onPacked onRle : ℕ → Bytes → ℕ → Res CodecError (List α)} {emit : ℕ → List UInt32 → List α}

theorem run_wire_readUvarint (v : UInt64) (t : Bytes) :
    (wire readUvarint).run (writeUvarint v ++ t) = .ok (v, t) :=
  run_wire_ok (run_readUvarint_writeUvarint v t)

theorem run_wire_take {n : ℕ} {bs : Bytes} (hn : bs.length = n) (t : Bytes) :
    (wire (take n)).run (bs ++ t) = .ok (bs, t) := by
  subst hn
  exact run_wire_ok (by simp [take])

/-- What the handler of a run returns for its first `n` values. -/
def Run.handle (onPacked onRle : ℕ → Bytes → ℕ → Res CodecError (List α)) (bw e n : ℕ) :
    Run → Res CodecError (List α)
  | .rle _ v => onRle e (valueBytesLe v (divCeil bw 8)) n
  | .packed vs => onPacked e (packLsbFirst vs bw) n

/-- One turn of the loop hands one run to its handler. -/
theorem hybridLoop_step_eq (hbw : bw ≤ 32) {r : Run} (hr : r.Fits bw) {e : ℕ} (out : List α)
    (he : e < numValues) (t : Bytes) :
    ((hybridLoop bw numValues onPacked onRle).step (e, out)).run (r.encode bw ++ t)
      = (do
          let vs ← Reader.lift (r.handle onPacked onRle bw e (min (numValues - e) r.values.length))
          pure (.inl (e + min (numValues - e) r.values.length, out ++ vs)) :
            CodecM ((ℕ × List α) ⊕ List α)).run t := by
  have hsmall := hr.small
  cases r with
  | rle count v =>
    have hpos := hr.pos
    rw [Run.values, List.length_replicate] at hsmall hpos
    obtain ⟨hbit, hcount⟩ := header_rle (c := count) (by omega)
    simp only [hybridLoop, if_pos he]
    rw [Run.encode, rleRun, List.append_assoc, Reader.run_bind_ok (run_wire_readUvarint _ _),
      if_neg hbit, Reader.run_bind_ok (run_wire_take (length_valueBytesLe v _) t), hcount,
      Run.values, List.length_replicate]
    rfl
  | packed vs =>
    have h8 := hr.groups vs rfl
    rw [Run.values] at hsmall
    obtain ⟨hbit, hgroups⟩ := header_packed (g := vs.length / 8) (by omega)
    obtain ⟨-, hlen⟩ := leNat_packLsbFirst h8 hr.lt
    have hmul : vs.length * bw ≤ vs.length * 32 := Nat.mul_le_mul_left _ hbw
    have husize : usizeBound = 2 ^ 64 := rfl
    have htotal : vs.length / 8 * 8 % usizeBound = vs.length := by
      rw [Nat.div_mul_cancel (Nat.dvd_of_mod_eq_zero h8), Nat.mod_eq_of_lt (by omega)]
    have hneeded : (packLsbFirst vs bw).length = divCeil (vs.length * bw % usizeBound) 8 := by
      have h8bw : vs.length * bw = 8 * (vs.length / 8 * bw) := by
        rw [← Nat.mul_assoc, Nat.mul_div_cancel' (Nat.dvd_of_mod_eq_zero h8)]
      rw [hlen, Nat.mod_eq_of_lt (by omega), h8bw, divCeil]
      omega
    simp only [hybridLoop, if_pos he]
    rw [Run.encode, bitPackedRun, List.append_assoc,
      Reader.run_bind_ok (run_wire_readUvarint _ _), if_pos hbit, hgroups, htotal,
      Reader.run_bind_ok (run_wire_take hneeded t)]
    rfl

/-- One turn of the loop takes one run. -/
theorem hybridLoop_step (hH : Handles bw P onPacked onRle emit) (hbw : bw ≤ 32) {r : Run}
    (hr : r.Fits bw) {e : ℕ} (out : List α) (he : e < numValues)
    (hP : ∀ v ∈ r.values.take (numValues - e), P v) (t : Bytes) :
    ((hybridLoop bw numValues onPacked onRle).step (e, out)).run (r.encode bw ++ t)
      = .ok (.inl (e + min (numValues - e) r.values.length,
          out ++ emit e (r.values.take (numValues - e))), t) := by
  have hhandle : r.handle onPacked onRle bw e (min (numValues - e) r.values.length)
      = .ok (emit e (r.values.take (numValues - e))) := by
    cases r with
    | rle count v =>
      have hpos := hr.pos
      rw [Run.values, List.length_replicate] at hpos
      have hv : v.toNat < 2 ^ bw := hr.lt v (List.mem_replicate.mpr ⟨by omega, rfl⟩)
      have hPv : P v := by
        refine hP v ?_
        rw [Run.values, List.take_replicate]
        exact List.mem_replicate.mpr ⟨by omega, rfl⟩
      rw [Run.handle, hH.rle _ _ _ hv hPv, Run.values, List.take_replicate, List.length_replicate]
    | packed vs =>
      rw [Run.values] at hP
      rw [Run.handle, Run.values, hH.packed e vs (min (numValues - e) vs.length) (hr.groups vs rfl)
        hr.lt (Nat.min_le_right _ _) (by rwa [← List.take_eq_take_min]), ← List.take_eq_take_min]
  rw [hybridLoop_step_eq hbw hr out he, hhandle]
  rfl

/-- **The decoding loop on runs**: from position `e`, the handlers are handed
    the values of the runs, in order, up to `numValues`. -/
theorem hybridLoop_runs (hH : Handles bw P onPacked onRle emit) (hbw : bw ≤ 32)
    {runs : List Run} (hfits : ∀ r ∈ runs, r.Fits bw) (e : ℕ) (out : List α) (t : Bytes)
    (henough : numValues - e ≤ (runValues runs).length)
    (hP : ∀ v ∈ (runValues runs).take (numValues - e), P v) :
    ∃ rest, ((hybridLoop bw numValues onPacked onRle).run (e, out)).run (encodeAll bw runs ++ t)
      = .ok (out ++ emit e ((runValues runs).take (numValues - e)), rest) := by
  have hnil : ∀ e, emit e [] = [] := fun e => by
    have h := hH.append e [] []
    simpa using h
  have hdone : ∀ e out (bs : Bytes), ¬ e < numValues →
      ((hybridLoop bw numValues onPacked onRle).run (e, out)).run bs = .ok (out, bs) := by
    intro e out bs he
    exact Loop.run_of_inr _ (by simp only [hybridLoop, if_neg he]; rfl)
  induction runs generalizing e out with
  | nil =>
    have he : ¬ e < numValues := by
      simp only [runValues, List.flatMap_nil, List.length_nil] at henough
      omega
    exact ⟨t, by rw [runValues, List.flatMap_nil, List.take_nil, hnil, List.append_nil]; exact hdone _ _ _ he⟩
  | cons r runs ih =>
    by_cases he : e < numValues
    · rw [runValues, List.flatMap_cons, List.length_append] at henough
      rw [runValues, List.flatMap_cons, List.take_append] at hP ⊢
      set n := min (numValues - e) r.values.length with hn
      have hremaining : numValues - (e + n) = numValues - e - r.values.length := by omega
      have henough' : numValues - (e + n) ≤ (runValues runs).length := by
        rw [hremaining, runValues]
        omega
      obtain ⟨rest, hrest⟩ := ih (fun r' hr' => hfits r' (List.mem_cons_of_mem _ hr')) (e + n)
        (out ++ emit e (r.values.take (numValues - e))) henough'
        (fun v hv => hP v (List.mem_append_right _ (by rwa [hremaining] at hv)))
      refine ⟨rest, ?_⟩
      rw [encodeAll, List.flatMap_cons, List.append_assoc, Loop.run_of_inl _ (hybridLoop_step hH hbw
        (hfits r List.mem_cons_self) out he (fun v hv => hP v (List.mem_append_left _ hv)) _)]
      rw [hrest, hremaining, hH.append, List.length_take, List.append_assoc]
    · exact ⟨_, by
        rw [show numValues - e = 0 by omega, List.take_zero, hnil, List.append_nil]
        exact hdone _ _ _ he⟩

/-- A whole stream of runs, decoded. -/
theorem hybridDecode_runs (hH : Handles bw P onPacked onRle emit) (hbw : bw ≤ 32)
    {runs : List Run} (hfits : ∀ r ∈ runs, r.Fits bw) (t : Bytes)
    (henough : numValues ≤ (runValues runs).length)
    (hP : ∀ v ∈ (runValues runs).take numValues, P v) :
    hybridDecode bw numValues onPacked onRle (encodeAll bw runs ++ t)
      = .ok (emit 0 ((runValues runs).take numValues)) := by
  obtain ⟨rest, h⟩ := hybridLoop_runs hH hbw hfits 0 [] t henough hP
  rw [hybridDecode, h]
  rfl

/-- The handlers return only for values that satisfy `P`. -/
structure Checks (bw : ℕ) (P : UInt32 → Prop)
    (onPacked onRle : ℕ → Bytes → ℕ → Res CodecError (List α)) : Prop where
  packed : ∀ e vs n out, vs.length % 8 = 0 → (∀ v ∈ vs, v.toNat < 2 ^ bw) → n ≤ vs.length →
    onPacked e (packLsbFirst vs bw) n = .ok out → ∀ v ∈ vs.take n, P v
  rle : ∀ e v n out, v.toNat < 2 ^ bw →
    onRle e (valueBytesLe v (divCeil bw 8)) n = .ok out → P v

theorem Checks.handle (hC : Checks bw P onPacked onRle) {r : Run} (hr : r.Fits bw) {e n : ℕ}
    {out : List α} (h : r.handle onPacked onRle bw e (min n r.values.length) = .ok out) :
    ∀ v ∈ r.values.take n, P v := by
  cases r with
  | rle count v =>
    have hpos := hr.pos
    rw [Run.values, List.length_replicate] at hpos
    have hv : v.toNat < 2 ^ bw := hr.lt v (List.mem_replicate.mpr ⟨by omega, rfl⟩)
    intro w hw
    rw [Run.values, List.take_replicate] at hw
    rw [List.eq_of_mem_replicate hw]
    exact hC.rle _ _ _ _ hv h
  | packed vs =>
    rw [Run.values, List.take_eq_take_min]
    exact hC.packed _ _ _ _ (hr.groups vs rfl) hr.lt (Nat.min_le_right _ _) h

/-- **The decoding loop returns** only when the runs hold enough values. -/
theorem hybridLoop_runs_ok (hC : Checks bw P onPacked onRle) (hbw : bw ≤ 32) {runs : List Run}
    (hfits : ∀ r ∈ runs, r.Fits bw) {e : ℕ} {out out' : List α} {rest : Bytes}
    (h : ((hybridLoop bw numValues onPacked onRle).run (e, out)).run (encodeAll bw runs)
      = .ok (out', rest)) :
    numValues - e ≤ (runValues runs).length ∧ ∀ v ∈ (runValues runs).take (numValues - e), P v := by
  induction runs generalizing e out with
  | nil =>
    by_cases he : e < numValues
    · obtain ⟨err, hstep⟩ : ∃ err,
          ((hybridLoop bw numValues onPacked onRle).step (e, out)).run [] = .error err :=
        ⟨_, by simp only [hybridLoop, if_pos he]; rfl⟩
      rw [encodeAll, List.flatMap_nil, Loop.run_of_error _ hstep] at h
      cases h
    · simp only [runValues, List.flatMap_nil, List.take_nil]
      exact ⟨by omega, by simp⟩
  | cons r runs ih =>
    by_cases he : e < numValues
    · have hr := hfits r List.mem_cons_self
      rw [encodeAll, List.flatMap_cons, Loop.run_eq, hybridLoop_step_eq hbw hr out he] at h
      cases hhandle : r.handle onPacked onRle bw e (min (numValues - e) r.values.length) with
      | error err =>
        rw [hhandle] at h
        cases h
      | ok vs =>
        rw [hhandle] at h
        obtain ⟨henough, hP⟩ := ih (fun r' hr' => hfits r' (List.mem_cons_of_mem _ hr')) h
        have hremaining : numValues - (e + min (numValues - e) r.values.length)
            = numValues - e - r.values.length := by omega
        rw [hremaining] at henough hP
        rw [runValues] at henough
        rw [runValues, List.flatMap_cons, List.length_append, List.take_append]
        refine ⟨by omega, fun v hv => ?_⟩
        rcases List.mem_append.mp hv with hv | hv
        · exact hC.handle hr hhandle v hv
        · exact hP v hv
    · rw [show numValues - e = 0 by omega, List.take_zero]
      exact ⟨Nat.zero_le _, by simp⟩

theorem hybridDecode_runs_ok (hC : Checks bw P onPacked onRle) (hbw : bw ≤ 32) {runs : List Run}
    (hfits : ∀ r ∈ runs, r.Fits bw) {out : List α}
    (h : hybridDecode bw numValues onPacked onRle (encodeAll bw runs) = .ok out) :
    numValues ≤ (runValues runs).length ∧ ∀ v ∈ (runValues runs).take numValues, P v := by
  obtain ⟨⟨out', rest⟩, hrun, -⟩ := map_eq_ok.mp h
  exact hybridLoop_runs_ok hC hbw hfits hrun

end

/-! ## Two decoders of one stream -/

section
variable {β : Type} {bw numValues : ℕ}
  {onPacked onRle : ℕ → Bytes → ℕ → Res CodecError (List α)}
  {onPacked' onRle' : ℕ → Bytes → ℕ → Res CodecError (List β)}

/-- A turn that ends the loop has found all values. -/
theorem hybridLoop_step_inr {e : ℕ} {out final : List α} {bs mid : Bytes}
    (h : ((hybridLoop bw numValues onPacked onRle).step (e, out)).run bs = .ok (.inr final, mid)) :
    ¬ e < numValues ∧ final = out ∧ mid = bs := by
  simp only [hybridLoop] at h
  by_cases he : e < numValues
  · rw [if_pos he] at h
    obtain ⟨header, mid₁, -, h⟩ := Reader.run_bind_eq_ok h
    split at h
    · obtain ⟨chunk, mid₂, -, h⟩ := Reader.run_bind_eq_ok h
      obtain ⟨vs, mid₃, -, h⟩ := Reader.run_bind_eq_ok h
      cases h
    · obtain ⟨chunk, mid₂, -, h⟩ := Reader.run_bind_eq_ok h
      obtain ⟨vs, mid₃, -, h⟩ := Reader.run_bind_eq_ok h
      cases h
  · rw [if_neg he] at h
    cases h
    exact ⟨he, rfl, rfl⟩

/-- A turn of the loop that goes on has handed a run to one of the handlers, and
    so does the same turn of any other loop. -/
theorem hybridLoop_step_inl {e : ℕ} {out : List α} {bs mid : Bytes} {s' : ℕ × List α}
    (h : ((hybridLoop bw numValues onPacked onRle).step (e, out)).run bs = .ok (.inl s', mid)) :
    ∃ chunk n vs, e < numValues ∧ n ≤ numValues - e ∧ s' = (e + n, out ++ vs) ∧
      ((onPacked e chunk n = .ok vs ∧ ∀ {β : Type}
          (onPacked' onRle' : ℕ → Bytes → ℕ → Res CodecError (List β)) out',
          ((hybridLoop bw numValues onPacked' onRle').step (e, out')).run bs
            = (fun vs' => (.inl (e + n, out' ++ vs'), mid)) <$> onPacked' e chunk n) ∨
        (onRle e chunk n = .ok vs ∧ ∀ {β : Type}
          (onPacked' onRle' : ℕ → Bytes → ℕ → Res CodecError (List β)) out',
          ((hybridLoop bw numValues onPacked' onRle').step (e, out')).run bs
            = (fun vs' => (.inl (e + n, out' ++ vs'), mid)) <$> onRle' e chunk n)) := by
  have hlift : ∀ {β : Type} (x : Res CodecError (List β)) (out' : List β) (n : ℕ) (mid : Bytes),
      ((Reader.lift x >>= fun vs => pure (.inl (e + n, out' ++ vs)) :
        Reader (Fault CodecError) ((ℕ × List β) ⊕ List β))).run mid
        = (fun vs' => (.inl (e + n, out' ++ vs'), mid)) <$> x := by
    intro β x out' n mid
    cases x <;> rfl
  simp only [hybridLoop] at h ⊢
  by_cases he : e < numValues
  · rw [if_pos he] at h
    simp only [if_pos he]
    obtain ⟨header, mid₁, hheader, h⟩ := Reader.run_bind_eq_ok h
    by_cases hbit : header &&& 1 = 1
    · rw [if_pos hbit] at h
      obtain ⟨chunk, mid₂, hchunk, h⟩ := Reader.run_bind_eq_ok h
      rw [hlift] at h
      obtain ⟨vs, hvs, h⟩ := map_eq_ok.mp h
      cases h
      refine ⟨chunk, _, vs, he, Nat.min_le_left _ _, rfl, .inl ⟨hvs, fun onPacked' onRle' out' => ?_⟩⟩
      rw [Reader.run_bind_ok hheader, if_pos hbit, Reader.run_bind_ok hchunk, hlift]
    · rw [if_neg hbit] at h
      obtain ⟨chunk, mid₂, hchunk, h⟩ := Reader.run_bind_eq_ok h
      rw [hlift] at h
      obtain ⟨vs, hvs, h⟩ := map_eq_ok.mp h
      cases h
      refine ⟨chunk, _, vs, he, Nat.min_le_left _ _, rfl, .inr ⟨hvs, fun onPacked' onRle' out' => ?_⟩⟩
      rw [Reader.run_bind_ok hheader, if_neg hbit, Reader.run_bind_ok hchunk, hlift]
  · rw [if_neg he] at h
    cases h

/-- **Decoders of one stream agree** when their handlers do on values that
    satisfy `P`, as all of them do in the end: if the first decoder returns, it
    has produced all values, and the second returns what `sel` makes of them. -/
theorem hybridDecode_simulates (P : α → Prop) (sel : ℕ → List α → List β)
    (hpacked : ∀ e chunk n vs, e + n ≤ numValues → onPacked e chunk n = .ok vs →
      vs.length = n ∧ ((∀ v ∈ vs, P v) → onPacked' e chunk n = .ok (sel e vs)))
    (hrle : ∀ e chunk n vs, e + n ≤ numValues → onRle e chunk n = .ok vs →
      vs.length = n ∧ ((∀ v ∈ vs, P v) → onRle' e chunk n = .ok (sel e vs)))
    (happend : ∀ e xs ys, sel e (xs ++ ys) = sel e xs ++ sel (e + xs.length) ys)
    {bytes : Bytes} {vs : List α}
    (h : hybridDecode bw numValues onPacked onRle bytes = .ok vs) :
    vs.length = numValues ∧
      ((∀ v ∈ vs, P v) → hybridDecode bw numValues onPacked' onRle' bytes = .ok (sel 0 vs)) := by
  have hnil : sel 0 [] = [] := by
    simpa using happend 0 [] []
  -- by induction on the bytes: what is out is the beginning of the result
  have hrun : ∀ m bs e out final rest, bs.length < m → e ≤ numValues → out.length = e →
      ((hybridLoop bw numValues onPacked onRle).run (e, out)).run bs = .ok (final, rest) →
      out <+: final ∧ final.length = numValues ∧ ((∀ v ∈ final, P v) →
        ((hybridLoop bw numValues onPacked' onRle').run (e, sel 0 out)).run bs
          = .ok (sel 0 final, rest)) := by
    intro m
    induction m with
    | zero => intro bs _ _ _ _ hm; omega
    | succ m ih =>
      intro bs e out final rest hm he hout hrun
      rw [Loop.run_eq] at hrun
      split at hrun
      · cases hrun
      · next hstep =>
        cases hrun
        obtain ⟨hdone, rfl, rfl⟩ := hybridLoop_step_inr hstep
        refine ⟨List.prefix_rfl, by omega, fun _ => Loop.run_of_inr _ ?_⟩
        simp only [hybridLoop, if_neg hdone]
        rfl
      · next s' mid hstep =>
        have hlt := (hybridLoop bw numValues onPacked onRle).consumes hstep
        obtain ⟨chunk, n, vs, hlt', hn, rfl, hhandled⟩ := hybridLoop_step_inl hstep
        -- either handler, in the second loop
        have hnext : vs.length = n ∧ ((∀ v ∈ vs, P v) →
            ((hybridLoop bw numValues onPacked' onRle').step (e, sel 0 out)).run bs
              = .ok (.inl (e + n, sel 0 (out ++ vs)), mid)) := by
          rw [happend, hout, Nat.zero_add]
          rcases hhandled with ⟨hok, hstep'⟩ | ⟨hok, hstep'⟩
          · obtain ⟨hlen, hsel⟩ := hpacked e chunk n vs (by omega) hok
            exact ⟨hlen, fun hP => (hstep' _ onRle' _).trans (by rw [hsel hP]; rfl)⟩
          · obtain ⟨hlen, hsel⟩ := hrle e chunk n vs (by omega) hok
            exact ⟨hlen, fun hP => (hstep' onPacked' _ _).trans (by rw [hsel hP]; rfl)⟩
        obtain ⟨hlen, hstep'⟩ := hnext
        obtain ⟨hpre, hfull, hrest⟩ := ih _ (e + n) (out ++ vs) final rest (by omega) (by omega)
          (by rw [List.length_append, hout, hlen]) hrun
        refine ⟨(List.prefix_append _ _).trans hpre, hfull, fun hP => ?_⟩
        have hvs : ∀ v ∈ vs, P v := fun v hv =>
          hP v (hpre.subset (List.mem_append_right _ hv))
        exact (Loop.run_of_inl _ (hstep' hvs)).trans (hrest hP)
  obtain ⟨⟨final, rest⟩, hfinal, hvs⟩ := map_eq_ok.mp h
  cases hvs
  obtain ⟨-, hlen, hsecond⟩ := hrun _ bytes 0 [] final rest (Nat.lt_succ_self _) (Nat.zero_le _) rfl
    hfinal
  refine ⟨hlen, fun hP => ?_⟩
  have hsecond := hsecond hP
  rw [hnil] at hsecond
  rw [hybridDecode, hsecond]
  rfl

/-- **Decoders of one stream are related** when their handlers are. -/
theorem hybridDecode_related {R : α → β → Prop}
    (hpacked : ∀ {e chunk n vs ws}, onPacked e chunk n = .ok vs → onPacked' e chunk n = .ok ws →
      List.Forall₂ R vs ws)
    (hrle : ∀ {e chunk n vs ws}, chunk.length = divCeil bw 8 → onRle e chunk n = .ok vs →
      onRle' e chunk n = .ok ws → List.Forall₂ R vs ws)
    {bytes : Bytes} {vs : List α} {ws : List β}
    (h : hybridDecode bw numValues onPacked onRle bytes = .ok vs)
    (h' : hybridDecode bw numValues onPacked' onRle' bytes = .ok ws) : List.Forall₂ R vs ws := by
  obtain ⟨⟨vs', rest⟩, hrun, rfl⟩ := map_eq_ok.mp h
  obtain ⟨⟨ws', rest'⟩, hrun', rfl⟩ := map_eq_ok.mp h'
  refine (hybridLoop bw numValues onPacked onRle).run_related
    (hybridLoop bw numValues onPacked' onRle')
    (fun s t => s.1 = t.1 ∧ List.Forall₂ R s.2 t.2) (List.Forall₂ R) ?_ ⟨rfl, .nil⟩ hrun hrun'
  rintro ⟨e, out⟩ ⟨e', out'⟩ bs r r' rest rest' ⟨he, hout⟩ hstep hstep'
  obtain rfl : e = e' := he
  simp only [hybridLoop] at hstep hstep'
  by_cases he : e < numValues
  · rw [if_pos he] at hstep hstep'
    obtain ⟨header, mid, hheader, hstep⟩ := Reader.run_bind_eq_ok hstep
    rw [Reader.run_bind_ok hheader] at hstep'
    by_cases hbit : header &&& 1 = 1
    · rw [if_pos hbit] at hstep hstep'
      obtain ⟨chunk, mid', hchunk, hstep⟩ := Reader.run_bind_eq_ok hstep
      rw [Reader.run_bind_ok hchunk] at hstep'
      obtain ⟨us, mid₁, hread, hstep⟩ := Reader.run_bind_eq_ok hstep
      obtain ⟨us', mid₂, hread', hstep'⟩ := Reader.run_bind_eq_ok hstep'
      obtain ⟨hus, rfl⟩ := Reader.run_lift_eq_ok.mp hread
      obtain ⟨hus', rfl⟩ := Reader.run_lift_eq_ok.mp hread'
      cases hstep
      cases hstep'
      exact ⟨rfl, .inl ⟨rfl, List.rel_append hout (hpacked hus hus')⟩⟩
    · rw [if_neg hbit] at hstep hstep'
      obtain ⟨chunk, mid', hchunk, hstep⟩ := Reader.run_bind_eq_ok hstep
      rw [Reader.run_bind_ok hchunk] at hstep'
      obtain ⟨us, mid₁, hread, hstep⟩ := Reader.run_bind_eq_ok hstep
      obtain ⟨us', mid₂, hread', hstep'⟩ := Reader.run_bind_eq_ok hstep'
      obtain ⟨hus, rfl⟩ := Reader.run_lift_eq_ok.mp hread
      obtain ⟨hus', rfl⟩ := Reader.run_lift_eq_ok.mp hread'
      cases hstep
      cases hstep'
      have hlen := (run_take_eq_ok hchunk).1
      refine ⟨rfl, .inl ⟨rfl, List.rel_append hout (hrle ?_ hus hus')⟩⟩
      rw [(run_take_eq_ok hchunk).2.1, List.length_take_of_le hlen]
  · rw [if_neg he] at hstep hstep'
    cases hstep
    cases hstep'
    exact ⟨rfl, .inr hout⟩

end

section
variable {bw numValues : ℕ} {onPacked onRle onRle' : ℕ → Bytes → ℕ → Res CodecError (List α)}
  {bytes : Bytes}

/-- The values of the RLE runs that a decoder of the stream meets. -/
def repeatedValues (bitWidth numValues : ℕ) (bytes : Bytes) : Res CodecError (List Bytes) :=
  hybridDecode bitWidth numValues (fun _ _ _ => .ok []) (fun _ chunk _ => .ok [chunk]) bytes

/-- These runs: the value, and how many of them are emitted. -/
def repeatedRuns (bitWidth numValues : ℕ) (bytes : Bytes) : Res CodecError (List (Bytes × ℕ)) :=
  hybridDecode bitWidth numValues (fun _ _ _ => .ok []) (fun _ chunk n => .ok [(chunk, n)]) bytes

/-- A decoder that checks RLE runs, and returns what another one does where
    they pass, returns iff all of them pass. -/
theorem hybridDecode_checkedRuns {check : Bytes → ℕ → Prop}
    (hpass : ∀ e chunk n vs, onRle e chunk n = .ok vs → check chunk n →
      onRle' e chunk n = .ok vs)
    (hcheck : ∀ e chunk n vs, onRle' e chunk n = .ok vs → check chunk n) {vs : List α}
    (h : hybridDecode bw numValues onPacked onRle bytes = .ok vs) :
    ∃ runs, repeatedRuns bw numValues bytes = .ok runs ∧
      ((∃ ws, hybridDecode bw numValues onPacked onRle' bytes = .ok ws) ↔
        ∀ r ∈ runs, check r.1 r.2) := by
  -- by induction on the bytes: what the rest of the stream holds
  have hrun : ∀ m bs e out r, bs.length < m →
      ((hybridLoop bw numValues onPacked onRle).run (e, out)).run bs = .ok r →
      ∃ runs, (∀ acc, ∃ rest, ((hybridLoop bw numValues (fun _ _ _ => .ok [])
          (fun _ chunk n => .ok [(chunk, n)])).run (e, acc)).run bs = .ok (acc ++ runs, rest)) ∧
        ((∃ r', ((hybridLoop bw numValues onPacked onRle').run (e, out)).run bs = .ok r') ↔
          ∀ r ∈ runs, check r.1 r.2) := by
    intro m
    induction m with
    | zero => intro bs _ _ _ hm; omega
    | succ m ih =>
      intro bs e out r hm hrun
      rw [Loop.run_eq] at hrun
      split at hrun
      · cases hrun
      · next hstep =>
        obtain ⟨hdone, -, -⟩ := hybridLoop_step_inr hstep
        refine ⟨[], fun acc => ⟨bs, ?_⟩, by simp, fun _ => ⟨(out, bs), ?_⟩⟩
        · rw [List.append_nil]
          exact Loop.run_of_inr _ (by simp only [hybridLoop, if_neg hdone]; rfl)
        · exact Loop.run_of_inr _ (by simp only [hybridLoop, if_neg hdone]; rfl)
      · next s' mid hstep =>
        have hlt := (hybridLoop bw numValues onPacked onRle).consumes hstep
        obtain ⟨chunk, n, us, -, -, rfl, hhandled⟩ := hybridLoop_step_inl hstep
        obtain ⟨runs, hruns, hiff⟩ := ih mid _ _ r (by omega) hrun
        rcases hhandled with ⟨hus, hloop⟩ | ⟨hus, hloop⟩
        · have hcheck' := hloop onPacked onRle' out
          rw [hus] at hcheck'
          refine ⟨runs, fun acc => ?_, ?_⟩
          · obtain ⟨rest, hrest⟩ := hruns acc
            refine ⟨rest, (Loop.run_of_inl _ (hloop _ _ acc)).trans ?_⟩
            rw [List.append_nil]
            exact hrest
          · rw [Loop.run_of_inl _ hcheck']
            exact hiff
        · refine ⟨(chunk, n) :: runs, fun acc => ?_, ?_⟩
          · obtain ⟨rest, hrest⟩ := hruns (acc ++ [(chunk, n)])
            refine ⟨rest, (Loop.run_of_inl _ (hloop _ _ acc)).trans ?_⟩
            rw [hrest, List.append_assoc]
            rfl
          · have hcheck' := hloop onPacked onRle' out
            rw [List.forall_mem_cons, ← hiff]
            constructor
            · rintro ⟨r', hr'⟩
              cases hvs : onRle' e chunk n with
              | error err =>
                rw [hvs] at hcheck'
                rw [Loop.run_of_error _ hcheck'] at hr'
                cases hr'
              | ok vs =>
                have hok := hcheck e chunk n vs hvs
                obtain rfl : vs = us :=
                  Except.ok.inj (hvs.symm.trans (hpass e chunk n us hus hok))
                rw [hvs] at hcheck'
                rw [Loop.run_of_inl _ hcheck'] at hr'
                exact ⟨hok, r', hr'⟩
            · rintro ⟨hok, r', hr'⟩
              rw [hpass e chunk n us hus hok] at hcheck'
              exact ⟨r', (Loop.run_of_inl _ hcheck').trans hr'⟩
  obtain ⟨r, hfirst, -⟩ := map_eq_ok.mp h
  obtain ⟨runs, hruns, hiff⟩ := hrun _ bytes 0 [] r (Nat.lt_succ_self _) hfirst
  obtain ⟨rest, hruns⟩ := hruns []
  refine ⟨runs, map_eq_ok.mpr ⟨_, hruns, rfl⟩, Iff.trans ?_ hiff⟩
  constructor
  · rintro ⟨ws, hws⟩
    obtain ⟨r', hr', -⟩ := map_eq_ok.mp hws
    exact ⟨r', hr'⟩
  · rintro ⟨r', hr'⟩
    exact ⟨_, map_eq_ok.mpr ⟨r', hr', rfl⟩⟩

/-- A decoder returns where another one does, if its handlers do. -/
theorem hybridDecode_ok {β : Type}
    {onPacked₂ onRle₂ : ℕ → Bytes → ℕ → Res CodecError (List β)}
    (hpacked : ∀ e chunk n vs, onPacked e chunk n = .ok vs → ∃ ws, onPacked₂ e chunk n = .ok ws)
    (hrle : ∀ e chunk n vs, onRle e chunk n = .ok vs → ∃ ws, onRle₂ e chunk n = .ok ws)
    {vs : List α} (h : hybridDecode bw numValues onPacked onRle bytes = .ok vs) :
    ∃ ws, hybridDecode bw numValues onPacked₂ onRle₂ bytes = .ok ws := by
  -- the turns of the two loops emit the same number of values
  have hturn : ∀ {s t bs r mid}, s.1 = t.1 →
      ((hybridLoop bw numValues onPacked onRle).step s).run bs = .ok (r, mid) →
      ∃ r', ((hybridLoop bw numValues onPacked₂ onRle₂).step t).run bs = .ok (r', mid) ∧
        Sum.LiftRel (fun s t : ℕ × List _ => s.1 = t.1) (fun _ _ => True) r r' := by
    rintro ⟨e, out⟩ ⟨e', out'⟩ bs r mid he hstep
    obtain rfl : e = e' := he
    rcases r with s' | final
    · obtain ⟨chunk, n, us, -, -, rfl, ⟨hus, hloop⟩ | ⟨hus, hloop⟩⟩ :=
          hybridLoop_step_inl hstep
      · obtain ⟨us', hus'⟩ := hpacked e chunk n us hus
        exact ⟨_, (hloop _ _ out').trans (by rw [hus']; rfl), .inl rfl⟩
      · obtain ⟨us', hus'⟩ := hrle e chunk n us hus
        exact ⟨_, (hloop _ _ out').trans (by rw [hus']; rfl), .inl rfl⟩
    · obtain ⟨hdone, -, rfl⟩ := hybridLoop_step_inr hstep
      exact ⟨.inr out', by simp only [hybridLoop, if_neg hdone]; rfl, .inr trivial⟩
  obtain ⟨⟨vs, rest⟩, hrun, rfl⟩ := map_eq_ok.mp h
  have hstart : ((0, []) : ℕ × List α).1 = ((0, []) : ℕ × List β).1 := rfl
  obtain ⟨ws, hws, -⟩ := (hybridLoop bw numValues onPacked onRle).run_simulates
    (hybridLoop bw numValues onPacked₂ onRle₂) (fun s t _ => s.1 = t.1) (fun _ _ => True)
    hturn hstart hrun
  exact ⟨ws, map_eq_ok.mpr ⟨_, hws, rfl⟩⟩

/-- Where only the value of a run is checked. -/
theorem hybridDecode_checked {check : Bytes → Prop}
    (hpass : ∀ e chunk n vs, onRle e chunk n = .ok vs → check chunk → onRle' e chunk n = .ok vs)
    (hcheck : ∀ e chunk n vs, onRle' e chunk n = .ok vs → check chunk) {vs : List α}
    (h : hybridDecode bw numValues onPacked onRle bytes = .ok vs) :
    ∃ chunks, repeatedValues bw numValues bytes = .ok chunks ∧
      ((∃ ws, hybridDecode bw numValues onPacked onRle' bytes = .ok ws) ↔
        ∀ chunk ∈ chunks, check chunk) := by
  obtain ⟨runs, hruns, hiff⟩ := @hybridDecode_checkedRuns _ _ _ _ _ _ _
    (fun chunk _ => check chunk) hpass hcheck _ h
  obtain ⟨chunks, hchunks⟩ : ∃ chunks, repeatedValues bw numValues bytes = .ok chunks :=
    hybridDecode_ok (fun _ _ _ _ _ => ⟨[], rfl⟩) (fun _ chunk _ _ _ => ⟨[chunk], rfl⟩) hruns
  have hrel : List.Forall₂ (fun (r : Bytes × ℕ) chunk => r.1 = chunk) runs chunks := by
    refine hybridDecode_related (fun hvs hws => ?_) (fun _ hvs hws => ?_) hruns hchunks
    · cases hvs
      cases hws
      exact .nil
    · cases hvs
      cases hws
      exact .cons rfl .nil
  have hmap : runs.map Prod.fst = chunks :=
    List.forall₂_eq_eq_eq ▸ List.forall₂_map_left_iff.mpr hrel
  refine ⟨chunks, hchunks, hiff.trans ?_⟩
  rw [← hmap, List.forall_mem_map]

end

/-! ## Round trips -/

/-- Handlers that return the values themselves, in some representation. -/
theorem handles_indices {bw : ℕ} (f : UInt32 → α)
    {onPacked onRle : ℕ → Bytes → ℕ → Res CodecError (List α)}
    (hpacked : ∀ e chunk n, n * bw ≤ 8 * chunk.length → onPacked e chunk n
      = .ok ((lowDigits (2 ^ bw) n (leNat chunk)).map fun d => f (UInt32.ofNat d)))
    (hrle : ∀ e v n, v.toNat < 2 ^ bw →
      onRle e (valueBytesLe v (divCeil bw 8)) n = .ok (List.replicate n (f v))) :
    Handles bw (fun _ => True) onPacked onRle (fun _ vs => vs.map f) where
  packed e vs n h8 hlt hn _ := by
    obtain ⟨-, hlen⟩ := leNat_packLsbFirst h8 hlt
    have h8len : 8 * (vs.length / 8 * bw) = vs.length * bw := by
      rw [← Nat.mul_assoc, Nat.mul_div_cancel' (Nat.dvd_of_mod_eq_zero h8)]
    rw [hpacked e _ n (by rw [hlen, h8len]; exact Nat.mul_le_mul_right _ hn),
      lowDigits_packLsbFirst h8 hlt hn, List.map_map]
    simp [Function.comp_def]
  rle e v n hv _ := by rw [hrle e v n hv, List.map_replicate]
  append e xs ys := List.map_append

/-- An index list the memory of a machine can hold (at four bytes an index). -/
abbrev indexBound : ℕ := 2 ^ 58

/-- Either encoder, between its early exits, emits runs of the indices. -/
theorem encodeRleBitPacked_runs {indices : List UInt32} {bitWidth : UInt8}
    (hbw : bitWidth ≤ 32) (hbw0 : bitWidth ≠ 0)
    (hlt : ∀ v ∈ indices, v.toNat < 2 ^ bitWidth.toNat) (hlen : indices.length < indexBound) :
    ∃ runs k, encodeRleBitPacked indices bitWidth = encodeAll bitWidth.toNat runs ∧
      runValues runs = indices ++ List.replicate k 0 ∧ ∀ r ∈ runs, r.Fits bitWidth.toNat := by
  by_cases hnil : indices = []
  · exact ⟨[], 0, by simp [encodeRleBitPacked, hnil]⟩
  · rw [encodeRleBitPacked, if_neg hnil, if_neg hbw0, if_neg (UInt8.not_lt.mpr hbw)]
    have h := encodeRuns_eq bitWidth.toNat [] [] indices hlt
      (by rw [List.nil_append]; change _ < 2 ^ 58 at hlen; omega)
    simpa only [List.nil_append] using h

theorem encodeRleBitPackedSingleRun_runs {indices : List UInt32} {bitWidth : UInt8}
    (hbw : bitWidth ≤ 32) (hbw0 : bitWidth ≠ 0)
    (hlt : ∀ v ∈ indices, v.toNat < 2 ^ bitWidth.toNat) (hlen : indices.length < indexBound) :
    ∃ runs k, encodeRleBitPackedSingleRun indices bitWidth = encodeAll bitWidth.toNat runs ∧
      runValues runs = indices ++ List.replicate k 0 ∧ ∀ r ∈ runs, r.Fits bitWidth.toNat := by
  by_cases hnil : indices = []
  · exact ⟨[], 0, by simp [encodeRleBitPackedSingleRun, hnil]⟩
  · rw [encodeRleBitPackedSingleRun, if_neg hnil, if_neg hbw0, if_neg (UInt8.not_lt.mpr hbw)]
    refine ⟨[.packed (padToGroups indices)], divCeil indices.length 8 * 8 - indices.length,
      by simp [Run.encode], by simp [Run.values, padToGroups], fun r hr => ?_⟩
    rw [List.mem_singleton.mp hr]
    exact padToGroups_fits hnil hlt (by change _ < 2 ^ 58 at hlen; omega)

/-- Width 0 leaves only the index 0. -/
theorem eq_replicate_zero {indices : List UInt32} (hlt : ∀ v ∈ indices, v.toNat < 2 ^ 0) :
    indices = List.replicate indices.length 0 := by
  refine List.eq_replicate_of_mem fun v hv => UInt32.toNat_inj.mp ?_
  have := hlt v hv
  rw [UInt32.toNat_zero]
  omega

theorem handles_values {bw : ℕ} (hbw : bw ≤ 32) :
    Handles bw (fun _ => True) (packedValues bw) rleValues
      (fun _ vs => vs.map UInt32.toUInt64) := by
  refine handles_indices UInt32.toUInt64 (fun e chunk n hn => ?_) (fun e v n hv => ?_)
  · have hall : ∀ is : List ℕ, (∀ i ∈ is, i < n) → is.mapM (unpackAt chunk bw)
        = .ok (is.map fun i => (UInt32.ofNat (leNat chunk / (2 ^ bw) ^ i % 2 ^ bw)).toUInt64) := by
      intro is his
      induction is with
      | nil => rfl
      | cons i is ih =>
        have hi : (i + 1) * bw ≤ 8 * chunk.length :=
          (Nat.mul_le_mul_right bw (his i List.mem_cons_self)).trans hn
        have hdigit : leNat chunk / (2 ^ bw) ^ i % 2 ^ bw < 2 ^ 32 :=
          (Nat.mod_lt _ (by positivity)).trans_le (Nat.pow_le_pow_right (by decide) hbw)
        have hcast : UInt64.ofNat (leNat chunk / (2 ^ bw) ^ i % 2 ^ bw)
            = (UInt32.ofNat (leNat chunk / (2 ^ bw) ^ i % 2 ^ bw)).toUInt64 := by
          refine UInt64.toNat_inj.mp ?_
          rw [UInt32.toNat_toUInt64, UInt32.toNat_ofNat_of_lt' hdigit,
            UInt64.toNat_ofNat_of_lt' (hdigit.trans (by decide))]
        rw [List.mapM_cons, unpackAt_eq hbw hi, hcast,
          ih fun j hj => his j (List.mem_cons_of_mem _ hj)]
        rfl
    rw [packedValues, hall _ fun i hi => List.mem_range.mp hi, lowDigits_eq_map, List.map_map]
    rfl
  · rw [rleValues, accumulateLe_valueBytesLe hv hbw]

/-- The 64-bit decoder reads any runs of the indices back. -/
theorem decodeRleBitPacked_runs {indices : List UInt32} {bitWidth : UInt8} {bytes : Bytes}
    (hbw : bitWidth ≤ 32) (hlt : ∀ v ∈ indices, v.toNat < 2 ^ bitWidth.toNat)
    (henc : bitWidth ≠ 0 → ∃ runs k, bytes = encodeAll bitWidth.toNat runs ∧
      runValues runs = indices ++ List.replicate k 0 ∧ ∀ r ∈ runs, r.Fits bitWidth.toNat) :
    decodeRleBitPacked bytes bitWidth indices.length = .ok (indices.map UInt32.toUInt64) := by
  have hbw' : bitWidth.toNat ≤ 32 := UInt8.le_iff_toNat_le.mp hbw
  have h64 : ¬ (64 : UInt8) < bitWidth := by
    rw [UInt8.lt_iff_toNat_lt]
    change ¬ 64 < bitWidth.toNat
    omega
  rw [decodeRleBitPacked, if_neg h64]
  split
  · next hzero => rw [List.length_eq_zero_iff.mp hzero]; rfl
  split
  · next _ hzero =>
    subst hzero
    conv_rhs => rw [eq_replicate_zero hlt]
    rw [List.map_replicate]
    rfl
  · next _ hbw0 =>
    obtain ⟨runs, k, hbytes, hruns, hfits⟩ := henc hbw0
    have htake : (runValues runs).take indices.length = indices := by
      rw [hruns, List.take_left]
    have henough : indices.length ≤ (runValues runs).length := by
      rw [hruns, List.length_append]
      omega
    have hdec := hybridDecode_runs (handles_values hbw') hbw' hfits [] henough
      (fun _ _ => trivial)
    rw [htake, List.append_nil, ← hbytes] at hdec
    exact hdec

end EmatixParquet
