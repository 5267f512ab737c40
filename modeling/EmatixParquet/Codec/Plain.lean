/-
  PLAIN — the fixed-width, boolean and byte-array encoders of `write.rs` and
  the decoders of `plain.rs`.

  A fixed-width type is a `FixedWidth` instance: a number of so many bytes,
  with the law that the bytes determine the value.  Doubles are bit patterns.

  * `decodePlainFixed_encodePlainFixed`, `decodePlainByteArray_encodePlainByteArray`:
    the decoders undo the encoders;
  * `plainSparseDecode_eq`: the sparse decoder selects from the values of the
    page, but reads the mask of a block of 8 rows from one mask byte, whatever
    the offset of the page (`sparseBit`).
-/
import EmatixParquet.Codec.Dict

namespace EmatixParquet

open Wire

/-! ## Fixed-width values -/

/-- A `f64`, by bit pattern. -/
structure F64 where
  bits : UInt64
  deriving DecidableEq, Repr

/-- `to_le_bytes` and `from_le_bytes`: values stored in `width` bytes. -/
class FixedWidth (α : Type) where
  width : ℕ
  width_pos : 0 < width
  toLe : α → ℕ
  ofLe : ℕ → α
  toLe_lt : ∀ a, toLe a < 256 ^ width
  ofLe_toLe : ∀ a, ofLe (toLe a) = a

instance : FixedWidth Int32 where
  width := 4
  width_pos := by decide
  toLe v := v.toUInt32.toNat
  ofLe n := (UInt32.ofNat n).toInt32
  toLe_lt v := v.toUInt32.toNat_lt
  ofLe_toLe v := by simp

instance : FixedWidth Int64 where
  width := 8
  width_pos := by decide
  toLe v := v.toUInt64.toNat
  ofLe n := (UInt64.ofNat n).toInt64
  toLe_lt v := v.toUInt64.toNat_lt
  ofLe_toLe v := by simp

instance : FixedWidth UInt64 where
  width := 8
  width_pos := by decide
  toLe v := v.toNat
  ofLe n := UInt64.ofNat n
  toLe_lt v := v.toNat_lt
  ofLe_toLe v := by simp

instance : FixedWidth F64 where
  width := 8
  width_pos := by decide
  toLe v := v.bits.toNat
  ofLe n := ⟨UInt64.ofNat n⟩
  toLe_lt v := v.bits.toNat_lt
  ofLe_toLe v := by simp

/-- The `n` low bytes of a number. -/
def leBytes (n N : ℕ) : Bytes := (lowDigits 256 n N).map UInt8.ofNat

@[simp] theorem length_leBytes (n N : ℕ) : (leBytes n N).length = n := by
  simp [leBytes]

theorem leNat_leBytes (n N : ℕ) : leNat (leBytes n N) = N % 256 ^ n := by
  induction n generalizing N with
  | zero => simp [leBytes, lowDigits, Nat.mod_one]
  | succ n ih =>
    have hb : (UInt8.ofNat (N % 256)).toNat = N % 256 := by simp
    have hcons : leBytes (n + 1) N = UInt8.ofNat (N % 256) :: leBytes n (N / 256) := rfl
    rw [hcons, leNat_cons, hb, ih, Nat.pow_succ', Nat.mod_mul]

theorem leBytes_leNat (bs : Bytes) : leBytes bs.length (leNat bs) = bs := by
  induction bs with
  | nil => rfl
  | cons b bs ih =>
    have hlt := b.toNat_lt
    have hmod : (b.toNat + 256 * leNat bs) % 256 = b.toNat := by omega
    have hdiv : (b.toNat + 256 * leNat bs) / 256 = leNat bs := by omega
    have hstep : leBytes (b :: bs).length (leNat (b :: bs))
        = UInt8.ofNat (leNat (b :: bs) % 256) :: leBytes bs.length (leNat (b :: bs) / 256) := rfl
    rw [hstep, leNat_cons, hmod, hdiv, ih, UInt8.ofNat_toNat]

section
variable {α : Type} [FixedWidth α]

/-- `v.to_le_bytes()`. -/
def toLeBytes (v : α) : Bytes := leBytes (FixedWidth.width α) (FixedWidth.toLe v)

/-- `T::from_le_bytes`. -/
def fromLeBytes (bytes : Bytes) : α := FixedWidth.ofLe (leNat bytes)

@[simp] theorem length_toLeBytes (v : α) : (toLeBytes v).length = FixedWidth.width α := by
  simp [toLeBytes]

@[simp] theorem fromLeBytes_toLeBytes (v : α) : fromLeBytes (toLeBytes v) = v := by
  rw [fromLeBytes, toLeBytes, leNat_leBytes, Nat.mod_eq_of_lt (FixedWidth.toLe_lt v),
    FixedWidth.ofLe_toLe]

/-! ## Encoders -/

/-- The values one after the other, in little-endian order. -/
def encodePlainFixed (values : List α) : Bytes := values.flatMap toLeBytes

/-- The value at row `i`. -/
def fixedAt (bytes : Bytes) (i : ℕ) : α :=
  fromLeBytes ((bytes.drop (i * FixedWidth.width α)).take (FixedWidth.width α))

/-- The values of a buffer that holds a whole number of them. -/
def decodePlainFixed (bytes : Bytes) : Res CodecError (List α) :=
  if bytes.length % FixedWidth.width α ≠ 0 then
    codecErr (.unalignedPlainBuffer (FixedWidth.width α) bytes.length)
  else .ok ((List.range (bytes.length / FixedWidth.width α)).map (fixedAt bytes))

end

/-- `encode_plain_i32`. -/
def encodePlainI32 (values : List Int32) : Bytes := encodePlainFixed values

/-- `encode_plain_i64`. -/
def encodePlainI64 (values : List Int64) : Bytes := encodePlainFixed values

/-- `encode_plain_u64`. -/
def encodePlainU64 (values : List UInt64) : Bytes := encodePlainFixed values

/-- `encode_plain_f64`. -/
def encodePlainF64 (values : List F64) : Bytes := encodePlainFixed values

/-- `out[i / 8] |= 1 << (i % 8)` for the rows that are true. -/
def encodePlainBool (values : List Bool) : Bytes :=
  (values.zipIdx).foldl
    (fun out (v, i) => if v then out.modify (i / 8) (· ||| (1 <<< UInt8.ofNat (i % 8))) else out)
    (List.replicate (divCeil values.length 8) 0)

/-- A length prefix (`v.len() as u32`), then the bytes. -/
def encodePlainByteArray (values : List Bytes) : Bytes :=
  values.flatMap fun v => leBytes 4 v.length ++ v

/-- `decode_plain_i32`. -/
def decodePlainI32 (bytes : Bytes) : Res CodecError (List Int32) := decodePlainFixed bytes

/-- `decode_plain_i64`. -/
def decodePlainI64 (bytes : Bytes) : Res CodecError (List Int64) := decodePlainFixed bytes

/-- `decode_plain_f64`. -/
def decodePlainF64 (bytes : Bytes) : Res CodecError (List F64) := decodePlainFixed bytes

/-- `read_u32_le`. -/
def readU32Le : CodecM ℕ := leNat <$> wire (take 4)

theorem readU32Le_consumes {bs rest : Bytes} {n : ℕ} (h : readU32Le.run bs = .ok (n, rest)) :
    rest.length < bs.length := by
  rw [readU32Le, Reader.run_map] at h
  split at h
  · cases h
  · next hp =>
    cases h
    have hp := Reader.run_mapError_eq_ok.mp hp
    simp only [take] at hp
    split at hp
    · cases hp
    · cases hp
      rw [List.length_drop]
      omega

/-- `while !cur.is_empty()`: a length, then so many bytes. -/
def byteArrayLoop : Loop (Fault CodecError) (List Bytes) (List Bytes) where
  step out := do
    if ← Reader.atEnd then pure (.inr out)
    else
      let len ← readU32Le
      let value ← wire (take len)
      pure (.inl (out ++ [value]))
  consumes {out bs out' rest} h := by
    obtain ⟨done, mid, hdone, h⟩ := Reader.run_bind_eq_ok h
    cases hdone
    cases bs with
    | nil => cases h
    | cons b bs =>
      obtain ⟨len, mid, hlen, h⟩ := Reader.run_bind_eq_ok h
      exact lt_of_le_of_lt (Reader.run_length_le _ h) (readU32Le_consumes hlen)

/-- `decode_plain_byte_array`: each value behind its length. -/
def decodePlainByteArray (bytes : Bytes) : Res CodecError (List Bytes) :=
  (·.1) <$> (byteArrayLoop.run []).run bytes

/-! ## Sparse decoding -/

section
variable {α : Type} [FixedWidth α]

/-- `T::from_le_bytes(bytes[off..off + width])` for row `row`. -/
def plainRow (bytes : Bytes) (row : ℕ) : Res CodecError α := do
  let off := row * FixedWidth.width α
  let b ← slice bytes off (off + FixedWidth.width α)
  pure (fromLeBytes b)

/-- The values of `n` rows from `row` on, where `bit` is set. -/
def sparseRows (bytes : Bytes) (bit : ℕ → Res CodecError Bool) : ℕ → ℕ → Res CodecError (List α)
  | 0, _ => .ok []
  | n + 1, row => do
    if ← bit row then
      let v ← plainRow bytes row
      let vs ← sparseRows bytes bit n (row + 1)
      pure (v :: vs)
    else sparseRows bytes bit n (row + 1)

/-- A block of 8 rows, under one byte of the mask. -/
def sparseBlock (bytes : Bytes) (maskByte : UInt8) (row : ℕ) : Res CodecError (List α) :=
  if maskByte = 0 then .ok []
  else sparseRows bytes
    (fun r => .ok ((maskByte >>> UInt8.ofNat (r - row)) &&& 1 == 1)) 8 row

/-- Blocks from row `row` on, then fewer than 8 rows. -/
def sparseBlocks (bytes mask : Bytes) (bitmapOffset tail : ℕ) : ℕ → ℕ → Res CodecError (List α)
  | 0, row => sparseRows bytes (fun r => bitmapBit mask (bitmapOffset + r)) tail row
  | blocks + 1, row => do
    let maskByte ← byteAt mask ((bitmapOffset + row) / 8)
    let vs ← sparseBlock bytes maskByte row
    let ws ← sparseBlocks bytes mask bitmapOffset tail blocks (row + 8)
    pure (vs ++ ws)

/-- `plain_sparse_decode_{i64, i32, f64}_into`: what they append.  That the
    offset is a multiple of 8 is a debug assertion only. -/
def plainSparseDecode (bytes : Bytes) (numValues : ℕ) (mask : Bytes) (bitmapOffset : ℕ) :
    Res CodecError (List α) :=
  let needed := numValues * FixedWidth.width α % usizeBound
  if bytes.length < needed then
    codecErr (.underflowingPlainBuffer (FixedWidth.width α) bytes.length numValues)
  else sparseBlocks bytes mask bitmapOffset (numValues % 8) (numValues / 8) 0

end

/-! ## Round trips -/

section
variable {α : Type} [FixedWidth α]

@[simp] theorem length_encodePlainFixed (values : List α) :
    (encodePlainFixed values).length = values.length * FixedWidth.width α := by
  induction values with
  | nil => simp [encodePlainFixed]
  | cons v values ih =>
    rw [encodePlainFixed] at ih
    rw [encodePlainFixed, List.flatMap_cons, List.length_append, ih, length_toLeBytes,
      List.length_cons, Nat.succ_mul, Nat.add_comm]

theorem fixedAt_encodePlainFixed (values : List α) {i : ℕ} (hi : i < values.length) :
    fixedAt (encodePlainFixed values) i = values[i] := by
  induction values generalizing i with
  | nil => simp at hi
  | cons v values ih =>
    have hcons : encodePlainFixed (v :: values) = toLeBytes v ++ encodePlainFixed values := rfl
    cases i with
    | zero => simp [fixedAt, hcons, List.take_left' (length_toLeBytes v)]
    | succ i =>
      have hdrop : (encodePlainFixed (v :: values)).drop ((i + 1) * FixedWidth.width α)
          = (encodePlainFixed values).drop (i * FixedWidth.width α) := by
        rw [hcons, Nat.succ_mul, Nat.add_comm, ← List.drop_drop, List.drop_left' (length_toLeBytes v)]
      rw [fixedAt, hdrop]
      exact ih (by simpa using hi)

/-- **Fixed-width round trip.** -/
theorem decodePlainFixed_encodePlainFixed (values : List α) :
    decodePlainFixed (encodePlainFixed values) = .ok values := by
  have hpos : 0 < FixedWidth.width α := FixedWidth.width_pos
  rw [decodePlainFixed, length_encodePlainFixed, Nat.mul_mod_left, if_neg (by simp),
    Nat.mul_div_cancel _ hpos]
  refine congrArg Except.ok (List.ext_getElem (by simp) fun i hi hi' => ?_)
  rw [List.getElem_map, List.getElem_range, fixedAt_encodePlainFixed values hi']

end

/-- Values whose length prefixes say their lengths. -/
theorem run_byteArrayLoop {values : List Bytes} (hlen : ∀ v ∈ values, v.length < 2 ^ 32)
    (out : List Bytes) :
    (byteArrayLoop.run out).run (encodePlainByteArray values) = .ok (out ++ values, []) := by
  induction values generalizing out with
  | nil => exact (Loop.run_of_inr _ rfl).trans (by simp [encodePlainByteArray])
  | cons v values ih =>
    have hv : v.length < 2 ^ 32 := hlen v List.mem_cons_self
    have hrest := ih (fun w hw => hlen w (List.mem_cons_of_mem _ hw)) (out ++ [v])
    have htext : encodePlainByteArray (v :: values)
        = leBytes 4 v.length ++ (v ++ encodePlainByteArray values) := by
      simp [encodePlainByteArray]
    have hpre : readU32Le.run (leBytes 4 v.length ++ (v ++ encodePlainByteArray values))
        = .ok (v.length, v ++ encodePlainByteArray values) := by
      rw [readU32Le, Reader.run_map, run_wire_take (length_leBytes 4 v.length)]
      simp only [leNat_leBytes]
      rw [Nat.mod_eq_of_lt (by simpa using hv)]
    have hstep : (byteArrayLoop.step out).run (encodePlainByteArray (v :: values))
        = .ok (.inl (out ++ [v]), encodePlainByteArray values) := by
      have hne : leBytes 4 v.length ++ (v ++ encodePlainByteArray values) ≠ [] := by
        simp [← List.length_eq_zero_iff]
      rw [htext, byteArrayLoop, Reader.run_atEnd_of_ne_nil _ hne]
      change (readU32Le >>= _).run (leBytes 4 v.length ++ _) = _
      rw [Reader.run_bind_ok hpre, Reader.run_bind_ok (run_wire_take rfl _)]
      rfl
    rw [Loop.run_of_inl _ hstep, hrest, List.append_assoc]
    rfl

/-- **Byte-array round trip**, for values shorter than 4 GiB. -/
theorem decodePlainByteArray_encodePlainByteArray {values : List Bytes}
    (hlen : ∀ v ∈ values, v.length < 2 ^ 32) :
    decodePlainByteArray (encodePlainByteArray values) = .ok values := by
  rw [decodePlainByteArray, run_byteArrayLoop hlen]
  rfl

/-! ## What the sparse decoder selects -/

/-- The mask bit that decides row `row` of a page of `numValues` rows at
    `bitmapOffset`: in whole blocks the offset is rounded down to a byte. -/
def sparseBit (mask : Bytes) (bitmapOffset numValues row : ℕ) : Bool :=
  if row < 8 * (numValues / 8) then (leNat mask).testBit (8 * (bitmapOffset / 8) + row)
  else (leNat mask).testBit (bitmapOffset + row)

/-- At a byte boundary it is the row's own bit. -/
theorem sparseBit_of_aligned {mask : Bytes} {bitmapOffset numValues : ℕ}
    (h : bitmapOffset % 8 = 0 ∨ numValues < 8) (row : ℕ) :
    sparseBit mask bitmapOffset numValues row = (leNat mask).testBit (bitmapOffset + row) := by
  rw [sparseBit]
  split
  · rw [show 8 * (bitmapOffset / 8) + row = bitmapOffset + row by omega]
  · rfl

section
variable {α : Type} [FixedWidth α] {bytes mask : Bytes} {vs : List α}

theorem decodePlainFixed_eq_ok :
    decodePlainFixed bytes = .ok vs ↔ bytes.length = vs.length * FixedWidth.width α ∧
      ∀ i (h : i < vs.length), fixedAt bytes i = vs[i] := by
  have hpos : 0 < FixedWidth.width α := FixedWidth.width_pos
  rw [decodePlainFixed]
  constructor
  · intro h
    split at h
    · cases h
    · next hmod =>
      rw [ne_eq, not_not] at hmod
      cases h
      refine ⟨?_, fun i hi => by simp⟩
      rw [List.length_map, List.length_range, Nat.div_mul_cancel (Nat.dvd_of_mod_eq_zero hmod)]
  · rintro ⟨hlen, hat⟩
    rw [hlen, Nat.mul_mod_left, if_neg (by simp), Nat.mul_div_cancel _ hpos]
    refine congrArg Except.ok (List.ext_getElem (by simp) fun i hi hi' => ?_)
    rw [List.getElem_map, List.getElem_range, hat i hi']

theorem plainRow_eq (h : decodePlainFixed bytes = .ok vs) {row : ℕ} (hrow : row < vs.length) :
    plainRow bytes row = .ok vs[row] := by
  obtain ⟨hlen, hat⟩ := decodePlainFixed_eq_ok.mp h
  have hstop : row * FixedWidth.width α + FixedWidth.width α ≤ bytes.length := by
    rw [hlen, ← Nat.succ_mul]
    exact Nat.mul_le_mul_right _ hrow
  rw [plainRow]
  rw [slice_ok (Nat.le_add_right _ _) hstop, drop_take_add, ← hat row hrow]
  rfl

/-- A stretch of rows, by induction on their number. -/
theorem sparseRows_eq {bit : ℕ → Res CodecError Bool} {set : ℕ → Bool}
    (h : decodePlainFixed bytes = .ok vs) {n row : ℕ} (hrow : row + n ≤ vs.length)
    (hbit : ∀ i < n, bit (row + i) = .ok (set (row + i))) :
    sparseRows bytes bit n row = .ok (selectFrom set row ((vs.drop row).take n)) := by
  induction n generalizing row with
  | zero => simp [sparseRows, selectFrom]
  | succ n ih =>
    have h0 := hbit 0 (by omega)
    have hrest := @ih (row + 1) (by omega) fun i hi => by
      have := hbit (i + 1) (by omega)
      rwa [show row + 1 + i = row + (i + 1) by omega]
    rw [Nat.add_zero] at h0
    rw [List.drop_eq_getElem_cons (by omega), List.take_succ_cons, selectFrom, sparseRows, h0,
      hrest, plainRow_eq h (by omega)]
    cases set row <;> rfl

/-- The blocks from row `row` on, by induction on their number. -/
theorem sparseBlocks_eq (h : decodePlainFixed bytes = .ok vs) {bitmapOffset tail blocks row : ℕ}
    (htail : tail < 8) (haligned : row % 8 = 0) (hrows : row + (8 * blocks + tail) = vs.length)
    (hcover : bitmapOffset + vs.length ≤ 8 * mask.length) :
    sparseBlocks bytes mask bitmapOffset tail blocks row
      = .ok (selectFrom (sparseBit mask bitmapOffset vs.length) row (vs.drop row)) := by
  induction blocks generalizing row with
  | zero =>
    have htake : (vs.drop row).take tail = vs.drop row :=
      List.take_of_length_le (by rw [List.length_drop]; omega)
    have hbits : ∀ i < tail, bitmapBit mask (bitmapOffset + (row + i))
        = .ok (sparseBit mask bitmapOffset vs.length (row + i)) := by
      intro i hi
      rw [bitmapBit_eq _ (by omega), sparseBit, if_neg (by omega)]
    rw [sparseBlocks, sparseRows_eq h (by omega) hbits, htake]
  | succ n ih =>
    have hk : (bitmapOffset + row) / 8 < mask.length := by omega
    have hbits : ∀ i < 8, mask[(bitmapOffset + row) / 8].toNat.testBit i
        = sparseBit mask bitmapOffset vs.length (row + i) := by
      intro i hi
      rw [← testBit_leNat (List.getElem?_eq_getElem hk) hi, sparseBit, if_pos (by omega)]
      congr 1
      omega
    have hlen8 : ((vs.drop row).take 8).length = 8 := by
      rw [List.length_take_of_le]
      rw [List.length_drop]
      omega
    have hblock : sparseBlock bytes mask[(bitmapOffset + row) / 8] row
        = .ok (selectFrom (sparseBit mask bitmapOffset vs.length) row
            ((vs.drop row).take 8)) := by
      rw [sparseBlock]
      split
      · next hzero =>
        rw [selectFrom_eq_nil]
        intro i hi
        rw [← hbits i (by omega), hzero]
        exact Nat.zero_testBit _
      · refine sparseRows_eq h (by omega) fun i hi => ?_
        rw [Nat.add_sub_cancel_left, shiftRight_and_one _ hi, hbits i hi]
    have hrest := @ih (row + 8) (by omega) (by omega)
    rw [sparseBlocks, byteAt_eq hk]
    change (sparseBlock bytes _ row >>= _) = _
    rw [hblock]
    change (sparseBlocks bytes mask bitmapOffset tail n (row + 8) >>= _) = _
    rw [hrest]
    conv_rhs => rw [← List.take_append_drop 8 (vs.drop row), selectFrom_append, hlen8,
      List.drop_drop]
    rfl

/-- **Sparse decoding** of a page of `vs`. -/
theorem plainSparseDecode_eq (h : decodePlainFixed bytes = .ok vs) {bitmapOffset : ℕ}
    (hcover : bitmapOffset + vs.length ≤ 8 * mask.length) :
    plainSparseDecode bytes vs.length mask bitmapOffset
      = .ok (selectFrom (sparseBit mask bitmapOffset vs.length) 0 vs) := by
  obtain ⟨hlen, -⟩ := decodePlainFixed_eq_ok.mp h
  have hneeded : ¬ bytes.length < vs.length * FixedWidth.width α % usizeBound := by
    rw [hlen]
    exact Nat.not_lt.mpr (Nat.mod_le _ _)
  have hrows : 0 + (8 * (vs.length / 8) + vs.length % 8) = vs.length := by
    rw [Nat.zero_add, Nat.div_add_mod]
  rw [plainSparseDecode]
  rw [if_neg hneeded, sparseBlocks_eq h (Nat.mod_lt _ (by omega)) rfl hrows hcover, List.drop_zero]

end

end EmatixParquet
