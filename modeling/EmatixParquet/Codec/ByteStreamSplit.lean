/-
  BYTE_STREAM_SPLIT (`byte_stream_split.rs`) — the bytes of fixed-width values,
  one stream for each position in a value.

  * `Splits vs bytes`: byte `i` of stream `pos` is byte `pos` of value `i`;
  * `encodeByteStreamSplit_splits`, `decodeByteStreamSplit_splits`: both sides
    produce it, and each side of it determines the other (`Splits.unique_bytes`,
    `Splits.unique_values`), from which both round trips follow.
-/
import EmatixParquet.Codec.Plain
import EmatixParquet.Codec.Predicate

namespace EmatixParquet

open Wire

/-- A `f32`, by bit pattern. -/
structure F32Bits where
  bits : UInt32
  deriving DecidableEq, Repr

instance : FixedWidth F32Bits where
  width := 4
  width_pos := @FixedWidth.width_pos Int32 _
  toLe v := v.bits.toNat
  ofLe n := ⟨UInt32.ofNat n⟩
  toLe_lt v := v.bits.toNat_lt
  ofLe_toLe v := congrArg F32Bits.mk v.bits.ofNat_toNat

/-- Every pattern of `width` bytes is a value. -/
class ExactWidth (α : Type) extends FixedWidth α where
  toLe_ofLe : ∀ n < 256 ^ width, toLe (ofLe n) = n

instance : ExactWidth F32Bits where
  toLe_ofLe _ h := UInt32.toNat_ofNat_of_lt' h

instance : ExactWidth F64 where
  toLe_ofLe _ h := UInt64.toNat_ofNat_of_lt' h

/-! ## The code -/

section
variable {α : Type} [FixedWidth α]

/-- `T::from_le_bytes([bytes[i], bytes[n + i], bytes[2 * n + i], ..])`. -/
def splitRow (bytes : Bytes) (n i : ℕ) : Res CodecError α :=
  fromLeBytes <$> (List.range (FixedWidth.width α)).mapM fun pos => byteAt bytes (pos * n + i)

/-- The values: the `k`-th byte of each comes from the `k`-th stream. -/
def decodeByteStreamSplit (build : Build) (bytes : Bytes) (numValues : ℕ) :
    Res CodecError (List α) := do
  let expected ← build.mul numValues (FixedWidth.width α)
  if bytes.length ≠ expected then
    codecErr (.unalignedPlainBuffer (FixedWidth.width α) bytes.length)
  else (List.range numValues).mapM (splitRow bytes numValues)

/-- `out[pos * n + i] = b[pos]`, for the bytes from position `pos` on. -/
def scatterFrom (n i : ℕ) : ℕ → Bytes → Bytes → Res CodecError Bytes
  | _, [], out => .ok out
  | pos, b :: bs, out => do
    let out ← setAt out (pos * n + i) b
    scatterFrom n i (pos + 1) bs out

/-- The turns of the encoder from value `i` on. -/
def splitFrom (n : ℕ) : ℕ → List α → Bytes → Res CodecError Bytes
  | _, [], out => .ok out
  | i, v :: vs, out => do
    let out ← scatterFrom n i 0 (toLeBytes v) out
    splitFrom n (i + 1) vs out

/-- One stream for each byte of a value. -/
def encodeByteStreamSplit (build : Build) (values : List α) : Res CodecError Bytes := do
  let n := values.length
  let size ← build.mul n (FixedWidth.width α)
  splitFrom n 0 values (List.replicate size 0)

end

/-- `decode_byte_stream_split_f32`. -/
def decodeByteStreamSplitF32 (build : Build) (bytes : Bytes) (numValues : ℕ) :
    Res CodecError (List F32Bits) := decodeByteStreamSplit build bytes numValues

/-- `decode_byte_stream_split_f64`. -/
def decodeByteStreamSplitF64 (build : Build) (bytes : Bytes) (numValues : ℕ) :
    Res CodecError (List F64) := decodeByteStreamSplit build bytes numValues

/-- `encode_byte_stream_split_f32`. -/
def encodeByteStreamSplitF32 (build : Build) (values : List F32Bits) : Res CodecError Bytes :=
  encodeByteStreamSplit build values

/-- `encode_byte_stream_split_f64`. -/
def encodeByteStreamSplitF64 (build : Build) (values : List F64) : Res CodecError Bytes :=
  encodeByteStreamSplit build values

/-! ## The transposed bytes -/

section
variable {α : Type} [FixedWidth α]

/-- Byte `i` of stream `pos` is byte `pos` of value `i`. -/
structure Splits (vs : List α) (bytes : Bytes) : Prop where
  length : bytes.length = FixedWidth.width α * vs.length
  byte : ∀ i, ∀ h : i < vs.length, ∀ pos < FixedWidth.width α,
    bytes[pos * vs.length + i]? = (toLeBytes vs[i])[pos]?

/-- A position in the bytes: a stream, and a value. -/
theorem index_lt {n w i pos : ℕ} (hi : i < n) (hpos : pos < w) : pos * n + i < w * n := by
  have hle : (pos + 1) * n ≤ w * n := Nat.mul_le_mul_right n hpos
  rw [Nat.succ_mul] at hle
  omega

theorem index_inj {n i i' pos pos' : ℕ} (hi : i < n) (hi' : i' < n)
    (h : pos * n + i = pos' * n + i') : pos = pos' ∧ i = i' := by
  have hdiv := congrArg (· / n) h
  have hmod := congrArg (· % n) h
  simp only [Nat.mul_comm _ n, Nat.mul_add_div (Nat.zero_lt_of_lt hi), Nat.div_eq_of_lt hi,
    Nat.div_eq_of_lt hi', Nat.mul_add_mod, Nat.mod_eq_of_lt hi, Nat.mod_eq_of_lt hi'] at hdiv hmod
  exact ⟨hdiv, hmod⟩

theorem Splits.unique_bytes {vs : List α} {bytes bytes' : Bytes} (h : Splits vs bytes)
    (h' : Splits vs bytes') : bytes = bytes' := by
  refine List.ext_getElem? fun k => ?_
  by_cases hk : k < FixedWidth.width α * vs.length
  · have hn : 0 < vs.length := by
      rcases Nat.eq_zero_or_pos vs.length with h0 | h0
      · simp [h0] at hk
      · exact h0
    have hi := Nat.mod_lt k hn
    have hpos : k / vs.length < FixedWidth.width α := Nat.div_lt_of_lt_mul (by rwa [Nat.mul_comm])
    rw [show k = k / vs.length * vs.length + k % vs.length from (Nat.div_add_mod' k _).symm,
      h.byte _ hi _ hpos, h'.byte _ hi _ hpos]
  · rw [List.getElem?_eq_none (h.length ▸ Nat.not_lt.mp hk),
      List.getElem?_eq_none (h'.length ▸ Nat.not_lt.mp hk)]

theorem Splits.unique_values {vs vs' : List α} {bytes : Bytes} (hlen : vs.length = vs'.length)
    (h : Splits vs bytes) (h' : Splits vs' bytes) : vs = vs' := by
  refine List.ext_getElem hlen fun i hi hi' => ?_
  have hbytes : toLeBytes vs[i] = toLeBytes vs'[i] := by
    refine List.ext_getElem? fun pos => ?_
    by_cases hpos : pos < FixedWidth.width α
    · rw [← h.byte i hi pos hpos, ← h'.byte i hi' pos hpos, hlen]
    · rw [List.getElem?_eq_none (by simpa using hpos), List.getElem?_eq_none (by simpa using hpos)]
  rw [← fromLeBytes_toLeBytes vs[i], hbytes, fromLeBytes_toLeBytes]

/-! ## The encoder -/

theorem setAt_eq {out : Bytes} {k : ℕ} (h : k < out.length) (v : UInt8) :
    setAt out k v = .ok (out.set k v) := by
  rw [setAt, byteAt_eq h]
  rfl

/-- One value writes its own bytes and leaves the others. -/
theorem scatterFrom_eq {n i : ℕ} (pos : ℕ) (bs out : Bytes) (hi : i < n)
    (hlen : (pos + bs.length) * n ≤ out.length) :
    ∃ out', scatterFrom n i pos bs out = .ok out' ∧ out'.length = out.length ∧
      (∀ j, ∀ h : j < bs.length, out'[(pos + j) * n + i]? = some bs[j]) ∧
      ∀ k, (∀ j < bs.length, k ≠ (pos + j) * n + i) → out'[k]? = out[k]? := by
  induction bs generalizing pos out with
  | nil => exact ⟨out, rfl, rfl, fun j h => absurd h (Nat.not_lt_zero j), fun _ _ => rfl⟩
  | cons b bs ih =>
    rw [List.length_cons] at hlen
    have hk : pos * n + i < out.length :=
      (index_lt hi (show pos < pos + (bs.length + 1) by omega)).trans_le hlen
    obtain ⟨out', hrun, hlen', hwritten, hother⟩ :=
      ih (pos + 1) (out.set (pos * n + i) b)
        (by rwa [List.length_set, show pos + 1 + bs.length = pos + (bs.length + 1) by omega])
    refine ⟨out', ?_, by rw [hlen', List.length_set], fun j hj => ?_, fun k hne => ?_⟩
    · rw [scatterFrom, setAt_eq hk, ok_bind, hrun]
    · cases j with
      | zero =>
        -- later positions do not touch this one
        rw [Nat.add_zero, hother _ fun j _ heq => ?_, List.getElem?_set_self hk,
          List.getElem_cons_zero]
        have := (index_inj hi hi heq).1
        omega
      | succ j =>
        rw [List.getElem_cons_succ, ← hwritten j (by simpa using hj),
          show pos + (j + 1) = pos + 1 + j by omega]
    · have hne0 : pos * n + i ≠ k := by simpa using (hne 0 (by simp)).symm
      rw [hother k fun j hj => ?_, List.getElem?_set_ne hne0]
      have := hne (j + 1) (by simpa using hj)
      rwa [show pos + (j + 1) = pos + 1 + j by omega] at this

/-- The values from `i` on write theirs and leave those of the values before. -/
theorem splitFrom_eq {n : ℕ} (i : ℕ) (vs : List α) (out : Bytes) (hn : i + vs.length = n)
    (hlen : out.length = FixedWidth.width α * n) :
    ∃ out', splitFrom n i vs out = .ok out' ∧ out'.length = out.length ∧
      (∀ j, ∀ h : j < vs.length, ∀ pos < FixedWidth.width α,
        out'[pos * n + (i + j)]? = (toLeBytes vs[j])[pos]?) ∧
      ∀ j < i, ∀ pos, out'[pos * n + j]? = out[pos * n + j]? := by
  induction vs generalizing i out with
  | nil => exact ⟨out, rfl, rfl, fun j h => absurd h (Nat.not_lt_zero j), fun _ _ _ => rfl⟩
  | cons v vs ih =>
    rw [List.length_cons] at hn
    have hi : i < n := by omega
    obtain ⟨mid, hmid, hmidLen, hwritten, hother⟩ := scatterFrom_eq 0 (toLeBytes v) out hi
      (by rw [length_toLeBytes, Nat.zero_add, hlen])
    obtain ⟨out', hrun, hlen', hvalues, hbefore⟩ := ih (i + 1) mid (by omega)
      (by rw [hmidLen, hlen])
    refine ⟨out', ?_, by rw [hlen', hmidLen], fun j hj pos hpos => ?_, fun j hj pos => ?_⟩
    · rw [splitFrom, hmid, ok_bind, hrun]
    · cases j with
      | zero =>
        have hlt : pos < (toLeBytes v).length := by rwa [length_toLeBytes]
        rw [Nat.add_zero, hbefore i (by omega), List.getElem_cons_zero,
          List.getElem?_eq_getElem hlt, ← hwritten pos hlt, Nat.zero_add]
      | succ j =>
        rw [List.getElem_cons_succ, ← hvalues j (by simpa using hj) pos hpos,
          show i + (j + 1) = i + 1 + j by omega]
    · rw [hbefore j (by omega), hother _ fun k _ heq => ?_]
      have := (index_inj (by omega) hi heq).2
      omega

theorem encodeByteStreamSplit_splits (vs : List α) (build : Build)
    (h : vs.length * FixedWidth.width α < usizeBound) :
    ∃ bytes, encodeByteStreamSplit build vs = .ok bytes ∧ Splits vs bytes := by
  obtain ⟨out, hrun, hlen, hvalues, -⟩ := splitFrom_eq (n := vs.length) 0 vs
    (List.replicate (vs.length * FixedWidth.width α) 0) (by omega) (by rw [List.length_replicate, Nat.mul_comm])
  refine ⟨out, ?_, ?_, fun i hi pos hpos => ?_⟩
  · rw [encodeByteStreamSplit, mul_eq h, ok_bind, hrun]
  · rw [hlen, List.length_replicate, Nat.mul_comm]
  · have := hvalues i hi pos hpos
    rwa [Nat.zero_add] at this

end

/-! ## The decoder -/

section
variable {α : Type} [ExactWidth α]

theorem toLeBytes_fromLeBytes {bs : Bytes} (h : bs.length = FixedWidth.width α) :
    toLeBytes (fromLeBytes bs : α) = bs := by
  have hlt : leNat bs < 256 ^ FixedWidth.width α := h ▸ leNat_lt bs
  rw [toLeBytes, fromLeBytes, ExactWidth.toLe_ofLe _ hlt, ← h, leBytes_leNat]

/-- The value of a row, of the bytes at its positions. -/
theorem splitRow_eq {bytes : Bytes} {n i : ℕ} (hi : i < n)
    (hlen : bytes.length = FixedWidth.width α * n) :
    ∃ v : α, splitRow bytes n i = .ok v ∧
      ∀ pos < FixedWidth.width α, bytes[pos * n + i]? = (toLeBytes v)[pos]? := by
  have hlt {pos : ℕ} (hpos : pos < FixedWidth.width α) : pos * n + i < bytes.length :=
    hlen ▸ index_lt hi hpos
  set bs := (List.range (FixedWidth.width α)).map fun pos => bytes.getD (pos * n + i) 0 with hbs
  have hbsLen : bs.length = FixedWidth.width α := by simp [hbs]
  have hrow : (List.range (FixedWidth.width α)).mapM (fun pos => byteAt bytes (pos * n + i))
      = .ok bs := by
    rw [mapM_eq_ok, hbs, List.forall₂_map_right_iff, List.forall₂_same]
    intro pos hpos
    have hk := hlt (List.mem_range.mp hpos)
    rw [byteAt_eq hk, List.getD_eq_getElem _ _ hk]
  refine ⟨fromLeBytes bs, ?_, fun pos hpos => ?_⟩
  · rw [splitRow, hrow]
    rfl
  · rw [toLeBytes_fromLeBytes hbsLen, hbs, List.getElem?_map, List.getElem?_range hpos,
      Option.map_some, List.getD_eq_getElem _ _ (hlt hpos), List.getElem?_eq_getElem (hlt hpos)]

theorem decodeByteStreamSplit_splits {bytes : Bytes} {n : ℕ} (build : Build)
    (hlen : bytes.length = FixedWidth.width α * n) (hsize : bytes.length < usizeBound) :
    ∃ vs : List α, decodeByteStreamSplit build bytes n = .ok vs ∧ vs.length = n ∧ Splits vs bytes := by
  have hmul : (build.mul n (FixedWidth.width α) : Res CodecError ℕ) = .ok bytes.length := by
    rw [mul_eq (by rwa [Nat.mul_comm, ← hlen]), hlen, Nat.mul_comm]
  have : Nonempty α := ⟨FixedWidth.ofLe 0⟩
  choose! row hrow hbyte using fun i (hi : i < n) => splitRow_eq (α := α) hi hlen
  have hrows : (List.range n).mapM (splitRow bytes n) = .ok ((List.range n).map row) := by
    rw [mapM_eq_ok, List.forall₂_map_right_iff, List.forall₂_same]
    exact fun i hi => hrow i (List.mem_range.mp hi)
  have hn : ((List.range n).map row).length = n := by simp
  refine ⟨(List.range n).map row, ?_, hn, by rw [hn, hlen], fun i hi pos hpos => ?_⟩
  · rw [decodeByteStreamSplit, hmul, ok_bind, if_neg (not_not.mpr rfl), hrows]
  · rw [hn] at hi
    rw [hn, List.getElem_map, List.getElem_range]
    exact hbyte i hi pos hpos

/-! ## Round trips -/

theorem decode_encodeByteStreamSplit {vs : List α} (build : Build)
    (h : vs.length * FixedWidth.width α < usizeBound) :
    ∃ bytes, encodeByteStreamSplit build vs = .ok bytes ∧
      decodeByteStreamSplit build bytes vs.length = .ok vs := by
  obtain ⟨bytes, hencode, hsplits⟩ := encodeByteStreamSplit_splits vs build h
  have hsize : bytes.length < usizeBound := by rwa [hsplits.length, Nat.mul_comm]
  obtain ⟨vs', hdecode, hlen, hsplits'⟩ :=
    decodeByteStreamSplit_splits (α := α) build hsplits.length hsize
  refine ⟨bytes, hencode, ?_⟩
  rw [hdecode, hsplits.unique_values hlen.symm hsplits']

theorem encode_decodeByteStreamSplit {bytes : Bytes} {n : ℕ} (build : Build)
    (hlen : bytes.length = FixedWidth.width α * n) (hsize : bytes.length < usizeBound) :
    ∃ vs : List α, decodeByteStreamSplit build bytes n = .ok vs ∧
      encodeByteStreamSplit build vs = .ok bytes := by
  obtain ⟨vs, hdecode, hn, hsplits⟩ := decodeByteStreamSplit_splits (α := α) build hlen hsize
  obtain ⟨bytes', hencode, hsplits'⟩ := encodeByteStreamSplit_splits vs build
    (by rwa [hn, Nat.mul_comm, ← hlen])
  refine ⟨vs, hdecode, ?_⟩
  rw [hencode, hsplits'.unique_bytes hsplits]

end

/-- **Encode and decode are mutually inverse**, for every list of values that
    `usize` counts the bytes of and every body of whole values. -/
theorem byteStreamSplit_inverse (build : Build) :
    (∀ vs : List F32Bits, vs.length * 4 < usizeBound →
      ∃ bytes, encodeByteStreamSplitF32 build vs = .ok bytes ∧
        decodeByteStreamSplitF32 build bytes vs.length = .ok vs) ∧
    (∀ vs : List F64, vs.length * 8 < usizeBound →
      ∃ bytes, encodeByteStreamSplitF64 build vs = .ok bytes ∧
        decodeByteStreamSplitF64 build bytes vs.length = .ok vs) ∧
    (∀ (bytes : Bytes) (n : ℕ), bytes.length = 4 * n → bytes.length < usizeBound →
      ∃ vs, decodeByteStreamSplitF32 build bytes n = .ok vs ∧
        encodeByteStreamSplitF32 build vs = .ok bytes) ∧
    (∀ (bytes : Bytes) (n : ℕ), bytes.length = 8 * n → bytes.length < usizeBound →
      ∃ vs, decodeByteStreamSplitF64 build bytes n = .ok vs ∧
        encodeByteStreamSplitF64 build vs = .ok bytes) :=
  ⟨fun _ h => decode_encodeByteStreamSplit build h, fun _ h => decode_encodeByteStreamSplit build h,
    fun _ _ hlen hsize => encode_decodeByteStreamSplit build hlen hsize,
    fun _ _ hlen hsize => encode_decodeByteStreamSplit build hlen hsize⟩

/-- A NaN with a payload and a negative zero; eight bytes as two of their values. -/
theorem byteStreamSplit_inverse_nan :
    (∃ bytes, encodeByteStreamSplitF32 .debug [⟨0x7FC00001⟩, ⟨0x80000000⟩] = .ok bytes ∧
      decodeByteStreamSplitF32 .debug bytes 2 = .ok [⟨0x7FC00001⟩, ⟨0x80000000⟩]) ∧
    ∃ vs, decodeByteStreamSplitF32 .release [1, 2, 3, 4, 5, 6, 7, 8] 2 = .ok vs ∧
      encodeByteStreamSplitF32 .release vs = .ok [1, 2, 3, 4, 5, 6, 7, 8] :=
  ⟨(byteStreamSplit_inverse .debug).1 [⟨0x7FC00001⟩, ⟨0x80000000⟩] (by decide),
    (byteStreamSplit_inverse .release).2.2.1 [1, 2, 3, 4, 5, 6, 7, 8] 2 rfl (by decide)⟩

end EmatixParquet
