/-
  The hybrid decoders on any bytes, in builds with and without overflow checks.

  A run's header declares a count, which the decoders multiply by 8 and by the
  bit width before they compare the product with the bytes that are left.  A
  build with overflow checks panics where a product needs more than 64 bits; a
  build without them wraps, and may then find too few bytes in the chunk.

  * `RunStep`: the runs of a stream, in unbounded arithmetic;
  * `RunsFit`: all runs that a decoder comes to stay within 64 bits;
  * `hybridDecodeIn_delivers_iff`: a decoder returns an error or all values, in
    both builds, exactly for streams of such runs;
  * `decoders_deliver_iff`: so do the three decoders.
-/
import EmatixParquet.Codec.DictAgree
import EmatixParquet.Codec.Kernels
import Mathlib.Logic.Relation

namespace EmatixParquet

open Wire Relation

variable {α : Type}

/-! ## Two builds -/

/-- `acc |= (chunk[byte_offset + j] as u64) << (j * 8)` over the bytes of a
    value: the ninth would be shifted by 64, which wraps to 0. -/
def Build.accumulate {ε : Type} (build : Build) (window : Bytes) : Res ε UInt64 :=
  match build with
  | .debug =>
    if window.length ≤ 8 then .ok (accumulateLe window)
    else .error (.panic "attempt to shift left with overflow")
  | .release => .ok (accumulateLe window)

/-- The loop of the hybrid decoders. -/
def hybridLoopIn (build : Build) (bitWidth numValues : ℕ)
    (onPacked onRle : ℕ → Bytes → ℕ → Res CodecError (List α)) :
    Loop (Fault CodecError) (ℕ × List α) (List α) where
  step s :=
    if s.1 < numValues then do
      let header ← wire readUvarint
      let count := (header >>> 1).toNat
      if header &&& 1 = 1 then do
        let total ← Reader.lift (build.mul count 8)
        let bits ← Reader.lift (build.mul total bitWidth)
        let chunk ← wire (take (divCeil bits 8))
        let toEmit := min (numValues - s.1) total
        let vs ← Reader.lift (onPacked s.1 chunk toEmit)
        pure (.inl (s.1 + toEmit, s.2 ++ vs))
      else do
        let valueChunk ← wire (take (divCeil bitWidth 8))
        let toEmit := min (numValues - s.1) count
        let vs ← Reader.lift (onRle s.1 valueChunk toEmit)
        pure (.inl (s.1 + toEmit, s.2 ++ vs))
    else pure (.inr s.2)
  consumes {s bs s' rest} h := by
    split at h
    · obtain ⟨header, mid, hheader, hrest⟩ := Reader.run_bind_eq_ok h
      exact lt_of_le_of_lt (Reader.run_length_le _ hrest) (readUvarint_consumes hheader)
    · cases h

/-- The runs of a stream, with the arithmetic of a build. -/
def hybridDecodeIn (build : Build) (bitWidth numValues : ℕ)
    (onPacked onRle : ℕ → Bytes → ℕ → Res CodecError (List α)) (bytes : Bytes) :
    Res CodecError (List α) :=
  (·.1) <$> ((hybridLoopIn build bitWidth numValues onPacked onRle).run (0, [])).run bytes

/-- One value of `decode_rle_bit_packed`. -/
def unpackAtIn (build : Build) (chunk : Bytes) (numBits i : ℕ) : Res CodecError UInt64 := do
  let startBit := i * numBits
  let startByte := startBit / 8
  let bitInByte := startBit % 8
  let bytesNeeded := divCeil (bitInByte + numBits) 8
  let window ← slice chunk startByte (startByte + bytesNeeded)
  let acc ← build.accumulate window
  pure ((acc >>> UInt64.ofNat bitInByte) &&& bitMask numBits)

/-- The 64-bit values of a packed body, with the arithmetic of a build. -/
def packedValuesIn (build : Build) (bitWidth : ℕ) (_ : ℕ) (chunk : Bytes) (toEmit : ℕ) :
    Res CodecError (List UInt64) :=
  (List.range toEmit).mapM (unpackAtIn build chunk bitWidth)

/-- `decode_rle_bit_packed`. -/
def decodeRleBitPackedIn [Host] (build : Build) (bytes : Bytes) (bitWidth : UInt8)
    (numValues : ℕ) : Res CodecError (List UInt64) :=
  if 64 < bitWidth then codecErr (.bitWidthOutOfRange bitWidth)
  else if numValues = 0 then .ok []
  else do
    Host.withCapacity numValues 8
    if bitWidth = 0 then pure (List.replicate numValues 0)
    else
      hybridDecodeIn build bitWidth.toNat numValues (packedValuesIn build bitWidth.toNat)
        rleValues bytes

/-- `decode_rle_dictionary_indices_into`, into an empty vector. -/
def decodeRleDictionaryIndicesIn [Host] (build : Build) (body : Bytes) (numValues : ℕ) :
    Res CodecError (List UInt32) :=
  match body with
  | [] => codecErr .emptyDictPageBody
  | bitWidth :: bytes =>
    if 32 < bitWidth then codecErr (.bitWidthOutOfRange bitWidth)
    else if numValues = 0 then .ok []
    else do
      Host.withCapacity numValues 4
      if bitWidth = 0 then pure (List.replicate numValues 0)
      else
        hybridDecodeIn build bitWidth.toNat numValues
          (fun _ chunk n => unpackIndicesOn chunk n bitWidth)
          (fun _ valueChunk n => .ok (List.replicate n (rleIndex valueChunk))) bytes

/-- `decode_rle_dictionary_into`, into an empty vector of values of `size` bytes. -/
def decodeRleDictionaryIn [Host] (build : Build) (size : ℕ) (body : Bytes) (dict : List α)
    (numValues : ℕ) : Res CodecError (List α) :=
  match body with
  | [] => codecErr .emptyDictPageBody
  | bitWidth :: bytes =>
    if 32 < bitWidth then codecErr (.bitWidthOutOfRange bitWidth)
    else if numValues = 0 then .ok []
    else do
      Host.withCapacity numValues size
      if bitWidth = 0 then
        match dict with
        | [] => codecErr (.dictIndexOutOfRange 0 0)
        | v :: _ => pure (List.replicate numValues v)
      else
        hybridDecodeIn build bitWidth.toNat numValues
          (fun _ chunk n => unpackLookupOn chunk n bitWidth dict)
          (fun _ valueChunk n => lookupRun dict valueChunk n) bytes

/-! ## Without checks, these are the decoders of before -/

theorem hybridLoopIn_release (bw n : ℕ)
    (onPacked onRle : ℕ → Bytes → ℕ → Res CodecError (List α)) :
    hybridLoopIn .release bw n onPacked onRle = hybridLoop bw n onPacked onRle := rfl

theorem unpackAtIn_release (chunk : Bytes) (w i : ℕ) :
    unpackAtIn .release chunk w i = unpackAt chunk w i := by
  rw [unpackAtIn, unpackAt, Nat.add_comm (i * w % 8) w]
  rfl

theorem decodeRleBitPackedIn_release (bytes : Bytes) (bitWidth : UInt8) (n : ℕ) :
    decodeRleBitPackedIn .release bytes bitWidth n = decodeRleBitPacked bytes bitWidth n := by
  have hvalues : packedValuesIn .release bitWidth.toNat = packedValues bitWidth.toNat := by
    funext e chunk m
    rw [packedValuesIn, packedValues, funext (unpackAtIn_release chunk bitWidth.toNat)]
  rw [decodeRleBitPackedIn, decodeRleBitPacked, hvalues]
  rfl

theorem decodeRleDictionaryIndicesIn_release (body : Bytes) (n : ℕ) :
    decodeRleDictionaryIndicesIn .release body n = decodeRleDictionaryIndices body n := by
  cases body <;> rfl

theorem decodeRleDictionaryIn_release (size : ℕ) (body : Bytes) (dict : List α) (n : ℕ) :
    decodeRleDictionaryIn .release size body dict n = decodeRleDictionary body dict n := by
  cases body
  · rfl
  · cases dict <;> rfl

/-! ## The runs of a stream -/

/-- The bytes start with the header of a bit-packed run of `count` groups. -/
def PackedHeader (bs : Bytes) (count : ℕ) (mid : Bytes) : Prop :=
  ∃ header, readUvarint.run bs = .ok (header, mid) ∧ header &&& 1 = 1 ∧
    (header >>> 1).toNat = count

/-- The bytes start with the header of an RLE run of `count` values. -/
def RleHeader (bs : Bytes) (count : ℕ) (mid : Bytes) : Prop :=
  ∃ header, readUvarint.run bs = .ok (header, mid) ∧ ¬ header &&& 1 = 1 ∧
    (header >>> 1).toNat = count

/-- One run is read and its values are accepted: the number of values out and
    the bytes left, before and after, without any bound on the numbers. -/
inductive RunStep (bw n : ℕ) (packedOk rleOk : Bytes → ℕ → Prop) :
    ℕ × Bytes → ℕ × Bytes → Prop
  | packed {e count bs mid} : e < n → PackedHeader bs count mid → count * bw ≤ mid.length →
      packedOk (mid.take (count * bw)) (min (n - e) (8 * count)) →
      RunStep bw n packedOk rleOk (e, bs)
        (e + min (n - e) (8 * count), mid.drop (count * bw))
  | rle {e count bs mid} : e < n → RleHeader bs count mid → divCeil bw 8 ≤ mid.length →
      rleOk (mid.take (divCeil bw 8)) (min (n - e) count) →
      RunStep bw n packedOk rleOk (e, bs) (e + min (n - e) count, mid.drop (divCeil bw 8))

/-- A bit-packed run at position `e` whose header is followed by `mid`: its bits
    are counted in 64 bits, and no value that it gives touches nine bytes. -/
def PackedFits (bw n e count : ℕ) (mid : Bytes) : Prop :=
  8 * count * bw < 2 ^ 64 ∧
    (count * bw ≤ mid.length → ∀ i < min (n - e) (8 * count), i * bw % 8 + bw ≤ 64)

/-- All bit-packed runs that a decoder comes to from `s` on fit. -/
def RunsFitFrom (bw n : ℕ) (packedOk rleOk : Bytes → ℕ → Prop) (s : ℕ × Bytes) : Prop :=
  ∀ e bs, ReflTransGen (RunStep bw n packedOk rleOk) s (e, bs) → e < n →
    ∀ count mid, PackedHeader bs count mid → PackedFits bw n e count mid

/-- All bit-packed runs of a stream that a decoder of `n` values comes to fit. -/
def RunsFit (bw n : ℕ) (packedOk rleOk : Bytes → ℕ → Prop) (bytes : Bytes) : Prop :=
  RunsFitFrom bw n packedOk rleOk (0, bytes)

/-- An error, or exactly `n` values: no panic. -/
def Delivers (n : ℕ) (r : Res CodecError (List α)) : Prop :=
  match r with
  | .ok vs => vs.length = n
  | .error (.err _) => True
  | .error (.panic _) => False

/-! ## The handlers -/

/-- Handlers that return an error or the values asked for, as long as the bytes
    are there, their bits can be counted and no value touches nine of them; `packedOk`
    and `rleOk` say which of the two. -/
structure Careful (bw : ℕ) (packedOk rleOk : Bytes → ℕ → Prop)
    (onPacked onRle : ℕ → Bytes → ℕ → Res CodecError (List α)) : Prop where
  packed : ∀ e chunk m, m * bw < 2 ^ 64 → m * bw ≤ 8 * chunk.length →
    (∀ i < m, i * bw % 8 + bw ≤ 64) → Delivers m (onPacked e chunk m) ∧ ((∃ vs, onPacked e chunk m = .ok vs) ↔ packedOk chunk m)
  rle : ∀ e chunk m, Delivers m (onRle e chunk m) ∧
    ((∃ vs, onRle e chunk m = .ok vs) ↔ rleOk chunk m)

/-- Handlers that panic at a value that touches nine bytes. -/
def Guarded (bw : ℕ) (onPacked : ℕ → Bytes → ℕ → Res CodecError (List α)) : Prop :=
  ∀ e chunk m, m * bw ≤ 8 * chunk.length → (∃ i < m, 64 < i * bw % 8 + bw) →
    ∃ msg, onPacked e chunk m = .error (.panic msg)

theorem delivers_cases {n : ℕ} {r : Res CodecError (List α)} (h : Delivers n r) :
    (∃ e, r = .error (.err e)) ∨ ∃ vs, r = .ok vs ∧ vs.length = n := by
  rcases r with (e | msg) | vs
  · exact .inl ⟨e, rfl⟩
  · exact absurd h id
  · exact .inr ⟨vs, rfl, h⟩

section
variable {build : Build} {bw n : ℕ} {packedOk rleOk : Bytes → ℕ → Prop}
  {onPacked onRle : ℕ → Bytes → ℕ → Res CodecError (List α)}

theorem step_done {e : ℕ} (he : ¬ e < n) (out : List α) (bs : Bytes) :
    ((hybridLoopIn build bw n onPacked onRle).step (e, out)).run bs = .ok (.inr out, bs) := by
  simp only [hybridLoopIn, if_neg he]
  rfl

/-- A run that fits, when the loop comes to it. -/
theorem step_packed {e count : ℕ} {bs mid : Bytes} (hpos : 0 < bw) (he : e < n)
    (hheader : PackedHeader bs count mid) (hfits : 8 * count * bw < 2 ^ 64) (out : List α) :
    ((hybridLoopIn build bw n onPacked onRle).step (e, out)).run bs
      = if count * bw ≤ mid.length then
          (fun vs => (.inl (e + min (n - e) (8 * count), out ++ vs), mid.drop (count * bw))) <$>
            onPacked e (mid.take (count * bw)) (min (n - e) (8 * count))
        else .error (.err (.wire (.unexpectedEof (count * bw) mid.length))) := by
  obtain ⟨header, hread, hbit, hcount⟩ := hheader
  have hle : 8 * count ≤ 8 * count * bw := Nat.le_mul_of_pos_right _ hpos
  have htotal : (build.mul count 8 : Res CodecError ℕ) = .ok (8 * count) := by
    rw [mul_eq (by omega), Nat.mul_comm]
  have hbytes : divCeil (8 * count * bw) 8 = count * bw := by
    rw [divCeil, Nat.mul_assoc]
    omega
  simp only [hybridLoopIn, if_pos he]
  rw [Reader.run_bind_ok (run_wire_ok hread), if_pos hbit, hcount, htotal, Reader.lift_ok,
    pure_bind, mul_eq hfits, Reader.lift_ok, pure_bind, hbytes]
  split
  · next hlen =>
    rw [Reader.run_bind_ok (run_wire_take_ok hlen)]
    cases onPacked e (mid.take (count * bw)) (min (n - e) (8 * count)) <;> rfl
  · next hlen =>
    rw [Reader.run_bind, run_wire_take_short (Nat.not_le.mp hlen)]

theorem step_rle {e count : ℕ} {bs mid : Bytes} (he : e < n) (hheader : RleHeader bs count mid)
    (out : List α) :
    ((hybridLoopIn build bw n onPacked onRle).step (e, out)).run bs
      = if divCeil bw 8 ≤ mid.length then
          (fun vs => (.inl (e + min (n - e) count, out ++ vs), mid.drop (divCeil bw 8))) <$>
            onRle e (mid.take (divCeil bw 8)) (min (n - e) count)
        else .error (.err (.wire (.unexpectedEof (divCeil bw 8) mid.length))) := by
  obtain ⟨header, hread, hbit, hcount⟩ := hheader
  simp only [hybridLoopIn, if_pos he]
  rw [Reader.run_bind_ok (run_wire_ok hread), if_neg hbit, hcount]
  split
  · next hlen =>
    rw [Reader.run_bind_ok (run_wire_take_ok hlen)]
    cases onRle e (mid.take (divCeil bw 8)) (min (n - e) count) <;> rfl
  · next hlen =>
    rw [Reader.run_bind, run_wire_take_short (Nat.not_le.mp hlen)]

/-- The bytes start with no header, or with that of a run. -/
theorem header_cases (bs : Bytes) :
    (∃ e, readUvarint.run bs = .error (.err e)) ∨ (∃ count mid, PackedHeader bs count mid) ∨
      ∃ count mid, RleHeader bs count mid := by
  cases hread : readUvarint.run bs with
  | error f =>
    obtain ⟨e, rfl⟩ := readUvarint_error hread
    exact .inl ⟨e, rfl⟩
  | ok r =>
    obtain ⟨header, mid⟩ := r
    by_cases hbit : header &&& 1 = 1
    · exact .inr (.inl ⟨_, mid, header, hread, hbit, rfl⟩)
    · exact .inr (.inr ⟨_, mid, header, hread, hbit, rfl⟩)

theorem header_length {bs mid : Bytes} {header : UInt64}
    (h : readUvarint.run bs = .ok (header, mid)) : mid.length < bs.length :=
  readUvarint_consumes (run_wire_ok h)

/-- What a turn of the loop does on a run that fits: it fails with an error, or
    takes the run. -/
theorem step_cases (hC : Careful bw packedOk rleOk onPacked onRle) (hpos : 0 < bw) {e : ℕ}
    (he : e < n) (out : List α) {bs : Bytes}
    (hfits : ∀ count mid, PackedHeader bs count mid → PackedFits bw n e count mid) :
    (∃ err, ((hybridLoopIn build bw n onPacked onRle).step (e, out)).run bs
      = .error (.err err)) ∨
    ∃ e' vs rest, ((hybridLoopIn build bw n onPacked onRle).step (e, out)).run bs
        = .ok (.inl (e', out ++ vs), rest) ∧
      RunStep bw n packedOk rleOk (e, bs) (e', rest) ∧ e + vs.length = e' ∧ e' ≤ n ∧
      rest.length < bs.length := by
  rcases header_cases bs with ⟨err, hread⟩ | ⟨count, mid, hheader⟩ | ⟨count, mid, hheader⟩
  · have hwire : (wire readUvarint).run bs = .error (.err (.wire err)) := by
      change Except.mapError _ (readUvarint.run bs) = _
      rw [hread]
      rfl
    refine .inl ⟨.wire err, ?_⟩
    simp only [hybridLoopIn, if_pos he]
    rw [Reader.run_bind, hwire]
  · obtain ⟨hsmall, hnarrow⟩ := hfits count mid hheader
    have hshort := header_length hheader.choose_spec.1
    rw [step_packed hpos he hheader hsmall]
    by_cases hlen : count * bw ≤ mid.length
    · have hbits : min (n - e) (8 * count) * bw ≤ 8 * (mid.take (count * bw)).length := by
        rw [List.length_take_of_le hlen, ← Nat.mul_assoc]
        exact Nat.mul_le_mul_right _ (Nat.min_le_right _ _)
      have hcount := (Nat.mul_le_mul_right bw (Nat.min_le_right (n - e) _)).trans_lt hsmall
      obtain ⟨hvs, haccept⟩ := hC.packed e _ _ hcount hbits (hnarrow hlen)
      rw [if_pos hlen]
      rcases delivers_cases hvs with ⟨err, herr⟩ | ⟨vs, hok, hlength⟩
      · rw [herr]
        exact .inl ⟨err, rfl⟩
      · rw [hok]
        refine .inr ⟨_, vs, _, rfl, .packed he hheader hlen (haccept.mp ⟨vs, hok⟩), by omega,
          by omega, ?_⟩
        rw [List.length_drop]
        omega
    · rw [if_neg hlen]
      exact .inl ⟨_, rfl⟩
  · have hshort := header_length hheader.choose_spec.1
    rw [step_rle he hheader]
    by_cases hlen : divCeil bw 8 ≤ mid.length
    · obtain ⟨hvs, haccept⟩ := hC.rle e (mid.take (divCeil bw 8)) (min (n - e) count)
      rw [if_pos hlen]
      rcases delivers_cases hvs with ⟨err, herr⟩ | ⟨vs, hok, hlength⟩
      · rw [herr]
        exact .inl ⟨err, rfl⟩
      · rw [hok]
        refine .inr ⟨_, vs, _, rfl, .rle he hheader hlen (haccept.mp ⟨vs, hok⟩), by omega,
          by omega, ?_⟩
        rw [List.length_drop]
        omega
    · rw [if_neg hlen]
      exact .inl ⟨_, rfl⟩

/-- **No panic** on runs that fit, by induction on the bytes that are left. -/
theorem run_delivers (hC : Careful bw packedOk rleOk onPacked onRle) (hpos : 0 < bw) {e : ℕ}
    {out : List α} {bs : Bytes} (hout : out.length = e) (hle : e ≤ n)
    (hfits : RunsFitFrom bw n packedOk rleOk (e, bs)) :
    Delivers n ((·.1) <$> ((hybridLoopIn build bw n onPacked onRle).run (e, out)).run bs) := by
  obtain ⟨k, hk⟩ : ∃ k, bs.length < k := ⟨_, Nat.lt_succ_self _⟩
  induction k generalizing e out bs with
  | zero => exact absurd hk (Nat.not_lt_zero _)
  | succ k ih =>
    by_cases he : e < n
    · rcases step_cases hC hpos he out (hfits e bs .refl he) with
        ⟨err, hstep⟩ | ⟨e', vs, rest, hstep, hnext, hlength, hle', hshort⟩
      · rw [Loop.run_of_error _ hstep]
        trivial
      · rw [Loop.run_of_inl _ hstep]
        refine ih ?_ hle' (fun e'' bs' hreach => hfits e'' bs' (.head hnext hreach)) (by omega)
        rw [List.length_append, hout, hlength]
    · rw [Loop.run_of_inr _ (step_done he out bs)]
      change out.length = n
      omega

/-- **A panic otherwise**, in a build with overflow checks: where the decoder
    does not panic, the run that it comes to fits. -/
theorem packedFits_of_delivers (hG : Guarded bw onPacked) (hpos : 0 < bw) {e count : ℕ}
    (he : e < n) {out : List α} {bs mid : Bytes} (hheader : PackedHeader bs count mid)
    (h : Delivers n ((·.1) <$>
      ((hybridLoopIn .debug bw n onPacked onRle).run (e, out)).run bs)) :
    PackedFits bw n e count mid := by
  by_cases hsmall : 8 * count * bw < 2 ^ 64
  · refine ⟨hsmall, fun hlen i hi => ?_⟩
    by_contra hwide
    have hbits : min (n - e) (8 * count) * bw ≤ 8 * (mid.take (count * bw)).length := by
      rw [List.length_take_of_le hlen, ← Nat.mul_assoc]
      exact Nat.mul_le_mul_right _ (Nat.min_le_right _ _)
    obtain ⟨msg, hpanic⟩ := hG e _ _ hbits ⟨i, hi, Nat.not_le.mp hwide⟩
    have hstep := @step_packed α .debug bw n onPacked onRle _ _ _ _ hpos he hheader hsmall out
    rw [if_pos hlen, hpanic] at hstep
    rw [Loop.run_of_error _ hstep] at h
    exact h
  · -- one of the two products is too large
    exfalso
    obtain ⟨header, hread, hbit, hcount⟩ := hheader
    have hstep : ∃ msg, ((hybridLoopIn .debug bw n onPacked onRle).step (e, out)).run bs
        = .error (.panic msg) := by
      refine ⟨"attempt to multiply with overflow", ?_⟩
      simp only [hybridLoopIn, if_pos he]
      rw [Reader.run_bind_ok (run_wire_ok hread), if_pos hbit, hcount]
      by_cases htotal : count * 8 < 2 ^ 64
      · have hbits : ¬ count * 8 * bw < 2 ^ 64 := by rwa [Nat.mul_comm count 8]
        rw [mul_eq htotal, Reader.lift_ok, pure_bind, Build.mul, if_neg hbits]
        rfl
      · rw [Build.mul, if_neg htotal]
        rfl
    obtain ⟨msg, hstep⟩ := hstep
    rw [Loop.run_of_error _ hstep] at h
    exact h

/-- The decoder takes every run that it can. -/
theorem delivers_of_runStep (hC : Careful bw packedOk rleOk onPacked onRle)
    (hG : Guarded bw onPacked) (hpos : 0 < bw) {s t : ℕ × Bytes}
    (hstep : RunStep bw n packedOk rleOk s t) {out : List α}
    (h : Delivers n ((·.1) <$>
      ((hybridLoopIn .debug bw n onPacked onRle).run (s.1, out)).run s.2)) :
    ∃ out', Delivers n ((·.1) <$>
      ((hybridLoopIn .debug bw n onPacked onRle).run (t.1, out')).run t.2) := by
  cases hstep with
  | @packed e count bs mid he hheader hlen hok =>
    obtain ⟨hsmall, hnarrow⟩ := packedFits_of_delivers hG hpos he hheader h
    have hbits : min (n - e) (8 * count) * bw ≤ 8 * (mid.take (count * bw)).length := by
      rw [List.length_take_of_le hlen, ← Nat.mul_assoc]
      exact Nat.mul_le_mul_right _ (Nat.min_le_right _ _)
    have hcount := (Nat.mul_le_mul_right bw (Nat.min_le_right (n - e) _)).trans_lt hsmall
    obtain ⟨vs, hvs⟩ := (hC.packed e _ _ hcount hbits (hnarrow hlen)).2.mpr hok
    have hturn := @step_packed α .debug bw n onPacked onRle _ _ _ _ hpos he hheader hsmall out
    rw [if_pos hlen, hvs] at hturn
    rw [Loop.run_of_inl _ hturn] at h
    exact ⟨_, h⟩
  | @rle e count bs mid he hheader hlen hok =>
    obtain ⟨vs, hvs⟩ := (hC.rle e _ _).2.mpr hok
    have hturn := @step_rle α .debug bw n onPacked onRle _ _ _ _ he hheader out
    rw [if_pos hlen, hvs] at hturn
    rw [Loop.run_of_inl _ hturn] at h
    exact ⟨_, h⟩

theorem runsFit_of_delivers (hC : Careful bw packedOk rleOk onPacked onRle)
    (hG : Guarded bw onPacked) (hpos : 0 < bw) {bytes : Bytes}
    (h : Delivers n (hybridDecodeIn .debug bw n onPacked onRle bytes)) :
    RunsFit bw n packedOk rleOk bytes := by
  -- by induction on the runs before: the decoder comes to every one of them
  have hcomes : ∀ s, ReflTransGen (RunStep bw n packedOk rleOk) (0, bytes) s →
      ∃ out, Delivers n ((·.1) <$>
        ((hybridLoopIn .debug bw n onPacked onRle).run (s.1, out)).run s.2) := by
    intro s hreach
    induction hreach with
    | refl => exact ⟨[], h⟩
    | tail _ hstep ih =>
      obtain ⟨out, hout⟩ := ih
      exact delivers_of_runStep hC hG hpos hstep hout
  intro e bs hreach he count mid hheader
  obtain ⟨out, hout⟩ := hcomes (e, bs) hreach
  exact packedFits_of_delivers hG hpos he hheader hout

/-- What a decoder returns is all the values. -/
theorem hybridDecodeIn_length (hpacked : ∀ e chunk m vs, onPacked e chunk m = .ok vs → vs.length = m)
    (hrle : ∀ e chunk m vs, onRle e chunk m = .ok vs → vs.length = m) {bytes : Bytes}
    {vs : List α} (h : hybridDecodeIn build bw n onPacked onRle bytes = .ok vs) : vs.length = n := by
  obtain ⟨⟨out, rest⟩, hrun, rfl⟩ := map_eq_ok.mp h
  refine (hybridLoopIn build bw n onPacked onRle).run_invariant (fun s => s.2.length = s.1 ∧ s.1 ≤ n)
    (·.length = n) ?_ ⟨rfl, Nat.zero_le n⟩ hrun
  rintro ⟨e, out⟩ bs r rest ⟨hout, hle⟩ hstep
  dsimp only at hout hle
  by_cases he : e < n
  · simp only [hybridLoopIn, if_pos he] at hstep
    obtain ⟨header, mid, -, hstep⟩ := Reader.run_bind_eq_ok hstep
    split at hstep
    · obtain ⟨total, mid₁, -, hstep⟩ := Reader.run_bind_eq_ok hstep
      obtain ⟨bits, mid₂, -, hstep⟩ := Reader.run_bind_eq_ok hstep
      obtain ⟨chunk, mid₃, -, hstep⟩ := Reader.run_bind_eq_ok hstep
      obtain ⟨us, mid₄, hus, hstep⟩ := Reader.run_bind_eq_ok hstep
      have hlen := hpacked _ _ _ _ (Reader.run_lift_eq_ok.mp hus).1
      cases hstep
      exact ⟨by rw [List.length_append, hout, hlen], by omega⟩
    · obtain ⟨chunk, mid₁, -, hstep⟩ := Reader.run_bind_eq_ok hstep
      obtain ⟨us, mid₂, hus, hstep⟩ := Reader.run_bind_eq_ok hstep
      have hlen := hrle _ _ _ _ (Reader.run_lift_eq_ok.mp hus).1
      cases hstep
      exact ⟨by rw [List.length_append, hout, hlen], by omega⟩
  · rw [step_done he] at hstep
    cases hstep
    exact hout.trans (by omega)

end

/-- **Both builds deliver** exactly where all runs fit. -/
theorem hybridDecodeIn_delivers_iff {bw n : ℕ} {packedOk rleOk : Bytes → ℕ → Prop}
    {onPacked : Build → ℕ → Bytes → ℕ → Res CodecError (List α)}
    {onRle : ℕ → Bytes → ℕ → Res CodecError (List α)}
    (hC : ∀ build, Careful bw packedOk rleOk (onPacked build) onRle)
    (hG : Guarded bw (onPacked .debug)) (hpos : 0 < bw) (bytes : Bytes) :
    (∀ build, Delivers n (hybridDecodeIn build bw n (onPacked build) onRle bytes)) ↔
      RunsFit bw n packedOk rleOk bytes := by
  constructor
  · intro h
    exact runsFit_of_delivers (hC .debug) hG hpos (h .debug)
  · intro h build
    exact run_delivers (hC build) hpos rfl (Nat.zero_le n) h

/-! ## The decoders -/

theorem accumulate_eq {ε : Type} {build : Build} {window : Bytes} (h : window.length ≤ 8) :
    (build.accumulate window : Res ε UInt64) = .ok (accumulateLe window) := by
  cases build with
  | debug => exact if_pos h
  | release => rfl

/-- A value that touches at most eight bytes is read in every build. -/
theorem unpackAtIn_ok {build : Build} {chunk : Bytes} {w i : ℕ}
    (h : (i + 1) * w ≤ 8 * chunk.length) (hnarrow : i * w % 8 + w ≤ 64) :
    ∃ v, unpackAtIn build chunk w i = .ok v := by
  have hmul : (i + 1) * w = i * w + w := Nat.succ_mul i w
  have hceil : divCeil (i * w % 8 + w) 8 = (i * w % 8 + w + 7) / 8 := rfl
  have hstop : i * w / 8 + divCeil (i * w % 8 + w) 8 ≤ chunk.length := by omega
  have hlen : ((chunk.take (i * w / 8 + divCeil (i * w % 8 + w) 8)).drop (i * w / 8)).length
      ≤ 8 := by
    rw [List.length_drop, List.length_take_of_le hstop]
    omega
  rw [unpackAtIn, slice_ok (Nat.le_add_right _ _) hstop, ok_bind, accumulate_eq hlen]
  exact ⟨_, rfl⟩

theorem unpackAtIn_debug_panic {chunk : Bytes} {w i : ℕ} (h : (i + 1) * w ≤ 8 * chunk.length)
    (hwide : 64 < i * w % 8 + w) : ∃ msg, unpackAtIn .debug chunk w i = .error (.panic msg) := by
  have hmul : (i + 1) * w = i * w + w := Nat.succ_mul i w
  have hceil : divCeil (i * w % 8 + w) 8 = (i * w % 8 + w + 7) / 8 := rfl
  have hstop : i * w / 8 + divCeil (i * w % 8 + w) 8 ≤ chunk.length := by omega
  have hlen : ¬ ((chunk.take (i * w / 8 + divCeil (i * w % 8 + w) 8)).drop (i * w / 8)).length
      ≤ 8 := by
    rw [List.length_drop, List.length_take_of_le hstop]
    omega
  refine ⟨"attempt to shift left with overflow", ?_⟩
  rw [unpackAtIn, slice_ok (Nat.le_add_right _ _) hstop, ok_bind, Build.accumulate, if_neg hlen]
  rfl

theorem careful_packedValuesIn (build : Build) (bw : ℕ) :
    Careful bw (fun _ _ => True) (fun _ _ => True) (packedValuesIn build bw) rleValues where
  packed e chunk m _ hbits hnarrow := by
    have hall : ∃ vs, packedValuesIn build bw e chunk m = .ok vs := by
      refine exists_mapM fun i hi => unpackAtIn_ok ?_ (hnarrow i (List.mem_range.mp hi))
      exact (Nat.mul_le_mul_right bw (List.mem_range.mp hi)).trans hbits
    obtain ⟨vs, hvs⟩ := hall
    have hlength : vs.length = m := (mapM_length hvs).trans List.length_range
    exact ⟨by rw [hvs]; exact hlength, iff_of_true ⟨vs, hvs⟩ trivial⟩
  rle e chunk m := ⟨List.length_replicate, iff_of_true ⟨_, rfl⟩ trivial⟩

theorem guarded_packedValuesIn (bw : ℕ) : Guarded bw (packedValuesIn .debug bw) := by
  rintro e chunk m hbits ⟨i, hi, hwide⟩
  have hthere : ∀ j < m, (j + 1) * bw ≤ 8 * chunk.length := fun j hj =>
    (Nat.mul_le_mul_right bw hj).trans hbits
  cases h : packedValuesIn .debug bw e chunk m with
  | ok vs =>
    obtain ⟨v, -, hv⟩ := (mapM_getElem? h i).1 i (List.getElem?_range hi)
    obtain ⟨msg, hpanic⟩ := unpackAtIn_debug_panic (hthere i hi) hwide
    rw [hpanic] at hv
    cases hv
  | error f =>
    -- the first value that fails touches nine bytes as well
    obtain ⟨j, j', hj, hf, -⟩ := mapM_eq_error.mp h
    have hmem := List.mem_range.mp (List.mem_of_getElem? hj)
    by_cases hnarrow : j' * bw % 8 + bw ≤ 64
    · obtain ⟨v, hv⟩ := @unpackAtIn_ok .debug _ _ _ (hthere j' hmem) hnarrow
      rw [hv] at hf
      cases hf
    · obtain ⟨msg, hpanic⟩ := unpackAtIn_debug_panic (hthere j' hmem) (Nat.not_le.mp hnarrow)
      obtain rfl : f = .panic msg := Except.error.inj (hf.symm.trans hpanic)
      exact ⟨msg, rfl⟩

/-- Up to 57 bits, no value touches nine bytes. -/
theorem guarded_of_le {bw : ℕ} (hbw : bw ≤ 57)
    (onPacked : ℕ → Bytes → ℕ → Res CodecError (List α)) : Guarded bw onPacked := by
  rintro e chunk m - ⟨i, -, hwide⟩
  omega

theorem careful_unpackIndices [H : Host] {build : Build} {room : ℕ} (hhost : Limits H build room)
    {bitWidth : UInt8} (hbw : bitWidth ≤ 32) :
    Careful bitWidth.toNat (fun _ _ => True) (fun _ _ => True)
      (fun _ chunk n => unpackIndicesOn chunk n bitWidth)
      (fun _ valueChunk n => .ok (List.replicate n (rleIndex valueChunk))) where
  packed e chunk m hcount hbits _ := by
    have hok := unpackIndices_eq hbw hbits
    rw [unpackIndicesOn_eq hhost hcount hbits]
    exact ⟨by rw [hok]; exact unpackIndices_length hbw hok, iff_of_true ⟨_, hok⟩ trivial⟩
  rle e chunk m := ⟨List.length_replicate, iff_of_true ⟨_, rfl⟩ trivial⟩

/-- The indices of a bit-packed run are in the dictionary. -/
def PackedInDict (bw dictSize : ℕ) (chunk : Bytes) (m : ℕ) : Prop :=
  ∀ d ∈ lowDigits (2 ^ bw) m (leNat chunk), d < dictSize

/-- The index of an RLE run is in the dictionary. -/
def RunInDict (dictSize : ℕ) (valueChunk : Bytes) (_ : ℕ) : Prop :=
  (rleIndex valueChunk).toNat < dictSize

/-- Looking up fails with an error, where it fails. -/
theorem lookupIndex_cases (dict : List α) (idx : UInt64) :
    (idx.toNat < dict.length ∧ ∃ v, lookupIndex dict idx = .ok v) ∨
      (dict.length ≤ idx.toNat ∧ ∃ e, lookupIndex dict idx = .error (.err e)) := by
  by_cases h : idx.toNat < dict.length
  · exact .inl ⟨h, dict[idx.toNat], lookupIndex_eq_ok.mpr (List.getElem?_eq_getElem h)⟩
  · rw [lookupIndex, List.getElem?_eq_none_iff.mpr (Nat.not_lt.mp h)]
    exact .inr ⟨Nat.not_lt.mp h, _, rfl⟩

theorem careful_unpackLookup [H : Host] {build : Build} {room : ℕ} (hhost : Limits H build room)
    (dict : List α) {bitWidth : UInt8} (hbw : bitWidth ≤ 32) (hbw0 : bitWidth ≠ 0) :
    Careful bitWidth.toNat (PackedInDict bitWidth.toNat dict.length) (RunInDict dict.length)
      (fun _ chunk n => unpackLookupOn chunk n bitWidth dict)
      (fun _ valueChunk n => lookupRun dict valueChunk n) where
  packed e chunk m hcount hbits _ := by
    rcases unpackLookupOn_eq hhost hcount hbits dict with hrun | ⟨hm, rfl, hrun⟩
    swap
    · -- a kernel looks at the empty dictionary, of which there is no entry
      rw [hrun]
      refine ⟨trivial, iff_of_false (fun ⟨_, h⟩ => by cases h) fun h => ?_⟩
      have hlen := length_lowDigits (2 ^ bitWidth.toNat) m (leNat chunk)
      obtain ⟨d, hd⟩ := List.exists_mem_of_length_pos (hlen ▸ Nat.pos_of_ne_zero hm)
      exact Nat.not_lt_zero d (h d hd)
    rw [hrun]
    have hpow : 2 ^ bitWidth.toNat ≤ 2 ^ 32 :=
      Nat.pow_le_pow_right (by decide) (UInt8.le_iff_toNat_le.mp hbw)
    have hdigit : ∀ d ∈ lowDigits (2 ^ bitWidth.toNat) m (leNat chunk),
        (UInt64.ofNat d).toNat = d := fun d hd =>
      UInt64.toNat_ofNat_of_lt'
        (((lt_of_mem_lowDigits (Nat.two_pow_pos _) hd).trans_le hpow).trans (by decide))
    rw [unpackLookup_eq dict hbw hbw0 hbits, PackedInDict]
    constructor
    · cases h : (lowDigits (2 ^ bitWidth.toNat) m (leNat chunk)).mapM
          fun d => lookupIndex dict (UInt64.ofNat d) with
      | ok vs => exact (mapM_length h).trans (length_lowDigits _ _ _)
      | error f =>
        obtain ⟨i, d, -, hd, -⟩ := mapM_eq_error.mp h
        rcases lookupIndex_cases dict (UInt64.ofNat d) with ⟨-, v, hv⟩ | ⟨-, err, herr⟩
        · rw [hv] at hd
          cases hd
        · rw [herr] at hd
          cases hd
          trivial
    · constructor
      · rintro ⟨vs, hvs⟩ d hd
        obtain ⟨i, hi⟩ := List.mem_iff_getElem?.mp hd
        obtain ⟨v, -, hv⟩ := (mapM_getElem? hvs i).1 d hi
        rw [lookupIndex_eq_ok, hdigit d hd] at hv
        exact (List.getElem?_eq_some_iff.mp hv).1
      · intro hall
        refine exists_mapM fun d hd => ⟨dict.get ⟨d, hall d hd⟩, ?_⟩
        rw [lookupIndex_eq_ok, hdigit d hd]
        exact List.getElem?_eq_getElem (hall d hd)
  rle e chunk m := by
    rw [RunInDict, ← UInt32.toNat_toUInt64, lookupRun]
    rcases lookupIndex_cases dict (rleIndex chunk).toUInt64 with ⟨hlt, v, hv⟩ | ⟨hle, err, herr⟩
    · rw [hv]
      exact ⟨List.length_replicate, iff_of_true ⟨_, rfl⟩ hlt⟩
    · rw [herr]
      refine ⟨trivial, iff_of_false ?_ (Nat.not_lt.mpr hle)⟩
      rintro ⟨vs, hvs⟩
      cases hvs

/-- There is room for the values of a dictionary page, and its runs fit, for a width
    that the decoders accept. -/
def BodyFits (room size : ℕ) (packedOk : ℕ → Bytes → ℕ → Prop) (rleOk : Bytes → ℕ → Prop)
    (body : Bytes) (n : ℕ) : Prop :=
  ∀ bitWidth bytes, body = bitWidth :: bytes → bitWidth ≤ 32 →
    n * size ≤ room ∧ RunsFit bitWidth.toNat n (packedOk bitWidth.toNat) rleOk bytes

theorem bodyFits_cons {room size : ℕ} {packedOk : ℕ → Bytes → ℕ → Prop}
    {rleOk : Bytes → ℕ → Prop} {bitWidth : UInt8} {bytes : Bytes} {n : ℕ} :
    BodyFits room size packedOk rleOk (bitWidth :: bytes) n ↔ (bitWidth ≤ 32 →
      n * size ≤ room ∧ RunsFit bitWidth.toNat n (packedOk bitWidth.toNat) rleOk bytes) := by
  constructor
  · intro h
    exact h bitWidth bytes rfl
  · rintro h _ _ ⟨⟩
    exact h

theorem bitWidth_pos {bitWidth : UInt8} (h : bitWidth ≠ 0) : 0 < bitWidth.toNat :=
  Nat.pos_of_ne_zero fun h0 => h (UInt8.toNat_inj.mp h0)

theorem bitWidth_le {bitWidth : UInt8} (h : bitWidth ≤ 32) : bitWidth.toNat ≤ 57 :=
  (UInt8.le_iff_toNat_le.mp h).trans (by decide)

theorem runsFit_zero_values (bw : ℕ) (packedOk rleOk : Bytes → ℕ → Prop) (bytes : Bytes) :
    RunsFit bw 0 packedOk rleOk bytes :=
  fun _ _ _ he => absurd he (Nat.not_lt_zero _)

theorem runsFit_zero_width (n : ℕ) (packedOk rleOk : Bytes → ℕ → Prop) (bytes : Bytes) :
    RunsFit 0 n packedOk rleOk bytes :=
  fun _ _ _ _ _ _ _ => ⟨by simp, fun _ _ _ => by simp⟩

theorem decodeRleBitPackedIn_delivers_iff {n : ℕ} {bytes : Bytes} {bitWidth : UInt8}
    (hbw : bitWidth ≤ 64) :
    (∀ build, Delivers n (decodeRleBitPackedIn build bytes bitWidth n)) ↔
      RunsFit bitWidth.toNat n (fun _ _ => True) (fun _ _ => True) bytes := by
  simp only [decodeRleBitPackedIn, if_neg (UInt8.not_lt.mpr hbw)]
  by_cases hzero : n = 0
  · subst hzero
    exact iff_of_true (fun _ => rfl) (runsFit_zero_values _ _ _ _)
  simp only [if_neg hzero]
  by_cases hbw0 : bitWidth = 0
  · subst hbw0
    exact iff_of_true (fun _ => List.length_replicate) (runsFit_zero_width _ _ _ _)
  simp only [if_neg hbw0]
  exact hybridDecodeIn_delivers_iff (fun build => careful_packedValuesIn build _)
    (guarded_packedValuesIn _) (bitWidth_pos hbw0) bytes

/-! ## On a machine -/

section
variable (room n : ℕ) (simd : Option Simd)

/-- A vector that there is room for changes nothing, another is a panic. -/
theorem delivers_withCapacity {β : Type} {size : ℕ} {r : Build → Res CodecError (List β)} :
    (∀ build, Delivers n ((hostOf build room simd).withCapacity n size >>= fun _ => r build)) ↔
      n * size ≤ room ∧ ∀ build, Delivers n (r build) := by
  have hhost (build : Build) := limits_hostOf build room simd
  by_cases hroom : n * size ≤ room
  · have hrun (build : Build) : ((hostOf build room simd).withCapacity n size >>= fun _ => r build)
        = r build := by rw [(hhost build).fits n size hroom, ok_bind]
    simp only [hrun, hroom, true_and]
  · obtain ⟨e, hrun, msg, rfl⟩ := (hhost .debug).full n size (Nat.not_le.mp hroom)
    refine iff_of_false (fun h => ?_) fun h => hroom h.1
    have hdebug := h .debug
    rw [hrun] at hdebug
    exact hdebug

theorem decodeRleBitPackedIn_host_delivers_iff {bytes : Bytes} {bitWidth : UInt8}
    (hbw : bitWidth ≤ 64) :
    (∀ build, Delivers n
        (@decodeRleBitPackedIn (hostOf build room simd) build bytes bitWidth n)) ↔
      n * 8 ≤ room ∧ RunsFit bitWidth.toNat n (fun _ _ => True) (fun _ _ => True) bytes := by
  rw [← decodeRleBitPackedIn_delivers_iff hbw]
  simp only [decodeRleBitPackedIn, if_neg (UInt8.not_lt.mpr hbw)]
  by_cases hzero : n = 0
  · subst hzero
    exact iff_of_true (fun _ => rfl) ⟨by simp, fun _ => rfl⟩
  · simp only [if_neg hzero]
    exact delivers_withCapacity room n simd

theorem decodeRleDictionaryIndicesIn_delivers_iff (body : Bytes) :
    (∀ build, Delivers n
        (@decodeRleDictionaryIndicesIn (hostOf build room simd) build body n)) ↔
      BodyFits room 4 (fun _ _ _ => True) (fun _ _ => True) body n := by
  cases body with
  | nil => exact iff_of_true (fun _ => trivial) (fun _ _ h => by cases h)
  | cons bitWidth bytes =>
    rw [bodyFits_cons]
    simp only [decodeRleDictionaryIndicesIn]
    by_cases hbw : 32 < bitWidth
    · simp only [if_pos hbw]
      exact iff_of_true (fun _ => trivial) fun h => absurd hbw (UInt8.not_lt.mpr h)
    have hle : bitWidth ≤ 32 := UInt8.not_lt.mp hbw
    simp only [if_neg hbw, forall_prop_of_true hle]
    by_cases hzero : n = 0
    · subst hzero
      exact iff_of_true (fun _ => rfl) ⟨by simp, runsFit_zero_values _ _ _ _⟩
    simp only [if_neg hzero]
    refine (delivers_withCapacity room n simd).trans (and_congr_right fun _ => ?_)
    by_cases hbw0 : bitWidth = 0
    · subst hbw0
      exact iff_of_true (fun _ => List.length_replicate) (runsFit_zero_width _ _ _ _)
    simp only [if_neg hbw0]
    exact hybridDecodeIn_delivers_iff
      (fun build => @careful_unpackIndices (hostOf build room simd) _ _
        (limits_hostOf build room simd) _ hle)
      (guarded_of_le (bitWidth_le hle) _) (bitWidth_pos hbw0) bytes

theorem decodeRleDictionaryIn_delivers_iff (size : ℕ) (body : Bytes) (dict : List α) :
    (∀ build, Delivers n
        (@decodeRleDictionaryIn _ (hostOf build room simd) build size body dict n)) ↔
      BodyFits room size (fun bw => PackedInDict bw dict.length) (RunInDict dict.length) body n := by
  cases body with
  | nil => exact iff_of_true (fun _ => trivial) (fun _ _ h => by cases h)
  | cons bitWidth bytes =>
    rw [bodyFits_cons]
    simp only [decodeRleDictionaryIn]
    by_cases hbw : 32 < bitWidth
    · simp only [if_pos hbw]
      exact iff_of_true (fun _ => trivial) fun h => absurd hbw (UInt8.not_lt.mpr h)
    have hle : bitWidth ≤ 32 := UInt8.not_lt.mp hbw
    simp only [if_neg hbw, forall_prop_of_true hle]
    by_cases hzero : n = 0
    · subst hzero
      exact iff_of_true (fun _ => rfl) ⟨by simp, runsFit_zero_values _ _ _ _⟩
    simp only [if_neg hzero]
    refine (delivers_withCapacity room n simd).trans (and_congr_right fun _ => ?_)
    by_cases hbw0 : bitWidth = 0
    · subst hbw0
      refine iff_of_true (fun _ => ?_) (runsFit_zero_width _ _ _ _)
      rw [if_pos rfl]
      cases dict with
      | nil => trivial
      | cons v dict => exact List.length_replicate
    simp only [if_neg hbw0]
    exact hybridDecodeIn_delivers_iff
      (fun build => @careful_unpackLookup _ (hostOf build room simd) _ _
        (limits_hostOf build room simd) dict _ hle hbw0)
      (guarded_of_le (bitWidth_le hle) _) (bitWidth_pos hbw0) bytes

/-- **A decoder returns an error or all the values asked for**, in builds with
    and without overflow checks and with any kernels, exactly where there is room for
    the values and all runs that it comes to fit. -/
theorem decoders_deliver_iff (size : ℕ) :
    (∀ (bytes : Bytes) (bitWidth : UInt8), bitWidth ≤ 64 →
      ((∀ build, Delivers n
          (@decodeRleBitPackedIn (hostOf build room simd) build bytes bitWidth n)) ↔
        n * 8 ≤ room ∧
          RunsFit bitWidth.toNat n (fun _ _ => True) (fun _ _ => True) bytes)) ∧
    (∀ body : Bytes, (∀ build, Delivers n
        (@decodeRleDictionaryIndicesIn (hostOf build room simd) build body n)) ↔
      BodyFits room 4 (fun _ _ _ => True) (fun _ _ => True) body n) ∧
    ∀ (body : Bytes) (dict : List α), (∀ build, Delivers n
        (@decodeRleDictionaryIn _ (hostOf build room simd) build size body dict n)) ↔
      BodyFits room size (fun bw => PackedInDict bw dict.length) (RunInDict dict.length) body n :=
  ⟨fun _ _ => decodeRleBitPackedIn_host_delivers_iff room n simd,
    decodeRleDictionaryIndicesIn_delivers_iff room n simd,
    decodeRleDictionaryIn_delivers_iff room n simd size⟩

end

/-- A bit-packed run of 2^58 groups at width 8: 2^64 bits, of which the check
    sees none. -/
def wrappingRun : Bytes := [0x81, 0x80, 0x80, 0x80, 0x80, 0x80, 0x80, 0x80, 0x08]

theorem not_delivers_of_panic {n : ℕ} {r : Res CodecError (List α)} {msg : String}
    (h : r = .error (.panic msg)) : ¬ Delivers n r := by
  subst h
  exact id

/-- Nine bytes that make each of the decoders panic in a debug build, whatever kernels
    there are, and in a release build without kernels. -/
theorem decoders_panic_wrapping :
    (∀ simd : Option Simd,
      ¬ Delivers 1 (@decodeRleBitPackedIn (hostOf .debug (2 ^ 63 - 1) simd) .debug wrappingRun 8 1) ∧
      ¬ Delivers 1 (@decodeRleDictionaryIndicesIn (hostOf .debug (2 ^ 63 - 1) simd) .debug
        (8 :: wrappingRun) 1) ∧
      ¬ Delivers 1 (@decodeRleDictionaryIn _ (hostOf .debug (2 ^ 63 - 1) simd) .debug 8
        (8 :: wrappingRun) [(7 : Int64)] 1)) ∧
    ¬ Delivers 1 (@decodeRleBitPackedIn (hostOf .release (2 ^ 63 - 1)) .release wrappingRun 8 1) ∧
      ¬ Delivers 1 (@decodeRleDictionaryIndicesIn (hostOf .release (2 ^ 63 - 1)) .release
        (8 :: wrappingRun) 1) ∧
      ¬ Delivers 1 (@decodeRleDictionaryIn _ (hostOf .release (2 ^ 63 - 1)) .release 8
        (8 :: wrappingRun) [(7 : Int64)] 1) := by
  have hoverflow {β : Type} (onPacked onRle : ℕ → Bytes → ℕ → Res CodecError (List β)) :
      hybridDecodeIn .debug 8 1 onPacked onRle wrappingRun
        = .error (.panic "attempt to multiply with overflow") := rfl
  constructor
  · intro simd
    exact ⟨not_delivers_of_panic (hoverflow (packedValuesIn .debug 8) rleValues),
      not_delivers_of_panic (hoverflow
        (fun _ chunk n => @unpackIndicesOn (hostOf .debug (2 ^ 63 - 1) simd) chunk n 8)
        fun _ valueChunk n => .ok (List.replicate n (rleIndex valueChunk))),
      not_delivers_of_panic (hoverflow
        (fun _ chunk n => @unpackLookupOn _ (hostOf .debug (2 ^ 63 - 1) simd) chunk n 8 [(7 : Int64)])
        fun _ valueChunk n => lookupRun [(7 : Int64)] valueChunk n)⟩
  -- the products wrap to 0: the chunk is empty, and one value is read from it
  · exact ⟨@not_delivers_of_panic _ _ _ "range out of bounds" (by decide +kernel),
      @not_delivers_of_panic _ _ _ "range out of bounds" (by decide +kernel),
      @not_delivers_of_panic _ _ _ "range out of bounds" (by decide +kernel)⟩

end EmatixParquet
