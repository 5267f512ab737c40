/-
  DELTA_BINARY_PACKED (`delta.rs`) — the decoders for 32-bit and 64-bit integers.

  A stream is a header and blocks of mini-blocks.  `DeltaEncoding` is the format:
  the streams that encode a list of values.

  * `pushDeltas_chain`, `readMiniBlocks_encoding`, `deltaLoop_blocks`: the three
    loops on what the format allows;
  * `decodeDelta_encoding`: where there is room for it, the decoders return the list,
    and stop at the end of its encoding; elsewhere they panic.
-/
import EmatixParquet.Codec.Bitpack64
import EmatixParquet.Codec.Column
import EmatixParquet.Codec.Kernels

namespace EmatixParquet

open Wire

variable {α : Type}

/-! ## The decoders -/

/-- An error of the DELTA decoder. -/
def deltaErr (msg : String) : CodecError := .decompress s!"DELTA_BINARY_PACKED: {msg}"

/-- What the two decoders do each in their own way: how wide they accumulate,
    how they read the first value and the deltas, and the sizes of what they
    collect and of their buffers. -/
structure DeltaFormat (α : Type) where
  accBits : ℕ
  valueSize : ℕ
  bufferSizes : List ℕ
  toAcc : α → BitVec accBits
  ofAcc : BitVec accBits → α
  readFirst : CursorM α
  checkWidth : UInt8 → Res CodecError Unit
  unpack : Host → Bytes → ℕ → UInt8 → Res CodecError (List UInt64)

/-- `decode_delta_i32_from`: an `i64` accumulator. -/
def deltaI32 : DeltaFormat Int32 where
  accBits := 64
  valueSize := 4
  bufferSizes := [4]
  toAcc v := v.toBitVec.signExtend 64
  ofAcc acc := Int32.ofBitVec (acc.setWidth 32)
  readFirst := readZigzagI32
  checkWidth _ := .ok ()
  unpack _ chunk n bitWidth := List.map UInt32.toUInt64 <$> unpackIndicesOn chunk n bitWidth

/-- `decode_delta_i64_from`: an `i128` accumulator; two unpackers, each with a
    buffer. -/
def deltaI64 : DeltaFormat Int64 where
  accBits := 128
  valueSize := 8
  bufferSizes := [4, 8]
  toAcc v := v.toBitVec.signExtend 128
  ofAcc acc := Int64.ofBitVec (acc.setWidth 64)
  readFirst := readZigzagI64
  checkWidth bitWidth :=
    if 64 < bitWidth then codecErr (deltaErr "bit_width > 64 is not representable") else .ok ()
  unpack _ chunk n bitWidth :=
    if bitWidth ≤ 32 then List.map UInt32.toUInt64 <$> unpackIndicesOn chunk n bitWidth
    else unpackIndices64 chunk n bitWidth

/-- The last value, the values so far, and how many are still to come. -/
structure DeltaState (f : DeltaFormat α) where
  prev : BitVec f.accBits
  out : List α
  remaining : ℕ

variable (f : DeltaFormat α)

/-- There is room for the values of a stream and for the buffers of a mini-block. -/
structure DeltaFormat.RoomFor (room miniBlockSize numValues : ℕ) : Prop where
  values : numValues * f.valueSize ≤ room
  buffers : ∀ size ∈ f.bufferSizes, miniBlockSize * size ≤ room

/-- `Vec::with_capacity(mini_block_size)`, for one buffer after the other. -/
def reserveBuffers [Host] (miniBlockSize : ℕ) : List ℕ → Res CodecError Unit
  | [] => .ok ()
  | size :: sizes => do
    Host.withCapacity miniBlockSize size
    reserveBuffers miniBlockSize sizes

/-- The deltas of a mini-block: those after the last value are left. -/
def pushDeltas (blockMinDelta : Int64) (s : DeltaState f) : List UInt64 → DeltaState f
  | [] => s
  | delta :: deltas =>
    if s.remaining = 0 then s
    else
      let prev := s.prev + blockMinDelta.toBitVec.signExtend f.accBits
        + delta.toBitVec.setWidth f.accBits
      pushDeltas blockMinDelta
        { prev, out := s.out ++ [f.ofAcc prev], remaining := s.remaining - 1 } deltas

/-- `for &bit_width in &bit_widths[..mini_blocks_per_block]`. -/
def readMiniBlocks [H : Host] (miniBlockSize : ℕ) (blockMinDelta : Int64) (s : DeltaState f) :
    List UInt8 → CodecM (DeltaState f)
  | [] => pure s
  | bitWidth :: bitWidths =>
    if s.remaining = 0 then pure s
    else do
      Reader.lift (f.checkWidth bitWidth)
      let product ← Reader.lift (Host.mul miniBlockSize bitWidth.toNat)
      let chunk ← wire (take (product / 8))
      let deltas ← Reader.lift (f.unpack H chunk miniBlockSize bitWidth)
      readMiniBlocks miniBlockSize blockMinDelta (pushDeltas f blockMinDelta s deltas) bitWidths

/-- `for i in 0..mini_blocks_per_block { bit_widths[i] = cur.read_u8()? }`. -/
def readBitWidths : ℕ → CursorM (List UInt8)
  | 0 => pure []
  | n + 1 => do
    let bitWidth ← readU8
    (bitWidth :: ·) <$> readBitWidths n

/-- `while remaining > 0`: the blocks. -/
def deltaLoop [Host] (miniBlocksPerBlock miniBlockSize : ℕ) :
    Loop (Fault CodecError) (DeltaState f) (List α) where
  step s :=
    if s.remaining = 0 then pure (.inr s.out)
    else do
      let blockMinDelta ← wire readZigzagI64
      if 64 < miniBlocksPerBlock then
        Reader.lift (codecErr (deltaErr "mini_blocks_per_block too large"))
      else do
        let bitWidths ← wire (readBitWidths miniBlocksPerBlock)
        .inl <$> readMiniBlocks f miniBlockSize blockMinDelta s bitWidths
  consumes {s bs s' rest} h := by
    split at h
    · cases h
    · obtain ⟨minDelta, mid, hmin, h⟩ := Reader.run_bind_eq_ok h
      have hmin := Reader.run_mapError_eq_ok.mp hmin
      rw [readZigzagI64, Reader.run_map] at hmin
      split at hmin
      · cases hmin
      · next hu =>
        cases hmin
        exact lt_of_le_of_lt (Reader.run_length_le _ h) (consumes_of_readU8 hu)

/-- `decode_delta_{i32, i64}_from`. -/
def decodeDeltaFrom [Host] : CodecM (List α) := do
  let blockSize ← wire readUvarint
  let miniBlocksPerBlock ← wire readUvarint
  let numValues ← wire readUvarint
  let firstValue ← wire f.readFirst
  if numValues.toNat = 0 then pure []
  else if miniBlocksPerBlock.toNat = 0 then
    Reader.lift (codecErr (deltaErr "mini_blocks_per_block must be > 0"))
  else if blockSize.toNat % miniBlocksPerBlock.toNat ≠ 0 then
    Reader.lift (codecErr (deltaErr "block_size must be a multiple of mini_blocks_per_block"))
  else do
    Reader.lift (Host.withCapacity numValues.toNat f.valueSize)
    Reader.lift (reserveBuffers (blockSize.toNat / miniBlocksPerBlock.toNat) f.bufferSizes)
    (deltaLoop f miniBlocksPerBlock.toNat (blockSize.toNat / miniBlocksPerBlock.toNat)).run
      { prev := f.toAcc firstValue, out := [firstValue], remaining := numValues.toNat - 1 }

/-- `decode_delta_i32_from`, at the cursor. -/
def decodeDeltaI32From [Host] : CodecM (List Int32) := decodeDeltaFrom deltaI32

/-- `decode_delta_i64_from`, at the cursor. -/
def decodeDeltaI64From [Host] : CodecM (List Int64) := decodeDeltaFrom deltaI64

/-- `decode_delta_i32`; what follows the stream is left unread. -/
def decodeDeltaI32 [Host] (bytes : Bytes) : Res CodecError (List Int32) :=
  (·.1) <$> decodeDeltaI32From.run bytes

/-- `decode_delta_i64`; what follows the stream is left unread. -/
def decodeDeltaI64 [Host] (bytes : Bytes) : Res CodecError (List Int64) :=
  (·.1) <$> decodeDeltaI64From.run bytes

/-! ## The format -/

/-- An integer of a delta stream: its word. -/
class DeltaWord (α : Type) where
  bits : ℕ
  toBitVec : α → BitVec bits

instance : DeltaWord Int32 := ⟨32, Int32.toBitVec⟩
instance : DeltaWord Int64 := ⟨64, Int64.toBitVec⟩

/-- An unsigned LEB128 number that fits 64 bits, in at most ten bytes. -/
structure IsVarint (n : ℕ) (bytes : Bytes) : Prop where
  uleb128 : Uleb128 bytes n
  short : bytes.length ≤ 10
  fits : n < 2 ^ 64

/-- Numbers of `width` bits each, packed from the lowest bit on. -/
def packDigits (width : ℕ) (deltas : List ℕ) : Bytes :=
  leBytes (deltas.length * width / 8) (Nat.ofDigits (2 ^ width) deltas)

/-- The sizes of blocks and mini-blocks. -/
structure DeltaSizes where
  blockSize : ℕ
  miniBlocks : ℕ
  pos : 0 < blockSize
  block : blockSize % 128 = 0
  countPos : 0 < miniBlocks
  count : miniBlocks ≤ 64
  divides : blockSize % miniBlocks = 0
  miniBlock : blockSize / miniBlocks % 32 = 0

/-- The values of a mini-block. -/
def DeltaSizes.miniBlockSize (p : DeltaSizes) : ℕ := p.blockSize / p.miniBlocks

section
variable [DeltaWord α]

/-- From the value `prev` on, the deltas lead to these values, modulo the word
    size; deltas after the last value are padding. -/
inductive DeltaChain (minDelta : Int64) : α → List ℕ → List α → Prop
  | padding (prev : α) (deltas : List ℕ) : DeltaChain minDelta prev deltas []
  | next {prev value : α} {delta : ℕ} {deltas : List ℕ} {values : List α}
    (hvalue : DeltaWord.toBitVec value = DeltaWord.toBitVec prev
      + BitVec.ofInt _ minDelta.toInt + BitVec.ofNat _ delta)
    (hrest : DeltaChain minDelta value deltas values) :
    DeltaChain minDelta prev (delta :: deltas) (value :: values)

/-- The mini-blocks of a block: their widths and their bodies.  Once the values
    are exhausted, the widths that are left mean nothing and have no bodies. -/
inductive MiniBlocks (size : ℕ) (minDelta : Int64) : α → List α → List UInt8 → Bytes → Prop
  | unused (prev : α) (widths : List UInt8) : MiniBlocks size minDelta prev [] widths []
  | used {prev : α} {values : List α} {width : UInt8} {widths : List UInt8} {deltas : List ℕ}
    {body : Bytes} (hne : values ≠ []) (hwidth : width.toNat ≤ DeltaWord.bits α)
    (hlen : deltas.length = size) (hdeltas : ∀ d ∈ deltas, d < 2 ^ width.toNat)
    (hchain : DeltaChain minDelta prev deltas (values.take size))
    (hrest : MiniBlocks size minDelta ((values.take size).getLastD prev) (values.drop size)
      widths body) :
    MiniBlocks size minDelta prev values (width :: widths) (packDigits width.toNat deltas ++ body)

/-- The blocks of the values after `prev`. -/
inductive DeltaBlocks (p : DeltaSizes) : α → List α → Bytes → Prop
  | done (prev : α) : DeltaBlocks p prev [] []
  | block {prev : α} {values : List α} {minDelta : Int64} {head : Bytes} {widths : List UInt8}
    {body rest : Bytes} (hne : values ≠ [])
    (hhead : IsVarint (zigzag minDelta.toBitVec).toNat head)
    (hwidths : widths.length = p.miniBlocks)
    (hmini : MiniBlocks p.miniBlockSize minDelta prev (values.take p.blockSize) widths body)
    (hrest : DeltaBlocks p ((values.take p.blockSize).getLastD prev)
      (values.drop p.blockSize) rest) :
    DeltaBlocks p prev values (head ++ (widths ++ (body ++ rest)))

/-- The encodings of a list.  That of the empty list has a first value all the
    same. -/
inductive DeltaEncoding (p : DeltaSizes) : List α → Bytes → Prop
  | stream {values : List α} {blockSize miniBlocks numValues head body : Bytes} (first : α)
    (hblock : IsVarint p.blockSize blockSize) (hmini : IsVarint p.miniBlocks miniBlocks)
    (hnum : IsVarint values.length numValues)
    (hhead : IsVarint (zigzag (DeltaWord.toBitVec first)).toNat head)
    (hfirst : ∀ v ∈ values.head?, v = first) (hbody : DeltaBlocks p first values.tail body) :
    DeltaEncoding p values (blockSize ++ (miniBlocks ++ (numValues ++ (head ++ body))))

end

/-! ## Words -/

theorem setWidth_ofInt {k n : ℕ} (h : k ≤ n) (i : ℤ) :
    (BitVec.ofInt n i).setWidth k = BitVec.ofInt k i := by
  refine BitVec.eq_of_toNat_eq ?_
  have hdvd : ((2 ^ k : ℕ) : ℤ) ∣ (2 ^ n : ℕ) := Int.natCast_dvd_natCast.mpr (pow_dvd_pow 2 h)
  have hpos : 0 ≤ i % (2 ^ n : ℕ) := Int.emod_nonneg _ (by positivity)
  rw [BitVec.toNat_setWidth, BitVec.toNat_ofInt, BitVec.toNat_ofInt, ← Int.emod_emod_of_dvd i hdvd,
    Int.toNat_emod hpos (Int.natCast_nonneg _), Int.toNat_natCast]

theorem setWidth_signExtend {m k n : ℕ} (h : k ≤ n) (x : BitVec m) :
    (x.signExtend n).setWidth k = BitVec.ofInt k x.toInt := setWidth_ofInt h x.toInt

/-- The decoder reads the words and the deltas of the format. -/
structure LawfulDelta (f : DeltaFormat α) [DeltaWord α] : Prop where
  narrow : DeltaWord.bits α ≤ f.accBits
  wide : DeltaWord.bits α ≤ 64
  toAcc : ∀ v, (f.toAcc v).setWidth (DeltaWord.bits α) = DeltaWord.toBitVec v
  ofAcc : ∀ acc v, acc.setWidth (DeltaWord.bits α) = DeltaWord.toBitVec v → f.ofAcc acc = v
  readFirst : ∀ v bytes t, IsVarint (zigzag (DeltaWord.toBitVec v)).toNat bytes →
    f.readFirst.run (bytes ++ t) = .ok (v, t)
  checkWidth : ∀ bitWidth, bitWidth.toNat ≤ DeltaWord.bits α → f.checkWidth bitWidth = .ok ()
  unpack : ∀ H build room chunk n bitWidth, Limits H build room →
    bitWidth.toNat ≤ DeltaWord.bits α → n * bitWidth.toNat < 2 ^ 64 →
    n * bitWidth.toNat ≤ 8 * chunk.length → f.unpack H chunk n bitWidth
      = .ok ((lowDigits (2 ^ bitWidth.toNat) n (leNat chunk)).map UInt64.ofNat)

theorem toNat_continued {b : UInt8} (hb : b.toNat < 128) : (b ||| 0x80).toNat = b.toNat + 128 := by
  have h : ∀ n : Fin 128, (UInt8.ofNat n ||| 0x80).toNat = n.val + 128 := by decide +kernel
  simpa using h ⟨b.toNat, hb⟩

/-- The format's own writer of numbers. -/
theorem uleb128_writeUvarint (v : UInt64) : Uleb128 (writeUvarint v) v.toNat := by
  obtain ⟨n, hn⟩ : ∃ n, v.toNat = n := ⟨_, rfl⟩
  induction n using Nat.strong_induction_on generalizing v with
  | _ n ih =>
    rw [writeUvarint_eq]
    split
    · next hge =>
      have h128 : 128 ≤ v.toNat := UInt64.le_iff_toNat_le.mp hge
      have hdiv := toNat_shiftRight_seven v
      have hdigit := toNat_payload v
      have hbyte := toNat_continued (show (v &&& 0x7F).toUInt8.toNat < 128 by omega)
      have hmore := Uleb128.more (b := (v &&& 0x7F).toUInt8 ||| 0x80) (by omega)
        (ih _ (by omega) (v >>> 7) rfl)
      rwa [hbyte, hdigit, hdiv, Nat.add_sub_cancel, Nat.mod_add_div] at hmore
    · next hlt =>
      have h128 : v.toNat < 128 := UInt64.lt_iff_toNat_lt.mp (UInt64.not_le.mp hlt)
      have hlow : v.toUInt8.toNat = v.toNat := by
        rw [UInt64.toNat_toUInt8]
        omega
      exact hlow ▸ .last (hlow.trans_lt h128)

theorem isVarint_writeUvarint (v : UInt64) : IsVarint v.toNat (writeUvarint v) :=
  ⟨uleb128_writeUvarint v, length_writeUvarint_le v, v.toNat_lt⟩

theorem run_readZigzagI64 {v : Int64} {bytes : Bytes} (h : IsVarint (zigzag v.toBitVec).toNat bytes)
    (t : Bytes) : readZigzagI64.run (bytes ++ t) = .ok (v, t) := by
  rw [readZigzagI64, Reader.run_map, run_readUvarint_uleb128 h.uleb128 h.short]
  have hword : UInt64.ofNat (zigzag v.toBitVec).toNat = ((v <<< 1) ^^^ (v >>> 63)).toUInt64 :=
    UInt64.toNat_inj.mp (UInt64.toNat_ofNat_of_lt' h.fits)
  dsimp only
  rw [hword]
  exact congrArg (fun v => Except.ok (v, t)) (unzigzag_i64 v)

theorem run_readZigzagI32 {v : Int32} {bytes : Bytes} (h : IsVarint (zigzag v.toBitVec).toNat bytes)
    (t : Bytes) : readZigzagI32.run (bytes ++ t) = .ok (v, t) := by
  rw [readZigzagI32, Reader.run_map, run_readUvarint_uleb128 h.uleb128 h.short]
  have hword : (UInt64.ofNat (zigzag v.toBitVec).toNat).toUInt32
      = ((v <<< 1) ^^^ (v >>> 31)).toUInt32 := by
    rw [toUInt32_ofNat]
    exact UInt32.toNat_inj.mp (UInt32.toNat_ofNat_of_lt' (zigzag v.toBitVec).isLt)
  dsimp only
  rw [hword]
  exact congrArg (fun v => Except.ok (v, t)) (unzigzag_i32 v)

/-- Narrow digits, by way of 32 bits. -/
theorem unpackIndices_wide [H : Host] {build : Build} {room : ℕ} (hhost : Limits H build room)
    {chunk : Bytes} {n : ℕ} {bitWidth : UInt8} (hbw : bitWidth ≤ 32)
    (hfits : n * bitWidth.toNat < 2 ^ 64) (h : n * bitWidth.toNat ≤ 8 * chunk.length) :
    List.map UInt32.toUInt64 <$> unpackIndicesOn chunk n bitWidth
      = .ok ((lowDigits (2 ^ bitWidth.toNat) n (leNat chunk)).map UInt64.ofNat) := by
  have hpow : 2 ^ bitWidth.toNat ≤ 2 ^ 32 :=
    Nat.pow_le_pow_right (by decide) (UInt8.le_iff_toNat_le.mp hbw)
  rw [unpackIndicesOn_eq hhost hfits h, unpackIndices_eq hbw h]
  refine congrArg Except.ok ?_
  rw [List.map_map]
  refine List.map_congr_left fun d hd => UInt64.toNat_inj.mp ?_
  have hlt := (lt_of_mem_lowDigits (by positivity) hd).trans_le hpow
  rw [Function.comp_apply, UInt32.toNat_toUInt64, UInt32.toNat_ofNat_of_lt' hlt,
    UInt64.toNat_ofNat_of_lt' (hlt.trans (by decide))]

theorem lawful_deltaI32 : LawfulDelta deltaI32 where
  narrow := by decide
  wide := by decide
  toAcc v := (setWidth_signExtend (by decide) v.toBitVec).trans BitVec.ofInt_toInt
  ofAcc acc v h := (congrArg Int32.ofBitVec h).trans (Int32.ofBitVec_toBitVec v)
  readFirst v bytes t h := run_readZigzagI32 h t
  checkWidth _ _ := rfl
  unpack H _ _ chunk n bitWidth hhost hbw :=
    unpackIndices_wide hhost (UInt8.le_iff_toNat_le.mpr hbw)

theorem lawful_deltaI64 : LawfulDelta deltaI64 where
  narrow := by decide
  wide := by decide
  toAcc v := (setWidth_signExtend (by decide) v.toBitVec).trans BitVec.ofInt_toInt
  ofAcc acc v h := (congrArg Int64.ofBitVec h).trans (Int64.ofBitVec_toBitVec v)
  readFirst v bytes t h := run_readZigzagI64 h t
  checkWidth bitWidth h := if_neg (UInt8.not_lt.mpr (UInt8.le_iff_toNat_le.mpr h))
  unpack H _ _ chunk n bitWidth hhost hbw hfits h := by
    unfold deltaI64
    dsimp only
    by_cases hnarrow : bitWidth ≤ 32
    · rw [if_pos hnarrow]
      exact unpackIndices_wide hhost hnarrow hfits h
    · rw [if_neg hnarrow]
      exact unpackIndices64_eq (UInt8.le_iff_toNat_le.mpr hbw) h

/-! ## The loops -/

theorem reserveBuffers_outcome [H : Host] {build : Build} {room : ℕ} (hhost : Limits H build room)
    (n : ℕ) (sizes : List ℕ) :
    ((∀ size ∈ sizes, n * size ≤ room) ∧ reserveBuffers n sizes = .ok ()) ∨
      ¬ (∀ size ∈ sizes, n * size ≤ room) ∧ ∃ e, reserveBuffers n sizes = .error e ∧ Panics e := by
  induction sizes with
  | nil => exact .inl ⟨by simp, rfl⟩
  | cons size sizes ih =>
    rw [reserveBuffers, List.forall_mem_cons]
    rcases Nat.lt_or_ge room (n * size) with hlt | hle
    · obtain ⟨e, hrun, he⟩ := hhost.full n size hlt
      exact .inr ⟨fun h => Nat.not_le.mpr hlt h.1, e, by rw [hrun]; rfl, he⟩
    · rw [hhost.fits n size hle, ok_bind]
      rcases ih with ⟨hall, hrun⟩ | ⟨hsome, hrun⟩
      · exact .inl ⟨⟨hle, hall⟩, hrun⟩
      · exact .inr ⟨fun h => hsome h.2, hrun⟩

theorem getLastD_append (xs ys : List α) (a : α) :
    (xs ++ ys).getLastD a = ys.getLastD (xs.getLastD a) := by
  induction xs generalizing a with
  | nil => rfl
  | cons x xs ih => rw [List.cons_append, List.getLastD_cons, List.getLastD_cons, ih]

theorem run_readBitWidths (widths : List UInt8) (t : Bytes) :
    (readBitWidths widths.length).run (widths ++ t) = .ok (widths, t) := by
  induction widths with
  | nil => rfl
  | cons w widths ih =>
    rw [List.length_cons, readBitWidths, List.cons_append,
      Reader.run_bind_ok (run_readU8_cons w _), Reader.run_map, ih]

/-- `Nat.ofDigits_lt_base_pow_length` for any base, 1 among them: the width 0. -/
theorem ofDigits_lt_pow_length {b : ℕ} {ds : List ℕ} (h : ∀ d ∈ ds, d < b) :
    Nat.ofDigits b ds < b ^ ds.length := by
  induction ds with
  | nil => exact Nat.one_pos
  | cons d ds ih =>
    rw [List.forall_mem_cons] at h
    rw [Nat.ofDigits_cons, List.length_cons]
    calc d + b * Nat.ofDigits b ds
      _ < b + b * Nat.ofDigits b ds := Nat.add_lt_add_right h.1 _
      _ = b * (Nat.ofDigits b ds + 1) := by ring
      _ ≤ b * b ^ ds.length := Nat.mul_le_mul_left b (ih h.2)
      _ = b ^ (ds.length + 1) := (Nat.pow_succ').symm

/-- A packed body has whole bytes, and its digits are the deltas. -/
theorem packDigits_spec {width : ℕ} {deltas : List ℕ} (hlen : deltas.length % 32 = 0)
    (hdeltas : ∀ d ∈ deltas, d < 2 ^ width) :
    8 * (packDigits width deltas).length = deltas.length * width ∧
      lowDigits (2 ^ width) deltas.length (leNat (packDigits width deltas)) = deltas := by
  have hbytes : 8 * (deltas.length * width / 8) = deltas.length * width := by
    obtain ⟨k, hk⟩ := Nat.dvd_of_mod_eq_zero hlen
    rw [hk, show 32 * k * width = 8 * (4 * k * width) by ring,
      Nat.mul_div_cancel_left _ (by decide)]
  have hpow : 256 ^ (deltas.length * width / 8) = (2 ^ width) ^ deltas.length := by
    rw [show (256 : ℕ) = 2 ^ 8 from rfl, ← Nat.pow_mul, hbytes, ← Nat.pow_mul,
      Nat.mul_comm width]
  have hlt : Nat.ofDigits (2 ^ width) deltas < 256 ^ (deltas.length * width / 8) := by
    rw [hpow]
    exact ofDigits_lt_pow_length hdeltas
  refine ⟨by rw [packDigits, length_leBytes, hbytes], ?_⟩
  rw [packDigits, leNat_leBytes, Nat.mod_eq_of_lt hlt, lowDigits_ofDigits hdeltas le_rfl,
    List.take_length]

section
variable {f} [DeltaWord α] {minDelta : Int64}

/-- What a state has become after more values, with `k` still to come. -/
structure DeltaState.After (s s' : DeltaState f) (prev : α) (values : List α) (k : ℕ) : Prop where
  out : s'.out = s.out ++ values
  remaining : s'.remaining = k
  prev : s'.prev.setWidth (DeltaWord.bits α) = DeltaWord.toBitVec (values.getLastD prev)

/-- The deltas of a mini-block lead to its values, in the accumulator too. -/
theorem pushDeltas_chain (hf : LawfulDelta f) {prev : α} {deltas : List ℕ} {values : List α}
    (h : DeltaChain minDelta prev deltas values) (hdeltas : ∀ d ∈ deltas, d < 2 ^ 64)
    {s : DeltaState f} (hprev : s.prev.setWidth (DeltaWord.bits α) = DeltaWord.toBitVec prev)
    {k : ℕ} (hrem : s.remaining = values.length + k) (hk : k = 0 ∨ values.length = deltas.length) :
    s.After (pushDeltas f minDelta s (deltas.map UInt64.ofNat)) prev values k := by
  induction h generalizing s with
  | padding prev deltas =>
    have hstop : pushDeltas f minDelta s (deltas.map UInt64.ofNat) = s := by
      cases deltas with
      | nil => rfl
      | cons d deltas =>
        rw [List.map_cons, pushDeltas, if_pos]
        rcases hk with rfl | hk
        · exact hrem
        · cases hk
    rw [hstop]
    exact ⟨(List.append_nil _).symm, by simpa using hrem, hprev⟩
  | @next prev value delta deltas values hvalue _ ih =>
    rw [List.length_cons] at hrem hk
    rw [List.forall_mem_cons] at hdeltas
    rw [List.map_cons, pushDeltas, if_neg (by omega)]
    set acc := s.prev + minDelta.toBitVec.signExtend f.accBits
      + (UInt64.ofNat delta).toBitVec.setWidth f.accBits with hacc
    have hword : acc.setWidth (DeltaWord.bits α) = DeltaWord.toBitVec value := by
      have hdelta : ((UInt64.ofNat delta).toBitVec.setWidth f.accBits).setWidth (DeltaWord.bits α)
          = BitVec.ofNat _ delta := by
        rw [BitVec.setWidth_setWidth_of_le _ hf.narrow]
        exact BitVec.setWidth_ofNat_of_le hf.wide delta
      rw [hacc, BitVec.setWidth_add _ _ hf.narrow, BitVec.setWidth_add _ _ hf.narrow, hprev,
        setWidth_signExtend hf.narrow, hdelta, hvalue]
      rfl
    have hafter := ih hdeltas.2 (s := ⟨acc, s.out ++ [f.ofAcc acc], s.remaining - 1⟩) hword
      (by dsimp only; omega) (by simpa using hk)
    refine ⟨?_, hafter.remaining, ?_⟩
    · rw [hafter.out, hf.ofAcc acc value hword, List.append_assoc]
      rfl
    · rw [List.getLastD_cons]
      exact hafter.prev

theorem DeltaState.After.trans {s₁ s₂ s₃ : DeltaState f} {prev : α} {xs ys : List α} {j k : ℕ}
    (h₁ : s₁.After s₂ prev xs j) (h₂ : s₂.After s₃ (xs.getLastD prev) ys k) :
    s₁.After s₃ prev (xs ++ ys) k where
  out := by rw [h₂.out, h₁.out, List.append_assoc]
  remaining := h₂.remaining
  prev := by rw [h₂.prev, getLastD_append]

section
variable [H : Host] {build : Build} {room : ℕ} (hhost : Limits H build room)
include hhost

/-- The mini-blocks of a block: it is the last one, or full. -/
theorem readMiniBlocks_encoding (hf : LawfulDelta f) {size : ℕ} (hsize : size % 32 = 0)
    (hpos : 0 < size) {prev : α} {values : List α} {widths : List UInt8} {body : Bytes}
    (h : MiniBlocks size minDelta prev values widths body) (hbits : 8 * body.length < usizeBound)
    {s : DeltaState f} (hprev : s.prev.setWidth (DeltaWord.bits α) = DeltaWord.toBitVec prev)
    {k : ℕ} (hrem : s.remaining = values.length + k)
    (hk : k = 0 ∨ values.length = size * widths.length) (t : Bytes) :
    ∃ s', (readMiniBlocks f size minDelta s widths).run (body ++ t) = .ok (s', t) ∧
      s.After s' prev values k := by
  induction h generalizing s with
  | unused prev widths =>
    refine ⟨s, ?_, (List.append_nil _).symm, by simpa using hrem, hprev⟩
    cases widths with
    | nil => rfl
    | cons w widths =>
      rw [readMiniBlocks, if_pos]
      · rfl
      · rcases hk with rfl | hk
        · exact hrem
        · simp at hk
          omega
  | @used prev values width widths deltas body hne hwidth hlen hdeltas hchain hrest ih =>
    obtain ⟨hpack, hdigits⟩ := packDigits_spec (hlen ▸ hsize) hdeltas
    rw [hlen] at hpack hdigits
    rw [List.length_append] at hbits
    rw [List.length_cons] at hk
    have hfits : size * width.toNat < 2 ^ 64 := by
      rw [← hpack]
      exact (Nat.mul_le_mul_left 8 (Nat.le_add_right _ _)).trans_lt hbits
    have hbody : size * width.toNat / 8 = (packDigits width.toNat deltas).length := by
      rw [← hpack, Nat.mul_div_cancel_left _ (by decide)]
    have hnonempty := List.length_pos_iff.mpr hne
    have hwide : ∀ d ∈ deltas, d < 2 ^ 64 := fun d hd =>
      (hdeltas d hd).trans_le (Nat.pow_le_pow_right (by decide) (hwidth.trans hf.wide))
    have hpush := pushDeltas_chain hf hchain hwide hprev
      (k := (values.drop size).length + k) (by rw [hrem, List.length_take, List.length_drop]; omega)
      (by
        rw [hlen, List.length_take, List.length_drop]
        rcases hk with rfl | hk
        · omega
        · have hfull : size ≤ values.length := hk ▸ Nat.le_mul_of_pos_right size (Nat.succ_pos _)
          omega)
    obtain ⟨s', hrun, hafter⟩ := ih (by omega) hpush.prev hpush.remaining (by
      rw [List.length_drop]
      rcases hk with rfl | hk
      · exact .inl rfl
      · rw [Nat.mul_succ] at hk
        omega)
    refine ⟨s', ?_, ?_⟩
    · rw [readMiniBlocks, if_neg (by omega), hf.checkWidth _ hwidth, Reader.lift_ok, pure_bind,
        hhost.mul, mul_eq hfits, Reader.lift_ok, pure_bind, List.append_assoc, hbody,
        Reader.run_bind_ok (run_wire_take rfl _),
        hf.unpack _ _ _ _ _ _ hhost hwidth hfits hpack.ge, Reader.lift_ok, pure_bind, hdigits]
      exact hrun
    · have h := hpush.trans hafter
      rwa [List.take_append_drop] at h

omit hhost H in
theorem DeltaSizes.miniBlockSize_mul (p : DeltaSizes) :
    p.miniBlockSize * p.miniBlocks = p.blockSize :=
  Nat.div_mul_cancel (Nat.dvd_of_mod_eq_zero p.divides)

omit hhost H in
theorem DeltaSizes.miniBlockSize_pos (p : DeltaSizes) : 0 < p.miniBlockSize :=
  Nat.pos_of_mul_pos_right (p.miniBlockSize_mul ▸ p.pos)

/-- The step of the loop reads a block. -/
theorem deltaLoop_step (hf : LawfulDelta f) {p : DeltaSizes} {prev : α} {values : List α}
    (hne : values ≠ []) {head : Bytes} (hhead : IsVarint (zigzag minDelta.toBitVec).toNat head)
    {widths : List UInt8} (hwidths : widths.length = p.miniBlocks) {body : Bytes}
    (hmini : MiniBlocks p.miniBlockSize minDelta prev (values.take p.blockSize) widths body)
    (hbits : 8 * body.length < usizeBound) {s : DeltaState f}
    (hprev : s.prev.setWidth (DeltaWord.bits α) = DeltaWord.toBitVec prev)
    (hrem : s.remaining = values.length) (t : Bytes) :
    ∃ s', ((deltaLoop f p.miniBlocks p.miniBlockSize).step s).run
        (head ++ (widths ++ (body ++ t))) = .ok (.inl s', t) ∧
      s.After s' prev (values.take p.blockSize) (values.drop p.blockSize).length := by
  have hlen : s.remaining
      = (values.take p.blockSize).length + (values.drop p.blockSize).length := by
    rw [hrem, ← List.length_append, List.take_append_drop]
  have hlast : (values.drop p.blockSize).length = 0 ∨
      (values.take p.blockSize).length = p.miniBlockSize * widths.length := by
    rw [hwidths, p.miniBlockSize_mul, List.length_take, List.length_drop]
    omega
  have hsize : p.miniBlockSize % 32 = 0 := p.miniBlock
  obtain ⟨s', hrun, hafter⟩ := readMiniBlocks_encoding hhost hf hsize p.miniBlockSize_pos hmini hbits
    hprev hlen hlast t
  refine ⟨s', ?_, hafter⟩
  have hnonempty := List.length_pos_iff.mpr hne
  unfold deltaLoop
  dsimp only
  rw [if_neg (by omega), Reader.run_bind_ok (run_wire_ok (run_readZigzagI64 hhead _)),
    if_neg (Nat.not_lt.mpr p.count), ← hwidths,
    Reader.run_bind_ok (run_wire_ok (run_readBitWidths widths _)), Reader.run_map, hrun]

/-- The blocks, one after the other. -/
theorem deltaLoop_blocks (hf : LawfulDelta f) {p : DeltaSizes} {prev : α} {values : List α}
    {bytes : Bytes} (h : DeltaBlocks p prev values bytes) (hbits : 8 * bytes.length < usizeBound)
    {s : DeltaState f} (hprev : s.prev.setWidth (DeltaWord.bits α) = DeltaWord.toBitVec prev)
    (hrem : s.remaining = values.length) (t : Bytes) :
    ((deltaLoop f p.miniBlocks p.miniBlockSize).run s).run (bytes ++ t)
      = .ok (s.out ++ values, t) := by
  induction h generalizing s with
  | done prev =>
    rw [List.append_nil, List.nil_append]
    refine Loop.run_of_inr _ ?_
    unfold deltaLoop
    dsimp only
    rw [if_pos (show s.remaining = 0 from hrem)]
    rfl
  | block hne hhead hwidths hmini _ ih =>
    simp only [List.length_append] at hbits
    obtain ⟨s', hstep, hafter⟩ := deltaLoop_step hhost hf hne hhead hwidths hmini (by omega) hprev hrem _
    rw [List.append_assoc, List.append_assoc, List.append_assoc, Loop.run_of_inl _ hstep,
      ih (by omega) hafter.prev hafter.remaining, hafter.out, List.append_assoc,
      List.take_append_drop]

/-- **An encoding is decoded**, and the cursor left at its end, where there is room for
    the list and the buffers; elsewhere the decoder panics. -/
theorem decodeDelta_encoding (hf : LawfulDelta f) {p : DeltaSizes} {values : List α}
    {bytes : Bytes} (h : DeltaEncoding p values bytes) (hbits : 8 * bytes.length < usizeBound)
    (t : Bytes) :
    ((values ≠ [] → f.RoomFor room p.miniBlockSize values.length) ∧
        (decodeDeltaFrom f).run (bytes ++ t) = .ok (values, t)) ∨
      ¬ (values ≠ [] → f.RoomFor room p.miniBlockSize values.length) ∧
        ∃ e, (decodeDeltaFrom f).run (bytes ++ t) = .error e ∧ Panics e := by
  obtain ⟨first, hblock, hmini, hnum, hhead, hfirst, hbody⟩ := h
  simp only [List.length_append] at hbits
  have hvarint {n : ℕ} {w : Bytes} (hn : IsVarint n w) (t : Bytes) :
      (wire readUvarint).run (w ++ t) = .ok (UInt64.ofNat n, t) :=
    run_wire_ok (run_readUvarint_uleb128 hn.uleb128 hn.short t)
  have hword {n : ℕ} {w : Bytes} (hn : IsVarint n w) : (UInt64.ofNat n).toNat = n :=
    UInt64.toNat_ofNat_of_lt' hn.fits
  rw [decodeDeltaFrom]
  simp only [List.append_assoc]
  rw [Reader.run_bind_ok (hvarint hblock _), Reader.run_bind_ok (hvarint hmini _),
    Reader.run_bind_ok (hvarint hnum _),
    Reader.run_bind_ok (run_wire_ok (hf.readFirst first _ _ hhead)),
    hword hblock, hword hmini, hword hnum]
  cases values with
  | nil =>
    refine .inl ⟨fun h => absurd rfl h, ?_⟩
    cases hbody with
    | done => rfl
    | block hne => exact absurd rfl hne
  | cons v values =>
    obtain rfl := hfirst v rfl
    rw [if_neg (show ¬ (v :: values).length = 0 from Nat.succ_ne_zero _), if_neg p.countPos.ne',
      if_neg (not_not.mpr p.divides), forall_prop_of_true (List.cons_ne_nil v values)]
    rcases Nat.lt_or_ge room ((v :: values).length * f.valueSize) with hlt | hle
    · obtain ⟨e, hrun, he⟩ := hhost.full _ _ hlt
      exact .inr ⟨fun h => Nat.not_le.mpr hlt h.values, e, by rw [hrun]; rfl, he⟩
    rw [hhost.fits _ _ hle, Reader.lift_ok, pure_bind]
    rcases reserveBuffers_outcome hhost p.miniBlockSize f.bufferSizes with
      ⟨hbuffers, hrun⟩ | ⟨hbuffers, e, hrun, he⟩
    · rw [DeltaSizes.miniBlockSize] at hrun
      rw [hrun, Reader.lift_ok, pure_bind]
      exact .inl ⟨⟨hle, hbuffers⟩,
        deltaLoop_blocks hhost hf hbody (by omega) (hf.toAcc v) rfl t⟩
    · rw [DeltaSizes.miniBlockSize] at hrun
      exact .inr ⟨fun h => hbuffers h.buffers, e, by rw [hrun]; rfl, he⟩

theorem decodeDelta_encoding_iff (hf : LawfulDelta f) {p : DeltaSizes} {values : List α}
    {bytes : Bytes} (h : DeltaEncoding p values bytes) (hbits : 8 * bytes.length < usizeBound)
    (t : Bytes) : (decodeDeltaFrom f).run (bytes ++ t) = .ok (values, t) ↔
      (values ≠ [] → f.RoomFor room p.miniBlockSize values.length) := by
  rcases decodeDelta_encoding hhost hf h hbits t with ⟨hroom, hrun⟩ | ⟨hroom, e, hrun, -⟩
  · exact iff_of_true hrun hroom
  · exact iff_of_false (fun hok => by cases hrun.symm.trans hok) hroom

end

end

/-- **Both decoders** return the list of which the bytes are an encoding, and leave
    the cursor at what follows it, exactly where there is room for the list and for the
    buffers of one mini-block.  The bits of a stream are counted in a `usize`. -/
theorem decode_delta_from_encoding_iff (build : Build) (room : ℕ) (simd : Option Simd)
    (p : DeltaSizes) (bytes t : Bytes) (hbits : 8 * bytes.length < usizeBound) :
    (∀ values : List Int64, DeltaEncoding p values bytes →
      ((@decodeDeltaI64From (hostOf build room simd)).run (bytes ++ t) = .ok (values, t) ↔
        (values ≠ [] → deltaI64.RoomFor room p.miniBlockSize values.length))) ∧
    (∀ values : List Int32, DeltaEncoding p values bytes →
      ((@decodeDeltaI32From (hostOf build room simd)).run (bytes ++ t) = .ok (values, t) ↔
        (values ≠ [] → deltaI32.RoomFor room p.miniBlockSize values.length))) := by
  have hhost := limits_hostOf build room simd
  exact ⟨fun _ h => decodeDelta_encoding_iff (H := hostOf build room simd) hhost lawful_deltaI64 h
      hbits t,
    fun _ h => decodeDelta_encoding_iff (H := hostOf build room simd) hhost lawful_deltaI32 h hbits t⟩

/-- Blocks of 128 in four mini-blocks. -/
def fourMiniBlocks : DeltaSizes where
  blockSize := 128
  miniBlocks := 4
  pos := Nat.succ_pos 127
  block := rfl
  countPos := Nat.succ_pos 3
  count := Nat.le_of_ble_eq_true rfl
  divides := rfl
  miniBlock := rfl

/-- The deltas -1 and 1 over a minimum of -1, in two bits each, and padding; then
    three mini-blocks that are not used. -/
def sampleDeltaBlock : Bytes :=
  writeUvarint 1 ++ ([2, 77, 0, 255] ++ (packDigits 2 (0 :: 2 :: List.replicate 30 3) ++ []))

theorem sampleDeltaBlock_spec [DeltaWord α] {lo hi : α} (hbits : 2 ≤ DeltaWord.bits α)
    (hdown : DeltaWord.toBitVec hi = DeltaWord.toBitVec lo - 1)
    (hup : DeltaWord.toBitVec lo = DeltaWord.toBitVec hi + 1) :
    DeltaBlocks fourMiniBlocks lo [hi, lo] sampleDeltaBlock := by
  have hminus : BitVec.ofInt (DeltaWord.bits α) (Int64.toInt (-1)) = -1 :=
    (congrArg _ (by decide : Int64.toInt (-1) = -1)).trans BitVec.ofInt_neg
  have hdown' : DeltaWord.toBitVec hi = DeltaWord.toBitVec lo
      + BitVec.ofInt _ (Int64.toInt (-1)) + BitVec.ofNat _ 0 := by
    rw [hdown, hminus, BitVec.sub_eq_add_neg]
    exact (BitVec.add_zero _).symm
  have hup' : DeltaWord.toBitVec lo = DeltaWord.toBitVec hi
      + BitVec.ofInt _ (Int64.toInt (-1)) + BitVec.ofNat _ 2 := by
    have htwo : BitVec.ofNat (DeltaWord.bits α) 2 = 1 + 1 := BitVec.ofNat_add 1 1
    rw [hup, hminus, htwo, BitVec.add_assoc, ← BitVec.add_assoc (-1)]
    simp
  have hmin : IsVarint (zigzag (Int64.toBitVec (-1))).toNat (writeUvarint 1) :=
    isVarint_writeUvarint 1
  have hmini : MiniBlocks 32 (-1) lo [hi, lo] [2, 77, 0, 255]
      (packDigits 2 (0 :: 2 :: List.replicate 30 3) ++ []) :=
    .used (List.cons_ne_nil _ _) hbits rfl (by decide) (.next hdown' (.next hup' (.padding _ _)))
      (.unused _ _)
  have hblock := DeltaBlocks.block (p := fourMiniBlocks) (List.cons_ne_nil hi [lo]) hmin rfl hmini
    (.done _)
  exact hblock

theorem decode_delta_from_encoding_iff_extremes :
    (@decodeDeltaI64From (hostOf .debug 1024 (some .avx2))).run (writeUvarint 128
        ++ (writeUvarint 4 ++ (writeUvarint 3 ++ (writeUvarint (2 ^ 64 - 1) ++ sampleDeltaBlock)))
        ++ [9])
      = .ok ([Int64.minValue, Int64.maxValue, Int64.minValue], [9]) ∧
    (@decodeDeltaI32From (hostOf .release 128)).run (writeUvarint 128
        ++ (writeUvarint 4 ++ (writeUvarint 3 ++ (writeUvarint (2 ^ 32 - 1) ++ sampleDeltaBlock)))
        ++ [9])
      = .ok ([Int32.minValue, Int32.maxValue, Int32.minValue], [9]) := by
  have hzigzag64 : (2 ^ 64 - 1 : UInt64).toNat = (zigzag Int64.minValue.toBitVec).toNat := by
    decide +kernel
  have hzigzag32 : (2 ^ 32 - 1 : UInt64).toNat = (zigzag Int32.minValue.toBitVec).toNat := by
    decide +kernel
  have hbits64 : 8 * (writeUvarint 128 ++ (writeUvarint 4 ++ (writeUvarint 3
      ++ (writeUvarint (2 ^ 64 - 1) ++ sampleDeltaBlock)))).length < usizeBound := by decide +kernel
  have hbits32 : 8 * (writeUvarint 128 ++ (writeUvarint 4 ++ (writeUvarint 3
      ++ (writeUvarint (2 ^ 32 - 1) ++ sampleDeltaBlock)))).length < usizeBound := by decide +kernel
  have h64 := (decode_delta_from_encoding_iff .debug 1024 (some .avx2) fourMiniBlocks _ [9] hbits64).1
  have h32 := (decode_delta_from_encoding_iff .release 128 none fourMiniBlocks _ [9] hbits32).2
  refine ⟨(h64 _ ?_).mpr fun _ => ⟨by decide, by decide⟩, (h32 _ ?_).mpr fun _ => ⟨by decide, by decide⟩⟩
  · exact .stream Int64.minValue (isVarint_writeUvarint 128) (isVarint_writeUvarint 4)
      (isVarint_writeUvarint 3) (hzigzag64 ▸ isVarint_writeUvarint _) (by simp)
      (sampleDeltaBlock_spec (by decide) rfl rfl)
  · exact .stream Int32.minValue (isVarint_writeUvarint 128) (isVarint_writeUvarint 4)
      (isVarint_writeUvarint 3) (hzigzag32 ▸ isVarint_writeUvarint _) (by simp)
      (sampleDeltaBlock_spec (by decide) rfl rfl)

/-- One mini-block of 2^62 values in a block. -/
def hugeMiniBlock : DeltaSizes where
  blockSize := 2 ^ 62
  miniBlocks := 1
  pos := Nat.two_pow_pos 62
  block := rfl
  countPos := Nat.one_pos
  count := by decide
  divides := rfl
  miniBlock := rfl

/-- Without bits, a mini-block of any size has no body. -/
theorem packDigits_width_zero (deltas : List ℕ) : packDigits 0 deltas = [] := by
  rw [packDigits, Nat.mul_zero, Nat.zero_div]
  rfl

/-- The value `a` twice, from the varints of the block size and of the first value; the
    other deltas of the block have no bits. -/
def twiceInBlock (blockSize head : Bytes) : Bytes :=
  blockSize ++ (writeUvarint 1 ++ (writeUvarint 2 ++ (head ++ (writeUvarint 0 ++ ([0] ++ ([] ++ []))))))

theorem twiceInBlock_spec [DeltaWord α] {p : DeltaSizes} (hone : p.miniBlocks = 1) {a : α}
    {blockSize head : Bytes} (hblock : IsVarint p.blockSize blockSize)
    (hhead : IsVarint (zigzag (DeltaWord.toBitVec a)).toNat head) :
    DeltaEncoding p [a, a] (twiceInBlock blockSize head) := by
  have hnext : DeltaWord.toBitVec a
      = DeltaWord.toBitVec a + BitVec.ofInt _ (Int64.toInt 0) + BitVec.ofNat _ 0 := by
    rw [show Int64.toInt 0 = ((0 : ℕ) : ℤ) from rfl, BitVec.ofInt_natCast]
    exact ((BitVec.add_zero _).trans (BitVec.add_zero _)).symm
  have hmini_eq : p.miniBlockSize = p.blockSize := by
    rw [DeltaSizes.miniBlockSize, hone, Nat.div_one]
  obtain ⟨size, hsize⟩ := Nat.exists_eq_succ_of_ne_zero p.pos.ne'
  have htake : [a].take p.blockSize = [a] := by simp [hsize]
  have hdrop : [a].drop p.blockSize = [] := by simp [hsize]
  have hmini : MiniBlocks p.miniBlockSize 0 a [a] [0]
      (packDigits 0 (0 :: List.replicate size 0) ++ []) :=
    .used (List.cons_ne_nil _ _) (Nat.zero_le _)
      (by rw [hmini_eq, hsize, List.length_cons, List.length_replicate])
      (fun d hd => by rw [List.eq_of_mem_replicate (n := size + 1) hd]; exact Nat.one_pos)
      (by rw [hmini_eq, htake]; exact .next hnext (.padding _ _))
      (by rw [hmini_eq, htake, hdrop]; exact .unused _ _)
  have hmin : IsVarint (zigzag (Int64.toBitVec 0)).toNat (writeUvarint 0) := isVarint_writeUvarint 0
  have hbody : DeltaBlocks p a [a] (writeUvarint 0 ++ ([0] ++ ([] ++ []))) :=
    .block (List.cons_ne_nil a []) hmin hone.symm
      (by rwa [packDigits_width_zero, ← htake] at hmini) (by rw [htake, hdrop]; exact .done _)
  exact .stream a hblock (hone ▸ isVarint_writeUvarint 1) (isVarint_writeUvarint 2) hhead
    (fun v hv => (Option.some.inj hv).symm) hbody

/-- Fourteen bytes: the value of the varint `head` twice, in a mini-block of 2^62. -/
def twiceInHugeBlock (head : UInt64) : Bytes :=
  twiceInBlock (writeUvarint (2 ^ 62)) (writeUvarint head)

theorem twiceInHugeBlock_spec [DeltaWord α] {a : α} {head : UInt64}
    (hhead : (zigzag (DeltaWord.toBitVec a)).toNat = head.toNat) :
    DeltaEncoding hugeMiniBlock [a, a] (twiceInHugeBlock head) :=
  twiceInBlock_spec rfl
    (show IsVarint (2 ^ 62) _ from (by decide +kernel : (2 ^ 62 : UInt64).toNat = 2 ^ 62)
      ▸ isVarint_writeUvarint (2 ^ 62))
    (hhead ▸ isVarint_writeUvarint head)

theorem hugeMiniBlock_no_room {f : DeltaFormat α} {n : ℕ} (hsize : 4 ∈ f.bufferSizes) :
    ¬ f.RoomFor (2 ^ 63 - 1) hugeMiniBlock.miniBlockSize n := fun hroom =>
  absurd (hroom.buffers 4 hsize) (by decide +kernel)

/-- Fourteen bytes that encode two values, and want a buffer of 2^64 bytes. -/
theorem decode_delta_from_encoding_full :
    DeltaEncoding hugeMiniBlock [(5 : Int64), 5] (twiceInHugeBlock 10) ∧
    DeltaEncoding hugeMiniBlock [(5 : Int32), 5] (twiceInHugeBlock 10) ∧
    (twiceInHugeBlock 10).length = 14 ∧
    ∀ build simd,
      (@decodeDeltaI64From (hostOf build (2 ^ 63 - 1) simd)).run (twiceInHugeBlock 10)
        ≠ .ok ([5, 5], []) ∧
      (@decodeDeltaI32From (hostOf build (2 ^ 63 - 1) simd)).run (twiceInHugeBlock 10)
        ≠ .ok ([5, 5], []) := by
  have h64 : DeltaEncoding hugeMiniBlock [(5 : Int64), 5] (twiceInHugeBlock 10) :=
    twiceInHugeBlock_spec (by decide)
  have h32 : DeltaEncoding hugeMiniBlock [(5 : Int32), 5] (twiceInHugeBlock 10) :=
    twiceInHugeBlock_spec (by decide)
  have hlen : (twiceInHugeBlock 10).length = 14 := by decide +kernel
  have hbits : 8 * (twiceInHugeBlock 10).length < usizeBound := by rw [hlen]; decide +kernel
  generalize twiceInHugeBlock 10 = bytes at *
  refine ⟨h64, h32, hlen, fun build simd => ⟨fun hrun => ?_, fun hrun => ?_⟩⟩
  · have hroom := decodeDelta_encoding_iff (H := hostOf build (2 ^ 63 - 1) simd)
      (limits_hostOf build _ simd) lawful_deltaI64 h64 hbits []
    rw [List.append_nil] at hroom
    exact hugeMiniBlock_no_room (by decide) (hroom.mp hrun (List.cons_ne_nil _ _))
  · have hroom := decodeDelta_encoding_iff (H := hostOf build (2 ^ 63 - 1) simd)
      (limits_hostOf build _ simd) lawful_deltaI32 h32 hbits []
    rw [List.append_nil] at hroom
    exact hugeMiniBlock_no_room (by decide) (hroom.mp hrun (List.cons_ne_nil _ _))

end EmatixParquet
