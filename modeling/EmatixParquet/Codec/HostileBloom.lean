/-
  Bloom filters on any bytes (`from_bytes` and `contains_hash` of `bloom.rs`), in
  both builds.

  The size in the header is signed and becomes a `usize`.  Added to the length of
  the header, a negative one comes out of range when the header is longer than
  its absolute value (`NegativeSize`): this is all that can go wrong.

  * `fromBytesIn_ok`, `fromBytesIn_panic_iff`: the outcomes of `from_bytes`;
  * `containsHashIn_eq`: every hash can be looked up in whole blocks.
-/
import EmatixParquet.Codec.BloomFilter
import EmatixParquet.Codec.Dict
import EmatixParquet.Format.Hostile

namespace EmatixParquet

open Wire

/-! ## With and without overflow checks -/

/-- How ids are added.  The header has no lists, so that there is nothing to
    reserve. -/
@[reducible] def Build.ids : Build → Machine
  | .debug => checking
  | .release => wrapping

/-- `from_bytes`: the bitset. -/
def fromBytesIn (build : Build) (bytes : Bytes) : Res CodecError Bytes := do
  let header ← ((@readBloomFilterHeader build.ids).run bytes).mapError (Fault.map formatToCodec)
  let numBytes := i32AsUsize header.1.numBytes
  if numBytes % 32 ≠ 0 then codecErr (.invalidInput
    s!"bloom filter num_bytes must be a multiple of 32, got {numBytes}")
  else do
    let headerLen := bytes.length - header.2.length
    let bitsetEnd ← build.add headerLen numBytes
    if bytes.length < bitsetEnd then codecErr (.invalidInput
      s!"bloom filter byte buffer too short: have {bytes.length}, need {bitsetEnd}")
    else slice bytes headerLen bitsetEnd

/-- `u32::from_le_bytes([block[word_off], ..])`. -/
def wordIn (block : Bytes) (wordOff : ℕ) : Res CodecError UInt32 := do
  let b0 ← byteAt block wordOff
  let b1 ← byteAt block (wordOff + 1)
  let b2 ← byteAt block (wordOff + 2)
  let b3 ← byteAt block (wordOff + 3)
  pure (UInt32.ofNat (leNat [b0, b1, b2, b3]))

/-- `for i in 0..8`. -/
def testBlockIn (hLo : UInt32) (block : Bytes) (wordOff : ℕ) : List UInt32 → Res CodecError Bool
  | [] => pure true
  | s :: salts => do
    let maskBit := (hLo * s) >>> 27
    let word ← wordIn block wordOff
    if word &&& ((1 : UInt32) <<< maskBit) = 0 then pure false
    else testBlockIn hLo block (wordOff + 4) salts

/-- `contains_hash`, with the arithmetic of a build. -/
def containsHashIn (build : Build) (bitset : Bytes) (h : UInt64) : Res CodecError Bool :=
  let numBlocks := bitset.length / 32
  if numBlocks = 0 then pure false
  else do
    let product ← build.mul (h >>> 32).toNat numBlocks
    let blockOff ← build.mul (product / 2 ^ 32) 32
    let blockEnd ← build.add blockOff 32
    let block ← slice bitset blockOff blockEnd
    testBlockIn h.toUInt32 block 0 salt

/-! ## The filter -/

/-- The sizes that come out of range: negative, in whole blocks, and no more than
    the header is long. -/
def NegativeSize (bytes : Bytes) : Prop :=
  ∃ header rest, readBloomFilterHeader.run bytes = .ok (header, rest) ∧
    header.numBytes.toInt < 0 ∧ header.numBytes.toInt % 32 = 0 ∧
    -header.numBytes.toInt ≤ (bytes.length - rest.length : ℕ)

theorem readBloomFilterHeader_ids (build : Build) :
    @readBloomFilterHeader build.ids = readBloomFilterHeader := by
  cases build with
  | debug => exact total_bloomFilterHeader.eq
  | release => rfl

theorem bitset_attach (bytes : Bytes) (headerLen : ℕ) (numBytes : UInt64) :
    SplitBlockBloomFilter.bitset <$> SplitBlockBloomFilter.attach bytes headerLen numBytes =
      if numBytes.toNat % 32 ≠ 0 then codecErr (.invalidInput
        s!"bloom filter num_bytes must be a multiple of 32, got {numBytes.toNat}")
      else
        let bitsetEnd := (headerLen + numBytes.toNat) % usizeBound
        if bytes.length < bitsetEnd then codecErr (.invalidInput
          s!"bloom filter byte buffer too short: have {bytes.length}, need {bitsetEnd}")
        else slice bytes headerLen bitsetEnd := by
  unfold SplitBlockBloomFilter.attach
  split
  · rfl
  · dsimp only
    split
    · rfl
    · split
      · next hslice => exact hslice.symm
      · next hslice => exact hslice.symm

/-- Without overflow checks, this is `SplitBlockBloomFilter.fromBytes`. -/
theorem fromBytesIn_release (bytes : Bytes) : fromBytesIn .release bytes
    = SplitBlockBloomFilter.bitset <$> SplitBlockBloomFilter.fromBytes bytes := by
  unfold fromBytesIn SplitBlockBloomFilter.fromBytes
  rw [readBloomFilterHeader_ids]
  cases readBloomFilterHeader.run bytes with
  | error f => rfl
  | ok p => exact (bitset_attach bytes (bytes.length - p.2.length) _).symm

/-- A negative number wraps around. -/
theorem i32AsUsize_cases (v : Int32) :
    (0 ≤ v.toInt ∧ (i32AsUsize v : ℤ) = v.toInt) ∨
      (v.toInt < 0 ∧ (i32AsUsize v : ℤ) = v.toInt + 2 ^ 64) := by
  have hwide : v.toInt64.toInt = v.toInt := Int32.toInt_toInt64 v
  have hbits : v.toInt64.toInt = if 2 * v.toInt64.toBitVec.toNat < 2 ^ 64
      then (v.toInt64.toBitVec.toNat : ℤ) else (v.toInt64.toBitVec.toNat : ℤ) - (2 ^ 64 : ℕ) :=
    BitVec.toInt_eq_toNat_cond _
  have hnat : i32AsUsize v = v.toInt64.toBitVec.toNat := rfl
  have hlt := v.toInt_lt
  have hle := v.le_toInt
  have hsize := v.toInt64.toBitVec.isLt
  split at hbits <;> omega

theorem fromBytesIn_eq (build : Build) {bytes rest : Bytes} {header : BloomFilterHeader}
    (hrun : readBloomFilterHeader.run bytes = .ok (header, rest))
    (hwhole : i32AsUsize header.numBytes % 32 = 0) :
    fromBytesIn build bytes = (do
      let bitsetEnd ← build.add (bytes.length - rest.length) (i32AsUsize header.numBytes)
      if bytes.length < bitsetEnd then codecErr (.invalidInput
        s!"bloom filter byte buffer too short: have {bytes.length}, need {bitsetEnd}")
      else slice bytes (bytes.length - rest.length) bitsetEnd) := by
  unfold fromBytesIn
  rw [readBloomFilterHeader_ids, hrun]
  exact if_neg (not_not.mpr hwhole)

/-- The end of the bitset comes before its start, or is not a number at all. -/
theorem fromBytesIn_negative (build : Build) {bytes : Bytes} (hlen : bytes.length < 2 ^ 63)
    (h : NegativeSize bytes) : ∃ msg, fromBytesIn build bytes = .error (.panic msg) := by
  obtain ⟨header, rest, hrun, hneg, hmod, hle⟩ := h
  have hsize := i32AsUsize_cases header.numBytes
  have hlo := header.numBytes.le_toInt
  rw [fromBytesIn_eq build hrun (by omega)]
  cases build with
  | debug =>
    refine ⟨"attempt to add with overflow", ?_⟩
    unfold Build.add
    dsimp only
    rw [if_neg (by unfold usizeBound; omega)]
    rfl
  | release =>
    refine ⟨"range out of bounds", ?_⟩
    unfold Build.add
    dsimp only
    rw [ok_bind, if_neg (by unfold usizeBound; omega), slice, if_neg (by unfold usizeBound; omega)]

/-- In all other cases. -/
theorem fromBytesIn_settles (build : Build) {bytes : Bytes} (hlen : bytes.length < 2 ^ 63)
    (h : ¬ NegativeSize bytes) : (∃ e, fromBytesIn build bytes = .error (.err e)) ∨
      ∃ bitset, fromBytesIn build bytes = .ok bitset ∧ bitset <:+: bytes ∧
        bitset.length % 32 = 0 ∧ bitset.length < 2 ^ 31 := by
  cases hrun : readBloomFilterHeader.run bytes with
  | error f =>
    cases f with
    | panic msg => exact absurd hrun ((total_bloomFilterHeader.settles_iff bytes).mpr id msg ∘ by
        rw [total_bloomFilterHeader.eq]; exact id)
    | err e =>
      refine .inl ⟨formatToCodec e, ?_⟩
      unfold fromBytesIn
      rw [readBloomFilterHeader_ids, hrun]
      rfl
  | ok p =>
    obtain ⟨header, rest⟩ := p
    have hsize := i32AsUsize_cases header.numBytes
    have hhi := header.numBytes.toInt_lt
    have hlo := header.numBytes.le_toInt
    by_cases hwhole : i32AsUsize header.numBytes % 32 = 0
    · rw [fromBytesIn_eq build hrun hwhole]
      have hsum : bytes.length - rest.length + i32AsUsize header.numBytes < 2 ^ 64 := by
        by_contra hwraps
        exact h ⟨header, rest, hrun, by omega, by omega, by omega⟩
      rw [add_eq hsum, ok_bind]
      split
      · exact .inl ⟨_, rfl⟩
      · next hfits =>
        refine .inr ⟨_, slice_ok (by omega) (by omega), ?_, ?_, ?_⟩
        · exact (List.drop_suffix _ _).isInfix.trans (List.take_prefix _ _).isInfix
        · rw [List.length_drop, List.length_take]
          omega
        · rw [List.length_drop, List.length_take]
          omega
    · left
      unfold fromBytesIn
      rw [readBloomFilterHeader_ids, hrun]
      exact ⟨_, if_pos hwhole⟩

/-! ## Lookups -/

theorem wordIn_eq {block : Bytes} {off : ℕ} (h : off + 4 ≤ block.length) :
    wordIn block off = .ok (wordAt block off) := by
  have htake : (block.drop off).take 4
      = [block[off], block[off + 1], block[off + 2], block[off + 3]] := by
    rw [List.drop_eq_getElem_cons (by omega), List.drop_eq_getElem_cons (by omega),
      List.drop_eq_getElem_cons (by omega), List.drop_eq_getElem_cons (by omega)]
    rfl
  rw [wordIn, byteAt_eq (by omega), byteAt_eq (by omega), byteAt_eq (by omega),
    byteAt_eq (by omega), wordAt, htake]
  rfl

theorem testBlockIn_eq {hLo : UInt32} {block : Bytes} {off : ℕ} {salts : List UInt32}
    (h : off + 4 * salts.length ≤ block.length) :
    testBlockIn hLo block off salts = .ok (testBlock hLo off salts block) := by
  induction salts generalizing off with
  | nil => rfl
  | cons s salts ih =>
    rw [List.length_cons] at h
    rw [testBlockIn, wordIn_eq (by omega), ok_bind, testBlock]
    split
    · rfl
    · exact ih (by omega)

/-- A block on its own has the words it has in the bitset. -/
theorem testBlock_slice {hLo : UInt32} {bitset : Bytes} {start off : ℕ} {salts : List UInt32}
    (h : off + 4 * salts.length ≤ 32) :
    testBlock hLo off salts ((bitset.take (start + 32)).drop start)
      = testBlock hLo (start + off) salts bitset := by
  induction salts generalizing off with
  | nil => rfl
  | cons s salts ih =>
    rw [List.length_cons] at h
    have hword : wordAt ((bitset.take (start + 32)).drop start) off = wordAt bitset (start + off) := by
      rw [wordAt, wordAt, List.drop_drop, List.drop_take, List.take_take]
      congr 3
      omega
    rw [testBlock, testBlock, hword, ih (by omega), Nat.add_assoc]

/-- Every hash can be looked up, in both builds. -/
theorem containsHashIn_eq (build : Build) (f : SplitBlockBloomFilter)
    (hlen : f.bitset.length < 2 ^ 31) (h : UInt64) :
    containsHashIn build f.bitset h = .ok (f.containsHash h) := by
  have hblocks : (UInt64.ofNat f.numBlocks).toNat = f.bitset.length / 32 :=
    UInt64.toNat_ofNat_of_lt' (show f.bitset.length / 32 < 2 ^ 64 by omega)
  have hwhole := f.whole
  unfold containsHashIn SplitBlockBloomFilter.containsHash
  dsimp only
  by_cases hempty : f.bitset.length / 32 = 0
  · have hzero : UInt64.ofNat f.numBlocks = 0 := UInt64.toNat_inj.mp (hblocks.trans hempty)
    rw [if_pos hempty, if_pos hzero]
    rfl
  · have hpos : UInt64.ofNat f.numBlocks ≠ 0 := fun hzero => by
      rw [hzero] at hblocks
      exact hempty hblocks.symm
    have hhi : (h >>> 32).toNat < 2 ^ 32 := by
      have := h.toNat_lt
      rw [UInt64.toNat_shiftRight, Nat.shiftRight_eq_div_pow]
      change h.toNat / 2 ^ 32 < 2 ^ 32
      omega
    generalize h >>> 32 = hi at hhi ⊢
    have hproduct : hi.toNat * (f.bitset.length / 32) < 2 ^ 32 * (f.bitset.length / 32) :=
      Nat.mul_lt_mul_of_pos_right hhi (by omega)
    have hidx : hi.toNat * (f.bitset.length / 32) / 2 ^ 32 < f.bitset.length / 32 :=
      Nat.div_lt_of_lt_mul hproduct
    have hword : ((hi * UInt64.ofNat f.numBlocks) >>> 32).toNat
        = hi.toNat * (f.bitset.length / 32) / 2 ^ 32 := by
      rw [UInt64.toNat_shiftRight, UInt64.toNat_mul, hblocks, Nat.mod_eq_of_lt (by omega),
        Nat.shiftRight_eq_div_pow]
      rfl
    rw [if_neg hempty, if_neg hpos, mul_eq (by omega), ok_bind, mul_eq (by omega), ok_bind,
      add_eq (by omega), ok_bind, slice_ok (by omega) (by omega), ok_bind,
      testBlockIn_eq (by rw [List.length_drop, List.length_take]; simp [salt]; omega),
      testBlock_slice (by decide), hword]
    rfl

/-! ## Any bytes -/

/-- What is promised of the bytes of a bloom filter. -/
structure ReadsFilter (build : Build) (bytes : Bytes) : Prop where
  settles : ∀ msg, fromBytesIn build bytes ≠ .error (.panic msg)
  filter : ∀ bitset, fromBytesIn build bytes = .ok bitset →
    bitset <:+: bytes ∧ bitset.length % 32 = 0 ∧
      ∀ h, ∃ found, containsHashIn build bitset h = .ok found

/-- **Bloom filters on any bytes.**  A slice has at most `isize::MAX` bytes. -/
theorem bloomFilter_reads_iff (build : Build) (bytes : Bytes) (hlen : bytes.length < 2 ^ 63) :
    ReadsFilter build bytes ↔ ¬ NegativeSize bytes := by
  constructor
  · rintro hreads hneg
    obtain ⟨msg, hpanic⟩ := fromBytesIn_negative build hlen hneg
    exact hreads.settles msg hpanic
  · intro hneg
    rcases fromBytesIn_settles build hlen hneg with ⟨e, he⟩ | ⟨bitset, hok, hpart, hwhole, hsmall⟩
    · exact ⟨fun msg hpanic => by simp [he] at hpanic, fun bitset hok => by simp [he] at hok⟩
    · refine ⟨fun msg hpanic => by simp [hok] at hpanic, fun bitset' hok' => ?_⟩
      obtain rfl := Except.ok.inj (hok.symm.trans hok')
      exact ⟨hpart, hwhole, fun h => ⟨_, containsHashIn_eq build ⟨bitset, hwhole⟩ hsmall h⟩⟩

/-- A header of 32 bytes, with headers to skip in its first union, and a size. -/
def paddedHeader (numBytes : UInt8) : Bytes :=
  [0x15, numBytes, 0x1C, 0x1C] ++ List.replicate 17 0x11 ++
    [0x00, 0x00, 0x1C, 0x1C, 0x00, 0x00, 0x1C, 0x1C, 0x00, 0x00, 0x00]

theorem run_paddedHeader :
    readBloomFilterHeader.run (paddedHeader 0x3F)
      = .ok ({ numBytes := -32, algorithm := .splitBlock, hash := .xxHash,
               compression := .uncompressed }, []) ∧
    readBloomFilterHeader.run (paddedHeader 0x40 ++ List.replicate 32 0xFF)
      = .ok ({ numBytes := 32, algorithm := .splitBlock, hash := .xxHash,
               compression := .uncompressed }, List.replicate 32 0xFF) := by
  constructor <;> decide +kernel

/-- One block, in which every hash is found. -/
theorem bloomFilter_reads_block :
    ReadsFilter .debug (paddedHeader 0x40 ++ List.replicate 32 0xFF) := by
  refine (bloomFilter_reads_iff .debug _ (by decide)).mpr ?_
  rintro ⟨header, rest, hrun, hneg, -⟩
  obtain ⟨rfl, -⟩ := Prod.mk.inj (Except.ok.inj (run_paddedHeader.2.symm.trans hrun))
  exact absurd hneg (by decide)

/-- The size -32 ends the bitset where the header starts. -/
theorem bloomFilter_negative :
    ¬ ReadsFilter .debug (paddedHeader 0x3F) ∧ ¬ ReadsFilter .release (paddedHeader 0x3F) := by
  have hneg : NegativeSize (paddedHeader 0x3F) :=
    ⟨_, _, run_paddedHeader.1, by decide, by decide, by decide⟩
  constructor <;> intro h
  · obtain ⟨msg, hpanic⟩ := fromBytesIn_negative .debug (by decide) hneg
    exact h.settles msg hpanic
  · obtain ⟨msg, hpanic⟩ := fromBytesIn_negative .release (by decide) hneg
    exact h.settles msg hpanic

end EmatixParquet
