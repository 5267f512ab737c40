/-
  The split-block bloom filter builder (`bloom.rs`), with XXHash64.

  The writer stores the filter of a column as an opaque run of bytes, a header
  and the bitset.  How many blocks it has comes from a floating-point formula
  (`Platform.bloomBytes`), rounded up to a power of two.

  * `optimalNumBlocks_ne_zero`: a filter has blocks;
  * `length_intoBytes_insertAll`: the length of those bytes depends on the
    number of blocks only.
-/
import EmatixParquet.Codec.Compression

namespace EmatixParquet

open Wire

/-! ## XXHash64 -/

/-- `P1`. -/
def xxP1 : UInt64 := 0x9E3779B185EBCA87

/-- `P2`. -/
def xxP2 : UInt64 := 0xC2B2AE3D27D4EB4F

/-- `P3`. -/
def xxP3 : UInt64 := 0x165667B19E3779F9

/-- `P4`. -/
def xxP4 : UInt64 := 0x85EBCA77C2B2AE63

/-- `P5`. -/
def xxP5 : UInt64 := 0x27D4EB2F165667C5

/-- `rotate_left`, by 1 to 63. -/
def rotateLeft (x k : UInt64) : UInt64 := (x <<< k) ||| (x >>> (64 - k))

/-- The `u64` at the start of some bytes. -/
def readU64LeAt (input : Bytes) : UInt64 := UInt64.ofNat (leNat (input.take 8))

/-- A lane goes into an accumulator. -/
def xxRound (acc input : UInt64) : UInt64 := rotateLeft (acc + input * xxP2) 31 * xxP1

/-- An accumulator goes into the hash. -/
def mergeRound (acc val : UInt64) : UInt64 := (acc ^^^ xxRound 0 val) * xxP1 + xxP4

/-- The four accumulators over `n` stripes of 32 bytes, and what is left. -/
def xxStripes : ℕ → UInt64 → UInt64 → UInt64 → UInt64 → Bytes →
    (UInt64 × UInt64 × UInt64 × UInt64) × Bytes
  | 0, v1, v2, v3, v4, input => ((v1, v2, v3, v4), input)
  | n + 1, v1, v2, v3, v4, input =>
    xxStripes n (xxRound v1 (readU64LeAt input)) (xxRound v2 (readU64LeAt (input.drop 8)))
      (xxRound v3 (readU64LeAt (input.drop 16))) (xxRound v4 (readU64LeAt (input.drop 24)))
      (input.drop 32)

/-- `n` lanes of 8 bytes. -/
def xxLanes : ℕ → UInt64 → Bytes → UInt64 × Bytes
  | 0, acc, input => (acc, input)
  | n + 1, acc, input =>
    xxLanes n (rotateLeft (acc ^^^ xxRound 0 (readU64LeAt input)) 27 * xxP1 + xxP4) (input.drop 8)

/-- At most one lane of 4 bytes. -/
def xxHalfLane (acc : UInt64) (input : Bytes) : UInt64 × Bytes :=
  if 4 ≤ input.length then
    let k := UInt64.ofNat (leNat (input.take 4))
    (rotateLeft (acc ^^^ k * xxP1) 23 * xxP2 + xxP3, input.drop 4)
  else (acc, input)

/-- The bytes after the last lane. -/
def xxTail (acc : UInt64) (input : Bytes) : UInt64 :=
  input.foldl (fun acc b => rotateLeft (acc ^^^ b.toUInt64 * xxP5) 11 * xxP1) acc

/-- The last mixing. -/
def xxAvalanche (acc : UInt64) : UInt64 :=
  let acc := (acc ^^^ (acc >>> 33)) * xxP2
  let acc := (acc ^^^ (acc >>> 29)) * xxP3
  acc ^^^ (acc >>> 32)

/-- XXHash64 with a seed. -/
def parquetXxh64Seed (input : Bytes) (seed : UInt64) : UInt64 :=
  let (acc, rest) :=
    if 32 ≤ input.length then
      let ((v1, v2, v3, v4), rest) := xxStripes (input.length / 32) (seed + xxP1 + xxP2)
        (seed + xxP2) seed (seed - xxP1) input
      let acc := rotateLeft v1 1 + rotateLeft v2 7 + rotateLeft v3 12 + rotateLeft v4 18
      (mergeRound (mergeRound (mergeRound (mergeRound acc v1) v2) v3) v4, rest)
    else (seed + xxP5, input)
  let acc := acc + UInt64.ofNat input.length
  let (acc, rest) := xxLanes (rest.length / 8) acc rest
  let (acc, rest) := xxHalfLane acc rest
  xxAvalanche (xxTail acc rest)

/-- XXHash64 as filters use it, with seed 0. -/
def parquetXxh64 (input : Bytes) : UInt64 := parquetXxh64Seed input 0

-- the empty input
example : parquetXxh64 [] = 0xEF46DB3751D8E999 := by decide

/-! ## Sizes -/

/-- `next_power_of_two`: a power of two is its own. -/
def nextPowerOfTwo (n : ℕ) : ℕ := if 2 ^ n.log2 = n then n else 2 ^ (n.log2 + 1)

theorem le_nextPowerOfTwo {n : ℕ} : n ≤ nextPowerOfTwo n := by
  unfold nextPowerOfTwo
  split
  · exact le_rfl
  · exact Nat.lt_log2_self.le

/-- It is the least power of two that is not less. -/
theorem nextPowerOfTwo_le {n k : ℕ} (hpos : n ≠ 0) (h : n ≤ 2 ^ k) : nextPowerOfTwo n ≤ 2 ^ k := by
  unfold nextPowerOfTwo
  split
  · exact h
  · next hne =>
    have hlow : 2 ^ n.log2 ≤ n := Nat.log2_self_le hpos
    have hlt : 2 ^ n.log2 < 2 ^ k := by omega
    exact Nat.pow_le_pow_right (by decide) ((Nat.pow_lt_pow_iff_right (by decide)).mp hlt)

section
variable [Platform]

/-- `optimal_num_blocks`: a `u64` of bytes is at most `2 ^ 59` blocks, so that the next
    power of two is a `u64`. -/
def optimalNumBlocks (n : ℕ) (fpp : F64) : UInt32 :=
  if n = 0 then 1
  else
    let bytes := Platform.bloomBytes n fpp
    let blocks := max ((bytes.toNat + 31) / 32) 1
    UInt32.ofNat (min (nextPowerOfTwo blocks) (2 ^ 32 - 1))

/-- **A filter has blocks.** -/
theorem optimalNumBlocks_ne_zero (n : ℕ) (fpp : F64) : optimalNumBlocks n fpp ≠ 0 := by
  unfold optimalNumBlocks
  split
  · decide
  · have hle := @le_nextPowerOfTwo (max (((Platform.bloomBytes n fpp).toNat + 31) / 32) 1)
    intro hzero
    have hzero := congrArg UInt32.toNat hzero
    rw [UInt32.toNat_ofNat_of_lt' (by change _ < 2 ^ 32; omega)] at hzero
    change _ = 0 at hzero
    omega

/-- A filter that is to have `2 ^ 30` bytes at most has its length in an `i32`. -/
theorem optimalNumBlocks_le {n : ℕ} {fpp : F64} (h : (Platform.bloomBytes n fpp).toNat ≤ 2 ^ 30) :
    32 * (optimalNumBlocks n fpp).toNat ≤ 2 ^ 30 := by
  unfold optimalNumBlocks
  split
  · decide
  · have hle : nextPowerOfTwo (max (((Platform.bloomBytes n fpp).toNat + 31) / 32) 1) ≤ 2 ^ 25 :=
      nextPowerOfTwo_le (by omega) (by omega)
    rw [UInt32.toNat_ofNat_of_lt' (by change _ < 2 ^ 32; omega)]
    omega

end

/-! ## The builder -/

/-- The factors that choose a bit in each word of a block. -/
def salt : List UInt32 :=
  [0x47b6137b, 0x44974d91, 0x8824ad5b, 0xa2b7289d, 0x705495c7, 0x2df1424b, 0x9efc4947, 0x5c6bfb31]

/-- `word |= mask` on the little-endian word at `off`. -/
def orWord (bitset : Bytes) (off : ℕ) (mask : UInt32) : Bytes :=
  let word := UInt32.ofNat (leNat ((bitset.drop off).take 4)) ||| mask
  bitset.take off ++ (leBytes 4 word.toNat ++ bitset.drop (off + 4))

/-- One bit in each of the words of the block at `off`. -/
def orBlock (hLo : UInt32) (off : ℕ) : List UInt32 → Bytes → Bytes
  | [], bitset => bitset
  | s :: salts, bitset =>
    let maskBit := (hLo * s) >>> 27
    orBlock hLo (off + 4) salts (orWord bitset off ((1 : UInt32) <<< maskBit))

theorem length_orWord {bitset : Bytes} {off : ℕ} (h : off + 4 ≤ bitset.length) (mask : UInt32) :
    (orWord bitset off mask).length = bitset.length := by
  simp [orWord]
  omega

theorem length_orBlock {hLo : UInt32} {off : ℕ} {salts : List UInt32} {bitset : Bytes}
    (h : off + 4 * salts.length ≤ bitset.length) :
    (orBlock hLo off salts bitset).length = bitset.length := by
  induction salts generalizing off bitset with
  | nil => rfl
  | cons s salts ih =>
    rw [List.length_cons] at h
    have hword : (orWord bitset off ((1 : UInt32) <<< ((hLo * s) >>> 27))).length
        = bitset.length := length_orWord (by omega) _
    rw [orBlock, ih (by omega), hword]

/-- `((h >> 32) * num_blocks) >> 32`. -/
def blockIndex (h : UInt64) (numBlocks : UInt32) : UInt64 := ((h >>> 32) * numBlocks.toUInt64) >>> 32

/-- The block is one of the blocks. -/
theorem blockIndex_lt (h : UInt64) {numBlocks : UInt32} (hpos : numBlocks ≠ 0) :
    (blockIndex h numBlocks).toNat < numBlocks.toNat := by
  have hn : 0 < numBlocks.toNat := by
    rw [Nat.pos_iff_ne_zero]
    exact fun h0 => hpos (UInt32.toNat_inj.mp h0)
  have hhi : h.toNat / 2 ^ 32 < 2 ^ 32 := by
    have := h.toNat_lt
    omega
  have hprod : h.toNat / 2 ^ 32 * numBlocks.toNat < 2 ^ 32 * numBlocks.toNat :=
    Nat.mul_lt_mul_of_pos_right hhi hn
  have hlt := numBlocks.toNat_lt
  simp only [blockIndex, UInt64.toNat_shiftRight, UInt64.toNat_mul, UInt32.toNat_toUInt64,
    Nat.shiftRight_eq_div_pow]
  change h.toNat / 2 ^ 32 * numBlocks.toNat % 2 ^ 64 / 2 ^ 32 < _
  rw [Nat.mod_eq_of_lt (by omega)]
  omega

/-- A bitset of 32-byte blocks. -/
structure SplitBlockBloomFilterBuilder where
  bitset : Bytes
  numBlocks : UInt32
  length_bitset : bitset.length = 32 * numBlocks.toNat

namespace SplitBlockBloomFilterBuilder

/-- A filter without values. -/
def new (numBlocks : UInt32) : SplitBlockBloomFilterBuilder where
  bitset := List.replicate (32 * numBlocks.toNat) 0
  numBlocks
  length_bitset := List.length_replicate

/-- `insert_hash`. -/
def insertHash (b : SplitBlockBloomFilterBuilder) (h : UInt64) : SplitBlockBloomFilterBuilder :=
  if hzero : b.numBlocks = 0 then b
  else
    { bitset := orBlock h.toUInt32 ((blockIndex h b.numBlocks).toNat * 32) salt b.bitset
      numBlocks := b.numBlocks
      length_bitset := by
        have hlt := blockIndex_lt h hzero
        have hlen := b.length_bitset
        have hsalt : salt.length = 8 := rfl
        rw [length_orBlock (by omega), hlen] }

/-- `insert_bytes`. -/
def insertBytes (b : SplitBlockBloomFilterBuilder) (bytes : Bytes) : SplitBlockBloomFilterBuilder :=
  b.insertHash (parquetXxh64 bytes)

/-- A union whose first variant, an empty struct, is set. -/
def emptyUnion : Bytes := [0x1C, 0, 0]

/-- `write_bloom_filter_header`. -/
def writeBloomFilterHeader (numBytes : Int32) : Bytes :=
  [0x15] ++ writeZigzagI32 numBytes ++ [0x1C] ++ emptyUnion ++ [0x1C] ++ emptyUnion ++ [0x1C]
    ++ emptyUnion ++ [0]

/-- The header, with the length of the bitset as an `i32`, and the bitset. -/
def intoBytes (b : SplitBlockBloomFilterBuilder) : Bytes :=
  writeBloomFilterHeader (Int32.ofNat b.bitset.length) ++ b.bitset

@[simp] theorem numBlocks_insertHash (b : SplitBlockBloomFilterBuilder) (h : UInt64) :
    (b.insertHash h).numBlocks = b.numBlocks := by
  unfold insertHash
  split <;> rfl

/-- The filter of these values. -/
def insertAll (b : SplitBlockBloomFilterBuilder) (values : List Bytes) :
    SplitBlockBloomFilterBuilder :=
  values.foldl insertBytes b

theorem numBlocks_insertAll (b : SplitBlockBloomFilterBuilder) (values : List Bytes) :
    (b.insertAll values).numBlocks = b.numBlocks := by
  induction values generalizing b with
  | nil => rfl
  | cons v values ih => exact (ih (b.insertBytes v)).trans (numBlocks_insertHash b _)

/-- **The length of a filter** does not depend on the values. -/
theorem length_intoBytes_insertAll (n : UInt32) (values : List Bytes) :
    ((new n).insertAll values).intoBytes.length
      = (writeBloomFilterHeader (Int32.ofNat (32 * n.toNat))).length + 32 * n.toNat := by
  have hlen := ((new n).insertAll values).length_bitset
  rw [numBlocks_insertAll] at hlen
  change _ = 32 * n.toNat at hlen
  rw [intoBytes, List.length_append, hlen]

end SplitBlockBloomFilterBuilder

end EmatixParquet
