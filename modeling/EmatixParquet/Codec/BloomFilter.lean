/-
  The split-block bloom filter (`SplitBlockBloomFilter` of `bloom.rs`), read
  back from the bytes of the builder.

  The bitset is one number (`leNat`), and inserting a hash sets eight of its
  bits (`hashBits`).

  * `leNat_insertHash`, `containsHash_of_or`: what inserting does, and what
    makes a hash contained;
  * `fromBytes_intoBytes`: the serialised filter is read back;
  * `fromBytes_insertAll`: no inserted element is missed, in whatever order.
-/
import EmatixParquet.Codec.Bloom
import EmatixParquet.Io.Pages

namespace EmatixParquet

open Wire

/-! ## The filter -/

/-- A bitset of whole blocks. -/
structure SplitBlockBloomFilter where
  bitset : Bytes
  whole : bitset.length % 32 = 0

/-- `u32::from_le_bytes` of the word at `off`. -/
def wordAt (bitset : Bytes) (off : ℕ) : UInt32 := UInt32.ofNat (leNat ((bitset.drop off).take 4))

/-- Whether the bits of a hash are set in the words of the block at `off`. -/
def testBlock (hLo : UInt32) (off : ℕ) : List UInt32 → Bytes → Bool
  | [], _ => true
  | s :: salts, bitset =>
    let maskBit := (hLo * s) >>> 27
    if wordAt bitset off &&& ((1 : UInt32) <<< maskBit) = 0 then false
    else testBlock hLo (off + 4) salts bitset

namespace SplitBlockBloomFilter

/-- A range that does not wrap is as long as it says. -/
theorem length_attached {bytes bitset : Bytes} {headerLen : ℕ} {numBytes : UInt64}
    (h : slice bytes headerLen ((headerLen + numBytes.toNat) % usizeBound)
      = (.ok bitset : Res CodecError Bytes)) : bitset.length = numBytes.toNat := by
  obtain ⟨hle, hlen, rfl⟩ := slice_eq_ok.mp h
  have hlt := numBytes.toNat_lt
  have hmod := Nat.mod_lt (headerLen + numBytes.toNat) (show 0 < usizeBound by decide)
  have hbound : usizeBound = 2 ^ 64 := rfl
  have hend : (headerLen + numBytes.toNat) % usizeBound = headerLen + numBytes.toNat := by
    by_cases hwrap : headerLen + numBytes.toNat < usizeBound
    · exact Nat.mod_eq_of_lt hwrap
    · by_cases hlong : usizeBound ≤ headerLen
      · omega
      · rw [Nat.mod_eq_sub_mod (by omega), Nat.mod_eq_of_lt (by omega)] at hle
        omega
  rw [List.length_drop, List.length_take, Nat.min_eq_left hlen, hend]
  omega

/-- The bitset of `numBytes` bytes after a header of `headerLen`. -/
def attach (bytes : Bytes) (headerLen : ℕ) (numBytes : UInt64) :
    Res CodecError SplitBlockBloomFilter :=
  if hwhole : numBytes.toNat % 32 ≠ 0 then codecErr (.invalidInput
    s!"bloom filter num_bytes must be a multiple of 32, got {numBytes.toNat}")
  else
    let bitsetEnd := (headerLen + numBytes.toNat) % usizeBound
    if bytes.length < bitsetEnd then codecErr (.invalidInput
      s!"bloom filter byte buffer too short: have {bytes.length}, need {bitsetEnd}")
    else match h : slice bytes headerLen bitsetEnd with
      | .error e => .error e
      | .ok bitset => .ok { bitset, whole := length_attached h ▸ not_not.mp hwhole }

/-- `from_bytes`.  The header has one algorithm, hash and compression to offer. -/
def fromBytes (bytes : Bytes) : Res CodecError SplitBlockBloomFilter := do
  let header ← (readBloomFilterHeader.run bytes).mapError (Fault.map formatToCodec)
  attach bytes (bytes.length - header.2.length) header.1.numBytes.toInt64.toUInt64

/-- `num_blocks`: blocks of 32 bytes. -/
def numBlocks (f : SplitBlockBloomFilter) : ℕ := f.bitset.length / 32

/-- `contains_hash`: the block that the high half of the hash chooses, then its eight words. -/
def containsHash (f : SplitBlockBloomFilter) (h : UInt64) : Bool :=
  let numBlocks := UInt64.ofNat f.numBlocks
  if numBlocks = 0 then false
  else
    let blockIdx := ((h >>> 32) * numBlocks) >>> 32
    testBlock h.toUInt32 (blockIdx.toNat * 32) salt f.bitset

/-- `contains_bytes`. -/
def containsBytes (f : SplitBlockBloomFilter) (bytes : Bytes) : Bool :=
  f.containsHash (parquetXxh64 bytes)

end SplitBlockBloomFilter

/-! ## Bits -/

theorem testBit_leNat_append {as bs : Bytes} {j : ℕ} :
    (leNat (as ++ bs)).testBit j
      = if j < 8 * as.length then (leNat as).testBit j else (leNat bs).testBit (j - 8 * as.length) := by
  have hlt := leNat_lt as
  rw [show (256 : ℕ) = 2 ^ 8 from rfl, ← Nat.pow_mul] at hlt
  rw [leNat_append, show (256 : ℕ) = 2 ^ 8 from rfl, ← Nat.pow_mul, Nat.add_comm]
  exact Nat.testBit_two_pow_mul_add _ hlt j

/-- The bits of a word are bits of the bitset. -/
theorem testBit_wordAt {bitset : Bytes} {off i : ℕ} (hi : i < 32) :
    (wordAt bitset off).toNat.testBit i = (leNat bitset).testBit (8 * off + i) := by
  have hword : (wordAt bitset off).toNat = leNat bitset / 2 ^ (8 * off) % 2 ^ 32 := by
    rw [wordAt, UInt32.toNat_ofNat', leNat_take, leNat_drop, show (256 : ℕ) = 2 ^ 8 from rfl,
      ← Nat.pow_mul, ← Nat.pow_mul, Nat.mod_mod]
  rw [hword, Nat.testBit_mod_two_pow, Nat.testBit_div_two_pow]
  simp [hi, Nat.add_comm]

theorem wordAt_eq_or {bitset : Bytes} {off : ℕ} :
    UInt32.ofNat (leNat ((bitset.drop off).take 4)) = wordAt bitset off := rfl

/-- Setting bits of a word sets bits of the bitset. -/
theorem leNat_orWord {bitset : Bytes} {off : ℕ} (h : off + 4 ≤ bitset.length) (mask : UInt32) :
    leNat (orWord bitset off mask) = leNat bitset ||| (mask.toNat <<< (8 * off)) := by
  refine Nat.eq_of_testBit_eq fun j => ?_
  have htake : (bitset.take off).length = off := by simp; omega
  rw [orWord, testBit_leNat_append, testBit_leNat_append, htake, length_leBytes, Nat.testBit_or,
    Nat.testBit_shiftLeft]
  by_cases hlow : j < 8 * off
  · rw [if_pos hlow, leNat_take, show (256 : ℕ) = 2 ^ 8 from rfl, ← Nat.pow_mul,
      Nat.testBit_mod_two_pow]
    simp [hlow]
  · rw [if_neg hlow]
    by_cases hword : j - 8 * off < 8 * 4
    · have hsplit : 8 * off + (j - 8 * off) = j := by omega
      rw [if_pos hword, leNat_leBytes, wordAt_eq_or, UInt32.toNat_or,
        Nat.mod_eq_of_lt (by rw [← UInt32.toNat_or]; exact UInt32.toNat_lt _), Nat.testBit_or,
        testBit_wordAt (by omega), hsplit]
      simp [show 8 * off ≤ j by omega]
    · have hmask : mask.toNat.testBit (j - 8 * off) = false :=
        Nat.testBit_lt_two_pow (lt_of_lt_of_le mask.toNat_lt (Nat.pow_le_pow_right (by decide) (by omega)))
      rw [if_neg hword, leNat_drop, show (256 : ℕ) = 2 ^ 8 from rfl, ← Nat.pow_mul,
        Nat.testBit_div_two_pow, hmask]
      simp
      congr 1
      omega

/-- One bit for each of the salts. -/
def blockBits (hLo : UInt32) (off : ℕ) : List UInt32 → ℕ
  | [] => 0
  | s :: salts => 2 ^ (8 * off + ((hLo * s) >>> 27).toNat) ||| blockBits hLo (off + 4) salts

theorem maskBit_lt (x : UInt32) : (x >>> 27).toNat < 32 := by
  have := x.toNat_lt
  rw [UInt32.toNat_shiftRight, Nat.shiftRight_eq_div_pow]
  change x.toNat / 2 ^ 27 < 32
  omega

theorem toNat_mask (x : UInt32) : ((1 : UInt32) <<< (x >>> 27)).toNat = 2 ^ (x >>> 27).toNat := by
  have hlt := maskBit_lt x
  rw [UInt32.toNat_shiftLeft, Nat.mod_eq_of_lt (b := 32) hlt, UInt32.toNat_one, Nat.one_shiftLeft]
  exact Nat.mod_eq_of_lt (Nat.pow_lt_pow_right (by decide) hlt)

theorem leNat_orBlock {hLo : UInt32} {off : ℕ} {salts : List UInt32} {bitset : Bytes}
    (h : off + 4 * salts.length ≤ bitset.length) :
    leNat (orBlock hLo off salts bitset) = leNat bitset ||| blockBits hLo off salts := by
  induction salts generalizing off bitset with
  | nil => simp [orBlock, blockBits]
  | cons s salts ih =>
    rw [List.length_cons] at h
    have hfirst : off + 4 ≤ bitset.length := by omega
    have hlen := length_orWord hfirst ((1 : UInt32) <<< ((hLo * s) >>> 27))
    rw [orBlock, ih (by omega), leNat_orWord hfirst, toNat_mask, blockBits, Nat.or_assoc,
      Nat.shiftLeft_eq, ← Nat.pow_add, Nat.add_comm _ (8 * off)]

/-- A block whose bits are all set passes the test. -/
theorem testBlock_of_or {hLo : UInt32} {off : ℕ} {salts : List UInt32} {bitset : Bytes}
    (h : leNat bitset ||| blockBits hLo off salts = leNat bitset) :
    testBlock hLo off salts bitset = true := by
  induction salts generalizing off with
  | nil => rfl
  | cons s salts ih =>
    have hset : ∀ j, (blockBits hLo off (s :: salts)).testBit j = true →
        (leNat bitset).testBit j = true := by
      intro j hj
      rw [← h, Nat.testBit_or, hj, Bool.or_true]
    have hrest : leNat bitset ||| blockBits hLo (off + 4) salts = leNat bitset := by
      refine Nat.eq_of_testBit_eq fun j => ?_
      rw [Nat.testBit_or]
      cases hj : (blockBits hLo (off + 4) salts).testBit j with
      | false => simp
      | true =>
        rw [hset j (by rw [blockBits, Nat.testBit_or, hj, Bool.or_true])]
        rfl
    have hlt := maskBit_lt (hLo * s)
    have hbit : (wordAt bitset off).toNat.testBit ((hLo * s) >>> 27).toNat = true := by
      rw [testBit_wordAt hlt]
      refine hset _ ?_
      rw [blockBits, Nat.testBit_or, Nat.testBit_two_pow_self, Bool.true_or]
    have hne : wordAt bitset off &&& ((1 : UInt32) <<< ((hLo * s) >>> 27)) ≠ 0 := by
      intro hzero
      have hz := congrArg (fun w : UInt32 => w.toNat.testBit ((hLo * s) >>> 27).toNat) hzero
      simp only [UInt32.toNat_and, toNat_mask, Nat.testBit_and, hbit, Nat.testBit_two_pow_self] at hz
      simp at hz
    rw [testBlock, if_neg hne, ih hrest]

/-! ## Inserting -/

namespace SplitBlockBloomFilterBuilder

/-- The bits of a hash in a filter of `numBlocks` blocks. -/
def hashBits (numBlocks : UInt32) (h : UInt64) : ℕ :=
  blockBits h.toUInt32 ((blockIndex h numBlocks).toNat * 32) salt

/-- **Inserting** sets the bits of the hash. -/
theorem leNat_insertHash {b : SplitBlockBloomFilterBuilder} (hpos : b.numBlocks ≠ 0) (h : UInt64) :
    leNat (b.insertHash h).bitset = leNat b.bitset ||| hashBits b.numBlocks h := by
  have hlt := blockIndex_lt h hpos
  have hlen := b.length_bitset
  have hsalt : salt.length = 8 := rfl
  rw [insertHash, dif_neg hpos, leNat_orBlock (by omega), hashBits]

/-- An element is inserted by its hash or by its bytes. -/
abbrev Element := UInt64 ⊕ Bytes

/-- The hash under which an element is looked up. -/
def hashOf : Element → UInt64
  | .inl h => h
  | .inr bytes => parquetXxh64 bytes

/-- An element put in, by its hash or by its bytes. -/
def insert (b : SplitBlockBloomFilterBuilder) : Element → SplitBlockBloomFilterBuilder
  | .inl h => b.insertHash h
  | .inr bytes => b.insertBytes bytes

/-- A sequence of insertions. -/
def inserts (b : SplitBlockBloomFilterBuilder) (es : List Element) : SplitBlockBloomFilterBuilder :=
  es.foldl insert b

theorem insert_eq (b : SplitBlockBloomFilterBuilder) (e : Element) :
    b.insert e = b.insertHash (hashOf e) := by
  cases e <;> rfl

@[simp] theorem numBlocks_insert (b : SplitBlockBloomFilterBuilder) (e : Element) :
    (b.insert e).numBlocks = b.numBlocks := by
  rw [insert_eq, numBlocks_insertHash]

theorem numBlocks_inserts (b : SplitBlockBloomFilterBuilder) (es : List Element) :
    (b.inserts es).numBlocks = b.numBlocks := by
  induction es generalizing b with
  | nil => rfl
  | cons e es ih => exact (ih (b.insert e)).trans (numBlocks_insert b e)

/-- The bits of all elements. -/
def bitsOf (numBlocks : UInt32) : List Element → ℕ
  | [] => 0
  | e :: es => hashBits numBlocks (hashOf e) ||| bitsOf numBlocks es

theorem leNat_inserts {b : SplitBlockBloomFilterBuilder} (hpos : b.numBlocks ≠ 0)
    (es : List Element) :
    leNat (b.inserts es).bitset = leNat b.bitset ||| bitsOf b.numBlocks es := by
  induction es generalizing b with
  | nil => exact (Nat.or_zero _).symm
  | cons e es ih =>
    have hstep := ih (b := b.insert e) (by rwa [numBlocks_insert])
    rw [numBlocks_insert, insert_eq, leNat_insertHash hpos, Nat.or_assoc] at hstep
    rw [bitsOf, ← hstep, inserts, List.foldl_cons, insert_eq]
    rfl

theorem bitsOf_perm {numBlocks : UInt32} {es es' : List Element} (h : es.Perm es') :
    bitsOf numBlocks es = bitsOf numBlocks es' := by
  induction h with
  | nil => rfl
  | cons e _ ih => rw [bitsOf, ih, bitsOf]
  | swap e e' es =>
    simp only [bitsOf]
    rw [← Nat.or_assoc, Nat.or_comm (hashBits numBlocks (hashOf e')), Nat.or_assoc]
  | trans _ _ ih ih' => exact ih.trans ih'

/-- The bits of an element are among the bits of all. -/
theorem bitsOf_or_hashBits {numBlocks : UInt32} {es : List Element} {e : Element} (he : e ∈ es) :
    bitsOf numBlocks es ||| hashBits numBlocks (hashOf e) = bitsOf numBlocks es := by
  induction es with
  | nil => cases he
  | cons e' es ih =>
    rw [bitsOf]
    rcases List.mem_cons.mp he with rfl | he
    · rw [Nat.or_comm, ← Nat.or_assoc, Nat.or_self]
    · rw [Nat.or_assoc, ih he]

/-- **The order of insertion** does not matter. -/
theorem inserts_perm {b : SplitBlockBloomFilterBuilder} (hpos : b.numBlocks ≠ 0)
    {es es' : List Element} (h : es.Perm es') :
    (b.inserts es).intoBytes = (b.inserts es').intoBytes := by
  have hlen : (b.inserts es).bitset.length = (b.inserts es').bitset.length := by
    rw [length_bitset, length_bitset, numBlocks_inserts, numBlocks_inserts]
  have hbits : leNat (b.inserts es).bitset = leNat (b.inserts es').bitset := by
    rw [leNat_inserts hpos, leNat_inserts hpos, bitsOf_perm h]
  have heq : (b.inserts es).bitset = (b.inserts es').bitset := by
    refine List.map_injective_iff.mpr (fun _ _ => UInt8.toNat_inj.mp) ?_
    refine Nat.ofDigits_inj_of_len_eq (b := 256) (by decide) (by simp [hlen]) ?_ ?_ hbits
    all_goals
      intro d hd
      obtain ⟨x, -, rfl⟩ := List.mem_map.mp hd
      exact x.toNat_lt
  rw [intoBytes, intoBytes, heq]

/-! ## Round trip -/

theorem parses_skipFieldHeaders : ReadsBack (skipFieldHeaders.run ()) writeStop () :=
  fun _ _ => Loop.run_of_inr _ rfl

theorem parses_bloomUnion {α : Type} (name : String) (variant : α) :
    ReadsBack (readBloomUnion name variant) emptyUnion variant := by
  have h0 : Wrote (fun (_ : Option α) h =>
      if h.id = 1 then (fun _ => some variant) <$> skipFieldHeaders.run ()
      else throwFormat (unknown name h.id)) none .new none := Wrote.new
  have hvariant : ReadsBack ((fun _ => some variant) <$> skipFieldHeaders.run ()) writeStop
      (some variant) := parses_map _ parses_skipFieldHeaders
  exact (h0.field 1 .struct hvariant).finish rfl

/-- The header, field by field. -/
theorem writeBloomFilterHeader_eq (numBytes : Int32) :
    writeBloomFilterHeader numBytes = (StructWriter.new
      |>.field 1 .i32 (writeZigzagI32 numBytes)
      |>.field 2 .struct emptyUnion
      |>.field 3 .struct emptyUnion
      |>.field 4 .struct emptyUnion
      |>.stop) := by
  have hfirst : writeFieldHeader 1 .i32 0 = [0x15] := rfl
  have hnext : writeFieldHeader 2 .struct 1 = [0x1C] ∧ writeFieldHeader 3 .struct 2 = [0x1C] ∧
    writeFieldHeader 4 .struct 3 = [0x1C] := ⟨rfl, rfl, rfl⟩
  simp [writeBloomFilterHeader, StructWriter.field, StructWriter.stop, StructWriter.new, hfirst, hnext]

/-- The header is read back. -/
theorem parses_bloomFilterHeader (numBytes : Int32) :
    ReadsBack readBloomFilterHeader (writeBloomFilterHeader numBytes)
      ⟨numBytes, .splitBlock, .xxHash, .uncompressed⟩ := by
  have h0 : Wrote readBloomFilterHeaderStep {} .new {} := Wrote.new
  have h1 := h0.field 1 .i32 (parses_map _ (parses_zigzagI32 numBytes))
  have h2 := h1.field 2 .struct (parses_map _ (parses_bloomUnion "BloomFilterAlgorithm" _))
  have h3 := h2.field 3 .struct (parses_map _ (parses_bloomUnion "BloomFilterHash" _))
  have h4 := h3.field 4 .struct (parses_map _ (parses_bloomUnion "BloomFilterCompression" _))
  rw [writeBloomFilterHeader_eq]
  exact h4.finish rfl

theorem length_writeBloomFilterHeader (numBytes : Int32) :
    (writeBloomFilterHeader numBytes).length ≤ 24 := by
  have hle := length_writeUvarint_le ((numBytes <<< 1) ^^^ (numBytes >>> 31)).toUInt32.toUInt64
  simp only [writeBloomFilterHeader, emptyUnion, writeZigzagI32, List.length_append,
    List.length_cons, List.length_nil]
  omega

theorem attach_eq {bytes bitset : Bytes} {headerLen : ℕ} {numBytes : UInt64}
    (hwhole : numBytes.toNat % 32 = 0) (hend : headerLen + numBytes.toNat < usizeBound)
    (hle : headerLen + numBytes.toNat ≤ bytes.length)
    (hbitset : (bytes.take (headerLen + numBytes.toNat)).drop headerLen = bitset) :
    ∃ f, SplitBlockBloomFilter.attach bytes headerLen numBytes = .ok f ∧ f.bitset = bitset := by
  have hslice : slice bytes headerLen ((headerLen + numBytes.toNat) % usizeBound)
      = (.ok bitset : Res CodecError Bytes) := by
    rw [Nat.mod_eq_of_lt hend]
    exact slice_eq_ok.mpr ⟨Nat.le_add_right _ _, hle, hbitset⟩
  rw [SplitBlockBloomFilter.attach, dif_neg (not_not.mpr hwhole)]
  dsimp only
  rw [if_neg (by rw [Nat.mod_eq_of_lt hend]; omega)]
  split
  · next h =>
    rw [hslice] at h
    cases h
  · next h =>
    rw [hslice] at h
    cases h
    exact ⟨_, rfl, rfl⟩

/-- **The serialised filter** is read back. -/
theorem fromBytes_intoBytes {b : SplitBlockBloomFilterBuilder} (rest : Bytes)
    (hlen : b.bitset.length < 2 ^ 31) :
    ∃ f, SplitBlockBloomFilter.fromBytes (b.intoBytes ++ rest) = .ok f ∧ f.bitset = b.bitset := by
  have hheader := length_writeBloomFilterHeader (Int32.ofNat b.bitset.length)
  have hread := parses_bloomFilterHeader (Int32.ofNat b.bitset.length)
    (lt_of_le_of_lt hheader (by decide)) (b.bitset ++ rest)
  have hcount : (Int32.ofNat b.bitset.length).toInt64.toUInt64.toNat = b.bitset.length :=
    i32AsUsize_ofNat hlen
  have hbound : usizeBound = 2 ^ 64 := rfl
  rw [SplitBlockBloomFilter.fromBytes, intoBytes, List.append_assoc, hread]
  change ∃ f, SplitBlockBloomFilter.attach _ _ _ = .ok f ∧ _
  refine attach_eq ?_ ?_ ?_ ?_
  · rw [hcount, b.length_bitset, Nat.mul_mod_right]
  · simp only [hcount, List.length_append]
    omega
  · simp only [hcount, List.length_append]
    omega
  · have hhead : (writeBloomFilterHeader (Int32.ofNat b.bitset.length)
        ++ (b.bitset ++ rest)).length - (b.bitset ++ rest).length
        = (writeBloomFilterHeader (Int32.ofNat b.bitset.length)).length := by
      rw [List.length_append, Nat.add_sub_cancel]
    dsimp only
    rw [hcount, hhead, ← List.append_assoc, List.take_left' (by rw [List.length_append]),
      List.drop_left]

/-- A hash whose bits are all set is contained. -/
theorem containsHash_of_or {f : SplitBlockBloomFilter} {numBlocks : UInt32} {h : UInt64}
    (hpos : numBlocks ≠ 0) (hlen : f.bitset.length = 32 * numBlocks.toNat)
    (hbits : leNat f.bitset ||| hashBits numBlocks h = leNat f.bitset) :
    f.containsHash h = true := by
  have hcount : UInt64.ofNat f.numBlocks = numBlocks.toUInt64 := by
    rw [SplitBlockBloomFilter.numBlocks, hlen, Nat.mul_div_cancel_left _ (by decide)]
    refine UInt64.toNat_inj.mp ?_
    rw [UInt32.toNat_toUInt64]
    exact UInt64.toNat_ofNat_of_lt' (lt_trans numBlocks.toNat_lt (by decide))
  have hne : numBlocks.toUInt64 ≠ 0 := by
    intro hzero
    have := congrArg UInt64.toNat hzero
    rw [UInt32.toNat_toUInt64] at this
    exact hpos (UInt32.toNat_inj.mp this)
  rw [SplitBlockBloomFilter.containsHash, hcount]
  dsimp only
  rw [if_neg hne]
  exact testBlock_of_or hbits

/-- An element looked up, by its hash or by its bytes. -/
def contains (f : SplitBlockBloomFilter) : Element → Bool
  | .inl h => f.containsHash h
  | .inr bytes => f.containsBytes bytes

theorem contains_eq (f : SplitBlockBloomFilter) (e : Element) :
    contains f e = f.containsHash (hashOf e) := by
  cases e <;> rfl

/-- Whatever was inserted is contained. -/
theorem contains_of_mem {b : SplitBlockBloomFilterBuilder} (hpos : b.numBlocks ≠ 0)
    {es : List Element} {f : SplitBlockBloomFilter} (hf : f.bitset = (b.inserts es).bitset)
    {e : Element} (he : e ∈ es) : contains f e = true := by
  rw [contains_eq]
  refine containsHash_of_or hpos ?_ ?_
  · rw [hf, length_bitset, numBlocks_inserts]
  · rw [hf, leNat_inserts hpos, Nat.or_assoc, bitsOf_or_hashBits he]

/-- The filter of some elements is read back and contains them. -/
theorem exists_fromBytes {n : UInt32} (hpos : n ≠ 0) (hmax : 32 * n.toNat < 2 ^ 31)
    (es : List Element) : ∃ f, SplitBlockBloomFilter.fromBytes ((new n).inserts es).intoBytes = .ok f ∧
      ∀ e ∈ es, contains f e = true := by
  have hlen : ((new n).inserts es).bitset.length = 32 * n.toNat := by
    rw [length_bitset, numBlocks_inserts]
    rfl
  obtain ⟨f, hf, hbitset⟩ := fromBytes_intoBytes (b := (new n).inserts es) [] (hlen ▸ hmax)
  rw [List.append_nil] at hf
  exact ⟨f, hf, fun e he => contains_of_mem hpos hbitset he⟩

/-- **No false negatives**, through serialisation, and the same bytes for every
    order of the insertions. -/
theorem fromBytes_inserts {n : UInt32} (hpos : n ≠ 0) (hmax : 32 * n.toNat < 2 ^ 31)
    (es : List Element) :
    (∃ f, SplitBlockBloomFilter.fromBytes ((new n).inserts es).intoBytes = .ok f ∧
      f.numBlocks = n.toNat ∧ ∀ e ∈ es, contains f e = true) ∧
    ∀ es' : List Element, es'.Perm es →
      ((new n).inserts es').intoBytes = ((new n).inserts es).intoBytes := by
  have hlen : ((new n).inserts es).bitset.length = 32 * n.toNat := by
    rw [length_bitset, numBlocks_inserts]
    rfl
  refine ⟨?_, fun es' h => inserts_perm hpos h⟩
  obtain ⟨f, hf, hbitset⟩ := fromBytes_intoBytes (b := (new n).inserts es) [] (hlen ▸ hmax)
  rw [List.append_nil] at hf
  refine ⟨f, hf, ?_, fun e he => contains_of_mem hpos hbitset he⟩
  rw [SplitBlockBloomFilter.numBlocks, hbitset, hlen, Nat.mul_div_cancel_left _ (by decide)]

theorem fromBytes_inserts_sample :
    (∃ f, SplitBlockBloomFilter.fromBytes
        ((new 2).inserts [.inl 7, .inr [1, 2], .inl 7]).intoBytes = .ok f ∧
      f.numBlocks = 2 ∧ ∀ e ∈ ([.inl 7, .inr [1, 2], .inl 7] : List Element), contains f e = true) ∧
    ∀ es' : List Element, es'.Perm [.inl 7, .inr [1, 2], .inl 7] →
      ((new 2).inserts es').intoBytes
        = ((new 2).inserts [.inl 7, .inr [1, 2], .inl 7]).intoBytes :=
  fromBytes_inserts (n := 2) (by decide) (by decide) [.inl 7, .inr [1, 2], .inl 7]

end SplitBlockBloomFilterBuilder

end EmatixParquet
