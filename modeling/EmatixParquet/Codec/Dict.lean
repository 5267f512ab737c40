/-
  RLE_DICTIONARY pages — `dict.rs`: the index stream of a page, decoded as
  indices, through the dictionary, or only at the rows a mask selects.

  * `decodeRleDictionaryIndices_runs`: the index decoder reads any runs of the
    indices back;
  * `hybrid_roundTrip`: both encoders, through both decoders, return the
    indices;
  * `decodeRleDictionary_runs`: through a dictionary, they return its entries;
  * `gatherDictAtBitmap_eq`: gathering at a mask selects from what the full
    decoder returns.
-/
import EmatixParquet.Codec.Rle

namespace EmatixParquet

open Wire

variable {α : Type}

/-! ## Decoding -/

/-- The index of an RLE run: at most four bytes. -/
def rleIndex (valueChunk : Bytes) : UInt32 := (accumulateLe valueChunk).toUInt32

/-- `decode_rle_dictionary_indices_into`: what it appends. -/
def decodeRleDictionaryIndices (body : Bytes) (numValues : ℕ) : Res CodecError (List UInt32) :=
  match body with
  | [] => codecErr .emptyDictPageBody
  | bitWidth :: bytes =>
    if 32 < bitWidth then codecErr (.bitWidthOutOfRange bitWidth)
    else if numValues = 0 then .ok []
    else if bitWidth = 0 then .ok (List.replicate numValues 0)
    else hybridDecode bitWidth.toNat numValues (fun _ chunk n => unpackIndices chunk n bitWidth)
      (fun _ valueChunk n => .ok (List.replicate n (rleIndex valueChunk))) bytes

/-- The RLE branch of `decode_rle_dictionary_into`: the index is checked even
    when the run has no values. -/
def lookupRun (dict : List α) (valueChunk : Bytes) (toEmit : ℕ) : Res CodecError (List α) := do
  let v ← lookupIndex dict (rleIndex valueChunk).toUInt64
  pure (List.replicate toEmit v)

/-- `decode_rle_dictionary_into`: what it appends. -/
def decodeRleDictionary (body : Bytes) (dict : List α) (numValues : ℕ) :
    Res CodecError (List α) :=
  match body with
  | [] => codecErr .emptyDictPageBody
  | bitWidth :: bytes =>
    if 32 < bitWidth then codecErr (.bitWidthOutOfRange bitWidth)
    else if numValues = 0 then .ok []
    else if bitWidth = 0 then
      match dict with
      | [] => codecErr (.dictIndexOutOfRange 0 0)
      | v :: _ => .ok (List.replicate numValues v)
    else hybridDecode bitWidth.toNat numValues
      (fun _ chunk n => unpackLookup chunk n bitWidth dict)
      (fun _ valueChunk n => lookupRun dict valueChunk n) bytes

/-- `lookup_dict`. -/
def lookupDict (dict : List α) (indices : List UInt32) : Res CodecError (List α) :=
  indices.mapM fun idx => lookupIndex dict idx.toUInt64

/-! ## Gathering at a mask -/

/-- `bitmap[k]`. -/
def byteAt (bitmap : Bytes) (k : ℕ) : Res CodecError UInt8 :=
  match bitmap[k]? with
  | some b => .ok b
  | none => .error (.panic "index out of bounds")

/-- `(bitmap[pos / 8] >> (pos % 8)) & 1 == 1`. -/
def bitmapBit (bitmap : Bytes) (pos : ℕ) : Res CodecError Bool := do
  let b ← byteAt bitmap (pos / 8)
  pure ((b >>> UInt8.ofNat (pos % 8)) &&& 1 == 1)

/-- The scalar loop: the dictionary values of the rows, from position `pos`
    on, whose bit is set. -/
def gatherRows (bit : ℕ → Res CodecError Bool) (dict : List α) :
    ℕ → List UInt32 → Res CodecError (List α)
  | _, [] => .ok []
  | pos, idx :: rest => do
    if ← bit pos then
      let v ← lookupIndex dict idx.toUInt64
      let vs ← gatherRows bit dict (pos + 1) rest
      pure (v :: vs)
    else gatherRows bit dict (pos + 1) rest

/-- `unpack_8_indices`, with its `debug_assert_eq!`. -/
def unpack8Indices (build : Build) (packed : Bytes) (bitWidth : UInt8) :
    Res CodecError (List UInt32) :=
  if build = .debug ∧ packed.length ≠ bitWidth.toNat then
    .error (.panic "assertion `left == right` failed")
  else unpackTail bitWidth.toNat (fun v => .ok v.toUInt32) 8 0 0 packed

/-- One block of 8 rows, skipped where the mask byte is 0. -/
def gatherBlock (maskByte : UInt8) (dict : List α) (bitWidth : UInt8) (chunk : Bytes)
    (byteCursor : ℕ) : Res CodecError (List α) :=
  if maskByte = 0 then .ok []
  else do
    let block ← slice chunk byteCursor (byteCursor + bitWidth.toNat)
    -- of a whole block the assertion holds, in either build (`unpack8Indices_build`)
    let scratch ← unpack8Indices .debug block bitWidth
    gatherRows (fun lane => .ok ((maskByte >>> UInt8.ofNat lane) &&& 1 == 1)) dict 0 scratch

/-- The aligned path: 8-row blocks, then a tail of fewer than 8 rows. -/
def gatherBlocks (bitmap : Bytes) (dict : List α) (bitWidth : UInt8) (chunk : Bytes)
    (tail : ℕ) : ℕ → ℕ → ℕ → Res CodecError (List α)
  | 0, pos, byteCursor =>
    if 0 < tail then do
      let tailBytes := divCeil (tail * bitWidth.toNat) 8
      let bytes ← slice chunk byteCursor (byteCursor + tailBytes)
      let tailIdxs ← unpackIndices bytes tail bitWidth
      gatherRows (bitmapBit bitmap) dict pos tailIdxs
    else .ok []
  | blocks + 1, pos, byteCursor => do
    let maskByte ← byteAt bitmap (pos / 8)
    let vs ← gatherBlock maskByte dict bitWidth chunk byteCursor
    let ws ← gatherBlocks bitmap dict bitWidth chunk tail blocks (pos + 8)
      (byteCursor + bitWidth.toNat)
    pure (vs ++ ws)

/-- The bit-packed branch of `gather_dict_at_bitmap_into`, at position `pos` of
    the mask. -/
def gatherPacked (bitmap : Bytes) (dict : List α) (bitWidth : UInt8) (pos : ℕ) (chunk : Bytes)
    (toConsume : ℕ) : Res CodecError (List α) :=
  let headUnaligned := pos % 8
  if headUnaligned ≠ 0 then do
    let headRows := min (8 - headUnaligned) toConsume
    let headBytes := divCeil (headRows * bitWidth.toNat) 8
    let headChunk ← slice chunk 0 headBytes
    let headIdxs ← unpackIndices headChunk headRows bitWidth
    let head ← gatherRows (bitmapBit bitmap) dict pos headIdxs
    -- misaligned: the rest of the run goes the scalar way too
    let totalBytes := divCeil (toConsume * bitWidth.toNat) 8
    let allChunk ← slice chunk 0 totalBytes
    let allIdxs ← unpackIndices allChunk toConsume bitWidth
    let rest ← gatherRows (bitmapBit bitmap) dict (pos + headRows) (allIdxs.drop headRows)
    pure (head ++ rest)
  else gatherBlocks bitmap dict bitWidth chunk (toConsume % 8) (toConsume / 8) pos 0

/-- `count_ones`. -/
def countOnes (b : UInt8) : ℕ := countBits b.toNat.testBit 0 8

/-- `popcount_range`: one bit at a time up to the first and after the last
    whole byte. -/
def popcountRange (bitmap : Bytes) (bit endBit : ℕ) : Res CodecError ℕ :=
  if bit < endBit then
    if bit % 8 ≠ 0 ∨ endBit < bit + 8 then do
      let set ← bitmapBit bitmap bit
      let total ← popcountRange bitmap (bit + 1) endBit
      pure (set.toNat + total)
    else do
      let b ← byteAt bitmap (bit / 8)
      let total ← popcountRange bitmap (bit + 8) endBit
      pure (countOnes b + total)
  else .ok 0
termination_by endBit - bit

/-- The RLE branch: the value, once for each set bit. -/
def gatherRun (bitmap : Bytes) (dict : List α) (pos : ℕ) (valueChunk : Bytes) (toConsume : ℕ) :
    Res CodecError (List α) := do
  let v ← lookupIndex dict (rleIndex valueChunk).toUInt64
  let matched ← popcountRange bitmap pos (pos + toConsume)
  pure (List.replicate matched v)

/-- `gather_dict_at_bitmap_into`: what it appends. -/
def gatherDictAtBitmap (body : Bytes) (numValues : ℕ) (bitmap : Bytes) (bitmapOffset : ℕ)
    (dict : List α) : Res CodecError (List α) :=
  match body with
  | [] => codecErr .emptyDictPageBody
  | bitWidth :: bytes =>
    if 32 < bitWidth then codecErr (.bitWidthOutOfRange bitWidth)
    else if numValues = 0 then .ok []
    else if bitWidth = 0 then
      match dict with
      | [] => codecErr (.dictIndexOutOfRange 0 0)
      | _ :: _ => gatherRows (bitmapBit bitmap) dict bitmapOffset (List.replicate numValues 0)
    else hybridDecode bitWidth.toNat numValues
      (fun row chunk n => gatherPacked bitmap dict bitWidth (bitmapOffset + row) chunk n)
      (fun row valueChunk n => gatherRun bitmap dict (bitmapOffset + row) valueChunk n) bytes

/-! ## Round trips -/

theorem rleIndex_valueBytesLe {v : UInt32} {bw : ℕ} (hv : v.toNat < 2 ^ bw) (hbw : bw ≤ 32) :
    rleIndex (valueBytesLe v (divCeil bw 8)) = v := by
  rw [rleIndex, accumulateLe_valueBytesLe hv hbw, UInt32.toUInt32_toUInt64]

theorem handles_unpackIndices {bitWidth : UInt8} (hbw : bitWidth ≤ 32) :
    Handles bitWidth.toNat (fun _ => True) (fun _ chunk n => unpackIndices chunk n bitWidth)
      (fun _ valueChunk n => .ok (List.replicate n (rleIndex valueChunk)))
      (fun _ vs => vs.map id) := by
  refine handles_indices id (fun _ _ _ hn => unpackIndices_eq hbw hn) (fun _ v n hv => ?_)
  rw [rleIndex_valueBytesLe hv (UInt8.le_iff_toNat_le.mp hbw)]
  rfl

/-- The index decoder reads any runs of the indices back. -/
theorem decodeRleDictionaryIndices_runs {indices : List UInt32} {bitWidth : UInt8}
    {bytes : Bytes} (hbw : bitWidth ≤ 32) (hlt : ∀ v ∈ indices, v.toNat < 2 ^ bitWidth.toNat)
    (henc : bitWidth ≠ 0 → ∃ runs k, bytes = encodeAll bitWidth.toNat runs ∧
      runValues runs = indices ++ List.replicate k 0 ∧ ∀ r ∈ runs, r.Fits bitWidth.toNat) :
    decodeRleDictionaryIndices (bitWidth :: bytes) indices.length = .ok indices := by
  have hbw' : bitWidth.toNat ≤ 32 := UInt8.le_iff_toNat_le.mp hbw
  rw [decodeRleDictionaryIndices, if_neg (UInt8.not_lt.mpr hbw)]
  split
  · next hzero => rw [List.length_eq_zero_iff.mp hzero]
  split
  · next _ hzero =>
    subst hzero
    conv_rhs => rw [eq_replicate_zero hlt]
  · next _ hbw0 =>
    obtain ⟨runs, k, hbytes, hruns, hfits⟩ := henc hbw0
    have htake : (runValues runs).take indices.length = indices := by
      rw [hruns, List.take_left]
    have henough : indices.length ≤ (runValues runs).length := by
      rw [hruns, List.length_append]
      omega
    have hdec := hybridDecode_runs (handles_unpackIndices hbw) hbw' hfits [] henough
      (fun _ _ => trivial)
    rw [htake, List.append_nil, ← hbytes, List.map_id] at hdec
    exact hdec

/-- **Hybrid round trip**: either encoder, through the 64-bit decoder or the
    index decoder, returns the indices. -/
theorem hybrid_roundTrip {indices : List UInt32} {bitWidth : UInt8} (hbw : bitWidth ≤ 32)
    (hlt : ∀ v ∈ indices, v.toNat < 2 ^ bitWidth.toNat) (hlen : indices.length < indexBound) :
    (decodeRleBitPacked (encodeRleBitPacked indices bitWidth) bitWidth indices.length
        = .ok (indices.map UInt32.toUInt64) ∧
      decodeRleDictionaryIndices (bitWidth :: encodeRleBitPacked indices bitWidth) indices.length
        = .ok indices) ∧
    decodeRleBitPacked (encodeRleBitPackedSingleRun indices bitWidth) bitWidth indices.length
        = .ok (indices.map UInt32.toUInt64) ∧
      decodeRleDictionaryIndices (bitWidth :: encodeRleBitPackedSingleRun indices bitWidth)
          indices.length
        = .ok indices := by
  have hruns := fun hbw0 => encodeRleBitPacked_runs hbw hbw0 hlt hlen
  have hsingle := fun hbw0 => encodeRleBitPackedSingleRun_runs hbw hbw0 hlt hlen
  exact ⟨⟨decodeRleBitPacked_runs hbw hlt hruns, decodeRleDictionaryIndices_runs hbw hlt hruns⟩,
    decodeRleBitPacked_runs hbw hlt hsingle, decodeRleDictionaryIndices_runs hbw hlt hsingle⟩

/-- A repetition that fills the last group of eight before it becomes a run. -/
theorem hybrid_roundTrip_borrow :
    (decodeRleBitPacked (encodeRleBitPacked (1 :: List.replicate 20 6) 3) 3 21
        = .ok ((1 :: List.replicate 20 6 : List UInt32).map UInt32.toUInt64) ∧
      decodeRleDictionaryIndices (3 :: encodeRleBitPacked (1 :: List.replicate 20 6) 3) 21
        = .ok (1 :: List.replicate 20 6)) ∧
    decodeRleBitPacked (encodeRleBitPackedSingleRun (1 :: List.replicate 20 6) 3) 3 21
        = .ok ((1 :: List.replicate 20 6 : List UInt32).map UInt32.toUInt64) ∧
      decodeRleDictionaryIndices (3 :: encodeRleBitPackedSingleRun (1 :: List.replicate 20 6) 3)
          21
        = .ok (1 :: List.replicate 20 6) :=
  @hybrid_roundTrip (1 :: List.replicate 20 6) 3 (by decide) (by decide) (by decide)

/-! ## Through the dictionary -/

theorem lookupIndex_eq_ok {dict : List α} {idx : UInt64} {v : α} :
    lookupIndex dict idx = .ok v ↔ dict[idx.toNat]? = some v := by
  rw [lookupIndex]
  split
  · next h => rw [h]; simp
  · next h => rw [h]; simp [codecErr]

/-- The dictionary entries at indices. -/
def entries (dict : List α) (indices : List UInt32) : List α :=
  indices.filterMap fun v => dict[v.toNat]?

theorem entries_cons {dict : List α} {v : UInt32} {a : α} (h : dict[v.toNat]? = some a)
    (indices : List UInt32) : entries dict (v :: indices) = a :: entries dict indices :=
  List.filterMap_cons_some (f := fun v : UInt32 => dict[v.toNat]?) h

theorem entries_replicate {dict : List α} {v : UInt32} {a : α} (h : dict[v.toNat]? = some a)
    (n : ℕ) : entries dict (List.replicate n v) = List.replicate n a :=
  List.filterMap_replicate_of_some (f := fun v : UInt32 => dict[v.toNat]?) h

/-- The entries, one for each index. -/
theorem forall₂_entries {dict : List α} {indices : List UInt32} {vs : List α} :
    List.Forall₂ (fun idx v => dict[idx.toNat]? = some v) indices vs ↔
      (∀ v ∈ indices, v.toNat < dict.length) ∧ entries dict indices = vs := by
  constructor
  · intro h
    induction h with
    | nil => exact ⟨by simp, rfl⟩
    | cons h _ ih =>
      rw [List.forall_mem_cons, entries_cons h, ih.2]
      exact ⟨⟨(List.getElem?_eq_some_iff.mp h).1, ih.1⟩, rfl⟩
  · rintro ⟨h, rfl⟩
    induction indices with
    | nil => exact .nil
    | cons v indices ih =>
      rw [List.forall_mem_cons] at h
      have hget : dict[v.toNat]? = some dict[v.toNat] := List.getElem?_eq_getElem h.1
      rw [entries_cons hget]
      exact .cons hget (ih h.2)

theorem length_entries {dict : List α} {indices : List UInt32}
    (h : ∀ v ∈ indices, v.toNat < dict.length) : (entries dict indices).length = indices.length :=
  (forall₂_entries.mpr ⟨h, rfl⟩).length_eq.symm

/-- Looking indices up that are all in the dictionary. -/
theorem mapM_lookupIndex {dict : List α} {indices : List UInt32}
    (h : ∀ v ∈ indices, v.toNat < dict.length) :
    ((indices.map UInt32.toNat).mapM fun d => lookupIndex dict (UInt64.ofNat d))
      = .ok (entries dict indices) := by
  induction indices with
  | nil => rfl
  | cons v indices ih =>
    have hv : v.toNat < dict.length := h v List.mem_cons_self
    have hget : dict[v.toNat]? = some dict[v.toNat] := List.getElem?_eq_getElem hv
    have hlookup : lookupIndex dict (UInt64.ofNat v.toNat) = .ok dict[v.toNat] := by
      rw [lookupIndex_eq_ok, UInt64.toNat_ofNat_of_lt' (v.toNat_lt.trans (by decide)), hget]
    rw [List.map_cons, List.mapM_cons, hlookup, ih fun x hx => h x (List.mem_cons_of_mem _ hx),
      entries_cons hget]
    rfl

theorem handles_lookup (dict : List α) {bitWidth : UInt8} (hbw : bitWidth ≤ 32)
    (hbw0 : bitWidth ≠ 0) :
    Handles bitWidth.toNat (fun v => v.toNat < dict.length)
      (fun _ chunk n => unpackLookup chunk n bitWidth dict)
      (fun _ valueChunk n => lookupRun dict valueChunk n)
      (fun _ vs => entries dict vs) where
  packed e vs n h8 hlt hn hP := by
    obtain ⟨-, hlen⟩ := leNat_packLsbFirst h8 hlt
    have h8len : 8 * (vs.length / 8 * bitWidth.toNat) = vs.length * bitWidth.toNat := by
      rw [← Nat.mul_assoc, Nat.mul_div_cancel' (Nat.dvd_of_mod_eq_zero h8)]
    rw [unpackLookup_eq dict hbw hbw0 (by rw [hlen, h8len]; exact Nat.mul_le_mul_right _ hn),
      lowDigits_packLsbFirst h8 hlt hn, mapM_lookupIndex hP]
  rle e v n hv hP := by
    have hget : dict[v.toNat]? = some dict[v.toNat] := List.getElem?_eq_getElem hP
    have hlookup : lookupIndex dict v.toUInt64 = .ok dict[v.toNat] := by
      rw [lookupIndex_eq_ok, UInt32.toNat_toUInt64, hget]
    rw [lookupRun, rleIndex_valueBytesLe hv (UInt8.le_iff_toNat_le.mp hbw), hlookup,
      entries_replicate hget]
    rfl
  append e xs ys := List.filterMap_append ..

/-- The runs of indices into a dictionary are decoded to its entries. -/
theorem decodeRleDictionary_runs {indices : List UInt32} {dict vs : List α} {bitWidth : UInt8}
    {bytes : Bytes} (hbw : bitWidth ≤ 32) (hlt : ∀ v ∈ indices, v.toNat < 2 ^ bitWidth.toNat)
    (hdict : List.Forall₂ (fun idx v => dict[idx.toNat]? = some v) indices vs)
    (henc : bitWidth ≠ 0 → ∃ runs k, bytes = encodeAll bitWidth.toNat runs ∧
      runValues runs = indices ++ List.replicate k 0 ∧ ∀ r ∈ runs, r.Fits bitWidth.toNat) :
    decodeRleDictionary (bitWidth :: bytes) dict indices.length = .ok vs := by
  have hbw' : bitWidth.toNat ≤ 32 := UInt8.le_iff_toNat_le.mp hbw
  obtain ⟨hmem, hvalues⟩ := forall₂_entries.mp hdict
  rw [decodeRleDictionary.eq_def]
  dsimp only
  rw [if_neg (UInt8.not_lt.mpr hbw)]
  split
  · next hzero =>
    rw [← hvalues, List.length_eq_zero_iff.mp hzero]
    rfl
  split
  · next hpos hzero =>
    subst hzero
    obtain ⟨v, hv⟩ : ∃ v, v ∈ indices := List.exists_mem_of_length_pos (by omega)
    have hhead := hmem v hv
    cases dict with
    | nil => exact absurd hhead (Nat.not_lt_zero _)
    | cons w dict =>
      have hw : (w :: dict)[(0 : UInt32).toNat]? = some w := rfl
      rw [← hvalues, eq_replicate_zero hlt, entries_replicate hw, List.length_replicate]
  · next _ hbw0 =>
    obtain ⟨runs, k, hbytes, hruns, hfits⟩ := henc hbw0
    have htake : (runValues runs).take indices.length = indices := by
      rw [hruns, List.take_left]
    have henough : indices.length ≤ (runValues runs).length := by
      rw [hruns, List.length_append]
      omega
    have hdec := hybridDecode_runs (handles_lookup dict hbw hbw0) hbw' hfits [] henough
      (by rwa [htake])
    rw [htake, List.append_nil, ← hbytes, hvalues] at hdec
    exact hdec

/-! ## What a stream holds

  A reader may ask for more indices than were written: the padding of the last
  group is then read as indices, and at width 0 there is no end.
-/

/-- The first `n` indices of a stream. -/
def streamIndices (bitWidth : UInt8) (runs : List Run) (n : ℕ) : List UInt32 :=
  if bitWidth = 0 then List.replicate n 0 else (runValues runs).take n

/-- The stream holds `n` indices, all into a dictionary of `dictLen` entries. -/
def Readable (bitWidth : UInt8) (runs : List Run) (dictLen n : ℕ) : Prop :=
  (streamIndices bitWidth runs n).length = n ∧
    ∀ v ∈ streamIndices bitWidth runs n, v.toNat < dictLen

theorem length_streamIndices {bitWidth : UInt8} {runs : List Run} {n : ℕ} (hbw0 : bitWidth ≠ 0) :
    (streamIndices bitWidth runs n).length = n ↔ n ≤ (runValues runs).length := by
  rw [streamIndices, if_neg hbw0, List.length_take]
  omega

theorem mapM_lookupIndex_ok {dict vs : List α} {indices : List UInt32}
    (h : ((indices.map UInt32.toNat).mapM fun d => lookupIndex dict (UInt64.ofNat d)) = .ok vs) :
    ∀ v ∈ indices, v.toNat < dict.length := by
  intro v hv
  obtain ⟨i, hi⟩ := List.mem_iff_getElem?.mp hv
  obtain ⟨a, -, ha⟩ := (mapM_getElem? h i).1 v.toNat (by rw [List.getElem?_map, hi]; rfl)
  rw [lookupIndex_eq_ok, UInt64.toNat_ofNat_of_lt' (v.toNat_lt.trans (by decide))] at ha
  exact (List.getElem?_eq_some_iff.mp ha).1

theorem checks_lookup (dict : List α) {bitWidth : UInt8} (hbw : bitWidth ≤ 32)
    (hbw0 : bitWidth ≠ 0) :
    Checks bitWidth.toNat (fun v => v.toNat < dict.length)
      (fun _ chunk n => unpackLookup chunk n bitWidth dict)
      (fun _ valueChunk n => lookupRun dict valueChunk n) where
  packed e vs n out h8 hlt hn h := by
    obtain ⟨-, hlen⟩ := leNat_packLsbFirst h8 hlt
    have h8len : 8 * (vs.length / 8 * bitWidth.toNat) = vs.length * bitWidth.toNat := by
      rw [← Nat.mul_assoc, Nat.mul_div_cancel' (Nat.dvd_of_mod_eq_zero h8)]
    rw [unpackLookup_eq dict hbw hbw0 (by rw [hlen, h8len]; exact Nat.mul_le_mul_right _ hn),
      lowDigits_packLsbFirst h8 hlt hn] at h
    exact mapM_lookupIndex_ok h
  rle e v n out hv h := by
    obtain ⟨a, ha, -⟩ := bind_eq_ok.mp h
    rw [rleIndex_valueBytesLe hv (UInt8.le_iff_toNat_le.mp hbw), lookupIndex_eq_ok,
      UInt32.toNat_toUInt64] at ha
    exact (List.getElem?_eq_some_iff.mp ha).1

/-- **The dictionary decoder returns** exactly when it can read its indices. -/
theorem decodeRleDictionary_eq_ok {dict vs : List α} {bitWidth : UInt8} {bytes : Bytes}
    {runs : List Run} {n : ℕ} (hbw : bitWidth ≤ 32)
    (henc : bitWidth ≠ 0 → bytes = encodeAll bitWidth.toNat runs ∧
      ∀ r ∈ runs, r.Fits bitWidth.toNat) :
    decodeRleDictionary (bitWidth :: bytes) dict n = .ok vs ↔
      Readable bitWidth runs dict.length n ∧ entries dict (streamIndices bitWidth runs n) = vs := by
  have hbw' : bitWidth.toNat ≤ 32 := UInt8.le_iff_toNat_le.mp hbw
  rw [decodeRleDictionary.eq_def, Readable]
  dsimp only
  rw [if_neg (UInt8.not_lt.mpr hbw)]
  by_cases hzero : n = 0
  · subst hzero
    have hnone : streamIndices bitWidth runs 0 = [] := by simp [streamIndices]
    rw [if_pos rfl, hnone]
    simp [entries]
  rw [if_neg hzero]
  by_cases hbw0 : bitWidth = 0
  · subst hbw0
    rw [if_pos rfl, streamIndices, if_pos rfl]
    cases dict with
    | nil => simp [codecErr, hzero]
    | cons w dict =>
      have hw : (w :: dict)[(0 : UInt32).toNat]? = some w := rfl
      rw [entries_replicate hw]
      simp
  · obtain ⟨rfl, hfits⟩ := henc hbw0
    rw [if_neg hbw0, length_streamIndices hbw0, streamIndices, if_neg hbw0]
    have hdec := @hybridDecode_runs _ _ n _ _ _ _ (handles_lookup dict hbw hbw0) hbw' runs hfits []
    rw [List.append_nil] at hdec
    constructor
    · intro h
      obtain ⟨henough, hP⟩ := hybridDecode_runs_ok (checks_lookup dict hbw hbw0) hbw' hfits h
      rw [hdec henough hP] at h
      exact ⟨⟨henough, hP⟩, Except.ok.inj h⟩
    · rintro ⟨⟨henough, hP⟩, rfl⟩
      exact hdec henough hP

theorem checks_unpackIndices (bitWidth : UInt8) :
    Checks bitWidth.toNat (fun _ => True) (fun _ chunk n => unpackIndices chunk n bitWidth)
      (fun _ valueChunk n => .ok (List.replicate n (rleIndex valueChunk))) where
  packed _ _ _ _ _ _ _ _ _ _ := trivial
  rle _ _ _ _ _ _ := trivial

/-- The index decoder returns exactly when the stream holds enough indices. -/
theorem decodeRleDictionaryIndices_eq_ok {indices : List UInt32} {bitWidth : UInt8}
    {bytes : Bytes} {runs : List Run} {n : ℕ} (hbw : bitWidth ≤ 32)
    (henc : bitWidth ≠ 0 → bytes = encodeAll bitWidth.toNat runs ∧
      ∀ r ∈ runs, r.Fits bitWidth.toNat) :
    decodeRleDictionaryIndices (bitWidth :: bytes) n = .ok indices ↔
      (streamIndices bitWidth runs n).length = n ∧ streamIndices bitWidth runs n = indices := by
  have hbw' : bitWidth.toNat ≤ 32 := UInt8.le_iff_toNat_le.mp hbw
  rw [decodeRleDictionaryIndices, if_neg (UInt8.not_lt.mpr hbw)]
  by_cases hzero : n = 0
  · subst hzero
    have hnone : streamIndices bitWidth runs 0 = [] := by simp [streamIndices]
    rw [if_pos rfl, hnone]
    simp
  rw [if_neg hzero]
  by_cases hbw0 : bitWidth = 0
  · rw [if_pos hbw0, streamIndices, if_pos hbw0]
    simp
  · obtain ⟨rfl, hfits⟩ := henc hbw0
    rw [if_neg hbw0, length_streamIndices hbw0, streamIndices, if_neg hbw0]
    have hdec := fun h => @hybridDecode_runs _ _ n _ _ _ _ (handles_unpackIndices hbw) hbw' runs
      hfits [] h (fun _ _ => trivial)
    rw [List.append_nil, List.map_id] at hdec
    constructor
    · intro h
      obtain ⟨henough, -⟩ := hybridDecode_runs_ok (checks_unpackIndices bitWidth) hbw' hfits h
      rw [hdec henough] at h
      exact ⟨henough, Except.ok.inj h⟩
    · rintro ⟨henough, rfl⟩
      exact hdec henough

/-! ## Indices, then entries

  The fused decoders look an RLE index up even when its run has no values; the
  index decoder does not.
-/

/-- The RLE branch of the index decoder, refusing runs without values. -/
def nonEmptyRun (_ : ℕ) (valueChunk : Bytes) (toEmit : ℕ) : Res CodecError (List UInt32) :=
  if toEmit = 0 then codecErr (.invalidInput "RLE run without values")
  else .ok (List.replicate toEmit (rleIndex valueChunk))

theorem nonEmptyRun_eq_ok {e n : ℕ} {chunk : Bytes} {vs : List UInt32}
    (h : nonEmptyRun e chunk n = .ok vs) : n ≠ 0 ∧ vs = List.replicate n (rleIndex chunk) := by
  unfold nonEmptyRun at h
  by_cases hn : n = 0
  · rw [if_pos hn] at h
    cases h
  · rw [if_neg hn] at h
    cases h
    exact ⟨hn, rfl⟩

/-- The first `numValues` indices are read without meeting an RLE run that has
    no values. -/
def NoEmptyRun (body : Bytes) (numValues : ℕ) : Prop :=
  match body with
  | [] => True
  | bitWidth :: bytes => bitWidth = 0 ∨ numValues = 0 ∨ ∃ indices,
      hybridDecode bitWidth.toNat numValues (fun _ chunk n => unpackIndices chunk n bitWidth)
        nonEmptyRun bytes = .ok indices

theorem unpackIndices_length {chunk : Bytes} {n : ℕ} {bitWidth : UInt8} {indices : List UInt32}
    (hbw : bitWidth ≤ 32) (h : unpackIndices chunk n bitWidth = .ok indices) :
    indices.length = n := by
  rw [unpackIndices_eq hbw (unpackIndices_fits h)] at h
  cases h
  rw [List.length_map, length_lowDigits]

theorem unpackLookup_of_indices {dict : List α} {chunk : Bytes} {n : ℕ} {bitWidth : UInt8}
    {indices : List UInt32} (hbw : bitWidth ≤ 32) (hbw0 : bitWidth ≠ 0)
    (h : unpackIndices chunk n bitWidth = .ok indices)
    (hdict : ∀ v ∈ indices, v.toNat < dict.length) :
    unpackLookup chunk n bitWidth dict = .ok (entries dict indices) := by
  have hfits := unpackIndices_fits h
  rw [unpackIndices_eq hbw hfits] at h
  cases h
  rw [unpackLookup_eq dict hbw hbw0 hfits, ← mapM_lookupIndex hdict, List.map_map]
  -- the digits are indices already
  have hdigits : (lowDigits (2 ^ bitWidth.toNat) n (leNat chunk)).map
      (UInt32.toNat ∘ UInt32.ofNat) = lowDigits (2 ^ bitWidth.toNat) n (leNat chunk) := by
    refine (List.map_congr_left fun d hd => ?_).trans (List.map_id _)
    have hlt := lt_of_mem_lowDigits (Nat.two_pow_pos _) hd
    have hpow : 2 ^ bitWidth.toNat ≤ 2 ^ 32 :=
      Nat.pow_le_pow_right (by decide) (UInt8.le_iff_toNat_le.mp hbw)
    exact UInt32.toNat_ofNat_of_lt' (lt_of_lt_of_le hlt hpow)
  rw [hdigits]

/-- **Indices, looked up**, are what the fused decoder returns. -/
theorem decodeRleDictionary_of_indices {body : Bytes} {n : ℕ} {dict : List α}
    {indices : List UInt32} (h : decodeRleDictionaryIndices body n = .ok indices)
    (hruns : NoEmptyRun body n) (hdict : ∀ v ∈ indices, v.toNat < dict.length) :
    decodeRleDictionary body dict n = .ok (entries dict indices) := by
  rw [decodeRleDictionaryIndices.eq_def] at h
  rw [decodeRleDictionary.eq_def]
  cases body with
  | nil => cases h
  | cons bitWidth bytes =>
    dsimp only at h ⊢
    by_cases hbw : 32 < bitWidth
    · rw [if_pos hbw] at h
      cases h
    rw [if_neg hbw] at h ⊢
    have hle : bitWidth ≤ 32 := UInt8.not_lt.mp hbw
    by_cases hzero : n = 0
    · rw [if_pos hzero] at h ⊢
      cases h
      rfl
    rw [if_neg hzero] at h ⊢
    by_cases hbw0 : bitWidth = 0
    · rw [if_pos hbw0] at h ⊢
      cases h
      have hlt := hdict 0 (List.mem_replicate.mpr ⟨hzero, rfl⟩)
      cases dict with
      | nil => exact absurd hlt (Nat.not_lt_zero _)
      | cons w dict =>
        have hw : (w :: dict)[(0 : UInt32).toNat]? = some w := rfl
        rw [entries_replicate hw]
    rw [if_neg hbw0] at h ⊢
    obtain ⟨indices', hindices'⟩ := (hruns.resolve_left hbw0).resolve_left hzero
    -- refusing empty runs changes no index
    have hsame : indices' = indices := by
      have hsim : hybridDecode bitWidth.toNat n (fun _ chunk n => unpackIndices chunk n bitWidth)
          (fun _ valueChunk n => .ok (List.replicate n (rleIndex valueChunk))) bytes
            = .ok indices' := by
        refine (hybridDecode_simulates (fun _ => True) (fun _ vs => vs)
          (fun _ chunk n vs _ hvs => ⟨unpackIndices_length hle hvs, fun _ => hvs⟩)
          (fun e chunk n vs _ hvs => ?_) (fun _ _ _ => rfl) hindices').2 fun _ _ => trivial
        obtain ⟨-, rfl⟩ := nonEmptyRun_eq_ok hvs
        exact ⟨List.length_replicate, fun _ => rfl⟩
      exact Except.ok.inj (hsim.symm.trans h)
    subst hsame
    refine (hybridDecode_simulates (fun v => v.toNat < dict.length) (fun _ vs => entries dict vs)
      (fun _ chunk n vs _ hvs => ⟨unpackIndices_length hle hvs,
        unpackLookup_of_indices hle hbw0 hvs⟩)
      (fun e chunk n vs _ hvs => ?_) (fun _ _ _ => List.filterMap_append ..) hindices').2 hdict
    obtain ⟨hn, rfl⟩ := nonEmptyRun_eq_ok hvs
    refine ⟨List.length_replicate, fun hP => ?_⟩
    have hlt := hP _ (List.mem_replicate.mpr ⟨hn, rfl⟩)
    have hget : dict[(rleIndex chunk).toNat]? = some dict[(rleIndex chunk).toNat] :=
      List.getElem?_eq_getElem hlt
    have hlookup : lookupIndex dict (rleIndex chunk).toUInt64
        = .ok dict[(rleIndex chunk).toNat] := by
      rw [lookupIndex_eq_ok, UInt32.toNat_toUInt64, hget]
    rw [lookupRun, hlookup, entries_replicate hget]
    rfl

/-! ## Gathering selects from the full decode -/

section
variable {bitmap : Bytes}

theorem byteAt_eq {k : ℕ} (h : k < bitmap.length) : byteAt bitmap k = .ok bitmap[k] := by
  rw [byteAt, List.getElem?_eq_getElem h]

theorem shiftRight_and_one (b : UInt8) {i : ℕ} (hi : i < 8) :
    ((b >>> UInt8.ofNat i) &&& 1 == 1) = b.toNat.testBit i := by
  have hshift : (b >>> UInt8.ofNat i).toNat = b.toNat / 2 ^ i := by
    rw [UInt8.toNat_shiftRight, UInt8.toNat_ofNat_of_lt' (show i < 2 ^ 8 by omega),
      Nat.mod_eq_of_lt hi, Nat.shiftRight_eq_div_pow]
  have hbit : ((b >>> UInt8.ofNat i) &&& 1).toNat = b.toNat / 2 ^ i % 2 := by
    rw [UInt8.toNat_and, hshift]
    exact Nat.and_two_pow_sub_one_eq_mod _ 1
  have hiff : (b >>> UInt8.ofNat i) &&& 1 = 1 ↔ b.toNat / 2 ^ i % 2 = 1 := by
    rw [← UInt8.toNat_inj, hbit]
    rfl
  rw [Nat.testBit_eq_decide_div_mod_eq, Bool.eq_iff_iff, beq_iff_eq, hiff, decide_eq_true_eq]

theorem bitmapBit_eq (bitmap : Bytes) {pos : ℕ} (h : pos < 8 * bitmap.length) :
    bitmapBit bitmap pos = .ok ((leNat bitmap).testBit pos) := by
  have hk : pos / 8 < bitmap.length := by omega
  have hi : pos % 8 < 8 := Nat.mod_lt _ (by decide)
  have hbit := testBit_leNat (List.getElem?_eq_getElem hk) hi
  rw [Nat.div_add_mod] at hbit
  rw [bitmapBit, byteAt_eq hk, hbit]
  exact congrArg Except.ok (shiftRight_and_one _ hi)

/-- The values a page's indices stand for. -/
abbrev EntryOf (dict : List α) (idx : UInt32) (v : α) : Prop := dict[idx.toNat]? = some v

theorem forall₂_replicate {dict : List α} {idx : UInt32} {v : α} (h : EntryOf dict idx v) (n : ℕ) :
    List.Forall₂ (EntryOf dict) (List.replicate n idx) (List.replicate n v) := by
  induction n with
  | zero => exact .nil
  | succ n ih => exact .cons h ih

theorem gatherRows_eq {bit : ℕ → Res CodecError Bool} {set : ℕ → Bool} {dict vs : List α}
    {indices : List UInt32} (pos : ℕ) (hdict : List.Forall₂ (EntryOf dict) indices vs)
    (hbit : ∀ i < vs.length, bit (pos + i) = .ok (set (pos + i))) :
    gatherRows bit dict pos indices = .ok (selectFrom set pos vs) := by
  induction hdict generalizing pos with
  | nil => rfl
  | @cons idx v indices vs hv _ ih =>
    have h0 := hbit 0 (by simp)
    have hrest := ih (pos + 1) fun i hi => by
      have := hbit (i + 1) (by simpa using hi)
      rwa [show pos + 1 + i = pos + (i + 1) by omega]
    have hlookup : lookupIndex dict idx.toUInt64 = .ok v := by
      rw [lookupIndex_eq_ok, UInt32.toNat_toUInt64, hv]
    rw [Nat.add_zero] at h0
    rw [gatherRows, h0, selectFrom, hrest, hlookup]
    cases set pos <;> rfl

/-- The indices of a run that was looked up. -/
theorem unpackLookup_entries {packed : Bytes} {n : ℕ} {bitWidth : UInt8} {dict vs : List α}
    (hbw : bitWidth ≤ 32) (hbw0 : bitWidth ≠ 0)
    (h : unpackLookup packed n bitWidth dict = .ok vs) :
    List.Forall₂ (EntryOf dict)
      ((lowDigits (2 ^ bitWidth.toNat) n (leNat packed)).map UInt32.ofNat) vs := by
  have hfits := unpackLookup_fits hbw0 h
  rw [unpackLookup_eq dict hbw hbw0 hfits, mapM_eq_ok] at h
  rw [List.forall₂_map_left_iff]
  have hdigit : ∀ d ∈ lowDigits (2 ^ bitWidth.toNat) n (leNat packed), d < 2 ^ 32 := by
    intro d hd
    rw [lowDigits_eq_map] at hd
    obtain ⟨i, -, rfl⟩ := List.mem_map.mp hd
    exact (Nat.mod_lt _ (by positivity)).trans_le
      (Nat.pow_le_pow_right (by decide) (UInt8.le_iff_toNat_le.mp hbw))
  refine ((List.forall₂_and_left _ _).mpr ⟨hdigit, h⟩).imp fun d v ⟨hd, hv⟩ => ?_
  rw [lookupIndex_eq_ok, UInt64.toNat_ofNat_of_lt' (hd.trans (by decide))] at hv
  rw [EntryOf, UInt32.toNat_ofNat_of_lt' hd, hv]

theorem popcountRange_eq {bit endBit : ℕ} (h : endBit ≤ 8 * bitmap.length) :
    popcountRange bitmap bit endBit
      = .ok (countBits (leNat bitmap).testBit bit (endBit - bit)) := by
  obtain ⟨n, hn⟩ : ∃ n, endBit - bit = n := ⟨_, rfl⟩
  induction n using Nat.strong_induction_on generalizing bit with
  | _ n ih =>
    rw [popcountRange]
    split
    · next hlt =>
      split
      · rw [bitmapBit_eq _ (by omega), ih _ (by omega) rfl,
          show endBit - bit = endBit - (bit + 1) + 1 by omega, countBits_succ]
        rfl
      · next haligned =>
        have hk : bit / 8 < bitmap.length := by omega
        have hones : countOnes bitmap[bit / 8] = countBits (leNat bitmap).testBit bit 8 := by
          refine congrArg List.length (List.filter_congr fun i hi => ?_)
          have := testBit_leNat (List.getElem?_eq_getElem hk) (List.mem_range.mp hi)
          rw [show 8 * (bit / 8) = bit by omega] at this
          rw [this, Nat.zero_add]
        rw [byteAt_eq hk, ih _ (by omega) rfl,
          show endBit - bit = 8 + (endBit - (bit + 8)) by omega, countBits_add, ← hones]
        rfl
    · rw [show endBit - bit = 0 by omega]
      rfl

theorem unpack8Indices_build {packed : Bytes} {bitWidth : UInt8}
    (h : packed.length = bitWidth.toNat) (build : Build) :
    unpack8Indices build packed bitWidth = unpack8Indices .debug packed bitWidth := by
  rw [unpack8Indices, unpack8Indices, if_neg (fun hne => hne.2 h), if_neg (fun hne => hne.2 h)]

theorem unpack8Indices_eq {build : Build} {packed : Bytes} {bitWidth : UInt8}
    (hbw : bitWidth ≤ 32) (h : bitWidth.toNat ≤ packed.length)
    (hexact : build = .debug → packed.length = bitWidth.toNat) :
    unpack8Indices build packed bitWidth
      = .ok ((lowDigits (2 ^ bitWidth.toNat) 8 (leNat packed)).map UInt32.ofNat) := by
  have hzero : (0 : UInt64).toNat < 2 ^ 0 := by decide
  rw [unpack8Indices, if_neg (fun hne => hne.2 (hexact hne.1)), unpackTail_eq _ (UInt8.le_iff_toNat_le.mp hbw) (by omega)
    hzero (by omega), ← funext toUInt32_ofNat, UInt64.toNat_zero, Nat.pow_zero, Nat.one_mul, Nat.zero_add]
  exact List.mapM_pure

theorem drop_take_add (bs : Bytes) (i n : ℕ) :
    (bs.take (i + n)).drop i = (bs.drop i).take n := by
  rw [List.drop_take, Nat.add_sub_cancel_left]

/-- The values behind the last whole block. -/
theorem gatherTail_eq {dict vs : List α} {bitWidth : UInt8} {chunk : Bytes}
    {tail pos byteCursor : ℕ} (hbw : bitWidth ≤ 32) (hcover : pos + tail ≤ 8 * bitmap.length)
    (hfits : tail * bitWidth.toNat ≤ 8 * (chunk.length - byteCursor))
    (hcursor : byteCursor ≤ chunk.length)
    (hdict : List.Forall₂ (EntryOf dict)
      ((lowDigits (2 ^ bitWidth.toNat) tail (leNat (chunk.drop byteCursor))).map UInt32.ofNat) vs) :
    gatherBlocks bitmap dict bitWidth chunk tail 0 pos byteCursor
      = .ok (selectFrom (leNat bitmap).testBit pos vs) := by
  have hvs : vs.length = tail := by
    rw [← hdict.length_eq, List.length_map, length_lowDigits]
  rw [gatherBlocks]
  split
  · set tailBytes := divCeil (tail * bitWidth.toNat) 8 with htb
    have hbits : tail * bitWidth.toNat ≤ 8 * tailBytes := by
      rw [htb, divCeil]
      omega
    have hstop : byteCursor + tailBytes ≤ chunk.length := by
      rw [htb, divCeil]
      omega
    have hlen : ((chunk.drop byteCursor).take tailBytes).length = tailBytes := by
      rw [List.length_take_of_le]
      rw [List.length_drop]
      omega
    change (slice chunk byteCursor (byteCursor + tailBytes) >>= _) = _
    rw [slice_ok (Nat.le_add_right _ _) hstop, drop_take_add]
    change (unpackIndices _ tail bitWidth >>= _) = _
    rw [unpackIndices_eq hbw (by rw [hlen]; exact hbits), lowDigits_leNat_take hbits]
    exact gatherRows_eq _ hdict fun i hi => bitmapBit_eq _ (by omega)
  · next hzero =>
    rw [List.length_eq_zero_iff.mp (by omega : vs.length = 0)]
    rfl

/-- A block of 8 values, under one byte of the bitmap. -/
theorem gatherBlock_eq {dict vs : List α} {bitWidth : UInt8} {chunk : Bytes} {pos byteCursor : ℕ}
    (hbw : bitWidth ≤ 32) (haligned : pos % 8 = 0) (hk : pos / 8 < bitmap.length)
    (hstop : byteCursor + bitWidth.toNat ≤ chunk.length)
    (hdict : List.Forall₂ (EntryOf dict)
      ((lowDigits (2 ^ bitWidth.toNat) 8 (leNat (chunk.drop byteCursor))).map UInt32.ofNat) vs) :
    gatherBlock bitmap[pos / 8] dict bitWidth chunk byteCursor
      = .ok (selectFrom (leNat bitmap).testBit pos vs) := by
  have hvs : vs.length = 8 := by
    rw [← hdict.length_eq, List.length_map, length_lowDigits]
  have hbit : ∀ i < vs.length,
      (leNat bitmap).testBit (pos + i) = bitmap[pos / 8].toNat.testBit (0 + i) := by
    intro i hi
    have := testBit_leNat (i := i) (List.getElem?_eq_getElem hk) (by omega)
    rw [show 8 * (pos / 8) + i = pos + i by omega] at this
    rw [this, Nat.zero_add]
  set w := bitWidth.toNat with hw
  rw [gatherBlock]
  split
  · next hzero =>
    rw [selectFrom_eq_nil fun i hi => by rw [hbit i hi, hzero]; exact Nat.zero_testBit _]
  · have hblen : ((chunk.drop byteCursor).take w).length = w := by
      rw [List.length_take_of_le]
      rw [List.length_drop]
      omega
    rw [slice_ok (Nat.le_add_right _ _) hstop, drop_take_add]
    change (unpack8Indices _ _ bitWidth >>= _) = _
    rw [unpack8Indices_eq hbw hblen.ge (fun _ => hblen), ← hw,
      lowDigits_leNat_take (show 8 * w ≤ 8 * w from le_rfl), selectFrom_congr _ _ hbit]
    refine gatherRows_eq _ hdict fun i hi => ?_
    rw [Nat.zero_add]
    exact congrArg Except.ok (shiftRight_and_one _ (by omega))

/-- The blocks from byte `byteCursor` on, by induction on their number. -/
theorem gatherBlocks_eq {dict vs : List α} {bitWidth : UInt8} {chunk : Bytes}
    {tail blocks pos byteCursor : ℕ} (hbw : bitWidth ≤ 32) (haligned : pos % 8 = 0)
    (hcover : pos + (8 * blocks + tail) ≤ 8 * bitmap.length)
    (hfits : (8 * blocks + tail) * bitWidth.toNat ≤ 8 * (chunk.length - byteCursor))
    (hcursor : byteCursor ≤ chunk.length)
    (hdict : List.Forall₂ (EntryOf dict)
      ((lowDigits (2 ^ bitWidth.toNat) (8 * blocks + tail)
        (leNat (chunk.drop byteCursor))).map UInt32.ofNat) vs) :
    gatherBlocks bitmap dict bitWidth chunk tail blocks pos byteCursor
      = .ok (selectFrom (leNat bitmap).testBit pos vs) := by
  induction blocks generalizing pos byteCursor vs with
  | zero =>
    rw [Nat.mul_zero, Nat.zero_add] at hcover hfits hdict
    exact gatherTail_eq hbw hcover hfits hcursor hdict
  | succ n ih =>
    set w := bitWidth.toNat with hw
    have hsum : 8 * (n + 1) + tail = 8 + (8 * n + tail) := by omega
    have hmul : (8 * (n + 1) + tail) * w = 8 * w + (8 * n + tail) * w := by ring
    have hstop : byteCursor + w ≤ chunk.length := by omega
    have hpow : (2 ^ w) ^ 8 = 256 ^ w := by
      rw [← Nat.pow_mul, Nat.mul_comm, Nat.pow_mul]
    rw [hsum, lowDigits_add, List.map_append, hpow, ← leNat_drop, List.drop_drop] at hdict
    have hlen8 : ((lowDigits (2 ^ w) 8 (leNat (chunk.drop byteCursor))).map UInt32.ofNat).length
        = 8 := by
      rw [List.length_map, length_lowDigits]
    have hhead := List.forall₂_take 8 hdict
    have hrest := List.forall₂_drop 8 hdict
    rw [List.take_left' hlen8] at hhead
    rw [List.drop_left' hlen8] at hrest
    have hvs8 : (vs.take 8).length = 8 := by
      rw [← hhead.length_eq, hlen8]
    have hk : pos / 8 < bitmap.length := by omega
    have hblock : gatherBlock bitmap[pos / 8] dict bitWidth chunk byteCursor
        = .ok (selectFrom (leNat bitmap).testBit pos (vs.take 8)) :=
      gatherBlock_eq hbw haligned hk hstop hhead
    have htail : gatherBlocks bitmap dict bitWidth chunk tail n (pos + 8) (byteCursor + w)
        = .ok (selectFrom (leNat bitmap).testBit (pos + 8) (vs.drop 8)) :=
      ih (by omega) (by omega) (by omega) hstop hrest
    rw [gatherBlocks, byteAt_eq hk]
    change (gatherBlock bitmap[pos / 8] dict bitWidth chunk byteCursor >>= _) = _
    rw [hblock]
    change (gatherBlocks bitmap dict bitWidth chunk tail n (pos + 8) (byteCursor + w) >>= _) = _
    rw [htail]
    conv_rhs => rw [← List.take_append_drop 8 vs, selectFrom_append, hvs8]
    rfl

/-- A bit-packed run, gathered. -/
theorem gatherPacked_eq {dict vs : List α} {bitWidth : UInt8} {chunk : Bytes} {n pos : ℕ}
    (hbw : bitWidth ≤ 32) (hbw0 : bitWidth ≠ 0) (hcover : pos + n ≤ 8 * bitmap.length)
    (h : unpackLookup chunk n bitWidth dict = .ok vs) :
    gatherPacked bitmap dict bitWidth pos chunk n
      = .ok (selectFrom (leNat bitmap).testBit pos vs) := by
  have hfits := unpackLookup_fits hbw0 h
  have hdict := unpackLookup_entries hbw hbw0 h
  have hvs : vs.length = n := by
    rw [← hdict.length_eq, List.length_map, length_lowDigits]
  rw [gatherPacked]
  dsimp only
  split
  · -- the head rows, then the rest of the run, each a prefix of the chunk
    have hpre : ∀ m ≤ n, ∃ bytes : Bytes,
        (slice chunk 0 (divCeil (m * bitWidth.toNat) 8) : Res CodecError Bytes) = .ok bytes ∧
        unpackIndices bytes m bitWidth
          = .ok ((lowDigits (2 ^ bitWidth.toNat) m (leNat chunk)).map UInt32.ofNat) := by
      intro m hm
      have hle : m * bitWidth.toNat ≤ n * bitWidth.toNat := Nat.mul_le_mul_right _ hm
      have hstop : divCeil (m * bitWidth.toNat) 8 ≤ chunk.length := by
        rw [divCeil]
        omega
      have hbits : m * bitWidth.toNat ≤ 8 * divCeil (m * bitWidth.toNat) 8 := by
        rw [divCeil]
        omega
      refine ⟨_, slice_ok (Nat.zero_le _) hstop, ?_⟩
      rw [List.drop_zero, unpackIndices_eq hbw (by rw [List.length_take_of_le hstop]; exact hbits),
        lowDigits_leNat_take hbits]
    set headRows := min (8 - pos % 8) n with hhr
    have hle : headRows ≤ n := Nat.min_le_right _ _
    obtain ⟨headChunk, hhead, hheadIdxs⟩ := hpre headRows hle
    obtain ⟨allChunk, hall, hallIdxs⟩ := hpre n le_rfl
    have htake := List.forall₂_take headRows hdict
    have hdrop := List.forall₂_drop headRows hdict
    rw [← List.map_take, lowDigits_take hle] at htake
    have hrowsHead := gatherRows_eq pos htake fun i hi =>
      bitmapBit_eq bitmap (by rw [List.length_take] at hi; omega)
    have hrowsRest := gatherRows_eq (pos + headRows) hdrop fun i hi =>
      bitmapBit_eq bitmap (by rw [List.length_drop] at hi; omega)
    rw [hhead]
    change (unpackIndices headChunk headRows bitWidth >>= _) = _
    rw [hheadIdxs]
    change (gatherRows _ dict pos _ >>= _) = _
    rw [hrowsHead, hall]
    change (unpackIndices allChunk n bitWidth >>= _) = _
    rw [hallIdxs]
    change (gatherRows _ dict (pos + headRows) _ >>= _) = _
    rw [hrowsRest]
    have hlen : (vs.take headRows).length = headRows := List.length_take_of_le (by omega)
    conv_rhs => rw [← List.take_append_drop headRows vs, selectFrom_append, hlen]
    rfl
  · next haligned =>
    rw [ne_eq, not_not] at haligned
    have hn : 8 * (n / 8) + n % 8 = n := Nat.div_add_mod n 8
    refine gatherBlocks_eq hbw haligned (by omega) ?_ (Nat.zero_le _) ?_
    · rwa [hn, Nat.sub_zero]
    · rwa [hn, List.drop_zero]

theorem lookupRun_length {dict vs : List α} {valueChunk : Bytes} {n : ℕ}
    (h : lookupRun dict valueChunk n = .ok vs) : vs.length = n := by
  obtain ⟨v, -, h⟩ := bind_eq_ok.mp h
  cases h
  exact List.length_replicate

/-- An RLE run, gathered. -/
theorem gatherRun_eq {dict vs : List α} {valueChunk : Bytes} {n pos : ℕ}
    (hcover : pos + n ≤ 8 * bitmap.length) (h : lookupRun dict valueChunk n = .ok vs) :
    gatherRun bitmap dict pos valueChunk n
      = .ok (selectFrom (leNat bitmap).testBit pos vs) := by
  obtain ⟨v, hv, h⟩ := bind_eq_ok.mp h
  cases h
  rw [gatherRun, hv, selectFrom_replicate]
  change (popcountRange bitmap pos (pos + n) >>= _) = _
  rw [popcountRange_eq hcover, Nat.add_sub_cancel_left]
  rfl

/-- **Gathering at a mask** selects from what the full decoder returns. -/
theorem gatherDictAtBitmap_eq {body : Bytes} {numValues bitmapOffset : ℕ} {dict vs : List α}
    (hcover : bitmapOffset + numValues ≤ 8 * bitmap.length)
    (h : decodeRleDictionary body dict numValues = .ok vs) :
    gatherDictAtBitmap body numValues bitmap bitmapOffset dict
        = .ok (selectFrom (leNat bitmap).testBit bitmapOffset vs) ∧
      vs.length = numValues := by
  rw [decodeRleDictionary.eq_def] at h
  rw [gatherDictAtBitmap.eq_def]
  cases body with
  | nil => cases h
  | cons bitWidth bytes =>
    dsimp only at h ⊢
    split at h
    · cases h
    next hbw =>
    rw [if_neg hbw]
    split at h
    · next hzero =>
      cases h
      rw [if_pos hzero]
      exact ⟨rfl, hzero.symm⟩
    next hnum =>
    rw [if_neg hnum]
    split at h
    · next hbw0 =>
      rw [if_pos hbw0]
      cases dict with
      | nil => cases h
      | cons v dict =>
        cases h
        have hdict : List.Forall₂ (EntryOf (v :: dict)) (List.replicate numValues 0)
            (List.replicate numValues v) := forall₂_replicate rfl numValues
        refine ⟨gatherRows_eq _ hdict fun i hi => bitmapBit_eq _ ?_, List.length_replicate⟩
        rw [List.length_replicate] at hi
        omega
    next hbw0 =>
    rw [if_neg hbw0]
    have hle : bitWidth ≤ 32 := UInt8.not_lt.mp hbw
    have hsim : vs.length = numValues ∧ hybridDecode bitWidth.toNat numValues
        (fun row chunk n => gatherPacked bitmap dict bitWidth (bitmapOffset + row) chunk n)
        (fun row valueChunk n => gatherRun bitmap dict (bitmapOffset + row) valueChunk n) bytes
          = .ok (selectFrom (leNat bitmap).testBit (bitmapOffset + 0) vs) := by
      refine (hybridDecode_simulates (fun _ => True)
        (fun e vs => selectFrom (leNat bitmap).testBit (bitmapOffset + e) vs)
        (fun e chunk n vs hn hvs => ⟨?_, fun _ => gatherPacked_eq hle hbw0 (by omega) hvs⟩)
        (fun e chunk n vs hn hvs => ⟨lookupRun_length hvs, fun _ => gatherRun_eq (by omega) hvs⟩)
        (fun e xs ys => by rw [selectFrom_append, Nat.add_assoc]) h).imp_right
          fun h => h fun _ _ => trivial
      rw [← (unpackLookup_entries hle hbw0 hvs).length_eq, List.length_map, length_lowDigits]
    exact ⟨hsim.2, hsim.1⟩

end

/-- **Both readings of a page**: its values are the entries at its indices. -/
theorem decodeRleDictionary_forall₂ {body : Bytes} {n : ℕ} {dict vs : List α}
    {indices : List UInt32} (hvalues : decodeRleDictionary body dict n = .ok vs)
    (hindices : decodeRleDictionaryIndices body n = .ok indices) :
    List.Forall₂ (EntryOf dict) indices vs := by
  rw [decodeRleDictionary.eq_def] at hvalues
  rw [decodeRleDictionaryIndices.eq_def] at hindices
  cases body with
  | nil => cases hvalues
  | cons bitWidth bytes =>
    dsimp only at hvalues hindices
    by_cases hbw : 32 < bitWidth
    · rw [if_pos hbw] at hvalues
      cases hvalues
    rw [if_neg hbw] at hvalues hindices
    have hle : bitWidth ≤ 32 := UInt8.not_lt.mp hbw
    by_cases hzero : n = 0
    · rw [if_pos hzero] at hvalues hindices
      cases hvalues
      cases hindices
      exact .nil
    rw [if_neg hzero] at hvalues hindices
    by_cases hbw0 : bitWidth = 0
    · rw [if_pos hbw0] at hvalues hindices
      cases hindices
      cases dict with
      | nil => cases hvalues
      | cons v dict =>
        cases hvalues
        exact forall₂_replicate rfl n
    rw [if_neg hbw0] at hvalues hindices
    refine hybridDecode_related (fun his hvs => ?_) (fun _ his hvs => ?_) hindices hvalues
    · rw [unpackIndices_eq hle (unpackIndices_fits his)] at his
      cases his
      exact unpackLookup_entries hle hbw0 hvs
    · cases his
      obtain ⟨v, hv, hvs⟩ := bind_eq_ok.mp hvs
      cases hvs
      rw [lookupIndex_eq_ok, UInt32.toNat_toUInt64] at hv
      exact forall₂_replicate hv _

end EmatixParquet
