/-
  Predicates on dictionary pages — `decode_rle_dictionary_predicate_bitmap` of
  `dict.rs`, which turns a page's indices into a bitmap without looking any
  value up, and the portable kernel it hands bit-packed runs to.

  * `fusedBitmapChunk_eq`, `predicatePacked_eq`, `predicateRun_eq`: each kind of
    run adds the bits of its indices to the bitmap;
  * `predicateBitmap_eq`: for a mask of zeros and ones that is long enough, the
    decoder computes the bitmap of what `pageIndices` reads;
  * `decodeRleDictionaryIndices_of_pageIndices`: which the index decoder reads
    too.
-/
import EmatixParquet.Codec.Dict
import EmatixParquet.Wire.Bitmap

namespace EmatixParquet

open Wire

variable {α σ : Type}

/-! ## The decoder -/

/-- `out[k] |= v`. -/
def orAt (out : Bytes) (k : ℕ) (v : UInt8) : Res CodecError Bytes := do
  let b ← byteAt out k
  pure (out.set k (b ||| v))

/-- `out[k] = v`. -/
def setAt (out : Bytes) (k : ℕ) (v : UInt8) : Res CodecError Bytes := do
  let _ ← byteAt out k
  pure (out.set k v)

/-- `out[k..k + src.len()].copy_from_slice(src)`. -/
def copyAt (out : Bytes) (k : ℕ) (src : Bytes) : Res CodecError Bytes := do
  let _ ← slice out k (k + src.length)
  pure (out.take k ++ src ++ out.drop (k + src.length))

/-- `splat_ones`: one bit at a time up to the first and after the last whole
    byte. -/
def splatOnes (out : Bytes) (row endRow : ℕ) : Res CodecError Bytes :=
  if row < endRow then
    if row % 8 ≠ 0 ∨ endRow < row + 8 then do
      let out ← orAt out (row / 8) (1 <<< UInt8.ofNat (row % 8))
      splatOnes out (row + 1) endRow
    else do
      let out ← setAt out (row / 8) 0xFF
      splatOnes out (row + 8) endRow
  else .ok out
termination_by endRow - row

/-- `b0 | (b1 << 1) | ...`, for at most eight mask entries. -/
def packPredicateByte : ℕ → Bytes → UInt8
  | _, [] => 0
  | i, b :: bits => (b <<< UInt8.ofNat i) ||| packPredicateByte (i + 1) bits

/-- `fused_bitmap_chunk`, on the portable path.  The reads of the mask are
    unchecked there; the caller has compared its length with the width. -/
def fusedBitmapChunk (chunk : Bytes) (bitWidth : UInt8) (n : ℕ) (dictMask : Bytes) :
    Res CodecError Bytes := do
  let idxs ← unpackIndices chunk n bitWidth
  let bits ← idxs.mapM fun idx => byteAt dictMask idx.toNat
  pure ((List.range (divCeil n 8)).map fun blk =>
    packPredicateByte 0 ((bits.drop (8 * blk)).take 8))

/-- The bit-packed branch, with `emitted` rows in the bitmap. -/
def predicatePacked (bitWidth : UInt8) (dictMask : Bytes) (emitted : ℕ) (out chunk : Bytes)
    (toEmit : ℕ) : Res CodecError Bytes := do
  let tmp ← fusedBitmapChunk chunk bitWidth toEmit dictMask
  if emitted % 8 = 0 ∧ toEmit % 8 = 0 then copyAt out (emitted / 8) tmp
  else (List.range toEmit).foldlM (fun out i => do
    let b ← byteAt tmp (i / 8)
    let row := emitted + i
    orAt out (row / 8) (((b >>> UInt8.ofNat (i % 8)) &&& 1) <<< UInt8.ofNat (row % 8))) out

/-- The RLE branch. -/
def predicateRun (requiredMask : ℕ) (dictMask : Bytes) (emitted : ℕ) (out valueChunk : Bytes)
    (toEmit : ℕ) : Res CodecError Bytes :=
  let idx := rleIndex valueChunk
  if requiredMask ≤ idx.toNat then codecErr (.dictIndexOutOfRange idx requiredMask)
  else do
    let bit ← byteAt dictMask idx.toNat
    if bit ≠ 0 then splatOnes out emitted (emitted + toEmit) else pure out

/-- The loop of a decoder that writes into what it is given: as `hybridLoop`,
    with an accumulator in place of appended values. -/
def hybridFold (bitWidth numValues : ℕ) (onPacked onRle : ℕ → σ → Bytes → ℕ → Res CodecError σ) :
    Loop (Fault CodecError) (ℕ × σ) σ where
  step s :=
    if s.1 < numValues then do
      let header ← wire readUvarint
      let count := (header >>> 1).toNat
      if header &&& 1 = 1 then do
        let total := count * 8 % usizeBound
        let needed := divCeil (total * bitWidth % usizeBound) 8
        let chunk ← wire (take needed)
        let toEmit := min (numValues - s.1) total
        let out ← Reader.lift (onPacked s.1 s.2 chunk toEmit)
        pure (.inl (s.1 + toEmit, out))
      else do
        let valueChunk ← wire (take (divCeil bitWidth 8))
        let toEmit := min (numValues - s.1) count
        let out ← Reader.lift (onRle s.1 s.2 valueChunk toEmit)
        pure (.inl (s.1 + toEmit, out))
    else pure (.inr s.2)
  consumes {s bs s' rest} h := by
    split at h
    · obtain ⟨header, mid, hheader, hrest⟩ := Reader.run_bind_eq_ok h
      exact lt_of_le_of_lt (Reader.run_length_le _ hrest) (readUvarint_consumes hheader)
    · cases h

/-- The number of mask entries a width can address. -/
def requiredMask (bitWidth : UInt8) : ℕ := if bitWidth = 0 then 1 else 2 ^ bitWidth.toNat

/-- `decode_rle_dictionary_predicate_bitmap`: what it appends. -/
def decodeRleDictionaryPredicateBitmap (body : Bytes) (numValues : ℕ) (dictMask : Bytes) :
    Res CodecError Bytes :=
  match body with
  | [] => codecErr .emptyDictPageBody
  | bitWidth :: bytes =>
    if 32 < bitWidth then codecErr (.bitWidthOutOfRange bitWidth)
    else if bitWidth ≠ 0 ∧ 32 ≤ bitWidth then codecErr (.bitWidthOutOfRange bitWidth)
    else if dictMask.length < requiredMask bitWidth then
      codecErr (.decompress s!"dict_mask must be ≥ {requiredMask bitWidth} entries for bw={bitWidth} (got {dictMask.length})")
    else if numValues = 0 then .ok []
    else
      let out := List.replicate (divCeil numValues 8) 0
      if bitWidth = 0 then do
        let bit ← byteAt dictMask 0
        if bit ≠ 0 then splatOnes out 0 numValues else pure out
      else (·.1) <$> ((hybridFold bitWidth.toNat numValues (predicatePacked bitWidth dictMask)
        (predicateRun (requiredMask bitWidth) dictMask)).run (0, out)).run bytes

/-! ## The bits of a run -/

/-- A mask of zeros and ones. -/
def IsMask (mask : Bytes) : Prop := ∀ b ∈ mask, b = 0 ∨ b = 1

/-- Whether the mask selects the dictionary entry `idx`. -/
def passes (mask : Bytes) (idx : UInt32) : Bool := mask[idx.toNat]? == some 1

/-- Whether it selects row `r` of the rows with these indices. -/
def rowPasses (mask : Bytes) (indices : List UInt32) (r : ℕ) : Bool :=
  indices[r]?.any (passes mask)

theorem rowPasses_append (mask : Bytes) (xs ys : List UInt32) (r : ℕ) :
    rowPasses mask (xs ++ ys) r
      = if r < xs.length then rowPasses mask xs r else rowPasses mask ys (r - xs.length) := by
  unfold rowPasses
  split
  · next h => rw [List.getElem?_append_left h]
  · next h => rw [List.getElem?_append_right (by omega)]

theorem rowPasses_of_le {mask : Bytes} {indices : List UInt32} {r : ℕ} (h : indices.length ≤ r) :
    rowPasses mask indices r = false := by
  rw [rowPasses, List.getElem?_eq_none_iff.mpr h]
  rfl

theorem rowPasses_replicate {mask : Bytes} {idx : UInt32} {n r : ℕ} :
    rowPasses mask (List.replicate n idx) r = (decide (r < n) && passes mask idx) := by
  by_cases h : r < n
  · simp [rowPasses, h]
  · rw [rowPasses_of_le (by rw [List.length_replicate]; omega), decide_eq_false h, Bool.false_and]

/-- The entry of a mask, and what it says. -/
theorem byteAt_mask {mask : Bytes} (hmask : IsMask mask) {idx : UInt32}
    (h : idx.toNat < mask.length) :
    ∃ b, byteAt mask idx.toNat = .ok b ∧ (b = 0 ∨ b = 1) ∧ passes mask idx = (b == 1) := by
  refine ⟨mask[idx.toNat], byteAt_eq h, hmask _ (List.getElem_mem h), ?_⟩
  rw [passes, List.getElem?_eq_getElem h]
  rfl

theorem orAt_bit {out : Bytes} {row : ℕ} (h : row < 8 * out.length) {b : UInt8}
    (hb : b = 0 ∨ b = 1) :
    ∃ out', orAt out (row / 8) (b <<< UInt8.ofNat (row % 8)) = .ok out' ∧
      out'.length = out.length ∧
      ∀ r, (leNat out').testBit r = ((leNat out).testBit r || (decide (r = row) && (b == 1))) := by
  have hk : row / 8 < out.length := by omega
  refine ⟨_, ?_, List.length_set, testBit_set_bit hk hb⟩
  rw [orAt, byteAt_eq hk]
  rfl

/-- Splatting sets the bits of the rows. -/
theorem splatOnes_eq {out : Bytes} {row endRow : ℕ} (h : endRow ≤ 8 * out.length) :
    ∃ out', splatOnes out row endRow = .ok out' ∧ out'.length = out.length ∧
      ∀ r, (leNat out').testBit r
        = ((leNat out).testBit r || decide (row ≤ r ∧ r < endRow)) := by
  obtain ⟨n, hn⟩ : ∃ n, endRow - row = n := ⟨_, rfl⟩
  induction n using Nat.strong_induction_on generalizing out row with
  | _ n ih =>
    rw [splatOnes]
    split
    · next hlt =>
      split
      · obtain ⟨out₁, hor, hlen₁, hbits₁⟩ := orAt_bit (show row < 8 * out.length by omega)
          (Or.inr (rfl : (1 : UInt8) = 1))
        obtain ⟨out₂, hsplat, hlen₂, hbits₂⟩ :=
          ih (endRow - (row + 1)) (by omega) (by rw [hlen₁]; exact h) rfl
        refine ⟨out₂, by rw [hor]; exact hsplat, hlen₂.trans hlen₁, fun r => ?_⟩
        rw [hbits₂, hbits₁, Bool.or_assoc]
        congr 1
        rw [Bool.eq_iff_iff]
        simp
        omega
      · have hk : row / 8 < out.length := by omega
        obtain ⟨out₂, hsplat, hlen₂, hbits₂⟩ := ih (endRow - (row + 8)) (by omega)
          (show endRow ≤ 8 * (out.set (row / 8) 0xFF).length by rw [List.length_set]; exact h) rfl
        refine ⟨out₂, ?_, hlen₂.trans List.length_set, fun r => ?_⟩
        · rw [setAt, byteAt_eq hk]
          exact hsplat
        · have hones : ∀ i < 8, (0xFF : UInt8).toNat.testBit i = true := by decide
          rw [hbits₂, testBit_set hk]
          by_cases hr : r / 8 = row / 8
          · rw [if_pos hr, hones _ (Nat.mod_lt _ (by decide)), Bool.true_or,
              decide_eq_true (show row ≤ r ∧ r < endRow by omega), Bool.or_true]
          · rw [if_neg hr]
            congr 1
            rw [Bool.eq_iff_iff]
            simp
            omega
    · next hge =>
      refine ⟨out, rfl, rfl, fun r => ?_⟩
      rw [decide_eq_false (by omega), Bool.or_false]

theorem testBit_packPredicateByte {bits : Bytes} (hbits : IsMask bits) {i j : ℕ}
    (hlen : i + bits.length ≤ 8) :
    (packPredicateByte i bits).toNat.testBit j
      = (decide (i ≤ j) && bits[j - i]? == some 1) := by
  induction bits generalizing i with
  | nil => simp [packPredicateByte]
  | cons b bits ih =>
    rw [List.length_cons] at hlen
    have hb := hbits b List.mem_cons_self
    rw [packPredicateByte, UInt8.toNat_or, Nat.testBit_or, testBit_shiftLeft_bit hb (by omega),
      ih (fun c hc => hbits c (List.mem_cons_of_mem _ hc)) (by omega)]
    rcases Nat.lt_trichotomy i j with hlt | rfl | hgt
    · rw [show j - i = j - (i + 1) + 1 by omega, List.getElem?_cons_succ]
      simp [show j ≠ i by omega, show i + 1 ≤ j by omega, show i ≤ j by omega]
    · simp
    · simp [show j ≠ i by omega, show ¬ i ≤ j by omega, show ¬ i + 1 ≤ j by omega]

/-- **The kernel** packs whether each index passes. -/
theorem fusedBitmapChunk_eq {chunk mask : Bytes} {bitWidth : UInt8} {n : ℕ}
    {indices : List UInt32} (hbw : bitWidth ≤ 32) (hmask : IsMask mask)
    (h : unpackIndices chunk n bitWidth = .ok indices)
    (hlt : ∀ v ∈ indices, v.toNat < mask.length) :
    fusedBitmapChunk chunk bitWidth n mask = .ok (bitmapOf n (rowPasses mask indices)) := by
  have hlen := unpackIndices_length hbw h
  obtain ⟨bits, hbits⟩ := exists_mapM fun v hv =>
    (⟨_, byteAt_eq (hlt v hv)⟩ : ∃ b, byteAt mask v.toNat = .ok b)
  have hbit : ∀ r, (bits[r]? == some 1) = rowPasses mask indices r := by
    intro r
    rw [rowPasses]
    cases hr : indices[r]? with
    | none =>
      have : bits.length ≤ r := by
        rw [mapM_length hbits]
        exact List.getElem?_eq_none_iff.mp hr
      rw [List.getElem?_eq_none_iff.mpr this]
      rfl
    | some idx =>
      obtain ⟨b, hb, hbyte⟩ := (mapM_getElem? hbits r).1 idx hr
      obtain ⟨b', hb', -, hpass⟩ := byteAt_mask hmask (hlt idx (List.mem_of_getElem? hr))
      obtain rfl : b' = b := Except.ok.inj (hb'.symm.trans hbyte)
      rw [hb, Option.any_some, hpass]
      rfl
  have hflags : IsMask bits := by
    intro b hb
    obtain ⟨r, hr⟩ := List.mem_iff_getElem?.mp hb
    obtain ⟨idx, hidx, hbyte⟩ := (mapM_getElem? hbits r).2 b hr
    obtain ⟨b', hb', hflag, -⟩ := byteAt_mask hmask (hlt idx (List.mem_of_getElem? hidx))
    obtain rfl : b' = b := Except.ok.inj (hb'.symm.trans hbyte)
    exact hflag
  refine bind_eq_ok.mpr ⟨indices, h, bind_eq_ok.mpr ⟨bits, hbits, congrArg Except.ok ?_⟩⟩
  refine List.map_congr_left fun blk _ => byte_ext fun i hi => ?_
  have hfew : 0 + ((bits.drop (8 * blk)).take 8).length ≤ 8 := by
    rw [List.length_take]
    omega
  rw [testBit_packPredicateByte (fun b hb => hflags b (List.mem_of_mem_drop (List.mem_of_mem_take hb)))
    hfew, testBit_byteOf _ hi, Nat.sub_zero, List.getElem?_take_of_lt hi, List.getElem?_drop, hbit]
  by_cases hr : 8 * blk + i < n
  · simp [hr]
  · rw [rowPasses_of_le (by omega)]
    simp

/-! ## Runs in the bitmap -/

/-- The bitmap of a page of `n` rows whose first rows have these indices. -/
def pageBitmap (mask : Bytes) (n : ℕ) (indices : List UInt32) : Bytes :=
  bitmapOf n (rowPasses mask indices)

theorem length_pageBitmap (mask : Bytes) (n : ℕ) (indices : List UInt32) :
    (pageBitmap mask n indices).length = divCeil n 8 := length_bitmapOf _ _

/-- What a run adds to the bitmap of the rows before it. -/
theorem eq_pageBitmap_append {mask out : Bytes} {n : ℕ} {xs vs : List UInt32}
    (hn : xs.length + vs.length ≤ n) (hlen : out.length = divCeil n 8)
    (hbits : ∀ r, (leNat out).testBit r = ((leNat (pageBitmap mask n xs)).testBit r
      || (decide (xs.length ≤ r) && rowPasses mask vs (r - xs.length)))) :
    out = pageBitmap mask n (xs ++ vs) := by
  refine eq_bitmapOf hlen fun r => ?_
  rw [hbits, pageBitmap, testBit_bitmapOf, rowPasses_append]
  by_cases hx : r < xs.length
  · simp [hx, show ¬ xs.length ≤ r by omega]
  · rw [if_neg hx, rowPasses_of_le (by omega : xs.length ≤ r), Bool.and_false, Bool.false_or,
      decide_eq_true (show xs.length ≤ r by omega), Bool.true_and]
    by_cases hr : r < n
    · simp [hr]
    · rw [rowPasses_of_le (by omega), Bool.and_false]

theorem and_one_flag (b : UInt8) : b &&& 1 = 0 ∨ b &&& 1 = 1 := by
  have hmod : (b &&& 1).toNat = b.toNat % 2 := by
    rw [UInt8.toNat_and]
    exact Nat.and_two_pow_sub_one_eq_mod _ 1
  rcases Nat.mod_two_eq_zero_or_one b.toNat with h | h
  · exact Or.inl (UInt8.toNat_inj.mp (hmod.trans h))
  · exact Or.inr (UInt8.toNat_inj.mp (hmod.trans h))

/-- The bits merged one by one. -/
theorem mergeBits_eq {out tmp : Bytes} {emitted n : ℕ} (hout : emitted + n ≤ 8 * out.length)
    (htmp : n ≤ 8 * tmp.length) :
    ∃ out', (List.range n).foldlM (fun out i => do
        let b ← byteAt tmp (i / 8)
        let row := emitted + i
        orAt out (row / 8) (((b >>> UInt8.ofNat (i % 8)) &&& 1) <<< UInt8.ofNat (row % 8))) out
          = .ok out' ∧ out'.length = out.length ∧
      ∀ r, (leNat out').testBit r = ((leNat out).testBit r
        || (decide (emitted ≤ r ∧ r < emitted + n) && (leNat tmp).testBit (r - emitted))) := by
  induction n with
  | zero => exact ⟨out, rfl, rfl, fun r => by simp⟩
  | succ n ih =>
    obtain ⟨out₁, hfold, hlen₁, hbits₁⟩ := ih (by omega) (by omega)
    have hk : n / 8 < tmp.length := by omega
    obtain ⟨out₂, hor, hlen₂, hbits₂⟩ := orAt_bit (show emitted + n < 8 * out₁.length by omega)
      (and_one_flag (tmp[n / 8] >>> UInt8.ofNat (n % 8)))
    refine ⟨out₂, ?_, hlen₂.trans hlen₁, fun r => ?_⟩
    · rw [List.range_succ, List.foldlM_append]
      refine bind_eq_ok.mpr ⟨out₁, hfold, ?_⟩
      rw [List.foldlM_cons]
      exact bind_eq_ok.mpr ⟨out₂, bind_eq_ok.mpr ⟨_, byteAt_eq hk, hor⟩, rfl⟩
    · have hread := testBit_leNat (List.getElem?_eq_getElem hk) (Nat.mod_lt n (by decide : 0 < 8))
      rw [Nat.div_add_mod] at hread
      rw [hbits₂, hbits₁, shiftRight_and_one _ (Nat.mod_lt _ (by decide)), ← hread, Bool.or_assoc]
      congr 1
      rcases Nat.lt_trichotomy r (emitted + n) with hlt | rfl | hgt
      · simp [show r ≠ emitted + n by omega, hlt, show r < emitted + (n + 1) by omega]
      · simp
      · simp [show r ≠ emitted + n by omega, show ¬ r < emitted + n by omega,
          show ¬ r < emitted + (n + 1) by omega]

theorem predicatePacked_eq {chunk mask : Bytes} {bitWidth : UInt8} {n m : ℕ}
    {xs vs : List UInt32} (hbw : bitWidth ≤ 32) (hmask : IsMask mask)
    (h : unpackIndices chunk m bitWidth = .ok vs) (hlt : ∀ v ∈ vs, v.toNat < mask.length)
    (hn : xs.length + m ≤ n) :
    predicatePacked bitWidth mask xs.length (pageBitmap mask n xs) chunk m
      = .ok (pageBitmap mask n (xs ++ vs)) := by
  have hm := unpackIndices_length hbw h
  have hlen := length_pageBitmap mask n xs
  have htmp : (bitmapOf m (rowPasses mask vs)).length = (m + 7) / 8 := length_bitmapOf _ _
  have hdiv : divCeil n 8 = (n + 7) / 8 := rfl
  refine bind_eq_ok.mpr ⟨_, fusedBitmapChunk_eq hbw hmask h hlt, ?_⟩
  by_cases haligned : xs.length % 8 = 0 ∧ m % 8 = 0
  · rw [if_pos haligned]
    have hfits : xs.length / 8 + (bitmapOf m (rowPasses mask vs)).length
        ≤ (pageBitmap mask n xs).length := by omega
    refine bind_eq_ok.mpr ⟨_, slice_ok (Nat.le_add_right _ _) hfits, congrArg Except.ok ?_⟩
    refine eq_pageBitmap_append (by omega) ?_ fun r => ?_
    · simp only [List.length_append, List.length_take, List.length_drop]
      omega
    · rw [testBit_copy hfits, testBit_bitmapOf]
      by_cases hr : 8 * (xs.length / 8) ≤ r ∧
          r < 8 * (xs.length / 8 + (bitmapOf m (rowPasses mask vs)).length)
      · rw [if_pos hr, show 8 * (xs.length / 8) = xs.length by omega, pageBitmap, testBit_bitmapOf,
          rowPasses_of_le (by omega : xs.length ≤ r)]
        simp [show r - xs.length < m by omega, show xs.length ≤ r by omega]
      · rw [if_neg hr]
        by_cases hx : xs.length ≤ r
        · rw [rowPasses_of_le (by omega : vs.length ≤ r - xs.length)]
          simp
        · simp [hx]
  · rw [if_neg haligned]
    obtain ⟨out', hfold, hlen', hbits⟩ := @mergeBits_eq (pageBitmap mask n xs)
      (bitmapOf m (rowPasses mask vs)) xs.length m (by omega) (by omega)
    rw [hfold, eq_pageBitmap_append (by omega : xs.length + vs.length ≤ n) (hlen'.trans hlen)
      fun r => ?_]
    rw [hbits, testBit_bitmapOf]
    congr 1
    by_cases hr : xs.length ≤ r ∧ r < xs.length + m
    · simp [hr.1, hr.2, show r - xs.length < m by omega]
    · rw [decide_eq_false hr, Bool.false_and]
      by_cases hx : xs.length ≤ r
      · rw [rowPasses_of_le (by omega : vs.length ≤ r - xs.length), Bool.and_false]
      · simp [hx]

theorem predicateRun_eq {valueChunk mask : Bytes} {required n m : ℕ} {xs : List UInt32}
    (hmask : IsMask mask) (hrequired : required ≤ mask.length)
    (hlt : (rleIndex valueChunk).toNat < required) (hn : xs.length + m ≤ n) :
    predicateRun required mask xs.length (pageBitmap mask n xs) valueChunk m
      = .ok (pageBitmap mask n (xs ++ List.replicate m (rleIndex valueChunk))) := by
  have hlen := length_pageBitmap mask n xs
  have hdiv : divCeil n 8 = (n + 7) / 8 := rfl
  obtain ⟨b, hb, hflag, hpass⟩ := byteAt_mask hmask (hlt.trans_le hrequired)
  rw [predicateRun, if_neg (Nat.not_le.mpr hlt)]
  refine bind_eq_ok.mpr ⟨b, hb, ?_⟩
  rcases hflag with rfl | rfl
  · rw [if_neg (by simp)]
    refine congrArg Except.ok (eq_pageBitmap_append (by simpa) hlen fun r => ?_)
    rw [rowPasses_replicate, hpass]
    simp
  · rw [if_pos (by decide)]
    obtain ⟨out', hsplat, hlen', hbits⟩ := @splatOnes_eq (pageBitmap mask n xs) xs.length
      (xs.length + m) (by omega)
    have hrun : xs.length + (List.replicate m (rleIndex valueChunk)).length ≤ n := by simpa
    rw [hsplat, eq_pageBitmap_append hrun (hlen'.trans hlen) fun r => ?_]
    rw [hbits, rowPasses_replicate, hpass]
    congr 1
    rw [Bool.eq_iff_iff]
    simp
    omega

/-! ## The bitmap of a page -/

/-- A fold whose accumulator is a function of the values a decoder appends. -/
theorem hybridFold_run {bw n : ℕ} {onPacked onRle : ℕ → Bytes → ℕ → Res CodecError (List α)}
    {onPacked' onRle' : ℕ → σ → Bytes → ℕ → Res CodecError σ} (f : List α → σ)
    (hpacked : ∀ (xs : List α) chunk m, xs.length + m ≤ n →
      onPacked' xs.length (f xs) chunk m = (fun vs => f (xs ++ vs)) <$> onPacked xs.length chunk m)
    (hrle : ∀ (xs : List α) chunk m, xs.length + m ≤ n →
      onRle' xs.length (f xs) chunk m = (fun vs => f (xs ++ vs)) <$> onRle xs.length chunk m)
    (hlength : ∀ e chunk m vs, onPacked e chunk m = .ok vs ∨ onRle e chunk m = .ok vs →
      vs.length = m) (bytes : Bytes) :
    ((hybridFold bw n onPacked' onRle').run (0, f [])).run bytes
      = (fun r => (f r.1, r.2)) <$> ((hybridLoop bw n onPacked onRle).run (0, [])).run bytes := by
  have hstart : (0 : ℕ) = ([] : List α).length ∧ 0 ≤ n := ⟨rfl, Nat.zero_le _⟩
  refine @Loop.run_map _ _ _ (hybridLoop bw n onPacked onRle) _ _
    (hybridFold bw n onPacked' onRle') (fun s => (s.1, f s.2)) f
    (fun s => s.1 = s.2.length ∧ s.1 ≤ n) ?_ ?_ (0, []) bytes hstart
  · rintro ⟨e, xs⟩ bs ⟨he, hle⟩
    obtain rfl : e = xs.length := he
    simp only [hybridFold, hybridLoop]
    by_cases he : xs.length < n
    · rw [if_pos he, if_pos he, Reader.run_bind, Reader.run_bind]
      cases (wire readUvarint).run bs with
      | error e => rfl
      | ok r =>
        obtain ⟨header, mid⟩ := r
        dsimp only
        by_cases hbit : header &&& 1 = 1
        · rw [if_pos hbit, if_pos hbit, Reader.run_bind, Reader.run_bind]
          cases (wire (take _)).run mid with
          | error e => rfl
          | ok r =>
            obtain ⟨chunk, mid'⟩ := r
            dsimp only
            rw [hpacked xs chunk _ (by omega)]
            cases onPacked xs.length chunk _ <;> rfl
        · rw [if_neg hbit, if_neg hbit, Reader.run_bind, Reader.run_bind]
          cases (wire (take _)).run mid with
          | error e => rfl
          | ok r =>
            obtain ⟨chunk, mid'⟩ := r
            dsimp only
            rw [hrle xs chunk _ (by omega)]
            cases onRle xs.length chunk _ <;> rfl
    · rw [if_neg he, if_neg he]
      rfl
  · rintro ⟨e, xs⟩ bs s' rest ⟨he, hle⟩ h
    obtain rfl : e = xs.length := he
    obtain ⟨chunk, m, vs, -, hm, rfl, hhandled⟩ := hybridLoop_step_inl h
    dsimp only at hle ⊢
    rw [List.length_append, hlength xs.length chunk m vs (hhandled.imp And.left And.left)]
    exact ⟨rfl, by omega⟩

/-- An RLE run of the predicate decoder, as indices: one that no mask of the
    required length need have an entry for is refused. -/
def widthCheckedRun (required : ℕ) (_ : ℕ) (valueChunk : Bytes) (toEmit : ℕ) :
    Res CodecError (List UInt32) :=
  let idx := rleIndex valueChunk
  if required ≤ idx.toNat then codecErr (.dictIndexOutOfRange idx required)
  else .ok (List.replicate toEmit idx)

/-- The indices of a page that the predicate decoder accepts. -/
def pageIndices (body : Bytes) (numValues : ℕ) : Res CodecError (List UInt32) :=
  match body with
  | [] => codecErr .emptyDictPageBody
  | bitWidth :: bytes =>
    if 32 ≤ bitWidth then codecErr (.bitWidthOutOfRange bitWidth)
    else if numValues = 0 then .ok []
    else if bitWidth = 0 then .ok (List.replicate numValues 0)
    else hybridDecode bitWidth.toNat numValues (fun _ chunk n => unpackIndices chunk n bitWidth)
      (widthCheckedRun (requiredMask bitWidth)) bytes

/-- The mask has an entry for every index the width of the page can hold. -/
def CoversWidth (mask body : Bytes) : Prop :=
  ∀ bitWidth bytes, body = bitWidth :: bytes → requiredMask bitWidth ≤ mask.length

/-- Widths with indices are below 32 bits. -/
theorem requiredMask_le {body bytes : Bytes} {bitWidth : UInt8} {n : ℕ} {indices : List UInt32}
    (hbody : body = bitWidth :: bytes) (h : pageIndices body n = .ok indices) :
    requiredMask bitWidth ≤ 2 ^ 32 := by
  subst hbody
  rw [pageIndices.eq_def] at h
  dsimp only at h
  by_cases hwide : 32 ≤ bitWidth
  · rw [if_pos hwide] at h
    cases h
  · have hlt : bitWidth.toNat < 32 := UInt8.lt_iff_toNat_lt.mp (UInt8.not_le.mp hwide)
    rw [requiredMask]
    split
    · decide
    · exact Nat.pow_le_pow_right (by decide) hlt.le

theorem widthCheckedRun_eq_ok {required e m : ℕ} {valueChunk : Bytes} {vs : List UInt32} :
    widthCheckedRun required e valueChunk m = .ok vs ↔
      (rleIndex valueChunk).toNat < required ∧ List.replicate m (rleIndex valueChunk) = vs := by
  rw [widthCheckedRun]
  split
  · next h => simp [codecErr, h]
  · next h => simp [Nat.not_le.mp h]

/-- Packed indices are below the width's bound. -/
theorem unpackIndices_lt {chunk : Bytes} {m : ℕ} {bitWidth : UInt8} {vs : List UInt32}
    (hbw : bitWidth ≤ 32) (hbw0 : bitWidth ≠ 0) (h : unpackIndices chunk m bitWidth = .ok vs) :
    ∀ v ∈ vs, v.toNat < requiredMask bitWidth := by
  rw [unpackIndices_eq hbw (unpackIndices_fits h)] at h
  cases h
  intro v hv
  obtain ⟨d, hd, rfl⟩ := List.mem_map.mp hv
  have hlt := lt_of_mem_lowDigits (Nat.two_pow_pos _) hd
  have hpow : 2 ^ bitWidth.toNat ≤ 2 ^ 32 :=
    Nat.pow_le_pow_right (by decide) (UInt8.le_iff_toNat_le.mp hbw)
  rw [requiredMask, if_neg hbw0, UInt32.toNat_ofNat_of_lt' (lt_of_lt_of_le hlt hpow)]
  exact hlt

/-- **The predicate decoder** computes the bitmap of the page's indices. -/
theorem predicateBitmap_eq {body mask : Bytes} {n : ℕ} (hmask : IsMask mask)
    (hcover : CoversWidth mask body) :
    decodeRleDictionaryPredicateBitmap body n mask
      = pageBitmap mask n <$> pageIndices body n := by
  cases body with
  | nil => rfl
  | cons bitWidth bytes =>
    have hrequired := hcover bitWidth bytes rfl
    rw [decodeRleDictionaryPredicateBitmap.eq_def, pageIndices.eq_def]
    dsimp only
    by_cases hwide : 32 ≤ bitWidth
    · have hbw0 : bitWidth ≠ 0 := by
        rintro rfl
        exact absurd hwide (by decide)
      rw [if_pos hwide, if_pos (show bitWidth ≠ 0 ∧ 32 ≤ bitWidth from ⟨hbw0, hwide⟩)]
      split <;> rfl
    have hle : bitWidth ≤ 32 := UInt8.le_of_lt (UInt8.not_le.mp hwide)
    rw [if_neg (UInt8.not_lt.mpr hle), if_neg (fun h => hwide h.2), if_neg (Nat.not_lt.mpr hrequired),
      if_neg hwide]
    by_cases hzero : n = 0
    · subst hzero
      rfl
    rw [if_neg hzero, if_neg hzero]
    have hempty : List.replicate (divCeil n 8) 0 = pageBitmap mask n [] := by
      refine eq_bitmapOf List.length_replicate fun r => ?_
      rw [leNat_replicate_zero, rowPasses_of_le (Nat.zero_le r)]
      simp
    rw [hempty]
    by_cases hbw0 : bitWidth = 0
    · -- one run of the index 0
      subst hbw0
      have hrun := @predicateRun_eq [] mask 1 n n [] hmask hrequired (by decide) (by simp)
      rw [predicateRun, if_neg (by decide)] at hrun
      rw [if_pos rfl, if_pos rfl]
      rw [List.length_nil, Nat.zero_add, List.nil_append] at hrun
      exact hrun
    · rw [if_neg hbw0, if_neg hbw0, hybridDecode,
        @hybridFold_run _ _ _ n (fun _ chunk m => unpackIndices chunk m bitWidth)
          (widthCheckedRun (requiredMask bitWidth)) _ _ (pageBitmap mask n)]
      · cases ((hybridLoop bitWidth.toNat n _ _).run (0, [])).run bytes <;> rfl
      · intro xs chunk m hm
        cases h : unpackIndices chunk m bitWidth with
        | error e =>
          rw [predicatePacked, fusedBitmapChunk, h]
          rfl
        | ok vs =>
          have hlt := fun v hv => (unpackIndices_lt hle hbw0 h v hv).trans_le hrequired
          exact predicatePacked_eq hle hmask h hlt hm
      · intro xs chunk m hm
        rw [widthCheckedRun]
        by_cases hidx : requiredMask bitWidth ≤ (rleIndex chunk).toNat
        · rw [predicateRun, if_pos hidx, if_pos hidx]
          rfl
        · rw [if_neg hidx, predicateRun_eq hmask hrequired (Nat.not_le.mp hidx) hm]
          rfl
      · rintro e chunk m vs (h | h)
        · exact unpackIndices_length hle h
        · rw [← (widthCheckedRun_eq_ok.mp h).2, List.length_replicate]

/-- The index decoder reads what the predicate decoder accepts. -/
theorem decodeRleDictionaryIndices_of_pageIndices {body : Bytes} {n : ℕ} {indices : List UInt32}
    (h : pageIndices body n = .ok indices) :
    decodeRleDictionaryIndices body n = .ok indices ∧ indices.length = n := by
  rw [pageIndices.eq_def] at h
  cases body with
  | nil => cases h
  | cons bitWidth bytes =>
    dsimp only at h
    rw [decodeRleDictionaryIndices]
    by_cases hwide : 32 ≤ bitWidth
    · rw [if_pos hwide] at h
      cases h
    have hle : bitWidth ≤ 32 := UInt8.le_of_lt (UInt8.not_le.mp hwide)
    rw [if_neg hwide] at h
    rw [if_neg (UInt8.not_lt.mpr hle)]
    by_cases hzero : n = 0
    · rw [if_pos hzero] at h ⊢
      cases h
      exact ⟨rfl, hzero.symm⟩
    rw [if_neg hzero] at h ⊢
    by_cases hbw0 : bitWidth = 0
    · rw [if_pos hbw0] at h ⊢
      cases h
      exact ⟨rfl, List.length_replicate⟩
    rw [if_neg hbw0] at h ⊢
    have hsim : indices.length = n ∧ ((∀ v ∈ indices, True) →
        hybridDecode bitWidth.toNat n (fun _ chunk n => unpackIndices chunk n bitWidth)
          (fun _ valueChunk n => .ok (List.replicate n (rleIndex valueChunk))) bytes
            = .ok indices) := by
      refine hybridDecode_simulates (fun _ => True) (fun _ vs => vs)
        (fun _ chunk n vs _ hvs => ⟨unpackIndices_length hle hvs, fun _ => hvs⟩)
        (fun e chunk n vs _ hvs => ?_) (fun _ _ _ => rfl) h
      obtain ⟨-, rfl⟩ := widthCheckedRun_eq_ok.mp hvs
      exact ⟨List.length_replicate, fun _ => rfl⟩
    exact ⟨hsim.2 fun _ _ => trivial, hsim.1⟩

end EmatixParquet
