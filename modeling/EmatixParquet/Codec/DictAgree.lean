/-
  Three ways past the index list — `dict.rs` decodes a page through its
  dictionary in one pass, turns it into a bitmap, or gathers at a bitmap.  Here
  each is held against the indices, looked up one by one.

  * `unpackLookupInto_eq`: the unpacker that leaves the dictionary check out
    where it cannot fail;
  * `decodeRleDictionaryInto_agrees`: the fused decoder appends the entries at
    the indices;
  * `decodeRleDictionaryPredicateBitmapInto_eq`: the bitmap is written behind
    what `out` holds, wherever it starts;
  * `predicateBitmapInto_exact`, `gatherDictAtBitmap_filters`: what the bitmap
    and the gathered values are, row by row.
-/
import EmatixParquet.Codec.Predicate

namespace EmatixParquet

open Wire

variable {α : Type}

/-! ## The unchecked branch -/

/-- `*dict_ptr.add(idx)`. -/
def lookupUnchecked (dict : List α) (idx : UInt64) : Res CodecError α :=
  match dict[idx.toNat]? with
  | some v => .ok v
  | none => .error (.panic "read past the end of the dictionary")

/-- `unpack_lookup_into`: what it appends.  `unpack_chunks` leaves the check
    out where every index of the width is in the dictionary (`bounds_safe`). -/
def unpackLookupInto (packed : Bytes) (numValues : ℕ) (bitWidth : UInt8) (dict : List α) :
    Res CodecError (List α) :=
  if 32 < bitWidth then codecErr (.bitWidthOutOfRange bitWidth)
  else if numValues = 0 then .ok []
  else if bitWidth = 0 then
    match dict with
    | [] => codecErr (.dictIndexOutOfRange 0 0)
    | v :: _ => .ok (List.replicate numValues v)
  else if (bitMask bitWidth.toNat).toNat < dict.length then
    unpackChunks bitWidth.toNat (lookupUnchecked dict) packed numValues
  else unpackChunks bitWidth.toNat (lookupIndex dict) packed numValues

section
variable {numBits : ℕ} {emit emit' : UInt64 → Res CodecError α}

/-- Only masked values are emitted. -/
theorem unpackTail_congr (h : ∀ v, emit (v &&& bitMask numBits) = emit' (v &&& bitMask numBits))
    (n : ℕ) (buf : UInt64) (bits : ℕ) (rest : Bytes) :
    unpackTail numBits emit n buf bits rest = unpackTail numBits emit' n buf bits rest := by
  induction n generalizing buf bits rest with
  | zero => rfl
  | succ n ih =>
    rw [unpackTail, unpackTail]
    refine bind_congr fun r => ?_
    obtain ⟨buf', bits', rest'⟩ := r
    dsimp only
    rw [h, ih]

theorem unpackAt_bind_congr
    (h : ∀ v, emit (v &&& bitMask numBits) = emit' (v &&& bitMask numBits)) (chunk : Bytes)
    (i : ℕ) : (unpackAt chunk numBits i >>= emit) = (unpackAt chunk numBits i >>= emit') := by
  rw [unpackAt]
  cases slice chunk (i * numBits / 8)
    (i * numBits / 8 + divCeil (numBits + i * numBits % 8) 8) with
  | error e => rfl
  | ok window => exact h _

theorem unpackChunksFrom_congr
    (h : ∀ v, emit (v &&& bitMask numBits) = emit' (v &&& bitMask numBits)) (packed : Bytes)
    (tail fullChunks packedIdx : ℕ) :
    unpackChunksFrom numBits emit packed tail fullChunks packedIdx
      = unpackChunksFrom numBits emit' packed tail fullChunks packedIdx := by
  induction fullChunks generalizing packedIdx with
  | zero =>
    rw [unpackChunksFrom, unpackChunksFrom]
    split
    · exact bind_congr fun chunk => unpackTail_congr h tail 0 0 chunk
    · rfl
  | succ n ih =>
    rw [unpackChunksFrom, unpackChunksFrom, ih]
    refine bind_congr fun chunk => ?_
    rw [funext fun i => unpackAt_bind_congr h chunk i]

end

/-- **Leaving the check out** changes nothing where it cannot fail. -/
theorem unpackLookupInto_eq (packed : Bytes) (n : ℕ) (bitWidth : UInt8) (dict : List α) :
    unpackLookupInto packed n bitWidth dict = unpackLookup packed n bitWidth dict := by
  by_cases hsafe : (bitMask bitWidth.toNat).toNat < dict.length
  · have hemit : ∀ v, lookupUnchecked dict (v &&& bitMask bitWidth.toNat)
        = lookupIndex dict (v &&& bitMask bitWidth.toNat) := by
      intro v
      have hlt : (v &&& bitMask bitWidth.toNat).toNat < dict.length := by
        rw [UInt64.toNat_and]
        exact lt_of_le_of_lt Nat.and_le_right hsafe
      rw [lookupUnchecked, lookupIndex, List.getElem?_eq_getElem hlt]
    have hchunks : unpackChunks bitWidth.toNat (lookupUnchecked dict) packed n
        = unpackChunks bitWidth.toNat (lookupIndex dict) packed n := by
      rw [unpackChunks, unpackChunks, unpackChunksFrom_congr hemit]
    cases dict <;> simp only [unpackLookupInto, unpackLookup, if_pos hsafe, hchunks]
  · cases dict <;> simp only [unpackLookupInto, unpackLookup, if_neg hsafe]

/-! ## The fused decoder -/

/-- `decode_rle_dictionary_into`, appending to `out`. -/
def decodeRleDictionaryInto (body : Bytes) (dict : List α) (numValues : ℕ) (out : List α) :
    Res CodecError (List α) :=
  match body with
  | [] => codecErr .emptyDictPageBody
  | bitWidth :: bytes =>
    if 32 < bitWidth then codecErr (.bitWidthOutOfRange bitWidth)
    else if numValues = 0 then .ok out
    else if bitWidth = 0 then
      match dict with
      | [] => codecErr (.dictIndexOutOfRange 0 0)
      | v :: _ => .ok (out ++ List.replicate numValues v)
    else (·.1) <$> ((hybridFold bitWidth.toNat numValues
      (fun _ out chunk n => (out ++ ·) <$> unpackLookupInto chunk n bitWidth dict)
      (fun _ out valueChunk n => (out ++ ·) <$> lookupRun dict valueChunk n)).run
        (0, out)).run bytes

theorem unpackLookup_length {packed : Bytes} {n : ℕ} {bitWidth : UInt8} {dict vs : List α}
    (hbw : bitWidth ≤ 32) (hbw0 : bitWidth ≠ 0)
    (h : unpackLookup packed n bitWidth dict = .ok vs) : vs.length = n := by
  rw [← (unpackLookup_entries hbw hbw0 h).length_eq, List.length_map, length_lowDigits]

/-- The decoder appends what it decodes. -/
theorem decodeRleDictionaryInto_eq (body : Bytes) (dict : List α) (n : ℕ) (out : List α) :
    decodeRleDictionaryInto body dict n out = (out ++ ·) <$> decodeRleDictionary body dict n := by
  rw [decodeRleDictionaryInto.eq_def, decodeRleDictionary.eq_def]
  cases body with
  | nil => rfl
  | cons bitWidth bytes =>
    dsimp only
    by_cases hbw : 32 < bitWidth
    · rw [if_pos hbw, if_pos hbw]
      rfl
    rw [if_neg hbw, if_neg hbw]
    by_cases hzero : n = 0
    · rw [if_pos hzero, if_pos hzero]
      exact congrArg Except.ok (List.append_nil out).symm
    rw [if_neg hzero, if_neg hzero]
    by_cases hbw0 : bitWidth = 0
    · rw [if_pos hbw0, if_pos hbw0]
      cases dict <;> rfl
    rw [if_neg hbw0, if_neg hbw0, hybridDecode]
    have hle : bitWidth ≤ 32 := UInt8.not_lt.mp hbw
    have hrun := @hybridFold_run _ _ bitWidth.toNat n
      (fun _ chunk m => unpackLookup chunk m bitWidth dict)
      (fun _ valueChunk m => lookupRun dict valueChunk m)
      (fun _ out chunk m => (out ++ ·) <$> unpackLookupInto chunk m bitWidth dict)
      (fun _ out valueChunk m => (out ++ ·) <$> lookupRun dict valueChunk m) (out ++ ·)
      (fun xs chunk m _ => ?_) (fun xs chunk m _ => ?_) (fun e chunk m vs hvs => ?_) bytes
    · rw [List.append_nil] at hrun
      rw [hrun]
      cases ((hybridLoop bitWidth.toNat n _ _).run (0, [])).run bytes <;> rfl
    · simp only [unpackLookupInto_eq, List.append_assoc]
    · simp only [List.append_assoc]
    · rcases hvs with hvs | hvs
      · exact unpackLookup_length hle hbw0 hvs
      · exact lookupRun_length hvs

/-- No RLE run that is read for the first `numValues` indices is empty. -/
def RunsNonEmpty (body : Bytes) (numValues : ℕ) : Prop :=
  match body with
  | [] => True
  | bitWidth :: bytes => bitWidth = 0 ∨ numValues = 0 ∨
      ∀ runs, repeatedRuns bitWidth.toNat numValues bytes = .ok runs → ∀ r ∈ runs, r.2 ≠ 0

theorem noEmptyRun_of_runsNonEmpty {body : Bytes} {n : ℕ} {indices : List UInt32}
    (hruns : RunsNonEmpty body n) (h : decodeRleDictionaryIndices body n = .ok indices) :
    NoEmptyRun body n := by
  rw [decodeRleDictionaryIndices.eq_def] at h
  cases body with
  | nil => trivial
  | cons bitWidth bytes =>
    rcases hruns with hbw0 | hzero | hruns
    · exact .inl hbw0
    · exact .inr (.inl hzero)
    by_cases hbw0 : bitWidth = 0
    · exact .inl hbw0
    by_cases hzero : n = 0
    · exact .inr (.inl hzero)
    dsimp only at h
    by_cases hbw : 32 < bitWidth
    · rw [if_pos hbw] at h
      cases h
    rw [if_neg hbw, if_neg hzero, if_neg hbw0] at h
    have hpass : ∀ (e : ℕ) chunk m vs,
        (.ok (List.replicate m (rleIndex chunk)) : Res CodecError (List UInt32)) = .ok vs →
          m ≠ 0 → nonEmptyRun e chunk m = .ok vs := by
      intro e chunk m vs hvs hm
      rw [nonEmptyRun, if_neg hm]
      exact hvs
    obtain ⟨runs, hmet, hiff⟩ := @hybridDecode_checkedRuns _ _ _ _ _ nonEmptyRun _
      (fun _ m => m ≠ 0) hpass (fun e chunk m vs hvs => (nonEmptyRun_eq_ok hvs).1) _ h
    exact .inr (.inr (hiff.mpr (hruns runs hmet)))

theorem lookupDict_eq_ok {dict vs : List α} {indices : List UInt32} :
    lookupDict dict indices = .ok vs ↔ List.Forall₂ (EntryOf dict) indices vs := by
  have hentry : (fun (idx : UInt32) (v : α) => lookupIndex dict idx.toUInt64 = .ok v)
      = EntryOf dict := by
    funext idx v
    rw [lookupIndex_eq_ok, UInt32.toNat_toUInt64]
  rw [lookupDict, mapM_eq_ok, hentry]

/-- A page that can be looked up can be read. -/
theorem exists_indices_of_values {body : Bytes} {n : ℕ} {dict vs : List α}
    (h : decodeRleDictionary body dict n = .ok vs) :
    ∃ indices, decodeRleDictionaryIndices body n = .ok indices := by
  rw [decodeRleDictionary.eq_def] at h
  rw [decodeRleDictionaryIndices.eq_def]
  cases body with
  | nil => cases h
  | cons bitWidth bytes =>
    dsimp only at h ⊢
    by_cases hbw : 32 < bitWidth
    · rw [if_pos hbw] at h
      cases h
    have hle : bitWidth ≤ 32 := UInt8.not_lt.mp hbw
    rw [if_neg hbw] at h ⊢
    by_cases hzero : n = 0
    · rw [if_pos hzero]
      exact ⟨_, rfl⟩
    rw [if_neg hzero] at h ⊢
    by_cases hbw0 : bitWidth = 0
    · rw [if_pos hbw0]
      exact ⟨_, rfl⟩
    rw [if_neg hbw0] at h ⊢
    refine hybridDecode_ok (fun _ chunk m vs hvs => ⟨_, unpackIndices_eq hle ?_⟩)
      (fun _ chunk m vs _ => ⟨_, rfl⟩) h
    exact unpackLookup_fits hbw0 hvs

/-- **The fused decoder** appends the entries at the indices, and fails only
    where reading or looking them up fails, or on an empty RLE run. -/
theorem decodeRleDictionaryInto_agrees (body : Bytes) (dict : List α) (n : ℕ) (out : List α) :
    (∀ final, decodeRleDictionaryInto body dict n out = .ok final →
      ∃ vs indices, final = out ++ vs ∧ decodeRleDictionaryIndices body n = .ok indices ∧
        lookupDict dict indices = .ok vs) ∧
    (RunsNonEmpty body n → ∀ indices vs, decodeRleDictionaryIndices body n = .ok indices →
      lookupDict dict indices = .ok vs →
      decodeRleDictionaryInto body dict n out = .ok (out ++ vs)) := by
  constructor
  · intro final h
    rw [decodeRleDictionaryInto_eq] at h
    obtain ⟨vs, hvs, rfl⟩ := map_eq_ok.mp h
    obtain ⟨indices, hindices⟩ := exists_indices_of_values hvs
    exact ⟨vs, indices, rfl, hindices,
      lookupDict_eq_ok.mpr (decodeRleDictionary_forall₂ hvs hindices)⟩
  · intro hruns indices vs hindices hvs
    obtain ⟨hmem, hentries⟩ := forall₂_entries.mp (lookupDict_eq_ok.mp hvs)
    have hdecode := decodeRleDictionary_of_indices hindices
      (noEmptyRun_of_runsNonEmpty hruns hindices) hmem
    rw [decodeRleDictionaryInto_eq, hdecode, hentries]
    rfl

/-- An RLE run of two, behind one value. -/
theorem decodeRleDictionaryInto_agrees_sample :
    (∃ vs indices, [7, 20, 20] = [7] ++ vs ∧ decodeRleDictionaryIndices [1, 4, 1] 2 = .ok indices ∧
      lookupDict [10, 20] indices = .ok vs) ∧
    decodeRleDictionaryInto [1, 4, 1] [10, 20] 2 [7] = .ok ([7] ++ [20, 20]) := by
  obtain ⟨hinto, hback⟩ := decodeRleDictionaryInto_agrees [1, 4, 1] [10, 20] 2 [7]
  have hruns : RunsNonEmpty [1, 4, 1] 2 := by
    refine .inr (.inr fun runs hr => ?_)
    have hone : repeatedRuns 1 2 [4, 1] = .ok [([1], 2)] := by decide +kernel
    cases hr.symm.trans hone
    decide
  exact ⟨hinto _ (by decide +kernel), hback hruns [1, 1] _ (by decide +kernel) (by decide +kernel)⟩

/-! ## The bitmap behind `out`

  `decode_rle_dictionary_predicate_bitmap` writes where `out` ended when it was
  called; below, `outStart` is that position.
-/

/-- `splat_ones`. -/
def splatOnesInto (out : Bytes) (outStart row endRow : ℕ) : Res CodecError Bytes :=
  if row < endRow then
    if row % 8 ≠ 0 ∨ endRow < row + 8 then do
      let out ← orAt out (outStart + row / 8) (1 <<< UInt8.ofNat (row % 8))
      splatOnesInto out outStart (row + 1) endRow
    else do
      let out ← setAt out (outStart + row / 8) 0xFF
      splatOnesInto out outStart (row + 8) endRow
  else .ok out
termination_by endRow - row

/-- The bit-packed branch. -/
def predicatePackedInto (bitWidth : UInt8) (dictMask : Bytes) (outStart emitted : ℕ)
    (out chunk : Bytes) (toEmit : ℕ) : Res CodecError Bytes := do
  let tmp ← fusedBitmapChunk chunk bitWidth toEmit dictMask
  if emitted % 8 = 0 ∧ toEmit % 8 = 0 then copyAt out (outStart + emitted / 8) tmp
  else (List.range toEmit).foldlM (fun out i => do
    let b ← byteAt tmp (i / 8)
    let row := emitted + i
    let srcBit := (b >>> UInt8.ofNat (i % 8)) &&& 1
    orAt out (outStart + row / 8) (srcBit <<< UInt8.ofNat (row % 8))) out

/-- The RLE branch. -/
def predicateRunInto (requiredMask : ℕ) (dictMask : Bytes) (outStart emitted : ℕ)
    (out valueChunk : Bytes) (toEmit : ℕ) : Res CodecError Bytes :=
  let idx := rleIndex valueChunk
  if requiredMask ≤ idx.toNat then codecErr (.dictIndexOutOfRange idx requiredMask)
  else do
    let bit ← byteAt dictMask idx.toNat
    if bit ≠ 0 then splatOnesInto out outStart emitted (emitted + toEmit) else pure out

/-- `decode_rle_dictionary_predicate_bitmap`, writing behind `out`. -/
def decodeRleDictionaryPredicateBitmapInto (body : Bytes) (numValues : ℕ) (dictMask out : Bytes) :
    Res CodecError Bytes :=
  match body with
  | [] => codecErr .emptyDictPageBody
  | bitWidth :: bytes =>
    if 32 < bitWidth then codecErr (.bitWidthOutOfRange bitWidth)
    else if bitWidth ≠ 0 ∧ 32 ≤ bitWidth then codecErr (.bitWidthOutOfRange bitWidth)
    else if dictMask.length < requiredMask bitWidth then
      codecErr (.decompress s!"dict_mask must be ≥ {requiredMask bitWidth} entries for bw={bitWidth} (got {dictMask.length})")
    else if numValues = 0 then .ok out
    else
      let outStart := out.length
      let out := out ++ List.replicate (divCeil numValues 8) 0
      if bitWidth = 0 then do
        let bit ← byteAt dictMask 0
        if bit ≠ 0 then splatOnesInto out outStart 0 numValues else pure out
      else (·.1) <$> ((hybridFold bitWidth.toNat numValues
        (predicatePackedInto bitWidth dictMask outStart)
        (predicateRunInto (requiredMask bitWidth) dictMask outStart)).run (0, out)).run bytes

section
variable {pre : Bytes}

theorem byteAt_append (out : Bytes) (k : ℕ) : byteAt (pre ++ out) (pre.length + k) = byteAt out k := by
  rw [byteAt, byteAt, List.getElem?_append_right (Nat.le_add_right _ _), Nat.add_sub_cancel_left]

theorem set_append_length (out : Bytes) (k : ℕ) (v : UInt8) :
    (pre ++ out).set (pre.length + k) v = pre ++ out.set k v := by
  rw [List.set_append_right _ _ (Nat.le_add_right _ _), Nat.add_sub_cancel_left]

theorem orAt_append (out : Bytes) (k : ℕ) (v : UInt8) :
    orAt (pre ++ out) (pre.length + k) v = (pre ++ ·) <$> orAt out k v := by
  rw [orAt, orAt, byteAt_append]
  cases byteAt out k with
  | error e => rfl
  | ok b => exact congrArg Except.ok (set_append_length out k _)

theorem setAt_append (out : Bytes) (k : ℕ) (v : UInt8) :
    setAt (pre ++ out) (pre.length + k) v = (pre ++ ·) <$> setAt out k v := by
  rw [setAt, setAt, byteAt_append]
  cases byteAt out k with
  | error e => rfl
  | ok b => exact congrArg Except.ok (set_append_length out k v)

theorem copyAt_append (out : Bytes) (k : ℕ) (src : Bytes) :
    copyAt (pre ++ out) (pre.length + k) src = (pre ++ ·) <$> copyAt out k src := by
  have htake : (pre ++ out).take (pre.length + k) = pre ++ out.take k := by
    rw [List.take_append, List.take_of_length_le (Nat.le_add_right _ _), Nat.add_sub_cancel_left]
  have hdrop : (pre ++ out).drop (pre.length + k + src.length) = out.drop (k + src.length) := by
    rw [List.drop_append, List.drop_of_length_le (by omega), List.nil_append]
    congr 1
    omega
  rw [copyAt, copyAt, slice, slice]
  by_cases h : k + src.length ≤ out.length
  · rw [if_pos ⟨Nat.le_add_right _ _, by rw [List.length_append]; omega⟩,
      if_pos ⟨Nat.le_add_right _ _, h⟩]
    refine congrArg Except.ok ?_
    rw [htake, hdrop]
    simp only [List.append_assoc]
  · rw [if_neg (by rw [List.length_append]; omega), if_neg (by omega)]
    rfl

theorem splatOnesInto_append (out : Bytes) (row endRow : ℕ) :
    splatOnesInto (pre ++ out) pre.length row endRow = (pre ++ ·) <$> splatOnes out row endRow := by
  obtain ⟨n, hn⟩ : ∃ n, endRow - row = n := ⟨_, rfl⟩
  induction n using Nat.strong_induction_on generalizing out row with
  | _ n ih =>
    rw [splatOnesInto, splatOnes]
    split
    · split
      · rw [orAt_append]
        cases orAt out (row / 8) (1 <<< UInt8.ofNat (row % 8)) with
        | error e => rfl
        | ok out' => exact ih _ (by omega) out' (row + 1) rfl
      · rw [setAt_append]
        cases setAt out (row / 8) 0xFF with
        | error e => rfl
        | ok out' => exact ih _ (by omega) out' (row + 8) rfl
    · rfl

theorem foldlM_append {f g : Bytes → ℕ → Res CodecError Bytes}
    (h : ∀ out i, f (pre ++ out) i = (pre ++ ·) <$> g out i) (is : List ℕ) (out : Bytes) :
    is.foldlM f (pre ++ out) = (pre ++ ·) <$> is.foldlM g out := by
  induction is generalizing out with
  | nil => rfl
  | cons i is ih =>
    rw [List.foldlM_cons, List.foldlM_cons, h]
    cases g out i with
    | error e => rfl
    | ok out' => exact ih out'

theorem predicatePackedInto_append (bitWidth : UInt8) (mask : Bytes) (emitted : ℕ)
    (out chunk : Bytes) (n : ℕ) :
    predicatePackedInto bitWidth mask pre.length emitted (pre ++ out) chunk n
      = (pre ++ ·) <$> predicatePacked bitWidth mask emitted out chunk n := by
  rw [predicatePackedInto, predicatePacked]
  cases fusedBitmapChunk chunk bitWidth n mask with
  | error e => rfl
  | ok tmp =>
    simp only [ok_bind]
    split
    · exact copyAt_append out _ tmp
    · refine foldlM_append (fun out i => ?_) _ out
      cases byteAt tmp (i / 8) with
      | error e => rfl
      | ok b => exact orAt_append out _ _

theorem predicateRunInto_append (required : ℕ) (mask : Bytes) (emitted : ℕ)
    (out valueChunk : Bytes) (n : ℕ) :
    predicateRunInto required mask pre.length emitted (pre ++ out) valueChunk n
      = (pre ++ ·) <$> predicateRun required mask emitted out valueChunk n := by
  rw [predicateRunInto, predicateRun]
  split
  · rfl
  · cases byteAt mask (rleIndex valueChunk).toNat with
    | error e => rfl
    | ok bit =>
      simp only [ok_bind]
      split
      · exact splatOnesInto_append out _ _
      · rfl

/-- Handlers that write behind `pre` only. -/
theorem hybridFold_append {bw n : ℕ} {onPacked onRle onPacked' onRle' :
      ℕ → Bytes → Bytes → ℕ → Res CodecError Bytes}
    (hpacked : ∀ e out chunk m,
      onPacked' e (pre ++ out) chunk m = (pre ++ ·) <$> onPacked e out chunk m)
    (hrle : ∀ e out chunk m, onRle' e (pre ++ out) chunk m = (pre ++ ·) <$> onRle e out chunk m)
    (out bytes : Bytes) :
    ((hybridFold bw n onPacked' onRle').run (0, pre ++ out)).run bytes
      = (fun r => (pre ++ r.1, r.2)) <$>
        ((hybridFold bw n onPacked onRle).run (0, out)).run bytes := by
  refine @Loop.run_map _ _ _ (hybridFold bw n onPacked onRle) _ _
    (hybridFold bw n onPacked' onRle') (fun s => (s.1, pre ++ s.2)) (pre ++ ·) (fun _ => True)
    ?_ (fun _ _ => trivial) (0, out) bytes trivial
  rintro ⟨e, out⟩ bs -
  simp only [hybridFold]
  by_cases he : e < n
  · rw [if_pos he, if_pos he, Reader.run_bind, Reader.run_bind]
    cases (wire readUvarint).run bs with
    | error e => rfl
    | ok r =>
      obtain ⟨header, mid⟩ := r
      dsimp only
      by_cases hbit : header &&& 1 = 1
      · rw [if_pos hbit, if_pos hbit, Reader.run_bind, Reader.run_bind]
        cases (wire (take _)).run mid with
        | error e => rfl
        | ok r =>
          obtain ⟨chunk, mid'⟩ := r
          dsimp only
          rw [hpacked]
          cases onPacked e out chunk _ <;> rfl
      · rw [if_neg hbit, if_neg hbit, Reader.run_bind, Reader.run_bind]
        cases (wire (take _)).run mid with
        | error e => rfl
        | ok r =>
          obtain ⟨chunk, mid'⟩ := r
          dsimp only
          rw [hrle]
          cases onRle e out chunk _ <;> rfl
  · rw [if_neg he, if_neg he]
    rfl

end

/-- **The bitmap is written behind `out`**, and `out` stays as it was. -/
theorem decodeRleDictionaryPredicateBitmapInto_eq (body : Bytes) (n : ℕ) (mask out : Bytes) :
    decodeRleDictionaryPredicateBitmapInto body n mask out
      = (out ++ ·) <$> decodeRleDictionaryPredicateBitmap body n mask := by
  rw [decodeRleDictionaryPredicateBitmapInto.eq_def, decodeRleDictionaryPredicateBitmap.eq_def]
  cases body with
  | nil => rfl
  | cons bitWidth bytes =>
    dsimp only
    split
    · rfl
    split
    · rfl
    split
    · rfl
    split
    · exact congrArg Except.ok (List.append_nil out).symm
    split
    · cases byteAt mask 0 with
      | error e => rfl
      | ok bit =>
        simp only [ok_bind]
        split
        · exact splatOnesInto_append _ _ _
        · rfl
    · rw [hybridFold_append (predicatePackedInto_append bitWidth mask)
        (predicateRunInto_append (requiredMask bitWidth) mask)]
      cases ((hybridFold bitWidth.toNat n _ _).run _).run bytes <;> rfl

/-- A decoder that returned was given a mask long enough for the width. -/
theorem coversWidth_of_ok {body mask bitmap : Bytes} {n : ℕ}
    (h : decodeRleDictionaryPredicateBitmap body n mask = .ok bitmap) : CoversWidth mask body := by
  rintro bitWidth bytes rfl
  rw [decodeRleDictionaryPredicateBitmap.eq_def] at h
  dsimp only at h
  split at h
  · cases h
  split at h
  · cases h
  split at h
  · cases h
  · next hlen => exact Nat.not_lt.mp hlen

/-- The indices that the predicate decoder accepts fit the width. -/
theorem pageIndices_lt {bitWidth : UInt8} {bytes : Bytes} {n : ℕ} {indices : List UInt32}
    (h : pageIndices (bitWidth :: bytes) n = .ok indices) :
    ∀ v ∈ indices, v.toNat < requiredMask bitWidth := by
  rw [pageIndices.eq_def] at h
  dsimp only at h
  by_cases hwide : 32 ≤ bitWidth
  · rw [if_pos hwide] at h
    cases h
  have hle : bitWidth ≤ 32 := UInt8.le_of_lt (UInt8.not_le.mp hwide)
  rw [if_neg hwide] at h
  by_cases hzero : n = 0
  · rw [if_pos hzero] at h
    cases h
    simp
  rw [if_neg hzero] at h
  by_cases hbw0 : bitWidth = 0
  · subst hbw0
    rw [if_pos rfl] at h
    cases h
    intro v hv
    rw [List.eq_of_mem_replicate hv]
    decide
  rw [if_neg hbw0] at h
  have hself : List.Forall₂ (fun v w : UInt32 => v = w ∧ v.toNat < requiredMask bitWidth)
      indices indices := by
    refine hybridDecode_related (fun hvs hws => ?_) (fun _ hvs hws => ?_) h h
    · obtain rfl := Except.ok.inj (hvs.symm.trans hws)
      exact List.forall₂_same.mpr fun v hv => ⟨rfl, unpackIndices_lt hle hbw0 hvs v hv⟩
    · obtain ⟨hlt, rfl⟩ := widthCheckedRun_eq_ok.mp hvs
      obtain ⟨-, rfl⟩ := widthCheckedRun_eq_ok.mp hws
      refine List.forall₂_same.mpr fun v hv => ⟨rfl, ?_⟩
      rwa [List.eq_of_mem_replicate hv]
  exact fun v hv => (List.forall₂_same.mp hself v hv).2

/-- **The bitmap, row by row**: `⌈n / 8⌉` bytes behind what `out` held, with the
    mask's entry at the index of each row, and zeros after the last row. -/
theorem predicateBitmapInto_exact {body mask out final : Bytes} {n : ℕ} (hmask : IsMask mask)
    (h : decodeRleDictionaryPredicateBitmapInto body n mask out = .ok final) :
    ∃ bitmap indices, final = out ++ bitmap ∧ bitmap.length = divCeil n 8 ∧
      decodeRleDictionaryIndices body n = .ok indices ∧ indices.length = n ∧
      (∀ i idx, indices[i]? = some idx →
        ∃ b, mask[idx.toNat]? = some b ∧ bitmapBit bitmap i = .ok (b == 1)) ∧
      ∀ i, n ≤ i → i < 8 * bitmap.length → bitmapBit bitmap i = .ok false := by
  rw [decodeRleDictionaryPredicateBitmapInto_eq] at h
  obtain ⟨bitmap, hbitmap, rfl⟩ := map_eq_ok.mp h
  have hcover := coversWidth_of_ok hbitmap
  rw [predicateBitmap_eq hmask hcover] at hbitmap
  obtain ⟨indices, hpage, rfl⟩ := map_eq_ok.mp hbitmap
  obtain ⟨hindices, hlength⟩ := decodeRleDictionaryIndices_of_pageIndices hpage
  have hlen := length_pageBitmap mask n indices
  have hceil : divCeil n 8 = (n + 7) / 8 := rfl
  refine ⟨_, indices, rfl, hlen, hindices, hlength, fun i idx hi => ?_, fun i hi hlt => ?_⟩
  · have hlt : i < n := hlength ▸ (List.getElem?_eq_some_iff.mp hi).1
    have hidx : idx.toNat < mask.length := by
      cases body with
      | nil => cases hpage
      | cons bitWidth bytes =>
        exact (pageIndices_lt hpage idx (List.mem_of_getElem? hi)).trans_le (hcover _ _ rfl)
    refine ⟨mask[idx.toNat], List.getElem?_eq_getElem hidx, ?_⟩
    rw [bitmapBit_eq _ (by omega), pageBitmap, testBit_bitmapOf, rowPasses, hi, Option.any_some,
      passes, List.getElem?_eq_getElem hidx, decide_eq_true hlt]
    rfl
  · rw [bitmapBit_eq _ hlt, pageBitmap, testBit_bitmapOf, decide_eq_false (Nat.not_lt.mpr hi)]
    rfl

/-- An RLE run of three rows, then a bit-packed run that starts inside a byte. -/
theorem predicateBitmapInto_exact_unaligned :
    ∃ bitmap indices, ([0xAA, 0x57] : Bytes) = [0xAA] ++ bitmap ∧ bitmap.length = divCeil 8 8 ∧
      decodeRleDictionaryIndices [2, 6, 1, 3, 0xE4, 0xE4] 8 = .ok indices ∧ indices.length = 8 ∧
      (∀ i idx, indices[i]? = some idx →
        ∃ b, ([0, 1, 0, 1] : Bytes)[idx.toNat]? = some b ∧ bitmapBit bitmap i = .ok (b == 1)) ∧
      ∀ i, 8 ≤ i → i < 8 * bitmap.length → bitmapBit bitmap i = .ok false :=
  @predicateBitmapInto_exact [2, 6, 1, 3, 0xE4, 0xE4] [0, 1, 0, 1] [0xAA] [0xAA, 0x57] 8
    (by simp [IsMask]) (by decide +kernel)

/-! ## Gathering -/

theorem selectFrom_eq_filter {bit : ℕ → Bool} (pos k : ℕ) (vs : List α) :
    selectFrom bit (pos + k) vs
      = ((vs.zipIdx k).filter fun v => bit (pos + v.2)).map Prod.fst := by
  induction vs generalizing k with
  | nil => rfl
  | cons v vs ih =>
    rw [selectFrom, List.zipIdx_cons, List.filter_cons, Nat.add_assoc, ih (k + 1)]
    cases bit (pos + k) <;> simp

/-- **Gathering at a bitmap** appends the values `v[i]` of the full decode with
    bit `bitmapOffset + i` set, in order, whatever the alignment. -/
theorem gatherDictAtBitmap_filters {body bitmap : Bytes} {n bitmapOffset : ℕ} {dict vs : List α}
    (hcover : bitmapOffset + n ≤ 8 * bitmap.length)
    (h : decodeRleDictionary body dict n = .ok vs) :
    gatherDictAtBitmap body n bitmap bitmapOffset dict
      = .ok ((vs.zipIdx.filter fun v => (leNat bitmap).testBit (bitmapOffset + v.2)).map
          Prod.fst) := by
  rw [(gatherDictAtBitmap_eq hcover h).1, ← selectFrom_eq_filter bitmapOffset 0 vs, Nat.add_zero]

/-- The bitmap starts inside a byte, and so does the second run of the page. -/
theorem gatherDictAtBitmap_filters_unaligned :
    gatherDictAtBitmap [2, 6, 1, 3, 0xE4, 0xE4] 8 [0x50, 0x0F] 4 [10, 20, 30, 40]
      = .ok ((([20, 20, 20, 10, 20, 30, 40, 10] : List ℕ).zipIdx.filter fun v =>
          (leNat [0x50, 0x0F]).testBit (4 + v.2)).map Prod.fst) :=
  gatherDictAtBitmap_filters (by decide) (by decide +kernel)

end EmatixParquet
