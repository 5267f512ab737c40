/-
  Tagged rowsets (`index/rowset.rs`) — the rows of a page, as a bitmap or as a
  list, whichever is shorter.

  * `setRows_eq`: setting rows one after the other sets their bits;
  * `encodeTagged_shorter`: which of the two forms is chosen;
  * `rowset_preserved`: both are read back as the bitmap of the positions.
-/
import EmatixParquet.Codec.Predicate
import EmatixParquet.Io.File

namespace EmatixParquet

open Wire

/-- `TAG_BITMAP`. -/
def tagBitmap : UInt8 := 0x00

/-- `TAG_SPARSE`. -/
def tagSparse : UInt8 := 0x01

/-- The manifest key of a sidecar decides. -/
inductive RowsetFormat where
  | v1Raw | v2Tagged
  deriving DecidableEq, Repr

/-- `bits[r / 8] |= 1 << (r % 8)`. -/
def setRow (bits : Bytes) (r : ℕ) : Res CodecError Bytes :=
  orAt bits (r / 8) (1 <<< UInt8.ofNat (r % 8))

/-- The sparse form: two counts, then the rows. -/
def sparseForm (positions : List UInt32) (numPageValues : ℕ) : Bytes :=
  tagSparse :: (leBytes 4 numPageValues ++ (leBytes 4 positions.length
    ++ positions.flatMap fun p => leBytes 4 p.toNat))

/-- The dense form: a bit for each row of the page. -/
def denseForm (positions : List UInt32) (numPageValues : ℕ) : Res CodecError Bytes :=
  (tagBitmap :: ·) <$> (positions.map (·.toNat)).foldlM setRow
    (List.replicate (divCeil numPageValues 8) 0)

/-- `encode_tagged`: the sparse form where it is shorter. -/
def encodeTagged (positions : List UInt32) (numPageValues : ℕ) : Res CodecError Bytes :=
  if 1 + 4 + 4 + 4 * positions.length < 1 + divCeil numPageValues 8 then
    .ok (sparseForm positions numPageValues)
  else denseForm positions numPageValues

/-- One row of a sparse rowset. -/
def sparseStep (npv : ℕ) (bm : Bytes) (r : ℕ) : Res CodecError Bytes :=
  if npv ≤ r then codecErr (.invalidInput s!"v2 sparse rowset row {r} out of page range {npv}")
  else setRow bm r

/-- The rows of a sparse rowset, from its tenth byte on. -/
def storedRows (count : ℕ) (rows : Bytes) : List ℕ :=
  (List.range count).map fun i => leNat ((rows.drop (4 * i)).take 4)

/-- The bitmap of a sparse form, whose lengths are checked first. -/
def sparseToBitmap (bytes : Bytes) : Res CodecError Bytes :=
  if bytes.length < 9 then
    codecErr (.invalidInput s!"v2 sparse rowset truncated: {bytes.length} bytes")
  else
    let npv := leNat ((bytes.drop 1).take 4)
    let count := leNat ((bytes.drop 5).take 4)
    if bytes.length ≠ 9 + 4 * count then codecErr (.invalidInput
      s!"v2 sparse rowset length mismatch: {bytes.length} bytes for count={count}")
    else (storedRows count (bytes.drop 9)).foldlM (sparseStep npv)
      (List.replicate (divCeil npv 8) 0)

/-- `{tag:#04x}`. -/
def hexTag (tag : UInt8) : String :=
  "0x" ++ String.ofList [(tag.toNat / 16).digitChar, (tag.toNat % 16).digitChar]

/-- `to_bitmap`. -/
def toBitmap (bytes : Bytes) : RowsetFormat → Res CodecError Bytes
  | .v1Raw => .ok bytes
  | .v2Tagged =>
    match bytes with
    | [] => codecErr (.invalidInput "v2 rowset is empty")
    | tag :: rest =>
      if tag = tagBitmap then .ok rest
      else if tag = tagSparse then sparseToBitmap bytes
      else codecErr (.invalidInput s!"v2 rowset has unknown tag {hexTag tag}")

/-! ## Bits -/

/-- **Rows set one after the other**, by induction on them. -/
theorem setRows_eq {rows : List ℕ} {bits : Bytes} (h : ∀ r ∈ rows, r < 8 * bits.length) :
    ∃ out, rows.foldlM setRow bits = .ok out ∧ out.length = bits.length ∧
      ∀ r, (leNat out).testBit r = ((leNat bits).testBit r || decide (r ∈ rows)) := by
  induction rows generalizing bits with
  | nil => exact ⟨bits, rfl, rfl, fun r => by simp⟩
  | cons r₀ rows ih =>
    obtain ⟨mid, hmid, hlen, hbits⟩ :=
      orAt_bit (h r₀ List.mem_cons_self) (Or.inr (rfl : (1 : UInt8) = 1))
    have hrest : ∀ r ∈ rows, r < 8 * mid.length := by
      intro r hr
      rw [hlen]
      exact h r (List.mem_cons_of_mem _ hr)
    obtain ⟨out, hout, hlen', hbits'⟩ := ih hrest
    refine ⟨out, ?_, hlen'.trans hlen, fun r => ?_⟩
    · rw [List.foldlM_cons, setRow, hmid]
      exact hout
    · rw [hbits', hbits]
      simp [Bool.or_assoc]

/-- Rows set in an empty bitmap of `n` bits. -/
theorem setRows_replicate {rows : List ℕ} {n : ℕ} (h : ∀ r ∈ rows, r < n) :
    rows.foldlM setRow (List.replicate (divCeil n 8) 0)
      = .ok (bitmapOf n fun r => decide (r ∈ rows)) := by
  have hlen : (List.replicate (divCeil n 8) (0 : UInt8)).length = (n + 7) / 8 := by
    rw [List.length_replicate]
    rfl
  have hbound : ∀ r ∈ rows, r < 8 * (List.replicate (divCeil n 8) (0 : UInt8)).length := by
    intro r hr
    have := h r hr
    omega
  obtain ⟨out, hout, hlength, hbits⟩ := setRows_eq hbound
  rw [hout]
  refine congrArg _ (eq_bitmapOf (hlength.trans hlen) fun r => ?_)
  rw [hbits, leNat_replicate_zero, Nat.zero_testBit, Bool.false_or]
  by_cases hr : r ∈ rows
  · simp [hr, h r hr]
  · simp [hr]

/-! ## Both forms -/

theorem storedRows_eq (positions : List UInt32) :
    storedRows positions.length (positions.flatMap fun p => leBytes 4 p.toNat)
      = positions.map (·.toNat) := by
  refine List.ext_getElem (by simp [storedRows]) fun i hi hi' => ?_
  rw [List.length_map] at hi'
  have hdrop : (positions.flatMap fun p => leBytes 4 p.toNat).drop (4 * i)
      = leBytes 4 positions[i].toNat ++ (positions.drop (i + 1)).flatMap fun p => leBytes 4 p.toNat := by
    conv_lhs => rw [← List.take_append_drop i positions, List.flatMap_append,
      List.drop_eq_getElem_cons hi', List.flatMap_cons]
    refine List.drop_left' ?_
    simp [List.length_flatMap, Nat.min_eq_left hi'.le, Nat.mul_comm]
  have hlt : positions[i].toNat < 256 ^ 4 := positions[i].toNat_lt
  simp only [storedRows, List.getElem_map, List.getElem_range]
  rw [hdrop, List.take_left' (length_leBytes 4 _), leNat_leBytes, Nat.mod_eq_of_lt hlt]

theorem length_sparseForm (positions : List UInt32) (n : ℕ) :
    (sparseForm positions n).length = 9 + 4 * positions.length := by
  simp [sparseForm, List.length_flatMap, Nat.mul_comm]
  omega

theorem sparseToBitmap_sparseForm {positions : List UInt32} {n : ℕ} (hn : n < 2 ^ 32)
    (hcount : positions.length < 2 ^ 32) (h : ∀ p ∈ positions, p.toNat < n) :
    sparseToBitmap (sparseForm positions n)
      = .ok (bitmapOf n fun r => decide (r ∈ positions.map (·.toNat))) := by
  have hpow : (256 : ℕ) ^ 4 = 2 ^ 32 := rfl
  have hlen := length_sparseForm positions n
  have hnpv : leNat (((sparseForm positions n).drop 1).take 4) = n := by
    rw [sparseForm, List.drop_one, List.tail_cons, List.take_left' (length_leBytes 4 _),
      leNat_leBytes, Nat.mod_eq_of_lt (by omega)]
  have hstored : leNat (((sparseForm positions n).drop 5).take 4) = positions.length := by
    have hdrop : (sparseForm positions n).drop 5
        = leBytes 4 positions.length ++ positions.flatMap fun p => leBytes 4 p.toNat := by
      change ((_ ++ _ : Bytes)).drop 4 = _
      exact List.drop_left' (length_leBytes 4 _)
    rw [hdrop, List.take_left' (length_leBytes 4 _), leNat_leBytes, Nat.mod_eq_of_lt (by omega)]
  have hrows : (sparseForm positions n).drop 9 = positions.flatMap fun p => leBytes 4 p.toNat := by
    change ((_ ++ (_ ++ _) : Bytes)).drop 8 = _
    rw [← List.append_assoc]
    exact List.drop_left' (by simp)
  have hstep : ∀ bm, ∀ r ∈ positions.map (·.toNat), sparseStep n bm r = setRow bm r := by
    intro bm r hr
    obtain ⟨p, hp, rfl⟩ := List.mem_map.mp hr
    rw [sparseStep, if_neg (by have := h p hp; omega)]
  rw [sparseToBitmap, if_neg (by omega)]
  dsimp only
  rw [hnpv, hstored, if_neg (by omega), hrows, storedRows_eq, foldlM_congr hstep]
  refine setRows_replicate fun r hr => ?_
  obtain ⟨p, hp, rfl⟩ := List.mem_map.mp hr
  exact h p hp

/-- The rows of a page, as the encoder is given them. -/
def rowsetBitmap (positions : List UInt32) (n : ℕ) : Bytes :=
  bitmapOf n fun r => decide (r ∈ positions.map (·.toNat))

theorem denseForm_eq {positions : List UInt32} {n : ℕ} (h : ∀ p ∈ positions, p.toNat < n) :
    denseForm positions n = .ok (tagBitmap :: rowsetBitmap positions n) := by
  have hset : (positions.map (·.toNat)).foldlM setRow (List.replicate (divCeil n 8) 0)
      = .ok (rowsetBitmap positions n) := by
    refine setRows_replicate fun r hr => ?_
    obtain ⟨p, hp, rfl⟩ := List.mem_map.mp hr
    exact h p hp
  rw [denseForm, hset]
  rfl

theorem toBitmap_sparseForm {positions : List UInt32} {n : ℕ} (hn : n < 2 ^ 32)
    (hcount : positions.length < 2 ^ 32) (h : ∀ p ∈ positions, p.toNat < n) :
    toBitmap (sparseForm positions n) .v2Tagged = .ok (rowsetBitmap positions n) := by
  have htag : toBitmap (sparseForm positions n) .v2Tagged
      = sparseToBitmap (sparseForm positions n) := by
    rw [sparseForm, toBitmap, if_neg (by decide), if_pos rfl]
  rw [htag]
  exact sparseToBitmap_sparseForm hn hcount h

/-- The encoding is one of the two forms, and the other is no shorter. -/
theorem encodeTagged_shorter {positions : List UInt32} {n : ℕ} (h : ∀ p ∈ positions, p.toNat < n) :
    ∃ bytes, encodeTagged positions n = .ok bytes ∧
      (bytes = tagBitmap :: rowsetBitmap positions n ∨ bytes = sparseForm positions n) ∧
      bytes.length ≤ (tagBitmap :: rowsetBitmap positions n).length ∧
      bytes.length ≤ (sparseForm positions n).length := by
  have hceil : divCeil n 8 = (n + 7) / 8 := rfl
  have hdense : (tagBitmap :: rowsetBitmap positions n).length = 1 + divCeil n 8 := by
    rw [List.length_cons, rowsetBitmap, length_bitmapOf]
    omega
  rw [encodeTagged, denseForm_eq h]
  split
  · next hshort =>
    refine ⟨_, rfl, .inr rfl, ?_, le_rfl⟩
    rw [hdense, length_sparseForm]
    omega
  · next hlong =>
    refine ⟨_, rfl, .inl rfl, le_rfl, ?_⟩
    rw [hdense, length_sparseForm]
    omega

/-- Rows below `2 ^ 32` that are all different are fewer than that. -/
theorem length_le_of_nodup {positions : List UInt32} {n : ℕ} (hdistinct : positions.Nodup)
    (h : ∀ p ∈ positions, p.toNat < n) : positions.length ≤ n := by
  have hnodup : (positions.map (·.toNat)).Nodup :=
    hdistinct.map fun _ _ heq => UInt32.toNat_inj.mp heq
  have hsub : positions.map (·.toNat) ⊆ List.range n := by
    intro r hr
    obtain ⟨p, hp, rfl⟩ := List.mem_map.mp hr
    exact List.mem_range.mpr (h p hp)
  have hle := (List.subperm_of_subset hnodup hsub).length_le
  rwa [List.length_map, List.length_range] at hle

/-- Bit `r` of a packed bitmap is set. -/
def IsSet (bitmap : Bytes) (r : ℕ) : Prop :=
  ∃ b, bitmap[r / 8]? = some b ∧ b.toNat.testBit (r % 8) = true

theorem isSet_iff {bitmap : Bytes} {r : ℕ} :
    IsSet bitmap r ↔ (leNat bitmap).testBit r = true := by
  rw [IsSet, testBit_bytes]
  cases bitmap[r / 8]? with
  | none => simp
  | some b => simp

/-- **Tagged rowsets** keep the set of rows: the encoding is one of the two forms
    and no longer than the other, and both are read back as the bitmap with
    exactly the bits of the positions. -/
theorem rowset_preserved {positions : List UInt32} {n : ℕ} (hn : n < 2 ^ 32)
    (hdistinct : positions.Nodup) (h : ∀ p ∈ positions, p.toNat < n) :
    ∃ bytes dense bitmap, encodeTagged positions n = .ok bytes ∧
      denseForm positions n = .ok dense ∧
      (bytes = dense ∨ bytes = sparseForm positions n) ∧
      bytes.length ≤ dense.length ∧ bytes.length ≤ (sparseForm positions n).length ∧
      (∀ form ∈ [bytes, dense, sparseForm positions n], toBitmap form .v2Tagged = .ok bitmap) ∧
      bitmap.length = divCeil n 8 ∧ ∀ r, IsSet bitmap r ↔ ∃ p ∈ positions, p.toNat = r := by
  obtain ⟨bytes, hrun, hform, hdense, hsparse⟩ := encodeTagged_shorter h
  have hread := toBitmap_sparseForm hn ((length_le_of_nodup hdistinct h).trans_lt hn) h
  refine ⟨bytes, _, rowsetBitmap positions n, hrun, denseForm_eq h, hform, hdense, hsparse, ?_, ?_,
    fun r => ?_⟩
  · intro form hmem
    simp only [List.mem_cons, List.not_mem_nil, or_false] at hmem
    rcases hmem with rfl | rfl | rfl
    · rcases hform with rfl | rfl
      · rfl
      · exact hread
    · rfl
    · exact hread
  · rw [rowsetBitmap, length_bitmapOf]
    rfl
  · rw [isSet_iff, rowsetBitmap, testBit_bitmapOf, Bool.and_eq_true, decide_eq_true_eq,
      decide_eq_true_eq, List.mem_map]
    constructor
    · exact fun hr => hr.2
    · rintro ⟨p, hp, rfl⟩
      exact ⟨h p hp, p, hp, rfl⟩

/-- Three rows of 200 are stored one by one, out of order. -/
theorem rowset_preserved_three : ∃ bytes dense bitmap,
    encodeTagged [17, 0, 3] 200 = .ok bytes ∧ denseForm [17, 0, 3] 200 = .ok dense ∧
      (bytes = dense ∨ bytes = sparseForm [17, 0, 3] 200) ∧
      bytes.length ≤ dense.length ∧ bytes.length ≤ (sparseForm [17, 0, 3] 200).length ∧
      (∀ form ∈ [bytes, dense, sparseForm [17, 0, 3] 200],
        toBitmap form .v2Tagged = .ok bitmap) ∧
      bitmap.length = divCeil 200 8 ∧
      ∀ r, IsSet bitmap r ↔ ∃ p ∈ ([17, 0, 3] : List UInt32), p.toNat = r :=
  rowset_preserved (by decide) (by decide) (by decide)

end EmatixParquet
