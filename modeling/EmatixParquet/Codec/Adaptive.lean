/-
  The adaptive predicate runner (`adaptive.rs`): the predicate kernel on the
  first pages of a chunk, then bitmaps or values depending on the share of rows
  that passed.

  The bitmaps of the pages are concatenated byte by byte, although a page's
  last byte may be padded: the bits of a chunk are its rows only as long as
  every page that is followed by rows has a multiple of 8 of them
  (`BytesAligned`).

  * `probeAll_eq`: the fused loop concatenates the bitmaps of the pages' indices
    and counts the rows that pass;
  * `materialiseAll_eq`: the other loop keeps the values of the rows that pass;
  * `chunkBitmap_of_aligned`, `exists_misplaced_row`: where the bits of the
    concatenation are;
  * `runAdaptiveDictChunk_correct_iff`: the page lists on which every run is
    correct.
-/
import EmatixParquet.Codec.Predicate
import Mathlib.Data.Rat.Defs
import Mathlib.Algebra.Order.Ring.Unbundled.Rat

namespace EmatixParquet

open Wire

variable {α : Type}

/-! ## Single-precision numbers -/

/-- A number of type `f32`.  The comparisons below do not tell the zeros apart. -/
inductive F32 where
  | nan
  | inf (negative : Bool)
  | finite (value : ℚ)

/-- `f32::from_bits`. -/
def F32.ofBits (bits : UInt32) : F32 :=
  let negative := bits >>> 31 == 1
  let exponent := ((bits >>> 23) &&& 0xFF).toNat
  let fraction := (bits &&& 0x7FFFFF).toNat
  if exponent = 255 then if fraction = 0 then .inf negative else .nan
  else
    -- the unit of the last place is `2 ^ (max exponent 1 - 150)`
    let significand := if exponent = 0 then fraction else 2 ^ 23 + fraction
    let magnitude := mkRat (significand * 2 ^ (max exponent 1 - 150)) (2 ^ (150 - max exponent 1))
    .finite (if negative then -magnitude else magnitude)

/-- The 24-bit number nearest to `q`, the even one of two.  For the counts of
    rows below and their quotients, which are in the normal range. -/
def roundF32 (q : ℚ) : ℚ :=
  let num := q.num.toNat
  if num = 0 then 0
  else
    let guess : ℤ := num.log2 - q.den.log2
    let tooBig := num * 2 ^ (-guess).toNat < q.den * 2 ^ guess.toNat
    let shift : ℤ := 23 - (if tooBig then guess - 1 else guess)
    let scaled := num * 2 ^ shift.toNat
    let unit := q.den * 2 ^ (-shift).toNat
    let low := scaled / unit
    let rest := scaled % unit
    let nearest := if 2 * rest < unit ∨ (2 * rest = unit ∧ low % 2 = 0) then low else low + 1
    mkRat (nearest * 2 ^ (-shift).toNat) (2 ^ shift.toNat)

/-- `selectivity > threshold`, for a finite selectivity. -/
def exceeds (selectivity : ℚ) : F32 → Bool
  | .nan => false
  | .inf negative => negative
  | .finite threshold => decide (threshold < selectivity)

/-! ## The runner -/

/-- What is done with the pages after the probe. -/
inductive Dispatch where
  | fused
  | materialized
  deriving DecidableEq, Repr

/-- What a probe has counted. -/
structure PageProbe where
  rowsIn : ℕ
  rowsPassed : ℕ
  deriving DecidableEq, Repr

/-- The share of the rows that passed, in `f32`; none of no rows. -/
def PageProbe.selectivity (p : PageProbe) : ℚ :=
  if p.rowsIn = 0 then 0 else roundF32 (roundF32 p.rowsPassed / roundF32 p.rowsIn)

/-- The threshold is given by its bits. -/
structure AdaptiveDictPredicate where
  dictMask : Bytes
  threshold : UInt32
  probePages : ℕ

namespace AdaptiveDictPredicate

/-- `0.10`. -/
def defaultThreshold : UInt32 := 0x3DCCCCCD

/-- `DEFAULT_PROBE_PAGES`. -/
def defaultProbePages : ℕ := 3

/-- `AdaptiveDictPredicate::new`. -/
def new (dictMask : Bytes) : AdaptiveDictPredicate where
  dictMask := dictMask
  threshold := defaultThreshold
  probePages := defaultProbePages

/-- Values when more than the threshold passed, the fused bitmap otherwise. -/
def dispatchFor (cfg : AdaptiveDictPredicate) (aggregated : PageProbe) : Dispatch :=
  if exceeds aggregated.selectivity (F32.ofBits cfg.threshold) then .materialized else .fused

end AdaptiveDictPredicate

/-- `popcount_bitmap_prefix`. -/
def popcountBitmapPrefix (bitmap : Bytes) (numBits : ℕ) : Res CodecError ℕ :=
  if numBits = 0 then .ok 0
  else do
    let full ← slice bitmap 0 (numBits / 8)
    let acc := (full.map countOnes).sum
    if numBits % 8 ≠ 0 then
      let b ← byteAt bitmap (numBits / 8)
      pure (acc + countOnes (b &&& ((1 <<< UInt8.ofNat (numBits % 8)) - 1)))
    else pure acc

/-- `probe_page_fused`: the bitmap it appends, and the reading. -/
def probePageFused (body : Bytes) (numValues : ℕ) (dictMask : Bytes) :
    Res CodecError (Bytes × PageProbe) := do
  let bitmap ← decodeRleDictionaryPredicateBitmap body numValues dictMask
  let rowsPassed ← popcountBitmapPrefix bitmap numValues
  pure (bitmap, ⟨numValues, rowsPassed⟩)

/-- A data page of a chunk: its indices and how many there are. -/
structure AdaptivePageInput where
  body : Bytes
  numValues : ℕ

/-- What the chunk is read into. -/
inductive AdaptiveOutputKind (α : Type) where
  | bitmap (bitmap : Bytes) (setBits : ℕ)
  | values (values : List α)
  deriving DecidableEq

/-- The outcome of a chunk, with the dispatch that was taken. -/
structure AdaptiveChunkOutput (α : Type) where
  dispatch : Dispatch
  totalRows : ℕ
  kind : AdaptiveOutputKind α
  deriving DecidableEq

/-- The fused loop over pages: the bitmap and the readings so far. -/
def probeAll (dictMask : Bytes) (acc : Bytes × PageProbe) (pages : List AdaptivePageInput) :
    Res CodecError (Bytes × PageProbe) :=
  pages.foldlM (fun acc page => do
    let p ← probePageFused page.body page.numValues dictMask
    pure (acc.1 ++ p.1, ⟨acc.2.rowsIn + p.2.rowsIn, acc.2.rowsPassed + p.2.rowsPassed⟩)) acc

/-- `values[row]`, pushed when the row's bit is set. -/
def pushPassing (bm : Bytes) (values out : List α) (row : ℕ) : Res CodecError (List α) := do
  if ← bitmapBit bm row then
    match values[row]? with
    | some v => pure (out ++ [v])
    | none => .error (.panic "index out of bounds")
  else pure out

/-- `materialise_filter`. -/
def materialiseFilter (body : Bytes) (numValues : ℕ) (dictMask : Bytes) (values out : List α) :
    Res CodecError (List α) := do
  let bm ← decodeRleDictionaryPredicateBitmap body numValues dictMask
  (List.range numValues).foldlM (pushPassing bm values) out

/-- The materialising loop over pages. -/
def materialiseAll (dict : List α) (dictMask : Bytes) (out : List α)
    (pages : List AdaptivePageInput) : Res CodecError (List α) :=
  pages.foldlM (fun out page => do
    let values ← decodeRleDictionary page.body dict page.numValues
    materialiseFilter page.body page.numValues dictMask values out) out

/-- The rows of all the pages. -/
def totalRows (pages : List AdaptivePageInput) : ℕ := (pages.map (·.numValues)).sum

/-- `run_adaptive_dict_chunk`, without the telemetry. -/
def runAdaptiveDictChunk (pages : List AdaptivePageInput) (dict : List α)
    (cfg : AdaptiveDictPredicate) : Res CodecError (AdaptiveChunkOutput α) :=
  if totalRows pages = 0 then .ok ⟨.fused, 0, .bitmap [] 0⟩
  else do
    let probeEnd := min cfg.probePages pages.length
    let probe ← probeAll cfg.dictMask ([], ⟨0, 0⟩) (pages.take probeEnd)
    match cfg.dispatchFor probe.2 with
    | .fused =>
      let all ← probeAll cfg.dictMask probe (pages.drop probeEnd)
      pure ⟨.fused, totalRows pages, .bitmap all.1 all.2.rowsPassed⟩
    | .materialized =>
      let values ← materialiseAll dict cfg.dictMask [] pages
      pure ⟨.materialized, totalRows pages, .values values⟩

/-! ## Counting bits -/

theorem countBits_congr {bit bit' : ℕ → Bool} {pos pos' n : ℕ}
    (h : ∀ i < n, bit (pos + i) = bit' (pos' + i)) : countBits bit pos n = countBits bit' pos' n :=
  congrArg List.length (List.filter_congr fun i hi => h i (List.mem_range.mp hi))

theorem countBits_eq_zero {bit : ℕ → Bool} {pos n : ℕ} (h : ∀ i < n, bit (pos + i) = false) :
    countBits bit pos n = 0 := by
  rw [countBits, List.length_eq_zero_iff, List.filter_eq_nil_iff]
  intro i hi
  simp [h i (List.mem_range.mp hi)]

/-- The ones of whole bytes. -/
theorem sum_countOnes (bs : Bytes) :
    (bs.map countOnes).sum = countBits (leNat bs).testBit 0 (8 * bs.length) := by
  induction bs with
  | nil => rfl
  | cons b bs ih =>
    have hhead : countOnes b = countBits (leNat (b :: bs)).testBit 0 8 := by
      refine countBits_congr fun i hi => ?_
      have h := testBit_leNat (List.getElem?_cons_zero (a := b) (l := bs)) hi
      simpa using h.symm
    have htail : countBits (leNat bs).testBit 0 (8 * bs.length)
        = countBits (leNat (b :: bs)).testBit (0 + 8) (8 * bs.length) := by
      refine countBits_congr fun i _ => ?_
      have h := testBit_append [b] bs (0 + 8 + i)
      rw [List.singleton_append, if_neg (by simp)] at h
      rw [h]
      simp
    rw [List.map_cons, List.sum_cons, ih, hhead, htail, ← countBits_add, List.length_cons]
    congr 1
    omega

/-- The ones of the low bits of a byte. -/
theorem countOnes_and_low (b : UInt8) {t : ℕ} (ht : t < 8) :
    countOnes (b &&& ((1 <<< UInt8.ofNat t) - 1)) = countBits b.toNat.testBit 0 t := by
  have hpow : 2 ^ t < 2 ^ 8 := Nat.pow_lt_pow_right (by decide) ht
  have hshift : ((1 : UInt8) <<< UInt8.ofNat t).toNat = 2 ^ t := by
    rw [UInt8.toNat_shiftLeft, UInt8.toNat_ofNat_of_lt' (show t < 2 ^ 8 by omega),
      Nat.mod_eq_of_lt ht, UInt8.toNat_one, Nat.shiftLeft_eq, Nat.one_mul, Nat.mod_eq_of_lt hpow]
  have hone : (1 : UInt8) ≤ 1 <<< UInt8.ofNat t := by
    rw [UInt8.le_iff_toNat_le, hshift]
    exact Nat.one_le_two_pow
  have hbit : ∀ i, (b &&& ((1 <<< UInt8.ofNat t) - 1)).toNat.testBit i
      = (b.toNat.testBit i && decide (i < t)) := by
    intro i
    rw [UInt8.toNat_and, UInt8.toNat_sub_of_le _ _ hone, hshift, UInt8.toNat_one, Nat.testBit_and,
      Nat.testBit_two_pow_sub_one]
  have hsplit : countOnes (b &&& ((1 <<< UInt8.ofNat t) - 1))
      = countBits (b &&& ((1 <<< UInt8.ofNat t) - 1)).toNat.testBit 0 (t + (8 - t)) := by
    rw [show t + (8 - t) = 8 by omega]
    rfl
  have hhigh : countBits (b &&& ((1 <<< UInt8.ofNat t) - 1)).toNat.testBit (0 + t) (8 - t) = 0 :=
    countBits_eq_zero fun i _ => by rw [hbit]; simp
  rw [hsplit, countBits_add, hhigh, Nat.add_zero]
  refine countBits_congr fun i hi => ?_
  rw [hbit]
  simp [hi]

theorem popcountBitmapPrefix_eq {bitmap : Bytes} {n : ℕ} (h : n ≤ 8 * bitmap.length) :
    popcountBitmapPrefix bitmap n = .ok (countBits (leNat bitmap).testBit 0 n) := by
  rw [popcountBitmapPrefix]
  by_cases hzero : n = 0
  · subst hzero
    rfl
  rw [if_neg hzero]
  have hfull : ((bitmap.take (n / 8)).map countOnes).sum
      = countBits (leNat bitmap).testBit 0 (8 * (n / 8)) := by
    rw [sum_countOnes, List.length_take_of_le (by omega)]
    refine countBits_congr fun i hi => ?_
    rw [testBit_bytes, testBit_bytes bitmap, List.getElem?_take_of_lt (by omega)]
  refine bind_eq_ok.mpr ⟨bitmap.take (n / 8), by rw [slice_ok (Nat.zero_le _) (by omega)]; rfl, ?_⟩
  dsimp only
  rw [hfull]
  have hn : 8 * (n / 8) + n % 8 = n := Nat.div_add_mod n 8
  by_cases htail : n % 8 = 0
  · rw [if_neg (not_not.mpr htail)]
    rw [htail, Nat.add_zero] at hn
    rw [hn]
    rfl
  · rw [if_pos htail]
    have hk : n / 8 < bitmap.length := by omega
    refine bind_eq_ok.mpr ⟨_, byteAt_eq hk, congrArg Except.ok ?_⟩
    conv_rhs => rw [← hn, countBits_add, Nat.zero_add]
    rw [countOnes_and_low _ (Nat.mod_lt _ (by decide))]
    congr 1
    refine countBits_congr fun i hi => ?_
    rw [Nat.zero_add, testBit_leNat (List.getElem?_eq_getElem hk) (by omega)]

/-- The rows that pass, counted in the bitmap. -/
theorem countBits_rowPasses (mask : Bytes) (indices : List UInt32) :
    countBits (rowPasses mask indices) 0 indices.length
      = (indices.filter (passes mask)).length := by
  induction indices with
  | nil => rfl
  | cons idx indices ih =>
    have hrest : countBits (rowPasses mask (idx :: indices)) (0 + 1) indices.length
        = countBits (rowPasses mask indices) 0 indices.length := by
      refine countBits_congr fun i _ => ?_
      rw [show 0 + 1 + i = i + 1 by omega, Nat.zero_add]
      simp [rowPasses]
    have hhead : rowPasses mask (idx :: indices) 0 = passes mask idx := by simp [rowPasses]
    rw [List.length_cons, countBits_succ, hrest, ih, hhead, List.filter_cons]
    cases passes mask idx
    · simp
    · simp [Nat.add_comm]

/-! ## Pages -/

/-- The indices of the rows of a chunk. -/
def chunkIndices (pages : List AdaptivePageInput) : Res CodecError (List UInt32) :=
  List.flatten <$> pages.mapM fun p => decodeRleDictionaryIndices p.body p.numValues

/-- The predicate decoder accepts the page: every run it meets is whole, and no
    repeated index is beyond what the width can hold. -/
def Accepted (p : AdaptivePageInput) : Prop := ∃ indices, pageIndices p.body p.numValues = .ok indices

/-- The pages hold these indices. -/
abbrev PagesHold (pages : List AdaptivePageInput) (rows : List (List UInt32)) : Prop :=
  List.Forall₂ (fun p indices => pageIndices p.body p.numValues = .ok indices) pages rows

/-- What the fused loop appends: the bitmaps of the pages, one after the other. -/
def chunkBitmap (mask : Bytes) (rows : List (List UInt32)) : Bytes :=
  rows.flatMap fun indices => pageBitmap mask indices.length indices

theorem chunkBitmap_cons (mask : Bytes) (indices : List UInt32) (rows : List (List UInt32)) :
    chunkBitmap mask (indices :: rows)
      = pageBitmap mask indices.length indices ++ chunkBitmap mask rows := List.flatMap_cons

theorem PagesHold.chunkIndices {pages : List AdaptivePageInput} {rows : List (List UInt32)}
    (h : PagesHold pages rows) : chunkIndices pages = .ok rows.flatten :=
  map_eq_ok.mpr ⟨rows, mapM_eq_ok.mpr (h.imp fun _ _ hp =>
    (decodeRleDictionaryIndices_of_pageIndices hp).1), rfl⟩

theorem PagesHold.length_flatten {pages : List AdaptivePageInput} {rows : List (List UInt32)}
    (h : PagesHold pages rows) : rows.flatten.length = totalRows pages := by
  induction h with
  | nil => rfl
  | cons hp _ ih =>
    have hlen := (decodeRleDictionaryIndices_of_pageIndices hp).2
    rw [List.flatten_cons, List.length_append, ih, hlen]
    rfl

theorem PagesHold.accepted {pages : List AdaptivePageInput} {rows : List (List UInt32)}
    (h : PagesHold pages rows) : ∀ p ∈ pages, Accepted p := by
  induction h with
  | nil => simp
  | cons hp _ ih => exact List.forall_mem_cons.mpr ⟨⟨_, hp⟩, ih⟩

theorem exists_pagesHold {pages : List AdaptivePageInput} (h : ∀ p ∈ pages, Accepted p) :
    ∃ rows, PagesHold pages rows := by
  obtain ⟨rows, hrows⟩ := exists_mapM h
  exact ⟨rows, mapM_eq_ok.mp hrows⟩

section
variable {mask : Bytes} (hmask : IsMask mask)
include hmask

/-- A page in the fused loop. -/
theorem probePageFused_eq {body : Bytes} {n : ℕ} {indices : List UInt32}
    (hcover : CoversWidth mask body) (h : pageIndices body n = .ok indices) :
    probePageFused body n mask
      = .ok (pageBitmap mask n indices, ⟨n, (indices.filter (passes mask)).length⟩) := by
  have hlen := (decodeRleDictionaryIndices_of_pageIndices h).2
  have hfits : n ≤ 8 * (pageBitmap mask n indices).length := by
    rw [length_pageBitmap, divCeil]
    omega
  have hcount : countBits (leNat (pageBitmap mask n indices)).testBit 0 n
      = (indices.filter (passes mask)).length := by
    rw [← countBits_rowPasses, hlen]
    refine countBits_congr fun i hi => ?_
    rw [pageBitmap, testBit_bitmapOf]
    simp [hi]
  refine bind_eq_ok.mpr ⟨pageBitmap mask n indices, ?_, bind_eq_ok.mpr
    ⟨_, popcountBitmapPrefix_eq hfits, ?_⟩⟩
  · rw [predicateBitmap_eq hmask hcover, h]
    rfl
  · rw [hcount]
    rfl

theorem accepted_of_bitmap {body bm : Bytes} {n : ℕ} (hcover : CoversWidth mask body)
    (h : decodeRleDictionaryPredicateBitmap body n mask = .ok bm) :
    ∃ indices, pageIndices body n = .ok indices ∧ bm = pageBitmap mask n indices := by
  rw [predicateBitmap_eq hmask hcover] at h
  obtain ⟨indices, hindices, rfl⟩ := map_eq_ok.mp h
  exact ⟨indices, hindices, rfl⟩

/-- **The fused loop** concatenates the bitmaps and counts what passes. -/
theorem probeAll_eq {pages : List AdaptivePageInput} {rows : List (List UInt32)}
    (hcover : ∀ p ∈ pages, CoversWidth mask p.body) (h : PagesHold pages rows)
    (acc : Bytes × PageProbe) :
    probeAll mask acc pages = .ok (acc.1 ++ chunkBitmap mask rows,
      ⟨acc.2.rowsIn + rows.flatten.length,
        acc.2.rowsPassed + (rows.flatten.filter (passes mask)).length⟩) := by
  induction h generalizing acc with
  | nil => simp [probeAll, chunkBitmap, pure, Except.pure]
  | @cons p indices pages rows hp hpages ih =>
    have hlen := (decodeRleDictionaryIndices_of_pageIndices hp).2
    have hpage := probePageFused_eq hmask (hcover p List.mem_cons_self) hp
    have hrest := ih (fun q hq => hcover q (List.mem_cons_of_mem _ hq))
    rw [probeAll, List.foldlM_cons]
    refine bind_eq_ok.mpr ⟨_, bind_eq_ok.mpr ⟨_, hpage, rfl⟩, (hrest _).trans ?_⟩
    dsimp only
    rw [chunkBitmap_cons, hlen, List.flatten_cons, List.filter_append, List.length_append,
      List.length_append, hlen, List.append_assoc, Nat.add_assoc, Nat.add_assoc]

theorem probeAll_start {pages : List AdaptivePageInput} {rows : List (List UInt32)}
    (hcover : ∀ p ∈ pages, CoversWidth mask p.body) (h : PagesHold pages rows) :
    probeAll mask ([], ⟨0, 0⟩) pages = .ok (chunkBitmap mask rows,
      ⟨rows.flatten.length, (rows.flatten.filter (passes mask)).length⟩) := by
  have hall := probeAll_eq hmask hcover h ([], ⟨0, 0⟩)
  rwa [List.nil_append, Nat.zero_add, Nat.zero_add] at hall

/-- It returns only when every page is accepted. -/
theorem probeAll_ok {pages : List AdaptivePageInput} {acc out : Bytes × PageProbe}
    (hcover : ∀ p ∈ pages, CoversWidth mask p.body) (h : probeAll mask acc pages = .ok out) :
    ∃ rows, PagesHold pages rows := by
  induction pages generalizing acc with
  | nil => exact ⟨[], .nil⟩
  | cons p pages ih =>
    rw [probeAll, List.foldlM_cons] at h
    obtain ⟨acc', hacc, hrest⟩ := bind_eq_ok.mp h
    obtain ⟨probe, hprobe, -⟩ := bind_eq_ok.mp hacc
    obtain ⟨bm, hbm, -⟩ := bind_eq_ok.mp hprobe
    obtain ⟨indices, hindices, -⟩ := accepted_of_bitmap hmask (hcover p List.mem_cons_self) hbm
    obtain ⟨rows, hrows⟩ := ih (fun q hq => hcover q (List.mem_cons_of_mem _ hq)) hrest
    exact ⟨indices :: rows, .cons hindices hrows⟩

omit hmask in
/-- One row of `materialise_filter`. -/
theorem pushPassing_eq {dict vs : List α} {n m : ℕ} {indices : List UInt32} (out : List α)
    (hlen : indices.length = n) (hm : m < n) (hvs : List.Forall₂ (EntryOf dict) indices vs) :
    ∃ idx v, indices[m]? = some idx ∧ EntryOf dict idx v ∧
      pushPassing (pageBitmap mask n indices) vs out m
        = .ok (if passes mask idx then out ++ [v] else out) := by
  have hidx : m < indices.length := by omega
  have hv : m < vs.length := by
    rw [← hvs.length_eq]
    exact hidx
  have hget : indices[m]? = some indices[m] := List.getElem?_eq_getElem hidx
  have hbit : bitmapBit (pageBitmap mask n indices) m = .ok (passes mask indices[m]) := by
    rw [bitmapBit_eq _ (by rw [length_pageBitmap, divCeil]; omega), pageBitmap,
      testBit_bitmapOf, rowPasses, hget]
    simp [hm]
  refine ⟨indices[m], vs[m], hget, hvs.get hidx hv, bind_eq_ok.mpr ⟨_, hbit, ?_⟩⟩
  rw [List.getElem?_eq_getElem hv]
  cases passes mask indices[m] <;> rfl

/-- The values of the rows that pass. -/
theorem materialiseFilter_eq {body : Bytes} {n : ℕ} {dict vs : List α} {indices : List UInt32}
    (hcover : CoversWidth mask body) (hpage : pageIndices body n = .ok indices)
    (hvs : List.Forall₂ (EntryOf dict) indices vs) (out : List α) :
    ∃ ws, materialiseFilter body n mask vs out = .ok (out ++ ws) ∧
      List.Forall₂ (EntryOf dict) (indices.filter (passes mask)) ws := by
  have hlen := (decodeRleDictionaryIndices_of_pageIndices hpage).2
  have hbm : decodeRleDictionaryPredicateBitmap body n mask = .ok (pageBitmap mask n indices) := by
    rw [predicateBitmap_eq hmask hcover, hpage]
    rfl
  -- by induction on the rows done
  have hrows : ∀ m ≤ n, ∃ ws, (List.range m).foldlM (pushPassing (pageBitmap mask n indices) vs) out
      = .ok (out ++ ws) ∧
        List.Forall₂ (EntryOf dict) ((indices.take m).filter (passes mask)) ws := by
    intro m
    induction m with
    | zero => exact fun _ => ⟨[], by rw [List.append_nil]; rfl, by simp⟩
    | succ m ih =>
      intro hm
      obtain ⟨ws, hfold, hws⟩ := ih (by omega)
      obtain ⟨idx, v, hget, hentry, hpush⟩ :=
        @pushPassing_eq _ mask _ _ _ m _ (out ++ ws) hlen (by omega) hvs
      have hstep : ∀ out', (if passes mask idx then out ++ ws ++ [v] else out ++ ws) = out' →
          (List.range (m + 1)).foldlM (pushPassing (pageBitmap mask n indices) vs) out
            = .ok out' := by
        rintro _ rfl
        rw [List.range_succ, List.foldlM_append]
        refine bind_eq_ok.mpr ⟨_, hfold, ?_⟩
        rw [List.foldlM_cons]
        exact bind_eq_ok.mpr ⟨_, hpush, rfl⟩
      rw [List.take_add_one, hget, List.filter_append]
      cases hpass : passes mask idx with
      | false => exact ⟨ws, hstep _ (by simp [hpass]), by simpa [hpass] using hws⟩
      | true =>
        refine ⟨ws ++ [v], hstep _ (by simp [hpass]), ?_⟩
        simpa [hpass] using List.rel_append hws (.cons hentry .nil)
  obtain ⟨ws, hfold, hws⟩ := hrows n (Nat.le_refl n)
  rw [List.take_of_length_le (Nat.le_of_eq hlen)] at hws
  exact ⟨ws, bind_eq_ok.mpr ⟨_, hbm, hfold⟩, hws⟩

theorem materialiseFilter_ok {body : Bytes} {n : ℕ} {dict vs out final : List α}
    {indices : List UInt32} (hcover : CoversWidth mask body)
    (hindices : decodeRleDictionaryIndices body n = .ok indices)
    (hvs : List.Forall₂ (EntryOf dict) indices vs)
    (h : materialiseFilter body n mask vs out = .ok final) :
    pageIndices body n = .ok indices ∧ ∃ ws, final = out ++ ws ∧
      List.Forall₂ (EntryOf dict) (indices.filter (passes mask)) ws := by
  obtain ⟨bm, hbm, -⟩ := bind_eq_ok.mp h
  obtain ⟨indices', hpage, -⟩ := accepted_of_bitmap hmask hcover hbm
  obtain ⟨hsame, -⟩ := decodeRleDictionaryIndices_of_pageIndices hpage
  obtain rfl : indices' = indices := Except.ok.inj (hsame.symm.trans hindices)
  obtain ⟨ws, hws, hentries⟩ := materialiseFilter_eq hmask hcover hpage hvs out
  exact ⟨hpage, ws, Except.ok.inj (h.symm.trans hws), hentries⟩

/-- **The materialising loop** keeps the values of the rows that pass. -/
theorem materialiseAll_ok {pages : List AdaptivePageInput} {dict out final : List α}
    {rows : List (List UInt32)} (hcover : ∀ p ∈ pages, CoversWidth mask p.body)
    (hrows : List.Forall₂ (fun p indices =>
      decodeRleDictionaryIndices p.body p.numValues = .ok indices) pages rows)
    (h : materialiseAll dict mask out pages = .ok final) :
    PagesHold pages rows ∧ ∃ ws, final = out ++ ws ∧
      List.Forall₂ (EntryOf dict) (rows.flatten.filter (passes mask)) ws := by
  induction hrows generalizing out with
  | nil =>
    cases h
    exact ⟨.nil, [], (List.append_nil _).symm, .nil⟩
  | @cons p indices pages rows hindices _ ih =>
    rw [materialiseAll, List.foldlM_cons] at h
    obtain ⟨out', hpage, hrest⟩ := bind_eq_ok.mp h
    obtain ⟨vs, hvs, hfilter⟩ := bind_eq_ok.mp hpage
    obtain ⟨hhold, ws, rfl, hws⟩ := materialiseFilter_ok hmask (hcover p List.mem_cons_self) hindices
      (decodeRleDictionary_forall₂ hvs hindices) hfilter
    obtain ⟨hholds, ws', rfl, hws'⟩ := ih (fun q hq => hcover q (List.mem_cons_of_mem _ hq)) hrest
    refine ⟨.cons hhold hholds, ws ++ ws', List.append_assoc _ _ _, ?_⟩
    rw [List.flatten_cons, List.filter_append]
    exact List.rel_append hws hws'

end

/-! ## Where the bits are -/

/-- Every page that is followed by rows has a multiple of 8 of them. -/
def BytesAligned : List AdaptivePageInput → Prop
  | [] => True
  | p :: ps => (p.numValues % 8 = 0 ∨ ∀ q ∈ ps, q.numValues = 0) ∧ BytesAligned ps

theorem bytesAligned_of_empty {pages : List AdaptivePageInput}
    (h : ∀ p ∈ pages, p.numValues = 0) : BytesAligned pages := by
  induction pages with
  | nil => trivial
  | cons p ps ih =>
    have hps : ∀ q ∈ ps, q.numValues = 0 := fun q hq => h q (List.mem_cons_of_mem _ hq)
    exact ⟨Or.inr hps, ih hps⟩

theorem totalRows_eq_zero {pages : List AdaptivePageInput} :
    totalRows pages = 0 ↔ ∀ p ∈ pages, p.numValues = 0 := by
  induction pages with
  | nil => simp [totalRows]
  | cons p ps ih =>
    rw [List.forall_mem_cons, ← ih]
    simp [totalRows]

theorem rows_le_chunkBitmap (mask : Bytes) (rows : List (List UInt32)) :
    rows.flatten.length ≤ 8 * (chunkBitmap mask rows).length := by
  induction rows with
  | nil => simp
  | cons indices rows ih =>
    rw [chunkBitmap_cons, List.flatten_cons, List.length_append, List.length_append,
      length_pageBitmap, divCeil]
    omega

/-- The bits of a page's own rows, and of the rows after it. -/
theorem testBit_chunkBitmap_cons (mask : Bytes) (indices : List UInt32)
    (rows : List (List UInt32)) (r : ℕ) :
    (leNat (chunkBitmap mask (indices :: rows))).testBit r
      = if r < 8 * divCeil indices.length 8 then rowPasses mask indices r
        else (leNat (chunkBitmap mask rows)).testBit (r - 8 * divCeil indices.length 8) := by
  rw [chunkBitmap_cons, testBit_append, length_pageBitmap, pageBitmap, testBit_bitmapOf]
  by_cases hr : r < indices.length
  · simp [hr]
  · rw [rowPasses_of_le (by omega), Bool.and_false]

section
variable {pages : List AdaptivePageInput} {rows : List (List UInt32)}

/-- **Aligned pages**: bit `r` is row `r`. -/
theorem chunkBitmap_of_aligned (mask : Bytes) (h : PagesHold pages rows)
    (haligned : BytesAligned pages) {r : ℕ} (hr : r < rows.flatten.length) :
    (leNat (chunkBitmap mask rows)).testBit r = rowPasses mask rows.flatten r := by
  induction h generalizing r with
  | nil => exact absurd hr (Nat.not_lt_zero _)
  | @cons p indices pages rows hp hpages ih =>
    have hlen := (decodeRleDictionaryIndices_of_pageIndices hp).2
    rw [List.flatten_cons, List.length_append] at hr
    have hceil : divCeil indices.length 8 = (indices.length + 7) / 8 := rfl
    rw [testBit_chunkBitmap_cons, List.flatten_cons, rowPasses_append]
    rcases haligned with ⟨h8 | hempty, hrest⟩
    · rw [show 8 * divCeil indices.length 8 = indices.length by omega]
      split
      · rfl
      · exact ih hrest (by omega)
    · have hnone : rows.flatten.length = 0 := by
        rw [PagesHold.length_flatten hpages]
        exact totalRows_eq_zero.mpr hempty
      rw [if_pos (show r < indices.length by omega), if_pos (by omega)]

/-- **Pages that are not aligned**: some row's bit is in the padding of an
    earlier page. -/
theorem exists_misplaced_row (mask : Bytes) (h : PagesHold pages rows)
    (haligned : ¬ BytesAligned pages) :
    ∃ r < rows.flatten.length, (leNat (chunkBitmap mask rows)).testBit r = false := by
  induction h with
  | nil => exact absurd trivial haligned
  | @cons p indices pages rows hp hpages ih =>
    have hlen := (decodeRleDictionaryIndices_of_pageIndices hp).2
    have hceil : divCeil indices.length 8 = (indices.length + 7) / 8 := rfl
    simp only [List.flatten_cons, List.length_append, testBit_chunkBitmap_cons]
    by_cases h8 : p.numValues % 8 = 0
    · obtain ⟨r, hr, hbit⟩ := ih fun h => haligned ⟨Or.inl h8, h⟩
      refine ⟨indices.length + r, by omega, ?_⟩
      rw [if_neg (by omega)]
      rwa [show indices.length + r - 8 * divCeil indices.length 8 = r by omega]
    · have hrows : rows.flatten.length ≠ 0 := by
        rw [PagesHold.length_flatten hpages]
        intro hzero
        have hempty := totalRows_eq_zero.mp hzero
        exact haligned ⟨Or.inr hempty, bytesAligned_of_empty hempty⟩
      -- the first row after this page
      refine ⟨indices.length, by omega, ?_⟩
      rw [if_pos (by omega), rowPasses_of_le (Nat.le_refl _)]

end

/-! ## Correctness -/

/-- The output selects the rows whose entry in the mask is 1: their bits, or
    their values. -/
def AdaptiveChunkOutput.Correct (out : AdaptiveChunkOutput α) (dict : List α) (mask : Bytes)
    (rows : List UInt32) : Prop :=
  out.totalRows = rows.length ∧
  match out.kind with
  | .bitmap bitmap setBits =>
    (∀ r idx, rows[r]? = some idx → bitmapBit bitmap r = .ok (passes mask idx)) ∧
      setBits = (rows.filter (passes mask)).length
  | .values values => List.Forall₂ (EntryOf dict) (rows.filter (passes mask)) values

/-- Every run over the pages is correct: for any dictionary that has all their
    indices, any mask of zeros and ones for their widths, any threshold and any
    number of pages to probe. -/
def RunsCorrectly (pages : List AdaptivePageInput) : Prop :=
  ∀ (α : Type) (dict : List α) (cfg : AdaptiveDictPredicate) (rows : List UInt32)
    (out : AdaptiveChunkOutput α), chunkIndices pages = .ok rows →
    (∀ idx ∈ rows, idx.toNat < dict.length) → IsMask cfg.dictMask →
    (∀ p ∈ pages, CoversWidth cfg.dictMask p.body) →
    runAdaptiveDictChunk pages dict cfg = .ok out → out.Correct dict cfg.dictMask rows

theorem chunkIndices_eq_nil {pages : List AdaptivePageInput} {rows : List UInt32}
    (htotal : totalRows pages = 0) (h : chunkIndices pages = .ok rows) : rows = [] := by
  obtain ⟨rowss, hrowss, rfl⟩ := map_eq_ok.mp h
  refine List.flatten_eq_nil_iff.mpr fun indices hindices => ?_
  obtain ⟨i, hi⟩ := List.mem_iff_getElem?.mp hindices
  obtain ⟨p, hp, hpage⟩ := (mapM_getElem? hrowss i).2 indices hi
  rw [totalRows_eq_zero.mp htotal p (List.mem_of_getElem? hp), decodeRleDictionaryIndices.eq_def] at hpage
  split at hpage
  · cases hpage
  · split at hpage
    · cases hpage
    · rw [if_pos rfl] at hpage
      exact (Except.ok.inj hpage).symm

/-- A mask that selects every entry. -/
theorem passes_replicate {n : ℕ} {idx : UInt32} (h : idx.toNat < n) :
    passes (List.replicate n 1) idx = true := by
  simp [passes, h]

/-- Without pages to probe, and with a threshold of 1, the bitmap is returned. -/
theorem runAdaptiveDictChunk_unprobed {pages : List AdaptivePageInput} {rows : List (List UInt32)}
    {mask : Bytes} (dict : List α) (hmask : IsMask mask)
    (hcover : ∀ p ∈ pages, CoversWidth mask p.body) (h : PagesHold pages rows)
    (htotal : totalRows pages ≠ 0) :
    runAdaptiveDictChunk pages dict ⟨mask, 0x3F800000, 0⟩
      = .ok ⟨.fused, totalRows pages, .bitmap (chunkBitmap mask rows)
        (rows.flatten.filter (passes mask)).length⟩ := by
  have hone : exceeds 0 (F32.ofBits 0x3F800000) = false := by decide +kernel
  have hfused : AdaptiveDictPredicate.dispatchFor ⟨mask, 0x3F800000, 0⟩ ⟨0, 0⟩ = .fused := by
    simp [AdaptiveDictPredicate.dispatchFor, PageProbe.selectivity, hone]
  rw [runAdaptiveDictChunk, if_neg htotal]
  dsimp only
  rw [Nat.zero_min, List.take_zero, List.drop_zero]
  refine bind_eq_ok.mpr ⟨([], ⟨0, 0⟩), rfl, ?_⟩
  dsimp only
  rw [hfused]
  exact bind_eq_ok.mpr ⟨_, probeAll_start hmask hcover h, rfl⟩

/-- A run that returns has gone through all pages, whichever path it took. -/
theorem runAdaptiveDictChunk_ok {pages : List AdaptivePageInput} {dict : List α}
    {cfg : AdaptiveDictPredicate} {rows : List (List UInt32)} {out : AdaptiveChunkOutput α}
    (hmask : IsMask cfg.dictMask) (hcover : ∀ p ∈ pages, CoversWidth cfg.dictMask p.body)
    (hrows : List.Forall₂ (fun p indices =>
      decodeRleDictionaryIndices p.body p.numValues = .ok indices) pages rows)
    (htotal : totalRows pages ≠ 0) (h : runAdaptiveDictChunk pages dict cfg = .ok out) :
    PagesHold pages rows ∧ out.totalRows = totalRows pages ∧
      (out.kind = .bitmap (chunkBitmap cfg.dictMask rows)
          (rows.flatten.filter (passes cfg.dictMask)).length ∨
        ∃ values, out.kind = .values values ∧
          List.Forall₂ (EntryOf dict) (rows.flatten.filter (passes cfg.dictMask)) values) := by
  rw [runAdaptiveDictChunk, if_neg htotal] at h
  obtain ⟨probe, hprobe, h⟩ := bind_eq_ok.mp h
  have hsplit := List.take_append_drop (min cfg.probePages pages.length) pages
  split at h
  · obtain ⟨all, hall, h⟩ := bind_eq_ok.mp h
    cases h
    -- the two loops are one over all pages
    have hone : probeAll cfg.dictMask ([], ⟨0, 0⟩) pages = .ok all := by
      rw [← hsplit, probeAll, List.foldlM_append]
      exact bind_eq_ok.mpr ⟨probe, hprobe, hall⟩
    obtain ⟨rows', hrows'⟩ := probeAll_ok hmask hcover hone
    obtain rfl : rows' = rows := by
      have hsame : pages.mapM (fun p => decodeRleDictionaryIndices p.body p.numValues) = .ok rows' :=
        mapM_eq_ok.mpr (hrows'.imp fun _ _ hp => (decodeRleDictionaryIndices_of_pageIndices hp).1)
      exact Except.ok.inj (hsame.symm.trans (mapM_eq_ok.mpr hrows))
    obtain rfl := Except.ok.inj (hone.symm.trans (probeAll_start hmask hcover hrows'))
    exact ⟨hrows', rfl, Or.inl rfl⟩
  · obtain ⟨values, hvalues, h⟩ := bind_eq_ok.mp h
    cases h
    obtain ⟨hhold, ws, hws, hentries⟩ := materialiseAll_ok hmask hcover hrows hvalues
    obtain rfl : values = ws := hws
    exact ⟨hhold, rfl, Or.inr ⟨values, rfl, hentries⟩⟩

/-- **The adaptive runner** is correct on all runs over the pages exactly when
    they are aligned, unless it rejects one of them. -/
theorem runAdaptiveDictChunk_correct_iff {pages : List AdaptivePageInput} :
    RunsCorrectly pages ↔ ((∀ p ∈ pages, Accepted p) → BytesAligned pages) := by
  constructor
  · intro hruns haccepted
    by_contra haligned
    obtain ⟨rows, hrows⟩ := exists_pagesHold haccepted
    obtain ⟨n, hn⟩ : ∃ n, n = 2 ^ 32 := ⟨_, rfl⟩
    have hmask : IsMask (List.replicate n 1) := fun b hb => Or.inr (List.eq_of_mem_replicate hb)
    obtain ⟨r, hr, hbit⟩ := exists_misplaced_row (List.replicate n 1) hrows haligned
    have hcover : ∀ p ∈ pages, CoversWidth (List.replicate n 1) p.body := by
      intro p hp bitWidth bytes hbody
      obtain ⟨indices, hindices⟩ := haccepted p hp
      rw [List.length_replicate, hn]
      exact requiredMask_le hbody hindices
    have htotal : totalRows pages ≠ 0 := by
      rw [← hrows.length_flatten]
      omega
    have hcorrect := hruns Unit (List.replicate n ()) _ _ _ hrows.chunkIndices
      (fun idx _ => by rw [List.length_replicate, hn]; exact idx.toNat_lt) hmask hcover
      (runAdaptiveDictChunk_unprobed _ hmask hcover hrows htotal)
    have hread := hcorrect.2.1 r _ (List.getElem?_eq_getElem hr)
    rw [bitmapBit_eq _ (hr.trans_le (rows_le_chunkBitmap _ _)), hbit,
      passes_replicate (by rw [hn]; exact UInt32.toNat_lt _)] at hread
    cases hread
  · intro h α dict cfg rows out hindices hdict hmask hcover hrun
    by_cases htotal : totalRows pages = 0
    · rw [chunkIndices_eq_nil htotal hindices]
      rw [runAdaptiveDictChunk, if_pos htotal] at hrun
      cases hrun
      exact ⟨rfl, by simp, rfl⟩
    obtain ⟨rowss, hrowss, rfl⟩ := map_eq_ok.mp hindices
    obtain ⟨hhold, hrows, hkind⟩ := runAdaptiveDictChunk_ok hmask hcover (mapM_eq_ok.mp hrowss)
      htotal hrun
    refine ⟨hrows.trans hhold.length_flatten.symm, ?_⟩
    rcases hkind with hkind | ⟨values, hkind, hvalues⟩
    · rw [hkind]
      have haligned : BytesAligned pages := h hhold.accepted
      refine ⟨fun r idx hidx => ?_, rfl⟩
      have hr : r < rowss.flatten.length := (List.getElem?_eq_some_iff.mp hidx).1
      rw [bitmapBit_eq _ (hr.trans_le (rows_le_chunkBitmap _ _)),
        chunkBitmap_of_aligned _ hhold haligned hr, rowPasses, hidx]
      rfl
    · rw [hkind]
      exact hvalues

/-! ## A chunk of 17 rows -/

/-- A page of one row and a page of sixteen, one index bit each; the first row
    of the second page has index 1. -/
def unalignedPages : List AdaptivePageInput := [⟨[1, 2, 0], 1⟩, ⟨[1, 5, 1, 0], 16⟩]

/-- With the default threshold the bit of row 1 lands at row 8. -/
theorem runAdaptiveDictChunk_misplaces_row : ¬ RunsCorrectly unalignedPages := by
  have hrun : runAdaptiveDictChunk unalignedPages [false, true] (.new [0, 1])
      = .ok ⟨.fused, 17, .bitmap [0, 1, 0] 1⟩ := by decide +kernel
  have hrows : chunkIndices unalignedPages = .ok (0 :: 1 :: List.replicate 15 0) := by
    decide +kernel
  have hcover : ∀ p ∈ unalignedPages, CoversWidth [0, 1] p.body := by
    intro p hp bitWidth bytes hbody
    rcases List.mem_pair.mp hp with rfl | rfl <;> cases hbody <;> decide
  intro h
  have hcorrect := h Bool _ _ _ _ hrows (by decide) (by unfold IsMask; decide) hcover hrun
  have hbit := hcorrect.2.1 1 1 rfl
  exact absurd hbit (by decide)

end EmatixParquet
