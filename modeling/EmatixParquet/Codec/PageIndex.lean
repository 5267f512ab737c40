/-
  Reads pruned by the page index (`page_index.rs`, and the `*_with_range`
  readers of `read.rs`).

  The column index holds bounds for each data page; pages whose bounds miss
  `[lo, hi]` are not decoded.

  * `decodeChunkPageMasked_none`: without an index nothing is pruned;
  * `decodePages_out`, `prunedPages_out`: both readers concatenate what the
    data pages decode to, the one up to `num_values`, the other at the pages it
    keeps;
  * `selected_of_mem`: no page with a value in the range is dropped;
  * `readColumnWithRange_filter`: so both have the same values in the range.
-/
import EmatixParquet.Codec.Masked

namespace EmatixParquet

open Wire

variable {α : Type}

/-! ## Selecting pages -/

/-- `decode_i32`, `decode_i64`: a bound of the column index. -/
def decodeStat [FixedWidth α] (name : String) (bytes : Bytes) : Res CodecError α :=
  if bytes.length ≠ FixedWidth.width α then codecErr (.decompress
    s!"ColumnIndex {name} stat: expected {FixedWidth.width α} bytes, got {bytes.length}")
  else .ok (fromLeBytes bytes)

/-- `decode_i32`. -/
def decodeI32 : Bytes → Res CodecError Int32 := decodeStat "i32"

/-- `decode_i64`. -/
def decodeI64 : Bytes → Res CodecError Int64 := decodeStat "i64"

section
variable [LT α] [DecidableLT α] [LE α] [DecidableLE α]

/-- Whether a page is kept: null pages are not. -/
def selectPage (decode : Bytes → Res CodecError α) (lo hi : α) (entry : Bool × Bytes × Bytes) :
    Res CodecError Bool :=
  if entry.1 then .ok false
  else do
    let pmin ← decode entry.2.1
    let pmax ← decode entry.2.2
    pure (lo ≤ pmax ∧ pmin ≤ hi)

/-- `select_pages_overlapping_i32`, `select_pages_overlapping_i64`. -/
def selectPagesOverlapping (decode : Bytes → Res CodecError α) (idx : ColumnIndex) (lo hi : α) :
    Res CodecError (List Bool) :=
  if hi < lo then codecErr (.decompress "select_pages_overlapping: lo > hi")
  else
    let n := idx.nullPages.length
    if idx.minValues.length ≠ n ∨ idx.maxValues.length ≠ n then
      codecErr (.decompress "ColumnIndex: null_pages/min/max length mismatch")
    else (idx.nullPages.zip (idx.minValues.zip idx.maxValues)).mapM (selectPage decode lo hi)

/-- The bytes of the page index of a chunk, if it has one. -/
def readColumnIndexBytes (file : ParquetFile) (rowGroup column : ℕ) :
    Res CodecError (Option Bytes) := do
  let md ← mapIo ioToCodec file.metadata
  let rg ← okOr md.rowGroups[rowGroup]? (.invalidInput s!"row group {rowGroup} out of range")
  let col ← okOr rg.columns[column]? (.invalidInput s!"column {column} out of range")
  match col.columnIndexOffset, col.columnIndexLength with
  | some off, some len =>
    some <$> mapIo ioToCodec (file.readRange off.toUInt64.toNat (i32AsUsize len))
  | _, _ => pure none

/-- `read_column_index(&mut cur).map_err(format_to_codec)?`. -/
def parseColumnIndex (bytes : Bytes) : Res CodecError ColumnIndex :=
  ((·.1) <$> readColumnIndex.run bytes).mapError (Fault.map formatToCodec)

/-- `page_mask_i64`, `page_mask_i32`. -/
def pageMask (decode : Bytes → Res CodecError α) (file : ParquetFile) (rowGroup column : ℕ)
    (lo hi : α) : Res CodecError (Option (List Bool)) := do
  match ← readColumnIndexBytes file rowGroup column with
  | none => pure none
  | some bytes => do
    let ci ← parseColumnIndex bytes
    some <$> selectPagesOverlapping decode ci lo hi

end

/-! ## The pruned read -/

/-- The dictionary, the number of data pages seen, and the output. -/
structure PrunedState (α : Type) where
  dict : List α := []
  dataPageIx : ℕ := 0
  out : List α := []

/-- What has been decoded. -/
def PrunedState.decoded (s : PrunedState α) : DecodeState α := ⟨s.dict, s.out⟩

/-- Pages past the end of the mask are kept. -/
def keepPage (mask : Option (List Bool)) (ix : ℕ) : Bool :=
  mask.elim true fun m => m[ix]?.getD true

/-- Only the read without a mask ends early. -/
def PrunedState.next (s : PrunedState α) (mask : Option (List Bool)) (total : ℕ) :
    PrunedState α ⊕ PrunedState α :=
  if mask.isNone ∧ total ≤ s.out.length then .inr s else .inl s

section
variable [Platform]

/-- What a data page decodes to. -/
def dataPageValues (dec : PageDecoder α) (chunk : RawChunk) (dict : List α) (page : Page) :
    Res CodecError (List α) := do
  let info ← dataPageView page chunk
  decodeValues dec dict info

/-- The body of the loop of `decode_chunk_masked_into`. -/
def prunedStep (dec : PageDecoder α) (chunk : RawChunk) (mask : Option (List Bool))
    (s : PrunedState α) (page : Page) : Res CodecError (PrunedState α ⊕ PrunedState α) :=
  match page.1.pageType with
  | .dictionaryPage => do
    let dict ← dictionaryPage dec.plain page chunk
    pure (PrunedState.next { s with dict } mask chunk.totalValues)
  | .dataPage | .dataPageV2 =>
    let dataPageIx := s.dataPageIx + 1
    if keepPage mask s.dataPageIx then do
      let vs ← dataPageValues dec chunk s.dict page
      pure (PrunedState.next { s with dataPageIx, out := s.out ++ vs } mask chunk.totalValues)
    else pure (.inl { s with dataPageIx })
  | .indexPage => .ok (s.next mask chunk.totalValues)

/-- `decode_chunk_masked_into`: the mask is one of data pages. -/
def decodeChunkPageMasked (dec : PageDecoder α) (file : ParquetFile) (rowGroup column : ℕ)
    (mask : Option (List Bool)) : Res CodecError (List α) := do
  let chunk ← readChunkRaw file rowGroup column
  let s ← walkPages ioToCodec (prunedStep dec chunk mask) {} chunk.bytes
  pure s.out

/-- `read_column_i64_with_range`, `read_column_i32_with_range`. -/
def readColumnWithRange [FixedWidth α] [LT α] [DecidableLT α] [LE α] [DecidableLE α]
    (decode : Bytes → Res CodecError α) (file : ParquetFile) (rowGroup column : ℕ) (lo hi : α) :
    Res CodecError (List α) := do
  let mask ← pageMask decode file rowGroup column lo hi
  decodeChunkPageMasked fixedDecoder file rowGroup column mask

/-- `read_column_i64_with_range`. -/
def readColumnI64WithRange : ParquetFile → ℕ → ℕ → Int64 → Int64 → Res CodecError (List Int64) :=
  readColumnWithRange decodeI64

/-- `read_column_i32_with_range`. -/
def readColumnI32WithRange : ParquetFile → ℕ → ℕ → Int32 → Int32 → Res CodecError (List Int32) :=
  readColumnWithRange decodeI32

/-! ## Without an index -/

variable {dec : PageDecoder α} {chunk : RawChunk}

omit [Platform] in
theorem map_next_none (s : PrunedState α) (total : ℕ) :
    Sum.map PrunedState.decoded PrunedState.decoded (s.next none total)
      = if total ≤ s.decoded.out.length then .inr s.decoded else .inl s.decoded := by
  simp only [PrunedState.next, Option.isNone_none, true_and]
  by_cases h : total ≤ s.out.length
  · rw [if_pos h, if_pos (show total ≤ s.decoded.out.length from h)]
    rfl
  · rw [if_neg h, if_neg (show ¬ total ≤ s.decoded.out.length from h)]
    rfl

theorem decodePage_data {page : Page} (hdata : page.1.pageType.IsData) (s : DecodeState α) :
    decodePage dec chunk s page = (do
      let vs ← dataPageValues dec chunk s.dict page
      pure { s with out := s.out ++ vs }) := by
  unfold decodePage dataPageValues
  rcases hdata with h | h <;> rw [h] <;> cases dataPageView page chunk <;> rfl

/-- Without a mask a page does what it does to the full read. -/
theorem prunedStep_none (s : PrunedState α) (page : Page) :
    decodeStep dec chunk s.decoded page
      = Sum.map PrunedState.decoded PrunedState.decoded <$> prunedStep dec chunk none s page := by
  have hkeep : keepPage none s.dataPageIx = true := rfl
  unfold decodeStep prunedStep
  cases ht : page.1.pageType with
  | dictionaryPage =>
    rw [decodePage, ht]
    dsimp only
    cases dictionaryPage dec.plain page chunk with
    | error e => rfl
    | ok d => exact congrArg Except.ok (map_next_none { s with dict := d } _).symm
  | indexPage =>
    rw [decodePage, ht]
    exact congrArg Except.ok (map_next_none s _).symm
  | _ =>
    rw [decodePage_data (by rw [ht]; simp [PageType.IsData])]
    dsimp only
    rw [if_pos hkeep]
    change (dataPageValues dec chunk s.dict page >>= _) >>= _
      = _ <$> (dataPageValues dec chunk s.dict page >>= _)
    cases dataPageValues dec chunk s.dict page with
    | error e => rfl
    | ok vs =>
      exact congrArg Except.ok (map_next_none ⟨s.dict, s.dataPageIx + 1, s.out ++ vs⟩ _).symm

/-- **Without an index** the pruned read is the full read. -/
theorem decodeChunkPageMasked_none (dec : PageDecoder α) (file : ParquetFile)
    (rowGroup column : ℕ) :
    decodeChunkPageMasked dec file rowGroup column none = decodeChunk dec file rowGroup column := by
  unfold decodeChunkPageMasked decodeChunk
  cases readChunkRaw file rowGroup column with
  | error e => rfl
  | ok chunk =>
    change (walkPages ioToCodec (prunedStep dec chunk none) {} chunk.bytes >>= _)
      = (walkPages ioToCodec (decodeStep dec chunk) {} chunk.bytes >>= _)
    have hwalk : walkPages ioToCodec (decodeStep dec chunk) {} chunk.bytes
        = PrunedState.decoded <$> walkPages ioToCodec (prunedStep dec chunk none) {} chunk.bytes :=
      walkPages_map PrunedState.decoded prunedStep_none ioToCodec {} chunk.bytes
    rw [hwalk]
    cases walkPages ioToCodec (prunedStep dec chunk none) {} chunk.bytes <;> rfl

/-! ## With an index -/

/-- What the data pages decode to, one by one, from dictionary `dict` on; none
    where a page does not decode. -/
def pageValues (dec : PageDecoder α) (chunk : RawChunk) : List α → List Page →
    List (Option (List α))
  | _, [] => []
  | dict, page :: pages =>
    match page.1.pageType with
    | .dictionaryPage =>
      pageValues dec chunk ((dictionaryPage dec.plain page chunk).toOption.getD dict) pages
    | .dataPage | .dataPageV2 =>
      (dataPageValues dec chunk dict page).toOption :: pageValues dec chunk dict pages
    | .indexPage => pageValues dec chunk dict pages

/-- The values of all pages. -/
def allValues (pv : List (Option (List α))) : List α := (pv.map (·.getD [])).flatten

/-- The values of the pages kept, the first of them data page `ix`. -/
def keptValues (mask : List Bool) : ℕ → List (Option (List α)) → List α
  | _, [] => []
  | ix, v :: pv =>
    (if keepPage (some mask) ix then v.getD [] else []) ++ keptValues mask (ix + 1) pv

omit [Platform] in
theorem allValues_cons (v : Option (List α)) (pv : List (Option (List α))) :
    allValues (v :: pv) = v.getD [] ++ allValues pv := rfl

theorem pageValues_data {page : Page} {dict : List α} (hdata : page.1.pageType.IsData)
    (pages : List Page) : pageValues dec chunk dict (page :: pages)
      = (dataPageValues dec chunk dict page).toOption :: pageValues dec chunk dict pages := by
  rw [pageValues]
  rcases hdata with h | h <;> rw [h]

/-- What one page adds to the output of the full read. -/
theorem decodePage_pageValues {s s' : DecodeState α} {page : Page}
    (h : decodePage dec chunk s page = .ok s') (pages : List Page) :
    ∃ vs, s'.out = s.out ++ vs ∧ allValues (pageValues dec chunk s.dict (page :: pages))
      = vs ++ allValues (pageValues dec chunk s'.dict pages) := by
  cases ht : page.1.pageType with
  | dictionaryPage =>
    rw [decodePage, ht] at h
    obtain ⟨d, hd, h⟩ := bind_eq_ok.mp h
    cases h
    refine ⟨[], (List.append_nil _).symm, ?_⟩
    rw [pageValues, ht]
    dsimp only
    rw [hd]
    rfl
  | indexPage =>
    rw [decodePage, ht] at h
    cases h
    refine ⟨[], (List.append_nil _).symm, ?_⟩
    rw [pageValues, ht]
    rfl
  | _ =>
    have hdata : page.1.pageType.IsData := by simp [PageType.IsData, ht]
    rw [decodePage_data hdata] at h
    obtain ⟨vs, hvs, h⟩ := bind_eq_ok.mp h
    cases h
    refine ⟨vs, rfl, ?_⟩
    rw [pageValues_data hdata, hvs, allValues_cons]
    rfl

/-- **The full read** returns the values of all data pages, where they are no
    more than `num_values`. -/
theorem decodePages_out {pages : List Page} {s s' : DecodeState α}
    (h : foldPages (decodeStep dec chunk) s pages = .ok s')
    (hle : s.out.length + (allValues (pageValues dec chunk s.dict pages)).length
      ≤ chunk.totalValues) :
    s'.out = s.out ++ allValues (pageValues dec chunk s.dict pages) := by
  induction pages generalizing s with
  | nil =>
    cases h
    exact (List.append_nil _).symm
  | cons page pages ih =>
    cases hs : decodePage dec chunk s page with
    | error e => simp [foldPages, decodeStep, hs, bind, Except.bind] at h
    | ok s₁ =>
      obtain ⟨vs, hout, hvalues⟩ := decodePage_pageValues hs pages
      have hstep : decodeStep dec chunk s page
          = .ok (if chunk.totalValues ≤ s₁.out.length then .inr s₁ else .inl s₁) := by
        rw [decodeStep, hs]
        rfl
      rw [hvalues, List.length_append] at hle
      rw [hvalues, ← List.append_assoc, ← hout]
      have hlen : s₁.out.length = s.out.length + vs.length := by
        rw [hout, List.length_append]
      rw [foldPages, hstep] at h
      by_cases htotal : chunk.totalValues ≤ s₁.out.length
      · -- the loop ends: the pages left have no values
        have hnil : allValues (pageValues dec chunk s₁.dict pages) = [] :=
          List.eq_nil_of_length_eq_zero (by omega)
        rw [if_pos htotal] at h
        cases h
        rw [hnil, List.append_nil]
      · rw [if_neg htotal] at h
        exact ih h (by omega)

/-- What one page adds to the output of the pruned read. -/
theorem prunedStep_pageValues {mask : List Bool} {s : PrunedState α} {page : Page}
    {r : PrunedState α ⊕ PrunedState α} (h : prunedStep dec chunk (some mask) s page = .ok r)
    (pages : List Page) :
    ∃ s' vs, r = .inl s' ∧ s'.out = s.out ++ vs ∧
      keptValues mask s.dataPageIx (pageValues dec chunk s.dict (page :: pages))
        = vs ++ keptValues mask s'.dataPageIx (pageValues dec chunk s'.dict pages) := by
  have hnext : ∀ s : PrunedState α, s.next (some mask) chunk.totalValues = .inl s := fun s => by
    simp [PrunedState.next]
  unfold prunedStep at h
  cases ht : page.1.pageType with
  | dictionaryPage =>
    rw [ht] at h
    obtain ⟨d, hd, h⟩ := bind_eq_ok.mp h
    cases h
    refine ⟨_, [], hnext _, (List.append_nil _).symm, ?_⟩
    rw [pageValues, ht]
    dsimp only
    rw [hd]
    rfl
  | indexPage =>
    rw [ht] at h
    cases h
    refine ⟨_, [], hnext _, (List.append_nil _).symm, ?_⟩
    rw [pageValues, ht]
    rfl
  | _ =>
    have hdata : page.1.pageType.IsData := by simp [PageType.IsData, ht]
    rw [ht] at h
    dsimp only at h
    rw [pageValues_data hdata, keptValues]
    by_cases hkeep : keepPage (some mask) s.dataPageIx = true
    · rw [if_pos hkeep] at h ⊢
      obtain ⟨vs, hvs, h⟩ := bind_eq_ok.mp h
      cases h
      refine ⟨_, vs, hnext _, rfl, ?_⟩
      rw [hvs]
      rfl
    · rw [if_neg hkeep] at h ⊢
      cases h
      exact ⟨_, [], rfl, (List.append_nil _).symm, rfl⟩

/-- **The pruned read** returns the values of the pages it keeps. -/
theorem prunedPages_out {mask : List Bool} {pages : List Page} {s s' : PrunedState α}
    (h : foldPages (prunedStep dec chunk (some mask)) s pages = .ok s') :
    s'.out = s.out ++ keptValues mask s.dataPageIx (pageValues dec chunk s.dict pages) := by
  induction pages generalizing s with
  | nil =>
    cases h
    exact (List.append_nil _).symm
  | cons page pages ih =>
    rw [foldPages] at h
    cases hr : prunedStep dec chunk (some mask) s page with
    | error e =>
      rw [hr] at h
      cases h
    | ok r =>
      obtain ⟨s₁, vs, rfl, hout, hvalues⟩ := prunedStep_pageValues hr pages
      rw [hr] at h
      rw [ih h, hout, hvalues, List.append_assoc]

omit [Platform] in
/-- Dropping pages without values in `p` changes no value in `p`. -/
theorem filter_keptValues {mask : List Bool} {p : α → Bool} {ix : ℕ}
    {pv : List (Option (List α))}
    (h : ∀ i vs, pv[i]? = some (some vs) → keepPage (some mask) (ix + i) = false →
      vs.filter p = []) :
    (keptValues mask ix pv).filter p = (allValues pv).filter p := by
  induction pv generalizing ix with
  | nil => rfl
  | cons v pv ih =>
    have hrest := @ih (ix + 1) fun i vs hi hk =>
      h (i + 1) vs hi (by rwa [Nat.add_assoc, Nat.add_comm 1 i] at hk)
    rw [keptValues, allValues_cons, List.filter_append, List.filter_append, hrest]
    by_cases hkeep : keepPage (some mask) ix = true
    · rw [if_pos hkeep]
    · rw [if_neg hkeep]
      cases v with
      | none => rfl
      | some vs => rw [Option.getD_some, h 0 vs rfl (by simpa using hkeep), List.filter_nil]

/-! ## The index drops no value in the range -/

section
variable [LT α] [DecidableLT α] [LE α] [DecidableLE α] {decode : Bytes → Res CodecError α}
  {lo hi : α} {ci : ColumnIndex} {mask : List Bool}

/-- One entry for each data page: null pages have no values, and the values of
    the other pages lie between their bounds. -/
structure BoundsPages (decode : Bytes → Res CodecError α) (ci : ColumnIndex)
    (pv : List (Option (List α))) : Prop where
  entries : ci.nullPages.length = pv.length
  null : ∀ (i : ℕ) (vs : List α), pv[i]? = some (some vs) → ci.nullPages[i]? = some true → vs = []
  bounds : ∀ (i : ℕ) (vs : List α) (min max : Bytes) (pmin pmax : α), pv[i]? = some (some vs) →
    ci.nullPages[i]? = some false → ci.minValues[i]? = some min → ci.maxValues[i]? = some max →
      decode min = .ok pmin → decode max = .ok pmax → ∀ v ∈ vs, pmin ≤ v ∧ v ≤ pmax

omit [Platform] in
/-- What the entry of a dropped page says. -/
theorem selected_false (h : selectPagesOverlapping decode ci lo hi = .ok mask) {i : ℕ}
    (hkeep : keepPage (some mask) i = false) :
    ∃ null min max, ci.nullPages[i]? = some null ∧ ci.minValues[i]? = some min ∧
      ci.maxValues[i]? = some max ∧ selectPage decode lo hi (null, min, max) = .ok false := by
  unfold selectPagesOverlapping at h
  by_cases hrange : hi < lo
  · rw [if_pos hrange] at h
    cases h
  rw [if_neg hrange] at h
  dsimp only at h
  by_cases hlen : ci.minValues.length ≠ ci.nullPages.length ∨
      ci.maxValues.length ≠ ci.nullPages.length
  · rw [if_pos hlen] at h
    cases h
  rw [if_neg hlen] at h
  have hfalse : mask[i]? = some false := by
    cases hb : mask[i]? with
    | none => simp [keepPage, hb] at hkeep
    | some b =>
      cases b with
      | true => simp [keepPage, hb] at hkeep
      | false => rfl
  obtain ⟨⟨null, min, max⟩, hentry, hselect⟩ := (mapM_getElem? h i).2 false hfalse
  rw [List.getElem?_zip_eq_some, List.getElem?_zip_eq_some] at hentry
  exact ⟨null, min, max, hentry.1, hentry.2.1, hentry.2.2, hselect⟩

omit [Platform] in
/-- **No page with a value in the range** is dropped. -/
theorem dropped_outside [Std.IsPreorder α] {pv : List (Option (List α))}
    (hbounds : BoundsPages decode ci pv)
    (h : selectPagesOverlapping decode ci lo hi = .ok mask) {i : ℕ} {vs : List α}
    (hvs : pv[i]? = some (some vs)) (hkeep : keepPage (some mask) i = false) :
    vs.filter (fun v => lo ≤ v ∧ v ≤ hi) = [] := by
  obtain ⟨null, min, max, hnull, hmin, hmax, hselect⟩ := selected_false h hkeep
  unfold selectPage at hselect
  cases null with
  | true =>
    rw [hbounds.null i vs hvs hnull]
    rfl
  | false =>
    rw [if_neg (by simp)] at hselect
    obtain ⟨pmin, hpmin, hselect⟩ := bind_eq_ok.mp hselect
    obtain ⟨pmax, hpmax, hselect⟩ := bind_eq_ok.mp hselect
    have hmiss : ¬ (lo ≤ pmax ∧ pmin ≤ hi) := by simpa [pure, Except.pure] using hselect
    refine List.filter_eq_nil_iff.mpr fun v hv hin => ?_
    obtain ⟨hlow, hhigh⟩ := hbounds.bounds i vs min max pmin pmax hvs hnull hmin hmax hpmin hpmax v hv
    have hin : lo ≤ v ∧ v ≤ hi := by simpa using hin
    exact hmiss ⟨Std.le_trans hin.1 hhigh, Std.le_trans hlow hin.2⟩

end

/-- With an index that bounds the pages, and no more values in the pages than
    `num_values`, reads in the range agree; without an index they are equal. -/
structure RangeReadAgrees [FixedWidth α] [LT α] [DecidableLT α] [LE α] [DecidableLE α]
    (decode : Bytes → Res CodecError α)
    (withRange : ParquetFile → ℕ → ℕ → α → α → Res CodecError (List α))
    (read : ParquetFile → ℕ → ℕ → Res CodecError (List α)) (file : ParquetFile)
    (rowGroup column : ℕ) : Prop where
  noIndex : readColumnIndexBytes file rowGroup column = .ok none →
    ∀ lo hi, withRange file rowGroup column lo hi = read file rowGroup column
  filter : ∀ {bytes : Bytes} {ci : ColumnIndex} {chunk : RawChunk} {pages : List Page} {lo hi : α}
    {v w : List α}, readColumnIndexBytes file rowGroup column
      = .ok (some bytes) → parseColumnIndex bytes = .ok ci →
    readChunkRaw file rowGroup column = .ok chunk → PagesOf chunk.bytes pages →
    BoundsPages decode ci (pageValues fixedDecoder chunk [] pages) →
    (allValues (pageValues (fixedDecoder (α := α)) chunk [] pages)).length ≤ chunk.totalValues →
    withRange file rowGroup column lo hi = .ok w → read file rowGroup column = .ok v →
      w.filter (fun x => lo ≤ x ∧ x ≤ hi) = v.filter (fun x => lo ≤ x ∧ x ≤ hi)

theorem rangeReadAgrees [FixedWidth α] [LT α] [DecidableLT α] [LE α] [DecidableLE α]
    [Std.IsPreorder α] (decode : Bytes → Res CodecError α) (file : ParquetFile)
    (rowGroup column : ℕ) :
    RangeReadAgrees decode (readColumnWithRange decode) (decodeChunk fixedDecoder) file rowGroup
      column := by
  constructor
  · intro hnone lo hi
    have hmask : pageMask decode file rowGroup column lo hi = .ok none := by
      rw [pageMask, hnone]
      rfl
    rw [readColumnWithRange, hmask, ← decodeChunkPageMasked_none]
    rfl
  · intro bytes ci chunk pages lo hi v w hbytes hci hchunk hpages hbounds htotal hw hv
    obtain ⟨mask, hmask, hw⟩ := bind_eq_ok.mp hw
    obtain ⟨index, hindex, hmask⟩ := bind_eq_ok.mp hmask
    cases hbytes.symm.trans hindex
    obtain ⟨ci', hci', hmask⟩ := bind_eq_ok.mp hmask
    cases hci.symm.trans hci'
    obtain ⟨mask, hselect, rfl⟩ := map_eq_ok.mp hmask
    obtain ⟨c, hc, hw⟩ := bind_eq_ok.mp hw
    cases hchunk.symm.trans hc
    obtain ⟨sw, hsw, hw⟩ := bind_eq_ok.mp hw
    cases hw
    rw [decodeChunk_eq fixedDecoder hchunk hpages] at hv
    obtain ⟨sv, hsv, rfl⟩ := map_eq_ok.mp hv
    rw [walkPages_eq hpages] at hsw
    have hout : sv.out = allValues (pageValues fixedDecoder chunk [] pages) :=
      decodePages_out hsv (by simpa using htotal)
    have hkept : sw.out = keptValues mask 0 (pageValues fixedDecoder chunk [] pages) :=
      prunedPages_out hsw
    rw [hout, hkept]
    refine filter_keptValues fun i vs hvs hkeep => ?_
    rw [Nat.zero_add] at hkeep
    exact dropped_outside hbounds hselect hvs hkeep

/-- **Pruned reads** of both types. -/
theorem readColumnWithRange_filter (file : ParquetFile) (rowGroup column : ℕ) :
    RangeReadAgrees decodeI64 readColumnI64WithRange readColumnI64 file rowGroup column ∧
      RangeReadAgrees decodeI32 readColumnI32WithRange readColumnI32 file rowGroup column :=
  ⟨rangeReadAgrees decodeI64 file rowGroup column, rangeReadAgrees decodeI32 file rowGroup column⟩

end

/-! ## A file with an index for its two pages -/

/-- Two pages of one value. -/
def rangePages : List Page := [samplePage [1], samplePage [2]]

/-- The pages, written. -/
def rangePageBytes : Bytes := rangePages.flatMap writePage

/-- Two entries, with the bounds 1, 1 and 2, 2. -/
def rangeIndexBytes : Bytes :=
  [0x19, 0x21, 2, 2, 0x19, 0x28, 8, 1, 0, 0, 0, 0, 0, 0, 0, 8, 2, 0, 0, 0, 0, 0, 0, 0,
   0x19, 0x28, 8, 1, 0, 0, 0, 0, 0, 0, 0, 8, 2, 0, 0, 0, 0, 0, 0, 0, 0x15, 0, 0]

/-- Their bounds. -/
def rangeIndex : ColumnIndex where
  nullPages := [false, false]
  minValues := [toLeBytes (1 : Int64), toLeBytes (2 : Int64)]
  maxValues := [toLeBytes (1 : Int64), toLeBytes (2 : Int64)]
  boundaryOrder := .unordered
  nullCounts := none

/-- The footer says there are `n` values. -/
def rangeMeta (n : Int64) : ColumnMetaData where
  columnType := .int64
  encodings := [.plain]
  pathInSchema := [[0x61]]
  codec := .uncompressed
  numValues := n
  totalUncompressedSize := Int64.ofNat rangePageBytes.length
  totalCompressedSize := Int64.ofNat rangePageBytes.length
  keyValueMetadata := none
  dataPageOffset := 4
  indexPageOffset := none
  dictionaryPageOffset := none
  statistics := none
  encodingStats := none
  bloomFilterOffset := none
  bloomFilterLength := none
  sizeStatistics := none

/-- A footer that counts `n` values. -/
def rangeFooter (n : Int64) : FileMetaData where
  version := 1
  schema := [{ name := [0x72], numChildren := some 1 },
    { columnType := some .int64, repetitionType := some .required, name := [0x61] }]
  numRows := n
  rowGroups := [{ columns := [{ fileOffset := 4
                                columnIndexOffset := some (4 + Int64.ofNat rangePageBytes.length)
                                columnIndexLength := some (Int32.ofNat rangeIndexBytes.length)
                                metaData := some (rangeMeta n) }],
                  numRows := n }]

/-- The footer, written. -/
def rangeFooterBytes (n : Int64) : Bytes := ((writeFileMetadata (rangeFooter n)).toOption).getD []

/-- The file. -/
def rangeFile (n : Int64) : ParquetFile where
  bytes := parquetMagic ++ (rangePageBytes ++ rangeIndexBytes) ++ rangeFooterBytes n
    ++ leBytes 4 (rangeFooterBytes n).length ++ parquetMagic
  footerBytes := rangeFooterBytes n
  footerOffset := 4 + (rangePageBytes ++ rangeIndexBytes).length

/-- The chunk. -/
def rangeChunk (n : Int64) : RawChunk where
  bytes := rangePageBytes
  totalValues := n.toUInt64.toNat
  codec := .uncompressed
  maxRepLevel := 0
  maxDefLevel := 0

theorem parseColumnIndex_range : parseColumnIndex rangeIndexBytes = .ok rangeIndex := by
  decide +kernel

/-- What the readers find in the file. -/
structure RangeFileReads (n : Int64) : Prop where
  opens : ParquetFile.open (rangeFile n).bytes = .ok (rangeFile n)
  index : readColumnIndexBytes (rangeFile n) 0 0 = .ok (some rangeIndexBytes)
  chunk : readChunkRaw (rangeFile n) 0 0 = .ok (rangeChunk n)

theorem rangeFileReads {n : Int64}
    (hw : writeFileMetadata (rangeFooter n) = .ok (rangeFooterBytes n))
    (hlen : (rangeFooterBytes n).length < 2 ^ 32)
    (hpages : (rangeFile n).readRange 4 rangePageBytes.length = .ok rangePageBytes)
    (hindex : (rangeFile n).readRange (4 + rangePageBytes.length) rangeIndexBytes.length
      = .ok rangeIndexBytes) : RangeFileReads n where
  opens := ParquetFile.open_frame hlen
  index := by
    have hmd : (rangeFile n).metadata = .ok (rangeFooter n) :=
      ParquetFile.metadata_of_written hw (by dsimp only [rangeFile]; omega)
    have hoff : (4 + Int64.ofNat rangePageBytes.length).toUInt64.toNat
        = 4 + rangePageBytes.length := by decide +kernel
    rw [readColumnIndexBytes, hmd]
    change some <$> mapIo ioToCodec ((rangeFile n).readRange
      (4 + Int64.ofNat rangePageBytes.length).toUInt64.toNat rangeIndexBytes.length) = _
    rw [hoff, hindex]
    rfl
  chunk := by
    have hmd : (rangeFile n).metadata = .ok (rangeFooter n) :=
      ParquetFile.metadata_of_written hw (by dsimp only [rangeFile]; omega)
    have hlevels : computeMaxLevels (rangeFooter n).schema 0 = .ok (0, 0) :=
      computeMaxLevels_flat rfl (by decide) (by decide) (by decide)
    have hcm : columnMetaData (rangeFooter n) 0 0 = .ok (rangeMeta n) := rfl
    rw [readChunkRaw_eq hmd hcm hpages hlevels]
    rfl

theorem rangeFileReads_one : RangeFileReads 1 :=
  rangeFileReads rfl (by decide +kernel) (by decide +kernel) (by decide +kernel)

theorem rangeFileReads_two : RangeFileReads 2 :=
  rangeFileReads rfl (by decide +kernel) (by decide +kernel) (by decide +kernel)

theorem pagesOf_rangeChunk (n : Int64) : PagesOf (rangeChunk n).bytes rangePages :=
  pagesOf_flatMap (by decide)

section
variable [Platform]

theorem pageValues_range (n : Int64) :
    pageValues (fixedDecoder (α := Int64)) (rangeChunk n) [] rangePages = [some [1], some [2]] :=
  rfl

theorem boundsPages_range (n : Int64) : BoundsPages decodeI64 rangeIndex
    (pageValues (fixedDecoder (α := Int64)) (rangeChunk n) [] rangePages) := by
  have hstat : ∀ v : Int64, decodeI64 (toLeBytes v) = .ok v := fun v => by
    rw [decodeI64, decodeStat, if_neg (by simp), fromLeBytes_toLeBytes]
  rw [pageValues_range]
  refine ⟨rfl, ?_, ?_⟩
  · rintro (_ | _ | i) vs hvs hnull <;> simp [rangeIndex] at hnull
  · rintro (_ | _ | i) vs min max pmin pmax hvs hnull hmin hmax hpmin hpmax
    · cases hvs
      cases hmin
      cases hmax
      cases (hstat 1).symm.trans hpmin
      cases (hstat 1).symm.trans hpmax
      simp
    · cases hvs
      cases hmin
      cases hmax
      cases (hstat 2).symm.trans hpmin
      cases (hstat 2).symm.trans hpmax
      simp
    · simp at hvs

end

theorem readColumnWithRange_filter_sample : ∃ w v,
    @readColumnI64WithRange Platform.stored (rangeFile 2) 0 0 2 10 = .ok w ∧
      @readColumnI64 Platform.stored (rangeFile 2) 0 0 = .ok v ∧
      w.filter (fun x => 2 ≤ x ∧ x ≤ 10) = v.filter (fun x => 2 ≤ x ∧ x ≤ 10) := by
  let _ := Platform.stored
  have hw : readColumnI64WithRange (rangeFile 2) 0 0 2 10 = .ok [2] := by decide +kernel
  have hv : readColumnI64 (rangeFile 2) 0 0 = .ok [1, 2] := by decide +kernel
  refine ⟨_, _, hw, hv, ?_⟩
  exact (readColumnWithRange_filter (rangeFile 2) 0 0).1.filter rangeFileReads_two.index
    parseColumnIndex_range rangeFileReads_two.chunk (pagesOf_rangeChunk 2) (boundsPages_range 2)
    (by decide +kernel) hw hv

/-- A footer that counts one value: the full read ends with the first page,
    the pruned read goes on to the second. -/
theorem readColumnI64WithRange_reads_on :
    ParquetFile.open (rangeFile 1).bytes = .ok (rangeFile 1) ∧
      readColumnIndexBytes (rangeFile 1) 0 0 = .ok (some rangeIndexBytes) ∧
      parseColumnIndex rangeIndexBytes = .ok rangeIndex ∧
      readChunkRaw (rangeFile 1) 0 0 = .ok (rangeChunk 1) ∧
      PagesOf (rangeChunk 1).bytes rangePages ∧
      @BoundsPages Int64 _ decodeI64 rangeIndex
        (@pageValues Int64 Platform.stored fixedDecoder (rangeChunk 1) [] rangePages) ∧
      @readColumnI64 Platform.stored (rangeFile 1) 0 0 = .ok [1] ∧
      @readColumnI64WithRange Platform.stored (rangeFile 1) 0 0 0 10 = .ok [1, 2] ∧
      ([1] : List Int64).filter (fun x => 0 ≤ x ∧ x ≤ 10)
        ≠ ([1, 2] : List Int64).filter fun x => 0 ≤ x ∧ x ≤ 10 := by
  let _ := Platform.stored
  exact ⟨rangeFileReads_one.opens, rangeFileReads_one.index, parseColumnIndex_range,
    rangeFileReads_one.chunk, pagesOf_rangeChunk 1, boundsPages_range 1, by decide +kernel,
    by decide +kernel, by decide⟩

end EmatixParquet
