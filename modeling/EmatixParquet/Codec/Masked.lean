/-
  Reading a chunk at the rows of a mask, against reading it whole (`read.rs`).

  Both readers are folds over the pages of the chunk, and the two folds run in
  lock step: after each page the row cursor of one is the length of what the
  other has decoded.

  * `maskedDataPage_eq`: what one data page contributes;
  * `masked_lockstep`: what the masked reader returns, page by page;
  * `readColumnMasked_filters_iff`: it is the filtered column, for every mask,
    exactly when the PLAIN pages begin at multiples of 8 rows.
-/
import EmatixParquet.Codec.Read

namespace EmatixParquet

open Wire

/-! ## Data pages of a chunk -/

/-- The number of rows of a page; only data pages have rows. -/
def pageRows (page : Page) : ℕ :=
  if page.1.pageType.IsData then
    match dataPageNumValues page.1 with
    | .ok n => n
    | .error _ => 0
  else 0

/-- A data page whose values are PLAIN. -/
def IsPlainPage (page : Page) : Prop :=
  page.1.pageType.IsData ∧ pageEncoding page.1 = some .plain

instance : DecidablePred IsPlainPage := fun _ => inferInstanceAs (Decidable (_ ∧ _))

/-- From row `row` on, PLAIN pages of 8 rows or more begin at multiples of 8. -/
def PlainAligned : ℕ → List Page → Prop
  | _, [] => True
  | row, page :: pages =>
    (IsPlainPage page → 8 ≤ pageRows page → row % 8 = 0) ∧ PlainAligned (row + pageRows page) pages

theorem plainAligned_of_empty {row : ℕ} {pages : List Page} (h : (pages.map pageRows).sum = 0) :
    PlainAligned row pages := by
  induction pages generalizing row with
  | nil => trivial
  | cons page pages ih =>
    simp only [List.map_cons, List.sum_cons, Nat.add_eq_zero_iff] at h
    exact ⟨fun _ h8 => by omega, ih h.2⟩

theorem pageRows_of_isData {page : Page} {n : ℕ} (hdata : page.1.pageType.IsData)
    (h : dataPageNumValues page.1 = .ok n) : pageRows page = n := by
  simp [pageRows, hdata, h]

section
variable {α : Type} [FixedWidth α]

theorem decodeValues_eq_ok {dict vs : List α} {info : DataPageInfo}
    (h : decodeValues fixedDecoder dict info = .ok vs) :
    info.encoding = .plain ∧ decodePlainFixed info.values = .ok vs ∨
      info.encoding ≠ .plain ∧ dict ≠ [] ∧
        (∀ pageN mask row, maskedValues dict info pageN mask row
          = gatherDictAtBitmap info.values pageN mask row dict) ∧
        decodeRleDictionary info.values dict info.numValues = .ok vs := by
  unfold decodeValues at h
  unfold maskedValues
  split at h
  · next he => exact .inl ⟨he, h⟩
  · next he =>
    split at h
    · cases h
    · next hdict => exact .inr ⟨by simp [he], hdict, by simp [hdict], h⟩
  · next he =>
    split at h
    · cases h
    · next hdict => exact .inr ⟨by simp [he], hdict, by simp [hdict], h⟩
  · cases h

/-- As many values as rows. -/
theorem decodeValues_length {dict vs : List α} {info : DataPageInfo}
    (hplain : info.encoding = .plain →
      info.values.length = info.numValues * FixedWidth.width α)
    (h : decodeValues fixedDecoder dict info = .ok vs) : vs.length = info.numValues := by
  rcases decodeValues_eq_ok h with ⟨he, hvs⟩ | ⟨-, -, -, hvs⟩
  · obtain ⟨hlen, -⟩ := decodePlainFixed_eq_ok.mp hvs
    rw [hplain he] at hlen
    exact (Nat.eq_of_mul_eq_mul_right FixedWidth.width_pos hlen).symm
  · have hcover : 0 + info.numValues ≤ 8 * (List.replicate info.numValues (0 : UInt8)).length := by
      simp
      omega
    exact (gatherDictAtBitmap_eq hcover hvs).2

end

section
variable [Platform] {α : Type} [FixedWidth α]

/-- A data page holds as many values as its header says; the other encoding
    carries its own count. -/
structure WellFormedPage (α : Type) [FixedWidth α] (chunk : RawChunk) (page : Page) : Prop where
  header : page.1.pageType.IsData → ∃ n, dataPageNumValues page.1 = .ok n
  plain : page.1.pageType.IsData → ∀ info, dataPageView page chunk = .ok info →
    info.encoding = .plain → info.values.length = info.numValues * FixedWidth.width α

/-- A chunk is made of these pages: a dictionary comes first, and the rows of
    the data pages add up. -/
structure WellFormedChunk (α : Type) [FixedWidth α] (chunk : RawChunk) (pages : List Page) :
    Prop where
  pagesOf : PagesOf chunk.bytes pages
  dictionaryFirst : ∀ page ∈ pages.tail, page.1.pageType ≠ .dictionaryPage
  page : ∀ page ∈ pages, WellFormedPage α chunk page
  total : (pages.map pageRows).sum = chunk.totalValues

/-! ## One data page -/

/-- A data page that has been decoded. -/
structure DecodedPage (α : Type) where
  plain : Bool
  values : List α

/-- What the masked reader takes of a page that begins at row `row`. -/
def DecodedPage.masked (p : DecodedPage α) (mask : Bytes) (row : ℕ) : List α :=
  if countBits (leNat mask).testBit row p.values.length = 0 then []
  else if p.plain then selectFrom (sparseBit mask row p.values.length) 0 p.values
  else selectFrom (leNat mask).testBit row p.values

/-- **One data page**: the values of its selected rows, if any row is. -/
theorem maskedDataPage_eq {chunk : RawChunk} {page : Page} {info : DataPageInfo} {vs : List α}
    {mask : Bytes} {s : MaskedState α} (hinfo : dataPageView page chunk = .ok info)
    (hvs : decodeValues fixedDecoder s.dict info = .ok vs) (hlen : vs.length = info.numValues)
    (hcover : s.rowCursor + vs.length ≤ 8 * mask.length) :
    maskedDataPage chunk mask s page = .ok (MaskedState.next
      { s with
        rowCursor := s.rowCursor + vs.length
        out := s.out ++ DecodedPage.masked ⟨info.encoding = .plain, vs⟩ mask s.rowCursor }
      chunk.totalValues) := by
  have hcount : popcountRange mask s.rowCursor (s.rowCursor + vs.length)
      = .ok (countBits (leNat mask).testBit s.rowCursor vs.length) := by
    rw [popcountRange_eq hcover, Nat.add_sub_cancel_left]
  rw [maskedDataPage, (dataPageView_info hinfo).1, ← hlen]
  change (popcountRange mask s.rowCursor (s.rowCursor + vs.length) >>= _) = _
  rw [hcount]
  change (if _ then _ else _) = _
  by_cases hzero : countBits (leNat mask).testBit s.rowCursor vs.length = 0
  · rw [if_pos hzero, DecodedPage.masked, if_pos hzero, List.append_nil]
    rfl
  · rw [if_neg hzero, DecodedPage.masked, if_neg hzero, hinfo]
    change (maskedValues s.dict info _ mask s.rowCursor >>= _) = _
    rcases decodeValues_eq_ok hvs with ⟨he, hplain⟩ | ⟨he, -, hgather, hdict⟩
    · have hsparse : maskedValues s.dict info vs.length mask s.rowCursor
          = .ok (selectFrom (sparseBit mask s.rowCursor vs.length) 0 vs) := by
        rw [maskedValues.eq_def, he]
        exact plainSparseDecode_eq hplain hcover
      rw [hsparse]
      simp [he]
    · have hselect := (gatherDictAtBitmap_eq (hlen ▸ hcover) hdict).1
      rw [hgather, hlen, hselect]
      simp [he]

/-! ## The two folds -/

/-- What the masked reader takes of the pages from row `row` on. -/
def maskedFrom (mask : Bytes) : ℕ → List (DecodedPage α) → List α
  | _, [] => []
  | row, p :: ps => p.masked mask row ++ maskedFrom mask (row + p.values.length) ps

/-- `PlainAligned` of decoded pages. -/
def AlignedFrom : ℕ → List (DecodedPage α) → Prop
  | _, [] => True
  | row, p :: ps =>
    (p.plain → 8 ≤ p.values.length → row % 8 = 0) ∧ AlignedFrom (row + p.values.length) ps

theorem decodePage_of_isData {chunk : RawChunk} {page : Page} {s : DecodeState α}
    (hdata : page.1.pageType.IsData) : decodePage fixedDecoder chunk s page = (do
      let info ← dataPageView page chunk
      let vs ← decodeValues fixedDecoder s.dict info
      pure { s with out := s.out ++ vs }) := by
  rcases hdata with h | h <;> rw [decodePage.eq_def, h]

theorem maskedStep_of_isData {chunk : RawChunk} {mask : Bytes} {page : Page} {s : MaskedState α}
    (hdata : page.1.pageType.IsData) :
    maskedStep chunk mask s page = maskedDataPage chunk mask s page := by
  rcases hdata with h | h <;> rw [maskedStep.eq_def, h]

/-- A data page the full reader decodes. -/
theorem decodePage_isData {chunk : RawChunk} {page : Page} {s s' : DecodeState α}
    (hdata : page.1.pageType.IsData) (hwf : WellFormedPage α chunk page)
    (h : decodePage fixedDecoder chunk s page = .ok s') :
    ∃ info vs, dataPageView page chunk = .ok info ∧
      decodeValues fixedDecoder s.dict info = .ok vs ∧ vs.length = info.numValues ∧
      pageRows page = vs.length ∧ (IsPlainPage page ↔ info.encoding = .plain) ∧
      s' = { s with out := s.out ++ vs } := by
  rw [decodePage_of_isData hdata] at h
  obtain ⟨info, hinfo, h⟩ := bind_eq_ok.mp h
  obtain ⟨vs, hvs, h⟩ := bind_eq_ok.mp h
  cases h
  have hlen := decodeValues_length (hwf.plain hdata info hinfo) hvs
  obtain ⟨hn, he⟩ := dataPageView_info hinfo
  refine ⟨info, vs, hinfo, hvs, hlen, ?_, ?_, rfl⟩
  · rw [pageRows_of_isData hdata hn, hlen]
  · simp [IsPlainPage, hdata, he]

/-- **Lock step.**  By induction on the pages, while rows remain: the row
    cursor is the length of what has been decoded. -/
theorem masked_lockstep {chunk : RawChunk} {pages : List Page} {s s' : DecodeState α}
    (hwf : ∀ page ∈ pages, WellFormedPage α chunk page)
    (htotal : s.out.length + (pages.map pageRows).sum = chunk.totalValues)
    (hrows : s.out.length < chunk.totalValues)
    (h : foldPages (decodeStep fixedDecoder chunk) s pages = .ok s') :
    ∃ ps : List (DecodedPage α), s'.out = s.out ++ ps.flatMap DecodedPage.values ∧
      s'.out.length = chunk.totalValues ∧
      (AlignedFrom s.out.length ps ↔ PlainAligned s.out.length pages) ∧
      ∀ mask out, chunk.totalValues ≤ 8 * mask.length →
        (·.out) <$> foldPages (maskedStep chunk mask) ⟨s.dict, s.out.length, out⟩ pages
          = .ok (out ++ maskedFrom mask s.out.length ps) := by
  induction pages generalizing s with
  | nil =>
    simp at htotal
    omega
  | cons page pages ih =>
    rw [List.map_cons, List.sum_cons] at htotal
    have hpage := hwf page List.mem_cons_self
    have hpages : ∀ p ∈ pages, WellFormedPage α chunk p := fun p hp =>
      hwf p (List.mem_cons_of_mem _ hp)
    rw [foldPages, decodeStep] at h
    cases hdec : decodePage fixedDecoder chunk s page with
    | error e => simp [hdec, bind, Except.bind] at h
    | ok s₁ =>
      rw [hdec] at h
      simp only [bind, Except.bind, pure, Except.pure] at h
      by_cases hdata : page.1.pageType.IsData
      · obtain ⟨info, vs, hinfo, hvs, hlen, hpageRows, hplain, rfl⟩ :=
          decodePage_isData hdata hpage hdec
        have haligned : (decide (info.encoding = .plain) = true ↔ IsPlainPage page) := by
          rw [hplain, decide_eq_true_iff]
        have hmasked : ∀ mask out, chunk.totalValues ≤ 8 * mask.length →
            maskedStep chunk mask ⟨s.dict, s.out.length, out⟩ page
              = .ok (MaskedState.next ⟨s.dict, s.out.length + vs.length, out
                ++ DecodedPage.masked ⟨info.encoding = .plain, vs⟩ mask s.out.length⟩
                chunk.totalValues) := by
          intro mask out hcover
          rw [maskedStep_of_isData hdata]
          exact maskedDataPage_eq hinfo hvs hlen (by dsimp only; omega)
        rw [hpageRows] at htotal
        by_cases hdone : chunk.totalValues ≤ (s.out ++ vs).length
        · -- the last rows: both loops end
          rw [if_pos hdone] at h
          cases h
          rw [List.length_append] at hdone
          have hfull : (s.out ++ vs).length = chunk.totalValues := by
            rw [List.length_append]
            omega
          refine ⟨[⟨info.encoding = .plain, vs⟩], by simp, hfull, ?_, ?_⟩
          · simp only [AlignedFrom, PlainAligned, hpageRows, haligned, and_true, iff_self_and]
            exact fun _ => plainAligned_of_empty (by omega)
          · intro mask out hcover
            rw [foldPages, hmasked mask out hcover, MaskedState.next, if_pos hdone]
            simp [maskedFrom, Functor.map, Except.map]
        · rw [if_neg hdone] at h
          obtain ⟨ps, hout, hfull, halign, hrest⟩ := ih hpages
            (by rw [List.length_append]; omega) (Nat.lt_of_not_le hdone) h
          rw [List.length_append] at hdone halign hrest
          refine ⟨⟨info.encoding = .plain, vs⟩ :: ps, by simp [hout], hfull, ?_, ?_⟩
          · simp only [AlignedFrom, PlainAligned, hpageRows, haligned, halign]
          · intro mask out hcover
            rw [foldPages, hmasked mask out hcover, MaskedState.next, if_neg hdone]
            exact (hrest mask _ hcover).trans (by rw [maskedFrom, List.append_assoc])
      · -- a dictionary or an index page: no rows
        have hnoRows : pageRows page = 0 := by simp [pageRows, hdata]
        have hskip : s₁.out = s.out ∧ ∀ mask out,
            maskedStep chunk mask ⟨s.dict, s.out.length, out⟩ page
              = .ok (.inl ⟨s₁.dict, s.out.length, out⟩) := by
          unfold decodePage at hdec
          unfold maskedStep
          cases ht : page.1.pageType with
          | dataPage => exact absurd (.inl ht) hdata
          | dataPageV2 => exact absurd (.inr ht) hdata
          | indexPage =>
            simp only [ht] at hdec ⊢
            cases hdec
            exact ⟨rfl, fun _ _ => rfl⟩
          | dictionaryPage =>
            simp only [ht] at hdec ⊢
            obtain ⟨dict, hdict, hdec⟩ := bind_eq_ok.mp hdec
            cases hdec
            refine ⟨rfl, fun mask out => ?_⟩
            change (dictionaryPage fixedDecoder.plain page chunk >>= _) = _
            rw [hdict]
            rfl
        obtain ⟨hsame, hmasked⟩ := hskip
        rw [hsame, if_neg (by omega)] at h
        rw [hnoRows] at htotal
        obtain ⟨ps, hout, hfull, halign, hrest⟩ := ih hpages (by rw [hsame]; omega)
          (by rw [hsame]; omega) h
        rw [hsame] at hout halign hrest
        refine ⟨ps, hout, hfull, ?_, ?_⟩
        · rw [halign]
          simp [PlainAligned, hnoRows]
        · intro mask out hcover
          rw [foldPages, hmasked]
          exact hrest mask out hcover

/-! ## Decoded pages -/

omit [Platform] [FixedWidth α] in
/-- No selected row, no values. -/
theorem maskedFrom_of_unselected {mask : Bytes} {row : ℕ} {ps : List (DecodedPage α)}
    (h : ∀ i, row ≤ i → i < row + (ps.flatMap DecodedPage.values).length →
      (leNat mask).testBit i = false) : maskedFrom mask row ps = [] := by
  induction ps generalizing row with
  | nil => rfl
  | cons p ps ih =>
    simp only [List.flatMap_cons, List.length_append] at h
    have hzero : countBits (leNat mask).testBit row p.values.length = 0 := by
      unfold countBits
      simp only [List.length_eq_zero_iff, List.filter_eq_nil_iff, List.mem_range]
      intro i hi
      simp [h (row + i) (by omega) (by omega)]
    rw [maskedFrom, DecodedPage.masked, if_pos hzero, List.nil_append]
    exact ih fun i hi hlt => h i (by omega) (by omega)

omit [Platform] [FixedWidth α] in
/-- Aligned pages are filtered, by induction on them. -/
theorem maskedFrom_of_aligned {mask : Bytes} {row : ℕ} {ps : List (DecodedPage α)}
    (h : AlignedFrom row ps) :
    maskedFrom mask row ps
      = selectFrom (leNat mask).testBit row (ps.flatMap DecodedPage.values) := by
  induction ps generalizing row with
  | nil => rfl
  | cons p ps ih =>
    obtain ⟨haligned, hrest⟩ := h
    rw [List.flatMap_cons, selectFrom_append, maskedFrom, ih hrest, DecodedPage.masked]
    congr 1
    split
    · next hzero =>
      unfold countBits at hzero
      simp only [List.length_eq_zero_iff, List.filter_eq_nil_iff, List.mem_range] at hzero
      rw [selectFrom_eq_nil]
      intro i hi
      simpa using hzero i hi
    · split
      · next hplain =>
        refine selectFrom_congr 0 row fun i hi => ?_
        rw [Nat.zero_add, sparseBit_of_aligned]
        by_cases h8 : 8 ≤ p.values.length
        · exact .inl (haligned hplain h8)
        · exact .inr (by omega)
      · rfl

omit [Platform] [FixedWidth α] in
/-- The last row of the last whole block of a misaligned page has no bit that
    the blocks read, so a mask of this row alone selects nothing. -/
theorem exists_lost_row {row : ℕ} {ps : List (DecodedPage α)} (h : ¬ AlignedFrom row ps) :
    ∃ b, row ≤ b ∧ b < row + (ps.flatMap DecodedPage.values).length ∧
      ∀ mask, (∀ i, (leNat mask).testBit i = decide (i = b)) → maskedFrom mask row ps = [] := by
  induction ps generalizing row with
  | nil => exact absurd trivial h
  | cons p ps ih =>
    simp only [List.flatMap_cons, List.length_append]
    by_cases hrest : AlignedFrom (row + p.values.length) ps
    · -- the first page is misaligned
      have hfirst : p.plain = true ∧ 8 ≤ p.values.length ∧ row % 8 ≠ 0 := by
        simp only [AlignedFrom, hrest, and_true] at h
        tauto
      obtain ⟨hplain, h8, hmod⟩ := hfirst
      refine ⟨row + 8 * (p.values.length / 8) - 1, by omega, by omega, fun mask hmask => ?_⟩
      have hpage : p.masked mask row = [] := by
        unfold DecodedPage.masked
        split
        · rfl
        · rw [selectFrom_eq_nil]
          intro i hi
          rw [Nat.zero_add, sparseBit]
          split <;> rw [hmask] <;> simp <;> omega
      rw [maskedFrom, hpage, List.nil_append]
      refine maskedFrom_of_unselected fun i hi _ => ?_
      rw [hmask]
      simp
      omega
    · -- a later page is
      obtain ⟨b, hge, hlt, hlost⟩ := ih hrest
      refine ⟨b, by omega, by omega, fun mask hmask => ?_⟩
      have hzero : countBits (leNat mask).testBit row p.values.length = 0 := by
        unfold countBits
        simp only [List.length_eq_zero_iff, List.filter_eq_nil_iff, List.mem_range]
        intro i hi
        rw [hmask]
        simp
        omega
      rw [maskedFrom, DecodedPage.masked, if_pos hzero, hlost mask hmask]
      rfl

/-! ## Whole chunks -/

/-- A chunk without rows: the masked reader finds nothing to add. -/
theorem masked_of_empty {chunk : RawChunk} {pages : List Page} {s : MaskedState α} {mask : Bytes}
    (hwf : ∀ page ∈ pages, WellFormedPage α chunk page)
    (hdict : ∀ page ∈ pages, page.1.pageType ≠ .dictionaryPage)
    (hempty : (pages.map pageRows).sum = 0) (hrow : s.rowCursor = 0)
    (htotal : chunk.totalValues = 0) :
    (·.out) <$> foldPages (maskedStep chunk mask) s pages = .ok s.out := by
  induction pages with
  | nil => rfl
  | cons page pages ih =>
    simp only [List.map_cons, List.sum_cons, Nat.add_eq_zero_iff] at hempty
    by_cases hdata : page.1.pageType.IsData
    · obtain ⟨n, hn⟩ := (hwf page List.mem_cons_self).header hdata
      have hn0 : n = 0 := by rw [← pageRows_of_isData hdata hn, hempty.1]
      subst hn0
      have hstep : maskedStep chunk mask s page = .ok (.inr s) := by
        have hcount : popcountRange mask s.rowCursor (s.rowCursor + 0) = .ok 0 := by
          rw [popcountRange_eq (by omega)]
          simp [countBits]
        rw [maskedStep_of_isData hdata, maskedDataPage, hn]
        change (popcountRange mask s.rowCursor (s.rowCursor + 0) >>= _) = _
        rw [hcount]
        change Except.ok (MaskedState.next _ _) = _
        rw [MaskedState.next, if_pos (by omega)]
        rfl
      rw [foldPages, hstep]
      rfl
    · have hstep : maskedStep chunk mask s page = .ok (.inl s) := by
        unfold maskedStep
        cases ht : page.1.pageType with
        | dataPage => exact absurd (.inl ht) hdata
        | dataPageV2 => exact absurd (.inr ht) hdata
        | indexPage => rfl
        | dictionaryPage => exact absurd ht (hdict page List.mem_cons_self)
      rw [foldPages, hstep]
      exact ih (fun p hp => hwf p (List.mem_cons_of_mem _ hp))
        (fun p hp => hdict p (List.mem_cons_of_mem _ hp)) hempty.2

/-- `masked_lockstep` from the beginning of the chunk, which may be empty. -/
theorem masked_pages {chunk : RawChunk} {pages : List Page} {s' : DecodeState α}
    (hwf : WellFormedChunk α chunk pages)
    (h : foldPages (decodeStep fixedDecoder chunk) {} pages = .ok s') :
    ∃ ps : List (DecodedPage α), s'.out = ps.flatMap DecodedPage.values ∧
      s'.out.length = chunk.totalValues ∧ (AlignedFrom 0 ps ↔ PlainAligned 0 pages) ∧
      ∀ mask out, chunk.totalValues ≤ 8 * mask.length →
        (·.out) <$> foldPages (maskedStep chunk mask) { out } pages
          = .ok (out ++ maskedFrom mask 0 ps) := by
  by_cases hrows : chunk.totalValues = 0
  · have hempty := hwf.total.trans hrows
    have hout : s'.out = [] ∧ ∀ mask out,
        (·.out) <$> foldPages (maskedStep chunk mask) ({ out } : MaskedState α) pages
          = .ok out := by
      cases pages with
      | nil =>
        cases h
        exact ⟨rfl, fun _ _ => rfl⟩
      | cons page pages =>
        simp only [List.map_cons, List.sum_cons, Nat.add_eq_zero_iff] at hempty
        rw [foldPages, decodeStep] at h
        obtain ⟨s₁, hdec, hs⟩ : ∃ s₁, decodePage fixedDecoder chunk {} page = .ok s₁ ∧ s' = s₁ := by
          cases hdec : decodePage fixedDecoder chunk ({} : DecodeState α) page with
          | error e => simp [hdec, bind, Except.bind] at h
          | ok s₁ =>
            simp [hdec, bind, Except.bind, pure, Except.pure, hrows] at h
            exact ⟨s₁, rfl, h.symm⟩
        subst hs
        have hrest : ∀ p ∈ pages, WellFormedPage α chunk p := fun p hp =>
          hwf.page p (List.mem_cons_of_mem _ hp)
        by_cases hdict : page.1.pageType = .dictionaryPage
        · rw [decodePage.eq_def, hdict] at hdec
          obtain ⟨dict, hd, hdec⟩ := bind_eq_ok.mp hdec
          cases hdec
          refine ⟨rfl, fun mask out => ?_⟩
          have hstep : maskedStep chunk mask ({ out } : MaskedState α) page
              = .ok (.inl { dict, out }) := by
            rw [maskedStep.eq_def, hdict]
            change (dictionaryPage fixedDecoder.plain page chunk >>= _) = _
            rw [hd]
            rfl
          rw [foldPages, hstep]
          exact masked_of_empty hrest hwf.dictionaryFirst hempty.2 rfl hrows
        · refine ⟨?_, fun mask out => masked_of_empty hwf.page ?_ ?_ rfl hrows⟩
          · by_cases hdata : page.1.pageType.IsData
            · obtain ⟨info, vs, -, -, -, hlen, -, rfl⟩ :=
                decodePage_isData hdata (hwf.page page List.mem_cons_self) hdec
              simpa using List.length_eq_zero_iff.mp (hlen.symm.trans hempty.1)
            · unfold decodePage at hdec
              cases ht : page.1.pageType with
              | dataPage => exact absurd (.inl ht) hdata
              | dataPageV2 => exact absurd (.inr ht) hdata
              | dictionaryPage => exact absurd ht hdict
              | indexPage =>
                simp only [ht] at hdec
                cases hdec
                rfl
          · intro p hp
            rcases List.mem_cons.mp hp with rfl | hp
            · exact hdict
            · exact hwf.dictionaryFirst p hp
          · simp [hempty]
    refine ⟨[], hout.1, by rw [hout.1, hrows]; rfl, ?_, fun mask out _ => ?_⟩
    · exact iff_of_true trivial (plainAligned_of_empty hempty)
    · simpa [maskedFrom] using hout.2 mask out
  · obtain ⟨ps, hout, hrest⟩ := masked_lockstep (s := {}) hwf.page
      (by simpa using hwf.total) (Nat.pos_of_ne_zero hrows) h
    exact ⟨ps, hout, hrest⟩

/-- The masked reader returns the filtered column, whatever the mask and the
    earlier content of `out`. -/
def FiltersRead (readMasked : Bytes → List α → Res CodecError (List α)) (totalValues : ℕ)
    (v : List α) : Prop :=
  ∀ mask out, divCeil totalValues 8 ≤ mask.length →
    readMasked mask out = .ok (out ++ selectFrom (leNat mask).testBit 0 v)

theorem decodeChunkMasked_filters_iff {file : ParquetFile} {rowGroup column : ℕ}
    {chunk : RawChunk} {pages : List Page} {v : List α}
    (hchunk : readChunkRaw file rowGroup column = .ok chunk)
    (hwf : WellFormedChunk α chunk pages)
    (hread : decodeChunk fixedDecoder file rowGroup column = .ok v) :
    FiltersRead (decodeChunkMasked file rowGroup column) chunk.totalValues v
      ↔ PlainAligned 0 pages := by
  rw [decodeChunk_eq _ hchunk hwf.pagesOf] at hread
  cases hfold : foldPages (decodeStep fixedDecoder chunk) ({} : DecodeState α) pages with
  | error e => simp [hfold, Functor.map, Except.map] at hread
  | ok s' =>
    rw [hfold] at hread
    cases hread
    obtain ⟨ps, hout, hfull, haligned, hmasked⟩ := masked_pages hwf hfold
    have hread : ∀ mask out, divCeil chunk.totalValues 8 ≤ mask.length →
        decodeChunkMasked file rowGroup column mask out = .ok (out ++ maskedFrom mask 0 ps) := by
      intro mask out hmask
      rw [decodeChunkMasked_eq out hchunk hwf.pagesOf hmask]
      refine hmasked mask out ?_
      unfold divCeil at hmask
      omega
    change FiltersRead _ _ s'.out ↔ _
    rw [← haligned, hout]
    constructor
    · intro hfilters
      by_contra hnot
      obtain ⟨b, -, hlt, hlost⟩ := exists_lost_row hnot
      rw [Nat.zero_add, ← hout, hfull] at hlt
      -- the mask of this one row
      have hlen : b < 8 * divCeil chunk.totalValues 8 := by
        unfold divCeil
        omega
      have hpow : 2 ^ b < 256 ^ divCeil chunk.totalValues 8 := by
        rw [show 256 = 2 ^ 8 from rfl, ← Nat.pow_mul]
        exact Nat.pow_lt_pow_right (by omega) hlen
      have hbits : ∀ i, (leNat (leBytes (divCeil chunk.totalValues 8) (2 ^ b))).testBit i
          = decide (i = b) := by
        intro i
        rw [leNat_leBytes, Nat.mod_eq_of_lt hpow, Nat.testBit_two_pow]
        exact decide_eq_decide.mpr eq_comm
      have hmask := hfilters (leBytes (divCeil chunk.totalValues 8) (2 ^ b)) [] (by simp)
      rw [hread _ _ (by simp), hlost _ hbits] at hmask
      have hb : b < (ps.flatMap DecodedPage.values).length := by rw [← hout, hfull]; exact hlt
      have hmem := getElem_mem_selectFrom 0 hb
        (show (leNat (leBytes (divCeil chunk.totalValues 8) (2 ^ b))).testBit (0 + b) = true by
          rw [Nat.zero_add, hbits]
          simp)
      rw [← List.append_cancel_left (Except.ok.inj hmask)] at hmem
      simp at hmem
    · intro hps mask out hmask
      rw [hread mask out hmask, maskedFrom_of_aligned hps]

/-- **Masked reads filter**: for each fixed-width type, whatever the mask, if
    and only if PLAIN pages of 8 rows or more begin at multiples of 8 rows. -/
theorem readColumnMasked_filters_iff {file : ParquetFile} {rowGroup column : ℕ}
    {chunk : RawChunk} {pages : List Page}
    (hchunk : readChunkRaw file rowGroup column = .ok chunk) :
    (∀ v, WellFormedChunk Int64 chunk pages → readColumnI64 file rowGroup column = .ok v →
      (FiltersRead (readColumnI64Masked file rowGroup column) chunk.totalValues v
        ↔ PlainAligned 0 pages)) ∧
    (∀ v, WellFormedChunk Int32 chunk pages → readColumnI32 file rowGroup column = .ok v →
      (FiltersRead (readColumnI32Masked file rowGroup column) chunk.totalValues v
        ↔ PlainAligned 0 pages)) ∧
    (∀ v, WellFormedChunk F64 chunk pages → readColumnF64 file rowGroup column = .ok v →
      (FiltersRead (readColumnF64Masked file rowGroup column) chunk.totalValues v
        ↔ PlainAligned 0 pages)) := by
  refine ⟨fun v hwf hread => ?_, fun v hwf hread => ?_, fun v hwf hread => ?_⟩
  · exact decodeChunkMasked_filters_iff hchunk hwf hread
  · exact decodeChunkMasked_filters_iff hchunk hwf hread
  · exact decodeChunkMasked_filters_iff hchunk hwf hread

end

/-! ## A file with two PLAIN pages -/

/-- A PLAIN page of a column that is not compressed. -/
def samplePage (values : List Int64) : Page :=
  ({ pageType := .dataPage
     uncompressedPageSize := Int32.ofNat (8 * values.length)
     compressedPageSize := Int32.ofNat (8 * values.length)
     crc := none
     dataPageHeader := some { numValues := Int32.ofNat values.length, encoding := .plain,
                              definitionLevelEncoding := .rle, repetitionLevelEncoding := .rle,
                              statistics := none }
     indexPageHeader := none
     dictionaryPageHeader := none
     dataPageHeaderV2 := none }, encodePlainI64 values)

/-- One row before a whole block of rows. -/
def samplePages : List Page := [samplePage [10], samplePage [11, 12, 13, 14, 15, 16, 17, 18]]

/-- The pages of a sample chunk. -/
def samplePageBytes : Bytes := samplePages.flatMap writePage

/-- The metadata of the sample chunk. -/
def sampleChunkFooter : FileMetaData where
  version := 1
  schema := [{ name := [0x72], numChildren := some 1 },
    { columnType := some .int64, repetitionType := some .required, name := [0x61] }]
  numRows := 9
  rowGroups := [{ columns := [{
                    fileOffset := 4
                    metaData := some
                      { columnType := .int64, encodings := [.plain], pathInSchema := [[0x61]],
                        codec := .uncompressed, numValues := 9,
                        totalUncompressedSize := Int64.ofNat samplePageBytes.length,
                        totalCompressedSize := Int64.ofNat samplePageBytes.length,
                        keyValueMetadata := none, dataPageOffset := 4, indexPageOffset := none,
                        dictionaryPageOffset := none, statistics := none, encodingStats := none,
                        bloomFilterOffset := none, bloomFilterLength := none,
                        sizeStatistics := none } }],
                  numRows := 9 }]

/-- The footer of the sample file. -/
def sampleFooterBytes : Bytes := ((writeFileMetadata sampleChunkFooter).toOption).getD []

/-- The sample file: its pages between the magics, then the footer. -/
def sampleChunkFile : ParquetFile where
  bytes := parquetMagic ++ samplePageBytes ++ sampleFooterBytes ++ leBytes 4 sampleFooterBytes.length
    ++ parquetMagic
  footerBytes := sampleFooterBytes
  footerOffset := 4 + samplePageBytes.length

theorem length_sampleFooterBytes : sampleFooterBytes.length < 2 ^ 32 := by decide +kernel

theorem open_sampleChunkFile : ParquetFile.open sampleChunkFile.bytes = .ok sampleChunkFile :=
  ParquetFile.open_frame length_sampleFooterBytes

/-- The chunk of the file. -/
def sampleChunk : RawChunk where
  bytes := samplePageBytes
  totalValues := 9
  codec := .uncompressed
  maxRepLevel := 0
  maxDefLevel := 0

theorem readChunkRaw_sampleChunkFile : readChunkRaw sampleChunkFile 0 0 = .ok sampleChunk := by
  have hmd : sampleChunkFile.metadata = .ok sampleChunkFooter := by
    refine ParquetFile.metadata_of_written rfl ?_
    have := length_sampleFooterBytes
    simp only [sampleChunkFile]
    omega
  have hlevels : computeMaxLevels sampleChunkFooter.schema 0 = .ok (0, 0) :=
    computeMaxLevels_flat rfl (by decide) (by decide) (by decide)
  have hcm : columnMetaData sampleChunkFooter 0 0
      = .ok ((sampleChunkFooter.rowGroups.flatMap (·.columns)).filterMap (·.metaData))[0] := rfl
  have hbytes : sampleChunkFile.readRange 4 samplePageBytes.length = .ok samplePageBytes :=
    by decide +kernel
  rw [readChunkRaw_eq hmd hcm hbytes hlevels]
  rfl

theorem pagesOf_sampleChunk : PagesOf sampleChunk.bytes samplePages :=
  pagesOf_flatMap (by decide)

section
variable [Platform]

/-- The body of a sample page, viewed. -/
theorem dataPageView_samplePage {page : Page} (h : page ∈ samplePages) :
    dataPageView page sampleChunk
      = .ok { numValues := pageRows page, encoding := .plain, values := page.2 } := by
  simp only [samplePages, List.mem_cons, List.not_mem_nil, or_false] at h
  rcases h with rfl | rfl <;> rfl

theorem wellFormed_sampleChunk : WellFormedChunk Int64 sampleChunk samplePages where
  pagesOf := pagesOf_sampleChunk
  dictionaryFirst := by decide
  page page hpage := by
    constructor
    · intro _
      exact ⟨_, (dataPageView_info (dataPageView_samplePage hpage)).1⟩
    · intro _ info hinfo _
      rw [dataPageView_samplePage hpage] at hinfo
      cases hinfo
      simp only [samplePages, List.mem_cons, List.not_mem_nil, or_false] at hpage
      rcases hpage with rfl | rfl <;> rfl
  total := by decide

theorem readColumnI64_sampleChunkFile :
    readColumnI64 sampleChunkFile 0 0 = .ok [10, 11, 12, 13, 14, 15, 16, 17, 18] := by
  rw [readColumnI64, decodeChunk_eq _ readChunkRaw_sampleChunkFile pagesOf_sampleChunk]
  rfl

end

theorem readColumnMasked_filters_iff_sample :
    @readColumnI64 Platform.stored sampleChunkFile 0 0
        = .ok [10, 11, 12, 13, 14, 15, 16, 17, 18] ∧
      (FiltersRead (@readColumnI64Masked Platform.stored sampleChunkFile 0 0) 9
        [10, 11, 12, 13, 14, 15, 16, 17, 18] ↔ PlainAligned 0 samplePages) :=
  let _ := Platform.stored
  ⟨readColumnI64_sampleChunkFile,
    (readColumnMasked_filters_iff readChunkRaw_sampleChunkFile).1 _ wellFormed_sampleChunk
      readColumnI64_sampleChunkFile⟩

/-- The second page begins at row 1: its last row is selected and not
    returned. -/
theorem readColumnI64Masked_loses_row :
    ParquetFile.open sampleChunkFile.bytes = .ok sampleChunkFile ∧
      @WellFormedChunk Platform.stored Int64 _ sampleChunk samplePages ∧
      @readColumnI64 Platform.stored sampleChunkFile 0 0
        = .ok [10, 11, 12, 13, 14, 15, 16, 17, 18] ∧
      @readColumnI64Masked Platform.stored sampleChunkFile 0 0 [0, 1] [] = .ok [] ∧
      selectFrom (leNat [0, 1]).testBit 0 [10, 11, 12, 13, 14, 15, 16, 17, 18] = [18] := by
  let _ := Platform.stored
  refine ⟨open_sampleChunkFile, wellFormed_sampleChunk, readColumnI64_sampleChunkFile, ?_, rfl⟩
  rw [readColumnI64Masked, decodeChunkMasked_eq [] readChunkRaw_sampleChunkFile
    pagesOf_sampleChunk (by decide)]
  have h₁ : decodeValues fixedDecoder [] ⟨1, .plain, encodePlainI64 [10]⟩
      = .ok [(10 : Int64)] := rfl
  have h₂ : decodeValues fixedDecoder []
      ⟨8, .plain, encodePlainI64 [11, 12, 13, 14, 15, 16, 17, 18]⟩
        = .ok [(11 : Int64), 12, 13, 14, 15, 16, 17, 18] := rfl
  have hfirst : maskedStep sampleChunk [0, 1] ({} : MaskedState Int64) (samplePage [10])
      = .ok (.inl { rowCursor := 1 }) := by
    rw [maskedStep_of_isData (.inl rfl),
      maskedDataPage_eq (dataPageView_samplePage (by simp [samplePages])) h₁ rfl (by decide)]
    rfl
  have hsecond : maskedStep sampleChunk [0, 1] ({ rowCursor := 1 } : MaskedState Int64)
      (samplePage [11, 12, 13, 14, 15, 16, 17, 18]) = .ok (.inr { rowCursor := 9 }) := by
    rw [maskedStep_of_isData (.inl rfl),
      maskedDataPage_eq (dataPageView_samplePage (by simp [samplePages])) h₂ rfl (by decide)]
    rfl
  rw [samplePages, foldPages, hfirst]
  dsimp only
  rw [foldPages, hsecond]
  rfl

end EmatixParquet
