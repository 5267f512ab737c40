/-
  The rows of data pages (`index/page_layout.rs`), from the headers of a column
  chunk.

  * `walkDataPages_ok`: the layouts that are found are those of some list of
    counts, each page beginning where the ones before it end;
  * `exists_page`: every row that the counts reach lies in one of the pages.
-/
import EmatixParquet.Codec.Read

namespace EmatixParquet

open Wire

/-- A data page: its ordinal among the data pages of the chunk, the row group's
    row it begins at, and the count of its header. -/
structure DataPageLayout where
  pageIdx : UInt32
  firstRow : ℕ
  numValues : ℕ
  deriving DecidableEq, Repr

/-- The counters of the walk, and the pages that were visited. -/
structure LayoutState where
  pageIdx : UInt32 := 0
  firstRow : ℕ := 0
  visited : List DataPageLayout := []

/-- A page visited: the next one begins behind its rows. -/
def LayoutState.visit (s : LayoutState) (numValues : ℕ) : LayoutState where
  pageIdx := s.pageIdx + 1
  firstRow := s.firstRow + numValues
  visited := s.visited ++ [{ pageIdx := s.pageIdx, firstRow := s.firstRow, numValues }]

/-- The body of the loop of `walk_data_pages`; dictionary and index pages have no
    rows. -/
def layoutStep (s : LayoutState) (page : Page) : Res CodecError (LayoutState ⊕ LayoutState) :=
  match page.1.pageType with
  | .dataPage | .dataPageV2 => do
    let n ← dataPageNumValues page.1
    pure (.inl (s.visit n))
  | .dictionaryPage | .indexPage => .ok (.inl s)

/-- `walk_data_pages`: the layouts in the order of the visits. -/
def walkDataPages (file : ParquetFile) (rowGroup column : ℕ) :
    Res CodecError (List DataPageLayout) := do
  let md ← mapIo (fun e => .invalidInput s!"read parquet metadata: {e.display}") file.metadata
  let rg ← okOr md.rowGroups[rowGroup]? (.invalidInput s!"row group {rowGroup} out of range")
  let col ← okOr rg.columns[column]?
    (.invalidInput s!"column {column} out of range in rg {rowGroup}")
  let cm ← okOr col.metaData (.invalidInput "column missing inline meta_data")
  let bytes ← mapIo (fun e => .invalidInput s!"read chunk bytes: {e.display}")
    (file.readRange (chunkRange cm).1 (chunkRange cm).2)
  let s ← walkPages (fun e => .invalidInput s!"walk page: {e.display}") layoutStep {} bytes
  pure s.visited

/-! ## Pages with the given counts -/

/-- The walk over pages whose headers have these counts. -/
def LayoutState.after (counts : List ℕ) : LayoutState := counts.foldl LayoutState.visit {}

/-- Their layouts. -/
def layoutsOf (counts : List ℕ) : List DataPageLayout := (LayoutState.after counts).visited

theorem LayoutState.after_append (counts : List ℕ) (n : ℕ) :
    after (counts ++ [n]) = (after counts).visit n := by
  simp [after]

theorem LayoutState.pageIdx_after (counts : List ℕ) :
    (after counts).pageIdx = UInt32.ofNat counts.length := by
  induction counts using List.reverseRecOn with
  | nil => rfl
  | append_singleton counts n ih =>
    rw [after_append, visit, ih, List.length_append, UInt32.ofNat_add]
    rfl

theorem LayoutState.firstRow_after (counts : List ℕ) : (after counts).firstRow = counts.sum := by
  induction counts using List.reverseRecOn with
  | nil => rfl
  | append_singleton counts n ih => rw [after_append, visit, ih, List.sum_append, List.sum_singleton]

theorem layoutsOf_append (counts : List ℕ) (n : ℕ) : layoutsOf (counts ++ [n])
    = layoutsOf counts ++ [{ pageIdx := UInt32.ofNat counts.length, firstRow := counts.sum,
                             numValues := n }] := by
  rw [layoutsOf, LayoutState.after_append, LayoutState.visit, LayoutState.pageIdx_after,
    LayoutState.firstRow_after]
  rfl

@[simp] theorem length_layoutsOf (counts : List ℕ) : (layoutsOf counts).length = counts.length := by
  induction counts using List.reverseRecOn with
  | nil => rfl
  | append_singleton counts n ih => simp [layoutsOf_append, ih]

theorem map_numValues_layoutsOf (counts : List ℕ) :
    (layoutsOf counts).map (·.numValues) = counts := by
  induction counts using List.reverseRecOn with
  | nil => rfl
  | append_singleton counts n ih => simp [layoutsOf_append, ih]

/-- **The layout of page `i`.** -/
theorem getElem?_layoutsOf {counts : List ℕ} {i n : ℕ} (h : counts[i]? = some n) :
    (layoutsOf counts)[i]?
      = some { pageIdx := UInt32.ofNat i, firstRow := (counts.take i).sum, numValues := n } := by
  induction counts using List.reverseRecOn with
  | nil => simp at h
  | append_singleton counts m ih =>
    rw [layoutsOf_append]
    rcases Nat.lt_trichotomy i counts.length with hlt | rfl | hgt
    · rw [List.getElem?_append_left hlt] at h
      rw [List.getElem?_append_left (by simpa using hlt), ih h, List.take_append_of_le_length hlt.le]
    · rw [List.getElem?_concat_length, Option.some.injEq] at h
      subst h
      have hlen := length_layoutsOf counts
      rw [List.getElem?_append_right hlen.le, hlen, Nat.sub_self, List.take_left' rfl]
      rfl
    · rw [List.getElem?_eq_none (by simp; omega)] at h
      cases h

/-- The layouts that there are. -/
theorem mem_layoutsOf {counts : List ℕ} {page : DataPageLayout} :
    page ∈ layoutsOf counts ↔ ∃ i n, counts[i]? = some n ∧
      page = { pageIdx := UInt32.ofNat i, firstRow := (counts.take i).sum, numValues := n } := by
  constructor
  · intro h
    obtain ⟨i, hi⟩ := List.mem_iff_getElem?.mp h
    obtain ⟨hlt, -⟩ := List.getElem?_eq_some_iff.mp hi
    rw [length_layoutsOf] at hlt
    have hn := List.getElem?_eq_getElem hlt
    rw [getElem?_layoutsOf hn, Option.some.injEq] at hi
    exact ⟨i, _, hn, hi.symm⟩
  · rintro ⟨i, n, hn, rfl⟩
    exact List.mem_of_getElem? (getElem?_layoutsOf hn)

/-- The walk is one over counts. -/
def countStep (counts : List ℕ) (page : Page) : Res CodecError (List ℕ ⊕ List ℕ) :=
  match page.1.pageType with
  | .dataPage | .dataPageV2 => do
    let n ← dataPageNumValues page.1
    pure (.inl (counts ++ [n]))
  | .dictionaryPage | .indexPage => .ok (.inl counts)

theorem layoutStep_after (counts : List ℕ) (page : Page) :
    layoutStep (LayoutState.after counts) page
      = Sum.map LayoutState.after LayoutState.after <$> countStep counts page := by
  rw [layoutStep.eq_def, countStep.eq_def]
  cases page.1.pageType with
  | dictionaryPage | indexPage => rfl
  | dataPage | dataPageV2 =>
    dsimp only
    cases dataPageNumValues page.1 with
    | error e => rfl
    | ok n =>
      rw [ok_bind, ok_bind]
      exact congrArg (fun s => Except.ok (Sum.inl s)) (LayoutState.after_append counts n).symm

/-- **The layouts that are found** are those of some counts. -/
theorem walkDataPages_ok {file : ParquetFile} {rowGroup column : ℕ} {layouts : List DataPageLayout}
    (h : walkDataPages file rowGroup column = .ok layouts) :
    ∃ counts, layouts = layoutsOf counts := by
  obtain ⟨md, -, h⟩ := bind_eq_ok.mp h
  obtain ⟨rg, -, h⟩ := bind_eq_ok.mp h
  obtain ⟨col, -, h⟩ := bind_eq_ok.mp h
  obtain ⟨cm, -, h⟩ := bind_eq_ok.mp h
  obtain ⟨bytes, -, h⟩ := bind_eq_ok.mp h
  obtain ⟨s, hs, h⟩ := bind_eq_ok.mp h
  have hmap := walkPages_map LayoutState.after layoutStep_after
    (fun e => .invalidInput s!"walk page: {e.display}") [] bytes
  change walkPages _ layoutStep {} bytes = _ at hmap
  rw [hmap] at hs
  obtain ⟨counts, -, rfl⟩ := map_eq_ok.mp hs
  cases h
  exact ⟨counts, rfl⟩

/-- **A row** below the sum of the counts lies in one page. -/
theorem exists_page {counts : List ℕ} {row : ℕ} (h : row < counts.sum) :
    ∃ i n, counts[i]? = some n ∧ (counts.take i).sum ≤ row ∧ row < (counts.take i).sum + n := by
  induction counts generalizing row with
  | nil => simp at h
  | cons m counts ih =>
    by_cases hm : row < m
    · exact ⟨0, m, rfl, by simp, by simpa using hm⟩
    · rw [List.sum_cons] at h
      obtain ⟨i, n, hi, hle, hlt⟩ := @ih (row - m) (by omega)
      refine ⟨i + 1, n, hi, ?_, ?_⟩ <;> rw [List.take_succ_cons, List.sum_cons] <;> omega

/-- The rows of a page are rows of the chunk. -/
theorem page_le_sum {counts : List ℕ} {i n : ℕ} (h : counts[i]? = some n) :
    (counts.take i).sum + n ≤ counts.sum := by
  obtain ⟨hi, rfl⟩ := List.getElem?_eq_some_iff.mp h
  conv_rhs => rw [← List.take_append_drop i counts, List.sum_append, List.drop_eq_getElem_cons hi,
    List.sum_cons]
  omega

end EmatixParquet
