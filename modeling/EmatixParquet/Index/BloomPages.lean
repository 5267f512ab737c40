/-
  Page-bloom indexes (`write_bloom_page_i64` of `index/builder.rs`, `bloom_probe`
  and `read_column_i64_via_bloom_eq` of `index/reader.rs`).

  * `setRangeBits_ok`: the bits of an interval are set;
  * `bloomProbe_misses_none`: a probe names pages of the column in order, and every
    page with the key is among them;
  * `bloomRead_eq`: a read through the filters of the column that it reads is the
    scan that compares every value with the key.
-/
import EmatixParquet.Index.Query

namespace EmatixParquet

open Wire SplitBlockBloomFilterBuilder

/-! ## Bits of an interval -/

/-- Bit by bit, where no whole byte is left. -/
theorem setTail_eq {bitmap : Bytes} {bit endBit : ℕ} (h : endBit < bit + 8) :
    setTail bitmap bit endBit = splatOnes bitmap bit endBit := by
  induction bitmap, bit using setTail.induct endBit with
  | case1 bitmap bit hlt ih =>
    rw [setTail, if_pos hlt, splatOnes, if_pos hlt, if_pos (.inr h)]
    exact bind_congr fun bitmap => ih bitmap (by omega)
  | case2 bitmap bit hge =>
    rw [setTail, if_neg hge, splatOnes, if_neg hge]

/-- From a byte boundary on. -/
theorem setBody_eq {bitmap : Bytes} {bit endBit : ℕ} (h : bit % 8 = 0) :
    (setBody bitmap bit endBit >>= fun s => setTail s.1 s.2 endBit)
      = splatOnes bitmap bit endBit := by
  induction bitmap, bit using setBody.induct endBit with
  | case1 bitmap bit hle ih =>
    rw [setBody, if_pos hle, splatOnes, if_pos (by omega), if_neg (by omega), bind_assoc]
    exact bind_congr fun bitmap => ih bitmap (by omega)
  | case2 bitmap bit hgt =>
    rw [setBody, if_neg hgt]
    exact setTail_eq (by omega)

/-- From anywhere on. -/
theorem setHead_eq (bitmap : Bytes) (bit endBit : ℕ) :
    (setHead bitmap bit endBit >>= fun s => setBody s.1 s.2 endBit >>= fun s =>
      setTail s.1 s.2 endBit) = splatOnes bitmap bit endBit := by
  induction bitmap, bit using setHead.induct endBit with
  | case1 bitmap bit hbit ih =>
    rw [setHead, if_pos hbit, splatOnes, if_pos hbit.1, if_pos (.inl hbit.2), bind_assoc]
    exact bind_congr ih
  | case2 bitmap bit hbit =>
    rw [setHead, if_neg hbit, ok_bind]
    rcases Nat.lt_or_ge bit endBit with hlt | hge
    · exact setBody_eq (by tauto)
    · rw [setBody, if_neg (by omega), ok_bind, setTail, if_neg (by omega), splatOnes,
        if_neg (by omega)]

/-- **The bits of an interval** are set, as far as there are any. -/
theorem setRangeBits_ok (bitmap : Bytes) (startBit endBit : ℕ) :
    ∃ out, setRangeBits bitmap startBit endBit = .ok out ∧ out.length = bitmap.length ∧
      ∀ r, IsSet out r ↔ IsSet bitmap r ∨ startBit ≤ r ∧ r < endBit ∧ r < 8 * bitmap.length := by
  rw [setRangeBits]
  split
  · refine ⟨bitmap, rfl, rfl, fun r => ?_⟩
    rw [iff_self_or]
    omega
  · have hend : min endBit (bitmap.length * 8) ≤ 8 * bitmap.length := by omega
    obtain ⟨out, hout, hlen, hbits⟩ :=
      @splatOnes_eq bitmap (min startBit (min endBit (bitmap.length * 8))) _ hend
    refine ⟨out, (setHead_eq _ _ _).trans hout, hlen, fun r => ?_⟩
    rw [isSet_iff, hbits, Bool.or_eq_true, decide_eq_true_eq, isSet_iff]
    refine or_congr_right ?_
    omega

/-! ## The body -/

/-- The filter may contain the hash. -/
def mayContain (bytes : Bytes) (hash : UInt64) : Bool :=
  match SplitBlockBloomFilter.fromBytes bytes with
  | .ok f => f.containsHash hash
  | .error _ => false

/-- Before in the order of the pages. -/
def PageBefore (a b : UInt32 × UInt32) : Prop := a.1 < b.1 ∨ a.1 = b.1 ∧ a.2 < b.2

/-- Filters for the pages, in order: those of a page contain its values. -/
structure PageFilters (entries : List ((UInt32 × UInt32) × Bytes)) (keys : List (List (List Int64)))
    (paging : List (List ℕ)) : Prop extends PagingFits paging where
  sorted : (entries.map Prod.fst).Pairwise PageBefore
  reads : ∀ e ∈ entries, ∃ f, SplitBlockBloomFilter.fromBytes e.2 = .ok f
  named : ∀ {p}, p ∈ entries.map Prod.fst ↔
    ∃ counts, paging[p.1.toNat]? = some counts ∧ p.2.toNat < counts.length
  contains : ∀ e ∈ entries, ∀ {k r}, HasKey keys paging k e.1.1.toNat e.1.2.toNat r →
    mayContain e.2 (parquetXxh64 (toLeBytes k)) = true

/-- Pages in order need no sorting. -/
theorem sortPages_eq {entries : List ((UInt32 × UInt32) × Bytes)}
    (h : (entries.map Prod.fst).Pairwise PageBefore) : sortPages entries = entries := by
  refine ((List.pairwise_map.mp h).imp fun {a b} hab => ?_).insertionSort_eq
  change (compareLex (compareOn Prod.fst) (compareOn Prod.snd) a.1 b.1).isLE = true
  rcases hab with hlt | ⟨heq, hlt⟩
  · simp [compareLex, compareOn, Std.compare_eq_lt.mpr hlt]
  · simp [compareLex, compareOn, heq, Std.compare_eq_lt.mpr hlt]

theorem map_pageIdx_layoutsOf (counts : List ℕ) :
    (layoutsOf counts).map (·.pageIdx) = (List.range counts.length).map UInt32.ofNat := by
  induction counts using List.reverseRecOn with
  | nil => rfl
  | append_singleton counts n ih => simp [layoutsOf_append, ih, List.range_succ]

/-- What is kept, one by one. -/
theorem flatten_singletons {α β : Type} (p : α → Bool) (f : α → β) (xs : List α) :
    (xs.map fun x => if p x then [f x] else []).flatten = (xs.filter p).map f := by
  induction xs with
  | nil => rfl
  | cons x xs ih =>
    rw [List.map_cons, List.flatten_cons, ih]
    by_cases hp : p x <;> simp [hp]

/-- A fold over the results of a run. -/
theorem foldlM_mapM {ε α β σ : Type} {f : α → Except ε β} {g : σ → α → Except ε σ}
    {step : σ → β → Except ε σ} {as : List α} {bs : List β} (h : as.mapM f = .ok bs)
    (hstep : ∀ a b, f a = .ok b → ∀ s, g s a = step s b) (s : σ) :
    as.foldlM g s = bs.foldlM step s := by
  rw [mapM_eq_ok] at h
  induction h generalizing s with
  | nil => rfl
  | @cons a b as bs hab _ ih =>
    rw [List.foldlM_cons, List.foldlM_cons, hstep a b hab]
    exact bind_congr fun s => ih s

/-- A mask of all rows, or of none. -/
theorem selectFrom_all {α : Type} {bit : ℕ → Bool} {pos : ℕ} {vs : List α} {c : Bool}
    (h : ∀ i < vs.length, bit (pos + i) = c) : selectFrom bit pos vs = if c then vs else [] := by
  induction vs generalizing pos with
  | nil => cases c <;> rfl
  | cons v vs ih =>
    have hrest : selectFrom bit (pos + 1) vs = if c then vs else [] := ih fun i hi => by
      rw [Nat.add_assoc, Nat.add_comm 1]
      exact h (i + 1) (by simpa using hi)
    have hfirst := h 0 (by simp)
    rw [Nat.add_zero] at hfirst
    rw [selectFrom, hrest, hfirst]
    cases c <;> rfl

section
variable [Platform] {targetFpp : F64} {source : ParquetFile} {md : FileMetaData} {column : ℕ}

/-- A number of values whose filter has its length in an `i32`. -/
def FilterFits (targetFpp : F64) (n : ℕ) : Prop :=
  32 * (optimalNumBlocks n targetFpp).toNat < 2 ^ 31

/-- **The filter of a page** contains the values of the page. -/
theorem bloomPage_ok {values : List Int64} (hfits : ∀ n ≤ values.length, FilterFits targetFpp n)
    (rg : UInt32) {page : DataPageLayout} (h : page.firstRow + page.numValues ≤ values.length) :
    ∃ bytes, bloomPage values targetFpp rg page = .ok ((rg, page.pageIdx), bytes) ∧
      (∃ f, SplitBlockBloomFilter.fromBytes bytes = .ok f) ∧
      ∀ r v, r < page.numValues → values[page.firstRow + r]? = some v →
        mayContain bytes (parquetXxh64 (toLeBytes v)) = true := by
  have hslice : slice values page.firstRow (page.firstRow + page.numValues)
      = (.ok ((values.take (page.firstRow + page.numValues)).drop page.firstRow) :
        Res CodecError _) := slice_eq_ok.mpr ⟨Nat.le_add_right _ _, h, rfl⟩
  set pageValues := (values.take (page.firstRow + page.numValues)).drop page.firstRow with hvalues
  have hcount : pageValues.dedup.length ≤ values.length := by
    refine (List.dedup_sublist _).length_le.trans ?_
    rw [hvalues]
    exact ((List.drop_sublist _ _).trans (List.take_sublist _ _)).length_le
  obtain ⟨f, hf, hmem⟩ := exists_fromBytes (optimalNumBlocks_ne_zero _ _) (hfits _ hcount)
    (pageValues.dedup.map fun v => .inl (parquetXxh64 (toLeBytes v)))
  refine ⟨_, by rw [bloomPage, hslice]; rfl, ⟨f, hf⟩, fun r v hr hv => ?_⟩
  have hin : v ∈ pageValues := by
    refine List.mem_of_getElem? (i := r) ?_
    rw [hvalues, List.getElem?_drop, List.getElem?_take_of_lt (by omega), hv]
  have hcontains := hmem _ (List.mem_map.mpr ⟨v, List.mem_dedup.mpr hin, rfl⟩)
  rw [mayContain, hf]
  exact hcontains

/-- The filters of row group `g`, page by page. -/
structure GroupFilters (entries : List ((UInt32 × UInt32) × Bytes)) (g : ℕ) (counts : List ℕ)
    (values : List Int64) : Prop where
  keys : entries.map Prod.fst
    = (List.range counts.length).map fun i => (UInt32.ofNat g, UInt32.ofNat i)
  reads : ∀ e ∈ entries, ∃ f, SplitBlockBloomFilter.fromBytes e.2 = .ok f
  contains : ∀ e ∈ entries, ∃ i n, counts[i]? = some n ∧
    e.1 = (UInt32.ofNat g, UInt32.ofNat i) ∧
    ∀ r v, r < n → values[(counts.take i).sum + r]? = some v →
      mayContain e.2 (parquetXxh64 (toLeBytes v)) = true

/-- **The filters of a row group.** -/
theorem bloomRowGroup_ok {g : ℕ} {values : List Int64} {counts : List ℕ}
    (hread : readColumnI64 source g column = .ok values)
    (hwalk : walkDataPages source g column = .ok (layoutsOf counts))
    (hsum : counts.sum = values.length) (hfits : ∀ n ≤ values.length, FilterFits targetFpp n) :
    ∃ entries, bloomRowGroup source column targetFpp g = .ok entries ∧
      GroupFilters entries g counts values := by
  have hpage : ∀ page ∈ layoutsOf counts, page.firstRow + page.numValues ≤ values.length := by
    intro page hmem
    obtain ⟨i, n, hn, rfl⟩ := mem_layoutsOf.mp hmem
    rw [← hsum]
    exact page_le_sum hn
  obtain ⟨entries, hentries⟩ := exists_mapM fun page hmem => by
    obtain ⟨bytes, hrun, -⟩ := bloomPage_ok hfits (UInt32.ofNat g) (hpage page hmem)
    exact ⟨_, hrun⟩
  have hentry : ∀ e ∈ entries, (∃ f, SplitBlockBloomFilter.fromBytes e.2 = .ok f) ∧
      ∃ i n, counts[i]? = some n ∧ e.1 = (UInt32.ofNat g, UInt32.ofNat i) ∧
        ∀ r v, r < n → values[(counts.take i).sum + r]? = some v →
          mayContain e.2 (parquetXxh64 (toLeBytes v)) = true := by
    intro e he
    obtain ⟨page, hmem, hrun⟩ := (mem_mapM hentries).mp he
    obtain ⟨bytes, hrun', hreads, hcontains⟩ := bloomPage_ok hfits (UInt32.ofNat g) (hpage page hmem)
    cases hrun.symm.trans hrun'
    obtain ⟨i, n, hn, rfl⟩ := mem_layoutsOf.mp hmem
    exact ⟨hreads, i, n, hn, rfl, hcontains⟩
  refine ⟨entries, ?_, ?_, fun e he => (hentry e he).1, fun e he => (hentry e he).2⟩
  · rw [bloomRowGroup, hread, ok_bind, hwalk, ok_bind]
    dsimp only
    rw [map_numValues_layoutsOf, if_neg (not_not.mpr hsum)]
    exact hentries
  · have hkeys : entries.map Prod.fst = (layoutsOf counts).map fun page => (UInt32.ofNat g, page.pageIdx) :=
      map_mapM hentries fun page e he => by
        obtain ⟨_, -, he⟩ := bind_eq_ok.mp he
        cases he
        rfl
    have hpages := congrArg (List.map fun p => (UInt32.ofNat g, p)) (map_pageIdx_layoutsOf counts)
    rw [List.map_map, List.map_map] at hpages
    exact hkeys.trans hpages

/-- A row group with filters has values and pages, and as many of the one as of
    the other. -/
theorem bloomRowGroup_eq_ok {g : ℕ} {entries : List ((UInt32 × UInt32) × Bytes)}
    (h : bloomRowGroup source column targetFpp g = .ok entries) :
    ∃ values layouts, readColumnI64 source g column = .ok values ∧
      walkDataPages source g column = .ok layouts ∧
      (layouts.map (·.numValues)).sum = values.length := by
  obtain ⟨values, hvalues, h⟩ := bind_eq_ok.mp h
  obtain ⟨layouts, hlayouts, h⟩ := bind_eq_ok.mp h
  dsimp only at h
  split at h
  · cases h
  · next hsum => exact ⟨values, layouts, hvalues, hlayouts, not_not.mp hsum⟩

omit [Platform] in
/-- **Row groups with filters** have filters for all pages. -/
theorem pageFilters_of_groups {css : List (List ((UInt32 × UInt32) × Bytes))}
    {keys : List (List (List Int64))} {paging : List (List ℕ)} (hfits : PagingFits paging)
    (hlength : css.length = paging.length)
    (hgroup : ∀ {g : ℕ} {cs : List ((UInt32 × UInt32) × Bytes)}, css[g]? = some cs → ∃ (counts : List ℕ) (values : List Int64),
      paging[g]? = some counts ∧ keys[g]? = some (values.map fun v => [v]) ∧
      GroupFilters cs g counts values) : PageFilters css.flatten keys paging := by
  have hnumber : ∀ {g : ℕ} {counts : List ℕ}, paging[g]? = some counts →
      (UInt32.ofNat g).toNat = g ∧ ∀ i < counts.length, (UInt32.ofNat i).toNat = i := by
    intro g counts hcounts
    obtain ⟨hlt, -⟩ := List.getElem?_eq_some_iff.mp hcounts
    have hpages := hfits.pages counts (List.mem_of_getElem? hcounts)
    exact ⟨UInt32.toNat_ofNat_of_lt' (lt_of_lt_of_le hlt hfits.rowGroups),
      fun i hi => UInt32.toNat_ofNat_of_lt' (lt_of_lt_of_le hi hpages)⟩
  have hmem : ∀ {e}, e ∈ css.flatten → ∃ (g : ℕ) (cs : List _), css[g]? = some cs ∧ e ∈ cs := by
    intro e he
    obtain ⟨cs, hcs, he⟩ := List.mem_flatten.mp he
    obtain ⟨g, hg⟩ := List.mem_iff_getElem?.mp hcs
    exact ⟨g, cs, hg, he⟩
  refine ⟨hfits, ?_, fun e he => ?_, fun {p} => ⟨fun hp => ?_, ?_⟩, fun e he {k r} hkey => ?_⟩
  · rw [List.pairwise_map, List.pairwise_flatten]
    constructor
    · intro cs hcs
      obtain ⟨g, hg⟩ := List.mem_iff_getElem?.mp hcs
      obtain ⟨counts, values, hcounts, -, hfilters⟩ := hgroup hg
      rw [← List.pairwise_map, hfilters.keys, List.pairwise_map]
      refine List.pairwise_lt_range.imp_of_mem fun {i j} hi hj hij => .inr ⟨rfl, ?_⟩
      rw [List.mem_range] at hi hj
      rw [UInt32.lt_iff_toNat_lt, (hnumber hcounts).2 i hi, (hnumber hcounts).2 j hj]
      exact hij
    · rw [List.pairwise_iff_getElem]
      intro g g' hg hg' hlt e he e' he'
      obtain ⟨counts, values, hcounts, -, hfilters⟩ := hgroup (List.getElem?_eq_getElem hg)
      obtain ⟨counts', values', hcounts', -, hfilters'⟩ := hgroup (List.getElem?_eq_getElem hg')
      obtain ⟨_, _, -, hkey, -⟩ := hfilters.contains e he
      obtain ⟨_, _, -, hkey', -⟩ := hfilters'.contains e' he'
      refine .inl ?_
      rw [hkey, hkey', UInt32.lt_iff_toNat_lt, (hnumber hcounts).1, (hnumber hcounts').1]
      exact hlt
  · obtain ⟨g, cs, hcs, he⟩ := hmem he
    obtain ⟨counts, values, -, -, hfilters⟩ := hgroup hcs
    exact hfilters.reads e he
  · obtain ⟨e, he, rfl⟩ := List.mem_map.mp hp
    obtain ⟨g, cs, hcs, he⟩ := hmem he
    obtain ⟨counts, values, hcounts, -, hfilters⟩ := hgroup hcs
    obtain ⟨i, n, hn, hkey, -⟩ := hfilters.contains e he
    obtain ⟨hi, -⟩ := List.getElem?_eq_some_iff.mp hn
    rw [hkey, (hnumber hcounts).1, (hnumber hcounts).2 i hi]
    exact ⟨counts, hcounts, hi⟩
  · rintro ⟨counts, hcounts, hi⟩
    obtain ⟨hlt, -⟩ := List.getElem?_eq_some_iff.mp hcounts
    have hcs := List.getElem?_eq_getElem (hlength ▸ hlt)
    obtain ⟨counts', values, hcounts', -, hfilters⟩ := hgroup hcs
    cases hcounts.symm.trans hcounts'
    have hp : p ∈ css[p.1.toNat].map Prod.fst := by
      rw [hfilters.keys]
      exact List.mem_map.mpr ⟨_, List.mem_range.mpr hi, by simp⟩
    obtain ⟨e, he, hep⟩ := List.mem_map.mp hp
    exact List.mem_map.mpr ⟨e, List.mem_flatten.mpr ⟨_, List.mem_of_getElem? hcs, he⟩, hep⟩
  · obtain ⟨g, cs, hcs, he⟩ := hmem he
    obtain ⟨counts, values, hcounts, hkeys, hfilters⟩ := hgroup hcs
    obtain ⟨i, n, hn, hpage, hcontains⟩ := hfilters.contains e he
    obtain ⟨hi, -⟩ := List.getElem?_eq_some_iff.mp hn
    rw [hpage, (hnumber hcounts).1, (hnumber hcounts).2 i hi] at hkey
    obtain ⟨counts', n', rows, ks, hcounts', hn', hr, hrows, hks, hk⟩ := hkey
    cases hcounts.symm.trans hcounts'
    cases hn.symm.trans hn'
    cases hkeys.symm.trans hrows
    rw [List.getElem?_map, Option.map_eq_some_iff] at hks
    obtain ⟨v, hv, rfl⟩ := hks
    rw [List.mem_singleton] at hk
    exact hcontains r k hr (hk ▸ hv)

variable {sourceCol : String}

/-- **The filters of all row groups.** -/
theorem Indexable.pageFilters (h : Indexable source md sourceCol column)
    {css : List (List ((UInt32 × UInt32) × Bytes))}
    (hrun : (List.range md.rowGroups.length).mapM (bloomRowGroup source column targetFpp) = .ok css)
    (hgroups : md.rowGroups.length < 2 ^ 32)
    (hfits : ∀ rg ∈ md.rowGroups, ∀ n ≤ rg.numRows.toUInt64.toNat, FilterFits targetFpp n) :
    ∃ keys paging,
      KeyedSource source md column (SortedWriter.i64.readKeys source column) keys paging ∧
      PageFilters css.flatten keys paging := by
  have hread : ∀ g ∈ List.range md.rowGroups.length, ∃ rows layouts,
      SortedWriter.i64.readKeys source column g = .ok rows ∧
      walkDataPages source g column = .ok layouts ∧
      (layouts.map (·.numValues)).sum = rows.length := by
    intro g hg
    obtain ⟨cs, -, hcs⟩ := (mapM_getElem? hrun g).1 g (List.getElem?_range (List.mem_range.mp hg))
    obtain ⟨values, layouts, hvalues, hlayouts, hsum⟩ := bloomRowGroup_eq_ok hcs
    exact ⟨_, layouts, map_eq_ok.mpr ⟨values, hvalues, rfl⟩, hlayouts, by rw [hsum, List.length_map]⟩
  obtain ⟨keys, paging, hsource, hpaging⟩ := h.exists_keyedSource hgroups.le hread
  have hlength : css.length = paging.length := by
    rw [hsource.rowGroups, mapM_length hrun, List.length_range]
  refine ⟨keys, paging, hsource, pageFilters_of_groups hpaging hlength fun {g cs} hcs => ?_⟩
  obtain ⟨g', hg', hcsRun⟩ := (mapM_getElem? hrun g).2 cs hcs
  obtain ⟨hg, rfl⟩ := List.getElem?_eq_some_iff.mp hg'
  rw [List.getElem_range] at hcsRun
  rw [List.length_range] at hg
  obtain ⟨counts, hcounts⟩ : ∃ counts, paging[g]? = some counts :=
    ⟨_, List.getElem?_eq_getElem (hsource.rowGroups.symm ▸ hg)⟩
  have hrg := List.getElem?_eq_getElem hg
  obtain ⟨rows, hrows⟩ : ∃ rows, keys[g]? = some rows :=
    ⟨_, List.getElem?_eq_getElem (by rwa [hsource.length, hsource.rowGroups])⟩
  obtain ⟨values, hvalues, rfl⟩ := map_eq_ok.mp (hsource.read hrows)
  have hsum : counts.sum = values.length := by
    rw [hsource.rows hrows hcounts, List.length_map]
  obtain ⟨cs', hcs', hfilters⟩ := bloomRowGroup_ok hvalues (hsource.walk hcounts) hsum
    fun n hn => hfits _ (List.mem_of_getElem? hrg) n (by rwa [hsource.numRows hcounts hrg, hsum])
  cases hcsRun.symm.trans hcs'
  exact ⟨_, values, hcounts, hrows, hfilters⟩

/-! ## The written index -/

/-- The entry of a page-bloom index in the manifest. -/
def bloomEntry (indexName sourceCol : String) (targetFpp : F64) : IndexEntry :=
  { name := indexName, kind := .bloomPage sourceCol targetFpp, sidecarRowGroup := 0,
    sidecarRowGroupCount := 1 }

/-- The body with these rows. -/
def bloomBody (entries : List ((UInt32 × UInt32) × Bytes)) : LoadedBloomPage where
  sourceRgs := entries.map fun e => e.1.1.toInt32
  sourcePages := entries.map fun e => e.1.2.toInt32
  blooms := entries.map fun e => e.2

/-- **The reader** has the columns of a body of filters. -/
theorem loadBloomPage_written [LawfulPlatform] {t : WrittenTable} {options : WriteOptions}
    {file : ParquetFile} {entries : List ((UInt32 × UInt32) × Bytes)} {entry : IndexEntry}
    (h : WrittenFile t (bloomColumns entries) options file)
    (hsize : options.rowGroupSize = defaultRowGroupSize) (hentry : entry.sidecarRowGroup.toNat = 0) :
    loadBloomPage file entry = .ok (bloomBody entries) := by
  have hrows : rowsOf (bloomColumns entries) = entries.length := List.length_map _
  have hfit := h.short.rows
  have hgt := defaultRowGroupSize_gt
  rw [hrows, hsize] at hfit
  have hle : entries.length ≤ options.rowGroupSize := by omega
  have hone : rowGroupCount entries.length options.rowGroupSize = 1 :=
    rowGroupCount_one h.size_pos hle
  have hgroup : ∀ {α : Type} (f : (UInt32 × UInt32) × Bytes → α),
      0 < rowGroupCount (entries.map f).length options.rowGroupSize ∧
      groupRows (entries.map f) options.rowGroupSize 0 = entries.map f := by
    intro α f
    rw [List.length_map, hone]
    exact ⟨Nat.one_pos, groupRows_zero (by rwa [List.length_map])⟩
  have hrgs : readColumnI32 file 0 0 = .ok (groupRows _ _ _) :=
    h.readI32 rfl (hgroup fun e => e.1.1.toInt32).1
  have hpages : readColumnI32 file 0 1 = .ok (groupRows _ _ _) :=
    h.readI32 rfl (hgroup fun e => e.1.2.toInt32).1
  have hblooms : readColumnByteArray file 0 2 = .ok (groupRows _ _ _) :=
    h.readByteArray rfl (hgroup fun e => e.2).1
  rw [(hgroup _).2] at hrgs hpages hblooms
  rw [loadBloomPage, hentry, hrgs, ok_bind, hpages, ok_bind, hblooms, ok_bind]
  exact if_neg (by simp)

variable {indexName : String}

/-- **What a table of filters is made of.** -/
theorem bloomTable_eq_ok [FloatText] (h : Indexable source md sourceCol column)
    {table : Columns × WriteOptions}
    (htable : bloomTable source indexName column targetFpp = .ok table) :
    ∃ css fp,
      (List.range md.rowGroups.length).mapM (bloomRowGroup source column targetFpp) = .ok css ∧
      computeSourceFingerprint source = .ok fp ∧
      table = (bloomColumns (sortPages css.flatten),
        sidecarOptions fp (bloomEntry indexName sourceCol targetFpp) .uncompressed
          defaultRowGroupSize) := by
  obtain ⟨md', hmd, htable⟩ := bind_eq_ok.mp htable
  rw [h.metadata, mapIo_ok] at hmd
  cases hmd
  obtain ⟨leaf, hleaf, htable⟩ := bind_eq_ok.mp htable
  obtain ⟨columnType, -, htable⟩ := bind_eq_ok.mp htable
  split at htable
  · cases htable
  split at htable
  · cases htable
  obtain ⟨entries, hentries, htable⟩ := bind_eq_ok.mp htable
  obtain ⟨css, hcss, rfl⟩ := map_eq_ok.mp hentries
  obtain ⟨fp, hfp, htable⟩ := bind_eq_ok.mp htable
  rw [leafName_ok h.ordinal hleaf, ok_bind] at htable
  cases htable
  exact ⟨css, fp, hcss, hfp, rfl⟩

/-- An opened page-bloom index: its filters are those of the pages of the column. -/
structure BloomIndex (index : ParquetIndex) (source : ParquetFile) (md : FileMetaData)
    (indexName sourceCol : String) (column : ℕ) (entries : List ((UInt32 × UInt32) × Bytes))
    (keys : List (List (List Int64))) (paging : List (List ℕ)) : Prop where
  found : ∃ entry fpp, index.findIndex indexName = .ok { entry, data := .bloomPage (bloomBody entries) } ∧
    entry.kind = .bloomPage sourceCol fpp
  keyed : KeyedSource source md column (SortedWriter.i64.readKeys source column) keys paging
  filters : PageFilters entries keys paging

/-- **A written page-bloom index opens.** -/
theorem exists_bloomIndex [LawfulPlatform] [FloatText] (h : Indexable source md sourceCol column)
    {idx : Bytes} (hwrite : writeBloomPageI64 source indexName column targetFpp = .ok idx)
    (hshort : ∀ table, bloomTable source indexName column targetFpp = .ok table →
      ShortTable table.1 table.2)
    (hfits : ∀ rg ∈ md.rowGroups, ∀ n ≤ rg.numRows.toUInt64.toNat, FilterFits targetFpp n)
    (htext : FloatText.Inverse targetFpp) (hindexName : Clean indexName)
    (hsourceCol : Clean sourceCol) :
    ∃ index entries keys paging, ParquetIndex.open idx source = .ok index ∧
      BloomIndex index source md indexName sourceCol column entries keys paging := by
  obtain ⟨table, htable, hwrite⟩ := bind_eq_ok.mp hwrite
  have hshort := hshort table htable
  obtain ⟨css, fp, hcss, hfp, rfl⟩ := bloomTable_eq_ok h htable
  obtain ⟨keys, paging, hkeyed, hfilters⟩ := h.pageFilters hcss (h.rowGroups_lt hfp) hfits
  rw [sortPages_eq hfilters.sorted] at hwrite hshort
  obtain ⟨t, ht, rfl⟩ := map_eq_ok.mp hwrite
  obtain ⟨file, hfile⟩ := exists_writtenFile ht hshort
  have hload : loadIndexData file (bloomEntry indexName sourceCol targetFpp)
      = .ok (.bloomPage (bloomBody css.flatten)) :=
    map_eq_ok.mpr ⟨bloomBody css.flatten, loadBloomPage_written hfile rfl rfl, rfl⟩
  have hnames : ∀ v ∈ (bloomEntry indexName sourceCol targetFpp).names, Clean v := by
    simp [IndexEntry.names, bloomEntry, IndexKind.columns, hindexName, hsourceCol]
  obtain ⟨index, hopen, -, hfound⟩ := hfile.open_sidecar ⟨Nat.le_refl 1, htext⟩ hnames hfp hload
  exact ⟨index, css.flatten, keys, paging, hopen, ⟨_, targetFpp, hfound, rfl⟩, hkeyed, hfilters⟩

/-! ## Probes -/

omit [Platform] in
/-- The row of the body at `i`. -/
theorem probePage_eq {entries : List ((UInt32 × UInt32) × Bytes)} {hash : UInt64} {i : ℕ}
    {e : (UInt32 × UInt32) × Bytes} (he : entries[i]? = some e)
    (hreads : ∃ f, SplitBlockBloomFilter.fromBytes e.2 = .ok f) :
    probePage (bloomBody entries) hash i = .ok (if mayContain e.2 hash then [e.1] else []) := by
  have hitem : ∀ {α : Type} (f : (UInt32 × UInt32) × Bytes → α),
      itemAt (entries.map f) i = .ok (f e) := by
    intro α f
    rw [itemAt, List.getElem?_map, he]
    rfl
  obtain ⟨f, hf⟩ := hreads
  rw [probePage, bloomBody, hitem, ok_bind, hf, ok_bind, mayContain, hf]
  dsimp only
  split
  · rw [hitem, ok_bind, hitem, ok_bind, UInt32.toUInt32_toInt32, UInt32.toUInt32_toInt32]
    rfl
  · rfl

section
variable {index : ParquetIndex} {entries : List ((UInt32 × UInt32) × Bytes)}
  {keys : List (List (List Int64))} {paging : List (List ℕ)}

/-- **A probe** names the pages whose filters may contain the key. -/
theorem BloomIndex.bloomProbe_eq
    (h : BloomIndex index source md indexName sourceCol column entries keys paging) (key : Key) :
    index.bloomProbe indexName key
      = .ok ((entries.filter fun e => mayContain e.2 (parquetXxh64 key.plainBytes)).map Prod.fst) := by
  obtain ⟨entry, fpp, hfound, -⟩ := h.found
  have hlen : (bloomBody entries).blooms.length = entries.length := List.length_map _
  have hprobe : (List.range entries.length).mapM
      (probePage (bloomBody entries) (parquetXxh64 key.plainBytes))
      = .ok (entries.map fun e =>
        if mayContain e.2 (parquetXxh64 key.plainBytes) then [e.1] else []) := by
    rw [mapM_eq_ok, List.forall₂_iff_get]
    refine ⟨by simp, fun i hi hi' => ?_⟩
    rw [List.length_range] at hi
    simpa using probePage_eq (List.getElem?_eq_getElem hi) (h.filters.reads _ (List.getElem_mem hi))
  rw [ParquetIndex.bloomProbe, hfound, ok_bind]
  dsimp only
  rw [hlen, hprobe, ← flatten_singletons]
  rfl

/-- What a probe returns: pages of the column in order, among them all with the
    key. -/
structure Candidates (hits : List (UInt32 × UInt32)) (keys : List (List (List Int64)))
    (paging : List (List ℕ)) (k : Int64) : Prop where
  sorted : hits.Pairwise PageBefore
  pages : ∀ p ∈ hits, ∃ counts, paging[p.1.toNat]? = some counts ∧ p.2.toNat < counts.length
  all : ∀ {g i r}, HasKey keys paging k g i r →
    ∃ p ∈ hits, p.1.toNat = g ∧ p.2.toNat = i

omit [Platform] in
/-- **No false negatives.** -/
theorem PageFilters.candidates (h : PageFilters entries keys paging) (k : Int64) : Candidates
      ((entries.filter fun e => mayContain e.2 (parquetXxh64 (toLeBytes k))).map Prod.fst)
      keys paging k where
  sorted := h.sorted.sublist (List.filter_sublist.map _)
  pages p hp := by
    obtain ⟨e, he, rfl⟩ := List.mem_map.mp hp
    exact h.named.mp (List.mem_map_of_mem (List.mem_filter.mp he).1)
  all {g i r} hkey := by
    obtain ⟨hg, hi, -⟩ := hkey.lt h.toPagingFits
    have hgNat : (UInt32.ofNat g).toNat = g := UInt32.toNat_ofNat_of_lt' hg
    have hiNat : (UInt32.ofNat i).toNat = i := UInt32.toNat_ofNat_of_lt' hi
    obtain ⟨counts, n, -, -, hcounts, hn, -⟩ := id hkey
    have hpage : (UInt32.ofNat g, UInt32.ofNat i) ∈ entries.map Prod.fst := by
      refine h.named.mpr ⟨counts, by rwa [hgNat], ?_⟩
      rw [hiNat]
      exact (List.getElem?_eq_some_iff.mp hn).1
    obtain ⟨e, he, heq⟩ := List.mem_map.mp hpage
    have hcontains := h.contains e he (k := k) (r := r) (by rw [heq, hgNat, hiNat]; exact hkey)
    exact ⟨_, List.mem_map.mpr ⟨e, List.mem_filter.mpr ⟨he, hcontains⟩, heq⟩, hgNat, hiNat⟩

end

/-! ## Candidate rows -/

/-- Row `r` of a chunk with pages of these counts is on page `i`. -/
def OnPage (counts : List ℕ) (i r : ℕ) : Prop :=
  ∃ n, counts[i]? = some n ∧ (counts.take i).sum ≤ r ∧ r < (counts.take i).sum + n

omit [Platform] in
/-- **The candidate pages**, by induction on them. -/
theorem setPages_ok {counts : List ℕ} {pages : List UInt32} {bitmap : Bytes} (rg : UInt32)
    (hlen : counts.sum ≤ 8 * bitmap.length) (hpages : ∀ page ∈ pages, page.toNat < counts.length) :
    ∃ out, pages.foldlM (setPage rg (layoutsOf counts)) bitmap = .ok out ∧
      out.length = bitmap.length ∧
      ∀ r, IsSet out r ↔ IsSet bitmap r ∨ ∃ page ∈ pages, OnPage counts page.toNat r := by
  induction pages generalizing bitmap with
  | nil => exact ⟨bitmap, rfl, rfl, fun r => by simp⟩
  | cons page pages ih =>
    obtain ⟨n, hn⟩ : ∃ n, counts[page.toNat]? = some n :=
      ⟨_, List.getElem?_eq_getElem (hpages page List.mem_cons_self)⟩
    obtain ⟨mid, hmid, hmidLen, hmidBits⟩ := setRangeBits_ok bitmap (counts.take page.toNat).sum
      ((counts.take page.toNat).sum + n)
    obtain ⟨out, hout, houtLen, houtBits⟩ := @ih mid (by rw [hmidLen]; exact hlen)
      fun page' h => hpages page' (List.mem_cons_of_mem _ h)
    refine ⟨out, ?_, houtLen.trans hmidLen, fun r => ?_⟩
    · rw [List.foldlM_cons, setPage, getElem?_layoutsOf hn, okOr_some, ok_bind, hmid]
      exact hout
    · have hfirst : OnPage counts page.toNat r
          ↔ (counts.take page.toNat).sum ≤ r ∧ r < (counts.take page.toNat).sum + n ∧
            r < 8 * bitmap.length := by
        have hle := page_le_sum hn
        constructor
        · rintro ⟨n', hn', hpage⟩
          cases hn.symm.trans hn'
          omega
        · rintro ⟨hfirst, hlast, -⟩
          exact ⟨n, hn, hfirst, hlast⟩
      rw [houtBits, hmidBits, or_assoc, ← hfirst]
      simp

omit [Platform] in
/-- **The bitmap of a row group** has the rows of its candidate pages. -/
theorem candidateBitmap_ok {paging : List (List ℕ)} (h : PagedColumn source md column paging)
    {group : UInt32 × List UInt32} {counts : List ℕ}
    (hcounts : paging[group.1.toNat]? = some counts)
    (hpages : ∀ page ∈ group.2, page.toNat < counts.length) :
    ∃ bitmap, candidateBitmap source md column group = .ok bitmap ∧
      bitmap.length = divCeil counts.sum 8 ∧
      ∀ r, IsSet bitmap r ↔ ∃ page ∈ group.2, OnPage counts page.toNat r := by
  obtain ⟨rgMeta, hrg⟩ : ∃ rgMeta, md.rowGroups[group.1.toNat]? = some rgMeta := by
    obtain ⟨hlt, -⟩ := List.getElem?_eq_some_iff.mp hcounts
    exact ⟨_, List.getElem?_eq_getElem (h.rowGroups ▸ hlt)⟩
  have hceil : divCeil counts.sum 8 = (counts.sum + 7) / 8 := rfl
  obtain ⟨bitmap, hrun, hlen, hbits⟩ := @setPages_ok counts group.2
    (List.replicate (divCeil counts.sum 8) 0) group.1 (by rw [List.length_replicate]; omega) hpages
  refine ⟨bitmap, ?_, by rw [hlen, List.length_replicate], fun r => ?_⟩
  · rw [candidateBitmap, hrg, okOr_some, ok_bind, h.walk hcounts, ok_bind, h.numRows hcounts hrg]
    exact hrun
  · rw [hbits, isSet_iff, leNat_replicate_zero, Nat.zero_testBit]
    simp

/-- The bitmaps of the candidates. -/
def candidateBitmaps (source : ParquetFile) (md : FileMetaData) (column : ℕ)
    (hits : List (UInt32 × UInt32)) : Res CodecError (List (UInt32 × Bytes)) :=
  (groupSorted hits).mapM fun group => (group.1, ·) <$> candidateBitmap source md column group

omit [Platform] in
/-- **The bitmaps of the candidates** select the rows of the pages. -/
theorem candidateBitmaps_ok {paging : List (List ℕ)} (h : PagedColumn source md column paging)
    {hits : List (UInt32 × UInt32)} (hhits : ∀ p ∈ hits, ∃ counts,
      paging[p.1.toNat]? = some counts ∧ p.2.toNat < counts.length) :
    ∃ bitmaps, candidateBitmaps source md column hits = .ok bitmaps ∧
      Selects bitmaps md fun g r => ∃ p ∈ hits, p.1.toNat = g ∧
        ∃ counts, paging[g]? = some counts ∧ OnPage counts p.2.toNat r := by
  have hgroup : ∀ group ∈ groupSorted hits, ∃ counts bitmap,
      paging[group.1.toNat]? = some counts ∧
      candidateBitmap source md column group = .ok bitmap ∧
      bitmap.length = divCeil counts.sum 8 ∧
      ∀ r, IsSet bitmap r ↔ ∃ p ∈ hits, p.1 = group.1 ∧ OnPage counts p.2.toNat r := by
    rintro ⟨rg, pages⟩ hmem
    obtain ⟨hkey, rfl⟩ := mem_groupSorted.mp hmem
    obtain ⟨p, hp, rfl⟩ := List.mem_map.mp hkey
    obtain ⟨counts, hcounts, -⟩ := hhits p hp
    have hpages : ∀ page ∈ valuesAt p.1 hits, page.toNat < counts.length := by
      intro page hpage
      obtain ⟨counts', hcounts', hlt⟩ := hhits _ (mem_valuesAt.mp hpage)
      cases hcounts.symm.trans hcounts'
      exact hlt
    obtain ⟨bitmap, hrun, hlen, hbits⟩ :=
      @candidateBitmap_ok source md column paging h (p.1, valuesAt p.1 hits) counts hcounts hpages
    refine ⟨counts, bitmap, hcounts, hrun, hlen, fun r => ?_⟩
    rw [hbits]
    simp only [mem_valuesAt, Prod.exists]
    constructor
    · rintro ⟨page, hpage, hon⟩
      exact ⟨_, page, hpage, rfl, hon⟩
    · rintro ⟨rg, page, hpage, rfl, hon⟩
      exact ⟨page, hpage, hon⟩
  obtain ⟨bitmaps, hbitmaps⟩ : ∃ bitmaps, candidateBitmaps source md column hits = .ok bitmaps :=
    exists_mapM fun group hmem => by
      obtain ⟨counts, bitmap, -, hrun, -⟩ := hgroup group hmem
      exact ⟨_, map_eq_ok.mpr ⟨bitmap, hrun, rfl⟩⟩
  have hkeys : bitmaps.map Prod.fst = (groupSorted hits).map Prod.fst :=
    map_mapM hbitmaps fun group e he => by
      obtain ⟨_, -, rfl⟩ := map_eq_ok.mp he
      rfl
  refine ⟨bitmaps, hbitmaps, ?_, fun e he => ?_, fun {g r} hg => ?_⟩
  · rw [hkeys]
    exact (pairwise_keys_groupSorted _).imp Std.compare_eq_lt.mp
  · obtain ⟨group, hmem, hrun⟩ := (mem_mapM hbitmaps).mp he
    obtain ⟨counts, bitmap, hcounts, hrun', hlen, -⟩ := hgroup group hmem
    rw [hrun'] at hrun
    cases hrun
    obtain ⟨hlt, -⟩ := List.getElem?_eq_some_iff.mp hcounts
    have hrg := List.getElem?_eq_getElem (h.rowGroups ▸ hlt)
    exact ⟨_, hrg, by rw [h.numRows hcounts hrg, hlen]⟩
  · constructor
    · rintro ⟨e, he, rfl, hset⟩
      obtain ⟨group, hmem, hrun⟩ := (mem_mapM hbitmaps).mp he
      obtain ⟨counts, bitmap, hcounts, hrun', -, hbits⟩ := hgroup group hmem
      rw [hrun'] at hrun
      cases hrun
      obtain ⟨p, hp, hrg, hon⟩ := (hbits r).mp hset
      exact ⟨p, hp, congrArg UInt32.toNat hrg, counts, hcounts, hon⟩
    · rintro ⟨p, hp, rfl, counts, hcounts, hon⟩
      have hmem : (p.1, valuesAt p.1 hits) ∈ groupSorted hits :=
        mem_groupSorted.mpr ⟨List.mem_map_of_mem hp, rfl⟩
      obtain ⟨counts', bitmap, hcounts', hrun, -, hbits⟩ := hgroup _ hmem
      cases hcounts.symm.trans hcounts'
      exact ⟨_, (mem_mapM hbitmaps).mpr ⟨_, hmem, map_eq_ok.mpr ⟨bitmap, hrun, rfl⟩⟩, rfl,
        (hbits r).mpr ⟨p, hp, rfl, hon⟩⟩

/-! ## Reads -/

variable {index : ParquetIndex} {entries : List ((UInt32 × UInt32) × Bytes)}
  {keys : List (List (List Int64))} {paging : List (List ℕ)}

/-- **Reads through filters** are reads of the candidate rows, compared with the
    key. -/
theorem BloomIndex.read_eq
    (h : BloomIndex index source md indexName sourceCol column entries keys paging)
    (hsource : Indexable source md sourceCol column) (k : Int64) :
    ∃ hits bitmaps, index.bloomProbe indexName (.i64 k) = .ok hits ∧ Candidates hits keys paging k ∧
      (Selects bitmaps md fun g r => ∃ p ∈ hits, p.1.toNat = g ∧
        ∃ counts, paging[g]? = some counts ∧ OnPage counts p.2.toNat r) ∧
      ∀ target, index.readColumnI64ViaBloomEq source indexName k target
        = List.filter (fun v => v = k)
          <$> ParquetIndex.readBitmaps readColumnI64Masked source target bitmaps := by
  have hcandidates := h.filters.candidates k
  have hprobe := h.bloomProbe_eq (.i64 k)
  rw [Key.plainBytes] at hprobe
  obtain ⟨bitmaps, hbitmaps, hselects⟩ := candidateBitmaps_ok h.keyed.toPagedColumn hcandidates.pages
  obtain ⟨entry, fpp, hfound, hkind⟩ := h.found
  refine ⟨_, bitmaps, hprobe, hcandidates, hselects, fun target => ?_⟩
  rw [ParquetIndex.readColumnI64ViaBloomEq, hprobe, ok_bind]
  split
  · next hnil =>
    rw [hnil] at hbitmaps
    cases hbitmaps
    rfl
  · rw [hfound, ok_bind]
    dsimp only
    rw [hkind]
    dsimp only
    rw [hsource.resolves, ok_bind, hsource.metadata, mapIo_ok, ok_bind,
      foldlM_mapM hbitmaps fun group e he s => ?_]
    · rfl
    · obtain ⟨bitmap, hbitmap, rfl⟩ := map_eq_ok.mp he
      rw [hbitmap, ok_bind]

/-- **No page is missed**: an index of the filters of the pages of a column opens,
    and a probe names pages of the column in order, among them every page that has
    the key. -/
theorem bloomProbe_misses_none [LawfulPlatform] [FloatText] (h : Indexable source md sourceCol column)
    {idx : Bytes} (hwrite : writeBloomPageI64 source indexName column targetFpp = .ok idx)
    (hshort : ∀ table, bloomTable source indexName column targetFpp = .ok table →
      ShortTable table.1 table.2)
    (hfits : ∀ rg ∈ md.rowGroups, ∀ n ≤ rg.numRows.toUInt64.toNat, FilterFits targetFpp n)
    (htext : FloatText.Inverse targetFpp) (hindexName : Clean indexName)
    (hsourceCol : Clean sourceCol) :
    ∃ index, ParquetIndex.open idx source = .ok index ∧
      ∀ k, ∃ hits, index.bloomProbe indexName (.i64 k) = .ok hits ∧ hits.Pairwise PageBefore ∧
        (∀ p ∈ hits, ∃ layouts, walkDataPages source p.1.toNat column = .ok layouts ∧
          p.2.toNat < layouts.length) ∧
        ∀ {g i r : ℕ} {values : List Int64} {layouts : List DataPageLayout} {page : DataPageLayout},
          readColumnI64 source g column = .ok values →
          walkDataPages source g column = .ok layouts → layouts[i]? = some page →
          page.firstRow ≤ r → r < page.firstRow + page.numValues → values[r]? = some k →
          ∃ p ∈ hits, p.1.toNat = g ∧ p.2.toNat = i := by
  obtain ⟨index, entries, keys, paging, hopen, hindex⟩ :=
    exists_bloomIndex h hwrite hshort hfits htext hindexName hsourceCol
  refine ⟨index, hopen, fun k => ?_⟩
  obtain ⟨hits, -, hprobe, hcandidates, -, -⟩ := hindex.read_eq h k
  refine ⟨hits, hprobe, hcandidates.sorted, fun p hp => ?_, ?_⟩
  · obtain ⟨counts, hcounts, hlt⟩ := hcandidates.pages p hp
    exact ⟨_, hindex.keyed.walk hcounts, by rwa [length_layoutsOf]⟩
  · intro g i r values layouts page hread hwalk hpage hle hlt hk
    have hg := lt_of_walkDataPages h.metadata hwalk
    obtain ⟨counts, hcounts⟩ : ∃ counts, paging[g]? = some counts :=
      ⟨_, List.getElem?_eq_getElem (hindex.keyed.rowGroups.symm ▸ hg)⟩
    obtain ⟨rows, hrows⟩ : ∃ rows, keys[g]? = some rows :=
      ⟨_, List.getElem?_eq_getElem (by rwa [hindex.keyed.length, hindex.keyed.rowGroups])⟩
    cases hwalk.symm.trans (hindex.keyed.walk hcounts)
    obtain ⟨values', hread', rfl⟩ := map_eq_ok.mp (hindex.keyed.read hrows)
    cases hread.symm.trans hread'
    obtain ⟨hi, -⟩ := List.getElem?_eq_some_iff.mp hpage
    rw [length_layoutsOf] at hi
    have hn := List.getElem?_eq_getElem hi
    cases hpage.symm.trans (getElem?_layoutsOf hn)
    dsimp only at hle hlt
    refine hcandidates.all (r := r - (counts.take i).sum) ?_
    refine ⟨counts, _, _, [k], hcounts, hn, by omega, hrows, ?_, List.mem_singleton_self k⟩
    rw [Nat.add_sub_cancel' hle, List.getElem?_map, hk]
    rfl

end

section
variable [Platform] [LawfulPlatform] [FloatText] {columns : Columns} {options : WriteOptions}
  {t : WrittenTable} {source : ParquetFile} {kix tix : ℕ} {sourceCol targetCol indexName : String}
  {targetFpp : F64}

/-- The row groups that a probe names. -/
def hitGroups (hits : List (UInt32 × UInt32)) (n : ℕ) : List ℕ :=
  (List.range n).filter fun g => ∃ p ∈ hits, p.1.toNat = g

omit [LawfulPlatform] [FloatText] in
/-- The pages of a written chunk: there is one. -/
theorem PagedColumn.counts_written {paging : List (List ℕ)}
    (h : PagedColumn source t.metadata kix paging) (hfile : WrittenFile t columns options source)
    {named : String × ColumnData} (hnamed : columns[kix]? = some named) {g : ℕ} {counts : List ℕ}
    (hcounts : paging[g]? = some counts) : counts = [groupSize columns options g] := by
  have hwalk := h.walk hcounts
  rw [hfile.walkDataPages hnamed (lt_of_walkDataPages hfile.metadata hwalk)] at hwalk
  have hlayouts := congrArg (List.map (·.numValues)) (Except.ok.inj hwalk)
  rwa [map_numValues_layoutsOf, map_numValues_layoutsOf, eq_comm] at hlayouts

section
variable {index : ParquetIndex} {entries : List ((UInt32 × UInt32) × Bytes)}
  {keys : List (List (List Int64))} {paging : List (List ℕ)} {v : List Int64}

omit [FloatText] in
/-- **Reads of any column**: what a probe names is compared with the key. -/
theorem BloomIndex.read_written
    (h : BloomIndex index source t.metadata indexName sourceCol kix entries keys paging)
    (hfile : WrittenFile t columns options source)
    (hkey : columns[kix]? = some (sourceCol, .i64 v))
    (hfirst : ∀ i < kix, ∀ named, columns[i]? = some named → named.1 ≠ sourceCol) (k : Int64) :
    ∃ hits, index.bloomProbe indexName (.i64 k) = .ok hits ∧ Candidates hits keys paging k ∧
      ∀ {ix : ℕ} {name : String} {u : List Int64}, columns[ix]? = some (name, .i64 u) →
        index.readColumnI64ViaBloomEq source indexName k ix
          = .ok ((hitGroups hits (rowGroupCount u.length options.rowGroupSize)).flatMap fun g =>
              (groupRows u options.rowGroupSize g).filter fun x => x = k) := by
  obtain ⟨hlength, hcount⟩ := rowGroups_length hfile.written
  obtain ⟨hits, bitmaps, hprobe, hcandidates, hselects, hread⟩ :=
    h.read_eq (hfile.indexable hkey hfirst) k
  refine ⟨hits, hprobe, hcandidates, fun {ix name u} hu => ?_⟩
  have hrows : rowsOf columns = u.length := hfile.rowCount_eq hu
  -- a row group is selected as a whole
  have hselected : ∀ g < t.metadata.rowGroups.length, ∀ bit : ℕ → Bool,
      (∀ r, bit r = true ↔ ∃ p ∈ hits, p.1.toNat = g ∧
        ∃ counts, paging[g]? = some counts ∧ OnPage counts p.2.toNat r) →
      selectFrom bit 0 (groupRows u options.rowGroupSize g)
        = if decide (∃ p ∈ hits, p.1.toNat = g) then groupRows u options.rowGroupSize g else [] := by
    intro g hg bit hbit
    refine selectFrom_all fun i hi => ?_
    rw [length_groupRows hrows] at hi
    rw [Nat.zero_add, Bool.eq_iff_iff, hbit, decide_eq_true_eq]
    constructor
    · rintro ⟨p, hp, hpg, -⟩
      exact ⟨p, hp, hpg⟩
    · rintro ⟨p, hp, rfl⟩
      obtain ⟨counts, hcounts, hlt⟩ := hcandidates.pages p hp
      obtain rfl := h.keyed.toPagedColumn.counts_written hfile hkey hcounts
      rw [List.length_singleton, Nat.lt_one_iff] at hlt
      exact ⟨p, hp, rfl, _, hcounts, _, by rw [hlt]; rfl, by simp [hlt], by simpa [hlt] using hi⟩
  have hbitmaps : ParquetIndex.readBitmaps readColumnI64Masked source ix bitmaps = .ok _ :=
    hfile.readBitmaps_ok (β := Int64) hu hselects
  rw [hread ix, hbitmaps, hselects.flatMap_eq hselected, hlength, hcount, hrows]
  refine congrArg Except.ok ?_
  rw [List.filter_flatMap, hitGroups]
  refine (flatMap_filter fun g _ hnone => ?_).symm.trans (List.flatMap_congr fun g hg => ?_)
  · rw [if_neg (by rw [hnone]; exact Bool.false_ne_true)]
    rfl
  · rw [if_pos (List.mem_filter.mp hg).2]

omit [FloatText] in
/-- **The keys** are in the row groups that the probe names. -/
theorem BloomIndex.filter_hitGroups
    (h : BloomIndex index source t.metadata indexName sourceCol kix entries keys paging)
    (hfile : WrittenFile t columns options source)
    (hkey : columns[kix]? = some (sourceCol, .i64 v)) {k : Int64} {hits : List (UInt32 × UInt32)}
    (hcandidates : Candidates hits keys paging k) :
    (hitGroups hits (rowGroupCount v.length options.rowGroupSize)).flatMap (fun g =>
      (groupRows v options.rowGroupSize g).filter fun x => x = k) = v.filter fun x => x = k := by
  obtain ⟨hlength, hcount⟩ := rowGroups_length hfile.written
  have hrows : rowsOf columns = v.length := hfile.rowCount_eq hkey
  have hall : ((List.range (rowGroupCount v.length options.rowGroupSize)).flatMap
      (groupRows v options.rowGroupSize)) = v := by
    rw [List.flatMap_def, flatten_allGroups v hfile.size_pos]
  rw [hitGroups, flatMap_filter fun g hg hnone => ?_, ← List.filter_flatMap, hall]
  rw [List.filter_eq_nil_iff]
  rw [decide_eq_false_iff_not] at hnone
  intro x hx hxk
  obtain rfl : x = k := of_decide_eq_true hxk
  obtain ⟨r, hr⟩ := List.mem_iff_getElem?.mp hx
  have hg := List.mem_range.mp hg
  have hgroups : g < paging.length := by rwa [h.keyed.rowGroups, hlength, hcount, hrows]
  obtain ⟨rows, hkeys⟩ : ∃ rows, keys[g]? = some rows :=
    ⟨_, List.getElem?_eq_getElem (by rwa [h.keyed.length])⟩
  have hcounts := List.getElem?_eq_getElem hgroups
  have hone := h.keyed.toPagedColumn.counts_written hfile hkey hcounts
  obtain ⟨values, hvalues, rfl⟩ := map_eq_ok.mp (h.keyed.read hkeys)
  cases (hfile.readI64 hkey hg).symm.trans hvalues
  have hlt : r < groupSize columns options g := by
    rw [← length_groupRows hrows]
    exact (List.getElem?_eq_some_iff.mp hr).1
  obtain ⟨p, hp, hpg, -⟩ := hcandidates.all (i := 0) (r := r)
    ⟨_, _, _, [x], hcounts, by rw [hone]; rfl, hlt, hkeys, by simp [hr], List.mem_singleton_self x⟩
  exact hnone ⟨p, hp, hpg⟩

end

/-- **Reads through the filters of a written table**: the rows of the row groups
    that the probe names are compared with the key.  For the column that has the
    filters this is the scan of all its rows. -/
theorem bloomRead_eq (hfile : WrittenFile t columns options source) {v w : List Int64}
    (hkey : columns[kix]? = some (sourceCol, .i64 v))
    (hfirst : ∀ i < kix, ∀ named, columns[i]? = some named → named.1 ≠ sourceCol)
    (htarget : columns[tix]? = some (targetCol, .i64 w)) {idx : Bytes}
    (hwrite : writeBloomPageI64 source indexName kix targetFpp = .ok idx)
    (hshort : ∀ table, bloomTable source indexName kix targetFpp = .ok table →
      ShortTable table.1 table.2)
    (hfits : ∀ n ≤ min v.length options.rowGroupSize, FilterFits targetFpp n)
    (htext : FloatText.Inverse targetFpp) (hindexName : Clean indexName)
    (hsourceCol : Clean sourceCol) :
    ∃ index, ParquetIndex.open idx source = .ok index ∧
      ∀ k, ∃ hits, index.bloomProbe indexName (.i64 k) = .ok hits ∧
        index.readColumnI64ViaBloomEq source indexName k kix = .ok (v.filter fun x => x = k) ∧
        index.readColumnI64ViaBloomEq source indexName k tix
          = .ok ((hitGroups hits (rowGroupCount w.length options.rowGroupSize)).flatMap fun g =>
              (groupRows w options.rowGroupSize g).filter fun x => x = k) := by
  have hgroupFits : ∀ rg ∈ t.metadata.rowGroups, ∀ n ≤ rg.numRows.toUInt64.toNat,
      FilterFits targetFpp n := by
    intro rg hrg n hn
    obtain ⟨g, hg⟩ := List.mem_iff_getElem?.mp hrg
    have hrows : rowsOf columns = v.length := hfile.rowCount_eq hkey
    rw [(hfile.numRows hg).2.1, groupSize, hrows, Nat.add_one_mul] at hn
    exact hfits n (by omega)
  obtain ⟨index, entries, keys, paging, hopen, hindex⟩ := exists_bloomIndex
    (hfile.indexable hkey hfirst) hwrite hshort hgroupFits htext hindexName hsourceCol
  refine ⟨index, hopen, fun k => ?_⟩
  obtain ⟨hits, hprobe, hcandidates, hread⟩ := hindex.read_written hfile hkey hfirst k
  refine ⟨hits, hprobe, ?_, hread htarget⟩
  rw [hread hkey, hindex.filter_hitGroups hfile hkey hcandidates]

end

/-! ## Filters of a sample -/

/-- One hundredth. -/
def hundredthFpp : F64 := ⟨0x3F847AE147AE147B⟩

theorem inverse_hundredth : @FloatText.Inverse FloatText.hundredth hundredthFpp := by
  let _ := FloatText.hundredth
  refine ⟨by decide, ?_, by decide⟩
  change ∀ b ∈ asBytes "0.01", isNumberByte b = true
  decide +kernel

/-- The filters of the keys of the sample are written. -/
theorem writeBloom_keys : ∃ source idx, keysFile = .ok source ∧
    @writeBloomPageI64 FloatText.hundredth Platform.stored source "by_page" 0 hundredthFpp = .ok idx ∧
    ∀ table, @bloomTable FloatText.hundredth Platform.stored source "by_page" 0 hundredthFpp = .ok table →
      @ShortTable Platform.stored table.1 table.2 := by
  let _ := Platform.stored
  let _ := FloatText.hundredth
  obtain ⟨source, table, t, hsource, htable, ht, hshort⟩ :=
    @shortTable_keys (fun source => bloomTable source "by_page" 0 hundredthFpp) 1208 763
      (by decide +kernel) (by decide) (by decide)
  exact ⟨source, t.bytes, hsource, bind_eq_ok.mpr ⟨table, htable, map_eq_ok.mpr ⟨t, ht, rfl⟩⟩, hshort⟩

theorem bloomProbe_misses_none_sample : ∃ source idx index, keysFile = .ok source ∧
    @ParquetIndex.open Platform.stored FloatText.hundredth idx source = .ok index ∧
    ∀ k, ∃ hits, index.bloomProbe "by_page" (.i64 k) = .ok hits ∧ hits.Pairwise PageBefore ∧
      (∀ p ∈ hits, ∃ layouts, walkDataPages source p.1.toNat 0 = .ok layouts ∧
        p.2.toNat < layouts.length) ∧
      ∀ {g i r : ℕ} {values : List Int64} {layouts : List DataPageLayout} {page : DataPageLayout},
        @readColumnI64 Platform.stored source g 0 = .ok values →
        walkDataPages source g 0 = .ok layouts → layouts[i]? = some page →
        page.firstRow ≤ r → r < page.firstRow + page.numValues → values[r]? = some k →
        ∃ p ∈ hits, p.1.toNat = g ∧ p.2.toNat = i := by
  let _ := Platform.stored
  let _ := Platform.stored_lawful
  let _ := FloatText.hundredth
  have hfits : ∀ n, FilterFits hundredthFpp n := fun _ =>
    lt_of_le_of_lt (optimalNumBlocks_le (bloomBytes_stored _ _)) (by decide)
  obtain ⟨source, idx, hsource, hwrite, hshort⟩ := writeBloom_keys
  obtain ⟨md, hindexable, -⟩ := indexable_keys hsource
  obtain ⟨index, hopen, hprobes⟩ := bloomProbe_misses_none hindexable hwrite hshort
    (fun _ _ n _ => hfits n) inverse_hundredth (by decide +kernel) (by decide +kernel)
  exact ⟨source, idx, index, hsource, hopen, hprobes⟩

theorem bloomRead_eq_sample : ∃ source idx index, keysFile = .ok source ∧
    @ParquetIndex.open Platform.stored FloatText.hundredth idx source = .ok index ∧
    ∀ k, ∃ hits, index.bloomProbe "by_page" (.i64 k) = .ok hits ∧
      @ParquetIndex.readColumnI64ViaBloomEq Platform.stored index source "by_page" k 0
        = .ok (([7, 5, 7] : List Int64).filter fun x => x = k) ∧
      @ParquetIndex.readColumnI64ViaBloomEq Platform.stored index source "by_page" k 1
        = .ok ((hitGroups hits 2).flatMap fun g =>
            (groupRows ([1, 2, 3] : List Int64) 2 g).filter fun x => x = k) := by
  let _ := Platform.stored
  let _ := Platform.stored_lawful
  let _ := FloatText.hundredth
  have hfits : ∀ n, FilterFits hundredthFpp n := fun _ =>
    lt_of_le_of_lt (optimalNumBlocks_le (bloomBytes_stored _ _)) (by decide)
  obtain ⟨source, idx, hsource, hwrite, hshort⟩ := writeBloom_keys
  obtain ⟨t, hfile⟩ := writtenFile_keys hsource
  have hkey : keysTable[0]? = some ("key", .i64 [7, 5, 7]) := rfl
  have hvalue : keysTable[1]? = some ("value", .i64 [1, 2, 3]) := rfl
  obtain ⟨index, hopen, hreads⟩ := bloomRead_eq hfile hkey (keysTable_names rfl) hvalue hwrite hshort
    (fun n _ => hfits n) inverse_hundredth (by decide +kernel) (by decide +kernel)
  exact ⟨source, idx, index, hsource, hopen, hreads⟩

end EmatixParquet
