/-
  The rows that an index selects.

  * `IndexesRows.selects`: the bitmaps of the body's rows whose keys satisfy a
    predicate have exactly the rows of the source with such a key;
  * `Indexable.keyedSource`: what the builder has put in buckets is such a source.
-/
import EmatixParquet.Index.Buckets
import EmatixParquet.Index.Reader
import Mathlib.Algebra.Order.BigOperators.Group.List

namespace EmatixParquet

open Wire

/-- One bitmap for each row group that it mentions, in order, of as many bits as
    that has rows; row `r` of row group `g` is set where `p g r`. -/
structure Selects (bitmaps : List (UInt32 × Bytes)) (md : FileMetaData) (p : ℕ → ℕ → Prop) :
    Prop where
  sorted : (bitmaps.map Prod.fst).Pairwise (· < ·)
  length : ∀ e ∈ bitmaps, ∃ rg, md.rowGroups[e.1.toNat]? = some rg ∧
    e.2.length = divCeil rg.numRows.toUInt64.toNat 8
  rows : ∀ {g r : ℕ}, g < md.rowGroups.length →
    ((∃ e ∈ bitmaps, e.1.toNat = g ∧ IsSet e.2 r) ↔ p g r)

theorem Selects.congr {bitmaps : List (UInt32 × Bytes)} {md : FileMetaData} {p q : ℕ → ℕ → Prop}
    (h : Selects bitmaps md p) (hpq : ∀ g r, p g r ↔ q g r) : Selects bitmaps md q where
  sorted := h.sorted
  length := h.length
  rows hg := (h.rows hg).trans (hpq _ _)

section
variable {κ : Type}

/-- Row `r` of row group `g` has a key that satisfies `q`. -/
def RowWith (readKeys : ℕ → Res CodecError (List (List κ))) (q : κ → Prop) (g r : ℕ) : Prop :=
  ∃ rows ks, readKeys g = .ok rows ∧ rows[r]? = some ks ∧ ∃ k ∈ ks, q k

variable {source : ParquetFile} {md : FileMetaData} {column : ℕ}
  {readKeys : ℕ → Res CodecError (List (List κ))} {keys : List (List (List κ))}
  {paging : List (List ℕ)}

/-- The rows with a key, page by page. -/
theorem KeyedSource.rowWith_iff (h : KeyedSource source md column readKeys keys paging)
    {g : ℕ} {counts : List ℕ} (hcounts : paging[g]? = some counts) (q : κ → Prop) (r : ℕ) :
    RowWith readKeys q g r
      ↔ ∃ k, q k ∧ ∃ i j, (counts.take i).sum + j = r ∧ HasKey keys paging k g i j := by
  obtain ⟨rows, hrows⟩ : ∃ rows, keys[g]? = some rows := by
    obtain ⟨hlt, -⟩ := List.getElem?_eq_some_iff.mp hcounts
    exact ⟨_, List.getElem?_eq_getElem (h.length ▸ hlt)⟩
  constructor
  · rintro ⟨rows', ks, hread, hks, k, hk, hq⟩
    cases (h.read hrows).symm.trans hread
    obtain ⟨hr, -⟩ := List.getElem?_eq_some_iff.mp hks
    obtain ⟨i, n, hn, hle, hlt⟩ := exists_page (h.rows hrows hcounts ▸ hr)
    have hr : (counts.take i).sum + (r - (counts.take i).sum) = r := Nat.add_sub_cancel' hle
    exact ⟨k, hq, i, r - (counts.take i).sum, hr,
      counts, n, rows, ks, hcounts, hn, by omega, hrows, hr.symm ▸ hks, hk⟩
  · rintro ⟨k, hq, i, j, rfl, counts', n, rows', ks, hcounts', -, -, hrows', hks, hk⟩
    cases hcounts.symm.trans hcounts'
    exact ⟨rows', ks, h.read hrows', hks, k, hk, hq⟩

/-- **Exactly the rows with the keys**: the rows of an index body whose key
    satisfies `q` are hits, and their bitmaps select the rows of the source with
    a key that satisfies `q`. -/
theorem IndexesRows.selects {entries : List (κ × IndexTargets.Row)}
    (h : IndexesRows entries keys paging)
    (hsource : KeyedSource source md column readKeys keys paging) {name : String}
    (hcolumn : resolveLeafByName source name = .ok column) (q : κ → Prop) [DecidablePred q] :
    ∃ hits, (entries.filter fun e => q e.1).mapM (fun e => toHit .v2Tagged e.2) = .ok hits ∧
      ∃ bitmaps, assembleBitmapsFrom source name hits = .ok bitmaps ∧
        Selects bitmaps md (RowWith readKeys q) := by
  obtain ⟨hits, hhits⟩ : ∃ hits,
      (entries.filter fun e => q e.1).mapM (fun e => toHit .v2Tagged e.2) = .ok hits :=
    exists_mapM fun e he => by
      obtain ⟨hit, hhit, -⟩ := h.hits e (List.mem_filter.mp he).1
      exact ⟨hit, hhit⟩
  have hmem : ∀ {hit}, hit ∈ hits ↔ ∃ e ∈ entries, q e.1 ∧ toHit .v2Tagged e.2 = .ok hit := by
    intro hit
    rw [mem_mapM hhits]
    simp only [List.mem_filter, decide_eq_true_eq, and_assoc]
  have hnames : ∀ hit ∈ hits, hit.Names paging := by
    intro hit hmemHit
    obtain ⟨e, he, -, hrun⟩ := hmem.mp hmemHit
    obtain ⟨hit', hrun', hname⟩ := h.hits e he
    cases hrun.symm.trans hrun'
    exact hname
  obtain ⟨bitmaps, hbitmaps, hsorted, hlength, hrows⟩ :=
    assembleBitmapsFrom_ok hsource.toPagedColumn hcolumn hnames
  refine ⟨hits, hhits, bitmaps, hbitmaps, hsorted, fun e he => ?_, fun {g r} hg => ?_⟩
  · obtain ⟨counts, hcounts, hlen⟩ := hlength e he
    obtain ⟨hlt, -⟩ := List.getElem?_eq_some_iff.mp hcounts
    have hrg := List.getElem?_eq_getElem (hsource.rowGroups ▸ hlt)
    exact ⟨_, hrg, by rw [hsource.numRows hcounts hrg, hlen]⟩
  · have hcounts := List.getElem?_eq_getElem (hsource.rowGroups.symm ▸ hg)
    rw [hrows hcounts, hsource.rowWith_iff hcounts]
    constructor
    · rintro ⟨-, hit, hhit, j, hset, hpos⟩
      rw [List.mem_filter, decide_eq_true_eq] at hhit
      obtain ⟨hhit, rfl⟩ := hhit
      obtain ⟨e, he, hq, hrun⟩ := hmem.mp hhit
      exact ⟨e.1, hq, _, j, hpos, h.rows.mp ⟨e, he, hit, hrun, rfl, rfl, rfl, hset⟩⟩
    · rintro ⟨k, hq, i, j, rfl, hkey⟩
      obtain ⟨e, he, hit, hrun, rfl, rfl, rfl, hset⟩ := h.rows.mpr hkey
      obtain ⟨counts', n, -, -, hcounts', hn, hlt, -⟩ := hkey
      cases hcounts.symm.trans hcounts'
      refine ⟨lt_of_lt_of_le (Nat.add_lt_add_left hlt _) (page_le_sum hn), hit, ?_, j, hset, rfl⟩
      rw [List.mem_filter, decide_eq_true_eq]
      exact ⟨hmem.mpr ⟨e, he, hq, hrun⟩, rfl⟩

/-! ## What the builder accepts -/

/-- A column of an opened file that has the given name, and no column before it
    has.  Its row groups have as many rows as their headers count, and both rows
    and pages have 32-bit numbers. -/
structure Indexable (source : ParquetFile) (md : FileMetaData) (name : String) (column : ℕ) :
    Prop where
  metadata : source.metadata = .ok md
  ordinal : leafOrdinal md.schema name = some column
  pages : ∀ {g : ℕ} {layouts : List DataPageLayout}, walkDataPages source g column = .ok layouts →
    layouts.length ≤ 2 ^ 32
  numRows : ∀ {g : ℕ} {rg : RowGroup} {layouts : List DataPageLayout}, md.rowGroups[g]? = some rg →
    walkDataPages source g column = .ok layouts →
    rg.numRows.toUInt64.toNat = (layouts.map (·.numValues)).sum
  fits : ∀ rg ∈ md.rowGroups, rg.numRows.toUInt64.toNat < 2 ^ 32

variable {name : String}

theorem Indexable.resolves (h : Indexable source md name column) :
    resolveLeafByName source name = .ok column := by
  rw [resolveLeafByName, h.metadata, mapIo_ok, ok_bind, h.ordinal, okOr_some]

/-- A row group in buckets has keys and pages, and as many of the one as of the
    other. -/
theorem bucketRowGroup_eq_ok {what : String} {g : ℕ} {b : Buckets κ}
    (h : bucketRowGroup source what column readKeys g = .ok b) :
    ∃ rows layouts, readKeys g = .ok rows ∧ walkDataPages source g column = .ok layouts ∧
      (layouts.map (·.numValues)).sum = rows.length := by
  obtain ⟨rows, hrows, h⟩ := bind_eq_ok.mp h
  obtain ⟨layouts, hlayouts, h⟩ := bind_eq_ok.mp h
  dsimp only at h
  split at h
  · cases h
  · next hsum => exact ⟨rows, layouts, hrows, hlayouts, not_not.mp hsum⟩

/-- **A source with keys**: every row group has keys and pages, as many of the one
    as of the other. -/
theorem Indexable.exists_keyedSource (h : Indexable source md name column)
    (hgroups : md.rowGroups.length ≤ 2 ^ 32)
    (hgroup : ∀ g ∈ List.range md.rowGroups.length, ∃ rows layouts, readKeys g = .ok rows ∧
      walkDataPages source g column = .ok layouts ∧
      (layouts.map (·.numValues)).sum = rows.length) :
    ∃ keys paging, KeyedSource source md column readKeys keys paging ∧ PagingFits paging := by
  obtain ⟨keys, hkeys⟩ := exists_mapM fun g hg => by
    obtain ⟨rows, -, hrows, -⟩ := hgroup g hg
    exact ⟨rows, hrows⟩
  obtain ⟨layoutss, hlayoutss⟩ := exists_mapM fun g hg => by
    obtain ⟨-, layouts, -, hlayouts, -⟩ := hgroup g hg
    exact ⟨layouts, hlayouts⟩
  have hkeysAt : ∀ {g rows}, keys[g]? = some rows →
      g ∈ List.range md.rowGroups.length ∧ readKeys g = .ok rows := by
    intro g rows hg
    obtain ⟨g', hg', hrun⟩ := (mapM_getElem? hkeys g).2 rows hg
    obtain ⟨hlt, rfl⟩ := List.getElem?_eq_some_iff.mp hg'
    rw [List.getElem_range] at hrun
    exact ⟨List.mem_range.mpr (by simpa using hlt), hrun⟩
  have hpagingAt : ∀ {g counts}, (layoutss.map fun ls => ls.map (·.numValues))[g]? = some counts →
      g < md.rowGroups.length ∧ walkDataPages source g column = .ok (layoutsOf counts) := by
    intro g counts hg
    rw [List.getElem?_map, Option.map_eq_some_iff] at hg
    obtain ⟨layouts, hlayouts, rfl⟩ := hg
    obtain ⟨g', hg', hrun⟩ := (mapM_getElem? hlayoutss g).2 layouts hlayouts
    obtain ⟨hlt, rfl⟩ := List.getElem?_eq_some_iff.mp hg'
    rw [List.getElem_range] at hrun
    obtain ⟨counts, rfl⟩ := walkDataPages_ok hrun
    rw [map_numValues_layoutsOf]
    exact ⟨by simpa using hlt, hrun⟩
  have hlen : (layoutss.map fun ls => ls.map (·.numValues)).length = md.rowGroups.length := by
    rw [List.length_map, mapM_length hlayoutss, List.length_range]
  have hsource : KeyedSource source md column readKeys keys
      (layoutss.map fun ls => ls.map (·.numValues)) := by
    refine ⟨⟨h.metadata, hlen, fun hg => (hpagingAt hg).2, fun {g counts rg} hg hrg => ?_⟩, ?_,
      fun hg => (hkeysAt hg).2, fun {g rows counts} hrows hcounts => ?_⟩
    · rw [h.numRows hrg (hpagingAt hg).2, map_numValues_layoutsOf]
    · rw [hlen, mapM_length hkeys, List.length_range]
    · obtain ⟨hmem, hread⟩ := hkeysAt hrows
      obtain ⟨rows', layouts, hread', hwalk, hsum⟩ := hgroup g hmem
      cases hread.symm.trans hread'
      cases (hpagingAt hcounts).2.symm.trans hwalk
      rw [← hsum, map_numValues_layoutsOf]
  have hfits : PagingFits (layoutss.map fun ls => ls.map (·.numValues)) := by
    refine ⟨hlen ▸ hgroups, fun counts hmem => ?_, fun counts hmem n hn => ?_⟩
    · obtain ⟨g, hg⟩ := List.mem_iff_getElem?.mp hmem
      simpa using h.pages (hpagingAt hg).2
    · obtain ⟨g, hg⟩ := List.mem_iff_getElem?.mp hmem
      have hrg := List.getElem?_eq_getElem (hpagingAt hg).1
      have hlt := h.fits _ (List.mem_of_getElem? hrg)
      rw [hsource.numRows hg hrg] at hlt
      exact lt_of_le_of_lt (List.le_sum_of_mem hn) hlt
  exact ⟨_, _, hsource, hfits⟩

/-- **What the builder accepts**: keys and pages of every row group, and the
    buckets hold them. -/
theorem Indexable.keyedSource (h : Indexable source md name column) {what : String} {b : Buckets κ}
    (hb : bucketRowGroups source md what column readKeys = .ok b)
    (hgroups : md.rowGroups.length ≤ 2 ^ 32) :
    ∃ keys paging, KeyedSource source md column readKeys keys paging ∧ PagingFits paging ∧
      b.Of keys paging := by
  obtain ⟨bs, hbs, -⟩ := bind_eq_ok.mp hb
  obtain ⟨keys, paging, hsource, hfits⟩ := h.exists_keyedSource hgroups fun g hg => by
    rw [List.mem_range] at hg
    obtain ⟨b, -, hrun⟩ := (mapM_getElem? hbs g).1 g (List.getElem?_range hg)
    exact bucketRowGroup_eq_ok hrun
  obtain ⟨b', hb', hof⟩ := bucketRowGroups_of hsource hfits what
  cases hb.symm.trans hb'
  exact ⟨keys, paging, hsource, hfits, hof⟩

/-- A source with a fingerprint has fewer than `2 ^ 32` row groups. -/
theorem Indexable.rowGroups_lt (h : Indexable source md name column) {fp : SourceFingerprint}
    (hfp : computeSourceFingerprint source = .ok fp) : md.rowGroups.length < 2 ^ 32 := by
  rw [computeSourceFingerprint] at hfp
  split at hfp
  · cases hfp
  · obtain ⟨md', hmd, hfp⟩ := bind_eq_ok.mp hfp
    rw [h.metadata, mapIo_ok] at hmd
    cases hmd
    split at hfp
    · cases hfp
    · next hlt => exact not_le.mp hlt

/-- The name of the leaf. -/
theorem leafName_ok {schema : List SchemaElement} (h : leafOrdinal schema name = some column)
    {leaf : SchemaElement} (hleaf : leafOrErr schema column = .ok leaf) (what : String) :
    leafName leaf what = .ok name := by
  have hget : schema[column + 1]? = some leaf := by
    rw [leafOrErr] at hleaf
    split at hleaf
    · cases hleaf
    · cases hs : schema[column + 1]? with
      | none =>
        rw [hs] at hleaf
        cases hleaf
      | some se =>
        rw [hs, okOr_some] at hleaf
        rw [Except.ok.inj hleaf]
  have hname : leaf.name = asBytes name := by
    obtain ⟨hlt, hfound, -⟩ := List.findIdx?_eq_some_iff_getElem.mp h
    obtain ⟨-, rfl⟩ := List.getElem?_eq_some_iff.mp hget
    rw [List.getElem_drop, beq_iff_eq] at hfound
    simpa only [Nat.add_comm] using hfound
  rw [leafName, hname, fromUtf8_asBytes, okOr_some]

variable [DecidableEq κ] [Ord κ]

/-- **The body that the builder makes** is in the order of the keys, and has the
    rows of the source under them. -/
theorem Indexable.indexesRows [Std.TransOrd κ] (h : Indexable source md name column)
    {what : String} {b : Buckets κ} {entries : List (κ × IndexTargets.Row)} {fp : SourceFingerprint}
    (hb : bucketRowGroups source md what column readKeys = .ok b) (hentries : b.entries = .ok entries)
    (hfp : computeSourceFingerprint source = .ok fp) :
    (entries.map Prod.fst).Pairwise (fun x y => (compare x y).isLE = true) ∧
      ∃ keys paging, KeyedSource source md column readKeys keys paging ∧
        IndexesRows entries keys paging := by
  obtain ⟨keys, paging, hsource, hfits, hof⟩ := h.keyedSource hb (h.rowGroups_lt hfp).le
  obtain ⟨entries', hentries', hsorted, hrows⟩ := hof.entries hfits
  cases hentries.symm.trans hentries'
  exact ⟨hsorted, keys, paging, hsource, hrows⟩

end

end EmatixParquet
