/-
  What the builder puts in its buckets, and the body it makes of them.

  A row of a source is named by its row group, its page, and its place in the
  page.  `HasKey` says which keys it has.

  * `bucketRowGroups_of`: the buckets hold exactly the rows with their keys;
  * `Buckets.Of.entries`: the body has one row for each key and page, in the order
    of the keys, and its rowset has the rows of the page with the key.
-/
import EmatixParquet.Index.Assemble
import EmatixParquet.Index.Builder

namespace EmatixParquet

open Wire

section
variable {κ : Type}

/-- Row `r` of page `i` of row group `g` has the key `k`; `keys` are the keys of
    the rows of each row group. -/
def HasKey (keys : List (List (List κ))) (paging : List (List ℕ)) (k : κ) (g i r : ℕ) : Prop :=
  ∃ counts n rows ks, paging[g]? = some counts ∧ counts[i]? = some n ∧ r < n ∧
    keys[g]? = some rows ∧ rows[(counts.take i).sum + r]? = some ks ∧ k ∈ ks

/-- Row groups, pages and rows have 32-bit numbers. -/
structure PagingFits (paging : List (List ℕ)) : Prop where
  rowGroups : paging.length ≤ 2 ^ 32
  pages : ∀ counts ∈ paging, counts.length ≤ 2 ^ 32
  values : ∀ counts ∈ paging, ∀ n ∈ counts, n < 2 ^ 32

/-- A row that has a key has small numbers. -/
theorem HasKey.lt {keys : List (List (List κ))} {paging : List (List ℕ)} {k : κ} {g i r : ℕ}
    (h : HasKey keys paging k g i r) (hfits : PagingFits paging) :
    g < 2 ^ 32 ∧ i < 2 ^ 32 ∧ r < 2 ^ 32 := by
  obtain ⟨counts, n, -, -, hcounts, hn, hr, -⟩ := h
  have hmem := List.mem_of_getElem? hcounts
  obtain ⟨hg, -⟩ := List.getElem?_eq_some_iff.mp hcounts
  obtain ⟨hi, -⟩ := List.getElem?_eq_some_iff.mp hn
  have hvalue := hfits.values counts hmem n (List.mem_of_getElem? hn)
  have hpages := hfits.pages counts hmem
  have hgroups := hfits.rowGroups
  omega

/-- The results of a run that are lists, put together. -/
theorem mem_flatten_mapM {ε α β : Type} {f : α → Except ε (List β)} {as : List α} {bs : List β}
    (h : List.flatten <$> as.mapM f = .ok bs) {b : β} :
    b ∈ bs ↔ ∃ a ∈ as, ∃ cs, f a = .ok cs ∧ b ∈ cs := by
  obtain ⟨css, hcss, rfl⟩ := map_eq_ok.mp h
  rw [List.mem_flatten]
  constructor
  · rintro ⟨cs, hcs, hb⟩
    obtain ⟨a, ha, hrun⟩ := (mem_mapM hcss).mp hcs
    exact ⟨a, ha, cs, hrun, hb⟩
  · rintro ⟨a, ha, cs, hrun, hb⟩
    exact ⟨cs, (mem_mapM hcss).mpr ⟨a, ha, hrun⟩, hb⟩

/-- **One page**: each of its rows is pushed once with each of its keys. -/
theorem bucketPage_ok {rows : List (List κ)} (rg : UInt32) {page : DataPageLayout}
    (h : page.firstRow + page.numValues ≤ rows.length) :
    ∃ pushes, bucketPage rows rg page = .ok pushes ∧ ∀ p, p ∈ pushes ↔
      ∃ r ks, r < page.numValues ∧ rows[page.firstRow + r]? = some ks ∧ ∃ k ∈ ks,
        p = ({ key := k, rg, page := page.pageIdx }, UInt32.ofNat r) := by
  have hrow : ∀ r ∈ List.range page.numValues, ∃ ks, rows[page.firstRow + r]? = some ks := by
    intro r hr
    rw [List.mem_range] at hr
    exact ⟨_, List.getElem?_eq_getElem (by omega)⟩
  obtain ⟨css, hcss⟩ := @exists_mapM (Fault CodecError) _ _ (fun r => do
      let ks ← itemAt rows (page.firstRow + r)
      pure (ks.map fun key => (({ key, rg, page := page.pageIdx } : BucketKey κ), UInt32.ofNat r)))
    (List.range page.numValues) fun r hr => by
      obtain ⟨ks, hks⟩ := hrow r hr
      exact ⟨_, by rw [itemAt, hks]; rfl⟩
  have hrun : bucketPage rows rg page = .ok css.flatten := map_eq_ok.mpr ⟨css, hcss, rfl⟩
  refine ⟨_, hrun, fun p => ?_⟩
  rw [mem_flatten_mapM hrun]
  constructor
  · rintro ⟨r, hr, cs, hcs, hp⟩
    obtain ⟨ks, hks⟩ := hrow r hr
    rw [itemAt, hks] at hcs
    cases hcs
    obtain ⟨k, hk, rfl⟩ := List.mem_map.mp hp
    exact ⟨r, ks, List.mem_range.mp hr, hks, k, hk, rfl⟩
  · rintro ⟨r, ks, hr, hks, k, hk, rfl⟩
    refine ⟨r, List.mem_range.mpr hr, _, by rw [itemAt, hks]; rfl, List.mem_map.mpr ⟨k, hk, rfl⟩⟩

/-- The keys of a source, row group by row group, over a column whose pages hold
    as many rows. -/
structure KeyedSource (source : ParquetFile) (md : FileMetaData) (column : ℕ)
    (readKeys : ℕ → Res CodecError (List (List κ))) (keys : List (List (List κ)))
    (paging : List (List ℕ)) : Prop extends PagedColumn source md column paging where
  length : keys.length = paging.length
  read : ∀ {g : ℕ} {rows : List (List κ)}, keys[g]? = some rows → readKeys g = .ok rows
  rows : ∀ {g : ℕ} {rows : List (List κ)} {counts : List ℕ}, keys[g]? = some rows →
    paging[g]? = some counts → counts.sum = rows.length

section
variable {source : ParquetFile} {md : FileMetaData} {column : ℕ}
  {readKeys : ℕ → Res CodecError (List (List κ))} {keys : List (List (List κ))}
  {paging : List (List ℕ)}

/-- **One row group.** -/
theorem bucketRowGroup_ok (h : KeyedSource source md column readKeys keys paging) (what : String)
    {g : ℕ} {rows : List (List κ)} {counts : List ℕ} (hrows : keys[g]? = some rows)
    (hcounts : paging[g]? = some counts) :
    ∃ b, bucketRowGroup source what column readKeys g = .ok b ∧
      (∀ p, p ∈ b.pushes ↔ ∃ i r k, HasKey keys paging k g i r ∧
        p = ({ key := k, rg := UInt32.ofNat g, page := UInt32.ofNat i }, UInt32.ofNat r)) ∧
      ∀ s, s ∈ b.pageSizes ↔ ∃ i n, counts[i]? = some n ∧
        s = ((UInt32.ofNat g, UInt32.ofNat i), UInt32.ofNat n) := by
  have hsum := h.rows hrows hcounts
  have hpage : ∀ page ∈ layoutsOf counts, page.firstRow + page.numValues ≤ rows.length := by
    intro page hmem
    obtain ⟨i, n, hn, rfl⟩ := mem_layoutsOf.mp hmem
    rw [← hsum]
    exact page_le_sum hn
  obtain ⟨css, hcss⟩ := exists_mapM fun page hmem => by
    obtain ⟨pushes, hrun, -⟩ := bucketPage_ok (UInt32.ofNat g) (hpage page hmem)
    exact ⟨pushes, hrun⟩
  have hrun : List.flatten <$> (layoutsOf counts).mapM (bucketPage rows (UInt32.ofNat g))
      = .ok css.flatten := map_eq_ok.mpr ⟨css, hcss, rfl⟩
  refine ⟨{ pushes := css.flatten
            pageSizes := (layoutsOf counts).map fun page =>
              ((UInt32.ofNat g, page.pageIdx), UInt32.ofNat page.numValues) }, ?_, fun p => ?_,
    fun s => ?_⟩
  · rw [bucketRowGroup, h.read hrows, ok_bind, h.walk hcounts, ok_bind]
    dsimp only
    rw [map_numValues_layoutsOf, if_neg (not_not.mpr hsum), hcss]
    rfl
  · rw [mem_flatten_mapM hrun]
    constructor
    · rintro ⟨page, hmem, pushes, hpushes, hp⟩
      obtain ⟨pushes', hpushes', hspec⟩ := bucketPage_ok (UInt32.ofNat g) (hpage page hmem)
      cases hpushes.symm.trans hpushes'
      obtain ⟨r, ks, hr, hks, k, hk, rfl⟩ := (hspec p).mp hp
      obtain ⟨i, n, hn, rfl⟩ := mem_layoutsOf.mp hmem
      exact ⟨i, r, k, ⟨counts, n, rows, ks, hcounts, hn, hr, hrows, hks, hk⟩, rfl⟩
    · rintro ⟨i, r, k, ⟨counts', n, rows', ks, hcounts', hn, hr, hrows', hks, hk⟩, rfl⟩
      cases hcounts.symm.trans hcounts'
      cases hrows.symm.trans hrows'
      have hmem := mem_layoutsOf.mpr ⟨i, n, hn, rfl⟩
      obtain ⟨pushes, hpushes, hspec⟩ := bucketPage_ok (UInt32.ofNat g) (hpage _ hmem)
      exact ⟨_, hmem, pushes, hpushes, (hspec _).mpr ⟨r, ks, hr, hks, k, hk, rfl⟩⟩
  · simp only [List.mem_map, mem_layoutsOf]
    constructor
    · rintro ⟨page, ⟨i, n, hn, rfl⟩, rfl⟩
      exact ⟨i, n, hn, rfl⟩
    · rintro ⟨i, n, hn, rfl⟩
      exact ⟨_, ⟨i, n, hn, rfl⟩, rfl⟩

/-- What the buckets of all row groups hold. -/
structure Buckets.Of (b : Buckets κ) (keys : List (List (List κ))) (paging : List (List ℕ)) :
    Prop where
  pushes : ∀ {k : BucketKey κ} {r : UInt32}, (k, r) ∈ b.pushes
    ↔ HasKey keys paging k.key k.rg.toNat k.page.toNat r.toNat
  pageSizes : ∀ {rg page n : UInt32}, ((rg, page), n) ∈ b.pageSizes
    ↔ ∃ counts, paging[rg.toNat]? = some counts ∧ counts[page.toNat]? = some n.toNat

theorem toNat_u32 {n : ℕ} (h : n < 2 ^ 32) : (UInt32.ofNat n).toNat = n :=
  UInt32.toNat_ofNat_of_lt' h

/-- **All row groups**: every row is in the buckets of its keys, and nothing else
    is. -/
theorem bucketRowGroups_of (h : KeyedSource source md column readKeys keys paging)
    (hfits : PagingFits paging) (what : String) :
    ∃ b, bucketRowGroups source md what column readKeys = .ok b ∧ b.Of keys paging := by
  have hgroup : ∀ g ∈ List.range md.rowGroups.length, ∃ rows counts, keys[g]? = some rows ∧
      paging[g]? = some counts := by
    intro g hg
    rw [List.mem_range, ← h.rowGroups] at hg
    exact ⟨_, _, List.getElem?_eq_getElem (h.length ▸ hg), List.getElem?_eq_getElem hg⟩
  obtain ⟨bs, hbs⟩ := exists_mapM fun g hg => by
    obtain ⟨rows, counts, hrows, hcounts⟩ := hgroup g hg
    obtain ⟨b, hrun, -⟩ := bucketRowGroup_ok h what hrows hcounts
    exact ⟨b, hrun⟩
  refine ⟨_, by rw [bucketRowGroups, hbs]; rfl, ?_, ?_⟩
  · intro k r
    rw [List.mem_flatMap]
    constructor
    · rintro ⟨b, hb, hp⟩
      obtain ⟨g, hg, hrun⟩ := (mem_mapM hbs).mp hb
      obtain ⟨rows, counts, hrows, hcounts⟩ := hgroup g hg
      obtain ⟨b', hrun', hspec, -⟩ := bucketRowGroup_ok h what hrows hcounts
      cases hrun.symm.trans hrun'
      obtain ⟨i, r, key, hkey, heq⟩ := (hspec _).mp hp
      cases heq
      obtain ⟨hg, hi, hr⟩ := hkey.lt hfits
      dsimp only
      rwa [toNat_u32 hg, toNat_u32 hi, toNat_u32 hr]
    · intro hkey
      obtain ⟨counts, n, rows, -, hcounts, -, -, hrows, -⟩ := id hkey
      obtain ⟨hlt, -⟩ := List.getElem?_eq_some_iff.mp hcounts
      obtain ⟨b, hrun, hspec, -⟩ := bucketRowGroup_ok h what hrows hcounts
      refine ⟨b, (mem_mapM hbs).mpr ⟨k.rg.toNat, List.mem_range.mpr (h.rowGroups ▸ hlt), hrun⟩, ?_⟩
      exact (hspec _).mpr ⟨k.page.toNat, r.toNat, k.key, hkey, by simp⟩
  · intro rg page n
    rw [List.mem_flatMap]
    constructor
    · rintro ⟨b, hb, hs⟩
      obtain ⟨g, hg, hrun⟩ := (mem_mapM hbs).mp hb
      obtain ⟨rows, counts, hrows, hcounts⟩ := hgroup g hg
      obtain ⟨b', hrun', -, hspec⟩ := bucketRowGroup_ok h what hrows hcounts
      cases hrun.symm.trans hrun'
      obtain ⟨i, m, hm, heq⟩ := (hspec _).mp hs
      cases heq
      obtain ⟨hlt, -⟩ := List.getElem?_eq_some_iff.mp hcounts
      obtain ⟨hi, -⟩ := List.getElem?_eq_some_iff.mp hm
      have hpages := hfits.pages counts (List.mem_of_getElem? hcounts)
      have hgroups := hfits.rowGroups
      rw [toNat_u32 (by omega), toNat_u32 (by omega),
        toNat_u32 (hfits.values counts (List.mem_of_getElem? hcounts) m (List.mem_of_getElem? hm))]
      exact ⟨counts, hcounts, hm⟩
    · rintro ⟨counts, hcounts, hn⟩
      obtain ⟨hlt, -⟩ := List.getElem?_eq_some_iff.mp hcounts
      have hrows := List.getElem?_eq_getElem (h.length ▸ hlt)
      obtain ⟨b, hrun, -, hspec⟩ := bucketRowGroup_ok h what hrows hcounts
      refine ⟨b, (mem_mapM hbs).mpr ⟨rg.toNat, List.mem_range.mpr (h.rowGroups ▸ hlt), hrun⟩, ?_⟩
      exact (hspec _).mpr ⟨page.toNat, n.toNat, hn, by simp⟩

end

/-! ## The body -/

/-- An encoded rowset is read back. -/
theorem toBitmap_encodeTagged {positions : List UInt32} {n : ℕ} (hn : n < 2 ^ 32)
    (h : ∀ p ∈ positions, p.toNat < n) : ∃ bytes, encodeTagged positions n = .ok bytes ∧
      toBitmap bytes .v2Tagged = .ok (rowsetBitmap positions n) := by
  rw [encodeTagged]
  split
  · next hshort =>
    -- a sparse rowset of so few bytes has few positions
    refine ⟨_, rfl, toBitmap_sparseForm hn ?_ h⟩
    rw [divCeil] at hshort
    omega
  · exact ⟨_, denseForm_eq h, rfl⟩

theorem isSet_rowsetBitmap {positions : List UInt32} {n r : ℕ} :
    IsSet (rowsetBitmap positions n) r ↔ r < n ∧ ∃ p ∈ positions, p.toNat = r := by
  rw [isSet_iff, rowsetBitmap, testBit_bitmapOf, Bool.and_eq_true, decide_eq_true_eq,
    decide_eq_true_eq, List.mem_map]

/-- The rows of an index body name pages of the source, and among them exactly
    the rows with their keys. -/
structure IndexesRows (entries : List (κ × IndexTargets.Row)) (keys : List (List (List κ)))
    (paging : List (List ℕ)) : Prop where
  hits : ∀ e ∈ entries, ∃ hit, toHit .v2Tagged e.2 = .ok hit ∧ hit.Names paging
  rows : ∀ {k : κ} {g i r : ℕ}, (∃ e ∈ entries, ∃ hit, toHit .v2Tagged e.2 = .ok hit ∧ e.1 = k ∧
    hit.rowGroup.toNat = g ∧ hit.page.toNat = i ∧ IsSet hit.rowset r) ↔ HasKey keys paging k g i r

variable [DecidableEq κ] {keys : List (List (List κ))} {paging : List (List ℕ)} {b : Buckets κ}

/-- **One row of the body.** -/
theorem Buckets.Of.entry (h : b.Of keys paging) (hfits : PagingFits paging) {k : BucketKey κ}
    (hk : k ∈ b.pushes.map Prod.fst) : ∃ row hit, bucketEntry b k = .ok (k.key, row) ∧
      toHit .v2Tagged row = .ok hit ∧ hit.rowGroup = k.rg ∧ hit.page = k.page ∧
      hit.Names paging ∧
      ∀ r, IsSet hit.rowset r ↔ HasKey keys paging k.key k.rg.toNat k.page.toNat r := by
  obtain ⟨⟨k', r₀⟩, hpush, heq⟩ := List.mem_map.mp hk
  obtain rfl : k = k' := heq.symm
  obtain ⟨counts, n, rows, -, hcounts, hn, -, hrows, -⟩ := h.pushes.mp hpush
  have hnlt := hfits.values counts (List.mem_of_getElem? hcounts) n (List.mem_of_getElem? hn)
  -- the page is recorded, and every record of it has its size
  have hsize : (b.pageSizes.reverse.lookup (k.rg, k.page)) = some (UInt32.ofNat n) := by
    have hmem : ((k.rg, k.page), UInt32.ofNat n) ∈ b.pageSizes :=
      h.pageSizes.mpr ⟨counts, hcounts, by rwa [toNat_u32 hnlt]⟩
    cases hl : b.pageSizes.reverse.lookup (k.rg, k.page) with
    | none =>
      have hne := List.lookup_eq_none_iff.mp hl _ (List.mem_reverse.mpr hmem)
      simp at hne
    | some m =>
      obtain ⟨before, after, heq, -⟩ := List.lookup_eq_some_iff.mp hl
      have hm : ((k.rg, k.page), m) ∈ b.pageSizes := by
        rw [← List.mem_reverse, heq]
        simp
      obtain ⟨counts', hcounts', hm⟩ := h.pageSizes.mp hm
      cases hcounts.symm.trans hcounts'
      rw [hn, Option.some.injEq] at hm
      rw [hm, UInt32.ofNat_toNat]
  have hpositions : ∀ r, (∃ p ∈ valuesAt k b.pushes, p.toNat = r)
      ↔ HasKey keys paging k.key k.rg.toNat k.page.toNat r := by
    intro r
    constructor
    · rintro ⟨p, hp, rfl⟩
      exact h.pushes.mp (mem_valuesAt.mp hp)
    · intro hkey
      have hr := (hkey.lt hfits).2.2
      refine ⟨UInt32.ofNat r, mem_valuesAt.mpr (h.pushes.mpr ?_), toNat_u32 hr⟩
      rwa [toNat_u32 hr]
  have hbound : ∀ r, HasKey keys paging k.key k.rg.toNat k.page.toNat r → r < n := by
    rintro r ⟨counts', n', -, -, hcounts', hn', hlt, -⟩
    cases hcounts.symm.trans hcounts'
    cases hn.symm.trans hn'
    exact hlt
  obtain ⟨bytes, hencode, hread⟩ := @toBitmap_encodeTagged (valuesAt k b.pushes) n hnlt
    fun p hp => hbound _ ((hpositions _).mp ⟨p, hp, rfl⟩)
  refine ⟨(k.rg.toInt32, k.page.toInt32, bytes),
    { rowGroup := k.rg, page := k.page, rowset := rowsetBitmap (valuesAt k b.pushes) n }, ?_, ?_, rfl,
    rfl, ⟨counts, hcounts, (List.getElem?_eq_some_iff.mp hn).1⟩, fun r => ?_⟩
  · rw [bucketEntry, hsize, lookup_groupAll hk]
    change (encodeTagged _ (UInt32.ofNat n).toNat >>= _) = _
    rw [toNat_u32 hnlt, hencode]
    rfl
  · rw [toHit, hread]
    simp [ok_bind, pure, Except.pure]
  · rw [isSet_rowsetBitmap, hpositions]
    exact ⟨fun hr => hr.2, fun hr => ⟨hbound r hr, hr⟩⟩

variable [Ord κ]

instance [Std.TransOrd κ] : Std.TransOrd (BucketKey κ) :=
  inferInstanceAs (Std.TransCmp (compareLex (compareOn BucketKey.key)
    (compareLex (compareOn BucketKey.rg) (compareOn BucketKey.page))))

/-- **The body of an index**, in the order of the keys. -/
theorem Buckets.Of.entries [Std.TransOrd κ] (h : b.Of keys paging) (hfits : PagingFits paging) :
    ∃ entries, b.entries = .ok entries ∧
      (entries.map Prod.fst).Pairwise (fun x y => (compare x y).isLE = true) ∧
      IndexesRows entries keys paging := by
  have hkeys : ∀ k, k ∈ sortKeys ((groupAll [] b.pushes).map Prod.fst) ↔ k ∈ b.pushes.map Prod.fst := by
    intro k
    rw [mem_sortKeys, mem_keys_groupAll]
    simp
  obtain ⟨entries, hentries⟩ := exists_mapM fun k hk => by
    obtain ⟨row, hit, hrun, -⟩ := h.entry hfits ((hkeys k).mp hk)
    exact ⟨_, hrun⟩
  have hfst := @map_mapM _ _ _ _ _ _ _ BucketKey.key Prod.fst hentries fun k e he => by
    obtain ⟨_, -, he⟩ := bind_eq_ok.mp he
    obtain ⟨_, -, he⟩ := bind_eq_ok.mp he
    obtain ⟨_, -, he⟩ := bind_eq_ok.mp he
    cases he
    rfl
  refine ⟨entries, hentries, ?_, ⟨fun e he => ?_, fun {k g i r} => ⟨?_, fun hkey => ?_⟩⟩⟩
  · rw [hfst, List.pairwise_map]
    exact (pairwise_sortKeys _).imp fun hle => Ordering.isLE_left_of_isLE_then hle
  · obtain ⟨k, hk, hrun⟩ := (mem_mapM hentries).mp he
    obtain ⟨row, hit, hrun', hhit, -, -, hnames, -⟩ := h.entry hfits ((hkeys k).mp hk)
    cases hrun.symm.trans hrun'
    exact ⟨hit, hhit, hnames⟩
  · rintro ⟨e, he, hit, hhit, rfl, rfl, rfl, hset⟩
    obtain ⟨k, hk, hrun⟩ := (mem_mapM hentries).mp he
    obtain ⟨row, hit', hrun', hhit', hrg, hpage, -, hbits⟩ := h.entry hfits ((hkeys k).mp hk)
    cases hrun.symm.trans hrun'
    cases hhit.symm.trans hhit'
    rw [hrg, hpage]
    exact (hbits r).mp hset
  · obtain ⟨hg, hi, hr⟩ := hkey.lt hfits
    have hpush : ({ key := k, rg := UInt32.ofNat g, page := UInt32.ofNat i }, UInt32.ofNat r)
        ∈ b.pushes := h.pushes.mpr (by
      dsimp only
      rwa [toNat_u32 hg, toNat_u32 hi, toNat_u32 hr])
    have hmem := List.mem_map_of_mem (f := Prod.fst) hpush
    obtain ⟨row, hit, hrun, hhit, hrg, hpage, -, hbits⟩ := h.entry hfits hmem
    refine ⟨_, (mem_mapM hentries).mpr ⟨_, (hkeys _).mpr hmem, hrun⟩, hit, hhit, rfl, ?_, ?_,
      (hbits r).mpr ?_⟩
    · rw [hrg]
      exact toNat_u32 hg
    · rw [hpage]
      exact toNat_u32 hi
    · dsimp only
      rwa [toNat_u32 hg, toNat_u32 hi]

end

end EmatixParquet
