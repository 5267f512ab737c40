/-
  From hits to bitmaps (`index/reader.rs`): the rows that the hits name, for each
  row group of the source.

  * `placeRowset_ok`: a rowset sets the rows of its page;
  * `assembleBitmapsFrom_ok`: each row group with hits has one bitmap, with
    exactly the rows of the hits.
-/
import EmatixParquet.Codec.Column
import EmatixParquet.Index.Hits
import EmatixParquet.Index.PageLayout
import EmatixParquet.Wire.Group

namespace EmatixParquet

open Wire

/-- The leaf of that name; the root comes before the leaves. -/
def leafOrdinal (schema : List SchemaElement) (name : String) : Option ℕ :=
  (schema.drop 1).findIdx? fun se => se.name == asBytes name

/-- `resolve_leaf_by_name`. -/
def resolveLeafByName (source : ParquetFile) (name : String) : Res CodecError ℕ := do
  let md ← mapIo (fun e => .invalidInput s!"source metadata: {e.display}") source.metadata
  okOr (leafOrdinal md.schema name)
    (.invalidInput s!"indexed column `{name}` not found in source file's schema")

/-- The rows of a rowset, from the lowest bit of its first byte on. -/
def rowsetRows (rowset : Bytes) : List ℕ :=
  rowset.zipIdx.flatMap fun (b, byteIdx) =>
    ((List.range 8).filter fun bit => (b >>> UInt8.ofNat bit) &&& 1 = 1).map fun bit =>
      byteIdx * 8 + bit

/-- Rows past the end of the row group are left out. -/
def placeRow (firstRow nRows : ℕ) (bitmap : Bytes) (r : ℕ) : Res CodecError Bytes :=
  if firstRow + r < nRows then setRow bitmap (firstRow + r) else .ok bitmap

/-- The rows of a page set in the bitmap of its row group. -/
def placeRowset (firstRow nRows : ℕ) (bitmap rowset : Bytes) : Res CodecError Bytes :=
  (rowsetRows rowset).foldlM (placeRow firstRow nRows) bitmap

/-- The rows of a hit, behind the rows of the pages before it. -/
def placeHit (firstRowByPage : List ℕ) (rg : UInt32) (nRows : ℕ) (bitmap : Bytes)
    (hit : IndexHit) : Res CodecError Bytes := do
  let firstRow ← okOr firstRowByPage[hit.page.toNat]? (.invalidInput
    s!"index hit references page {hit.page.toNat} in rg {rg.toNat} but indexed column has only {firstRowByPage.length} pages")
  placeRowset firstRow nRows bitmap hit.rowset

/-- The bitmap of one row group. -/
def assembleGroup (source : ParquetFile) (md : FileMetaData) (sourceColIdx : ℕ)
    (group : UInt32 × List IndexHit) : Res CodecError (UInt32 × Bytes) := do
  let rgMeta ← okOr md.rowGroups[group.1.toNat]? (.invalidInput
    s!"index hit references row_group {group.1.toNat} out of source range")
  let nRows := rgMeta.numRows.toUInt64.toNat
  let layouts ← walkDataPages source group.1.toNat sourceColIdx
  let bitmap ← group.2.foldlM (placeHit (layouts.map (·.firstRow)) group.1 nRows)
    (List.replicate (divCeil nRows 8) 0)
  pure (group.1, bitmap)

/-- `assemble_bitmaps_from`: a bitmap for each row group that has a hit. -/
def assembleBitmapsFrom (source : ParquetFile) (sourceColName : String) (hits : List IndexHit) :
    Res CodecError (List (UInt32 × Bytes)) := do
  let sourceColIdx ← resolveLeafByName source sourceColName
  let md ← mapIo (fun e => .invalidInput s!"source metadata: {e.display}") source.metadata
  (groupSorted (hits.map fun h => (h.rowGroup, h))).mapM (assembleGroup source md sourceColIdx)

/-! ## Rowsets -/

theorem mem_rowsetRows {rowset : Bytes} {r : ℕ} : r ∈ rowsetRows rowset ↔ IsSet rowset r := by
  have hbit : ∀ (b : UInt8) {bit : ℕ}, bit < 8 →
      ((b >>> UInt8.ofNat bit) &&& 1 = 1 ↔ b.toNat.testBit bit = true) := by
    intro b bit hbit
    have hpow : (UInt8.ofNat bit).toNat = bit := UInt8.toNat_ofNat_of_lt' (hbit.trans (by decide))
    rw [← UInt8.toNat_inj, UInt8.toNat_and, UInt8.toNat_shiftRight, hpow, Nat.mod_eq_of_lt hbit,
      Nat.testBit_eq_decide_div_mod_eq, decide_eq_true_eq, Nat.shiftRight_eq_div_pow]
    exact Eq.congr_left (Nat.and_one_is_mod _)
  simp only [rowsetRows, List.mem_flatMap, List.mem_map, List.mem_filter, List.mem_range,
    decide_eq_true_eq, Prod.exists, List.mem_zipIdx_iff_getElem?, IsSet]
  constructor
  · rintro ⟨b, i, hb, bit, ⟨hlt, hset⟩, rfl⟩
    exact ⟨b, by rw [← hb]; congr 1; omega, by
      rw [show (i * 8 + bit) % 8 = bit by omega]
      exact (hbit b hlt).mp hset⟩
  · rintro ⟨b, hb, hset⟩
    exact ⟨b, r / 8, hb, r % 8, ⟨Nat.mod_lt _ (by omega), (hbit b (Nat.mod_lt _ (by omega))).mpr hset⟩,
      by omega⟩

/-- **A rowset** sets the rows of its page. -/
theorem placeRowset_ok {firstRow nRows : ℕ} {bitmap : Bytes} (h : nRows ≤ 8 * bitmap.length)
    (rowset : Bytes) :
    ∃ out, placeRowset firstRow nRows bitmap rowset = .ok out ∧ out.length = bitmap.length ∧
      ∀ r, IsSet out r ↔ IsSet bitmap r ∨ r < nRows ∧ ∃ q, IsSet rowset q ∧ firstRow + q = r := by
  have hplace : placeRowset firstRow nRows bitmap rowset
      = (((rowsetRows rowset).filter fun q => firstRow + q < nRows).map (firstRow + ·)).foldlM
          setRow bitmap := by
    rw [placeRowset, List.foldlM_map, List.foldlM_filter]
    refine foldlM_congr (fun bm q _ => ?_) bitmap
    rw [placeRow]
    simp only [decide_eq_true_eq]
    rfl
  obtain ⟨out, hout, hlen, hbits⟩ := @setRows_eq
    (((rowsetRows rowset).filter fun q => firstRow + q < nRows).map (firstRow + ·)) bitmap (by
      intro r hr
      obtain ⟨q, hq, rfl⟩ := List.mem_map.mp hr
      have := (List.mem_filter.mp hq).2
      rw [decide_eq_true_eq] at this
      omega)
  refine ⟨out, hplace.trans hout, hlen, fun r => ?_⟩
  rw [isSet_iff, hbits, Bool.or_eq_true, decide_eq_true_eq, ← isSet_iff]
  refine or_congr_right ?_
  simp only [List.mem_map, List.mem_filter, decide_eq_true_eq, mem_rowsetRows]
  constructor
  · rintro ⟨q, ⟨hq, hlt⟩, rfl⟩
    exact ⟨hlt, q, hq, rfl⟩
  · rintro ⟨hlt, q, hq, rfl⟩
    exact ⟨q, ⟨hq, hlt⟩, rfl⟩

/-! ## Row groups -/

/-- Row `r` of a chunk with pages of these counts is in a rowset of the hits. -/
def HitsRow (counts : List ℕ) (hits : List IndexHit) (r : ℕ) : Prop :=
  r < counts.sum ∧ ∃ hit ∈ hits, ∃ q, IsSet hit.rowset q ∧ (counts.take hit.page.toNat).sum + q = r

/-- **The hits of one row group**, by induction on them. -/
theorem placeHits_ok {counts : List ℕ} {hits : List IndexHit} {bitmap : Bytes} (rg : UInt32)
    (hlen : counts.sum ≤ 8 * bitmap.length) (hpages : ∀ hit ∈ hits, hit.page.toNat < counts.length) :
    ∃ out, hits.foldlM (placeHit ((layoutsOf counts).map (·.firstRow)) rg counts.sum) bitmap = .ok out ∧
      out.length = bitmap.length ∧ ∀ r, IsSet out r ↔ IsSet bitmap r ∨ HitsRow counts hits r := by
  induction hits generalizing bitmap with
  | nil => exact ⟨bitmap, rfl, rfl, fun r => by simp [HitsRow]⟩
  | cons hit hits ih =>
    obtain ⟨n, hn⟩ : ∃ n, counts[hit.page.toNat]? = some n :=
      ⟨_, List.getElem?_eq_getElem (hpages hit List.mem_cons_self)⟩
    have hfirst : ((layoutsOf counts).map (·.firstRow))[hit.page.toNat]?
        = some (counts.take hit.page.toNat).sum := by
      rw [List.getElem?_map, getElem?_layoutsOf hn]
      rfl
    obtain ⟨mid, hmid, hmidLen, hmidBits⟩ := @placeRowset_ok (counts.take hit.page.toNat).sum
      counts.sum bitmap hlen hit.rowset
    obtain ⟨out, hout, houtLen, houtBits⟩ := @ih mid (by rw [hmidLen]; exact hlen)
      fun hit' h => hpages hit' (List.mem_cons_of_mem _ h)
    refine ⟨out, ?_, houtLen.trans hmidLen, fun r => ?_⟩
    · rw [List.foldlM_cons, placeHit, hfirst, okOr_some, ok_bind, hmid]
      exact hout
    · rw [houtBits, hmidBits, or_assoc]
      refine or_congr_right ?_
      simp only [HitsRow, List.mem_cons, exists_eq_or_imp]
      exact and_or_left.symm

/-- How a column is divided: for each row group, the counts of its pages. -/
structure PagedColumn (source : ParquetFile) (md : FileMetaData) (column : ℕ)
    (paging : List (List ℕ)) : Prop where
  metadata : source.metadata = .ok md
  rowGroups : paging.length = md.rowGroups.length
  walk : ∀ {g : ℕ} {counts : List ℕ}, paging[g]? = some counts →
    walkDataPages source g column = .ok (layoutsOf counts)
  numRows : ∀ {g : ℕ} {counts : List ℕ} {rg : RowGroup}, paging[g]? = some counts → md.rowGroups[g]? = some rg →
    rg.numRows.toUInt64.toNat = counts.sum

/-- The hit names a page of the column. -/
def IndexHit.Names (hit : IndexHit) (paging : List (List ℕ)) : Prop :=
  ∃ counts, paging[hit.rowGroup.toNat]? = some counts ∧ hit.page.toNat < counts.length

section
variable {source : ParquetFile} {md : FileMetaData} {column : ℕ} {paging : List (List ℕ)}

/-- The bitmap of one row group. -/
theorem assembleGroup_ok (h : PagedColumn source md column paging) {group : UInt32 × List IndexHit}
    {counts : List ℕ} (hcounts : paging[group.1.toNat]? = some counts)
    (hpages : ∀ hit ∈ group.2, hit.page.toNat < counts.length) :
    ∃ bitmap, assembleGroup source md column group = .ok (group.1, bitmap) ∧
      bitmap.length = divCeil counts.sum 8 ∧ ∀ r, IsSet bitmap r ↔ HitsRow counts group.2 r := by
  obtain ⟨rg, hrg⟩ : ∃ rg, md.rowGroups[group.1.toNat]? = some rg := by
    obtain ⟨hlt, -⟩ := List.getElem?_eq_some_iff.mp hcounts
    exact ⟨_, List.getElem?_eq_getElem (h.rowGroups ▸ hlt)⟩
  have hceil : divCeil counts.sum 8 = (counts.sum + 7) / 8 := rfl
  obtain ⟨bitmap, hrun, hlen, hbits⟩ := @placeHits_ok counts group.2
    (List.replicate (divCeil counts.sum 8) 0) group.1 (by rw [List.length_replicate]; omega) hpages
  refine ⟨bitmap, ?_, by rw [hlen, List.length_replicate], fun r => ?_⟩
  · rw [assembleGroup, hrg, okOr_some, ok_bind, h.walk hcounts, ok_bind, h.numRows hcounts hrg, hrun]
    rfl
  · rw [hbits, isSet_iff, leNat_replicate_zero, Nat.zero_testBit]
    simp

/-- **The bitmaps of the hits**: one for each row group that is hit, in order, of
    as many bits as it has rows, with the rows of the hits and no others. -/
theorem assembleBitmapsFrom_ok (h : PagedColumn source md column paging) {name : String}
    (hcolumn : resolveLeafByName source name = .ok column) {hits : List IndexHit}
    (hhits : ∀ hit ∈ hits, hit.Names paging) :
    ∃ bitmaps, assembleBitmapsFrom source name hits = .ok bitmaps ∧
      (bitmaps.map Prod.fst).Pairwise (· < ·) ∧
      (∀ e ∈ bitmaps, ∃ counts, paging[e.1.toNat]? = some counts ∧
        e.2.length = divCeil counts.sum 8) ∧
      ∀ {g counts}, paging[g]? = some counts → ∀ r,
        (∃ e ∈ bitmaps, e.1.toNat = g ∧ IsSet e.2 r)
          ↔ HitsRow counts (hits.filter fun hit => hit.rowGroup.toNat = g) r := by
  have hgroup : ∀ group ∈ groupSorted (hits.map fun hit => (hit.rowGroup, hit)),
      group.2 = hits.filter (fun hit => hit.rowGroup.toNat = group.1.toNat) ∧
      ∃ counts, paging[group.1.toNat]? = some counts ∧
        ∀ hit ∈ group.2, hit.page.toNat < counts.length := by
    rintro ⟨rg, ghits⟩ hmem
    obtain ⟨hkey, rfl⟩ := mem_groupSorted.mp hmem
    have heq : valuesAt rg (hits.map fun hit => (hit.rowGroup, hit))
        = hits.filter fun hit => hit.rowGroup.toNat = rg.toNat := by
      rw [valuesAt, List.filter_map, List.map_map]
      simp [Function.comp_def, UInt32.toNat_inj]
    refine ⟨heq, ?_⟩
    obtain ⟨⟨_, hit⟩, hpair, rfl⟩ := List.mem_map.mp hkey
    obtain ⟨hit, hhit, heqpair⟩ := List.mem_map.mp hpair
    cases heqpair
    obtain ⟨counts, hcounts, -⟩ := hhits hit hhit
    refine ⟨counts, hcounts, fun hit' hhit' => ?_⟩
    dsimp only at hhit' hcounts
    rw [heq, List.mem_filter, decide_eq_true_eq] at hhit'
    obtain ⟨counts', hcounts', hlt⟩ := hhits hit' hhit'.1
    rw [hhit'.2, hcounts, Option.some.injEq] at hcounts'
    rwa [hcounts']
  have hassemble : ∀ group ∈ groupSorted (hits.map fun hit => (hit.rowGroup, hit)),
      ∃ counts bitmap, paging[group.1.toNat]? = some counts ∧
        assembleGroup source md column group = .ok (group.1, bitmap) ∧
        bitmap.length = divCeil counts.sum 8 ∧
        ∀ r, IsSet bitmap r
          ↔ HitsRow counts (hits.filter fun hit => hit.rowGroup.toNat = group.1.toNat) r := by
    intro group hmem
    obtain ⟨heq, counts, hcounts, hpages⟩ := hgroup group hmem
    obtain ⟨bitmap, hrun, hlen, hbits⟩ := assembleGroup_ok h hcounts hpages
    exact ⟨counts, bitmap, hcounts, hrun, hlen, heq ▸ hbits⟩
  obtain ⟨bitmaps, hbitmaps⟩ := exists_mapM fun group hmem => by
    obtain ⟨counts, bitmap, -, hrun, -⟩ := hassemble group hmem
    exact ⟨_, hrun⟩
  have hkeys := @map_mapM _ _ _ _ _ _ _ Prod.fst Prod.fst hbitmaps fun group e he => by
    obtain ⟨_, -, he⟩ := bind_eq_ok.mp he
    obtain ⟨_, -, he⟩ := bind_eq_ok.mp he
    obtain ⟨_, -, he⟩ := bind_eq_ok.mp he
    cases he
    rfl
  refine ⟨bitmaps, ?_, ?_, fun e he => ?_, fun {g counts} hcounts r => ?_⟩
  · rw [assembleBitmapsFrom, hcolumn, ok_bind, h.metadata]
    exact hbitmaps
  · rw [hkeys]
    exact (pairwise_keys_groupSorted _).imp Std.compare_eq_lt.mp
  · obtain ⟨group, hmem, hrun⟩ := (mem_mapM hbitmaps).mp he
    obtain ⟨counts, bitmap, hcounts, hrun', hlen, -⟩ := hassemble group hmem
    cases hrun.symm.trans hrun'
    exact ⟨counts, hcounts, hlen⟩
  · constructor
    · rintro ⟨e, he, rfl, hset⟩
      obtain ⟨group, hmem, hrun⟩ := (mem_mapM hbitmaps).mp he
      obtain ⟨counts', bitmap, hcounts', hrun', -, hbits⟩ := hassemble group hmem
      cases hrun.symm.trans hrun'
      cases hcounts.symm.trans hcounts'
      exact (hbits r).mp hset
    · intro hrow
      obtain ⟨-, hit, hhit, -⟩ := id hrow
      rw [List.mem_filter, decide_eq_true_eq] at hhit
      obtain ⟨hhit, rfl⟩ := hhit
      have hmem : (hit.rowGroup, valuesAt hit.rowGroup (hits.map fun hit => (hit.rowGroup, hit)))
          ∈ groupSorted (hits.map fun hit => (hit.rowGroup, hit)) :=
        mem_groupSorted.mpr ⟨List.mem_map.mpr ⟨_, List.mem_map.mpr ⟨hit, hhit, rfl⟩, rfl⟩, rfl⟩
      obtain ⟨counts', bitmap, hcounts', hrun, -, hbits⟩ := hassemble _ hmem
      cases hcounts.symm.trans hcounts'
      exact ⟨_, (mem_mapM hbitmaps).mpr ⟨_, hmem, hrun⟩, rfl, (hbits r).mpr hrow⟩

end

end EmatixParquet
