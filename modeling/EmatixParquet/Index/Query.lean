/-
  Reads through an index against scans of the table (`index/reader.rs`).

  * `Selects.flatMap_eq`: the rows of all bitmaps, in the order of the table;
  * `maskedReads_written`: masked reads of a written table return the rows of the mask;
  * `WrittenFile.readBitmaps_ok`, `WrittenFile.readBitmaps_eq`: what bitmaps select
    of a column of a written table is the column at the selected rows;
  * `sortedRead_eq`, `compositeRead_eq`, `tokenRead_eq`: a read through an index
    is the scan that tests every row.
-/
import EmatixParquet.Codec.DictAgree
import EmatixParquet.Codec.MaskedWritten
import EmatixParquet.Index.Exact
import EmatixParquet.Index.Sorted

namespace EmatixParquet

open Wire

/-! ## Selected rows -/

section
variable {α γ : Type}

/-- The rows that are selected, as a filter of the rows. -/
theorem selectFrom_map {rows : List γ} {q : γ → Prop} [DecidablePred q] {bit : ℕ → Bool} (f : γ → α)
    {pos : ℕ} (hbit : ∀ i, bit (pos + i) = true ↔ ∃ e, rows[i]? = some e ∧ q e) :
    selectFrom bit pos (rows.map f) = (rows.filter fun e => q e).map f := by
  induction rows generalizing pos with
  | nil => rfl
  | cons e rows ih =>
    have hfirst : bit pos = true ↔ q e := by simpa using hbit 0
    have hrest : ∀ i, bit (pos + 1 + i) = true ↔ ∃ e, rows[i]? = some e ∧ q e := by
      intro i
      rw [Nat.add_assoc, Nat.add_comm 1 i]
      simpa using hbit (i + 1)
    rw [List.map_cons, selectFrom, ih hrest, List.filter_cons]
    by_cases hq : q e
    · simp [hq, hfirst.mpr hq]
    · simp [hq, Bool.eq_false_iff.mpr (mt hfirst.mp hq)]

/-- A fold that appends something for each element. -/
theorem foldlM_append_ok {ε : Type} {step : List α → γ → Except ε (List α)} {f : γ → List α}
    {xs : List γ} (h : ∀ x ∈ xs, ∀ out, step out x = .ok (out ++ f x)) (out : List α) :
    xs.foldlM step out = .ok (out ++ xs.flatMap f) := by
  induction xs generalizing out with
  | nil => rw [List.flatMap_nil, List.append_nil]; rfl
  | cons x xs ih =>
    rw [List.foldlM_cons, h x List.mem_cons_self, List.flatMap_cons, ← List.append_assoc]
    exact ih (fun y hy => h y (List.mem_cons_of_mem _ hy)) _

theorem selectFrom_false (pos : ℕ) (vs : List α) : selectFrom (fun _ => false) pos vs = [] := by
  induction vs generalizing pos with
  | nil => rfl
  | cons v vs ih => exact ih (pos + 1)

/-- What is empty need not be visited. -/
theorem flatMap_filter {f : γ → List α} {keep : γ → Bool} {xs : List γ}
    (h : ∀ x ∈ xs, keep x = false → f x = []) : (xs.filter keep).flatMap f = xs.flatMap f := by
  induction xs with
  | nil => rfl
  | cons x xs ih =>
    have hrest := ih fun y hy => h y (List.mem_cons_of_mem _ hy)
    rw [List.filter_cons, List.flatMap_cons]
    cases hk : keep x with
    | true => rw [if_pos rfl, List.flatMap_cons, hrest]
    | false => rw [if_neg Bool.false_ne_true, hrest, h x List.mem_cons_self hk, List.nil_append]

/-- **The rows of all bitmaps**, row group by row group: `out g` is what a mask of
    the rows with `p g` selects of row group `g`. -/
theorem Selects.flatMap_eq {bitmaps : List (UInt32 × Bytes)} {md : FileMetaData} {p : ℕ → ℕ → Prop}
    (h : Selects bitmaps md p) {groups out : ℕ → List α}
    (hout : ∀ g < md.rowGroups.length, ∀ bit : ℕ → Bool, (∀ r, bit r = true ↔ p g r) →
      selectFrom bit 0 (groups g) = out g) :
    bitmaps.flatMap (fun e => selectFrom (leNat e.2).testBit 0 (groups e.1.toNat))
      = (List.range md.rowGroups.length).flatMap out := by
  have hlt : ∀ e ∈ bitmaps, e.1.toNat < md.rowGroups.length := by
    intro e he
    obtain ⟨rg, hrg, -⟩ := h.length e he
    exact (List.getElem?_eq_some_iff.mp hrg).1
  have hbits : ∀ e ∈ bitmaps, ∀ r, (leNat e.2).testBit r = true ↔ p e.1.toNat r := by
    intro e he r
    rw [← h.rows (hlt e he), ← isSet_iff]
    constructor
    · intro hset
      exact ⟨e, he, rfl, hset⟩
    · rintro ⟨e', he', heq, hset⟩
      have hnodup : (bitmaps.map Prod.fst).Nodup := h.sorted.imp fun {a b} hab => UInt32.ne_of_lt hab
      obtain rfl := List.inj_on_of_nodup_map hnodup he' he (UInt32.toNat_inj.mp heq)
      exact hset
  have hgroups : bitmaps.map (fun e => e.1.toNat)
      = (List.range md.rowGroups.length).filter (· ∈ bitmaps.map fun e => e.1.toNat) := by
    refine List.Pairwise.eq_of_mem_iff (r := (· < ·)) ?_ ?_ fun g => ?_
    · rw [List.pairwise_map]
      exact (List.pairwise_map.mp h.sorted).imp UInt32.lt_iff_toNat_lt.mp
    · exact List.pairwise_lt_range.filter _
    · rw [List.mem_filter, List.mem_range, decide_eq_true_eq]
      constructor
      · intro hg
        obtain ⟨e, he, rfl⟩ := List.mem_map.mp hg
        exact ⟨hlt e he, hg⟩
      · exact And.right
  calc bitmaps.flatMap (fun e => selectFrom (leNat e.2).testBit 0 (groups e.1.toNat))
      = bitmaps.flatMap (fun e => out e.1.toNat) :=
        List.flatMap_congr fun e he => hout _ (hlt e he) _ (hbits e he)
    _ = (bitmaps.map fun e => e.1.toNat).flatMap out := by
      rw [List.flatMap_map]
    _ = (List.range md.rowGroups.length).flatMap out := by
      rw [hgroups]
      refine flatMap_filter fun g hg hnone => ?_
      rw [← hout g (List.mem_range.mp hg) (fun _ => false) fun r => ?_]
      · exact selectFrom_false 0 (groups g)
      · refine iff_of_false Bool.false_ne_true fun hp => ?_
        obtain ⟨e, he, heq, -⟩ := (h.rows (List.mem_range.mp hg)).mpr hp
        rw [decide_eq_false_iff_not] at hnone
        exact hnone (List.mem_map.mpr ⟨e, he, heq⟩)

end

/-! ## Columns at the rows of a mask -/

section
variable [Platform] [LawfulPlatform] {columns : Columns} {options : WriteOptions} {t : WrittenTable}
  {file : ParquetFile}

omit [LawfulPlatform] in
/-- **A chunk of a written column.** -/
theorem WrittenFile.exists_chunk (h : WrittenFile t columns options file) {r ix : ℕ}
    {named : String × ColumnData} (hnamed : columns[ix]? = some named)
    (hr : r < rowGroupCount (rowsOf columns) options.rowGroupSize) :
    ∃ col c, named.2.slice (r * options.rowGroupSize)
        (min ((r + 1) * options.rowGroupSize) (rowsOf columns)) = .ok col ∧
      IsSlice columns options ix col ∧ ChunkOf options file r ix col c :=
  exists_chunkOf h.written (h.short.column ix) (h.short.bytes t h.written)
    (h.short.footer t h.written) h.bytes h.metadata hr hnamed

/-- A type of columns that are read at the rows of a mask. -/
class MaskedColumn (β : Type) where
  column : List β → ColumnData
  rowCount : ∀ v, (column v).rowCount = v.length
  readMasked : ParquetFile → ℕ → ℕ → Bytes → List β → Res CodecError (List β)
  filters : ∀ {columns options t file r ix name} {v : List β}, WrittenFile t columns options file →
    columns[ix]? = some (name, column v) → r < rowGroupCount v.length options.rowGroupSize →
    FiltersRead (readMasked file r ix) (groupRows v options.rowGroupSize r).length
      (groupRows v options.rowGroupSize r)

theorem WrittenFile.filtersFixed {α : Type} [FixedWidth α] (h : WrittenFile t columns options file)
    {toData : List α → ColumnData} {r ix : ℕ} {name : String} {v : List α}
    (hnamed : columns[ix]? = some (name, toData v))
    (hr : r < rowGroupCount v.length options.rowGroupSize)
    (hslice : ∀ start stop, (toData v).slice start stop = toData <$> slice v start stop)
    (hcount : ∀ v, (toData v).rowCount = v.length)
    (hdecodes : ∀ v, v.length < 2 ^ 31 → Decodes fixedDecoder (toData v) v) :
    FiltersRead (decodeChunkMasked file r ix) (groupRows v options.rowGroupSize r).length
      (groupRows v options.rowGroupSize r) := by
  have hrows : rowsOf columns = v.length := (h.rowCount_eq hnamed).trans (hcount v)
  obtain ⟨col, c, hcol, -, hchunk⟩ := h.exists_chunk hnamed (hrows ▸ hr)
  rw [hslice] at hcol
  obtain ⟨w, hw, rfl⟩ := map_eq_ok.mp hcol
  obtain ⟨-, -, rfl⟩ := slice_eq_ok.mp hw
  rw [groupRows, ← hrows, ← hcount]
  exact hchunk.filtersRead (hdecodes _ (hcount _ ▸ hchunk.rows))

instance : MaskedColumn Int64 where
  column := .i64
  rowCount _ := rfl
  readMasked := readColumnI64Masked
  filters h hnamed hr := h.filtersFixed hnamed hr (fun _ _ => rfl) (fun _ => rfl)
    fun _ hlen => decodes_fixed hlen rfl rfl rfl

instance : MaskedColumn Int32 where
  column := .i32
  rowCount _ := rfl
  readMasked := readColumnI32Masked
  filters h hnamed hr := h.filtersFixed hnamed hr (fun _ _ => rfl) (fun _ => rfl)
    fun _ hlen => decodes_fixed hlen rfl rfl rfl

instance : MaskedColumn Bytes where
  column := .byteArray
  rowCount _ := rfl
  readMasked := readColumnByteArrayMasked
  filters {columns options _ _ r _ _ v} h hnamed hr := by
    have hrows : rowsOf columns = v.length := h.rowCount_eq hnamed
    obtain ⟨col, c, hslice, hcol, hchunk⟩ := h.exists_chunk hnamed (hrows ▸ hr)
    obtain ⟨w, hw, rfl⟩ := map_eq_ok.mp hslice
    obtain ⟨-, -, rfl⟩ := slice_eq_ok.mp hw
    rw [groupRows, ← hrows]
    exact hchunk.filtersReadBytes (h.short.length_lt hcol hchunk.rows)

/-- **Masked reads of a written table**: of a column in any of its encodings they
    return the rows of the mask, row group by row group. -/
theorem maskedReads_written (h : WrittenFile t columns options file) {r ix : ℕ} {name : String} :
    (∀ v : List Int64, columns[ix]? = some (name, .i64 v) →
      r < rowGroupCount v.length options.rowGroupSize →
      FiltersRead (readColumnI64Masked file r ix) (groupRows v options.rowGroupSize r).length
        (groupRows v options.rowGroupSize r)) ∧
    (∀ v : List Int32, columns[ix]? = some (name, .i32 v) →
      r < rowGroupCount v.length options.rowGroupSize →
      FiltersRead (readColumnI32Masked file r ix) (groupRows v options.rowGroupSize r).length
        (groupRows v options.rowGroupSize r)) ∧
    (∀ v : List F64, columns[ix]? = some (name, .f64 v) →
      r < rowGroupCount v.length options.rowGroupSize →
      FiltersRead (readColumnF64Masked file r ix) (groupRows v options.rowGroupSize r).length
        (groupRows v options.rowGroupSize r)) ∧
    ∀ v : List Bytes, columns[ix]? = some (name, .byteArray v) →
      r < rowGroupCount v.length options.rowGroupSize →
      FiltersRead (readColumnByteArrayMasked file r ix) (groupRows v options.rowGroupSize r).length
        (groupRows v options.rowGroupSize r) := by
  refine ⟨fun v hnamed hr => ?_, fun v hnamed hr => ?_, fun v hnamed hr => ?_, fun v hnamed hr => ?_⟩
  · exact MaskedColumn.filters h hnamed hr
  · exact MaskedColumn.filters h hnamed hr
  · exact h.filtersFixed hnamed hr (fun _ _ => rfl) (fun _ => rfl)
      fun _ hlen => decodes_fixed hlen rfl rfl rfl
  · exact MaskedColumn.filters h hnamed hr

omit [Platform] [LawfulPlatform] in
/-- The rows of row group `g`. -/
theorem length_groupRows {α : Type} {v : List α} (hrows : rowsOf columns = v.length) (g : ℕ) :
    (groupRows v options.rowGroupSize g).length = groupSize columns options g := by
  rw [groupRows, groupSize, List.length_drop, List.length_take, hrows]
  omega

variable {γ β : Type} [MaskedColumn β]

omit [LawfulPlatform] in
theorem WrittenFile.rowsOf_eq (h : WrittenFile t columns options file) {rows : List γ} {f : γ → β}
    {ix : ℕ} {name : String} (hnamed : columns[ix]? = some (name, MaskedColumn.column (rows.map f))) :
    rowsOf columns = rows.length := by
  rw [h.rowCount_eq hnamed, MaskedColumn.rowCount, List.length_map]

omit [LawfulPlatform] in
/-- **What bitmaps select** of a column of a written table, bitmap by bitmap. -/
theorem WrittenFile.readBitmaps_ok (h : WrittenFile t columns options file) {v : List β} {ix : ℕ}
    {name : String} (hnamed : columns[ix]? = some (name, MaskedColumn.column v))
    {bitmaps : List (UInt32 × Bytes)} {p : ℕ → ℕ → Prop} (hselects : Selects bitmaps t.metadata p) :
    ParquetIndex.readBitmaps MaskedColumn.readMasked file ix bitmaps
      = .ok (bitmaps.flatMap fun e =>
        selectFrom (leNat e.2).testBit 0 (groupRows v options.rowGroupSize e.1.toNat)) := by
  have hrows : rowsOf columns = v.length := by rw [h.rowCount_eq hnamed, MaskedColumn.rowCount]
  have hread : ∀ e ∈ bitmaps, ∀ out, MaskedColumn.readMasked file e.1.toNat ix e.2 out
      = .ok (out ++ selectFrom (leNat e.2).testBit 0
        (groupRows v options.rowGroupSize e.1.toNat)) := by
    intro e he out
    obtain ⟨rg, hrg, hlen⟩ := hselects.length e he
    obtain ⟨hlt, hsize, -⟩ := h.numRows hrg
    refine MaskedColumn.filters h hnamed (by rwa [← hrows]) e.2 out ?_
    rw [length_groupRows hrows, hlen, hsize]
  rw [ParquetIndex.readBitmaps, foldlM_append_ok hread, List.nil_append]

omit [LawfulPlatform] in
/-- The column at the rows that satisfy `q`, if `p` says this of each row group. -/
theorem WrittenFile.readBitmaps_eq (h : WrittenFile t columns options file) {rows : List γ} {f : γ → β}
    {ix : ℕ} {name : String} (hnamed : columns[ix]? = some (name, MaskedColumn.column (rows.map f)))
    {bitmaps : List (UInt32 × Bytes)} {p : ℕ → ℕ → Prop}
    (hselects : Selects bitmaps t.metadata p) {q : γ → Prop} [DecidablePred q]
    (hp : ∀ g < rowGroupCount rows.length options.rowGroupSize, ∀ r,
      p g r ↔ ∃ e, (groupRows rows options.rowGroupSize g)[r]? = some e ∧ q e) :
    ParquetIndex.readBitmaps MaskedColumn.readMasked file ix bitmaps
      = .ok ((rows.filter fun e => q e).map f) := by
  have hrows := h.rowsOf_eq hnamed
  obtain ⟨hlength, hcount⟩ := rowGroups_length h.written
  have hgroups : t.metadata.rowGroups.length = rowGroupCount rows.length options.rowGroupSize := by
    rw [hlength, hcount, hrows]
  have hselected : ∀ g < t.metadata.rowGroups.length, ∀ bit : ℕ → Bool, (∀ r, bit r = true ↔ p g r) →
      selectFrom bit 0 (groupRows (rows.map f) options.rowGroupSize g)
        = ((groupRows rows options.rowGroupSize g).filter fun e => q e).map f := by
    intro g hg bit hbit
    rw [groupRows_map]
    refine selectFrom_map f fun i => ?_
    rw [Nat.zero_add, hbit i, hp g (hgroups ▸ hg)]
  rw [h.readBitmaps_ok hnamed hselects, hselects.flatMap_eq hselected, hgroups, ← List.map_flatMap,
    ← List.filter_flatMap, List.flatMap_def, flatten_allGroups rows h.size_pos]

omit [Platform] [LawfulPlatform] [MaskedColumn β] in
/-- Without hits there is nothing to read. -/
theorem ParquetIndex.materialize_eq {index : ParquetIndex} {source : ParquetFile} {indexName : String}
    {hits : List IndexHit} {bitmaps : List (UInt32 × Bytes)}
    {readMasked : ParquetFile → ℕ → ℕ → Bytes → List β → Res CodecError (List β)} {column : ℕ}
    (h : index.assembleBitmaps source indexName hits = .ok bitmaps) :
    materialize readMasked index source indexName hits column
      = readBitmaps readMasked source column bitmaps := by
  rw [materialize]
  split
  · next hnil =>
    subst hnil
    obtain ⟨idx, -, h⟩ := bind_eq_ok.mp h
    obtain ⟨name, -, h⟩ := bind_eq_ok.mp h
    rw [assembleBitmapsFrom_nil] at h
    obtain ⟨_, -, rfl⟩ := map_eq_ok.mp h
    rfl
  · rw [h, ok_bind]

omit [Platform] [LawfulPlatform] in
/-- Values of a column, as values of the rows. -/
theorem exists_getElem?_groupRows {κ : Type} {rows : List γ} {f : γ → κ} {size g r : ℕ} {q : κ → Prop} :
    (∃ v, (groupRows (rows.map f) size g)[r]? = some v ∧ q v)
      ↔ ∃ e, (groupRows rows size g)[r]? = some e ∧ q (f e) := by
  rw [groupRows_map, List.getElem?_map]
  simp

end

/-! ## Reads through an index -/

section
variable [Platform] [LawfulPlatform] [FloatText] {columns : Columns} {options : WriteOptions}
  {t : WrittenTable} {source : ParquetFile} {kix tix : ℕ} {sourceCol targetCol indexName : String}

section
variable {κ β : Type} (w : SortedWriter κ) [Ord κ] [DecidableEq κ] [LE κ] [LT κ] [DecidableLE κ]
  [DecidableLT κ] [KeyedWriter w] [Std.IsLinearOrder κ] [Std.LawfulOrderOrd κ]
  [Std.LawfulOrderLT κ] [MaskedColumn β]

/-- **Reads through a sorted index** are scans: of a table with keys and values,
    an index that was written on the keys returns the values of the rows with a
    key, or with a key in a range, in the order of the table. -/
theorem sortedRead_eq (hfile : WrittenFile t columns options source) {rows : List (κ × β)}
    (hkey : columns[kix]? = some (sourceCol, w.column (rows.map Prod.fst)))
    (hfirst : ∀ i < kix, ∀ named, columns[i]? = some named → named.1 ≠ sourceCol)
    (htarget : columns[tix]? = some (targetCol, MaskedColumn.column (rows.map Prod.snd)))
    {idx : Bytes} (hwrite : writeSorted w source indexName kix = .ok idx)
    (hshort : ∀ table, sortedTable w source indexName kix = .ok table →
      ShortTable table.1 table.2) (hindexName : Clean indexName) (hsourceCol : Clean sourceCol) :
    ∃ index, ParquetIndex.open idx source = .ok index ∧
      (∀ k, index.readWhereEq (ParquetIndex.materialize MaskedColumn.readMasked) source indexName
        (KeyedWriter.key w k) tix = .ok ((rows.filter fun e => e.1 = k).map Prod.snd)) ∧
      ∀ lo hi, index.readWhereRange (ParquetIndex.materialize MaskedColumn.readMasked) source indexName
        (KeyedWriter.key w lo) (KeyedWriter.key w hi) tix
          = .ok ((rows.filter fun e => lo ≤ e.1 ∧ e.1 ≤ hi).map Prod.snd) := by
  have hindexable := hfile.indexable hkey hfirst
  have hrows := hfile.rowsOf_eq htarget
  obtain ⟨index, d, hopen, hd⟩ :=
    exists_sortedIndex w hindexable hwrite hshort hindexName hsourceCol
  have hread : ∀ g < rowGroupCount rows.length options.rowGroupSize,
      w.read source g kix = .ok (groupRows (rows.map Prod.fst) options.rowGroupSize g) := by
    intro g hg
    have hreads := hfile.readsRows (hrows ▸ hg) hkey (KeyedWriter.notBool _)
    rw [groupRows, List.length_map, ← hrows]
    exact KeyedWriter.reads hreads
  refine ⟨index, hopen, fun k => ?_, fun lo hi => ?_⟩
  · obtain ⟨hits, bitmaps, hhits, hbitmaps, hselects⟩ := hd.lookupEq_selects hindexable k
    rw [ParquetIndex.readWhereEq, hhits, ok_bind, ParquetIndex.materialize_eq hbitmaps]
    refine hfile.readBitmaps_eq htarget hselects fun g hg r => ?_
    rw [hread g hg, ← exists_getElem?_groupRows (q := (· = k))]
    simp
  · obtain ⟨hits, bitmaps, hhits, hbitmaps, hselects⟩ := hd.lookupRange_selects hindexable lo hi
    rw [ParquetIndex.readWhereRange, hhits, ok_bind, ParquetIndex.materialize_eq hbitmaps]
    refine hfile.readBitmaps_eq htarget hselects fun g hg r => ?_
    rw [hread g hg, ← exists_getElem?_groupRows (q := fun v => lo ≤ v ∧ v ≤ hi)]
    simp

end

/-- **Reads through an index on a pair** of columns. -/
theorem compositeRead_eq (hfile : WrittenFile t columns options source)
    {rows : List ((Int64 × Int64) × Int64)} {cixB : ℕ} {nameB : String}
    (hA : columns[kix]? = some (sourceCol, .i64 (rows.map fun e => e.1.1)))
    (hfirstA : ∀ i < kix, ∀ named, columns[i]? = some named → named.1 ≠ sourceCol)
    (hB : columns[cixB]? = some (nameB, .i64 (rows.map fun e => e.1.2)))
    (hfirstB : ∀ i < cixB, ∀ named, columns[i]? = some named → named.1 ≠ nameB)
    (htarget : columns[tix]? = some (targetCol, .i64 (rows.map Prod.snd))) {idx : Bytes}
    (hwrite : writeSortedCompositePrefixI64I64 source indexName kix cixB = .ok idx)
    (hshort : ∀ table, compositeTable source indexName kix cixB = .ok table →
      ShortTable table.1 table.2)
    (hclean : ∀ name ∈ [indexName, sourceCol, nameB], Clean name) :
    ∃ index, ParquetIndex.open idx source = .ok index ∧
      (∀ a b, index.readColumnI64WhereCompositeEq source indexName a b tix
        = .ok ((rows.filter fun e => e.1 = (a, b)).map Prod.snd)) ∧
      ∀ a, index.readColumnI64WhereCompositePrefix source indexName a tix
        = .ok ((rows.filter fun e => e.1.1 = a).map Prod.snd) := by
  have hindexable := hfile.indexable hA hfirstA
  obtain ⟨index, d, hopen, hd⟩ := exists_compositeIndex hindexable
    (hfile.indexable hB hfirstB).ordinal hwrite hshort hclean
  have hread : ∀ g < rowGroupCount rows.length options.rowGroupSize, ∀ q : Int64 × Int64 → Prop, ∀ r,
      RowWith (readPairs source kix cixB) q g r
        ↔ ∃ e, (groupRows rows options.rowGroupSize g)[r]? = some e ∧ q e.1 := by
    intro g hg q r
    have hreadA := hfile.readI64 hA (r := g) (by rwa [List.length_map])
    have hreadB := hfile.readI64 hB (r := g) (by rwa [List.length_map])
    rw [rowWith_readPairs, hreadA, hreadB, groupRows_map, groupRows_map]
    constructor
    · rintro ⟨as, bs, ⟨⟩, ⟨⟩, -, a, b, ha, hb, hq⟩
      rw [List.getElem?_map, Option.map_eq_some_iff] at ha hb
      obtain ⟨e, he, rfl⟩ := ha
      obtain ⟨e', he', rfl⟩ := hb
      cases he.symm.trans he'
      exact ⟨e, he, hq⟩
    · rintro ⟨e, he, hq⟩
      exact ⟨_, _, rfl, rfl, by simp, e.1.1, e.1.2, by simp [he], by simp [he], hq⟩
  refine ⟨index, hopen, fun a b => ?_, fun a => ?_⟩
  · obtain ⟨hits, bitmaps, hhits, hbitmaps, hselects⟩ := hd.lookupEq_selects hindexable a b
    rw [ParquetIndex.readColumnI64WhereCompositeEq, hhits, ok_bind]
    exact (ParquetIndex.materialize_eq hbitmaps).trans
      (hfile.readBitmaps_eq (β := Int64) htarget hselects fun g hg r => hread g hg _ r)
  · obtain ⟨hits, bitmaps, hhits, hbitmaps, hselects⟩ := hd.lookupPrefix_selects hindexable a
    rw [ParquetIndex.readColumnI64WhereCompositePrefix, hhits, ok_bind]
    exact (ParquetIndex.materialize_eq hbitmaps).trans
      (hfile.readBitmaps_eq (β := Int64) htarget hselects fun g hg r => hread g hg _ r)

/-- **Reads of a token**: the query is one token, and the rows are those whose
    text has it. -/
theorem tokenRead_eq (hfile : WrittenFile t columns options source) {rows : List (Bytes × Bytes)}
    {tokenizer : Tokenizer} (htext : columns[kix]? = some (sourceCol, .byteArray (rows.map Prod.fst)))
    (hfirst : ∀ i < kix, ∀ named, columns[i]? = some named → named.1 ≠ sourceCol)
    (htarget : columns[tix]? = some (targetCol, .byteArray (rows.map Prod.snd))) {idx : Bytes}
    (hwrite : writeInvertedByteArray source indexName kix tokenizer = .ok idx)
    (hshort : ∀ table, invertedTable source indexName kix tokenizer = .ok table →
      ShortTable table.1 table.2)
    (hindexName : Clean indexName) (hsourceCol : Clean sourceCol) :
    ∃ index, ParquetIndex.open idx source = .ok index ∧
      ∀ query tok, tokenizer.tokenize query = [tok] →
        index.readColumnByteArrayWhereToken source indexName query tix
          = .ok ((rows.filter fun e => tok ∈ tokenizer.tokenize e.1).map Prod.snd) := by
  have hindexable := hfile.indexable htext hfirst
  obtain ⟨index, d, hopen, hd⟩ := exists_invertedIndex hindexable hwrite hshort hindexName hsourceCol
  obtain ⟨entry, hfound, hkind⟩ := hd.found
  refine ⟨index, hopen, fun query tok hquery => ?_⟩
  obtain ⟨hits, bitmaps, hhits, hbitmaps, hselects⟩ := hd.lookupToken_selects hindexable tok
  rw [ParquetIndex.readColumnByteArrayWhereToken, hfound, ok_bind]
  dsimp only
  rw [hkind]
  dsimp only
  rw [hquery]
  dsimp only
  rw [hhits, ok_bind]
  refine (ParquetIndex.materialize_eq hbitmaps).trans
    (hfile.readBitmaps_eq (β := Bytes) htarget hselects fun g hg r => ?_)
  have hread := hfile.readByteArray htext (r := g) (by rwa [List.length_map])
  rw [hread, ← exists_getElem?_groupRows (q := fun v => tok ∈ tokenizer.tokenize v)]
  simp

end

/-! ## Reads of a sample -/

theorem maskedReads_written_sample : ∃ source, keysFile = .ok source ∧
    FiltersRead (@readColumnI64Masked Platform.stored source 0 0) 2 [7, 5] ∧
    FiltersRead (@readColumnByteArrayMasked Platform.stored source 1 2) 1 [[0x43, 0x20, 0x61]] := by
  let _ := Platform.stored
  let _ := Platform.stored_lawful
  obtain ⟨source, idx, hsource, -⟩ := writeSorted_keys
  obtain ⟨t, hfile⟩ := writtenFile_keys hsource
  have hfixed := @maskedReads_written _ _ _ _ _ _ hfile 0 0 "key"
  have hbytes := @maskedReads_written _ _ _ _ _ _ hfile 1 2 "text"
  exact ⟨source, hsource, hfixed.1 [7, 5, 7] rfl (by decide), hbytes.2.2.2 _ rfl (by decide)⟩

/-- The names before a column of the sample. -/
theorem keysTable_names {ix : ℕ} {name : String} (h : (keysTable.take ix).all (·.1 ≠ name) = true) :
    ∀ i < ix, ∀ named, keysTable[i]? = some named → named.1 ≠ name := by
  intro i hi named hnamed
  rw [List.all_eq_true] at h
  refine of_decide_eq_true (h named (List.mem_of_getElem? (i := i) ?_))
  rwa [List.getElem?_take_of_lt hi]

theorem sortedRead_eq_sample : ∃ source idx index, keysFile = .ok source ∧
    @ParquetIndex.open Platform.stored FloatText.hundredth idx source = .ok index ∧
    (∀ k, @ParquetIndex.readColumnI64WhereEq Platform.stored index source "by_key" k 1
      = .ok (([(7, 1), (5, 2), (7, 3)].filter fun e => e.1 = k).map Prod.snd)) ∧
    ∀ lo hi, @ParquetIndex.readColumnI64WhereRange Platform.stored index source "by_key" lo hi 1
      = .ok (([(7, 1), (5, 2), (7, 3)].filter fun e => lo ≤ e.1 ∧ e.1 ≤ hi).map Prod.snd) := by
  let _ := Platform.stored
  let _ := Platform.stored_lawful
  let _ := FloatText.hundredth
  let rows : List (Int64 × Int64) := [(7, 1), (5, 2), (7, 3)]
  obtain ⟨source, idx, hsource, hwrite, hshort⟩ := writeSorted_keys
  obtain ⟨t, hfile⟩ := writtenFile_keys hsource
  have hkey : keysTable[0]? = some ("key", SortedWriter.i64.column (rows.map Prod.fst)) := rfl
  have htarget : keysTable[1]? = some ("value", MaskedColumn.column (rows.map Prod.snd)) := rfl
  obtain ⟨index, hopen, hreads⟩ := sortedRead_eq .i64 hfile hkey (keysTable_names rfl) htarget hwrite
    hshort (by decide +kernel) (by decide +kernel)
  exact ⟨source, idx, index, hsource, hopen, hreads⟩

/-- The rows of the sample: their pairs, and the second value again. -/
def pairRows : List ((Int64 × Int64) × Int64) := [((7, 1), 1), ((5, 2), 2), ((7, 3), 3)]

theorem compositeRead_eq_sample : ∃ source idx index, keysFile = .ok source ∧
    @ParquetIndex.open Platform.stored FloatText.hundredth idx source = .ok index ∧
    (∀ a b, @ParquetIndex.readColumnI64WhereCompositeEq Platform.stored index source "by_pair" a b 1
      = .ok ((pairRows.filter fun e => e.1 = (a, b)).map Prod.snd)) ∧
    ∀ a, @ParquetIndex.readColumnI64WhereCompositePrefix Platform.stored index source "by_pair" a 1
      = .ok ((pairRows.filter fun e => e.1.1 = a).map Prod.snd) := by
  let _ := Platform.stored
  let _ := Platform.stored_lawful
  let _ := FloatText.hundredth
  obtain ⟨source, idx, hsource, hwrite, hshort⟩ := writeComposite_keys
  obtain ⟨t, hfile⟩ := writtenFile_keys hsource
  have hA : keysTable[0]? = some ("key", .i64 (pairRows.map fun e => e.1.1)) := rfl
  have hB : keysTable[1]? = some ("value", .i64 (pairRows.map fun e => e.1.2)) := rfl
  obtain ⟨index, hopen, hreads⟩ := compositeRead_eq hfile hA (keysTable_names rfl) hB
    (keysTable_names rfl) hB hwrite hshort (by decide +kernel)
  exact ⟨source, idx, index, hsource, hopen, hreads⟩

theorem tokenRead_eq_sample : ∃ source idx index, keysFile = .ok source ∧
    @ParquetIndex.open Platform.stored FloatText.hundredth idx source = .ok index ∧
    @ParquetIndex.readColumnByteArrayWhereToken Platform.stored index source "by_token" [0x41] 2
      = .ok [[0x61, 0x20, 0x62], [0x43, 0x20, 0x61]] := by
  let _ := Platform.stored
  let _ := Platform.stored_lawful
  let _ := FloatText.hundredth
  let rows : List (Bytes × Bytes) := [([0x61, 0x20, 0x62], [0x61, 0x20, 0x62]), ([0x62], [0x62]),
    ([0x43, 0x20, 0x61], [0x43, 0x20, 0x61])]
  obtain ⟨source, idx, hsource, hwrite, hshort⟩ := writeInverted_keys
  obtain ⟨t, hfile⟩ := writtenFile_keys hsource
  have htext : keysTable[2]? = some ("text", .byteArray (rows.map Prod.fst)) := rfl
  have htarget : keysTable[2]? = some ("text", .byteArray (rows.map Prod.snd)) := rfl
  obtain ⟨index, hopen, hreads⟩ := tokenRead_eq hfile htext (keysTable_names rfl) htarget hwrite hshort
    (by decide +kernel) (by decide +kernel)
  exact ⟨source, idx, index, hsource, hopen, hreads [0x41] [0x61] (by decide)⟩

end EmatixParquet
