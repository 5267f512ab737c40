/-
  Lazy reads through a written index.

  * `sortedBody_written`: the row groups of a written `INT64` body, with the
    bounds in its footer, are what the lazy reader needs;
  * `lazyRead_eq`: a lazy read through the index is the scan that tests every row.
-/
import EmatixParquet.Index.Query

namespace EmatixParquet

open Wire

/-- The rows of a body, row group by row group. -/
def bodyGroups {κ : Type} (entries : List (κ × IndexTargets.Row)) (size : ℕ) :
    List (LoadedTyped κ) :=
  (List.range (rowGroupCount entries.length size)).map fun r => bodyOf (groupRows entries size r)

/-- **All groups** are the body. -/
theorem concat_bodyGroups {κ : Type} {entries : List (κ × IndexTargets.Row)} {size : ℕ}
    (hsize : 0 < size) : (LoadedTyped.concat (bodyGroups entries size)).Aligned ∧
      (LoadedTyped.concat (bodyGroups entries size)).entries = entries ∧
      (bodyGroups entries size).flatMap (·.values) = entries.map Prod.fst := by
  have haligned : ∀ d ∈ bodyGroups entries size, d.Aligned := by
    intro d hd
    obtain ⟨r, -, rfl⟩ := List.mem_map.mp hd
    exact aligned_bodyOf _
  obtain ⟨hconcat, hentries⟩ := LoadedTyped.concat_spec haligned
  refine ⟨hconcat, ?_, ?_⟩
  · rw [hentries, bodyGroups, List.flatMap_map]
    simp only [entries_bodyOf]
    rw [List.flatMap_def, flatten_allGroups entries hsize]
  · rw [bodyGroups, List.flatMap_map]
    simp only [bodyOf]
    rw [← List.map_flatMap, List.flatMap_def, flatten_allGroups entries hsize]

section
variable [Platform] [LawfulPlatform] {entries : List (Int64 × IndexTargets.Row)}
  {options : WriteOptions} {t : WrittenTable} {file : ParquetFile}

omit [LawfulPlatform] in
/-- **Bounds in the footer** hold of the row group. -/
theorem WrittenFile.bounds {columns : Columns} (h : WrittenFile t columns options file) {ix r : ℕ}
    {name : String} {v : List Int64} (hnamed : columns[ix]? = some (name, .i64 v))
    {bounds : Int64 × Int64} (hbounds : idxRgI64Bounds t.metadata r ix = some bounds) :
    ∀ x ∈ groupRows v options.rowGroupSize r, bounds.1 ≤ x ∧ x ≤ bounds.2 := by
  have hrows : rowsOf columns = v.length := h.rowCount_eq hnamed
  rw [idxRgI64Bounds, Option.bind_eq_bind, Option.bind_eq_some_iff] at hbounds
  obtain ⟨rg, hrg, hbounds⟩ := hbounds
  obtain ⟨slice, cc, cm, stats, hslice, hcc, hcm, hstats, hexact⟩ :=
    (exactFooter_table h.written (h.short.bytes t h.written)).columns r rg ix _ hrg hnamed
  obtain ⟨w, hw, rfl⟩ := map_eq_ok.mp hslice
  obtain ⟨-, -, rfl⟩ := slice_eq_ok.mp hw
  obtain ⟨-, -, -, hleast, hgreatest, hmin, hmax⟩ := hexact
  simp only [hcc, hcm, hstats, hmin, hmax, Option.or_self, Option.bind_eq_bind, Option.bind_some] at hbounds
  rw [Option.bind_eq_some_iff] at hbounds
  obtain ⟨mn, hmn, hbounds⟩ := hbounds
  rw [Option.bind_eq_some_iff] at hbounds
  obtain ⟨mx, hmx, hbounds⟩ := hbounds
  obtain ⟨lo, hlo, hleast⟩ := hleast mn hmn
  obtain ⟨hi, hhi, hgreatest⟩ := hgreatest mx hmx
  split at hbounds
  · next hlen =>
    cases hbounds
    have hdecode : ∀ b : Bytes, b.length = 8 → decodeFixedStat b = some (fromLeBytes b : Int64) := by
      intro b hb
      rw [decodeFixedStat]
      exact if_pos hb
    rw [hdecode _ hlen.1, Option.some.injEq] at hlo
    rw [hdecode _ hlen.2, Option.some.injEq] at hhi
    intro x hx
    rw [groupRows, ← hrows] at hx
    exact ⟨hlo ▸ hleast.2 hx, hhi ▸ hgreatest.2 hx⟩
  · cases hbounds

/-- **A written body** is sorted, and has the bounds of its footer. -/
theorem sortedBody_written
    (h : WrittenFile t (("value", .i64 (entries.map Prod.fst)) :: targetColumns entries) options file)
    (hsorted : (entries.map Prod.fst).Pairwise (· ≤ ·)) :
    SortedBody file t.metadata 0 (bodyGroups entries options.rowGroupSize) := by
  have hgroup : ∀ {i d}, (bodyGroups entries options.rowGroupSize)[i]? = some d →
      i < rowGroupCount entries.length options.rowGroupSize ∧
        d = bodyOf (groupRows entries options.rowGroupSize i) := by
    intro i d hd
    rw [bodyGroups, List.getElem?_map, Option.map_eq_some_iff] at hd
    obtain ⟨r, hr, rfl⟩ := hd
    obtain ⟨hlt, rfl⟩ := List.getElem?_eq_some_iff.mp hr
    rw [List.length_range] at hlt
    exact ⟨hlt, by rw [List.getElem_range]⟩
  have htargets : ∀ r < rowGroupCount entries.length options.rowGroupSize, _ := fun r hr =>
    @WrittenFile.readTargets _ _ _ _ _ [("value", .i64 (entries.map Prod.fst))] _ _ h r hr
  have hvalue : (("value", ColumnData.i64 (entries.map Prod.fst)) :: targetColumns entries)[0]?
      = some ("value", .i64 (entries.map Prod.fst)) := rfl
  constructor
  · intro i d hd
    obtain ⟨hi, rfl⟩ := hgroup hd
    rw [Nat.zero_add, h.readI64 hvalue (by rwa [List.length_map]), groupRows_map]
    rfl
  · intro i d hd
    obtain ⟨hi, rfl⟩ := hgroup hd
    rw [Nat.zero_add]
    exact (htargets i hi).1
  · intro i d hd
    obtain ⟨hi, rfl⟩ := hgroup hd
    rw [Nat.zero_add]
    exact (htargets i hi).2.1
  · intro i d hd
    obtain ⟨hi, rfl⟩ := hgroup hd
    rw [Nat.zero_add]
    exact (htargets i hi).2.2
  · intro d hd
    obtain ⟨r, -, rfl⟩ := List.mem_map.mp hd
    exact aligned_bodyOf _
  · rw [(concat_bodyGroups h.size_pos).2.2]
    exact hsorted
  · intro i d bounds hd hbounds x hx
    obtain ⟨hi, rfl⟩ := hgroup hd
    rw [Nat.zero_add] at hbounds
    refine h.bounds hvalue hbounds x ?_
    rwa [groupRows_map]

end

/-! ## Both readers -/

section
variable [Platform] [FloatText] [FloatDebug]

/-- **Lazy lookups are eager lookups**: over a sorted `INT64` body in any number of
    row groups, whatever bitmaps the eager reader finds the lazy one finds; and
    they agree in their errors too, except that only the eager reader notices
    the absence of the indexed column where no row has the key. -/
theorem eqBitmaps_eq_lookupEq {idx : Bytes} {source : ParquetFile}
    {index : LazyParquetIndex} {eager : ParquetIndex}
    (hopen : LazyParquetIndex.open idx source = .ok index)
    (heager : ParquetIndex.open idx source = .ok eager) {md : FileMetaData}
    (hmd : index.idxFile.metadata = .ok md) {name sourceCol : String} {entry : IndexEntry}
    (hentry : index.manifest.indexes.find? (fun e => e.name = name) = some entry)
    (hkind : entry.kind = .sorted sourceCol .int64) {groups : List (LoadedTyped Int64)}
    (hcount : max entry.sidecarRowGroupCount.toNat 1 = groups.length)
    (hbody : SortedBody index.idxFile md entry.sidecarRowGroup.toNat groups) (key : Int64) :
    let eagerBitmaps := do
      let hits ← eager.lookupEq name (.i64 key)
      eager.assembleBitmaps source name hits
    (∀ bitmaps, eagerBitmaps = .ok bitmaps → index.eqBitmaps source name key = .ok bitmaps) ∧
      (∀ column, resolveLeafByName source sourceCol = .ok column →
        index.eqBitmaps source name key = eagerBitmaps) := by
  obtain ⟨index', hopen', hload, -, hformat⟩ := ParquetIndex.open_eq_ok.mp heager
  cases hopen.symm.trans hopen'
  obtain ⟨data, hfind, hdata⟩ := ParquetIndex.findIndex_open hload hentry
  have hsorted : sortedPhysicalType entry = .ok .int64 := by rw [sortedPhysicalType, hkind]
  have hcolumn : ParquetIndex.indexedColumn name entry = .ok sourceCol := by
    rw [ParquetIndex.indexedColumn, hkind]
  have hbodyData : data = .sortedI64 (LoadedTyped.concat groups) := by
    rw [loadIndexData, hkind] at hdata
    dsimp only at hdata
    rw [hbody.loadSorted rfl hcount] at hdata
    exact (Except.ok.inj hdata).symm
  have hlookup : eager.lookupEq name (.i64 key)
      = eqHitsI64 (LoadedTyped.concat groups) key index.rowsetFormat := by
    rw [ParquetIndex.lookupEq, hfind, ok_bind, hsorted, ok_bind, if_neg (by simp [Key.physicalType]),
      hbodyData, hformat]
    rfl
  have hassemble : ∀ hits, eager.assembleBitmaps source name hits
      = assembleBitmapsFrom source sourceCol hits := by
    intro hits
    rw [ParquetIndex.assembleBitmaps, hfind, ok_bind, hcolumn, ok_bind]
  dsimp only
  rw [LazyParquetIndex.eqBitmaps_eq hmd hentry hkind hcount hbody, hlookup]
  simp only [hassemble]
  cases eqHitsI64 (LoadedTyped.concat groups) key index.rowsetFormat with
  | error e => exact ⟨fun _ h => h, fun _ _ => rfl⟩
  | ok hits =>
    simp only [ok_bind]
    by_cases hnil : hits = []
    · rw [if_pos hnil, hnil, assembleBitmapsFrom_nil]
      constructor
      · intro bitmaps h
        obtain ⟨column, -, rfl⟩ := map_eq_ok.mp h
        rfl
      · intro column hcol
        rw [hcol]
        rfl
    · rw [if_neg hnil]
      exact ⟨fun _ h => h, fun _ _ => rfl⟩

end

/-! ## Reads -/

section
variable [Platform] {index : LazyParquetIndex} {source : ParquetFile} {md imd : FileMetaData}
  {indexName sourceCol : String} {column : ℕ} {entry : IndexEntry} {groups : List (LoadedTyped Int64)}

/-- An index that is opened lazily: its body, in row groups, names the rows of the
    source. -/
structure LazyIndex (index : LazyParquetIndex) (source : ParquetFile) (md imd : FileMetaData)
    (indexName sourceCol : String) (column : ℕ) (entry : IndexEntry)
    (groups : List (LoadedTyped Int64)) : Prop where
  format : index.rowsetFormat = .v2Tagged
  metadata : index.idxFile.metadata = .ok imd
  found : index.manifest.indexes.find? (fun e => e.name = indexName) = some entry
  kind : entry.kind = .sorted sourceCol .int64
  count : max entry.sidecarRowGroupCount.toNat 1 = groups.length
  body : SortedBody index.idxFile imd entry.sidecarRowGroup.toNat groups
  rows : ∃ keys paging,
    KeyedSource source md column (SortedWriter.i64.readKeys source column) keys paging ∧
    IndexesRows (LoadedTyped.concat groups).entries keys paging

/-- **A lazy lookup** selects the rows with the key. -/
theorem LazyIndex.eqBitmaps_selects [FloatDebug]
    (h : LazyIndex index source md imd indexName sourceCol column entry groups)
    (hsource : Indexable source md sourceCol column) (k : Int64) :
    ∃ bitmaps, index.eqBitmaps source indexName k = .ok bitmaps ∧
      Selects bitmaps md fun g r => ∃ vs, readColumnI64 source g column = .ok vs ∧ vs[r]? = some k := by
  obtain ⟨keys, paging, hkeyed, hrows⟩ := h.rows
  obtain ⟨hits, hhits, bitmaps, hbitmaps, hselects⟩ :=
    hrows.selects hkeyed hsource.resolves (· = k)
  have haligned := (LoadedTyped.concat_spec h.body.aligned).1
  have heager : eqHitsI64 (LoadedTyped.concat groups) k .v2Tagged = .ok hits := by
    rw [eqHitsI64, eqHits_eq haligned h.body.sorted, hhits]
  refine ⟨bitmaps, ?_, hselects.congr fun g r => ?_⟩
  · rw [LazyParquetIndex.eqBitmaps_eq h.metadata h.found h.kind h.count h.body, h.format, heager,
      ok_bind]
    split
    · next hnil =>
      rw [hnil, assembleBitmapsFrom_nil] at hbitmaps
      obtain ⟨_, -, rfl⟩ := map_eq_ok.mp hbitmaps
      rfl
    · exact hbitmaps
  · rw [rowWith_readKeys]
    simp [SortedWriter.i64]

variable [LawfulPlatform] [FloatText]

/-- **A written index opens lazily.** -/
theorem exists_lazyIndex (h : Indexable source md sourceCol column) {idx : Bytes}
    (hwrite : writeSorted .i64 source indexName column = .ok idx)
    (hshort : ∀ table, sortedTable .i64 source indexName column = .ok table →
      ShortTable table.1 table.2) (hindexName : Clean indexName) (hsourceCol : Clean sourceCol) :
    ∃ index imd entry groups, LazyParquetIndex.open idx source = .ok index ∧
      LazyIndex index source md imd indexName sourceCol column entry groups := by
  obtain ⟨entries, fp, t, file, rfl, hfp, hfile, hsorted, hrows⟩ :=
    writeSorted_eq_ok .i64 h hwrite hshort
  obtain ⟨-, hcount, hone⟩ := rowGroupCount_written (w := .i64) rfl hfile
  have hopen := open_eq_ok.mpr ⟨readManifest_written hfile ⟨hone, trivial⟩
    (SortedWriter.clean_entry hindexName hsourceCol _), verifySource_eq_ok.mpr hfp⟩
  refine ⟨_, t.metadata, SortedWriter.i64.entry indexName sourceCol entries.length,
    bodyGroups entries sidecarRgRows, hopen, rfl, hfile.metadata, by simp [SortedWriter.entry], rfl, ?_,
    sortedBody_written hfile hsorted, ?_⟩
  · have hpos := rowGroupCount_pos entries.length sidecarRgRows_pos
    change max (SortedWriter.i64.rowGroupCount entries.length).toNat 1 = _
    rw [hcount, bodyGroups, List.length_map, List.length_range]
    exact Nat.max_eq_left hpos
  · rwa [(concat_bodyGroups sidecarRgRows_pos).2.1]

variable [FloatDebug] {β : Type} [MaskedColumn β] {columns : Columns} {options : WriteOptions}
  {t : WrittenTable} {kix tix : ℕ} {targetCol : String}

/-- **Lazy reads are scans**: of a table with `INT64` keys and values, an index
    that was written on the keys and opened lazily returns the values of the rows
    with a key, though it leaves out the row groups whose bounds exclude it. -/
theorem lazyRead_eq (hfile : WrittenFile t columns options source) {rows : List (Int64 × β)}
    (hkey : columns[kix]? = some (sourceCol, .i64 (rows.map Prod.fst)))
    (hfirst : ∀ i < kix, ∀ named, columns[i]? = some named → named.1 ≠ sourceCol)
    (htarget : columns[tix]? = some (targetCol, MaskedColumn.column (rows.map Prod.snd)))
    {idx : Bytes} (hwrite : writeSorted .i64 source indexName kix = .ok idx)
    (hshort : ∀ table, sortedTable .i64 source indexName kix = .ok table →
      ShortTable table.1 table.2) (hindexName : Clean indexName) (hsourceCol : Clean sourceCol) :
    ∃ index, LazyParquetIndex.open idx source = .ok index ∧
      ∀ k, index.readWhereEq MaskedColumn.readMasked source indexName k tix
        = .ok ((rows.filter fun e => e.1 = k).map Prod.snd) := by
  have hindexable := hfile.indexable hkey hfirst
  have hrows := hfile.rowsOf_eq htarget
  obtain ⟨index, imd, entry, groups, hopen, hlazy⟩ :=
    exists_lazyIndex hindexable hwrite hshort hindexName hsourceCol
  refine ⟨index, hopen, fun k => ?_⟩
  obtain ⟨bitmaps, hbitmaps, hselects⟩ := hlazy.eqBitmaps_selects hindexable k
  rw [LazyParquetIndex.readWhereEq, hbitmaps, ok_bind]
  refine hfile.readBitmaps_eq htarget hselects fun g hg r => ?_
  have hread := hfile.readI64 hkey (r := g) (by rwa [List.length_map])
  rw [hread, ← exists_getElem?_groupRows (q := (· = k))]
  simp

end

/-! ## Lazy reads of a sample -/

/-- The rate 0.01, printed. -/
@[reducible]
def FloatDebug.hundredth : FloatDebug where
  debug _ := "0.01"

theorem lazyRead_eq_sample : ∃ source idx index, keysFile = .ok source ∧
    @LazyParquetIndex.open FloatText.hundredth idx source = .ok index ∧
    ∀ k, @LazyParquetIndex.readColumnI64WhereEq Platform.stored FloatDebug.hundredth index source
      "by_key" k 1 = .ok (([(7, 1), (5, 2), (7, 3)].filter fun e => e.1 = k).map Prod.snd) := by
  let _ := Platform.stored
  let _ := Platform.stored_lawful
  let _ := FloatText.hundredth
  let _ := FloatDebug.hundredth
  let rows : List (Int64 × Int64) := [(7, 1), (5, 2), (7, 3)]
  obtain ⟨source, idx, hsource, hwrite, hshort⟩ := writeSorted_keys
  obtain ⟨t, hfile⟩ := writtenFile_keys hsource
  have hkey : keysTable[0]? = some ("key", .i64 (rows.map Prod.fst)) := rfl
  have htarget : keysTable[1]? = some ("value", MaskedColumn.column (rows.map Prod.snd)) := rfl
  obtain ⟨index, hopen, hreads⟩ := lazyRead_eq hfile hkey (keysTable_names rfl) htarget hwrite hshort
    (by decide +kernel) (by decide +kernel)
  exact ⟨source, idx, index, hsource, hopen, hreads⟩

theorem eqBitmaps_eq_lookupEq_sample : ∃ source idx index eager, keysFile = .ok source ∧
    @LazyParquetIndex.open FloatText.hundredth idx source = .ok index ∧
    @ParquetIndex.open Platform.stored FloatText.hundredth idx source = .ok eager ∧
    ∀ key, (∀ bitmaps, (do
        let hits ← eager.lookupEq "by_key" (.i64 key)
        eager.assembleBitmaps source "by_key" hits) = .ok bitmaps →
      @LazyParquetIndex.eqBitmaps Platform.stored FloatDebug.hundredth index source "by_key" key
        = .ok bitmaps) ∧
    ∀ column, resolveLeafByName source "key" = .ok column →
      @LazyParquetIndex.eqBitmaps Platform.stored FloatDebug.hundredth index source "by_key" key
        = (do let hits ← eager.lookupEq "by_key" (.i64 key)
              eager.assembleBitmaps source "by_key" hits) := by
  let _ := Platform.stored
  let _ := Platform.stored_lawful
  let _ := FloatText.hundredth
  let _ := FloatDebug.hundredth
  obtain ⟨source, idx, hsource, hwrite, hshort⟩ := writeSorted_keys
  obtain ⟨md, hindexable, -⟩ := indexable_keys hsource
  obtain ⟨index, imd, entry, groups, hopen, hlazy⟩ :=
    exists_lazyIndex hindexable hwrite hshort (by decide +kernel) (by decide +kernel)
  obtain ⟨eager, d, heager, -⟩ :=
    exists_sortedIndex .i64 hindexable hwrite hshort (by decide +kernel) (by decide +kernel)
  exact ⟨source, idx, index, eager, hsource, hopen, heager,
    eqBitmaps_eq_lookupEq hopen heager hlazy.metadata hlazy.found hlazy.kind hlazy.count hlazy.body⟩

end EmatixParquet
