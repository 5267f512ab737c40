/-
  Sorted indexes, from the writer to the lookup.

  `KeyedWriter` is what the three sorted writers have in common with the reader's
  side of them.

  * `exists_sortedIndex`: a written index opens to a body in the order of the keys
    that names the rows of the source;
  * `sortedIndex_exact`: lookups select exactly the rows whose key is the given
    one, or between the given ones.
-/
import EmatixParquet.Index.Source

namespace EmatixParquet

open Wire

/-! ## Types of keys -/

/-- The reader's side of a sorted writer: the variants of its keys and of its
    loaded bodies. -/
class KeyedWriter {κ : Type} [Ord κ] [LE κ] [LT κ] [DecidableLE κ] [DecidableLT κ]
    [DecidableEq κ] [Platform] (w : SortedWriter κ) where
  key : κ → Key
  loaded : LoadedTyped κ → LoadedIndexData
  size_pos : 0 < w.rowGroupSize
  groupCount : ∀ n, min n w.rowGroupSize < 2 ^ 31 → rowGroupCount n w.rowGroupSize < 2 ^ 32 →
    (w.rowGroupCount n).toNat = rowGroupCount n w.rowGroupSize
  notBool : ∀ vs bs, w.column vs ≠ .bool bs
  reads : ∀ {file r ix start stop vs}, ReadsRows file r ix start stop (w.column vs) →
    w.read file r ix = .ok ((vs.take stop).drop start)
  physicalType : ∀ k, (key k).physicalType = w.physicalType
  loads : ∀ {file : ParquetFile} {entry : IndexEntry} {sourceCol : String},
    entry.kind = .sorted sourceCol w.physicalType →
    loadIndexData file entry = loaded <$> loadSorted (readColumnRgs w.read) file entry
  eq : ∀ name d k format, lookupEqIn name (loaded d) (key k) format = eqHits d k format
  range : ∀ name d lo hi format, lookupRangeIn name (loaded d) (key lo) (key hi) format
    = if hi < lo then .ok [] else rangeHits d lo hi format

theorem sidecarRgRows_pos : 0 < sidecarRgRows := by decide

/-- As many row groups as the writer counts. -/
theorem toNat_rowGroupCount {n : ℕ} (h : rowGroupCount n sidecarRgRows < 2 ^ 32) :
    (UInt32.ofNat (max (divCeil n sidecarRgRows) 1)).toNat = rowGroupCount n sidecarRgRows := by
  have hcount : max (divCeil n sidecarRgRows) 1 = rowGroupCount n sidecarRgRows := by
    rw [rowGroupCount]
    split
    · next hzero =>
      subst hzero
      rfl
    · have hone : 1 ≤ divCeil n sidecarRgRows := by
        rw [divCeil, Nat.le_div_iff_mul_le sidecarRgRows_pos]
        omega
      exact Nat.max_eq_left hone
  rw [hcount, toNat_u32 h]

section
variable [Platform]

instance : KeyedWriter SortedWriter.i64 where
  key := .i64
  loaded := .sortedI64
  size_pos := sidecarRgRows_pos
  groupCount _ _ h := toNat_rowGroupCount h
  notBool _ _ := by simp [SortedWriter.i64]
  reads h := h
  physicalType _ := rfl
  loads h := by
    rw [loadIndexData, h]
    rfl
  eq _ _ _ _ := rfl
  range _ _ _ _ _ := rfl

instance : KeyedWriter SortedWriter.i32 where
  key := .i32
  loaded := .sortedI32
  size_pos := Nat.zero_lt_of_lt defaultRowGroupSize_gt
  groupCount _ h _ := (rowGroupCount_default h).symm
  notBool _ _ := by simp [SortedWriter.i32]
  reads h := h
  physicalType _ := rfl
  loads h := by
    rw [loadIndexData, h]
    rfl
  eq _ _ _ _ := rfl
  range _ _ _ _ _ := rfl

instance : KeyedWriter SortedWriter.byteArray where
  key := .bytes
  loaded := .sortedBytes
  size_pos := Nat.zero_lt_of_lt defaultRowGroupSize_gt
  groupCount _ h _ := (rowGroupCount_default h).symm
  notBool _ _ := by simp [SortedWriter.byteArray]
  reads h := h
  physicalType _ := rfl
  loads h := by
    rw [loadIndexData, h]
    rfl
  eq _ _ _ _ := rfl
  range _ _ _ _ _ := rfl

end

/-! ## The written index -/

/-- The keys of a row group: each row has one. -/
def SortedWriter.readKeys {κ : Type} (w : SortedWriter κ) (source : ParquetFile) (column rg : ℕ) :
    Res CodecError (List (List κ)) :=
  List.map (fun v => [v]) <$> w.read source rg column

/-- The entry of a sorted index in the manifest. -/
def SortedWriter.entry {κ : Type} (w : SortedWriter κ) (indexName sourceCol : String) (n : ℕ) :
    IndexEntry :=
  { name := indexName, kind := .sorted sourceCol w.physicalType, sidecarRowGroup := 0,
    sidecarRowGroupCount := w.rowGroupCount n }

section
variable {κ : Type} {w : SortedWriter κ} {source : ParquetFile} {md : FileMetaData}
  {sourceCol indexName : String} {column : ℕ}

/-- The names in its manifest. -/
theorem SortedWriter.clean_entry (hindexName : Clean indexName) (hsourceCol : Clean sourceCol) (n : ℕ) :
    ∀ v ∈ (w.entry indexName sourceCol n).names, Clean v := by
  simp [IndexEntry.names, SortedWriter.entry, IndexKind.columns, hindexName, hsourceCol]

/-- A row has the key that the column has there. -/
theorem rowWith_readKeys {q : κ → Prop} {g r : ℕ} : RowWith (w.readKeys source column) q g r
    ↔ ∃ vs v, w.read source g column = .ok vs ∧ vs[r]? = some v ∧ q v := by
  constructor
  · rintro ⟨rows, ks, hread, hks, k, hk, hq⟩
    obtain ⟨vs, hvs, rfl⟩ := map_eq_ok.mp hread
    rw [List.getElem?_map, Option.map_eq_some_iff] at hks
    obtain ⟨v, hv, rfl⟩ := hks
    rw [List.mem_singleton] at hk
    exact ⟨vs, v, hvs, hv, hk ▸ hq⟩
  · rintro ⟨vs, v, hvs, hv, hq⟩
    refine ⟨_, [v], map_eq_ok.mpr ⟨vs, hvs, rfl⟩, ?_, v, List.mem_singleton.mpr rfl, hq⟩
    rw [List.getElem?_map, hv]
    rfl

variable [Ord κ] [DecidableEq κ]

/-- **What a sorted table is made of.** -/
theorem sortedTable_eq_ok [FloatText] (h : Indexable source md sourceCol column)
    {table : Columns × WriteOptions} (htable : sortedTable w source indexName column = .ok table) :
    ∃ b entries fp, bucketRowGroups source md "col" column (w.readKeys source column) = .ok b ∧
      b.entries = .ok entries ∧ computeSourceFingerprint source = .ok fp ∧
      table = (("value", w.column (entries.map Prod.fst)) :: targetColumns entries,
        sidecarOptions fp (w.entry indexName sourceCol entries.length) .snappy w.rowGroupSize) := by
  obtain ⟨md', hmd, htable⟩ := bind_eq_ok.mp htable
  rw [h.metadata, mapIo_ok] at hmd
  cases hmd
  obtain ⟨leaf, hleaf, htable⟩ := bind_eq_ok.mp htable
  obtain ⟨columnType, -, htable⟩ := bind_eq_ok.mp htable
  split at htable
  · cases htable
  · obtain ⟨b, hb, htable⟩ := bind_eq_ok.mp htable
    obtain ⟨entries, hentries, htable⟩ := bind_eq_ok.mp htable
    obtain ⟨fp, hfp, htable⟩ := bind_eq_ok.mp htable
    rw [leafName_ok h.ordinal hleaf, ok_bind] at htable
    cases htable
    exact ⟨b, entries, fp, hb, hentries, hfp, rfl⟩

variable [LE κ] [LT κ] [DecidableLE κ] [DecidableLT κ] [Platform] [KeyedWriter w]
  [LawfulPlatform]

omit [LawfulPlatform] in
/-- **The row groups of the body**, as the manifest counts them. -/
theorem rowGroupCount_written {entries : List (κ × IndexTargets.Row)} {t : WrittenTable}
    {file : ParquetFile} {options : WriteOptions} (hsize : options.rowGroupSize = w.rowGroupSize)
    (h : WrittenFile t (("value", w.column (entries.map Prod.fst)) :: targetColumns entries) options
      file) :
    rowsOf (("value", w.column (entries.map Prod.fst)) :: targetColumns entries) = entries.length ∧
      (w.rowGroupCount entries.length).toNat = rowGroupCount entries.length w.rowGroupSize ∧
      1 ≤ w.rowGroupCount entries.length := by
  have hrows : rowsOf (("value", w.column (entries.map Prod.fst)) :: targetColumns entries)
      = entries.length := by
    rw [@WrittenFile.rowCount_eq _ _ _ _ _ h 1 _ _ rfl, ColumnData.rowCount, List.length_map]
  have hfit := h.short.rows
  have hlt := h.rowGroupCount_lt
  rw [hrows, hsize] at hfit hlt
  have hcount := KeyedWriter.groupCount _ hfit hlt
  refine ⟨hrows, hcount, ?_⟩
  rw [UInt32.le_iff_toNat_le, hcount]
  exact rowGroupCount_pos entries.length KeyedWriter.size_pos

/-- **The body is loaded** as it was written. -/
theorem loadIndexData_written {entries : List (κ × IndexTargets.Row)}
    {t : WrittenTable} {file : ParquetFile} {options : WriteOptions}
    (hsize : options.rowGroupSize = w.rowGroupSize)
    (h : WrittenFile t (("value", w.column (entries.map Prod.fst)) :: targetColumns entries) options
      file) :
    loadIndexData file (w.entry indexName sourceCol entries.length)
      = .ok (KeyedWriter.loaded w (bodyOf entries)) := by
  obtain ⟨hrows, hcount, -⟩ := rowGroupCount_written hsize h
  have hone := rowGroupCount_pos entries.length (KeyedWriter.size_pos (w := w))
  have hvalues : readColumnRgs w.read file 0 (rowGroupCount entries.length w.rowGroupSize) 0
      = .ok (entries.map fun e => e.1) := by
    have hlen : (entries.map fun e => e.1).length = entries.length := List.length_map _
    rw [← hlen]
    refine readColumnRgs_groups KeyedWriter.size_pos fun r hr => ?_
    rw [hlen] at hr
    have hread := @WrittenFile.readsRows _ _ _ _ _ _ h r 0 _ (by rwa [hrows, hsize]) rfl
      (KeyedWriter.notBool _)
    rw [hrows, hsize] at hread
    rw [groupRows, hlen]
    exact KeyedWriter.reads hread
  have htargets : ∀ r < rowGroupCount entries.length w.rowGroupSize, _ := fun r hr =>
    @WrittenFile.readTargets _ _ _ _ _ [("value", w.column (entries.map Prod.fst))] _ _ h r (by rwa [hsize])
  rw [hsize] at htargets
  have htarget : ∀ {α : Type} {read : ParquetFile → ℕ → ℕ → Res CodecError (List α)} {ix : ℕ}
      {f : κ × IndexTargets.Row → α}, (∀ r < rowGroupCount entries.length w.rowGroupSize,
        read file r ix = .ok ((groupRows entries w.rowGroupSize r).map f)) →
      readColumnRgs read file 0 (rowGroupCount entries.length w.rowGroupSize) ix
        = .ok (entries.map f) := by
    intro α read ix f hread
    have hlen : (entries.map f).length = entries.length := List.length_map _
    rw [← hlen]
    refine readColumnRgs_groups KeyedWriter.size_pos fun r hr => ?_
    rw [groupRows_map]
    exact hread r (hlen ▸ hr)
  have hmax : max (w.entry indexName sourceCol entries.length).sidecarRowGroupCount.toNat 1
      = rowGroupCount entries.length w.rowGroupSize := by
    rw [SortedWriter.entry, hcount, Nat.max_eq_left hone]
  have hgroup : (w.entry indexName sourceCol entries.length).sidecarRowGroup.toNat = 0 := rfl
  have hload := loadSorted_ok hgroup hmax (aligned_bodyOf entries) hvalues
    (htarget fun r hr => (htargets r hr).1) (htarget fun r hr => (htargets r hr).2.1)
    (htarget fun r hr => (htargets r hr).2.2)
  rw [KeyedWriter.loads rfl, hload]
  rfl

variable (w)

/-- An opened index: the body, in the order of the keys, names the rows of the
    source. -/
structure SortedIndex (index : ParquetIndex) (source : ParquetFile) (md : FileMetaData)
    (indexName sourceCol : String) (column : ℕ) (d : LoadedTyped κ) : Prop where
  format : index.rowsetFormat = .v2Tagged
  found : ∃ entry, index.findIndex indexName = .ok { entry, data := KeyedWriter.loaded w d } ∧
    entry.kind = .sorted sourceCol w.physicalType
  aligned : d.Aligned
  sorted : d.values.Pairwise (· ≤ ·)
  rows : ∃ keys paging, KeyedSource source md column (w.readKeys source column) keys paging ∧
    IndexesRows d.entries keys paging

variable {w} {index : ParquetIndex} {d : LoadedTyped κ}

omit [LawfulPlatform] in
/-- **The rows of the body** whose keys satisfy a predicate, as bitmaps. -/
theorem SortedIndex.selects (h : SortedIndex w index source md indexName sourceCol column d)
    (hsource : Indexable source md sourceCol column) (q : κ → Prop) [DecidablePred q] :
    ∃ hits bitmaps, (d.entries.filter fun e => q e.1).mapM (fun e => toHit .v2Tagged e.2) = .ok hits ∧
      index.assembleBitmaps source indexName hits = .ok bitmaps ∧
      Selects bitmaps md fun g r => ∃ vs v, w.read source g column = .ok vs ∧ vs[r]? = some v ∧ q v := by
  obtain ⟨entry, hfound, hkind⟩ := h.found
  obtain ⟨keys, paging, hkeyed, hrows⟩ := h.rows
  obtain ⟨hits, hhits, bitmaps, hbitmaps, hselects⟩ := hrows.selects hkeyed hsource.resolves q
  refine ⟨hits, bitmaps, hhits, ?_, hselects.congr fun g r => rowWith_readKeys⟩
  rw [ParquetIndex.assembleBitmaps, hfound, ok_bind, ParquetIndex.indexedColumn, hkind]
  exact hbitmaps

variable (w) [FloatText] [Std.IsLinearOrder κ] [Std.LawfulOrderOrd κ]

omit [LT κ] [DecidableLE κ] [DecidableLT κ] [KeyedWriter w] [LawfulPlatform] in
/-- **What is written** for a sorted index: a sidecar whose rows, in the order of
    the keys, name the rows of the source. -/
theorem writeSorted_eq_ok (h : Indexable source md sourceCol column) {idx : Bytes}
    (hwrite : writeSorted w source indexName column = .ok idx)
    (hshort : ∀ table, sortedTable w source indexName column = .ok table →
      ShortTable table.1 table.2) :
    ∃ entries fp t file, idx = t.bytes ∧ computeSourceFingerprint source = .ok fp ∧
      WrittenFile t (("value", w.column (entries.map Prod.fst)) :: targetColumns entries)
        (sidecarOptions fp (w.entry indexName sourceCol entries.length) .snappy w.rowGroupSize) file ∧
      (entries.map Prod.fst).Pairwise (· ≤ ·) ∧
      ∃ keys paging, KeyedSource source md column (w.readKeys source column) keys paging ∧
        IndexesRows entries keys paging := by
  obtain ⟨table, htable, hwrite⟩ := bind_eq_ok.mp hwrite
  have hshort := hshort table htable
  obtain ⟨b, entries, fp, hb, hentries, hfp, rfl⟩ := sortedTable_eq_ok h htable
  obtain ⟨t, ht, rfl⟩ := map_eq_ok.mp hwrite
  obtain ⟨file, hfile⟩ := exists_writtenFile ht hshort
  obtain ⟨hsorted, hrows⟩ := h.indexesRows hb hentries hfp
  exact ⟨entries, fp, t, file, rfl, hfp, hfile,
    hsorted.imp fun hle => (Std.LawfulOrderOrd.isLE_compare _ _).mp hle, hrows⟩

/-- **A written index opens.** -/
theorem exists_sortedIndex (h : Indexable source md sourceCol column) {idx : Bytes}
    (hwrite : writeSorted w source indexName column = .ok idx)
    (hshort : ∀ table, sortedTable w source indexName column = .ok table →
      ShortTable table.1 table.2) (hindexName : Clean indexName) (hsourceCol : Clean sourceCol) :
    ∃ index d, ParquetIndex.open idx source = .ok index ∧
      SortedIndex w index source md indexName sourceCol column d := by
  obtain ⟨entries, fp, t, file, rfl, hfp, hfile, hsorted, hrows⟩ := writeSorted_eq_ok w h hwrite hshort
  have hload := @loadIndexData_written _ w sourceCol indexName _ _ _ _ _ _ _ _ _ _ _ _ _ rfl hfile
  have hone := (rowGroupCount_written rfl hfile).2.2
  obtain ⟨index, hopen, hformat, hfound⟩ := hfile.open_sidecar ⟨hone, trivial⟩
    (SortedWriter.clean_entry hindexName hsourceCol _) hfp hload
  refine ⟨index, bodyOf entries, hopen, hformat, ⟨_, hfound, rfl⟩, aligned_bodyOf entries, hsorted, ?_⟩
  rwa [entries_bodyOf]

variable {w} [Std.LawfulOrderLT κ]

omit [LawfulPlatform] [FloatText] in
/-- **An equality lookup** selects the rows with the key. -/
theorem SortedIndex.lookupEq_selects
    (h : SortedIndex w index source md indexName sourceCol column d)
    (hsource : Indexable source md sourceCol column) (k : κ) : ∃ hits bitmaps,
      index.lookupEq indexName (KeyedWriter.key w k) = .ok hits ∧
      index.assembleBitmaps source indexName hits = .ok bitmaps ∧
      Selects bitmaps md fun g r => ∃ vs, w.read source g column = .ok vs ∧ vs[r]? = some k := by
  obtain ⟨hits, bitmaps, hhits, hbitmaps, hselects⟩ := h.selects hsource (· = k)
  obtain ⟨entry, hfound, hkind⟩ := h.found
  refine ⟨hits, bitmaps, ?_, hbitmaps, hselects.congr fun g r => by simp⟩
  rw [ParquetIndex.lookupEq, hfound, ok_bind, sortedPhysicalType, hkind]
  dsimp only
  rw [ok_bind, KeyedWriter.physicalType, if_neg (not_not.mpr rfl), KeyedWriter.eq, h.format,
    eqHits_eq h.aligned h.sorted, hhits]

omit [LawfulPlatform] [FloatText] [Std.LawfulOrderOrd κ] in
/-- **A range lookup** selects the rows between the ends; ends that are out of
    order have none between them. -/
theorem SortedIndex.lookupRange_selects
    (h : SortedIndex w index source md indexName sourceCol column d)
    (hsource : Indexable source md sourceCol column) (lo hi : κ) : ∃ hits bitmaps,
      index.lookupRange indexName (KeyedWriter.key w lo) (KeyedWriter.key w hi) = .ok hits ∧
      index.assembleBitmaps source indexName hits = .ok bitmaps ∧
      Selects bitmaps md fun g r =>
        ∃ vs v, w.read source g column = .ok vs ∧ vs[r]? = some v ∧ lo ≤ v ∧ v ≤ hi := by
  obtain ⟨hits, bitmaps, hhits, hbitmaps, hselects⟩ :=
    h.selects hsource fun v => lo ≤ v ∧ v ≤ hi
  obtain ⟨entry, hfound, hkind⟩ := h.found
  refine ⟨hits, bitmaps, ?_, hbitmaps, hselects⟩
  rw [ParquetIndex.lookupRange, hfound, ok_bind, sortedPhysicalType, hkind]
  dsimp only
  rw [ok_bind, KeyedWriter.physicalType, KeyedWriter.physicalType, if_neg (by simp),
    KeyedWriter.range, h.format, ← hhits]
  split
  · next hlt =>
    have hnone : d.entries.filter (fun e => decide (lo ≤ e.1 ∧ e.1 ≤ hi)) = [] := by
      rw [List.filter_eq_nil_iff]
      intro e _ hbetween
      rw [decide_eq_true_eq] at hbetween
      exact Std.not_lt.mpr (Std.le_trans hbetween.1 hbetween.2) hlt
    rw [hnone]
    rfl
  · next hle => exact rangeHits_eq h.aligned h.sorted (Std.not_lt.mp hle) _

/-- **Sorted indexes are exact**: an index that was written on a column opens,
    the bitmaps of the hits of a key have the rows of the column with that key
    and no others, and those of a range the rows between its ends. -/
theorem sortedIndex_exact (h : Indexable source md sourceCol column) {idx : Bytes}
    (hwrite : writeSorted w source indexName column = .ok idx)
    (hshort : ∀ table, sortedTable w source indexName column = .ok table →
      ShortTable table.1 table.2) (hindexName : Clean indexName) (hsourceCol : Clean sourceCol) :
    ∃ index, ParquetIndex.open idx source = .ok index ∧
      (∀ k, ∃ hits bitmaps, index.lookupEq indexName (KeyedWriter.key w k) = .ok hits ∧
        index.assembleBitmaps source indexName hits = .ok bitmaps ∧
        Selects bitmaps md fun g r => ∃ vs, w.read source g column = .ok vs ∧ vs[r]? = some k) ∧
      ∀ lo hi, ∃ hits bitmaps,
        index.lookupRange indexName (KeyedWriter.key w lo) (KeyedWriter.key w hi) = .ok hits ∧
        index.assembleBitmaps source indexName hits = .ok bitmaps ∧
        Selects bitmaps md fun g r =>
          ∃ vs v, w.read source g column = .ok vs ∧ vs[r]? = some v ∧ lo ≤ v ∧ v ≤ hi := by
  obtain ⟨index, d, hopen, hd⟩ := exists_sortedIndex w h hwrite hshort hindexName hsourceCol
  exact ⟨index, hopen, hd.lookupEq_selects h, hd.lookupRange_selects h⟩

end

/-- The index on the keys of the sample is written. -/
theorem writeSorted_keys : ∃ source idx, keysFile = .ok source ∧
    @writeSorted FloatText.hundredth Platform.stored _ _ _ (@SortedWriter.i64 Platform.stored) source
      "by_key" 0 = .ok idx ∧
    ∀ table, @sortedTable FloatText.hundredth _ _ _ (@SortedWriter.i64 Platform.stored) source
      "by_key" 0 = .ok table → @ShortTable Platform.stored table.1 table.2 := by
  let _ := Platform.stored
  let _ := FloatText.hundredth
  obtain ⟨source, table, t, hsource, htable, ht, hshort⟩ :=
    @shortTable_keys (fun source => sortedTable .i64 source "by_key" 0) 958 679
      (by decide +kernel) (by decide) (by decide)
  exact ⟨source, t.bytes, hsource, bind_eq_ok.mpr ⟨table, htable, map_eq_ok.mpr ⟨t, ht, rfl⟩⟩, hshort⟩

theorem sortedIndex_exact_sample : ∃ source md idx index, keysFile = .ok source ∧
    @ParquetIndex.open Platform.stored FloatText.hundredth idx source = .ok index ∧
    (∀ k, ∃ hits bitmaps, index.lookupEq "by_key" (.i64 k) = .ok hits ∧
      index.assembleBitmaps source "by_key" hits = .ok bitmaps ∧
      Selects bitmaps md fun g r =>
        ∃ vs, @readColumnI64 Platform.stored source g 0 = .ok vs ∧ vs[r]? = some k) ∧
    ∀ lo hi, ∃ hits bitmaps, index.lookupRange "by_key" (.i64 lo) (.i64 hi) = .ok hits ∧
      index.assembleBitmaps source "by_key" hits = .ok bitmaps ∧
      Selects bitmaps md fun g r => ∃ vs v, @readColumnI64 Platform.stored source g 0 = .ok vs ∧
        vs[r]? = some v ∧ lo ≤ v ∧ v ≤ hi := by
  let _ := Platform.stored
  let _ := Platform.stored_lawful
  let _ := FloatText.hundredth
  obtain ⟨source, idx, hsource, hwrite, hshort⟩ := writeSorted_keys
  obtain ⟨md, hindexable, -⟩ := indexable_keys hsource
  obtain ⟨index, hopen, hlookups⟩ :=
    sortedIndex_exact hindexable hwrite hshort (by decide +kernel) (by decide +kernel)
  exact ⟨source, md, idx, index, hsource, hopen, hlookups⟩

end EmatixParquet
