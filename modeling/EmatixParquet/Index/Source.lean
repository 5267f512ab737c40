/-
  Sources that this crate has written: each chunk has one data page, so an index
  can be built on any of their columns.

  * `walkDataPages_written`: the layout of a written chunk;
  * `WrittenFile.indexable`: the columns of a written file are indexable.
-/
import EmatixParquet.Index.Select
import EmatixParquet.Index.Sidecar

namespace EmatixParquet

open Wire

/-- A chunk that was read has its entry in the footer and its bytes in the
    file. -/
theorem walkDataPages_eq {file : ParquetFile} {md : FileMetaData} {rg column : ℕ} {chunk : RawChunk}
    {pages : List Page} (hmd : file.metadata = .ok md)
    (hchunk : readChunkRaw file rg column = .ok chunk) (hpages : PagesOf chunk.bytes pages) :
    walkDataPages file rg column = (·.visited) <$> foldPages layoutStep {} pages := by
  obtain ⟨md', hmd', hchunk⟩ := bind_eq_ok.mp hchunk
  rw [hmd, mapIo_ok] at hmd'
  cases hmd'
  obtain ⟨cm, hcm, hchunk⟩ := bind_eq_ok.mp hchunk
  obtain ⟨bytes, hbytes, hchunk⟩ := bind_eq_ok.mp hchunk
  obtain ⟨levels, -, hchunk⟩ := bind_eq_ok.mp hchunk
  cases hchunk
  obtain ⟨group, hgroup, hcm⟩ := bind_eq_ok.mp hcm
  obtain ⟨col, hcol, hcm⟩ := bind_eq_ok.mp hcm
  rw [okOr_eq_ok] at hgroup hcol hcm
  rw [mapIo_eq_ok] at hbytes
  rw [walkDataPages, hmd, mapIo_ok, ok_bind, hgroup, okOr_some, ok_bind, hcol, okOr_some, ok_bind, hcm,
    okOr_some, ok_bind, hbytes, mapIo_ok, ok_bind, walkPages_eq hpages]
  rfl

/-- There is nothing past the last row group. -/
theorem lt_of_walkDataPages {file : ParquetFile} {md : FileMetaData} {rg column : ℕ}
    {layouts : List DataPageLayout} (hmd : file.metadata = .ok md)
    (h : walkDataPages file rg column = .ok layouts) : rg < md.rowGroups.length := by
  rw [walkDataPages, hmd, mapIo_ok, ok_bind] at h
  obtain ⟨group, hgroup, -⟩ := bind_eq_ok.mp h
  exact (List.getElem?_eq_some_iff.mp (okOr_eq_ok.mp hgroup)).1

/-- A data page adds its rows. -/
theorem layoutStep_v1 {n : ℕ} (hn : n < 2 ^ 31) {u c : ℕ} {stats : ColumnStats} {body : Bytes}
    {encoding : Encoding} (s : LayoutState) :
    layoutStep s (dataPageHeaderV1 encoding n u c stats, body) = .ok (.inl (s.visit n)) := by
  change Except.ok (Sum.inl (s.visit (i32AsUsize (Int32.ofNat n)))) = _
  rw [i32AsUsize_ofNat hn]

theorem layoutStep_v2 {n : ℕ} (hn : n < 2 ^ 31) {u c : ℕ} {codec : CompressionCodec}
    {stats : ColumnStats} {body : Bytes} (s : LayoutState) :
    layoutStep s (dataPageHeaderV2 n u c codec stats, body) = .ok (.inl (s.visit n)) := by
  change Except.ok (Sum.inl (s.visit (i32AsUsize (Int32.ofNat n)))) = _
  rw [i32AsUsize_ofNat hn]

section
variable [Platform] {columns : Columns} {options : WriteOptions} {t : WrittenTable}
  {file : ParquetFile}

/-- **The layout of a written chunk**: all its rows are in one data page. -/
theorem walkDataPages_written {col : ColumnData} {c : EncodedColumn} {r ix : ℕ} {md : FileMetaData}
    (hmd : file.metadata = .ok md) (h : ChunkOf options file r ix col c) :
    walkDataPages file r ix = .ok (layoutsOf [col.rowCount]) := by
  rw [walkDataPages_eq hmd h.chunk h.pages]
  have hrows := h.rows
  cases h.encoded with
  | plain hdict hdata =>
    obtain ⟨compressed, -, hdata⟩ := bind_eq_ok.mp hdata
    cases hdata
    cases options.pageVersion with
    | v1 =>
      simp only [Option.toList_none, List.nil_append, List.map_singleton, EncodedPage.page, foldPages,
        layoutStep_v1 hrows]
      rfl
    | v2 =>
      simp only [Option.toList_none, List.nil_append, List.map_singleton, EncodedPage.page, foldPages,
        layoutStep_v2 hrows]
      rfl
  | dict hdict hdata =>
    rw [encodeDictColumn.eq_def] at hdata
    cases henc : col.encodeDict with
    | none =>
      rw [henc] at hdata
      cases hdata
    | some enc =>
      rw [henc] at hdata
      obtain ⟨dictCompressed, -, hdata⟩ := bind_eq_ok.mp hdata
      obtain ⟨dataCompressed, -, hdata⟩ := bind_eq_ok.mp hdata
      cases hdata
      have hskip : ∀ {d u n : ℕ} {body : Bytes}, layoutStep {} (dictionaryPageHeader d u n, body)
          = .ok (.inl {}) := rfl
      simp only [Option.toList_some, List.singleton_append, List.map_cons, List.map_nil,
        EncodedPage.page, foldPages, hskip, layoutStep_v1 hrows]
      rfl

/-- The rows of row group `g` of a table. -/
def groupSize (columns : Columns) (options : WriteOptions) (g : ℕ) : ℕ :=
  min ((g + 1) * options.rowGroupSize) (rowsOf columns) - g * options.rowGroupSize

/-- **A row group in the footer** has its rows. -/
theorem WrittenFile.numRows (h : WrittenFile t columns options file) {g : ℕ} {rg : RowGroup}
    (hrg : t.metadata.rowGroups[g]? = some rg) :
    g < rowGroupCount (rowsOf columns) options.rowGroupSize ∧
      rg.numRows.toUInt64.toNat = groupSize columns options g ∧
      groupSize columns options g < 2 ^ 31 := by
  obtain ⟨-, henc, -⟩ := writtenTable_eq_ok.mp h.written
  obtain ⟨hn, -, hsize⟩ := totalRows_eq h.written
  obtain ⟨hlength, hcount⟩ := rowGroups_length h.written
  obtain ⟨hlt, -⟩ := List.getElem?_eq_some_iff.mp hrg
  have hg : t.groups[g]? = some t.groups[g] := List.getElem?_eq_getElem (hlength ▸ hlt)
  obtain ⟨range, hrange, hchunk, -⟩ := encodeTable_group henc hg
  obtain ⟨-, rfl, -⟩ := getElem?_rowGroupRanges hsize hrange
  have hrows := lt_of_le_of_lt (chunkRows_le h.written hg).1 h.short.rows
  have hchunk : t.groups[g].chunkRows = groupSize columns options g := by
    rw [hchunk, hn]
    rfl
  rw [getElem?_rowGroups h.written hg, Option.some.injEq] at hrg
  subst hrg
  refine ⟨hcount ▸ hlength ▸ hlt, ?_, hchunk ▸ hrows⟩
  change (Int64.ofNat t.groups[g].chunkRows).toUInt64.toNat = _
  rw [toNat_ofNat_i64 (by omega), hchunk]

/-- **The layout of its chunks.** -/
theorem WrittenFile.walkDataPages (h : WrittenFile t columns options file) {g ix : ℕ}
    {named : String × ColumnData} (hnamed : columns[ix]? = some named)
    (hg : g < t.metadata.rowGroups.length) :
    walkDataPages file g ix = .ok (layoutsOf [groupSize columns options g]) := by
  obtain ⟨hlt, -⟩ := h.numRows (List.getElem?_eq_getElem hg)
  obtain ⟨col, c, hslice, -, hchunk⟩ := exists_chunkOf h.written (h.short.column ix)
    (h.short.bytes t h.written) (h.short.footer t h.written) h.bytes h.metadata hlt hnamed
  rw [walkDataPages_written h.metadata hchunk, rowCount_slice hslice]
  rfl

/-- **The columns of a written file** are indexable by their names. -/
theorem WrittenFile.indexable (h : WrittenFile t columns options file) {ix : ℕ} {name : String}
    {data : ColumnData} (hnamed : columns[ix]? = some (name, data))
    (hfirst : ∀ i < ix, ∀ named, columns[i]? = some named → named.1 ≠ name) :
    Indexable file t.metadata name ix where
  metadata := h.metadata
  ordinal := by
    obtain ⟨-, -, hmd, -⟩ := writtenTable_eq_ok.mp h.written
    obtain ⟨hlt, hget⟩ := List.getElem?_eq_some_iff.mp hnamed
    have hschema : t.metadata.schema.drop 1 = columns.map fun named => leafElement named.1 named.2 := by
      rw [hmd]
      rfl
    rw [leafOrdinal, hschema, List.findIdx?_eq_some_iff_getElem]
    refine ⟨by simpa using hlt, by simp [hget, leafElement], fun i hi => ?_⟩
    rw [List.getElem_map, leafElement, beq_iff_eq]
    intro heq
    have hne := hfirst i hi columns[i] (List.getElem?_eq_getElem _)
    have htext := congrArg fromUtf8 heq
    rw [fromUtf8_asBytes, fromUtf8_asBytes, Option.some.injEq] at htext
    exact hne htext
  pages hwalk := by
    rw [h.walkDataPages hnamed (lt_of_walkDataPages h.metadata hwalk)] at hwalk
    cases hwalk
    simp
  numRows := by
    intro g rg layouts hrg hwalk
    rw [h.walkDataPages hnamed (lt_of_walkDataPages h.metadata hwalk)] at hwalk
    cases hwalk
    rw [(h.numRows hrg).2.1, map_numValues_layoutsOf, List.sum_singleton]
  fits := by
    intro rg hmem
    obtain ⟨g, hrg⟩ := List.mem_iff_getElem?.mp hmem
    obtain ⟨-, hrows, hlt⟩ := h.numRows hrg
    omega

end

/-! ## A source -/

/-- Three columns of three rows, in two row groups. -/
def keysTable : Columns := [("key", .i64 [7, 5, 7]), ("value", .i64 [1, 2, 3]),
  ("text", .byteArray [[0x61, 0x20, 0x62], [0x62], [0x43, 0x20, 0x61]])]

/-- Row groups of two rows. -/
def keysOptions : WriteOptions := { rowGroupSize := 2 }

/-- The table of keys, written and opened. -/
def keysFile : Res CodecError ParquetFile := do
  let t ← @writtenTable Platform.stored keysTable keysOptions
  mapIo (fun e => .invalidInput e.display) (ParquetFile.open t.bytes)

/-- It is written and read. -/
theorem writtenFile_keys {source : ParquetFile} (h : keysFile = .ok source) :
    ∃ t, @WrittenFile Platform.stored t keysTable keysOptions source := by
  let _ := Platform.stored
  obtain ⟨t, ht, hopen⟩ := bind_eq_ok.mp h
  have hlengths : tableLengths (keysTable, keysOptions) = .ok (true, 926, 513) := by decide +kernel
  obtain ⟨hshort, -⟩ := shortTable_stored hlengths (by decide) (by decide)
  obtain ⟨file, hfile⟩ := exists_writtenFile ht hshort
  rw [hfile.opens, mapIo_ok] at hopen
  cases hopen
  exact ⟨t, hfile⟩

/-- Its columns are indexable. -/
theorem indexable_keys {source : ParquetFile} (h : keysFile = .ok source) : ∃ md,
    Indexable source md "key" 0 ∧ Indexable source md "text" 2 ∧
      leafOrdinal md.schema "value" = some 1 := by
  let _ := Platform.stored
  obtain ⟨t, hfile⟩ := writtenFile_keys h
  have hfirst : ∀ i < 2, ∀ named, keysTable[i]? = some named → named.1 ≠ "text" := by
    intro i hi named hnamed
    have h : i = 0 ∨ i = 1 := by omega
    rcases h with rfl | rfl <;> cases hnamed <;> decide
  have hnamed : keysTable[1]? = some ("value", .i64 [1, 2, 3]) := rfl
  have hvalue := hfile.indexable hnamed fun i hi named hnamed => by
    obtain rfl : i = 0 := by omega
    cases hnamed
    decide
  exact ⟨t.metadata, hfile.indexable rfl fun i hi => absurd hi (Nat.not_lt_zero i),
    hfile.indexable rfl hfirst, hvalue.ordinal⟩

/-- A table that is built on it, when it is short. -/
theorem shortTable_keys {table : ParquetFile → Res CodecError (Columns × WriteOptions)} {n m : ℕ}
    (hlengths : (do
      let source ← keysFile
      let built ← table source
      @tableLengths Platform.stored built) = .ok (true, n, m))
    (hn : n < 2 ^ 63) (hm : m < 2 ^ 32) : ∃ source built t, keysFile = .ok source ∧
      table source = .ok built ∧ @writtenTable Platform.stored built.1 built.2 = .ok t ∧
      ∀ built', table source = .ok built' → @ShortTable Platform.stored built'.1 built'.2 := by
  obtain ⟨source, hsource, hlengths⟩ := bind_eq_ok.mp hlengths
  obtain ⟨built, hbuilt, hlengths⟩ := bind_eq_ok.mp hlengths
  obtain ⟨hshort, t, ht⟩ := shortTable_stored hlengths hn hm
  refine ⟨source, built, t, hsource, hbuilt, ht, fun built' hbuilt' => ?_⟩
  cases hbuilt.symm.trans hbuilt'
  exact hshort

end EmatixParquet
