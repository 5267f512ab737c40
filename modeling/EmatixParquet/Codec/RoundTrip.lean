/-
  What is read of a table that was written.

  * `decodes_fixed`, `decodes_u64`, `decodes_byteArray`: the decoders undo the
    two encodings of a column;
  * `decodePages_eq`, `readChunkRaw_table`: the pages of a column are decoded to
    its values, and found where the footer says;
  * `decodeChunk_table`: each column of each row group is read back;
  * `opensTo_iff`: the table is, as long as the length of its footer fits in 32
    bits (`footer_text` makes one that does not).
-/
import EmatixParquet.Codec.Read
import EmatixParquet.Codec.Recorded

namespace EmatixParquet

open Wire

/-! ## Encodings -/

/-- The decoder reads the column as these values, however it was encoded. -/
structure Decodes {α : Type} (dec : PageDecoder α) (col : ColumnData) (values : List α) : Prop where
  length : values.length = col.rowCount
  plain : dec.plain col.encodePlain = .ok values
  dict : ∀ body len indices, col.encodeDict = some (body, len, indices) → ∃ dict,
    dec.plain body = .ok dict ∧ (values ≠ [] → dict ≠ []) ∧
      dec.dict dict values.length
        (minBitWidthForDict len :: encodeRleBitPacked indices (minBitWidthForDict len)) = .ok values

section
variable {α : Type} [DecidableEq α]

/-- The indices of a dictionary fit in its width. -/
theorem buildDict_indices {values dict : List α} {indices : List UInt32}
    (hlen : values.length < 2 ^ 31) (h : buildDict values = (dict, indices)) :
    indices.length = values.length ∧
      ∀ v ∈ indices, v.toNat < 2 ^ (minBitWidthForDict dict.length).toNat := by
  obtain ⟨hentries, hdict, -⟩ := entryOf_buildDict (by omega) h
  refine ⟨hentries.length_eq, fun v hv => ?_⟩
  obtain ⟨k, hk⟩ := List.mem_iff_getElem?.mp hv
  obtain ⟨hlt, rfl⟩ := List.getElem?_eq_some_iff.mp hk
  have hentry := (List.forall₂_iff_get.mp hentries).2 k hlt (hentries.length_eq ▸ hlt)
  exact lt_minBitWidthForDict (by omega) (List.getElem?_eq_some_iff.mp hentry).1

theorem decodes_fixed [FixedWidth α] {col : ColumnData} {values : List α}
    (hlen : values.length < 2 ^ 31) (hrows : values.length = col.rowCount)
    (hplain : col.encodePlain = encodePlainFixed values)
    (hdict : col.encodeDict = some (encodePlainFixed (buildDict values).1,
      (buildDict values).1.length, (buildDict values).2)) :
    Decodes fixedDecoder col values where
  length := hrows
  plain := by
    rw [hplain]
    exact decodePlainFixed_encodePlainFixed values
  dict body len indices h := by
    rw [hdict] at h
    cases h
    have hbuild : buildDict values = ((buildDict values).1, (buildDict values).2) := rfl
    obtain ⟨hentries, -, -, hne⟩ := entryOf_buildDict (by omega) hbuild
    obtain ⟨hindices, hlt⟩ := buildDict_indices hlen hbuild
    refine ⟨_, decodePlainFixed_encodePlainFixed _, hne, ?_⟩
    rw [← hindices]
    exact decodeRleDictionary_runs (minBitWidthForDict_le _) hlt hentries fun hbw =>
      encodeRleBitPacked_runs (minBitWidthForDict_le _) hbw hlt
        (by change _ < 2 ^ 58; omega)

end

/-- `values as i64`: the same bytes. -/
theorem decodes_u64 (values : List UInt64) :
    Decodes fixedDecoder (.u64 values) (values.map UInt64.toInt64) where
  length := by simp [ColumnData.rowCount]
  plain := by
    have hbytes : encodePlainU64 values = encodePlainI64 (values.map UInt64.toInt64) := by
      simp [encodePlainU64, encodePlainI64, encodePlainFixed, List.flatMap_map]
      rfl
    change decodePlainFixed (encodePlainU64 values) = _
    rw [hbytes]
    exact decodePlainFixed_encodePlainFixed _
  dict _ _ _ h := by cases h

/-- Byte arrays whose lengths fit in their prefixes. -/
theorem decodes_byteArray {values : List Bytes} (hlen : values.length < 2 ^ 31)
    (hvalues : ∀ v ∈ values, v.length < 2 ^ 32) :
    Decodes byteArrayDecoder (.byteArray values) values where
  length := rfl
  plain := decodePlainByteArray_encodePlainByteArray hvalues
  dict body len indices h := by
    have hdict : (ColumnData.byteArray values).encodeDict = some (encodePlainByteArray
        (buildDict values).1, (buildDict values).1.length, (buildDict values).2) := rfl
    rw [hdict] at h
    cases h
    have hbuild : buildDict values = ((buildDict values).1, (buildDict values).2) := rfl
    obtain ⟨hentries, -, hmem, hne⟩ := entryOf_buildDict (by omega) hbuild
    obtain ⟨hindices, hlt⟩ := buildDict_indices hlen hbuild
    refine ⟨_, decodePlainByteArray_encodePlainByteArray fun v hv => hvalues v (hmem v hv), hne, ?_⟩
    have hread := decodeRleDictionaryIndices_runs (minBitWidthForDict_le _) hlt fun hbw =>
      encodeRleBitPacked_runs (minBitWidthForDict_le _) hbw hlt
        (by change _ < 2 ^ 58; omega)
    rw [← hindices]
    refine bind_eq_ok.mpr ⟨_, hread, mapM_eq_ok.mpr (hentries.imp fun idx v hv => ?_)⟩
    rw [EntryOf] at hv
    rw [hv]
    rfl

/-! ## Pages -/

section
variable [Platform] [LawfulPlatform] {α : Type} {dec : PageDecoder α} {chunk : RawChunk}

omit [Platform] [LawfulPlatform] in
/-- Sizes below `2 ^ 31` are read as they were recorded. -/
theorem pageUncompressedSize_eq {hdr : PageHeader} {n : ℕ}
    (h : hdr.uncompressedPageSize = Int32.ofNat n) (hn : n < 2 ^ 31) :
    pageUncompressedSize hdr = .ok n := by
  have hpos : ¬ Int32.ofNat n < 0 := by
    rw [Int32.lt_iff_toInt_lt, toInt_i32_iff.mpr hn]
    simp
  rw [pageUncompressedSize, h, if_neg hpos, i32AsUsize_ofNat hn]

/-- A V1 page of a REQUIRED column. -/
theorem dataPageView_v1 {page : Page} {dph : DataPageHeader} {body : Bytes}
    (hdph : page.1.dataPageHeader = some dph)
    (hsize : page.1.uncompressedPageSize = Int32.ofNat body.length) (hbody : body.length < 2 ^ 31)
    (hcompress : compressBody body chunk.codec = .ok page.2)
    (hlevels : chunk.maxRepLevel = 0 ∧ chunk.maxDefLevel = 0) :
    dataPageView page chunk = .ok ⟨i32AsUsize dph.numValues, dph.encoding, body⟩ := by
  rw [dataPageView, pageUncompressedSize_eq hsize hbody, hdph]
  change dataPageViewV1 dph body.length page.2 chunk = _
  rw [dataPageViewV1, decompressInto_compressBody hbody hcompress]
  change (valuesAfterLevels body chunk >>= _) = _
  rw [valuesAfterLevels, if_pos hlevels]
  rfl

/-- A V2 page without levels. -/
theorem dataPageView_v2 {page : Page} {dph : DataPageHeaderV2} {body : Bytes}
    (hv1 : page.1.dataPageHeader = none) (hdph : page.1.dataPageHeaderV2 = some dph)
    (hsize : page.1.uncompressedPageSize = Int32.ofNat body.length) (hbody : body.length < 2 ^ 31)
    (hcompress : compressBody body chunk.codec = .ok page.2)
    (hcompressed : dph.isCompressed = decide (chunk.codec ≠ .uncompressed))
    (hlevels : dph.repetitionLevelsByteLength = 0 ∧ dph.definitionLevelsByteLength = 0) :
    dataPageView page chunk = .ok ⟨i32AsUsize dph.numValues, dph.encoding, body⟩ := by
  rw [dataPageView, pageUncompressedSize_eq hsize hbody, hv1, hdph]
  change dataPageViewV2 dph body.length page.2 chunk = _
  rw [dataPageViewV2, hlevels.1, hlevels.2]
  change (valuesAfterPrefix dph body.length 0 page.2 chunk >>= _) = _
  have hvalues : valuesAfterPrefix dph body.length 0 page.2 chunk = .ok body := by
    rw [valuesAfterPrefix, if_neg (Nat.not_lt_zero _)]
    by_cases hcodec : chunk.codec = .uncompressed
    · rw [hcodec] at hcompress
      cases hcompress
      rw [if_neg (by simp [hcodec]), List.drop_zero]
    · rw [if_pos (by simp [hcompressed, hcodec])]
      exact decompressInto_compressBody hbody hcompress
  rw [hvalues]
  rfl

/-- A page as the walker finds it. -/
def EncodedPage.page (p : EncodedPage) : Page := (p.header, p.body)

omit [LawfulPlatform] in
/-- The last page of a chunk, if it is a data page. -/
theorem decodeStep_data {page : Page} {s : DecodeState α} {info : DataPageInfo} {vs : List α}
    (hdata : page.1.pageType.IsData) (hinfo : dataPageView page chunk = .ok info)
    (hvs : decodeValues dec s.dict info = .ok vs) :
    (·.out) <$> foldPages (decodeStep dec chunk) s [page] = .ok (s.out ++ vs) := by
  have hpage : decodePage dec chunk s page = .ok { s with out := s.out ++ vs } := by
    rcases hdata with h | h <;>
    · rw [decodePage.eq_def, h]
      exact bind_eq_ok.mpr ⟨info, hinfo, bind_eq_ok.mpr ⟨vs, hvs, rfl⟩⟩
  have hstep : decodeStep dec chunk s page = .ok _ := bind_eq_ok.mpr ⟨_, hpage, rfl⟩
  rw [foldPages, hstep]
  by_cases hdone : chunk.totalValues ≤ (s.out ++ vs).length
  · rw [if_pos hdone]
    rfl
  · rw [if_neg hdone]
    rfl

/-- **The pages of a column** are decoded to its values. -/
theorem decodePages_eq {options : WriteOptions} {ix chunkRows : ℕ} {col : ColumnData}
    {c : EncodedColumn} {values : List α} (h : EncodedFrom options ix col chunkRows c)
    (hd : Decodes dec col values) (hrows : chunkRows = col.rowCount) (hlt : chunkRows < 2 ^ 31)
    (hpages : ∀ p ∈ c.dictionary.toList ++ [c.data],
      p.uncompressed.length < 2 ^ 31 ∧ p.body.length < 2 ^ 31)
    (hcodec : chunk.codec = options.codecOf ix) (htotal : chunk.totalValues = chunkRows)
    (hlevels : chunk.maxRepLevel = 0 ∧ chunk.maxDefLevel = 0) :
    (·.out) <$> foldPages (decodeStep dec chunk) {}
        ((c.dictionary.toList ++ [c.data]).map EncodedPage.page) = .ok values := by
  have hlength : values.length = chunkRows := by rw [hd.length, hrows]
  have hcount : i32AsUsize (Int32.ofNat chunkRows) = values.length := by
    rw [i32AsUsize_ofNat hlt, hlength]
  cases h with
  | @plain data hdict hdata =>
    obtain ⟨compressed, hcompress, hdata⟩ := bind_eq_ok.mp hdata
    cases hdata
    have hbody := (hpages _ (List.mem_singleton.mpr rfl)).1
    rw [← hcodec] at hcompress
    have hvs : decodeValues dec [] ⟨i32AsUsize (Int32.ofNat chunkRows), .plain, col.encodePlain⟩
        = .ok values := hd.plain
    cases hversion : options.pageVersion with
    | v1 =>
      rw [hversion] at hbody
      exact decodeStep_data (.inl rfl) (dataPageView_v1 rfl rfl hbody hcompress hlevels) hvs
    | v2 =>
      rw [hversion] at hbody
      exact decodeStep_data (.inr rfl)
        (dataPageView_v2 rfl rfl rfl hbody hcompress (by rw [hcodec]) ⟨rfl, rfl⟩) hvs
  | @dict dictionary data hdict hdata =>
    unfold encodeDictColumn at hdata
    cases henc : col.encodeDict with
    | none => simp [henc] at hdata
    | some enc =>
      obtain ⟨dictBody, dictLen, indices⟩ := enc
      rw [henc] at hdata
      obtain ⟨dictCompressed, hdictCompress, hdata⟩ := bind_eq_ok.mp hdata
      obtain ⟨dataCompressed, hcompress, hdata⟩ := bind_eq_ok.mp hdata
      cases hdata
      obtain ⟨dict, hplain, hne, hvalues⟩ := hd.dict _ _ _ henc
      have hdictBody := (hpages _ List.mem_cons_self).1
      have hbody := (hpages _ (List.mem_cons_of_mem _ (List.mem_singleton.mpr rfl))).1
      rw [← hcodec] at hdictCompress hcompress
      have hdictPage : decodePage dec chunk {} (EncodedPage.page
          { header := dictionaryPageHeader dictLen dictBody.length dictCompressed.length
            numValues := dictLen, uncompressed := dictBody, body := dictCompressed })
          = .ok { dict } := by
        refine bind_eq_ok.mpr ⟨dict, ?_, rfl⟩
        refine bind_eq_ok.mpr ⟨_, pageUncompressedSize_eq rfl hdictBody, ?_⟩
        exact bind_eq_ok.mpr ⟨_, decompressInto_compressBody hdictBody hdictCompress, hplain⟩
      have hstep : decodeStep dec chunk {} _ = .ok _ := bind_eq_ok.mpr ⟨_, hdictPage, rfl⟩
      rw [Option.toList_some, List.singleton_append, List.map_cons, List.map_singleton, foldPages,
        hstep]
      by_cases hempty : chunk.totalValues ≤ ({ dict } : DecodeState α).out.length
      · -- no rows: the loop ends after the dictionary
        have hnone : chunk.totalValues ≤ 0 := hempty
        rw [if_pos hempty, List.length_eq_zero_iff.mp (show values.length = 0 by omega)]
        rfl
      · have hsome : ¬ chunk.totalValues ≤ 0 := hempty
        have hdict : dict ≠ [] := hne (List.ne_nil_of_length_pos (by omega))
        have hvs : decodeValues dec dict ⟨i32AsUsize (Int32.ofNat chunkRows), .plainDictionary,
            minBitWidthForDict dictLen :: encodeRleBitPacked indices (minBitWidthForDict dictLen)⟩
            = .ok values := by
          rw [decodeValues.eq_def]
          dsimp only
          rw [if_neg hdict, hcount]
          exact hvalues
        rw [if_neg hempty]
        exact decodeStep_data (s := { dict }) (.inl rfl)
          (dataPageView_v1 rfl rfl hbody hcompress hlevels) hvs

/-! ## Chunks -/

omit [Platform] [LawfulPlatform] in
/-- `n as i64 as u64 as usize`. -/
theorem toNat_ofNat_i64 {n : ℕ} (h : n < 2 ^ 63) : (Int64.ofNat n).toUInt64.toNat = n := by
  change (UInt64.ofNat n).toNat = n
  exact UInt64.toNat_ofNat_of_lt' (by change n < 2 ^ 64; omega)

omit [Platform] [LawfulPlatform] in
/-- A column begins where it was placed. -/
theorem chunkRange_placeColumn {c : EncodedColumn} {written chunkRows : ℕ}
    {named : String × ColumnData} {codec : CompressionCodec} {cm : ColumnMetaData}
    (hcm : (footerColumn named.1 named.2 codec chunkRows (placeColumn written c)).metaData = some cm)
    (hlen : written + c.pageBytes.length < 2 ^ 63) :
    chunkRange cm = (written, c.pageBytes.length) := by
  have hpages := length_pageBytes c
  cases hcm
  cases hd : c.dictionary with
  | none =>
    simp only [hd, Option.elim_none, Nat.zero_add] at hpages
    simp only [chunkRange, placeColumn, hd, Option.map_none, Option.filter_none, Option.getD_none,
      Option.elim_none, Nat.add_zero, Nat.zero_add]
    rw [← hpages, toNat_ofNat_i64 (by omega), toNat_ofNat_i64 (by omega)]
  | some d =>
    have hdict : d.bytes.length = d.sizeWith d.body := List.length_append
    have hpos : 0 < d.bytes.length := by
      have hne : writePageHeader d.header ≠ [] := StructWriter.stop_ne_nil _
      have := List.length_pos_of_ne_nil hne
      rw [hdict, EncodedPage.sizeWith]
      omega
    simp only [hd, Option.elim_some] at hpages
    have hlt : Int64.ofNat written < Int64.ofNat (written + d.bytes.length) := by
      rw [Int64.lt_iff_toInt_lt, toInt_i64_iff.mpr (by omega), toInt_i64_iff.mpr (by omega)]
      omega
    simp only [chunkRange, placeColumn, hd, Option.map_some, Option.elim_some, ← hpages]
    rw [Option.filter_some, if_pos (by simpa using hlt), Option.getD_some,
      toNat_ofNat_i64 (by omega), toNat_ofNat_i64 (by omega)]

variable {columns : Columns} {options : WriteOptions} {t : WrittenTable} {file : ParquetFile}

omit [LawfulPlatform] in
/-- The schema of a table is flat. -/
theorem computeMaxLevels_table {ix : ℕ} (h : writtenTable columns options = .ok t)
    (hcolumns : columns.length < 2 ^ 31) (hix : ix < columns.length) :
    computeMaxLevels t.metadata.schema ix = .ok (0, 0) := by
  obtain ⟨-, -, hmd, -⟩ := writtenTable_eq_ok.mp h
  have hpos : 0 < Int32.ofNat columns.length := by
    rw [Int32.lt_iff_toInt_lt, toInt_i32_iff.mpr hcolumns]
    simp
    omega
  rw [hmd]
  refine computeMaxLevels_flat rfl hpos (fun el hel => ?_) (by simpa using hix)
  obtain ⟨named, -, rfl⟩ := List.mem_map.mp hel
  exact ⟨rfl, rfl⟩

omit [LawfulPlatform] in
/-- The metadata of a column is found in the footer. -/
theorem columnMetaData_table {r ix : ℕ} {g : EncodedGroup} {c : EncodedColumn}
    {named : String × ColumnData} (h : writtenTable columns options = .ok t)
    (hg : t.groups[r]? = some g) (hnamed : columns[ix]? = some named)
    (hc : g.columns[ix]? = some c) :
    ∃ cm, (footerColumn named.1 named.2 (options.codecOf ix) g.chunkRows
      (placeColumn (columnPrefix t.groups g r ix).length c)).metaData = some cm ∧
      columnMetaData t.metadata r ix = .ok cm := by
  obtain ⟨rg, hrg, hentry⟩ := footer_entries h hg hnamed hc
  refine ⟨_, rfl, ?_⟩
  rw [columnMetaData, hrg]
  refine bind_eq_ok.mpr ⟨_, rfl, ?_⟩
  rw [hentry]
  rfl

omit [LawfulPlatform] in
/-- **The chunk of a column** is its pages. -/
theorem readChunkRaw_table {r ix : ℕ} {g : EncodedGroup} {c : EncodedColumn}
    (h : writtenTable columns options = .ok t) (hlen : t.bytes.length < 2 ^ 63)
    (hcolumns : columns.length < 2 ^ 31) (hbytes : file.bytes = t.bytes)
    (hmd : file.metadata = .ok t.metadata) (hg : t.groups[r]? = some g)
    (hc : g.columns[ix]? = some c) (hrows : g.chunkRows < 2 ^ 31) :
    readChunkRaw file r ix = .ok
      { bytes := c.pageBytes, totalValues := g.chunkRows, codec := options.codecOf ix,
        maxRepLevel := 0, maxDefLevel := 0 } := by
  obtain ⟨named, -, hnamed, -⟩ := column_slice h hg hc
  obtain ⟨rest, hfile⟩ := @fileBytes_column _ t.footer _ _ _ _ hg hc
  have hpages : t.bytes = columnPrefix t.groups g r ix ++ (c.pageBytes ++ (c.bloom.getD [] ++ rest)) := by
    rw [WrittenTable.bytes, hfile, EncodedColumn.bytes, List.append_assoc]
  have hend : (columnPrefix t.groups g r ix).length + c.pageBytes.length ≤ t.bytes.length := by
    simp only [hpages, List.length_append]
    omega
  obtain ⟨cm, hmeta, hcm⟩ := columnMetaData_table h hg hnamed hc
  have hrange := chunkRange_placeColumn hmeta (lt_of_le_of_lt hend hlen)
  have hread : file.readRange (chunkRange cm).1 (chunkRange cm).2 = .ok c.pageBytes := by
    rw [hrange, ParquetFile.readRange_eq (by rw [hbytes]; exact hend), hbytes, hpages,
      List.drop_left, List.take_left]
  have hlevels := computeMaxLevels_table h hcolumns (List.getElem?_eq_some_iff.mp hnamed).1
  rw [readChunkRaw_eq hmd hcm hread hlevels]
  cases hmeta
  simp only [toNat_ofNat_i64 (show g.chunkRows < 2 ^ 63 by omega)]

/-! ## The table -/

omit [LawfulPlatform] in
/-- A footer shorter than 4 GiB describes fewer than `2 ^ 31` columns. -/
theorem columns_length_lt (h : writtenTable columns options = .ok t)
    (hfooter : t.footer.length < 2 ^ 32) : columns.length < 2 ^ 31 := by
  obtain ⟨-, henc, hmd, hw⟩ := writtenTable_eq_ok.mp h
  obtain ⟨-, hpos⟩ := groups_length h
  have hg : t.groups[0]? = some t.groups[0] := List.getElem?_eq_getElem hpos
  obtain ⟨range, -, -, hcolumns, -⟩ := encodeTable_group henc hg
  have hrg := List.mem_of_getElem? (getElem?_rowGroups h hg)
  have hle := length_le_writeFileMetadata hw hrg
  have hschema : t.metadata.schema.length = columns.length + 1 := by
    rw [hmd]
    simp [footerMetadata]
  have hplace : ∀ written (cs : List EncodedColumn), (placeColumns written cs).length = cs.length := by
    intro written cs
    induction cs generalizing written with
    | nil => rfl
    | cons c cs ih => rw [placeColumns, List.length_cons, ih, List.length_cons]
  rw [hschema] at hle
  simp only [footerGroup, List.length_map, List.length_zipIdx, List.length_zip, hplace,
    hcolumns, Nat.min_self] at hle
  omega

/-- The chunk that a column of a row group was written to. -/
structure ChunkOf (options : WriteOptions) (file : ParquetFile) (r ix : ℕ) (col : ColumnData)
    (c : EncodedColumn) : Prop where
  encoded : EncodedFrom options ix col col.rowCount c
  rows : col.rowCount < 2 ^ 31
  fits : ∀ p ∈ c.dictionary.toList ++ [c.data],
    p.uncompressed.length < 2 ^ 31 ∧ p.body.length < 2 ^ 31
  chunk : readChunkRaw file r ix = .ok
    { bytes := c.pageBytes, totalValues := col.rowCount, codec := options.codecOf ix,
      maxRepLevel := 0, maxDefLevel := 0 }
  pages : PagesOf c.pageBytes ((c.dictionary.toList ++ [c.data]).map EncodedPage.page)

omit [LawfulPlatform] in
/-- **The chunks of a written table** hold slices of its columns. -/
theorem exists_chunkOf {r ix : ℕ} {named : String × ColumnData}
    (h : writtenTable columns options = .ok t) (hfit : ColumnFits columns options ix)
    (hlen : t.bytes.length < 2 ^ 63) (hfooter : t.footer.length < 2 ^ 32)
    (hbytes : file.bytes = t.bytes) (hmd : file.metadata = .ok t.metadata)
    (hr : r < rowGroupCount (rowsOf columns) options.rowGroupSize)
    (hnamed : columns[ix]? = some named) :
    ∃ col c, named.2.slice (r * options.rowGroupSize)
        (min ((r + 1) * options.rowGroupSize) (rowsOf columns)) = .ok col ∧
      IsSlice columns options ix col ∧ ChunkOf options file r ix col c := by
  obtain ⟨-, henc, -⟩ := writtenTable_eq_ok.mp h
  obtain ⟨hn, -, hsize⟩ := totalRows_eq h
  obtain ⟨hcount, -⟩ := groups_length h
  have hg : t.groups[r]? = some t.groups[r] := List.getElem?_eq_getElem (hcount ▸ hr)
  obtain ⟨range, hrange, hrows, -, hcols⟩ := encodeTable_group henc hg
  obtain ⟨col, c, hslice, hc, hfrom⟩ := hcols ix named hnamed
  rw [hn] at hrange
  have hIsSlice : IsSlice columns options ix col :=
    ⟨named, range, hnamed, List.mem_of_getElem? hrange, hslice⟩
  obtain ⟨-, hrangeEq, -⟩ := getElem?_rowGroupRanges hsize hrange
  rw [hrangeEq] at hslice
  have hlt : t.groups[r].chunkRows < 2 ^ 31 :=
    lt_of_le_of_lt (chunkRows_le h hg).1 hfit.rows
  have hcolRows : t.groups[r].chunkRows = col.rowCount := by
    rw [hrows, rowCount_slice hslice, hrangeEq]
  have hchunk := readChunkRaw_table h hlen (columns_length_lt h hfooter) hbytes hmd hg hc hlt
  have hpagesFit := hfit.pages_lt hIsSlice hfrom.spec
  have hpages : PagesOf c.pageBytes ((c.dictionary.toList ++ [c.data]).map EncodedPage.page) := by
    have hflat : c.pageBytes
        = ((c.dictionary.toList ++ [c.data]).map EncodedPage.page).flatMap writePage := by
      cases hdict : c.dictionary <;>
        simp [EncodedColumn.pageBytes, hdict, EncodedPage.bytes, EncodedPage.page]
    rw [hflat]
    refine pagesOf_flatMap fun page hpage => ?_
    obtain ⟨p, hp, rfl⟩ := List.mem_map.mp hpage
    have hcast : p.Cast := by
      rcases List.mem_append.mp hp with hd | hd
      · exact hfrom.spec.dictCast p (Option.mem_toList.mp hd)
      · exact List.mem_singleton.mp hd ▸ hfrom.spec.dataCast
    refine ⟨?_, ?_⟩
    · have hmem : (writePage p.page).length ≤ c.pageBytes.length := by
        rw [hflat, List.flatMap_def]
        exact (List.sublist_flatten_of_mem (List.mem_map_of_mem hpage)).length_le
      obtain ⟨rest, hfile⟩ := @fileBytes_column _ t.footer _ _ _ _ hg hc
      have hend : c.pageBytes.length ≤ t.bytes.length := by
        rw [WrittenTable.bytes, hfile, EncodedColumn.bytes]
        simp only [List.length_append]
        omega
      rw [writePage, List.length_append] at hmem
      omega
    · exact (congrArg i32AsUsize hcast.2.1).trans (i32AsUsize_ofNat (hpagesFit p hp).2)
  exact ⟨col, c, hslice, hIsSlice,
    { encoded := hcolRows ▸ hfrom
      rows := hcolRows ▸ hlt
      fits := hpagesFit
      chunk := hcolRows ▸ hchunk
      pages := hpages }⟩

/-- Such a chunk is decoded to the values of the column. -/
theorem ChunkOf.decode {r ix : ℕ} {col : ColumnData} {c : EncodedColumn} {values : List α}
    (h : ChunkOf options file r ix col c) (hd : Decodes dec col values) :
    decodeChunk dec file r ix = .ok values := by
  rw [decodeChunk_eq dec h.chunk h.pages]
  exact decodePages_eq h.encoded hd rfl h.rows h.fits rfl rfl ⟨rfl, rfl⟩

/-- **A column of a written table** is decoded to its rows. -/
theorem decodeChunk_table {r ix : ℕ} {named : String × ColumnData}
    (h : writtenTable columns options = .ok t) (hfit : ColumnFits columns options ix)
    (hlen : t.bytes.length < 2 ^ 63) (hfooter : t.footer.length < 2 ^ 32)
    (hbytes : file.bytes = t.bytes) (hmd : file.metadata = .ok t.metadata)
    (hr : r < rowGroupCount (rowsOf columns) options.rowGroupSize)
    (hnamed : columns[ix]? = some named) :
    ∃ col, named.2.slice (r * options.rowGroupSize)
        (min ((r + 1) * options.rowGroupSize) (rowsOf columns)) = .ok col ∧
      IsSlice columns options ix col ∧
      ∀ {α : Type} {dec : PageDecoder α} {values : List α}, Decodes dec col values →
        decodeChunk dec file r ix = .ok values := by
  obtain ⟨col, c, hslice, hIsSlice, hchunk⟩ :=
    exists_chunkOf h hfit hlen hfooter hbytes hmd hr hnamed
  exact ⟨col, hslice, hIsSlice, fun hd => hchunk.decode hd⟩

omit [LawfulPlatform] in
/-- A written table opens to its footer, if that is shorter than 4 GiB. -/
theorem open_table (h : writtenTable columns options = .ok t)
    (hfooter : t.footer.length < 2 ^ 32) :
    ∃ file, ParquetFile.open t.bytes = .ok file ∧ file.bytes = t.bytes ∧
      file.footerBytes = t.footer ∧ file.metadata = .ok t.metadata := by
  obtain ⟨-, -, -, hw⟩ := writtenTable_eq_ok.mp h
  have hopen := @ParquetFile.open_frame (t.groups.flatMap EncodedGroup.bytes) _ hfooter
  exact ⟨_, hopen, rfl, rfl, ParquetFile.metadata_of_written hw (by dsimp only; omega)⟩

/-- The rows from `start` to `stop` of a column, read as its type is read. -/
def ReadsRows (file : ParquetFile) (r ix start stop : ℕ) : ColumnData → Prop
  | .i32 v => readColumnI32 file r ix = .ok ((v.take stop).drop start)
  | .i64 v => readColumnI64 file r ix = .ok ((v.take stop).drop start)
  | .u64 v => readColumnI64 file r ix = .ok (((v.take stop).drop start).map UInt64.toInt64)
  | .f64 v => readColumnF64 file r ix = .ok ((v.take stop).drop start)
  | .byteArray v => readColumnByteArray file r ix = .ok ((v.take stop).drop start)
  | .bool _ => False

/-- No boolean columns. -/
def NoBool (columns : Columns) : Prop := ∀ named ∈ columns, ∀ v, named.2 ≠ .bool v

/-- **The written bytes open to the table**: its footer, its row groups, and the
    rows of every column in each of them. -/
structure WrittenTable.OpensTo (t : WrittenTable) (columns : Columns) (options : WriteOptions)
    (file : ParquetFile) : Prop where
  opens : ParquetFile.open t.bytes = .ok file
  footer : file.footerBytes = t.footer
  rowGroups : ∃ md, file.metadata = .ok md ∧
    md.rowGroups.map (·.numRows.toInt)
      = (List.range (rowGroupCount (rowsOf columns) options.rowGroupSize)).map fun r =>
          ((min ((r + 1) * options.rowGroupSize) (rowsOf columns) - r * options.rowGroupSize : ℕ) : ℤ)
  rows : ∀ r < rowGroupCount (rowsOf columns) options.rowGroupSize, ∀ ix named,
    columns[ix]? = some named → ReadsRows file r ix (r * options.rowGroupSize)
      (min ((r + 1) * options.rowGroupSize) (rowsOf columns)) named.2

omit [LawfulPlatform] in
theorem numRows_table (h : writtenTable columns options = .ok t)
    (hrows : min (rowsOf columns) options.rowGroupSize < 2 ^ 31) :
    t.metadata.rowGroups.map (·.numRows.toInt)
      = (List.range (rowGroupCount (rowsOf columns) options.rowGroupSize)).map fun r =>
          ((min ((r + 1) * options.rowGroupSize) (rowsOf columns) - r * options.rowGroupSize : ℕ) : ℤ) := by
  obtain ⟨-, henc, hmd, -⟩ := writtenTable_eq_ok.mp h
  obtain ⟨hn, -, hsize⟩ := totalRows_eq h
  obtain ⟨hlength, hcount⟩ := rowGroups_length h
  refine List.ext_getElem (by simp [hlength, hcount]) fun r hr hr' => ?_
  rw [List.length_map, hlength] at hr
  have hg : t.groups[r]? = some t.groups[r] := List.getElem?_eq_getElem hr
  obtain ⟨range, hrange, hchunk, -⟩ := encodeTable_group henc hg
  obtain ⟨-, rfl, -⟩ := getElem?_rowGroupRanges hsize hrange
  have hlt := lt_of_le_of_lt (chunkRows_le h hg).1 hrows
  have hrg := getElem?_rowGroups h hg
  obtain ⟨hr'', hrg⟩ := List.getElem?_eq_some_iff.mp hrg
  rw [List.getElem_map, hrg, List.getElem_map, List.getElem_range]
  change (Int64.ofNat t.groups[r].chunkRows).toInt = _
  rw [toInt_i64_iff.mpr (by omega), hchunk, hn]

/-- **Round trip.**  A table of short pages is read back if and only if its
    footer is shorter than 4 GiB. -/
theorem opensTo_iff (h : writtenTable columns options = .ok t) (hlen : t.bytes.length < 2 ^ 63)
    (hfit : PagesFit columns options) (hbool : NoBool columns) :
    (∃ file, t.OpensTo columns options file) ↔ t.footer.length < 2 ^ 32 := by
  constructor
  · rintro ⟨file, hfile⟩
    have hopen := @ParquetFile.open_recorded (t.groups.flatMap EncodedGroup.bytes) t.footer
    have hopens : ParquetFile.open t.bytes = .ok _ := hopen
    rw [hfile.opens] at hopens
    cases hopens
    exact ParquetFile.recordedFooter_eq_iff.mp hfile.footer
  · intro hfooter
    obtain ⟨file, hopen, hbytes, hfooterBytes, hmd⟩ := open_table h hfooter
    refine ⟨file, hopen, hfooterBytes, ⟨_, hmd, numRows_table h hfit.rows⟩,
      fun r hr ix named hnamed => ?_⟩
    obtain ⟨col, hslice, hcol, hread⟩ :=
      decodeChunk_table h (hfit.column ix) hlen hfooter hbytes hmd hr hnamed
    obtain ⟨-, -, hsize⟩ := totalRows_eq h
    have hcolRows := lt_of_le_of_lt (hcol.rowCount_le hsize) hfit.rows
    obtain ⟨name, data⟩ := named
    cases data with
    | bool v => exact hbool _ (List.mem_of_getElem? hnamed) v rfl
    | u64 v =>
      obtain ⟨w, hw, rfl⟩ := map_eq_ok.mp hslice
      obtain ⟨-, -, rfl⟩ := slice_eq_ok.mp hw
      exact hread (decodes_u64 _)
    | byteArray v =>
      obtain ⟨w, hw, rfl⟩ := map_eq_ok.mp hslice
      obtain ⟨-, -, rfl⟩ := slice_eq_ok.mp hw
      refine hread (decodes_byteArray hcolRows fun b hb => ?_)
      obtain ⟨body, hbody, hle⟩ := @length_le_pageBodies (options.isDict ix) _ _ hb
        (le_of_lt (lt_trans hcolRows (by decide)))
      have := (hfit.pages ix _ hcol body hbody).1
      omega
    | _ v =>
      obtain ⟨w, hw, rfl⟩ := map_eq_ok.mp hslice
      obtain ⟨-, -, rfl⟩ := slice_eq_ok.mp hw
      exact hread (decodes_fixed hcolRows rfl rfl rfl)

end

/-! ## Samples -/

/-- A column of 64-bit integers, stored. -/
theorem pagesFit_i64 [Platform] {name : String} {v : List Int64} {options : WriteOptions}
    (hcodec : options.defaultCodec = .uncompressed) (hcodecs : options.codecPerColumn = none)
    (hdicts : options.dictPerColumn = none) (hsize : 0 < options.rowGroupSize)
    (hlen : v.length * 8 < 2 ^ 31) : PagesFit [(name, .i64 v)] options where
  rows := by
    change min v.length _ < _
    omega
  pages ix col hcol body hbody := by
    have hdict : options.isDict ix = false := by simp [WriteOptions.isDict, settingOf, hdicts]
    have hrows : col.rowCount ≤ v.length := (hcol.rowCount_le hsize).trans (Nat.min_le_left _ _)
    obtain ⟨named, range, hnamed, -, hslice⟩ := hcol
    have hbody : body.length < 2 ^ 31 := by
      rw [pageBodies, hdict, if_neg (by simp), List.mem_singleton] at hbody
      have := List.mem_of_getElem? hnamed
      rw [List.mem_singleton] at this
      subst this
      obtain ⟨w, -, rfl⟩ := map_eq_ok.mp hslice
      have hw : w.length ≤ v.length := hrows
      rw [hbody, ColumnData.encodePlain, encodePlainI64, length_encodePlainFixed]
      exact lt_of_le_of_lt (Nat.mul_le_mul_right 8 hw) hlen
    refine ⟨hbody, fun c hc => ?_⟩
    rw [WriteOptions.codecOf, settingOf, hcodecs, hcodec] at hc
    cases hc
    exact hbody

theorem opensTo_iff_sample : ∃ t, sampleFile = .ok t ∧
    ((∃ file, @WrittenTable.OpensTo Platform.stored t sampleTable { rowGroupSize := 1 } file) ↔
      t.footer.length < 2 ^ 32) := by
  let _ := Platform.stored
  let _ := Platform.stored_lawful
  have hbytes : (fun t => t.bytes.length) <$> sampleFile = .ok 372 := by decide +kernel
  obtain ⟨t, ht, hlen⟩ := map_eq_ok.mp hbytes
  have hfit : PagesFit sampleTable { rowGroupSize := 1 } :=
    pagesFit_i64 rfl rfl rfl (by decide) (by decide)
  have hbool : NoBool sampleTable := by simp [NoBool, sampleTable]
  exact ⟨t, ht, opensTo_iff ht (by rw [hlen]; decide) hfit hbool⟩

/-! ## A footer of 4 GiB -/

/-- The two writers are at the same field, the first `k` bytes further. -/
def LongerBy (k : ℕ) (w w₀ : StructWriter) : Prop :=
  w.prev = w₀.prev ∧ w.buf.length = w₀.buf.length + k

theorem LongerBy.field {k n : ℕ} {w w₀ : StructWriter} (h : LongerBy k w w₀) (id : Int16)
    (ty : FieldType) {body body₀ : Bytes} (hbody : body.length = body₀.length + n) :
    LongerBy (k + n) (w.field id ty body) (w₀.field id ty body₀) := by
  obtain ⟨hprev, hlen⟩ := h
  refine ⟨rfl, ?_⟩
  simp only [StructWriter.field, List.length_append, hprev]
  omega

theorem LongerBy.opt {α : Type} {k : ℕ} {w w₀ : StructWriter} (h : LongerBy k w w₀) (id : Int16)
    (ty : FieldType) (body : α → Bytes) (o : Option α) :
    LongerBy k (w.opt id ty body o) (w₀.opt id ty body o) := by
  cases o with
  | none => exact h
  | some a => exact h.field (n := 0) id ty rfl

theorem LongerBy.length_stop {k : ℕ} {w w₀ : StructWriter} (h : LongerBy k w w₀) :
    w.stop.length = w₀.stop.length + k := by
  simp only [StructWriter.stop, List.length_append, h.2]
  omega

/-- A key/value pair adds the length of its value to the footer. -/
theorem length_footer_keyValue {md : FileMetaData} {key value w w₀ : Bytes} {k : ℕ}
    (hw : writeFileMetadata { md with keyValueMetadata := some [⟨key, some value⟩] } = .ok w)
    (hw₀ : writeFileMetadata { md with keyValueMetadata := some [⟨key, some []⟩] } = .ok w₀)
    (hk : (writeBinary value).length = (writeBinary []).length + k) :
    w.length = w₀.length + k := by
  obtain ⟨schema, hschema, hw⟩ := bind_eq_ok.mp hw
  obtain ⟨rowGroups, hrowGroups, hw⟩ := bind_eq_ok.mp hw
  obtain ⟨-, hout⟩ := unsupported_bind_eq_ok.mp hw
  obtain ⟨schema₀, hschema₀, hw₀⟩ := bind_eq_ok.mp hw₀
  obtain ⟨rowGroups₀, hrowGroups₀, hw₀⟩ := bind_eq_ok.mp hw₀
  obtain ⟨-, hout₀⟩ := unsupported_bind_eq_ok.mp hw₀
  have hs : schema = schema₀ := Except.ok.inj (hschema.symm.trans hschema₀)
  have hr : rowGroups = rowGroups₀ := Except.ok.inj (hrowGroups.symm.trans hrowGroups₀)
  subst hs hr
  cases hout
  cases hout₀
  have hpair : (encodeKeyValue ⟨key, some value⟩).length
      = (encodeKeyValue ⟨key, some []⟩).length + (0 + k) :=
    (LongerBy.field ⟨rfl, rfl⟩ 2 .binary hk).length_stop
  have hlist : (writeListOf .struct encodeKeyValue [⟨key, some value⟩]).length
      = (writeListOf .struct encodeKeyValue [⟨key, some []⟩]).length + k := by
    simp only [writeListOf, List.length_append, List.map_cons, List.map_nil, List.flatten_cons,
      List.flatten_nil, List.length_nil, hpair, List.length_cons]
    omega
  have h5 : LongerBy (0 + k) _ _ := LongerBy.field (w := (((StructWriter.new.field 1 .i32
    (writeZigzagI32 md.version)).field 2 .list schema).field 3 .i64 (writeZigzagI64 md.numRows)).field
    4 .list rowGroups) ⟨rfl, rfl⟩ 5 .list hlist
  rw [Nat.zero_add] at h5
  exact (((h5.opt 6 .binary writeBinary md.createdBy).opt 8 .struct encodeEncryptionAlgorithm
    md.encryptionAlgorithm).opt 9 .binary writeBinary md.footerSigningKeyMetadata).length_stop

/-- `n` letters. -/
def letters (n : ℕ) : String := String.ofList (List.replicate n 'a')

theorem length_letters (n : ℕ) : (asBytes (letters n)).length = n := by
  rw [letters, asBytes_ofList, List.flatMap_replicate]
  simp [show String.utf8EncodeChar 'a' = [97] from by decide]

/-- One row, and a footer with a text of `n` letters. -/
def longFooter (n : ℕ) : WriteOptions := { kvMetadata := some [("", letters n)] }

/-- One key/value pair, with this text. -/
def textFooter (s : String) : WriteOptions := { kvMetadata := some [("", s)] }

/-- Only the footer depends on the text. -/
theorem footer_text [Platform] {columns : Columns} {s : String} {k : ℕ} {t t₀ : WrittenTable}
    (h : writtenTable columns (textFooter s) = .ok t)
    (h₀ : writtenTable columns (textFooter "") = .ok t₀)
    (hk : (writeBinary (asBytes s)).length = (writeBinary []).length + k) :
    t.groups = t₀.groups ∧ t.footer.length = t₀.footer.length + k := by
  have hgroups : ∀ s m, encodeTable columns (textFooter s) m = encodeTable columns {} m :=
    fun _ _ => rfl
  have hfooter : ∀ s m prepared, footerMetadata columns (textFooter s) m prepared
      = { footerMetadata columns {} m prepared with
          keyValueMetadata := some [⟨asBytes "", some (asBytes s)⟩] } :=
    fun _ _ _ => rfl
  obtain ⟨hn, -⟩ := totalRows_eq h
  obtain ⟨hn₀, -⟩ := totalRows_eq h₀
  obtain ⟨-, henc, hmd, hw⟩ := writtenTable_eq_ok.mp h
  obtain ⟨-, henc₀, hmd₀, hw₀⟩ := writtenTable_eq_ok.mp h₀
  rw [hgroups, hn] at henc
  rw [hgroups, hn₀] at henc₀
  have heq : t.groups = t₀.groups := Except.ok.inj (henc.symm.trans henc₀)
  rw [hmd, hfooter, hn, heq] at hw
  rw [hmd₀, hfooter, hn₀] at hw₀
  exact ⟨heq, length_footer_keyValue hw hw₀ hk⟩

/-- The text is `2 ^ 32 - 144` letters long, the footer `2 ^ 32` bytes: its
    recorded length is 0. -/
theorem footer_length_wraps : ∃ t file,
    @writtenTable Platform.stored [("a", .i64 [1])] (longFooter (2 ^ 32 - 144)) = .ok t ∧
    t.bytes.length < 2 ^ 63 ∧
    @PagesFit Platform.stored [("a", .i64 [1])] (longFooter (2 ^ 32 - 144)) ∧
    ParquetFile.open t.bytes = .ok file ∧ ∀ md, file.metadata ≠ .ok md := by
  let _ := Platform.stored
  obtain ⟨t, ht⟩ : ∃ t, writtenTable [("a", .i64 [1])] (longFooter (2 ^ 32 - 144)) = .ok t :=
    exists_writtenTable (n := 1) rfl rfl rfl rfl rfl
  have hsizes : (fun t => (t.footer.length, (t.groups.flatMap EncodedGroup.bytes).length)) <$>
      writtenTable [("a", .i64 [1])] (longFooter 0) = .ok (140, 71) := by decide +kernel
  obtain ⟨t₀, ht₀, hsizes⟩ := map_eq_ok.mp hsizes
  obtain ⟨hfooter₀, hbody⟩ := Prod.mk.inj hsizes
  have hk : (writeBinary (asBytes (letters (2 ^ 32 - 144)))).length
      = (writeBinary []).length + (2 ^ 32 - 140) := by
    have hpre : (writeUvarint (UInt64.ofNat (2 ^ 32 - 144))).length = 5 := by decide
    rw [writeBinary, List.length_append, length_letters, hpre]
    rfl
  obtain ⟨hgroups, hlen⟩ := footer_text ht ht₀ hk
  have hfooter : t.footer.length = 2 ^ 32 := by
    rw [hlen, hfooter₀]
    norm_num
  have hnone : ParquetFile.recordedFooter t.footer = [] := by
    rw [ParquetFile.recordedFooter, hfooter, ← hfooter, Nat.mod_self, Nat.sub_zero, List.drop_length]
  have hopen := @ParquetFile.open_recorded (t.groups.flatMap EncodedGroup.bytes) t.footer
  refine ⟨t, _, ht, ?_, pagesFit_i64 rfl rfl rfl (by decide) (by decide), hopen, fun md => ?_⟩
  · rw [WrittenTable.bytes, fileBytes, hgroups]
    simp only [List.length_append, hbody, hfooter, length_leBytes]
    decide
  · rw [ParquetFile.metadata, hnone]
    simp [show readFileMetadata.run [] = .error _ from rfl]

end EmatixParquet
