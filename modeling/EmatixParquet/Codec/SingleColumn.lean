/-
  Files of a single column (the writers of `write.rs` that take no table).

  * `WrittenColumn.Of.chunkOf`: the only chunk of such a file is that of its column;
  * `writeColumn_read`: what is written is read back, whole or at the rows of a mask;
  * `writeColumn_table`: the table writer writes the same pages, and the same footer but
    for the ordinal of the row group.
-/
import EmatixParquet.Codec.AttachedBloom
import EmatixParquet.Codec.MaskedWritten
import EmatixParquet.Index.Sidecar

namespace EmatixParquet

open Wire

/-! ## The writers -/

/-- What is written: the pages and the filter of the column, and the footer. -/
structure WrittenColumn where
  encoded : EncodedColumn
  metadata : FileMetaData
  footer : Bytes

/-- The file: the column between the magics, then the footer and its length. -/
def WrittenColumn.bytes (w : WrittenColumn) : Bytes :=
  parquetMagic ++ w.encoded.bytes ++ w.footer ++ leBytes 4 w.footer.length ++ parquetMagic

/-- The footer entry of the chunk. -/
def singleColumnChunk (columnName : String) (parquetType : ParquetType) (numValues : ℕ)
    (codec : CompressionCodec) (prep : PreparedColumn) : ColumnChunk where
  fileOffset := prep.dictionaryPageOffset.getD prep.dataPageOffset
  metaData := some
    { columnType := parquetType
      encodings := if prep.dictionaryPageOffset.isSome then [.plain, .rle, .plainDictionary]
        else [.plain, .rle]
      pathInSchema := [asBytes columnName]
      codec
      numValues := Int64.ofNat numValues
      totalUncompressedSize := prep.totalUncompressedSize
      totalCompressedSize := prep.totalCompressedSize
      keyValueMetadata := none
      dataPageOffset := prep.dataPageOffset
      indexPageOffset := none
      dictionaryPageOffset := prep.dictionaryPageOffset
      statistics := some prep.stats.asStatistics
      encodingStats := none
      bloomFilterOffset := prep.bloomFilterOffset
      bloomFilterLength := prep.bloomFilterLength
      sizeStatistics := none }

/-- A root with one leaf, and one row group without an ordinal. -/
def singleColumnMetadata (columnName : String) (parquetType : ParquetType) (numValues : ℕ)
    (codec : CompressionCodec) (prep : PreparedColumn) : FileMetaData where
  version := 1
  schema := [{ name := asBytes "schema", numChildren := some 1 },
    { columnType := some parquetType, repetitionType := some .required, name := asBytes columnName }]
  numRows := Int64.ofNat numValues
  rowGroups := [
    { columns := [singleColumnChunk columnName parquetType numValues codec prep]
      totalByteSize := prep.totalUncompressedSize
      numRows := Int64.ofNat numValues
      ordinal := none }]
  createdBy := some (asBytes "ematix-parquet 0.0.1")

/-- The footer after the pages, which begin behind the magic. -/
def finishColumn (columnName : String) (parquetType : ParquetType) (numValues : ℕ)
    (codec : CompressionCodec) (encoded : EncodedColumn) : Res CodecError WrittenColumn := do
  let metadata := singleColumnMetadata columnName parquetType numValues codec (placeColumn 4 encoded)
  let footer ← (writeFileMetadata metadata).mapError (Fault.map .wire)
  pure { encoded, metadata, footer }

section
variable [Platform]

/-- `write_single_column_inner`: a PLAIN page, and a filter if one is given. -/
def writeSingleColumnInner (columnName : String) (parquetType : ParquetType) (numValues : ℕ)
    (body : Bytes) (codec : CompressionCodec) (stats : ColumnStats) (bloomBytes : Option Bytes) :
    Res CodecError WrittenColumn := do
  let compressedBody ← compressBody body codec
  let header := dataPageHeaderV1 .plain numValues body.length compressedBody.length stats
  finishColumn columnName parquetType numValues codec
    { dictionary := none
      data := { header, numValues, uncompressed := body, body := compressedBody }
      stats
      bloom := bloomBytes }

/-- `write_single_column_dict_inner`: a dictionary page, and a page of indices. -/
def writeSingleColumnDictInner (columnName : String) (parquetType : ParquetType) (numValues : ℕ)
    (dictBody : Bytes) (dictLen : ℕ) (indices : List UInt32) (codec : CompressionCodec)
    (stats : ColumnStats) (bloomBytes : Option Bytes) : Res CodecError WrittenColumn := do
  let dictCompressed ← compressBody dictBody codec
  let dictHeader := dictionaryPageHeader dictLen dictBody.length dictCompressed.length
  let bitWidth := minBitWidthForDict dictLen
  let dataBody := bitWidth :: encodeRleBitPacked indices bitWidth
  let dataCompressed ← compressBody dataBody codec
  let dataHeader := dataPageHeaderV1 .plainDictionary numValues dataBody.length
    dataCompressed.length stats
  finishColumn columnName parquetType numValues codec
    { dictionary := some { header := dictHeader, numValues := dictLen, uncompressed := dictBody,
                           body := dictCompressed }
      data := { header := dataHeader, numValues, uncompressed := dataBody, body := dataCompressed }
      stats
      bloom := bloomBytes }

/-- A PLAIN column, with a filter of all its values if a rate is given. -/
def writeColumn (name : String) (col : ColumnData) (codec : CompressionCodec)
    (targetFpp : Option F64) : Res CodecError WrittenColumn :=
  writeSingleColumnInner name col.parquetType col.rowCount col.encodePlain codec (computeStats col)
    (targetFpp.map (buildBloomForColumn col))

/-- `write_i64_column`, and with a codec or a filter. -/
def writeI64Column (name : String) (values : List Int64) :=
  writeColumn name (.i64 values)

/-- `write_i32_column`, and with a codec or a filter. -/
def writeI32Column (name : String) (values : List Int32) :=
  writeColumn name (.i32 values)

/-- `write_f64_column`, and with a codec or a filter. -/
def writeF64Column (name : String) (values : List F64) :=
  writeColumn name (.f64 values)

/-- `write_byte_array_column`, and with a codec or a filter. -/
def writeByteArrayColumn (name : String) (values : List Bytes) :=
  writeColumn name (.byteArray values)

/-- `write_bool_column`, and with a codec. -/
def writeBoolColumn (name : String) (values : List Bool) (codec : CompressionCodec) :=
  writeColumn name (.bool values) codec none

/-- The distinct values of a column with a dictionary. -/
def ColumnData.distinct : ColumnData → ColumnData
  | i32 v => i32 (buildDict v).1
  | i64 v => i64 (buildDict v).1
  | f64 v => f64 (buildDict v).1
  | byteArray v => byteArray (buildDict v).1
  | col => col

/-- A column with the dictionary of its distinct values, and with a filter of those if
    a rate is given. -/
def writeColumnDict (name : String) (col : ColumnData) (dict : Bytes × ℕ × List UInt32)
    (codec : CompressionCodec) (targetFpp : Option F64) : Res CodecError WrittenColumn :=
  writeSingleColumnDictInner name col.parquetType col.rowCount dict.1 dict.2.1 dict.2.2 codec
    (computeStats col) (targetFpp.map (buildBloomForColumn col.distinct))

/-- `write_i64_column_dict_to_path`, and with a filter. -/
def writeI64ColumnDict (name : String) (values : List Int64) :=
  let (dict, indices) := buildDict values
  writeColumnDict name (.i64 values) (encodePlainI64 dict, dict.length, indices)

/-- `write_i32_column_dict_to_path`, and with a filter. -/
def writeI32ColumnDict (name : String) (values : List Int32) :=
  let (dict, indices) := buildDict values
  writeColumnDict name (.i32 values) (encodePlainI32 dict, dict.length, indices)

/-- `write_f64_column_dict_to_path`, and with a filter. -/
def writeF64ColumnDict (name : String) (values : List F64) :=
  let (dict, indices) := buildDict values
  writeColumnDict name (.f64 values) (encodePlainF64 dict, dict.length, indices)

/-- `write_byte_array_column_dict_to_path`, and with a filter. -/
def writeByteArrayColumnDict (name : String) (values : List Bytes) :=
  let (dict, indices) := buildDict values
  writeColumnDict name (.byteArray values) (encodePlainByteArray dict, dict.length, indices)

end

/-! ## What a file consists of -/

theorem mapError_eq_ok {α ε ε' : Type} {x : Except ε α} {f : ε → ε'} {a : α} :
    x.mapError f = .ok a ↔ x = .ok a := by
  cases x <;> simp [Except.mapError]

theorem finishColumn_eq_ok {name : String} {parquetType : ParquetType} {numValues : ℕ}
    {codec : CompressionCodec} {encoded : EncodedColumn} {w : WrittenColumn} :
    finishColumn name parquetType numValues codec encoded = .ok w ↔
      w.encoded = encoded ∧
      w.metadata = singleColumnMetadata name parquetType numValues codec (placeColumn 4 encoded) ∧
      writeFileMetadata w.metadata = .ok w.footer := by
  obtain ⟨encoded', metadata, footer⟩ := w
  simp only [finishColumn, bind_eq_ok, mapError_eq_ok]
  constructor
  · rintro ⟨footer', hfooter, hw⟩
    cases hw
    exact ⟨rfl, rfl, hfooter⟩
  · rintro ⟨rfl, rfl, hfooter⟩
    exact ⟨footer, hfooter, rfl⟩

/-- The options of a table with one such column. -/
def singleOptions (codec : CompressionCodec) (isDict : Bool) (targetFpp : Option F64) :
    WriteOptions where
  defaultCodec := codec
  dictPerColumn := some [isDict]
  bloomFpps := some [targetFpp]

section
variable [Platform] {name : String} {col : ColumnData} {codec : CompressionCodec} {isDict : Bool}
  {targetFpp : Option F64} {w : WrittenColumn}

/-- What a column was written to: the pages of the table writer, whatever the filter. -/
structure WrittenColumn.Of (w : WrittenColumn) (name : String) (col : ColumnData)
    (codec : CompressionCodec) (isDict : Bool) : Prop where
  encoded : EncodedFrom (singleOptions codec isDict none) 0 col col.rowCount
    { w.encoded with bloom := none }
  metadata : w.metadata = singleColumnMetadata name col.parquetType col.rowCount codec
    (placeColumn 4 w.encoded)
  footer : writeFileMetadata w.metadata = .ok w.footer

/-- The page is that of the table writer. -/
theorem writeColumn_eq : writeColumn name col codec targetFpp = (do
    let data ← encodePlainColumn .v1 codec col col.rowCount (computeStats col)
    finishColumn name col.parquetType col.rowCount codec
      { dictionary := none, data, stats := computeStats col
        bloom := targetFpp.map (buildBloomForColumn col) }) := by
  rw [writeColumn, writeSingleColumnInner, encodePlainColumn]
  cases compressBody col.encodePlain codec <;> rfl

/-- And so are the dictionary and the indices. -/
theorem writeColumnDict_eq {dict : Bytes × ℕ × List UInt32} (h : col.encodeDict = some dict) :
    writeColumnDict name col dict codec targetFpp = (do
      let pages ← encodeDictColumn codec col col.rowCount (computeStats col)
      finishColumn name col.parquetType col.rowCount codec
        { dictionary := some pages.1, data := pages.2, stats := computeStats col
          bloom := targetFpp.map (buildBloomForColumn col.distinct) }) := by
  obtain ⟨dictBody, dictLen, indices⟩ := dict
  rw [writeColumnDict, writeSingleColumnDictInner, encodeDictColumn, h]
  dsimp only
  cases compressBody dictBody codec with
  | error e => rfl
  | ok dictCompressed =>
    rw [ok_bind, ok_bind]
    cases compressBody (minBitWidthForDict dictLen ::
      encodeRleBitPacked indices (minBitWidthForDict dictLen)) codec <;> rfl

theorem writeColumn_eq_ok :
    writeColumn name col codec targetFpp = .ok w ↔
      w.Of name col codec false ∧ w.encoded.bloom = targetFpp.map (buildBloomForColumn col) := by
  rw [writeColumn_eq, bind_eq_ok]
  obtain ⟨⟨dictionary, data, stats, bloom⟩, metadata, footer⟩ := w
  constructor
  · rintro ⟨data', hdata, hw⟩
    obtain ⟨hencoded, hmd, hfooter⟩ := finishColumn_eq_ok.mp hw
    cases hencoded
    exact ⟨⟨.plain rfl hdata, hmd, hfooter⟩, rfl⟩
  · rintro ⟨⟨hencoded, hmd, hfooter⟩, hbloom⟩
    cases hbloom
    cases hencoded with
    | plain _ hdata => exact ⟨data, hdata, finishColumn_eq_ok.mpr ⟨rfl, hmd, hfooter⟩⟩
    | dict hdict => cases hdict

theorem writeColumnDict_eq_ok {dict : Bytes × ℕ × List UInt32} (h : col.encodeDict = some dict) :
    writeColumnDict name col dict codec targetFpp = .ok w ↔
      w.Of name col codec true ∧
        w.encoded.bloom = targetFpp.map (buildBloomForColumn col.distinct) := by
  rw [writeColumnDict_eq h, bind_eq_ok]
  obtain ⟨⟨dictionary, data, stats, bloom⟩, metadata, footer⟩ := w
  constructor
  · rintro ⟨pages, hpages, hw⟩
    obtain ⟨hencoded, hmd, hfooter⟩ := finishColumn_eq_ok.mp hw
    cases hencoded
    exact ⟨⟨.dict rfl hpages, hmd, hfooter⟩, rfl⟩
  · rintro ⟨⟨hencoded, hmd, hfooter⟩, hbloom⟩
    cases hbloom
    cases hencoded with
    | plain hdict => cases hdict
    | dict _ hpages => exact ⟨_, hpages, finishColumn_eq_ok.mpr ⟨rfl, hmd, hfooter⟩⟩

/-- Short enough to be read back. -/
structure WrittenColumn.Short (w : WrittenColumn) (rows : ℕ) : Prop where
  rows : rows < 2 ^ 31
  bytes : w.bytes.length < 2 ^ 63
  footer : w.footer.length < 2 ^ 32
  pages : ∀ p ∈ w.encoded.dictionary.toList ++ [w.encoded.data],
    p.uncompressed.length < 2 ^ 31 ∧ p.body.length < 2 ^ 31

omit [Platform] in
/-- The pages of a column, one after the other. -/
theorem EncodedColumn.pageBytes_eq (c : EncodedColumn) :
    c.pageBytes = ((c.dictionary.toList ++ [c.data]).map EncodedPage.page).flatMap writePage := by
  cases hdict : c.dictionary <;>
    simp [EncodedColumn.pageBytes, hdict, EncodedPage.bytes, EncodedPage.page]

/-- Pages whose headers count them are walked one by one. -/
theorem EncodedColumn.Spec.pagesOf {options : WriteOptions} {c : EncodedColumn}
    (h : c.Spec options 0 col col.rowCount) (hlen : c.pageBytes.length < 2 ^ 64)
    (hpages : ∀ p ∈ c.dictionary.toList ++ [c.data], p.body.length < 2 ^ 31) :
    PagesOf c.pageBytes ((c.dictionary.toList ++ [c.data]).map EncodedPage.page) := by
  rw [c.pageBytes_eq] at hlen ⊢
  refine pagesOf_flatMap ?_
  intro page hpage
  have hmem : (writePage page).length
      ≤ (((c.dictionary.toList ++ [c.data]).map EncodedPage.page).flatMap writePage).length := by
    rw [List.flatMap_def]
    exact (List.sublist_flatten_of_mem (List.mem_map_of_mem hpage)).length_le
  rw [writePage, List.length_append] at hmem
  obtain ⟨p, hp, rfl⟩ := List.mem_map.mp hpage
  have hcast : p.Cast := by
    rcases List.mem_append.mp hp with hd | hd
    · exact h.dictCast p (Option.mem_toList.mp hd)
    · exact List.mem_singleton.mp hd ▸ h.dataCast
  refine ⟨by omega, ?_⟩
  exact (congrArg i32AsUsize hcast.2.1).trans (i32AsUsize_ofNat (hpages p hp))

omit [Platform] in
/-- The pages are behind the magic, and the filter behind them. -/
theorem WrittenColumn.bytes_eq (w : WrittenColumn) : ∃ rest, w.bytes
    = parquetMagic ++ (w.encoded.pageBytes ++ (w.encoded.bloom.getD [] ++ rest)) := by
  refine ⟨w.footer ++ (leBytes 4 w.footer.length ++ parquetMagic), ?_⟩
  simp [WrittenColumn.bytes, EncodedColumn.bytes]

/-- The metadata of the only column. -/
theorem WrittenColumn.Of.columnMetaData (h : w.Of name col codec isDict) :
    ∃ cm, EmatixParquet.columnMetaData w.metadata 0 0 = .ok cm ∧
      (footerColumn name col codec col.rowCount (placeColumn 4 w.encoded)).metaData = some cm := by
  rw [h.metadata]
  exact ⟨_, rfl, rfl⟩

/-- **The chunk of the file** is that of its column. -/
theorem WrittenColumn.Of.chunkOf (h : w.Of name col codec isDict) (hshort : w.Short col.rowCount) :
    ∃ file, ParquetFile.open w.bytes = .ok file ∧ file.metadata = .ok w.metadata ∧
      ChunkOf (singleOptions codec isDict none) file 0 0 col { w.encoded with bloom := none } := by
  have hfooter := hshort.footer
  have hlt := hshort.bytes
  have hrows := hshort.rows
  obtain ⟨file, hopen, hfile, hfooterBytes⟩ : ∃ file, ParquetFile.open w.bytes = .ok file ∧
      file.bytes = w.bytes ∧ file.footerBytes = w.footer :=
    ⟨_, ParquetFile.open_frame hfooter, rfl, rfl⟩
  have hmd : file.metadata = .ok w.metadata :=
    ParquetFile.metadata_of_written (hfooterBytes ▸ h.footer) (by rw [hfooterBytes]; omega)
  have hmagic : parquetMagic.length = 4 := rfl
  obtain ⟨rest, hbytes⟩ := w.bytes_eq
  have hlen : 4 + w.encoded.pageBytes.length ≤ w.bytes.length := by
    rw [hbytes]
    simp only [List.length_append]
    omega
  have hlevels : computeMaxLevels w.metadata.schema 0 = .ok (0, 0) := by
    rw [h.metadata]
    refine computeMaxLevels_flat (rfl : _ = some (1 : Int32)) (by decide) ?_ (by simp)
    intro el hel
    rw [List.mem_singleton.mp hel]
    exact ⟨rfl, rfl⟩
  obtain ⟨cm, hcm, hmeta⟩ := h.columnMetaData
  have hrange : chunkRange cm = (4, w.encoded.pageBytes.length) :=
    @chunkRange_placeColumn _ 4 col.rowCount (name, col) codec cm hmeta (by omega)
  have hread : file.readRange (chunkRange cm).1 (chunkRange cm).2 = .ok w.encoded.pageBytes := by
    rw [hrange, ParquetFile.readRange_eq (by rw [hfile]; exact hlen), hfile, hbytes]
    dsimp only
    rw [List.drop_left' hmagic, List.take_left]
  have hchunk := readChunkRaw_eq hmd hcm hread hlevels
  cases hmeta
  simp only [toNat_ofNat_i64 (show col.rowCount < 2 ^ 63 by omega)] at hchunk
  exact ⟨file, hopen, hmd,
    { encoded := h.encoded
      rows := hrows
      fits := hshort.pages
      chunk := hchunk
      pages := h.encoded.spec.pagesOf (lt_of_le_of_lt (Nat.le_of_add_left_le hlen)
        (hlt.trans (by decide))) fun p hp => (hshort.pages p hp).2 }⟩

/-- Byte arrays on short pages are short. -/
theorem WrittenColumn.Of.length_lt {values : List Bytes} (h : w.Of name (.byteArray values) codec isDict)
    (hshort : w.Short values.length) : ∀ v ∈ values, v.length < 2 ^ 32 := by
  intro v hv
  have hrows := hshort.rows
  obtain ⟨body, hbody, hle⟩ := @length_le_pageBodies isDict _ _ hv (by omega)
  rw [show pageBodies isDict (.byteArray values) = _ from h.encoded.spec.bodies] at hbody
  obtain ⟨p, hp, rfl⟩ := List.mem_map.mp hbody
  have hpage := (hshort.pages p hp).1
  omega

end

/-! ## Reading back -/

/-- The file opens to its footer, and both readers of the column return its values. -/
def WrittenColumn.ReadsBack {α : Type} (w : WrittenColumn)
    (read : ParquetFile → ℕ → ℕ → Res CodecError (List α))
    (readMasked : ParquetFile → ℕ → ℕ → Bytes → List α → Res CodecError (List α)) (v : List α) :
    Prop :=
  ∃ file, ParquetFile.open w.bytes = .ok file ∧ file.metadata = .ok w.metadata ∧
    read file 0 0 = .ok v ∧ FiltersRead (readMasked file 0 0) v.length v

section
variable [Platform] [LawfulPlatform] {name : String} {col : ColumnData} {codec : CompressionCodec}
  {isDict : Bool} {targetFpp : Option F64} {w : WrittenColumn}

theorem WrittenColumn.Of.readsFixed {α : Type} [FixedWidth α] {v : List α}
    (h : w.Of name col codec isDict) (hshort : w.Short col.rowCount)
    (hd : Decodes fixedDecoder col v) :
    w.ReadsBack (decodeChunk fixedDecoder) decodeChunkMasked v := by
  obtain ⟨file, hopen, hmd, hchunk⟩ := h.chunkOf hshort
  refine ⟨file, hopen, hmd, hchunk.decode hd, ?_⟩
  rw [hd.length]
  exact hchunk.filtersRead hd

theorem WrittenColumn.Of.readsBytes {v : List Bytes} (h : w.Of name (.byteArray v) codec isDict)
    (hshort : w.Short v.length) :
    w.ReadsBack readColumnByteArray readColumnByteArrayMasked v := by
  obtain ⟨file, hopen, hmd, hchunk⟩ := h.chunkOf hshort
  have hlen := h.length_lt hshort
  exact ⟨file, hopen, hmd, hchunk.decode (decodes_byteArray hshort.rows hlen),
    hchunk.filtersReadBytes hlen⟩

/-- **What is written is read back**: PLAIN or with a dictionary, in any codec, with a
    filter or without. -/
theorem writeColumn_read :
    (∀ v, writeI64Column name v codec targetFpp = .ok w ∨
        writeI64ColumnDict name v codec targetFpp = .ok w →
      w.Short v.length → w.ReadsBack readColumnI64 readColumnI64Masked v) ∧
    (∀ v, writeI32Column name v codec targetFpp = .ok w ∨
        writeI32ColumnDict name v codec targetFpp = .ok w →
      w.Short v.length → w.ReadsBack readColumnI32 readColumnI32Masked v) ∧
    (∀ v, writeF64Column name v codec targetFpp = .ok w ∨
        writeF64ColumnDict name v codec targetFpp = .ok w →
      w.Short v.length → w.ReadsBack readColumnF64 readColumnF64Masked v) ∧
    ∀ v, writeByteArrayColumn name v codec targetFpp = .ok w ∨
        writeByteArrayColumnDict name v codec targetFpp = .ok w →
      w.Short v.length → w.ReadsBack readColumnByteArray readColumnByteArrayMasked v := by
  refine ⟨?_, ?_, ?_, ?_⟩
  · rintro v (h | h) hshort
    · exact (writeColumn_eq_ok.mp h).1.readsFixed hshort (decodes_fixed hshort.rows rfl rfl rfl)
    · exact ((writeColumnDict_eq_ok rfl).mp h).1.readsFixed hshort
        (decodes_fixed hshort.rows rfl rfl rfl)
  · rintro v (h | h) hshort
    · exact (writeColumn_eq_ok.mp h).1.readsFixed hshort (decodes_fixed hshort.rows rfl rfl rfl)
    · exact ((writeColumnDict_eq_ok rfl).mp h).1.readsFixed hshort
        (decodes_fixed hshort.rows rfl rfl rfl)
  · rintro v (h | h) hshort
    · exact (writeColumn_eq_ok.mp h).1.readsFixed hshort (decodes_fixed hshort.rows rfl rfl rfl)
    · exact ((writeColumnDict_eq_ok rfl).mp h).1.readsFixed hshort
        (decodes_fixed hshort.rows rfl rfl rfl)
  · rintro v (h | h) hshort
    · exact (writeColumn_eq_ok.mp h).1.readsBytes hshort
    · exact ((writeColumnDict_eq_ok rfl).mp h).1.readsBytes hshort

end

/-! ## Filters -/

section
variable {α : Type} [DecidableEq α]

/-- A dictionary has every value. -/
theorem mem_buildDict {values : List α} (hlen : values.length ≤ 2 ^ 32) {v : α} (hv : v ∈ values) :
    v ∈ (buildDict values).1 := by
  obtain ⟨hentries, -⟩ := entryOf_buildDict hlen (Prod.mk.eta (p := buildDict values)).symm
  obtain ⟨k, hk⟩ := List.mem_iff_getElem?.mp hv
  obtain ⟨hlt, rfl⟩ := List.getElem?_eq_some_iff.mp hk
  have hentry := (List.forall₂_iff_get.mp hentries).2 k (hentries.length_eq ▸ hlt) hlt
  exact List.mem_of_getElem? hentry

theorem length_buildDict_le {values : List α} (hlen : values.length ≤ 2 ^ 32) :
    (buildDict values).1.length ≤ values.length :=
  (entryOf_buildDict hlen (Prod.mk.eta (p := buildDict values)).symm).2.1

end

section
variable [Platform] {name : String} {col : ColumnData} {codec : CompressionCodec}
  {isDict : Bool} {fpp : F64} {w : WrittenColumn}

omit [Platform] in
theorem hashInputs_distinct (hlen : col.rowCount ≤ 2 ^ 32) {v : Bytes} (hv : v ∈ col.hashInputs) :
    v ∈ col.distinct.hashInputs := by
  cases col with
  | u64 => exact hv
  | bool => exact hv
  | byteArray => exact mem_buildDict hlen hv
  | _ values =>
    obtain ⟨x, hx, rfl⟩ := List.mem_map.mp hv
    exact List.mem_map_of_mem (mem_buildDict hlen hx)

omit [Platform] in
theorem rowCount_distinct_le (hlen : col.rowCount ≤ 2 ^ 32) : col.distinct.rowCount ≤ col.rowCount := by
  cases col with
  | u64 => exact le_rfl
  | bool => exact le_rfl
  | _ values => exact length_buildDict_le hlen

/-- The filter that is written is found, and has the values of the column if it has
    been built from them all. -/
theorem WrittenColumn.Of.bloomFound (h : w.Of name col codec isDict) (hlen : w.bytes.length < 2 ^ 63)
    {values : ColumnData} (hbloom : w.encoded.bloom = some (buildBloomForColumn values fpp))
    (hmax : 32 * (optimalNumBlocks values.rowCount fpp).toNat < 2 ^ 31)
    (hmem : ∀ v ∈ col.hashInputs, v ∈ values.hashInputs) :
    BloomFound w.bytes w.metadata 0 0 col := by
  obtain ⟨rest, hbytes⟩ := w.bytes_eq
  obtain ⟨cm, hcm, hmeta⟩ := h.columnMetaData
  set blob := buildBloomForColumn values fpp with hblob
  rw [hbloom, Option.getD_some, ← List.append_assoc] at hbytes
  have hend : (parquetMagic ++ w.encoded.pageBytes).length + blob.length ≤ w.bytes.length := by
    simp only [hbytes, List.length_append]
    omega
  have hoffset : 4 + (w.encoded.dictionary.elim 0 fun d => d.bytes.length)
      + w.encoded.data.bytes.length = (parquetMagic ++ w.encoded.pageBytes).length := by
    rw [List.length_append, EncodedColumn.pageBytes, List.length_append]
    cases w.encoded.dictionary <;> simp [parquetMagic, Nat.add_assoc]
  have hoffsetInt := toInt_i64_iff.mpr
    (show (parquetMagic ++ w.encoded.pageBytes).length < 2 ^ 63 by omega)
  have hlenInt := toInt_i32_iff.mpr (length_buildBloomForColumn hmax)
  obtain ⟨f, hf, hcontains⟩ := fromBytes_buildBloomForColumn hmax
  refine ⟨cm, Int64.ofNat (parquetMagic ++ w.encoded.pageBytes).length, Int32.ofNat blob.length, f,
    hcm, ?_, ?_, ?_, ?_, ?_, ?_, fun v hv => hcontains v (hmem v hv)⟩
  · cases hmeta
    simp only [placeColumn, hbloom, Option.map_some, hoffset]
  · cases hmeta
    simp only [placeColumn, hbloom, Option.map_some]
  · rw [hoffsetInt]
    exact Int.natCast_nonneg _
  · rw [hlenInt]
    exact Int.natCast_nonneg _
  · rw [hoffsetInt, hlenInt]
    exact_mod_cast hend
  · rw [hoffsetInt, hlenInt, Int.toNat_natCast, Int.toNat_natCast, hbytes, List.drop_left,
      List.take_left]
    exact hf

/-- **Filters of single columns** miss no value, though that of a column with a
    dictionary is made for its distinct values alone. -/
theorem writeColumn_bloom (hrows : col.rowCount ≤ 2 ^ 32) (hlen : w.bytes.length < 2 ^ 63)
    (hmax : ∀ n ≤ col.rowCount, 32 * (optimalNumBlocks n fpp).toNat < 2 ^ 31) :
    (writeColumn name col codec (some fpp) = .ok w → BloomFound w.bytes w.metadata 0 0 col) ∧
    ∀ dict, col.encodeDict = some dict → writeColumnDict name col dict codec (some fpp) = .ok w →
      BloomFound w.bytes w.metadata 0 0 col := by
  constructor
  · intro h
    obtain ⟨hof, hbloom⟩ := writeColumn_eq_ok.mp h
    exact hof.bloomFound hlen hbloom (hmax _ le_rfl) fun _ hv => hv
  · intro dict hdict h
    obtain ⟨hof, hbloom⟩ := (writeColumnDict_eq_ok hdict).mp h
    exact hof.bloomFound hlen hbloom (hmax _ (rowCount_distinct_le hrows))
      fun _ hv => hashInputs_distinct hrows hv

/-! ## The table writer -/

omit [Platform] in
theorem slice_all (col : ColumnData) : col.slice 0 col.rowCount = .ok col := by
  cases col with
  | _ v =>
    refine map_eq_ok.mpr ⟨v, slice_eq_ok.mpr ⟨Nat.zero_le _, le_rfl, ?_⟩, rfl⟩
    simp [ColumnData.rowCount]

theorem encodeColumn_single {targetFpp : Option F64} {c : EncodedColumn} {n : ℕ}
    (h : EncodedFrom (singleOptions codec isDict targetFpp) 0 col n c) :
    encodeColumn (singleOptions codec isDict targetFpp) 0 col n = .ok c := by
  cases h with
  | plain hdict hdata =>
    cases hdict
    rw [encodeColumn]
    exact bind_eq_ok.mpr ⟨codec, rfl, bind_eq_ok.mpr ⟨targetFpp, rfl,
      bind_eq_ok.mpr ⟨false, rfl, bind_eq_ok.mpr ⟨_, hdata, rfl⟩⟩⟩⟩
  | dict hdict hdata =>
    cases hdict
    rw [encodeColumn]
    exact bind_eq_ok.mpr ⟨codec, rfl, bind_eq_ok.mpr ⟨targetFpp, rfl,
      bind_eq_ok.mpr ⟨true, rfl, bind_eq_ok.mpr ⟨_, hdata, rfl⟩⟩⟩⟩

/-- One column passes the checks of a table. -/
theorem checkTable_single {targetFpp : Option F64} {c : EncodedColumn} {n : ℕ}
    (h : EncodedFrom (singleOptions codec isDict targetFpp) 0 col n c) :
    checkTable [(name, col)] (singleOptions codec isDict targetFpp) = .ok col.rowCount := by
  cases h with
  | plain hdict =>
    cases hdict
    rfl
  | dict hdict hdata =>
    cases hdict
    cases col with
    | bool => cases hdata
    | _ => rfl

/-- The footer of a table with one column and one row group. -/
def singleTableMetadata (name : String) (col : ColumnData) (codec : CompressionCodec)
    (c : EncodedColumn) : FileMetaData :=
  let md := singleColumnMetadata name col.parquetType col.rowCount codec (placeColumn 4 c)
  { md with rowGroups := md.rowGroups.map fun rg => { rg with ordinal := some 0 } }

omit [Platform] in
theorem footerMetadata_single {targetFpp : Option F64} (c : EncodedColumn)
    (hmarker : col.convertedType = none) :
    footerMetadata [(name, col)] (singleOptions codec isDict targetFpp) col.rowCount
        (placeGroups 4 [⟨col.rowCount, [c]⟩])
      = singleTableMetadata name col codec c := by
  have hchunk : footerColumn name col ((singleOptions codec isDict targetFpp).codecOf 0) col.rowCount
      (placeColumn 4 c) = singleColumnChunk name col.parquetType col.rowCount codec
        (placeColumn 4 c) := rfl
  have hkv : (singleOptions codec isDict targetFpp).kvMetadata = none := rfl
  simp [singleTableMetadata, singleColumnMetadata, footerMetadata, placeGroups, placeColumns,
    footerGroup, rootElement, leafElement, hmarker, hchunk, hkv]

/-- The table of one column that is written from such pages. -/
theorem exists_singleTable {targetFpp : Option F64} {c : EncodedColumn}
    (hc : EncodedFrom (singleOptions codec isDict targetFpp) 0 col col.rowCount c)
    (hrows : col.rowCount < usizeBound) (hmarker : col.convertedType = none) :
    ∃ t, writtenTable [(name, col)] (singleOptions codec isDict targetFpp) = .ok t ∧
      t.groups = [⟨col.rowCount, [c]⟩] ∧ t.metadata = singleTableMetadata name col codec c := by
  have hsize : 0 < (singleOptions codec isDict targetFpp).rowGroupSize := by
    change 0 < usizeBound - 1
    decide
  have hranges : rowGroupRanges col.rowCount (singleOptions codec isDict targetFpp).rowGroupSize
      = [(0, col.rowCount)] := by
    rw [rowGroupRanges_eq hsize, rowGroupCount_one hsize (Nat.le_sub_one_of_lt hrows)]
    simp [Nat.le_sub_one_of_lt hrows, singleOptions]
  have hgroups : encodeTable [(name, col)] (singleOptions codec isDict targetFpp) col.rowCount
      = .ok [⟨col.rowCount, [c]⟩] := by
    have hgroup : encodeGroup [(name, col)] (singleOptions codec isDict targetFpp) (0, col.rowCount)
        = .ok ⟨col.rowCount, [c]⟩ :=
      bind_eq_ok.mpr ⟨[c], mapM_eq_ok.mpr (.cons
        (bind_eq_ok.mpr ⟨col, slice_all col, encodeColumn_single hc⟩) .nil), rfl⟩
    rw [encodeTable, hranges, mapM_eq_ok]
    exact .cons hgroup .nil
  have hsupported : (footerMetadata [(name, col)] (singleOptions codec isDict targetFpp) col.rowCount
      (placeGroups 4 [⟨col.rowCount, [c]⟩])).Supported := footerMetadata_supported
  obtain ⟨footer, hfooter⟩ := exists_writeFileMetadata hsupported
  refine ⟨⟨col.rowCount, [⟨col.rowCount, [c]⟩], _, footer⟩,
    writtenTable_eq_ok.mpr ⟨checkTable_single hc, hgroups, rfl, hfooter⟩, rfl, ?_⟩
  exact footerMetadata_single c hmarker

theorem WrittenColumn.Of.encodedFrom {targetFpp : Option F64} (h : w.Of name col codec isDict)
    (hbloom : w.encoded.bloom = targetFpp.map (buildBloomForColumn col)) :
    EncodedFrom (singleOptions codec isDict targetFpp) 0 col col.rowCount w.encoded := by
  obtain ⟨⟨dictionary, data, stats, bloom⟩, metadata, footer⟩ := w
  obtain ⟨hencoded, -, -⟩ := h
  cases hbloom
  cases hencoded with
  | plain hdict hdata => exact .plain hdict hdata
  | dict hdict hpages => exact .dict hdict hpages

/-- The table of one column has the same pages and filter, in one row group, and a
    footer that differs in the ordinal of that group alone. -/
def WrittenColumn.AgreesWith (w : WrittenColumn) (columns : Columns) (options : WriteOptions) : Prop :=
  ∃ t, writtenTable columns options = .ok t ∧
    t.groups.map EncodedGroup.columns = [[w.encoded]] ∧
    t.metadata = { w.metadata with
      rowGroups := w.metadata.rowGroups.map fun rg => { rg with ordinal := some 0 } }

theorem WrittenColumn.Of.agreesWith {targetFpp : Option F64} (h : w.Of name col codec isDict)
    (hbloom : w.encoded.bloom = targetFpp.map (buildBloomForColumn col))
    (hrows : col.rowCount < usizeBound) (hmarker : col.convertedType = none) :
    w.AgreesWith [(name, col)] (singleOptions codec isDict targetFpp) := by
  obtain ⟨t, ht, hgroups, hmd⟩ :=
    @exists_singleTable _ name _ _ _ _ _ (h.encodedFrom hbloom) hrows hmarker
  refine ⟨t, ht, by rw [hgroups]; rfl, ?_⟩
  rw [hmd, h.metadata, singleTableMetadata]

/-- **Single columns are tables**: the table writer agrees with the writer of a single
    column, in all codecs and with filters.  With a dictionary it does where no filter
    is asked for. -/
theorem writeColumn_table {targetFpp : Option F64} (hrows : col.rowCount < usizeBound)
    (hmarker : col.convertedType = none) :
    (writeColumn name col codec targetFpp = .ok w →
      w.AgreesWith [(name, col)] (singleOptions codec false targetFpp)) ∧
    ∀ dict, col.encodeDict = some dict → writeColumnDict name col dict codec none = .ok w →
      w.AgreesWith [(name, col)] (singleOptions codec true none) := by
  constructor
  · intro h
    obtain ⟨hof, hbloom⟩ := writeColumn_eq_ok.mp h
    exact hof.agreesWith hbloom hrows hmarker
  · intro dict hdict h
    obtain ⟨hof, hbloom⟩ := (writeColumnDict_eq_ok hdict).mp h
    rw [Option.map_none] at hbloom
    exact hof.agreesWith (by rw [hbloom, Option.map_none]) hrows hmarker

end

/-! ## A sample -/

/-- The lengths that have to be short: of the file, of its footer and of its pages. -/
def WrittenColumn.lengths (w : WrittenColumn) : ℕ × ℕ × List (ℕ × ℕ) :=
  (w.bytes.length, w.footer.length, (w.encoded.dictionary.toList ++ [w.encoded.data]).map fun p =>
    (p.uncompressed.length, p.body.length))

theorem WrittenColumn.short_of_lengths {w : WrittenColumn} {rows bytes footer : ℕ}
    {pages : List (ℕ × ℕ)} (h : w.lengths = (bytes, footer, pages)) (hrows : rows < 2 ^ 31)
    (hbytes : bytes < 2 ^ 63) (hfooter : footer < 2 ^ 32)
    (hpages : ∀ p ∈ pages, p.1 < 2 ^ 31 ∧ p.2 < 2 ^ 31) : w.Short rows := by
  simp only [lengths, Prod.mk.injEq] at h
  obtain ⟨rfl, rfl, rfl⟩ := h
  exact ⟨hrows, hbytes, hfooter, fun p hp => hpages _ (List.mem_map_of_mem hp)⟩

/-- A column with a dictionary and a filter, in snappy. -/
theorem writeDict_sample : ∃ w, @writeI64ColumnDict Platform.stored "key" [7, 5, 7] .snappy
    (some ⟨0⟩) = .ok w ∧ w.Short 3 := by
  let _ := Platform.stored
  have hlengths : WrittenColumn.lengths <$> writeI64ColumnDict "key" [7, 5, 7] .snappy (some ⟨0⟩)
      = .ok (336, 144, [(16, 18), (3, 5)]) := by
    decide +kernel
  obtain ⟨w, hw, hlengths⟩ := map_eq_ok.mp hlengths
  exact ⟨w, hw, WrittenColumn.short_of_lengths hlengths (by decide) (by decide) (by decide) (by decide)⟩

theorem writeColumn_read_sample : ∃ w,
    @writeI64ColumnDict Platform.stored "key" [7, 5, 7] .snappy (some ⟨0⟩) = .ok w ∧
    w.ReadsBack (@readColumnI64 Platform.stored) (@readColumnI64Masked Platform.stored) [7, 5, 7] := by
  let _ := Platform.stored
  let _ := Platform.stored_lawful
  obtain ⟨w, hw, hshort⟩ := writeDict_sample
  exact ⟨w, hw, writeColumn_read.1 _ (.inr hw) hshort⟩

theorem writeColumn_bloom_sample : ∃ w,
    @writeI64ColumnDict Platform.stored "key" [7, 5, 7] .snappy (some ⟨0⟩) = .ok w ∧
    BloomFound w.bytes w.metadata 0 0 (.i64 [7, 5, 7]) := by
  let _ := Platform.stored
  obtain ⟨w, hw, hshort⟩ := writeDict_sample
  have hmax : ∀ n ≤ (ColumnData.i64 [7, 5, 7]).rowCount,
      32 * (optimalNumBlocks n ⟨0⟩).toNat < 2 ^ 31 := fun _ _ =>
    lt_of_le_of_lt (optimalNumBlocks_le (bloomBytes_stored _ _)) (by decide)
  exact ⟨w, hw, (writeColumn_bloom (by decide) hshort.bytes hmax).2 _ rfl hw⟩

theorem writeColumn_table_sample : ∃ w,
    @writeI64Column Platform.stored "key" [7, 5, 7] .snappy (some ⟨0⟩) = .ok w ∧
    @WrittenColumn.AgreesWith Platform.stored w [("key", .i64 [7, 5, 7])]
      (singleOptions .snappy false (some ⟨0⟩)) := by
  let _ := Platform.stored
  have hlength : (fun w => w.bytes.length) <$> writeI64Column "key" [7, 5, 7] .snappy (some ⟨0⟩)
      = .ok 383 := by
    decide +kernel
  obtain ⟨w, hw, -⟩ := map_eq_ok.mp hlength
  exact ⟨w, hw, (writeColumn_table (by decide) rfl).1 hw⟩

end EmatixParquet
