/-
  The bloom filters of a written table.

  * `hashInputs_single`: what is hashed of a value is its PLAIN encoding;
  * `bloomFilters_attached`: the footer says where the filter of a column is,
    and it contains every value of the column in its row group.
-/
import EmatixParquet.Codec.BloomFilter
import EmatixParquet.Codec.RoundTrip

namespace EmatixParquet

open Wire SplitBlockBloomFilterBuilder

/-- Byte strings are inserted one by one. -/
theorem insertAll_eq_inserts (b : SplitBlockBloomFilterBuilder) (values : List Bytes) :
    b.insertAll values = b.inserts (values.map .inr) := by
  rw [insertAll, inserts, List.foldl_map]
  rfl

theorem slice_single {α : Type} {xs : List α} {i : ℕ} (h : i < xs.length) :
    (slice xs i (i + 1) : Res CodecError (List α)) = .ok [xs[i]] := by
  refine slice_eq_ok.mpr ⟨Nat.le_succ i, h, ?_⟩
  rw [List.take_add_one, List.drop_append_of_le_length (by rw [List.length_take]; omega),
    List.drop_eq_nil_of_le (by rw [List.length_take]; omega), List.getElem?_eq_getElem h]
  rfl

/-- **What is hashed** of a row is the PLAIN encoding of its value alone, that of a byte
    string without its length. -/
theorem hashInputs_single {col : ColumnData} {i : ℕ} (h : i < col.rowCount) :
    ∃ single v, col.slice i (i + 1) = .ok single ∧ col.hashInputs[i]? = some v ∧
      single.encodePlain = if col.parquetType = .byteArray then leBytes 4 v.length ++ v else v := by
  cases col with
  | byteArray values =>
    have hi : i < values.length := h
    refine ⟨_, values[i], map_eq_ok.mpr ⟨_, slice_single hi, rfl⟩, List.getElem?_eq_getElem hi, ?_⟩
    have htype : (ColumnData.byteArray values).parquetType = .byteArray := rfl
    rw [if_pos htype]
    simp [ColumnData.encodePlain, encodePlainByteArray]
  | bool values =>
    have hi : i < values.length := h
    refine ⟨_, [values[i].toUInt8], map_eq_ok.mpr ⟨_, slice_single hi, rfl⟩, ?_, ?_⟩
    · simp [ColumnData.hashInputs, hi]
    · split
      · next htype => cases htype
      · cases values[i] <;> decide
  | i32 values | i64 values | u64 values | f64 values =>
    have hi : i < values.length := h
    refine ⟨_, toLeBytes values[i], map_eq_ok.mpr ⟨_, slice_single hi, rfl⟩, ?_, ?_⟩
    · simp [ColumnData.hashInputs, hi]
    · split
      · next htype => cases htype
      · exact List.flatMap_singleton _ _

section
variable [Platform]

/-- **The filter of a column** is read back and contains its values. -/
theorem fromBytes_buildBloomForColumn {col : ColumnData} {fpp : F64}
    (hmax : 32 * (optimalNumBlocks col.rowCount fpp).toNat < 2 ^ 31) :
    ∃ f, SplitBlockBloomFilter.fromBytes (buildBloomForColumn col fpp) = .ok f ∧
      ∀ v ∈ col.hashInputs, f.containsBytes v = true := by
  obtain ⟨f, hf, hmem⟩ := exists_fromBytes (optimalNumBlocks_ne_zero _ _) hmax (col.hashInputs.map .inr)
  rw [← insertAll_eq_inserts] at hf
  exact ⟨f, hf, fun v hv => hmem (.inr v) (List.mem_map_of_mem hv)⟩

/-- A filter and its header fit in an `i32`. -/
theorem length_buildBloomForColumn {col : ColumnData} {fpp : F64}
    (hmax : 32 * (optimalNumBlocks col.rowCount fpp).toNat < 2 ^ 31) :
    (buildBloomForColumn col fpp).length < 2 ^ 31 := by
  have hheader := length_writeBloomFilterHeader
    (Int32.ofNat (32 * (optimalNumBlocks col.rowCount fpp).toNat))
  rw [buildBloomForColumn, length_intoBytes_insertAll]
  omega

/-- Where the footer `md` says it is, there is a filter of the values of `col`. -/
def BloomFound (file : Bytes) (md : FileMetaData) (r ix : ℕ) (col : ColumnData) : Prop :=
  ∃ cm offset len f, columnMetaData md r ix = .ok cm ∧
    cm.bloomFilterOffset = some offset ∧ cm.bloomFilterLength = some len ∧
    0 ≤ offset.toInt ∧ 0 ≤ len.toInt ∧ offset.toInt + len.toInt ≤ file.length ∧
    SplitBlockBloomFilter.fromBytes
      ((file.drop offset.toInt.toNat).take len.toInt.toNat) = .ok f ∧
    ∀ v ∈ col.hashInputs, f.containsBytes v = true

variable {columns : Columns} {options : WriteOptions} {t : WrittenTable}

/-- The filter of one column. -/
theorem bloomFound_column {r ix : ℕ} {g : EncodedGroup} {c : EncodedColumn} {col : ColumnData}
    {named : String × ColumnData} {fpp : F64} (h : writtenTable columns options = .ok t)
    (hlen : t.bytes.length < 2 ^ 63) (hg : t.groups[r]? = some g)
    (hnamed : columns[ix]? = some named) (hc : g.columns[ix]? = some c)
    (hbloom : c.bloom = some (buildBloomForColumn col fpp))
    (hmax : 32 * (optimalNumBlocks col.rowCount fpp).toNat < 2 ^ 31) :
    BloomFound t.bytes t.metadata r ix col := by
  set blob := buildBloomForColumn col fpp with hblob
  obtain ⟨cm, hmeta, hcm⟩ := columnMetaData_table h hg hnamed hc
  obtain ⟨rest, hfile⟩ := @fileBytes_column _ t.footer _ _ _ _ hg hc
  set before := columnPrefix t.groups g r ix
  have hbytes : t.bytes = (before ++ c.pageBytes) ++ (blob ++ rest) := by
    rw [WrittenTable.bytes, hfile, EncodedColumn.bytes, hbloom]
    simp only [Option.getD_some, List.append_assoc]
  have hend : (before ++ c.pageBytes).length + blob.length ≤ t.bytes.length := by
    simp only [hbytes, List.length_append]
    omega
  have hoffset : before.length + (c.dictionary.elim 0 fun d => d.bytes.length) + c.data.bytes.length
      = (before ++ c.pageBytes).length := by
    rw [List.length_append, EncodedColumn.pageBytes, List.length_append]
    cases c.dictionary <;> simp [Nat.add_assoc]
  have hoffsetInt := toInt_i64_iff.mpr (show (before ++ c.pageBytes).length < 2 ^ 63 by omega)
  have hlenInt := toInt_i32_iff.mpr (length_buildBloomForColumn hmax)
  obtain ⟨f, hf, hmem⟩ := fromBytes_buildBloomForColumn hmax
  refine ⟨cm, Int64.ofNat (before ++ c.pageBytes).length, Int32.ofNat blob.length, f, hcm,
    ?_, ?_, ?_, ?_, ?_, ?_, hmem⟩
  · cases hmeta
    simp only [placeColumn, hbloom, Option.map_some, hoffset]
  · cases hmeta
    simp only [placeColumn, hbloom, Option.map_some]
  · rw [hoffsetInt]
    exact Int.natCast_nonneg _
  · rw [hlenInt]
    exact Int.natCast_nonneg _
  · rw [hoffsetInt, hlenInt]
    exact_mod_cast hend
  · rw [hoffsetInt, hlenInt, Int.toNat_natCast, Int.toNat_natCast, hbytes, List.drop_left,
      List.take_left]
    exact hf

/-- The filters asked for are where the footer says, and miss no value.  The
    footer is read back from its bytes, and from the file when their length fits
    in its 32 bits. -/
def WrittenTable.FiltersAttached (t : WrittenTable) (columns : Columns) (options : WriteOptions) :
    Prop :=
  ∃ md, readFileMetadata.run t.footer = .ok (md, []) ∧
    (t.footer.length < 2 ^ 32 → ∃ file, ParquetFile.open t.bytes = .ok file ∧
      file.metadata = .ok md) ∧
    ∀ r < rowGroupCount (rowsOf columns) options.rowGroupSize, ∀ ix named fpp,
      columns[ix]? = some named → options.fppOf ix = some fpp →
      ∃ col, named.2.slice (r * options.rowGroupSize)
          (min ((r + 1) * options.rowGroupSize) (rowsOf columns)) = .ok col ∧
        BloomFound t.bytes md r ix col

/-- **Attached filters** miss no value, however many blocks they have. -/
theorem bloomFilters_attached (h : writtenTable columns options = .ok t)
    (hlen : t.bytes.length < 2 ^ 63)
    (hmax : ∀ ix col fpp, IsSlice columns options ix col → options.fppOf ix = some fpp →
      32 * (optimalNumBlocks col.rowCount fpp).toNat < 2 ^ 31) :
    t.FiltersAttached columns options := by
  obtain ⟨-, henc, -, hw⟩ := writtenTable_eq_ok.mp h
  obtain ⟨hn, -, hsize⟩ := totalRows_eq h
  obtain ⟨hcount, -⟩ := groups_length h
  have hfooter : t.footer.length < 2 ^ 64 := by
    have : t.footer.length ≤ t.bytes.length := by
      simp only [WrittenTable.bytes, fileBytes, List.length_append]
      omega
    omega
  have hread := parses_fileMetadata hw hfooter []
  rw [List.append_nil] at hread
  refine ⟨t.metadata, hread, fun hlt => ?_, fun r hr ix named fpp hnamed hfpp => ?_⟩
  · have hopen := @ParquetFile.open_frame (t.groups.flatMap EncodedGroup.bytes) _ hlt
    exact ⟨_, hopen, ParquetFile.metadata_of_written hw hfooter⟩
  · have hg : t.groups[r]? = some t.groups[r] := List.getElem?_eq_getElem (hcount ▸ hr)
    obtain ⟨range, hrange, -, -, hcols⟩ := encodeTable_group henc hg
    obtain ⟨col, c, hslice, hc, hfrom⟩ := hcols ix named hnamed
    rw [hn] at hrange
    have hIsSlice : IsSlice columns options ix col :=
      ⟨named, range, hnamed, List.mem_of_getElem? hrange, hslice⟩
    obtain ⟨-, hrangeEq, -⟩ := getElem?_rowGroupRanges hsize hrange
    have hbloom : c.bloom = some (buildBloomForColumn col fpp) := by
      rw [hfrom.spec.bloom, hfpp]
      rfl
    refine ⟨col, by rw [← hslice, hrangeEq], ?_⟩
    exact bloomFound_column h hlen hg hnamed hc hbloom (hmax ix col fpp hIsSlice hfpp)

end

/-- A filter for the one column of the sample table. -/
def sampleBloom : WriteOptions := { rowGroupSize := 1, bloomFpps := some [some ⟨0⟩] }

theorem bloomFilters_attached_sample :
    ∃ t, @writtenTable Platform.stored sampleTable sampleBloom = .ok t ∧
      t.FiltersAttached sampleTable sampleBloom := by
  let _ := Platform.stored
  have hbytes : (fun t => t.bytes.length) <$> writtenTable sampleTable sampleBloom = .ok 476 := by
    decide +kernel
  obtain ⟨t, ht, hlen⟩ := map_eq_ok.mp hbytes
  exact ⟨t, ht, bloomFilters_attached ht (by rw [hlen]; decide) fun _ _ _ _ _ =>
    lt_of_le_of_lt (optimalNumBlocks_le (bloomBytes_stored _ _)) (by decide)⟩

end EmatixParquet
