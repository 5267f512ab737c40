/-
  The statistics of a written table, as its footer gives them back.

  * `statistics_exact`: what `compute_stats` records of a column;
  * `rowGroup_statistics_exact`: in the parsed footer, each column of each row
    group carries the least and the greatest value of its slice.
-/
import EmatixParquet.Codec.RoundTrip

namespace EmatixParquet

open Wire

/-! ## Exact bounds -/

/-- The bytes of one fixed-width value. -/
def decodeFixedStat {α : Type} [FixedWidth α] (b : Bytes) : Option α :=
  if b.length = FixedWidth.width α then some (fromLeBytes b) else none

theorem decodeFixedStat_toLeBytes {α : Type} [FixedWidth α] (v : α) :
    decodeFixedStat (toLeBytes v) = some v := by
  simp [decodeFixedStat]

/-- The recorded pair are the least and the greatest of the values; an empty
    column has none. -/
structure ExactBounds {α : Type} [LE α] (decode : Bytes → Option α) (values : List α)
    (s : Statistics) : Prop where
  nullCount : s.nullCount = some 0
  absentMin : s.minValue = none ↔ values = []
  absentMax : s.maxValue = none ↔ values = []
  least : ∀ b ∈ s.minValue, ∃ mn, decode b = some mn ∧ IsLeast {v | v ∈ values} mn
  greatest : ∀ b ∈ s.maxValue, ∃ mx, decode b = some mx ∧ IsGreatest {v | v ∈ values} mx
  deprecated : s.min = s.minValue ∧ s.max = s.maxValue

/-- What the statistics say of a column, in the order of its type. -/
def StatisticsExact (s : Statistics) : ColumnData → Prop
  | .i32 v => ExactBounds decodeFixedStat v s
  | .i64 v => ExactBounds decodeFixedStat v s
  | .u64 v => ExactBounds decodeFixedStat v s
  | .byteArray v => ExactBounds some v s
  | .f64 _ | .bool _ => s.nullCount = some 0

theorem exactBounds_statsOf {α : Type} [LE α] [LT α] [DecidableLT α] [Std.IsLinearOrder α]
    [Std.LawfulOrderLT α] {bytes : α → Bytes} {decode : Bytes → Option α} (values : List α)
    (hdecode : ∀ v, decode (bytes v) = some v) :
    ExactBounds decode values
      (statsOf (fun a b => decide (a < b)) bytes values).asStatistics := by
  by_cases hne : values = []
  · subst hne
    constructor <;> simp [statsOf, ColumnStats.asStatistics]
  · obtain ⟨mn, mx, hstats, hleast, hgreatest⟩ := @statsOf_bounds _ _ _ _ _ _ bytes _ hne
    rw [hstats]
    constructor <;> simp [ColumnStats.asStatistics, hne, hdecode, hleast, hgreatest]

/-- **`compute_stats` is exact.** -/
theorem statistics_exact (col : ColumnData) : StatisticsExact (computeStats col).asStatistics col := by
  cases col with
  | byteArray v => exact exactBounds_statsOf v fun _ => rfl
  | f64 v =>
    have hnull : (statsF64 v).nullCount = 0 := by
      unfold statsF64
      dsimp only
      split <;> rfl
    exact congrArg some hnull
  | bool v => cases v <;> rfl
  | _ v => exact exactBounds_statsOf v decodeFixedStat_toLeBytes

/-! ## The footer -/

section
variable [Platform] {columns : Columns} {options : WriteOptions}

/-- What the footer of a file says of the columns written to it. -/
structure WrittenTable.ExactFooter (t : WrittenTable) (columns : Columns)
    (options : WriteOptions) : Prop where
  reads : ∀ tail, readFileMetadata.run (t.footer ++ tail) = .ok (t.metadata, tail)
  opens : t.footer.length < 2 ^ 32 →
    ∃ file, ParquetFile.open t.bytes = .ok file ∧ file.metadata = .ok t.metadata
  rowGroups : t.metadata.rowGroups.length
    = rowGroupCount (rowsOf columns) options.rowGroupSize
  columns : ∀ (r : ℕ) (rg : RowGroup) (ix : ℕ) (named : String × ColumnData),
    t.metadata.rowGroups[r]? = some rg → columns[ix]? = some named →
    ∃ (slice : ColumnData) (cc : ColumnChunk) (cm : ColumnMetaData) (stats : Statistics),
      named.2.slice (r * options.rowGroupSize)
        (min ((r + 1) * options.rowGroupSize) (rowsOf columns)) = .ok slice ∧
      rg.columns[ix]? = some cc ∧ cc.metaData = some cm ∧ cm.statistics = some stats ∧
      StatisticsExact stats slice

/-- The footer of a written table, parsed again. -/
theorem exactFooter_table {t : WrittenTable} (h : writtenTable columns options = .ok t)
    (hlen : t.bytes.length < 2 ^ 63) : t.ExactFooter columns options := by
  obtain ⟨-, henc, -, hw⟩ := writtenTable_eq_ok.mp h
  obtain ⟨hn, -, hsize⟩ := totalRows_eq h
  obtain ⟨hlength, hcount⟩ := rowGroups_length h
  have hfooterLen : t.footer.length < 2 ^ 64 := by
    simp only [WrittenTable.bytes, fileBytes, List.length_append] at hlen
    omega
  refine ⟨parses_fileMetadata hw hfooterLen, fun hfooter => ?_, hlength.trans hcount,
    fun r rg ix named hrg hnamed => ?_⟩
  · obtain ⟨file, hopen, -, -, hmd⟩ := open_table h hfooter
    exact ⟨file, hopen, hmd⟩
  · have hr : r < t.groups.length := hlength ▸ (List.getElem?_eq_some_iff.mp hrg).1
    have hg : t.groups[r]? = some t.groups[r] := List.getElem?_eq_getElem hr
    obtain ⟨range, hrange, -, -, hcols⟩ := encodeTable_group henc hg
    obtain ⟨col, c, hslice, hc, hfrom⟩ := hcols ix named hnamed
    rw [hn] at hrange
    obtain ⟨-, rfl, -⟩ := getElem?_rowGroupRanges hsize hrange
    obtain ⟨rg', hrg', hcc⟩ := footer_entries h hg hnamed hc
    obtain rfl := Option.some.inj (hrg.symm.trans hrg')
    have hstats : c.stats = computeStats col := by
      cases hfrom <;> rfl
    refine ⟨col, _, _, _, hslice, hcc, rfl, rfl, ?_⟩
    rw [placeColumn, hstats]
    exact statistics_exact col

/-- **Row-group statistics are exact bounds** of the slices, in the footer that is
    read back. -/
theorem rowGroup_statistics_exact {bytes : Bytes}
    (h : writeTableWithOptions columns options = .ok bytes) (hlen : bytes.length < 2 ^ 63) :
    ∃ t, writtenTable columns options = .ok t ∧ t.bytes = bytes ∧
      t.ExactFooter columns options := by
  obtain ⟨t, ht, rfl⟩ := writeTableWithOptions_eq_ok.mp h
  exact ⟨t, ht, rfl, exactFooter_table ht hlen⟩

end

/-- One column of two rows, in row groups of one row. -/
theorem rowGroup_statistics_exact_sample : ∃ bytes t,
    @writeTableWithOptions Platform.stored sampleTable { rowGroupSize := 1 } = .ok bytes ∧
      @writtenTable Platform.stored sampleTable { rowGroupSize := 1 } = .ok t ∧ t.bytes = bytes ∧
      t.ExactFooter sampleTable { rowGroupSize := 1 } := by
  let _ := Platform.stored
  have hlen : List.length <$> writeTableWithOptions sampleTable { rowGroupSize := 1 } = .ok 372 := by
    decide +kernel
  obtain ⟨bytes, hbytes, hlen⟩ := map_eq_ok.mp hlen
  have hlt : bytes.length < 2 ^ 63 := by
    rw [hlen]
    decide
  obtain ⟨t, ht⟩ := rowGroup_statistics_exact hbytes hlt
  exact ⟨bytes, t, hbytes, ht⟩

end EmatixParquet
