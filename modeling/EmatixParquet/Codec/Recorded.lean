/-
  Sizes, counts and positions in the page headers and the footer.

  The writer narrows them without checks (`as i32`, `as i16`, `as u32`).
  `WrittenTable.RecordedExact` says that none of them changed, `Fits` which
  tables are small enough for that.

  * `recordedExact_iff`: the one holds exactly when the other does;
  * `writtenTable_zeros`: more than `2 ^ 15` row groups are written, with
    ordinals that wrap.
-/
import Mathlib.Algebra.Order.BigOperators.Group.List
import EmatixParquet.Codec.Write

namespace EmatixParquet

open Wire

/-! ## Casts -/

theorem bmod_eq_self_iff {n w : ℕ} (hw : 0 < w) :
    ((n : ℤ).bmod (2 ^ w) = n) ↔ n < 2 ^ (w - 1) := by
  have hpow : 2 ^ w = 2 * 2 ^ (w - 1) := by
    rw [← Nat.pow_succ']
    congr 1
    omega
  constructor
  · intro h
    have hlt := Int.bmod_lt (x := n) (m := 2 ^ w) (Nat.two_pow_pos w)
    rw [h, hpow] at hlt
    push_cast at hlt
    have : ((n : ℤ)) < 2 ^ (w - 1) := by omega
    exact_mod_cast this
  · intro h
    refine Int.bmod_eq_of_le ?_ ?_
    · rw [hpow]
      have : (0 : ℤ) ≤ n := Int.natCast_nonneg n
      have h2 : (0 : ℤ) ≤ ((2 * 2 ^ (w - 1) : ℕ) : ℤ) / 2 := by positivity
      omega
    · rw [hpow]
      push_cast
      have : ((n : ℤ)) < 2 ^ (w - 1) := by exact_mod_cast h
      omega

theorem toInt_i32_iff {n : ℕ} : (Int32.ofNat n).toInt = n ↔ n < 2 ^ 31 := by
  rw [Int32.toInt_ofNat']
  exact bmod_eq_self_iff (w := 32) (by omega)

theorem toInt_i64_iff {n : ℕ} : (Int64.ofNat n).toInt = n ↔ n < 2 ^ 63 := by
  rw [Int64.toInt_ofNat']
  exact bmod_eq_self_iff (w := 64) (by omega)

theorem toInt_i16_iff {n : ℕ} : (Int16.ofNat n).toInt = n ↔ n < 2 ^ 15 := by
  rw [Int16.toInt_ofNat']
  exact bmod_eq_self_iff (w := 16) (by omega)

theorem leNat_leBytes_iff {k n : ℕ} : leNat (leBytes k n) = n ↔ n < 256 ^ k := by
  rw [leNat_leBytes]
  exact ⟨fun h => h ▸ Nat.mod_lt _ (by positivity), Nat.mod_eq_of_lt⟩

/-! ## What is recorded -/

/-- The bytes `w` are in the file at the offset. -/
def BytesAt (file : Bytes) (offset : Int64) (w : Bytes) : Prop :=
  ∃ before after, file = before ++ (w ++ after) ∧ offset.toInt = before.length

/-- The counts in a page header. -/
def headerCounts (hdr : PageHeader) : List Int32 :=
  hdr.dataPageHeader.toList.map (·.numValues) ++
    (hdr.dataPageHeaderV2.toList.flatMap fun dph => [dph.numValues, dph.numRows]) ++
    hdr.dictionaryPageHeader.toList.map (·.numValues)

/-- The header of a page says its sizes and its counts. -/
structure EncodedPage.RecordedExact (p : EncodedPage) : Prop where
  uncompressed : p.header.uncompressedPageSize.toInt = p.uncompressed.length
  compressed : p.header.compressedPageSize.toInt = p.body.length
  counts : ∀ n ∈ headerCounts p.header, n.toInt = p.numValues

/-- The size of the pages of a column before compression, headers included. -/
def EncodedColumn.uncompressedSize (c : EncodedColumn) : ℕ :=
  (c.dictionary.elim 0 fun d => d.sizeWith d.uncompressed) + c.data.sizeWith c.data.uncompressed

/-- The column metadata says the counts, sizes and positions of a column. -/
structure EncodedColumn.RecordedIn (c : EncodedColumn) (file : Bytes) (chunkRows : ℕ)
    (cm : ColumnMetaData) : Prop where
  numValues : cm.numValues.toInt = chunkRows
  totalUncompressedSize : cm.totalUncompressedSize.toInt = c.uncompressedSize
  totalCompressedSize : cm.totalCompressedSize.toInt = c.pageBytes.length
  dataPageOffset : BytesAt file cm.dataPageOffset c.data.bytes
  dictionaryPageOffset : ∀ d ∈ c.dictionary, ∃ offset ∈ cm.dictionaryPageOffset,
    BytesAt file offset d.bytes
  bloomFilterOffset : ∀ blob ∈ c.bloom, ∃ offset ∈ cm.bloomFilterOffset, BytesAt file offset blob
  bloomFilterLength : ∀ blob ∈ c.bloom, ∃ len ∈ cm.bloomFilterLength, len.toInt = blob.length

/-- Every size, offset and count that a chunk's metadata records is the true one. -/
structure EncodedColumn.RecordedExact (c : EncodedColumn) (file : Bytes) (chunkRows : ℕ)
    (cc : ColumnChunk) : Prop where
  data : c.data.RecordedExact
  dictionary : ∀ d ∈ c.dictionary, d.RecordedExact
  fileOffset : BytesAt file cc.fileOffset c.pageBytes
  metaData : ∃ cm ∈ cc.metaData, c.RecordedIn file chunkRows cm

/-- Adding up the sizes, one cast after the other. -/
theorem foldl_totalUncompressedSize (written n : ℕ) (cs : List EncodedColumn) :
    (placeColumns written cs).foldl (fun total prep => total + prep.totalUncompressedSize)
        (Int64.ofNat n)
      = Int64.ofNat (n + (cs.map EncodedColumn.uncompressedSize).sum) := by
  induction cs generalizing written n with
  | nil => simp [placeColumns]
  | cons c cs ih =>
    have hadd : Int64.ofNat n + (placeColumn written c).totalUncompressedSize
        = Int64.ofNat (n + c.uncompressedSize) := (Int64.ofNat_add _ _).symm
    rw [placeColumns, List.foldl_cons, hadd, ih, List.map_cons, List.sum_cons, Nat.add_assoc]

/-- Row group `r`. -/
structure EncodedGroup.RecordedExact (g : EncodedGroup) (file : Bytes) (r : ℕ) (rg : RowGroup) :
    Prop where
  ordinal : ∃ ordinal ∈ rg.ordinal, ordinal.toInt = r
  numRows : rg.numRows.toInt = g.chunkRows
  totalByteSize : rg.totalByteSize.toInt = (g.columns.map EncodedColumn.uncompressedSize).sum
  columns : ∀ (ix : ℕ) c, g.columns[ix]? = some c → ∃ cc, rg.columns[ix]? = some cc ∧
    c.RecordedExact file g.chunkRows cc

/-- The number of rows of a table. -/
def rowsOf (columns : Columns) : ℕ := (columns.head?.map fun named => named.2.rowCount).getD 0

/-- The columns of the row groups, as they are encoded. -/
def IsSlice (columns : Columns) (options : WriteOptions) (ix : ℕ) (col : ColumnData) : Prop :=
  ∃ named range, columns[ix]? = some named ∧
    range ∈ rowGroupRanges (rowsOf columns) options.rowGroupSize ∧
    named.2.slice range.1 range.2 = .ok col

/-- **Nothing recorded differs from what it stands for.** -/
structure WrittenTable.RecordedExact (t : WrittenTable) (columns : Columns)
    (options : WriteOptions) : Prop where
  footerLength : leNat (leBytes 4 t.footer.length) = t.footer.length
  numRows : t.metadata.numRows.toInt = t.totalRows
  numChildren : ∃ root children, t.metadata.schema.head? = some root ∧
    root.numChildren = some children ∧ children.toInt = columns.length
  valueLengths : ∀ ix vs, IsSlice columns options ix (.byteArray vs) → ∀ v ∈ vs,
    leNat (leBytes 4 v.length) = v.length
  groups : ∀ (r : ℕ) g, t.groups[r]? = some g → ∃ rg, t.metadata.rowGroups[r]? = some rg ∧
    g.RecordedExact t.bytes r rg

/-! ## What fits -/

/-- The bodies of the pages of a column. -/
def pageBodies (isDict : Bool) (col : ColumnData) : List Bytes :=
  if isDict then
    match col.encodeDict with
    | some (dictBody, dictLen, indices) =>
      [dictBody, minBitWidthForDict dictLen ::
        encodeRleBitPacked indices (minBitWidthForDict dictLen)]
    | none => []
  else [col.encodePlain]

section
variable [Platform]

/-- Short enough pages, and row groups of few enough rows. -/
structure PagesFit (columns : Columns) (options : WriteOptions) : Prop where
  rows : min (rowsOf columns) options.rowGroupSize < 2 ^ 31
  pages : ∀ ix col, IsSlice columns options ix col → ∀ body ∈ pageBodies (options.isDict ix) col,
    body.length < 2 ^ 31 ∧
      ∀ c, compressBody body (options.codecOf ix) = .ok c → c.length < 2 ^ 31

/-- The same of one column. -/
structure ColumnFits (columns : Columns) (options : WriteOptions) (ix : ℕ) : Prop where
  rows : min (rowsOf columns) options.rowGroupSize < 2 ^ 31
  pages : ∀ col, IsSlice columns options ix col → ∀ body ∈ pageBodies (options.isDict ix) col,
    body.length < 2 ^ 31 ∧
      ∀ c, compressBody body (options.codecOf ix) = .ok c → c.length < 2 ^ 31

theorem PagesFit.column {columns : Columns} {options : WriteOptions}
    (hf : PagesFit columns options) (ix : ℕ) : ColumnFits columns options ix :=
  ⟨hf.rows, hf.pages ix⟩

/-- Few enough columns and row groups too, and short enough filters and footer. -/
structure Fits (columns : Columns) (options : WriteOptions) : Prop
    extends PagesFit columns options where
  columnCount : columns.length < 2 ^ 31
  rowGroups : rowGroupCount (rowsOf columns) options.rowGroupSize ≤ 2 ^ 15
  blooms : ∀ ix col, IsSlice columns options ix col → ∀ fpp ∈ options.fppOf ix,
    (buildBloomForColumn col fpp).length < 2 ^ 31
  footer : ∀ t, writtenTable columns options = .ok t → t.footer.length < 2 ^ 32
  totals : ∀ t, writtenTable columns options = .ok t → ∀ g ∈ t.groups,
    (g.columns.map EncodedColumn.uncompressedSize).sum < 2 ^ 63

/-! ## Pages -/

/-- A page whose header was made of the casts of its sizes and of its count. -/
def EncodedPage.Cast (p : EncodedPage) : Prop :=
  p.header.uncompressedPageSize = Int32.ofNat p.uncompressed.length ∧
    p.header.compressedPageSize = Int32.ofNat p.body.length ∧
    headerCounts p.header ≠ [] ∧ ∀ n ∈ headerCounts p.header, n = Int32.ofNat p.numValues

omit [Platform] in
theorem EncodedPage.Cast.exact_iff {p : EncodedPage} (h : p.Cast) :
    p.RecordedExact ↔
      p.uncompressed.length < 2 ^ 31 ∧ p.body.length < 2 ^ 31 ∧ p.numValues < 2 ^ 31 := by
  obtain ⟨hu, hc, hne, hcounts⟩ := h
  constructor
  · rintro ⟨hu', hc', hcounts'⟩
    obtain ⟨n, hn⟩ := List.exists_mem_of_ne_nil _ hne
    have hcount := hcounts' n hn
    rw [hcounts n hn] at hcount
    exact ⟨toInt_i32_iff.mp (hu ▸ hu'), toInt_i32_iff.mp (hc ▸ hc'), toInt_i32_iff.mp hcount⟩
  · rintro ⟨hu', hc', hn⟩
    exact ⟨hu ▸ toInt_i32_iff.mpr hu', hc ▸ toInt_i32_iff.mpr hc',
      fun n hmem => hcounts n hmem ▸ toInt_i32_iff.mpr hn⟩

/-- What the pages of a column are. -/
structure EncodedColumn.Spec (c : EncodedColumn) (options : WriteOptions) (ix : ℕ)
    (col : ColumnData) (chunkRows : ℕ) : Prop where
  dataCast : c.data.Cast
  dictCast : ∀ d ∈ c.dictionary, d.Cast
  dataRows : c.data.numValues = chunkRows
  dictRows : ∀ d ∈ c.dictionary, col.rowCount ≤ 2 ^ 32 → d.numValues ≤ col.rowCount
  bodies : pageBodies (options.isDict ix) col
    = (c.dictionary.toList ++ [c.data]).map EncodedPage.uncompressed
  compressed : ∀ p ∈ c.dictionary.toList ++ [c.data],
    compressBody p.uncompressed (options.codecOf ix) = .ok p.body
  bloom : c.bloom = (options.fppOf ix).map (buildBloomForColumn col)

omit [Platform] in
theorem encodeDict_rows {col : ColumnData} {dictBody : Bytes} {dictLen : ℕ}
    {indices : List UInt32} (h : col.encodeDict = some (dictBody, dictLen, indices))
    (hrows : col.rowCount ≤ 2 ^ 32) : dictLen ≤ col.rowCount := by
  cases col with
  | u64 v => cases h
  | bool v => cases h
  | _ v =>
    cases h
    exact (entryOf_buildDict hrows rfl).2.1

theorem EncodedFrom.spec {options : WriteOptions} {ix : ℕ} {col : ColumnData} {chunkRows : ℕ}
    {c : EncodedColumn} (h : EncodedFrom options ix col chunkRows c) :
    c.Spec options ix col chunkRows := by
  cases h with
  | plain hdict hdata =>
    obtain ⟨compressed, hcompressed, hdata⟩ := bind_eq_ok.mp hdata
    cases hdata
    refine ⟨?_, by simp, rfl, by simp, by simp [pageBodies, hdict], by simpa using hcompressed, rfl⟩
    cases options.pageVersion <;>
      simp [EncodedPage.Cast, headerCounts, dataPageHeaderV1, dataPageHeaderV2]
  | dict hdict hdata =>
    unfold encodeDictColumn at hdata
    cases henc : col.encodeDict with
    | none => simp [henc] at hdata
    | some enc =>
      obtain ⟨dictBody, dictLen, indices⟩ := enc
      rw [henc] at hdata
      obtain ⟨dictCompressed, hd, hdata⟩ := bind_eq_ok.mp hdata
      obtain ⟨dataCompressed, hc, hdata⟩ := bind_eq_ok.mp hdata
      cases hdata
      refine ⟨?_, ?_, rfl, ?_, by simp [pageBodies, hdict, henc], ?_, rfl⟩
      · simp [EncodedPage.Cast, headerCounts, dataPageHeaderV1]
      · simp [EncodedPage.Cast, headerCounts, dictionaryPageHeader]
      · rintro d ⟨⟩ hrows
        exact encodeDict_rows henc hrows
      · simpa using ⟨hd, hc⟩

/-! ## The columns of a written table -/

omit [Platform] in
theorem rowCount_slice {start stop : ℕ} {col slice : ColumnData}
    (h : col.slice start stop = .ok slice) : slice.rowCount = stop - start := by
  cases col <;> {
    obtain ⟨w, hw, h⟩ := map_eq_ok.mp h
    obtain ⟨hle, hlen, rfl⟩ := slice_eq_ok.mp hw
    subst h
    simp [ColumnData.rowCount]
    omega }

variable {columns : Columns} {options : WriteOptions} {t : WrittenTable}

theorem totalRows_eq (h : writtenTable columns options = .ok t) :
    t.totalRows = rowsOf columns ∧ columns ≠ [] ∧ 0 < options.rowGroupSize := by
  obtain ⟨hcheck, -⟩ := writtenTable_eq_ok.mp h
  obtain ⟨hne, hsize, hrows⟩ := checkTable_eq_ok hcheck
  obtain ⟨first, rest, rfl⟩ := List.exists_cons_of_ne_nil hne
  exact ⟨(hrows first List.mem_cons_self).symm, hne, hsize⟩

/-- Column `ix` of row group `r` is the encoding of a slice. -/
theorem column_slice {r ix : ℕ} {g : EncodedGroup} {c : EncodedColumn}
    (h : writtenTable columns options = .ok t) (hg : t.groups[r]? = some g)
    (hc : g.columns[ix]? = some c) :
    ∃ named col, columns[ix]? = some named ∧ IsSlice columns options ix col ∧
      col.rowCount = g.chunkRows ∧ c.Spec options ix col g.chunkRows := by
  obtain ⟨-, henc, -⟩ := writtenTable_eq_ok.mp h
  obtain ⟨hn, -⟩ := totalRows_eq h
  obtain ⟨range, hrange, hrows, hlen, hcols⟩ := encodeTable_group henc hg
  have hix : ix < columns.length := hlen ▸ (List.getElem?_eq_some_iff.mp hc).1
  obtain ⟨col, c', hslice, hc', hfrom⟩ := hcols ix columns[ix] (List.getElem?_eq_getElem hix)
  rw [hc] at hc'
  cases hc'
  refine ⟨_, col, List.getElem?_eq_getElem hix,
    ⟨_, range, List.getElem?_eq_getElem hix, ?_, hslice⟩, ?_, hfrom.spec⟩
  · rw [← hn]
    exact List.mem_of_getElem? hrange
  · rw [rowCount_slice hslice, hrows]

/-- Every slice is encoded in some row group. -/
theorem slice_column {ix : ℕ} {col : ColumnData} (h : writtenTable columns options = .ok t)
    (hcol : IsSlice columns options ix col) :
    ∃ (r : ℕ) (g : EncodedGroup) (c : EncodedColumn), t.groups[r]? = some g ∧
      g.columns[ix]? = some c ∧ c.Spec options ix col g.chunkRows := by
  obtain ⟨-, henc, -⟩ := writtenTable_eq_ok.mp h
  obtain ⟨hn, -⟩ := totalRows_eq h
  obtain ⟨named, range, hnamed, hrange, hslice⟩ := hcol
  obtain ⟨r, hr⟩ := List.mem_iff_getElem?.mp hrange
  obtain ⟨g, hg, -⟩ := (mapM_getElem? henc r).1 range (hn ▸ hr)
  obtain ⟨range', hrange', -, -, hcols⟩ := encodeTable_group henc hg
  rw [hn, hr] at hrange'
  cases hrange'
  obtain ⟨col', c, hslice', hc, hfrom⟩ := hcols ix named hnamed
  rw [hslice] at hslice'
  cases hslice'
  exact ⟨r, g, c, hg, hc, hfrom.spec⟩

/-- The number of row groups, at least one. -/
theorem groups_length (h : writtenTable columns options = .ok t) :
    t.groups.length = rowGroupCount (rowsOf columns) options.rowGroupSize ∧
      0 < t.groups.length := by
  obtain ⟨-, henc, -⟩ := writtenTable_eq_ok.mp h
  obtain ⟨hn, -, hsize⟩ := totalRows_eq h
  have hlen : t.groups.length = rowGroupCount (rowsOf columns) options.rowGroupSize := by
    rw [encodeTable_length henc, rowGroupRanges_eq hsize, hn]
    simp
  refine ⟨hlen, ?_⟩
  rw [hlen, rowGroupCount]
  split
  · exact Nat.one_pos
  · rw [divCeil, Nat.div_pos_iff]
    omega

/-- The footer lists the row groups, as many as there are ranges. -/
theorem rowGroups_length (h : writtenTable columns options = .ok t) :
    t.metadata.rowGroups.length = t.groups.length ∧
      t.groups.length = rowGroupCount (rowsOf columns) options.rowGroupSize := by
  obtain ⟨-, -, hmd, -⟩ := writtenTable_eq_ok.mp h
  obtain ⟨hcount, -⟩ := groups_length h
  have hplace : ∀ written (gs : List EncodedGroup), (placeGroups written gs).length = gs.length := by
    intro written gs
    induction gs generalizing written with
    | nil => rfl
    | cons g gs ih => rw [placeGroups, List.length_cons, ih, List.length_cons]
  refine ⟨?_, hcount⟩
  rw [hmd]
  simp [footerMetadata, hplace]

omit [Platform] in
theorem IsSlice.rowCount_le {ix : ℕ} {col : ColumnData} (hsize : 0 < options.rowGroupSize)
    (hcol : IsSlice columns options ix col) :
    col.rowCount ≤ min (rowsOf columns) options.rowGroupSize := by
  obtain ⟨named, range, -, hrange, hslice⟩ := hcol
  obtain ⟨r, hr⟩ := List.mem_iff_getElem?.mp hrange
  obtain ⟨-, rfl, -⟩ := getElem?_rowGroupRanges hsize hr
  rw [rowCount_slice hslice]
  dsimp only
  rw [Nat.succ_mul]
  omega

/-- The first row group is the largest. -/
theorem chunkRows_le {r : ℕ} {g : EncodedGroup} (h : writtenTable columns options = .ok t)
    (hg : t.groups[r]? = some g) :
    g.chunkRows ≤ min (rowsOf columns) options.rowGroupSize ∧
      (r = 0 → g.chunkRows = min (rowsOf columns) options.rowGroupSize) := by
  obtain ⟨-, henc, -⟩ := writtenTable_eq_ok.mp h
  obtain ⟨hn, -, hsize⟩ := totalRows_eq h
  obtain ⟨range, hrange, hrows, -⟩ := encodeTable_group henc hg
  obtain ⟨-, rfl, -⟩ := getElem?_rowGroupRanges hsize hrange
  rw [hrows, ← hn]
  dsimp only
  have hstop : (r + 1) * options.rowGroupSize = r * options.rowGroupSize + options.rowGroupSize :=
    Nat.succ_mul _ _
  constructor
  · omega
  · rintro rfl
    omega

/-- The entries of row group `r` and of its column `ix` in the footer. -/
theorem footer_entries {r ix : ℕ} {g : EncodedGroup} {named : String × ColumnData}
    {c : EncodedColumn} (h : writtenTable columns options = .ok t)
    (hg : t.groups[r]? = some g) (hnamed : columns[ix]? = some named)
    (hc : g.columns[ix]? = some c) :
    ∃ rg, t.metadata.rowGroups[r]? = some rg ∧
      rg.columns[ix]? = some (footerColumn named.1 named.2 (options.codecOf ix) g.chunkRows
        (placeColumn (columnPrefix t.groups g r ix).length c)) := by
  refine ⟨_, getElem?_rowGroups h hg, ?_⟩
  rw [getElem?_footerGroup hnamed hc]
  simp only [columnPrefix, List.length_append]
  rfl

theorem fits_of_recordedExact (h : writtenTable columns options = .ok t)
    (hr : t.RecordedExact columns options) : Fits columns options := by
  obtain ⟨-, -, hmd, -⟩ := writtenTable_eq_ok.mp h
  obtain ⟨hn, hne, hsize⟩ := totalRows_eq h
  obtain ⟨hcount, hpos⟩ := groups_length h
  -- the entry of a column, in its row group
  have hcolumn : ∀ {ix col}, IsSlice columns options ix col → ∃ (r : ℕ) (g : EncodedGroup)
      (c : EncodedColumn) (cc : ColumnChunk),
      (∃ named : String × ColumnData, cc = footerColumn named.1 named.2 (options.codecOf ix) g.chunkRows
        (placeColumn (columnPrefix t.groups g r ix).length c)) ∧
      c.Spec options ix col g.chunkRows ∧ c.RecordedExact t.bytes g.chunkRows cc := by
    intro ix col hcol
    obtain ⟨r, g, c, hg, hc, hspec⟩ := slice_column h hcol
    obtain ⟨rg, hrg, hgroup⟩ := hr.groups r g hg
    obtain ⟨cc, hcc, hexact⟩ := hgroup.columns ix c hc
    obtain ⟨named, -, hnamed, -⟩ := column_slice h hg hc
    obtain ⟨rg', hrg', hentry⟩ := footer_entries h hg hnamed hc
    rw [hrg] at hrg'
    cases hrg'
    rw [hcc] at hentry
    cases hentry
    exact ⟨r, g, c, _, ⟨named, rfl⟩, hspec, hexact⟩
  refine ⟨⟨?_, ?_⟩, ?_, ?_, ?_, ?_, ?_⟩
  · have hg : t.groups[0]? = some t.groups[0] := List.getElem?_eq_getElem hpos
    have hix : 0 < columns.length := List.length_pos_of_ne_nil hne
    obtain ⟨-, henc, -⟩ := writtenTable_eq_ok.mp h
    obtain ⟨range, hrange, -, hlen, -⟩ := encodeTable_group henc hg
    have hc : t.groups[0].columns[0]? = some t.groups[0].columns[0] :=
      List.getElem?_eq_getElem (hlen ▸ hix)
    obtain ⟨-, col, -, hslice, -, hspec⟩ := column_slice h hg hc
    obtain ⟨rg, -, hgroup⟩ := hr.groups 0 _ hg
    obtain ⟨cc, -, hcc⟩ := hgroup.columns 0 _ hc
    have hrows := (hspec.dataCast.exact_iff.mp hcc.data).2.2
    rw [hspec.dataRows, (chunkRows_le h hg).2 rfl] at hrows
    exact hrows
  · intro ix col hcol body hbody
    obtain ⟨r, g, c, cc, -, hspec, hcc⟩ := hcolumn hcol
    rw [hspec.bodies, List.mem_map] at hbody
    obtain ⟨p, hp, rfl⟩ := hbody
    have hexact : p.uncompressed.length < 2 ^ 31 ∧ p.body.length < 2 ^ 31 := by
      rcases List.mem_append.mp hp with hd | hd
      · have hd := Option.mem_toList.mp hd
        have := (hspec.dictCast p hd).exact_iff.mp (hcc.dictionary p hd)
        exact ⟨this.1, this.2.1⟩
      · rw [List.mem_singleton.mp hd]
        have := hspec.dataCast.exact_iff.mp hcc.data
        exact ⟨this.1, this.2.1⟩
    refine ⟨hexact.1, fun w hw => ?_⟩
    rw [hspec.compressed p hp] at hw
    cases hw
    exact hexact.2
  · obtain ⟨root, children, hroot, hchildren, hlen⟩ := hr.numChildren
    rw [hmd] at hroot
    cases hroot
    cases hchildren
    exact toInt_i32_iff.mp hlen
  · obtain ⟨g, hg⟩ : ∃ g, t.groups[t.groups.length - 1]? = some g :=
      ⟨_, List.getElem?_eq_getElem (by omega)⟩
    obtain ⟨rg, hrg, hgroup⟩ := hr.groups _ g hg
    obtain ⟨ordinal, hordinal, hexact⟩ := hgroup.ordinal
    rw [getElem?_rowGroups h hg] at hrg
    cases hrg
    cases hordinal
    have := toInt_i16_iff.mp hexact
    omega
  · intro ix col hcol fpp hfpp
    obtain ⟨r, g, c, cc, hentry, hspec, hcc⟩ := hcolumn hcol
    obtain ⟨cm, hcm, hmeta⟩ := hcc.metaData
    have hblob : c.bloom = some (buildBloomForColumn col fpp) := by
      rw [hspec.bloom, Option.mem_def.mp hfpp]
      rfl
    obtain ⟨len, hlen, hexact⟩ := hmeta.bloomFilterLength _ hblob
    have hcast : len = Int32.ofNat (buildBloomForColumn col fpp).length := by
      obtain ⟨named, hentry⟩ := hentry
      cases hentry
      cases hcm
      simp only [placeColumn, hblob, Option.map_some, Option.mem_def, Option.some.injEq] at hlen
      exact hlen.symm
    exact toInt_i32_iff.mp (hcast ▸ hexact)
  · intro t' ht'
    rw [h] at ht'
    cases ht'
    exact leNat_leBytes_iff.mp hr.footerLength
  · intro t' ht' g hg
    rw [h] at ht'
    cases ht'
    obtain ⟨r, hg⟩ := List.mem_iff_getElem?.mp hg
    obtain ⟨rg, hrg, hgroup⟩ := hr.groups r g hg
    have hexact := hgroup.totalByteSize
    rw [getElem?_rowGroups h hg] at hrg
    cases hrg
    change (List.foldl _ (Int64.ofNat 0) _).toInt = _ at hexact
    rw [foldl_totalUncompressedSize, Nat.zero_add] at hexact
    exact toInt_i64_iff.mp hexact

/-! ## What fits is recorded -/

omit [Platform] in
theorem bytesAt_of_append {file before w after : Bytes} {n : ℕ}
    (h : file = before ++ (w ++ after)) (hlen : file.length < 2 ^ 63) (hn : n = before.length) :
    BytesAt file (Int64.ofNat n) w := by
  refine ⟨before, after, h, ?_⟩
  rw [hn]
  refine toInt_i64_iff.mpr (lt_of_le_of_lt ?_ hlen)
  simp [h]

omit [Platform] in
/-- A value of a column is inside the page that holds it. -/
theorem length_le_encodePlainByteArray {vs : List Bytes} {v : Bytes} (h : v ∈ vs) :
    v.length ≤ (encodePlainByteArray vs).length := by
  obtain ⟨before, after, rfl⟩ := List.append_of_mem h
  simp [encodePlainByteArray]
  omega

omit [Platform] in
theorem length_le_pageBodies {isDict : Bool} {vs : List Bytes} {v : Bytes} (h : v ∈ vs)
    (hrows : vs.length ≤ 2 ^ 32) :
    ∃ body ∈ pageBodies isDict (.byteArray vs), v.length ≤ body.length := by
  cases isDict with
  | false => exact ⟨_, List.mem_singleton.mpr rfl, length_le_encodePlainByteArray h⟩
  | true =>
    refine ⟨_, List.mem_cons_self, ?_⟩
    obtain ⟨hentries, -⟩ := entryOf_buildDict hrows (Prod.mk.eta (p := buildDict vs)).symm
    obtain ⟨k, hk⟩ := List.mem_iff_getElem?.mp h
    obtain ⟨hlt, rfl⟩ := List.getElem?_eq_some_iff.mp hk
    have hentry := (List.forall₂_iff_get.mp hentries).2 k (hentries.length_eq ▸ hlt) hlt
    exact length_le_encodePlainByteArray (List.mem_of_getElem? hentry)

/-- The pages of a slice, as they are written. -/
theorem ColumnFits.pages_lt {ix chunkRows : ℕ} {col : ColumnData} {c : EncodedColumn}
    (hf : ColumnFits columns options ix) (hcol : IsSlice columns options ix col)
    (hspec : c.Spec options ix col chunkRows) :
    ∀ p ∈ c.dictionary.toList ++ [c.data],
      p.uncompressed.length < 2 ^ 31 ∧ p.body.length < 2 ^ 31 := by
  intro p hp
  have hbody : p.uncompressed ∈ pageBodies (options.isDict ix) col := by
    rw [hspec.bodies]
    exact List.mem_map_of_mem hp
  obtain ⟨hu, hc⟩ := hf.pages col hcol _ hbody
  exact ⟨hu, hc _ (hspec.compressed p hp)⟩

/-- Few row groups of few rows: the number of rows is an `i64`. -/
theorem Fits.rows_lt (hf : Fits columns options) (hsize : 0 < options.rowGroupSize) :
    rowsOf columns < 2 ^ 63 := by
  have hrows := hf.rows
  by_cases hle : rowsOf columns ≤ options.rowGroupSize
  · omega
  · have hcount := hf.rowGroups
    rw [rowGroupCount, if_neg (by omega), divCeil] at hcount
    have hlt := Nat.lt_mul_of_div_lt (Nat.lt_succ_of_le hcount) hsize
    have hmul : (2 ^ 15 + 1) * options.rowGroupSize ≤ (2 ^ 15 + 1) * 2 ^ 31 :=
      Nat.mul_le_mul_left _ (by omega)
    rw [Nat.succ_eq_add_one] at hlt
    omega

omit [Platform] in
theorem length_pageBytes (c : EncodedColumn) :
    c.pageBytes.length
      = (c.dictionary.elim 0 fun d => d.sizeWith d.body) + c.data.sizeWith c.data.body := by
  cases hd : c.dictionary <;>
    simp [EncodedColumn.pageBytes, hd, EncodedPage.bytes, writePage, EncodedPage.sizeWith,
      Nat.add_assoc]

omit [Platform] in
/-- The entry of a column whose pages fit. -/
theorem recordedIn_footerColumn {c : EncodedColumn} {file before after : Bytes} {chunkRows : ℕ}
    {named : String × ColumnData} {codec : CompressionCodec}
    (hfile : file = before ++ (c.bytes ++ after)) (hlen : file.length < 2 ^ 63)
    (hrows : chunkRows < 2 ^ 31) (hsize : c.uncompressedSize < 2 ^ 63)
    (hbloom : ∀ blob ∈ c.bloom, blob.length < 2 ^ 31) :
    let cc := footerColumn named.1 named.2 codec chunkRows (placeColumn before.length c)
    BytesAt file cc.fileOffset c.pageBytes ∧
      ∃ cm ∈ cc.metaData, c.RecordedIn file chunkRows cm := by
  have hpages : file = before ++ (c.pageBytes ++ (c.bloom.getD [] ++ after)) := by
    rw [hfile, EncodedColumn.bytes, List.append_assoc]
  have hdata : file = (before ++ c.dictionary.elim [] EncodedPage.bytes)
      ++ (c.data.bytes ++ (c.bloom.getD [] ++ after)) := by
    rw [hpages, EncodedColumn.pageBytes]
    simp only [List.append_assoc]
  have hdict : (c.dictionary.elim 0 fun d => d.bytes.length)
      = (c.dictionary.elim [] EncodedPage.bytes).length := by
    cases c.dictionary <;> rfl
  have htotal : c.pageBytes.length < 2 ^ 63 := by
    refine lt_of_le_of_lt ?_ hlen
    simp only [hpages, List.length_append]
    omega
  refine ⟨?_, _, rfl, ?_⟩
  · have hoffset : (footerColumn named.1 named.2 codec chunkRows
        (placeColumn before.length c)).fileOffset = Int64.ofNat before.length := by
      cases hd : c.dictionary <;> simp [footerColumn, placeColumn, hd]
    exact hoffset ▸ bytesAt_of_append hpages hlen rfl
  · constructor
    · exact toInt_i64_iff.mpr (by omega)
    · exact toInt_i64_iff.mpr hsize
    · rw [length_pageBytes] at htotal ⊢
      exact toInt_i64_iff.mpr htotal
    · exact bytesAt_of_append hdata hlen (by simp [hdict])
    · intro d hd
      have hd : c.dictionary = some d := hd
      refine ⟨Int64.ofNat before.length, by simp [placeColumn, hd], ?_⟩
      have hsplit : file = before ++ (d.bytes ++ (c.data.bytes ++ (c.bloom.getD [] ++ after))) := by
        rw [hpages, EncodedColumn.pageBytes, hd]
        simp
      exact bytesAt_of_append hsplit hlen rfl
    · intro blob hblob
      have hblob : c.bloom = some blob := hblob
      have hoffset : (placeColumn before.length c).bloomFilterOffset = some (Int64.ofNat
          (before.length + (c.dictionary.elim 0 fun d => d.bytes.length) + c.data.bytes.length)) := by
        simp only [placeColumn, hblob, Option.map_some]
      have hsplit : file = (before ++ c.pageBytes) ++ (blob ++ after) := by
        rw [hfile, EncodedColumn.bytes, hblob]
        simp
      refine ⟨_, hoffset, bytesAt_of_append hsplit hlen ?_⟩
      · rw [List.length_append, EncodedColumn.pageBytes, List.length_append, ← hdict,
          Nat.add_assoc]
    · intro blob hblob
      exact ⟨_, by simp [placeColumn, Option.mem_def.mp hblob],
        toInt_i32_iff.mpr (hbloom blob hblob)⟩

/-- **What fits is recorded.** -/
theorem recordedExact_of_fits (h : writtenTable columns options = .ok t)
    (hlen : t.bytes.length < 2 ^ 63) (hf : Fits columns options) :
    t.RecordedExact columns options := by
  obtain ⟨-, -, hmd, -⟩ := writtenTable_eq_ok.mp h
  obtain ⟨hn, hne, hsize⟩ := totalRows_eq h
  obtain ⟨hcount, -⟩ := groups_length h
  constructor
  · exact leNat_leBytes_iff.mpr (hf.footer t h)
  · rw [hmd]
    exact toInt_i64_iff.mpr (hn ▸ hf.rows_lt hsize)
  · rw [hmd]
    exact ⟨_, _, rfl, rfl, toInt_i32_iff.mpr hf.columnCount⟩
  · intro ix vs hcol v hv
    have hrows : vs.length ≤ _ := hcol.rowCount_le hsize
    have hrows : vs.length ≤ 2 ^ 32 := by
      have := hf.rows
      omega
    obtain ⟨body, hbody, hle⟩ := @length_le_pageBodies (options.isDict ix) _ _ hv hrows
    have := (hf.pages ix _ hcol body hbody).1
    exact leNat_leBytes_iff.mpr (by omega)
  · intro r g hg
    refine ⟨_, getElem?_rowGroups h hg, ?_⟩
    have hrows : g.chunkRows < 2 ^ 31 := lt_of_le_of_lt (chunkRows_le h hg).1 hf.rows
    have htotal := hf.totals t h g (List.mem_of_getElem? hg)
    have hr : r < 2 ^ 15 := by
      have := (List.getElem?_eq_some_iff.mp hg).1
      have := hf.rowGroups
      omega
    constructor
    · exact ⟨_, rfl, toInt_i16_iff.mpr hr⟩
    · exact toInt_i64_iff.mpr (by omega)
    · change (List.foldl _ (Int64.ofNat 0) _).toInt = _
      rw [foldl_totalUncompressedSize, Nat.zero_add]
      exact toInt_i64_iff.mpr htotal
    · intro ix c hc
      obtain ⟨named, col, hnamed, hcol, hcolRows, hspec⟩ := column_slice h hg hc
      obtain ⟨rg, hrg, hentry⟩ := footer_entries h hg hnamed hc
      rw [getElem?_rowGroups h hg] at hrg
      cases hrg
      obtain ⟨rest, hfile⟩ := @fileBytes_column _ t.footer _ _ _ _ hg hc
      have hsize : c.uncompressedSize < 2 ^ 63 := by
        refine lt_of_le_of_lt ?_ htotal
        exact List.le_sum_of_mem (List.mem_map_of_mem (List.mem_of_getElem? hc))
      have hbloom : ∀ blob ∈ c.bloom, blob.length < 2 ^ 31 := by
        rw [hspec.bloom]
        intro blob hblob
        obtain ⟨fpp, hfpp, rfl⟩ := Option.map_eq_some_iff.mp hblob
        exact hf.blooms ix col hcol fpp hfpp
      obtain ⟨hoffset, hmeta⟩ := @recordedIn_footerColumn _ _ _ _ _ named
        (options.codecOf ix) hfile hlen hrows hsize hbloom
      have hpages := (hf.toPagesFit.column ix).pages_lt hcol hspec
      refine ⟨_, hentry, ⟨?_, ?_, hoffset, hmeta⟩⟩
      · obtain ⟨hu, hbody⟩ := hpages c.data (by simp)
        exact hspec.dataCast.exact_iff.mpr ⟨hu, hbody, hspec.dataRows ▸ hrows⟩
      · intro d hd
        obtain ⟨hu, hbody⟩ := hpages d (by simp [Option.mem_def.mp hd])
        have hentries := hspec.dictRows d hd (by omega)
        exact (hspec.dictCast d hd).exact_iff.mpr ⟨hu, hbody, by omega⟩

/-- **Everything recorded is exact** if and only if the table fits.  No file has
    `2 ^ 63` bytes. -/
theorem recordedExact_iff (h : writtenTable columns options = .ok t)
    (hlen : t.bytes.length < 2 ^ 63) : t.RecordedExact columns options ↔ Fits columns options :=
  ⟨fits_of_recordedExact h, recordedExact_of_fits h hlen⟩

end

/-! ## A table -/

/-- Two rows of one column. -/
def sampleTable : Columns := [("a", .i64 [1, 2])]

/-- Its file, in row groups of one row. -/
def sampleFile : Res CodecError WrittenTable :=
  @writtenTable Platform.stored sampleTable { rowGroupSize := 1 }

theorem recordedExact_iff_sample : ∃ t, sampleFile = .ok t ∧ t.bytes.length < 2 ^ 63 ∧
    (t.RecordedExact sampleTable { rowGroupSize := 1 } ↔
      @Fits Platform.stored sampleTable { rowGroupSize := 1 }) := by
  let _ := Platform.stored
  have hbytes : (fun t => t.bytes.length) <$> sampleFile = .ok 372 := by decide +kernel
  obtain ⟨t, ht, hlen⟩ := map_eq_ok.mp hbytes
  have hlen : t.bytes.length < 2 ^ 63 := by
    rw [hlen]
    decide
  exact ⟨t, ht, hlen, recordedExact_iff ht hlen⟩

/-- `n` rows of one column. -/
def zeros (n : ℕ) : Columns := [("a", .i64 (List.replicate n 0))]

theorem rowsOf_zeros (n : ℕ) : rowsOf (zeros n) = n := List.length_replicate

/-- Row groups of one row are as many as the rows, and the ordinals wrap. -/
theorem writtenTable_zeros [Platform] {n r : ℕ} (hn : 2 ^ 15 < n) (hr : r < n) :
    ∃ t, writtenTable (zeros n) { rowGroupSize := 1 } = .ok t ∧
      (∃ rg, t.metadata.rowGroups[r]? = some rg ∧ rg.ordinal = some (Int16.ofNat r)) ∧
      ¬ t.RecordedExact (zeros n) { rowGroupSize := 1 } := by
  have hcheck : checkTable (zeros n) { rowGroupSize := 1 } = .ok (rowsOf (zeros n)) := rfl
  obtain ⟨t, ht⟩ := exists_writtenTable hcheck rfl rfl rfl rfl
  have hcount : rowGroupCount (rowsOf (zeros n)) 1 = n := by
    rw [rowsOf_zeros, rowGroupCount, if_neg (by omega), divCeil]
    omega
  obtain ⟨hgroups, -⟩ := groups_length ht
  have hlt : r < t.groups.length := by
    rw [hgroups, hcount]
    exact hr
  refine ⟨t, ht, ⟨_, getElem?_rowGroups ht (List.getElem?_eq_getElem hlt), rfl⟩, fun hexact => ?_⟩
  have := (fits_of_recordedExact ht hexact).rowGroups
  rw [hcount] at this
  omega

/-- One row group for each of 32769 rows: the last ordinal is negative. -/
theorem rowGroup_ordinal_wraps : ∃ t,
    @writtenTable Platform.stored (zeros 32769) { rowGroupSize := 1 } = .ok t ∧
    (∃ rg, t.metadata.rowGroups[32768]? = some rg ∧ rg.ordinal = some (-32768 : Int16)) ∧
    ¬ t.RecordedExact (zeros 32769) { rowGroupSize := 1 } :=
  @writtenTable_zeros Platform.stored 32769 32768 (by omega) (by omega)

end EmatixParquet
