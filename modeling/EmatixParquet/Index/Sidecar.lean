/-
  A written sidecar, read back: its manifest and the columns of its body.

  * `readManifest_written`: the manifest of a sidecar is the one it was written
    with, if its names are clean;
  * `WrittenFile.open_sidecar`: the sidecar opens to its index;
  * `WrittenFile.readI64` and its siblings: a row group of a column has its rows;
  * `readColumnRgs_groups`: all row groups together have the column.
-/
import EmatixParquet.Codec.RoundTrip
import EmatixParquet.Index.Builder
import EmatixParquet.Index.Lazy
import Mathlib.Data.List.Flatten

namespace EmatixParquet

open Wire

/-! ## Columns in pieces -/

section
variable {α β : Type}

/-- The rows of row group `r`, of `size` rows each. -/
def groupRows (v : List α) (size r : ℕ) : List α :=
  (v.take (min ((r + 1) * size) v.length)).drop (r * size)

theorem groupRows_map (f : α → β) (v : List α) (size r : ℕ) :
    groupRows (v.map f) size r = (groupRows v size r).map f := by
  rw [groupRows, groupRows, List.length_map, List.map_drop, List.map_take]

/-- The only row group has all rows. -/
theorem groupRows_zero {v : List α} {size : ℕ} (h : v.length ≤ size) : groupRows v size 0 = v := by
  rw [groupRows, Nat.zero_add, Nat.one_mul, Nat.min_eq_right h, List.take_length, Nat.zero_mul,
    List.drop_zero]

/-- The first `k` row groups. -/
theorem flatten_groupRows (v : List α) (size k : ℕ) :
    ((List.range k).map (groupRows v size)).flatten = v.take (min (k * size) v.length) := by
  induction k with
  | zero => simp
  | succ k ih =>
    have hle : k * size ≤ (k + 1) * size := Nat.mul_le_mul_right _ (by omega)
    have hmin : min (k * size) (min ((k + 1) * size) v.length) = min (k * size) v.length := by
      rw [← Nat.min_assoc, Nat.min_eq_left hle]
    rw [List.range_succ, List.map_append, List.flatten_append, ih]
    simp only [List.map_cons, List.map_nil, List.flatten_cons, List.flatten_nil, List.append_nil]
    rw [← hmin, ← List.take_take]
    exact List.take_append_drop _ _

/-- The row groups reach the end. -/
theorem le_rowGroupCount {n size : ℕ} (hsize : 0 < size) : n ≤ rowGroupCount n size * size := by
  rw [rowGroupCount]
  split
  · omega
  · rw [divCeil]
    have hlt := Nat.lt_div_mul_add (a := n + (size - 1)) hsize
    omega

/-- **All row groups** of a column. -/
theorem flatten_allGroups (v : List α) {size : ℕ} (hsize : 0 < size) :
    ((List.range (rowGroupCount v.length size)).map (groupRows v size)).flatten = v := by
  rw [flatten_groupRows, Nat.min_eq_right (le_rowGroupCount hsize), List.take_length]

theorem readColumnRgs_groups {read : ParquetFile → ℕ → ℕ → Res CodecError (List α)}
    {file : ParquetFile} {ix size : ℕ} {v : List α} (hsize : 0 < size)
    (h : ∀ r < rowGroupCount v.length size, read file r ix = .ok (groupRows v size r)) :
    readColumnRgs read file 0 (rowGroupCount v.length size) ix = .ok v := by
  have hgroups : (List.range' 0 (rowGroupCount v.length size)).mapM (fun r => read file r ix)
      = .ok ((List.range (rowGroupCount v.length size)).map (groupRows v size)) := by
    rw [← List.range_eq_range', mapM_eq_ok, List.forall₂_map_right_iff]
    exact List.forall₂_same.mpr fun r hr => h r (List.mem_range.mp hr)
  rw [readColumnRgs, hgroups]
  exact congrArg Except.ok (flatten_allGroups v hsize)

theorem rowGroupCount_pos (n : ℕ) {size : ℕ} (hsize : 0 < size) : 1 ≤ rowGroupCount n size := by
  rw [rowGroupCount]
  split
  · rfl
  · rw [divCeil, Nat.le_div_iff_mul_le hsize]
    omega

/-- One row group is enough for fewer rows than it may have. -/
theorem rowGroupCount_one {n size : ℕ} (hsize : 0 < size) (h : n ≤ size) :
    rowGroupCount n size = 1 := by
  rw [rowGroupCount]
  split
  · rfl
  · rw [divCeil, Nat.div_eq_iff hsize]
    omega

theorem defaultRowGroupSize_gt : 2 ^ 31 < defaultRowGroupSize := by decide

/-- A body in one row group. -/
theorem rowGroupCount_default {n : ℕ} (h : min n defaultRowGroupSize < 2 ^ 31) :
    rowGroupCount n defaultRowGroupSize = 1 := by
  have hsize := defaultRowGroupSize_gt
  exact rowGroupCount_one (by omega) (by omega)

end

/-! ## Written tables -/

/-- A slice is no longer than its column. -/
theorem length_encodePlain_slice {col slice : ColumnData} {start stop : ℕ}
    (h : col.slice start stop = .ok slice) (hbool : ∀ v, col ≠ .bool v) :
    slice.encodePlain.length ≤ col.encodePlain.length := by
  have hflat : ∀ {α : Type} {v w : List α} (f : α → Bytes),
      (Wire.slice v start stop : Res CodecError (List α)) = .ok w →
      (w.flatMap f).length ≤ (v.flatMap f).length := by
    intro α v w f hw
    obtain ⟨-, -, rfl⟩ := slice_eq_ok.mp hw
    exact (((List.drop_sublist start _).trans (List.take_sublist stop v)).flatMap f).length_le
  cases col with
  | bool v => exact absurd rfl (hbool v)
  | _ v =>
    obtain ⟨w, hw, rfl⟩ := map_eq_ok.mp h
    exact hflat _ hw

section
variable [Platform] {columns : Columns} {options : WriteOptions} {t : WrittenTable}
  {file : ParquetFile}

/-- What is written for a table is short enough to be read back. -/
structure ShortTable (columns : Columns) (options : WriteOptions) : Prop
    extends PagesFit columns options where
  bytes : ∀ t, writtenTable columns options = .ok t → t.bytes.length < 2 ^ 63
  footer : ∀ t, writtenTable columns options = .ok t → t.footer.length < 2 ^ 32

/-- The file that the bytes of a table open to. -/
structure WrittenFile (t : WrittenTable) (columns : Columns) (options : WriteOptions)
    (file : ParquetFile) : Prop where
  written : writtenTable columns options = .ok t
  short : ShortTable columns options
  opens : ParquetFile.open t.bytes = .ok file
  bytes : file.bytes = t.bytes
  footerBytes : file.footerBytes = t.footer
  metadata : file.metadata = .ok t.metadata

theorem exists_writtenFile (h : writtenTable columns options = .ok t)
    (hshort : ShortTable columns options) : ∃ file, WrittenFile t columns options file := by
  obtain ⟨file, hopen, hbytes, hfooter, hmd⟩ := open_table h (hshort.footer t h)
  exact ⟨file, h, hshort, hopen, hbytes, hfooter, hmd⟩

/-- Byte arrays on short pages are short. -/
theorem PagesFit.length_lt (h : PagesFit columns options) {ix : ℕ} {values : List Bytes}
    (hcol : IsSlice columns options ix (.byteArray values)) (hrows : values.length < 2 ^ 31) :
    ∀ v ∈ values, v.length < 2 ^ 32 := by
  intro v hv
  obtain ⟨body, hbody, hle⟩ := @length_le_pageBodies (options.isDict ix) _ _ hv
    (le_of_lt (lt_trans hrows (by decide)))
  exact (lt_of_le_of_lt hle (h.pages ix _ hcol body hbody).1).trans (by decide)

/-- **A column of a row group**, of any type but boolean. -/
theorem WrittenFile.readsRows [LawfulPlatform] (h : WrittenFile t columns options file) {r ix : ℕ}
    {named : String × ColumnData} (hr : r < rowGroupCount (rowsOf columns) options.rowGroupSize)
    (hnamed : columns[ix]? = some named) (hbool : ∀ v, named.2 ≠ .bool v) :
    ReadsRows file r ix (r * options.rowGroupSize)
      (min ((r + 1) * options.rowGroupSize) (rowsOf columns)) named.2 := by
  obtain ⟨col, hslice, hcol, hread⟩ := decodeChunk_table h.written (h.short.column ix)
    (h.short.bytes t h.written) (h.short.footer t h.written) h.bytes h.metadata hr hnamed
  obtain ⟨-, -, hsize⟩ := totalRows_eq h.written
  have hrows := lt_of_le_of_lt (hcol.rowCount_le hsize) h.short.rows
  obtain ⟨name, data⟩ := named
  cases data with
  | bool v => exact absurd rfl (hbool v)
  | u64 v =>
    obtain ⟨w, hw, rfl⟩ := map_eq_ok.mp hslice
    obtain ⟨-, -, rfl⟩ := slice_eq_ok.mp hw
    exact hread (decodes_u64 _)
  | byteArray v =>
    obtain ⟨w, hw, rfl⟩ := map_eq_ok.mp hslice
    obtain ⟨-, -, rfl⟩ := slice_eq_ok.mp hw
    exact hread (decodes_byteArray hrows (h.short.length_lt hcol hrows))
  | i32 v | i64 v | f64 v =>
    obtain ⟨w, hw, rfl⟩ := map_eq_ok.mp hslice
    obtain ⟨-, -, rfl⟩ := slice_eq_ok.mp hw
    exact hread (decodes_fixed hrows rfl rfl rfl)

/-- A footer has fewer row groups than bytes. -/
theorem WrittenFile.rowGroupCount_lt (h : WrittenFile t columns options file) :
    rowGroupCount (rowsOf columns) options.rowGroupSize < 2 ^ 32 := by
  obtain ⟨-, -, -, hw⟩ := writtenTable_eq_ok.mp h.written
  obtain ⟨hlength, hcount⟩ := rowGroups_length h.written
  have hle := rowGroups_length_le_writeFileMetadata hw
  have hfooter := h.short.footer t h.written
  omega

/-- The columns of a table have one length. -/
theorem WrittenFile.rowCount_eq (h : WrittenFile t columns options file) {ix : ℕ} {name : String}
    {data : ColumnData} (hnamed : columns[ix]? = some (name, data)) :
    rowsOf columns = data.rowCount := by
  obtain ⟨hcheck, -⟩ := writtenTable_eq_ok.mp h.written
  obtain ⟨hn, -⟩ := totalRows_eq h.written
  rw [← hn]
  exact ((checkTable_eq_ok hcheck).2.2 _ (List.mem_of_getElem? hnamed)).symm

theorem WrittenFile.size_pos (h : WrittenFile t columns options file) :
    0 < options.rowGroupSize := (totalRows_eq h.written).2.2

section
variable [LawfulPlatform] {r ix : ℕ} {name : String}

theorem WrittenFile.readI32 {v : List Int32} (h : WrittenFile t columns options file)
    (hnamed : columns[ix]? = some (name, .i32 v))
    (hr : r < rowGroupCount v.length options.rowGroupSize) :
    readColumnI32 file r ix = .ok (groupRows v options.rowGroupSize r) := by
  have hrows : rowsOf columns = v.length := h.rowCount_eq hnamed
  rw [groupRows, ← hrows]
  exact h.readsRows (hrows.symm ▸ hr) hnamed (by simp)

theorem WrittenFile.readI64 {v : List Int64} (h : WrittenFile t columns options file)
    (hnamed : columns[ix]? = some (name, .i64 v))
    (hr : r < rowGroupCount v.length options.rowGroupSize) :
    readColumnI64 file r ix = .ok (groupRows v options.rowGroupSize r) := by
  have hrows : rowsOf columns = v.length := h.rowCount_eq hnamed
  rw [groupRows, ← hrows]
  exact h.readsRows (hrows.symm ▸ hr) hnamed (by simp)

theorem WrittenFile.readByteArray {v : List Bytes} (h : WrittenFile t columns options file)
    (hnamed : columns[ix]? = some (name, .byteArray v))
    (hr : r < rowGroupCount v.length options.rowGroupSize) :
    readColumnByteArray file r ix = .ok (groupRows v options.rowGroupSize r) := by
  have hrows : rowsOf columns = v.length := h.rowCount_eq hnamed
  rw [groupRows, ← hrows]
  exact h.readsRows (hrows.symm ▸ hr) hnamed (by simp)

end

/-- Whether the pages of a table are plain and short, and how long it and its
    footer are. -/
def tableLengths (table : Columns × WriteOptions) : Res CodecError (Bool × ℕ × ℕ) := do
  let t ← writtenTable table.1 table.2
  let short := table.2.dictPerColumn = none ∧ min (rowsOf table.1) table.2.rowGroupSize < 2 ^ 31 ∧
    ∀ named ∈ table.1, named.2.parquetType ≠ .boolean ∧ named.2.encodePlain.length + 2 < 2 ^ 31
  pure (decide short, t.bytes.length, t.footer.length)

omit [Platform] in
/-- A table that is stored, and short. -/
theorem shortTable_stored {table : Columns × WriteOptions} {n m : ℕ}
    (h : @tableLengths Platform.stored table = .ok (true, n, m)) (hn : n < 2 ^ 63) (hm : m < 2 ^ 32) :
    @ShortTable Platform.stored table.1 table.2 ∧
      ∃ t, @writtenTable Platform.stored table.1 table.2 = .ok t := by
  let _ := Platform.stored
  obtain ⟨t, ht, h⟩ := bind_eq_ok.mp h
  have h := Except.ok.inj h
  rw [Prod.mk.injEq, Prod.mk.injEq, decide_eq_true_eq] at h
  obtain ⟨⟨hdict, hrows, hbodies⟩, rfl, rfl⟩ := h
  refine ⟨⟨⟨hrows, fun ix col hcol body hbody => ?_⟩, fun t' ht' => ?_, fun t' ht' => ?_⟩, t, ht⟩
  · have hplain : table.2.isDict ix = false := by simp [WriteOptions.isDict, settingOf, hdict]
    obtain ⟨named, range, hnamed, -, hslice⟩ := hcol
    obtain ⟨hbool, hlen⟩ := hbodies named (List.mem_of_getElem? hnamed)
    rw [pageBodies, hplain, if_neg (by simp), List.mem_singleton] at hbody
    subst hbody
    have hle := length_encodePlain_slice hslice fun v hv => hbool (by rw [hv]; rfl)
    refine ⟨by omega, fun c hc => ?_⟩
    have hblock := length_compressBody_stored hc
    omega
  · cases ht.symm.trans ht'
    exact hn
  · cases ht.symm.trans ht'
    exact hm

end

/-! ## Bodies -/

section
variable {κ : Type}

/-- The body with these rows. -/
def bodyOf (entries : List (κ × IndexTargets.Row)) : LoadedTyped κ where
  values := entries.map fun e => e.1
  targetRgs := entries.map fun e => e.2.1
  targetPages := entries.map fun e => e.2.2.1
  rowsets := entries.map fun e => e.2.2.2

theorem aligned_bodyOf (entries : List (κ × IndexTargets.Row)) : (bodyOf entries).Aligned := by
  constructor <;> simp [bodyOf]

@[simp] theorem entries_bodyOf (entries : List (κ × IndexTargets.Row)) :
    (bodyOf entries).entries = entries := by
  rw [LoadedTyped.entries, IndexTargets.rows, bodyOf]
  simp [List.zip_map']

end

section
variable [Platform] [LawfulPlatform] {κ : Type} {t : WrittenTable} {file : ParquetFile}

/-- **The columns of the targets**, after the columns `cs`. -/
theorem WrittenFile.readTargets {cs : Columns} {entries : List (κ × IndexTargets.Row)}
    {options : WriteOptions} (h : WrittenFile t (cs ++ targetColumns entries) options file) {r : ℕ}
    (hr : r < rowGroupCount entries.length options.rowGroupSize) :
    readColumnI32 file r cs.length
        = .ok ((groupRows entries options.rowGroupSize r).map fun e => e.2.1) ∧
      readColumnI32 file r (cs.length + 1)
        = .ok ((groupRows entries options.rowGroupSize r).map fun e => e.2.2.1) ∧
      readColumnByteArray file r (cs.length + 2)
        = .ok ((groupRows entries options.rowGroupSize r).map fun e => e.2.2.2) := by
  simp only [← groupRows_map]
  have hlast : ∀ i, (cs ++ targetColumns entries)[cs.length + i]? = (targetColumns entries)[i]? :=
    fun i => by rw [List.getElem?_append_right (Nat.le_add_right _ _), Nat.add_sub_cancel_left]
  exact ⟨h.readI32 (hlast 0) (by rwa [List.length_map]), h.readI32 (hlast 1) (by rwa [List.length_map]),
    h.readByteArray (hlast 2) (by rwa [List.length_map])⟩

end

/-! ## The manifest -/

section
variable [Platform] [FloatText] {columns : Columns} {options : WriteOptions} {t : WrittenTable}
  {file : ParquetFile}

/-- **The manifest of a sidecar** is the one it was written with. -/
theorem readManifest_written {fp : SourceFingerprint} {entry : IndexEntry} {codec : CompressionCodec}
    {size : ℕ} (h : WrittenFile t columns (sidecarOptions fp entry codec size) file)
    (hvalid : entry.Valid) (hclean : ∀ v ∈ entry.names, Clean v) :
    readManifest t.bytes = .ok
      { idxFile := file, manifest := { sourceFingerprint := fp, indexes := [entry] },
        rowsetFormat := .v2Tagged } := by
  obtain ⟨-, -, hmd, -⟩ := writtenTable_eq_ok.mp h.written
  have hkvs : t.metadata.keyValueMetadata = some [{
      key := asBytes manifestKeyV3
      value := some (asBytes (IndexManifest.toJson { sourceFingerprint := fp, indexes := [entry] })) }] := by
    rw [hmd]
    rfl
  have hfind : ∀ value, findManifest [{ key := asBytes manifestKeyV3, value }]
      = some ({ key := asBytes manifestKeyV3, value }, .v2Tagged) := by
    intro value
    simp [findManifest]
  have hjson : IndexManifest.fromJson
      (IndexManifest.toJson { sourceFingerprint := fp, indexes := [entry] })
      = .ok { sourceFingerprint := fp, indexes := [entry] } := by
    rw [fromJson_toJson (by simpa [IndexManifest.Valid] using hvalid), orRefused_eq_ok]
    exact ⟨by simpa [IndexManifest.names] using hclean, rfl⟩
  rw [readManifest, h.opens, mapIo_ok, ok_bind, h.metadata, mapIo_ok, ok_bind, hkvs, okOr_some,
    ok_bind, hfind, okOr_some, ok_bind]
  dsimp only
  rw [okOr_some, ok_bind, fromUtf8_asBytes, okOr_some, ok_bind, hjson]
  rfl

/-- **A sidecar opens** to its one index, for the source it was made of. -/
theorem WrittenFile.open_sidecar {fp : SourceFingerprint} {entry : IndexEntry}
    {codec : CompressionCodec} {size : ℕ} {source : ParquetFile} {data : LoadedIndexData}
    (h : WrittenFile t columns (sidecarOptions fp entry codec size) file)
    (hvalid : entry.Valid) (hclean : ∀ v ∈ entry.names, Clean v)
    (hfp : computeSourceFingerprint source = .ok fp) (hdata : loadIndexData file entry = .ok data) :
    ∃ index, ParquetIndex.open t.bytes source = .ok index ∧ index.rowsetFormat = .v2Tagged ∧
      index.findIndex entry.name = .ok { entry, data } := by
  have hlazy := open_eq_ok.mpr ⟨readManifest_written h hvalid hclean, verifySource_eq_ok.mpr hfp⟩
  refine ⟨{ manifest := { sourceFingerprint := fp, indexes := [entry] },
            indexes := [{ entry, data }], rowsetFormat := .v2Tagged }, ?_, rfl, ?_⟩
  · refine ParquetIndex.open_eq_ok.mpr ⟨_, hlazy, ?_, rfl, rfl⟩
    dsimp only
    rw [List.mapM_cons, List.mapM_nil, loadIndex, hdata]
    rfl
  · simp [ParquetIndex.findIndex, okOr]

end

end EmatixParquet
