/-
  The lazy reader and the eager one (`index/reader.rs`): what is found in each row
  group of a sorted body, one after the other, is what is found in the whole.

  * `groupHits_eq`: the hits of a row group, pruned or not, are those of its rows
    with the key;
  * `LazyParquetIndex.eqBitmaps_eq`: so is what the lazy reader assembles.
-/
import EmatixParquet.Index.Reader

namespace EmatixParquet

open Wire

/-! ## Bodies in pieces -/

namespace IndexTargets

/-- The targets of two scans, one after the other. -/
def append (t u : IndexTargets) : IndexTargets where
  targetRgs := t.targetRgs ++ u.targetRgs
  targetPages := t.targetPages ++ u.targetPages
  rowsets := t.rowsets ++ u.rowsets

variable {t u : IndexTargets} {n m : ℕ}

theorem Aligned.append (h : t.Aligned n) (h' : u.Aligned m) : (t.append u).Aligned (n + m) where
  targetRgs := by rw [IndexTargets.append, List.length_append, h.targetRgs, h'.targetRgs]
  targetPages := by rw [IndexTargets.append, List.length_append, h.targetPages, h'.targetPages]
  rowsets := by rw [IndexTargets.append, List.length_append, h.rowsets, h'.rowsets]

theorem Aligned.rows_append (h : t.Aligned n) (u : IndexTargets) :
    (t.append u).rows = t.rows ++ u.rows := by
  rw [IndexTargets.rows, IndexTargets.append, List.zip_append (by rw [h.targetPages, h.rowsets]),
    List.zip_append (by simp [h.targetRgs, h.targetPages, h.rowsets])]
  rfl

end IndexTargets

namespace LoadedTyped

variable {κ : Type}

/-- Bodies, one after the other. -/
def concat (groups : List (LoadedTyped κ)) : LoadedTyped κ where
  values := groups.flatMap (·.values)
  targetRgs := groups.flatMap (·.targetRgs)
  targetPages := groups.flatMap (·.targetPages)
  rowsets := groups.flatMap (·.rowsets)

/-- **Their entries** come one after the other. -/
theorem concat_spec {groups : List (LoadedTyped κ)} (h : ∀ d ∈ groups, d.Aligned) :
    (concat groups).Aligned ∧ (concat groups).entries = groups.flatMap entries := by
  induction groups with
  | nil => exact ⟨⟨rfl, rfl, rfl⟩, rfl⟩
  | cons d groups ih =>
    have hd : d.Aligned := h d List.mem_cons_self
    obtain ⟨hrest, hentries⟩ := ih fun e he => h e (List.mem_cons_of_mem _ he)
    have hvalues : (concat (d :: groups)).values = d.values ++ (concat groups).values := rfl
    have htargets : (concat (d :: groups)).toIndexTargets
        = d.toIndexTargets.append (concat groups).toIndexTargets := rfl
    constructor
    · rw [Aligned, htargets, hvalues, List.length_append]
      exact IndexTargets.Aligned.append hd hrest
    · rw [List.flatMap_cons, ← hentries, entries, hvalues, htargets,
        IndexTargets.Aligned.rows_append hd, List.zip_append hd.length_rows.symm]
      rfl

end LoadedTyped

/-- Runs over pieces are one over all of them. -/
theorem mapM_flatMap {ε α β γ : Type} {f : β → Except ε γ} (g : α → List β) (as : List α) :
    List.flatten <$> as.mapM (fun a => (g a).mapM f) = (as.flatMap g).mapM f := by
  induction as with
  | nil => rfl
  | cons a as ih =>
    rw [List.mapM_cons, List.flatMap_cons, List.mapM_append, ← ih]
    cases (g a).mapM f with
    | error e => rfl
    | ok bs => cases as.mapM fun a => (g a).mapM f <;> rfl

section
variable [Platform]

/-- What the four columns of consecutive row groups hold: rows in the order of
    their values over all groups, and in each group no value outside of the bounds
    that its footer gives, if it gives any. -/
structure SortedBody (idxFile : ParquetFile) (md : FileMetaData) (start : ℕ)
    (groups : List (LoadedTyped Int64)) : Prop where
  values : ∀ i d, groups[i]? = some d → readColumnI64 idxFile (start + i) 0 = .ok d.values
  targetRgs : ∀ i d, groups[i]? = some d → readColumnI32 idxFile (start + i) 1 = .ok d.targetRgs
  targetPages : ∀ i d, groups[i]? = some d → readColumnI32 idxFile (start + i) 2 = .ok d.targetPages
  rowsets : ∀ i d, groups[i]? = some d → readColumnByteArray idxFile (start + i) 3 = .ok d.rowsets
  aligned : ∀ d ∈ groups, d.Aligned
  sorted : (groups.flatMap (·.values)).Pairwise (· ≤ ·)
  bounds : ∀ i d bounds, groups[i]? = some d → idxRgI64Bounds md (start + i) 0 = some bounds →
    ∀ v ∈ d.values, bounds.1 ≤ v ∧ v ≤ bounds.2

variable {idxFile : ParquetFile} {md : FileMetaData} {start : ℕ} {groups : List (LoadedTyped Int64)}

omit [Platform] in
/-- A column of all groups. -/
theorem readColumnRgs_eq {α : Type} {read : ParquetFile → ℕ → ℕ → Res CodecError (List α)}
    {column : ℕ} {f : LoadedTyped Int64 → List α}
    (h : ∀ i d, groups[i]? = some d → read idxFile (start + i) column = .ok (f d)) :
    readColumnRgs read idxFile start groups.length column = .ok (groups.flatMap f) := by
  have hread := @mapM_range' _ _ _ (fun rg => read idxFile rg column) (fun d => .ok (f d)) groups
    start h
  rw [readColumnRgs, hread]
  change List.flatten <$> groups.mapM (fun d => pure (f d)) = _
  rw [List.mapM_pure, List.flatMap_def]
  rfl

theorem SortedBody.values_sorted (h : SortedBody idxFile md start groups) {d : LoadedTyped Int64}
    (hd : d ∈ groups) : d.values.Pairwise (· ≤ ·) := by
  refine h.sorted.sublist ?_
  rw [List.flatMap_def]
  exact List.sublist_flatten_of_mem (List.mem_map_of_mem hd)

/-- **The eager reader** has the columns of a body that are aligned. -/
theorem loadSorted_ok {κ : Type} {readValues : ParquetFile → ℕ → ℕ → ℕ → Res CodecError (List κ)}
    {entry : IndexEntry} {start count : ℕ} {d : LoadedTyped κ}
    (hstart : entry.sidecarRowGroup.toNat = start)
    (hcount : max entry.sidecarRowGroupCount.toNat 1 = count) (haligned : d.Aligned)
    (hvalues : readValues idxFile start count 0 = .ok d.values)
    (hrgs : readColumnI32Rgs idxFile start count 1 = .ok d.targetRgs)
    (hpages : readColumnI32Rgs idxFile start count 2 = .ok d.targetPages)
    (hrowsets : readColumnByteArrayRgs idxFile start count 3 = .ok d.rowsets) :
    loadSorted readValues idxFile entry = .ok d := by
  have hcheck : checkAligned entry.name start d.values.length d.toIndexTargets = .ok () := by
    refine if_neg ?_
    rintro (hne | hne | hne)
    · exact hne haligned.targetRgs
    · exact hne haligned.targetPages
    · exact hne haligned.rowsets
  rw [loadSorted, hstart, hcount, hvalues, ok_bind, hrgs, ok_bind, hpages, ok_bind, hrowsets, ok_bind]
  exact bind_eq_ok.mpr ⟨(), hcheck, rfl⟩

/-- It has the groups as one body. -/
theorem SortedBody.loadSorted (h : SortedBody idxFile md start groups) {entry : IndexEntry}
    (hstart : entry.sidecarRowGroup.toNat = start)
    (hcount : max entry.sidecarRowGroupCount.toNat 1 = groups.length) :
    loadSorted readColumnI64Rgs idxFile entry = .ok (LoadedTyped.concat groups) :=
  loadSorted_ok hstart hcount (LoadedTyped.concat_spec h.aligned).1 (readColumnRgs_eq h.values)
    (readColumnRgs_eq h.targetRgs) (readColumnRgs_eq h.targetPages) (readColumnRgs_eq h.rowsets)

/-- **One row group.**  Where it is pruned, no row of it has the key. -/
theorem groupHits_eq {index : LazyParquetIndex} (h : SortedBody index.idxFile md start groups)
    {i : ℕ} {d : LoadedTyped Int64} (hd : groups[i]? = some d) (key : Int64) :
    index.groupHits md key (start + i)
      = (d.entries.filter fun r => r.1 = key).mapM fun r => toHit index.rowsetFormat r.2 := by
  have haligned := h.aligned d (List.mem_of_getElem? hd)
  have hsorted := h.values_sorted (List.mem_of_getElem? hd)
  rw [LazyParquetIndex.groupHits]
  split
  · next hpruned =>
    obtain ⟨bounds, hbounds, hout⟩ := hpruned
    have hnone : d.entries.filter (fun r => r.1 = key) = [] := by
      rw [List.filter_eq_nil_iff]
      intro r hr heq
      rw [decide_eq_true_eq] at heq
      obtain ⟨hlo, hhi⟩ := h.bounds i d bounds hd hbounds r.1 (List.of_mem_zip hr).1
      rw [heq] at hlo hhi
      rcases hout with hlt | hlt
      · exact Std.not_lt.mpr hlo hlt
      · exact Std.not_lt.mpr hhi hlt
    rw [hnone]
    rfl
  · rw [h.values i d hd, ok_bind, ← eqHits_eq haligned hsorted, eqHits]
    cases equalRun d.values key with
    | none => rfl
    | some run =>
      dsimp only
      rw [h.targetRgs i d hd, ok_bind, h.targetPages i d hd, ok_bind, h.rowsets i d hd, ok_bind]

/-- All row groups. -/
theorem groupHits_all {index : LazyParquetIndex} (h : SortedBody index.idxFile md start groups)
    (key : Int64) :
    List.flatten <$> (List.range' start groups.length).mapM (index.groupHits md key)
      = eqHitsI64 (LoadedTyped.concat groups) key index.rowsetFormat := by
  obtain ⟨haligned, hentries⟩ := LoadedTyped.concat_spec h.aligned
  rw [mapM_range' fun i d hd => groupHits_eq h hd key, mapM_flatMap, eqHitsI64,
    eqHits_eq haligned h.sorted, hentries, List.filter_flatMap]

end

/-! ## Both readers -/

/-- What is found by a name that the results share with what they were made
    from. -/
theorem find?_mapM {ε α β : Type} {f : α → Except ε β} {as : List α} {bs : List β} {p : α → Bool}
    {q : β → Bool} (h : as.mapM f = .ok bs) (hf : ∀ a b, f a = .ok b → q b = p a) {a : α}
    (ha : as.find? p = some a) : ∃ b, bs.find? q = some b ∧ f a = .ok b := by
  rw [mapM_eq_ok] at h
  induction h with
  | nil => cases ha
  | @cons a' b as bs hab _ ih =>
    rw [List.find?_cons] at ha ⊢
    rw [hf a' b hab]
    cases hp : p a' with
    | true =>
      rw [hp] at ha
      cases ha
      exact ⟨b, rfl, hab⟩
    | false =>
      rw [hp] at ha
      exact ih ha

section
variable [Platform] [FloatText]

/-- Where the lazy handle and the eager one come from one sidecar. -/
theorem ParquetIndex.open_eq_ok {idx : Bytes} {source : ParquetFile} {eager : ParquetIndex} :
    ParquetIndex.open idx source = .ok eager ↔ ∃ index, LazyParquetIndex.open idx source = .ok index ∧
      index.manifest.indexes.mapM (loadIndex index.idxFile) = .ok eager.indexes ∧
      eager.manifest = index.manifest ∧ eager.rowsetFormat = index.rowsetFormat := by
  rw [ParquetIndex.open, bind_eq_ok]
  refine exists_congr fun index => and_congr_right fun _ => ?_
  rw [bind_eq_ok]
  constructor
  · rintro ⟨indexes, hload, h⟩
    cases h
    exact ⟨hload, rfl, rfl⟩
  · rintro ⟨hload, hmanifest, hformat⟩
    refine ⟨_, hload, ?_⟩
    rw [← hmanifest, ← hformat]
    rfl

omit [FloatText] in
/-- The index of an entry. -/
theorem ParquetIndex.findIndex_open {index : LazyParquetIndex} {eager : ParquetIndex} {name : String}
    {entry : IndexEntry}
    (hload : index.manifest.indexes.mapM (loadIndex index.idxFile) = .ok eager.indexes)
    (hentry : index.manifest.indexes.find? (fun e => e.name = name) = some entry) :
    ∃ data, eager.findIndex name = .ok { entry, data } ∧ loadIndexData index.idxFile entry = .ok data := by
  obtain ⟨loaded, hfind, hrun⟩ := @find?_mapM _ _ _ _ _ _ _ (fun i : LoadedIndex => decide (i.entry.name = name))
    hload (fun e i he => by
      obtain ⟨data, -, he⟩ := bind_eq_ok.mp he
      cases he
      rfl) entry hentry
  obtain ⟨data, hdata, hrun⟩ := bind_eq_ok.mp hrun
  cases hrun
  refine ⟨data, ?_, hdata⟩
  rw [ParquetIndex.findIndex, hfind]
  rfl

omit [Platform] [FloatText] in
/-- Without hits there are no bitmaps, as long as the column is there. -/
theorem assembleBitmapsFrom_nil (source : ParquetFile) (sourceColName : String) :
    assembleBitmapsFrom source sourceColName []
      = (fun _ => []) <$> resolveLeafByName source sourceColName := by
  rw [assembleBitmapsFrom]
  cases hcol : resolveLeafByName source sourceColName with
  | error e => rfl
  | ok column =>
    obtain ⟨md, hmd, -⟩ := bind_eq_ok.mp hcol
    rw [ok_bind, hmd]
    rfl

omit [FloatText] in
/-- **The lazy lookup** over a sorted `INT64` body in any number of row groups. -/
theorem LazyParquetIndex.eqBitmaps_eq [FloatDebug] {index : LazyParquetIndex} {source : ParquetFile}
    {md : FileMetaData} (hmd : index.idxFile.metadata = .ok md) {name sourceCol : String}
    {entry : IndexEntry} (hentry : index.manifest.indexes.find? (fun e => e.name = name) = some entry)
    (hkind : entry.kind = .sorted sourceCol .int64) {groups : List (LoadedTyped Int64)}
    (hcount : max entry.sidecarRowGroupCount.toNat 1 = groups.length)
    (hbody : SortedBody index.idxFile md entry.sidecarRowGroup.toNat groups) (key : Int64) :
    index.eqBitmaps source name key = (do
      let hits ← eqHitsI64 (LoadedTyped.concat groups) key index.rowsetFormat
      if hits = [] then pure [] else assembleBitmapsFrom source sourceCol hits) := by
  rw [LazyParquetIndex.eqBitmaps, hentry, okOr_some, ok_bind, hkind]
  dsimp only
  rw [hmd, mapIo_ok, ok_bind, hcount, groupHits_all hbody]

end

end EmatixParquet
