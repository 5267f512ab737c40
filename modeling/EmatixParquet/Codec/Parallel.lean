/-
  Reads of several column chunks in parallel (`parallel/mod.rs`).

  The workers are rayon's: `ParIter` stands for `par_iter().map(work).collect()`,
  `LawfulParIter` for what rayon documents of it.

  * `readColumnsParallel_eq`: the result is that of reads one after another, or the
    fault of a read, or the cancellation;
  * `readColumnsParallel_written`: the row groups of a written table, in order.
-/
import EmatixParquet.Index.Sorted

namespace EmatixParquet

open Wire

/-- Collecting what the workers return for the items of a list into a `Result<Vec<_>>`. -/
class ParIter where
  collect {β : Type} : List (Res CodecError β) → Res CodecError (List β)

/-- The order of the items is kept; if there are errors one of them is returned, and it
    is not said which. -/
class LawfulParIter [ParIter] : Prop where
  ok : ∀ {β : Type} (vs : List β), ParIter.collect (vs.map .ok) = .ok vs
  error : ∀ {β : Type} (results : List (Res CodecError β)), (∃ e, .error e ∈ results) →
    ∃ e, .error e ∈ results ∧ ParIter.collect results = .error e

/-- `CancellationToken`: its clones share one flag. -/
structure CancellationToken where
  flag : Bool
  deriving DecidableEq, Repr

/-- `CancellationToken::new`. -/
def CancellationToken.new : CancellationToken := ⟨false⟩

/-- `cancel`. -/
def CancellationToken.cancel (_ : CancellationToken) : CancellationToken := ⟨true⟩

/-- `is_cancelled`. -/
def CancellationToken.isCancelled (token : CancellationToken) : Bool := token.flag

/-- `ParallelDecodeOptions`, but for the threads that do the work. -/
structure ParallelDecodeOptions where
  cancel : Option CancellationToken
  deriving DecidableEq, Repr

/-- Whether a worker finds the token cancelled: before the call, or because a holder of
    a clone has `raised` it by the time the worker looks. -/
def ParallelDecodeOptions.isCancelled (opts : ParallelDecodeOptions) (raised : Bool) : Bool :=
  match opts.cancel with
  | some token => (if raised then token.cancel else token).isCancelled
  | none => false

section
variable {β : Type}

/-- `decode_one` of a target. -/
def decodeTarget (file : ParquetFile) (decodeOne : ParquetFile → ℕ → ℕ → Res CodecError β)
    (t : ℕ × ℕ) : Res CodecError β :=
  decodeOne file t.1 t.2

/-- What the worker that claims a target returns. -/
def parallelWork (file : ParquetFile) (opts : ParallelDecodeOptions)
    (decodeOne : ParquetFile → ℕ → ℕ → Res CodecError β) (raised : Bool) (t : ℕ × ℕ) :
    Res CodecError β :=
  if opts.isCancelled raised then codecErr .cancelled else decodeTarget file decodeOne t

/-- `read_columns_parallel`, when the token is `raised i` by the time a worker claims
    target `i`. -/
def readColumnsParallel [ParIter] (file : ParquetFile) (targets : List (ℕ × ℕ))
    (opts : ParallelDecodeOptions) (raised : ℕ → Bool)
    (decodeOne : ParquetFile → ℕ → ℕ → Res CodecError β) : Res CodecError (List β) :=
  if targets.isEmpty then .ok []
  else ParIter.collect (targets.mapIdx fun i => parallelWork file opts decodeOne (raised i))

variable [ParIter] [LawfulParIter] {file : ParquetFile} {targets : List (ℕ × ℕ)}
  {opts : ParallelDecodeOptions} {raised : ℕ → Bool}
  {decodeOne : ParquetFile → ℕ → ℕ → Res CodecError β}

/-- What is collected is what every worker returned. -/
theorem collect_eq_ok {results : List (Res CodecError β)} {vs : List β} :
    ParIter.collect results = .ok vs ↔ results = vs.map .ok := by
  constructor
  · intro h
    have hall : ∀ r ∈ results, r ∈ Set.range Except.ok := by
      intro r hr
      cases r with
      | ok v => exact ⟨v, rfl⟩
      | error e =>
        obtain ⟨e', -, he⟩ := LawfulParIter.error results ⟨e, hr⟩
        cases he.symm.trans h
    have hrange : results ∈ Set.range (List.map Except.ok) := by
      rw [Set.range_list_map]
      exact hall
    obtain ⟨vs', rfl⟩ := hrange
    rw [LawfulParIter.ok] at h
    rw [Except.ok.inj h]
  · rintro rfl
    exact LawfulParIter.ok vs

omit [ParIter] [LawfulParIter] in
theorem parallelWork_eq_ok {b : Bool} {t : ℕ × ℕ} {v : β} :
    parallelWork file opts decodeOne b t = .ok v ↔
      opts.isCancelled b = false ∧ decodeTarget file decodeOne t = .ok v := by
  unfold parallelWork
  cases opts.isCancelled b <;> simp [codecErr]

omit [ParIter] [LawfulParIter] in
theorem parallelWork_eq_error {b : Bool} {t : ℕ × ℕ} {e : Fault CodecError}
    (h : parallelWork file opts decodeOne b t = .error e) :
    (e = .err .cancelled ∧ opts.isCancelled b = true) ∨ decodeTarget file decodeOne t = .error e := by
  unfold parallelWork at h
  split at h
  · next hcancelled =>
    cases h
    exact .inl ⟨rfl, hcancelled⟩
  · exact .inr h

/-- **Parallel reads are reads**: what is returned are the results of reads one after
    another, and no worker found the token cancelled. -/
theorem readColumnsParallel_eq_ok {vs : List β} :
    readColumnsParallel file targets opts raised decodeOne = .ok vs ↔
      targets.mapM (decodeTarget file decodeOne) = .ok vs ∧
        ∀ i < targets.length, opts.isCancelled (raised i) = false := by
  cases targets with
  | nil => simp [readColumnsParallel, pure, Except.pure]
  | cons t targets =>
    rw [readColumnsParallel, if_neg (by simp), collect_eq_ok, mapM_eq_ok, List.forall₂_iff_get,
      List.ext_getElem_iff]
    simp only [List.length_mapIdx, List.length_map, List.getElem_mapIdx, List.getElem_map,
      parallelWork_eq_ok, List.get_eq_getElem]
    constructor
    · rintro ⟨hlength, hitems⟩
      exact ⟨⟨hlength, fun i hi hi' => (hitems i hi hi').2⟩,
        fun i hi => (hitems i hi (hlength ▸ hi)).1⟩
    · rintro ⟨⟨hlength, hitems⟩, hraised⟩
      exact ⟨hlength, fun i hi hi' => ⟨hraised i hi, hitems i hi hi'⟩⟩

/-- A fault is that of a read, or of a worker that found the token cancelled. -/
theorem readColumnsParallel_error {e : Fault CodecError}
    (h : readColumnsParallel file targets opts raised decodeOne = .error e) :
    (e = .err .cancelled ∧ ∃ i < targets.length, opts.isCancelled (raised i) = true) ∨
      ∃ t ∈ targets, decodeTarget file decodeOne t = .error e := by
  unfold readColumnsParallel at h
  split at h
  · cases h
  · set results := targets.mapIdx fun i => parallelWork file opts decodeOne (raised i) with hresults
    have hmem : .error e ∈ results := by
      by_cases herror : ∃ e', .error e' ∈ results
      · obtain ⟨e', hmem, he⟩ := LawfulParIter.error results herror
        cases he.symm.trans h
        exact hmem
      · have hall : ∀ r ∈ results, r ∈ Set.range Except.ok := by
          intro r hr
          cases r with
          | ok v => exact ⟨v, rfl⟩
          | error e' => exact absurd ⟨e', hr⟩ herror
        have hrange : results ∈ Set.range (List.map Except.ok) := by
          rw [Set.range_list_map]
          exact hall
        obtain ⟨vs, hvs⟩ := hrange
        rw [collect_eq_ok.mpr hvs.symm] at h
        cases h
    obtain ⟨i, hi, hwork⟩ := List.mem_mapIdx.mp hmem
    rcases parallelWork_eq_error hwork with ⟨rfl, hcancelled⟩ | hread
    · exact .inl ⟨rfl, i, hi, hcancelled⟩
    · exact .inr ⟨_, List.getElem_mem hi, hread⟩

/-- **Parallel reads**: an answer is that of reads one after another, which have one too
    unless a worker found the token cancelled; a fault is one of theirs, or that of a
    worker that did; and if the token was cancelled before, that is what is returned. -/
theorem readColumnsParallel_eq :
    (∀ vs, readColumnsParallel file targets opts raised decodeOne = .ok vs ↔
      targets.mapM (decodeTarget file decodeOne) = .ok vs ∧
        ∀ i < targets.length, opts.isCancelled (raised i) = false) ∧
    (∀ e, readColumnsParallel file targets opts raised decodeOne = .error e →
      (e = .err .cancelled ∧ ∃ i < targets.length, opts.isCancelled (raised i) = true) ∨
        ∃ t ∈ targets, decodeTarget file decodeOne t = .error e) ∧
    (opts.cancel = some (CancellationToken.new.cancel) → targets ≠ [] →
      readColumnsParallel file targets opts raised decodeOne = codecErr .cancelled) := by
  refine ⟨fun _ => readColumnsParallel_eq_ok, fun _ => readColumnsParallel_error, ?_⟩
  intro hcancel hne
  have hcancelled : ∀ b, opts.isCancelled b = true := by
    intro b
    rw [ParallelDecodeOptions.isCancelled, hcancel]
    cases b <;> rfl
  have hresults : (targets.mapIdx fun i => parallelWork file opts decodeOne (raised i))
      = List.replicate targets.length (codecErr .cancelled) := by
    refine List.ext_getElem (by simp) fun i hi hi' => ?_
    rw [List.getElem_mapIdx, List.getElem_replicate, parallelWork, if_pos (hcancelled _)]
  have herror : (codecErr .cancelled : Res CodecError β)
      ∈ List.replicate targets.length (codecErr .cancelled) :=
    List.mem_replicate.mpr ⟨fun h => hne (List.length_eq_zero_iff.mp h), rfl⟩
  obtain ⟨e, hmem, he⟩ := LawfulParIter.error _ ⟨_, herror⟩
  rw [readColumnsParallel, if_neg (by simpa using hne), hresults, he]
  cases List.eq_of_mem_replicate hmem
  rfl

end

/-! ## Written tables -/

section
variable {α : Type} [ParIter] {file : ParquetFile} {opts : ParallelDecodeOptions}
  {raised : ℕ → Bool}

/-- The parallel read of a column in all `k` row groups returns the rows `v`, group by
    group, unless a worker finds the token cancelled. -/
def ReadsWhole (file : ParquetFile) (k ix : ℕ) (opts : ParallelDecodeOptions)
    (read : ParquetFile → ℕ → ℕ → Res CodecError (List α)) (raised : ℕ → Bool) (v : List α) : Prop :=
  if ∃ i < k, opts.isCancelled (raised i) = true then
    readColumnsParallel file ((List.range k).map (·, ix)) opts raised read = codecErr .cancelled
  else ∃ groups, groups.flatten = v ∧
    readColumnsParallel file ((List.range k).map (·, ix)) opts raised read = .ok groups

theorem readsWhole [LawfulParIter] {read : ParquetFile → ℕ → ℕ → Res CodecError (List α)}
    {v : List α} {ix size : ℕ} (hsize : 0 < size)
    (hread : ∀ g < rowGroupCount v.length size, read file g ix = .ok (groupRows v size g)) :
    ReadsWhole file (rowGroupCount v.length size) ix opts read raised v := by
  set k := rowGroupCount v.length size
  have hgroups : ((List.range k).map (·, ix)).mapM (decodeTarget file read)
      = .ok ((List.range k).map (groupRows v size)) := by
    rw [mapM_eq_ok, List.forall₂_map_left_iff, List.forall₂_map_right_iff]
    exact List.forall₂_same.mpr fun g hg => hread g (List.mem_range.mp hg)
  have hlength : ((List.range k).map (·, ix)).length = k := by simp
  unfold ReadsWhole
  split
  · next hcancelled =>
    obtain ⟨i, hi, hcancelled⟩ := hcancelled
    cases hresult : readColumnsParallel file ((List.range k).map (·, ix)) opts raised read with
    | ok vs =>
      have hfalse := (readColumnsParallel_eq_ok.mp hresult).2 i (hlength.symm ▸ hi)
      rw [hcancelled] at hfalse
      cases hfalse
    | error e =>
      rcases readColumnsParallel_error hresult with ⟨rfl, -⟩ | ⟨t, ht, he⟩
      · rfl
      · obtain ⟨i, hi⟩ := List.getElem?_of_mem ht
        obtain ⟨b, -, hb⟩ := (mapM_getElem? hgroups i).1 t hi
        cases hb.symm.trans he
  · next hcancelled =>
    refine ⟨_, flatten_allGroups v hsize, readColumnsParallel_eq_ok.mpr ⟨hgroups, fun i hi => ?_⟩⟩
    rw [hlength] at hi
    rw [Bool.eq_false_iff]
    exact fun h => hcancelled ⟨i, hi, h⟩

end

section
variable [Platform] [LawfulPlatform] [ParIter] [LawfulParIter] {columns : Columns}
  {options : WriteOptions} {t : WrittenTable} {file : ParquetFile} {opts : ParallelDecodeOptions}
  {raised : ℕ → Bool}

/-- **Parallel reads of a written table** return its columns, whatever the workers do
    and however many row groups the table has, or the cancellation if one of them finds
    the token cancelled. -/
theorem readColumnsParallel_written (h : WrittenFile t columns options file) {ix : ℕ}
    {name : String} :
    (∀ v, columns[ix]? = some (name, .i64 v) →
      ReadsWhole file (rowGroupCount v.length options.rowGroupSize) ix opts readColumnI64 raised v) ∧
    (∀ v, columns[ix]? = some (name, .i32 v) →
      ReadsWhole file (rowGroupCount v.length options.rowGroupSize) ix opts readColumnI32 raised v) ∧
    ∀ v, columns[ix]? = some (name, .byteArray v) →
      ReadsWhole file (rowGroupCount v.length options.rowGroupSize) ix opts readColumnByteArray
        raised v :=
  ⟨fun _ hnamed => readsWhole h.size_pos fun _ hg => h.readI64 hnamed hg,
    fun _ hnamed => readsWhole h.size_pos fun _ hg => h.readI32 hnamed hg,
    fun _ hnamed => readsWhole h.size_pos fun _ hg => h.readByteArray hnamed hg⟩

end

/-! ## Reads of a sample -/

/-- One worker, that stops at the first error. -/
@[reducible] def ParIter.single : ParIter where
  collect results := results.mapM id

theorem ParIter.single_lawful : @LawfulParIter ParIter.single :=
  letI := ParIter.single
  { ok := fun vs => by
      change (vs.map Except.ok).mapM id = _
      rw [mapM_eq_ok, List.forall₂_map_left_iff]
      exact List.forall₂_same.mpr fun _ _ => rfl
    error := fun results => by
      rintro ⟨e, he⟩
      cases hresult : results.mapM id with
      | ok vs =>
        obtain ⟨i, hi⟩ := List.getElem?_of_mem he
        obtain ⟨b, -, hb⟩ := (mapM_getElem? hresult i).1 _ hi
        cases hb
      | error e' =>
        obtain ⟨i, r, hi, hr, -⟩ := mapM_eq_error.mp hresult
        exact ⟨e', hr ▸ List.mem_of_getElem? hi, hresult⟩ }

/-- The first column of the sample in its two row groups. -/
theorem readColumnsParallel_keys {source : ParquetFile} (h : keysFile = .ok source) :
    [(0, 0), (1, 0)].mapM (decodeTarget source (@readColumnI64 Platform.stored))
      = .ok [[7, 5], [7]] := by
  let _ := Platform.stored
  let _ := Platform.stored_lawful
  obtain ⟨t, hfile⟩ := writtenFile_keys h
  have hkey : keysTable[0]? = some ("key", .i64 [7, 5, 7]) := rfl
  have hread0 : readColumnI64 source 0 0 = .ok [7, 5] := hfile.readI64 hkey (by decide)
  have hread1 : readColumnI64 source 1 0 = .ok [7] := hfile.readI64 hkey (by decide)
  simp [decodeTarget, hread0, hread1, bind, Except.bind, pure, Except.pure]

theorem readColumnsParallel_eq_sample : ∃ source, keysFile = .ok source ∧
    @readColumnsParallel _ ParIter.single source [(0, 0), (1, 0)] ⟨some .new⟩ (fun _ => false)
      (@readColumnI64 Platform.stored) = .ok [[7, 5], [7]] := by
  let _ := ParIter.single
  let _ := ParIter.single_lawful
  obtain ⟨source, _, hsource, -⟩ := writeSorted_keys
  exact ⟨source, hsource, (readColumnsParallel_eq.1 _).mpr
    ⟨readColumnsParallel_keys hsource, fun _ _ => rfl⟩⟩

theorem readColumnsParallel_written_sample : ∃ source, keysFile = .ok source ∧
    @ReadsWhole _ ParIter.single source 2 0 ⟨some .new⟩ (@readColumnI64 Platform.stored)
      (fun _ => false) [7, 5, 7] := by
  let _ := Platform.stored
  let _ := Platform.stored_lawful
  let _ := ParIter.single
  let _ := ParIter.single_lawful
  obtain ⟨source, _, hsource, -⟩ := writeSorted_keys
  obtain ⟨t, hfile⟩ := writtenFile_keys hsource
  have hwritten := @readColumnsParallel_written _ _ _ _ _ _ _ _ ⟨some .new⟩ (fun _ => false) hfile 0
    "key"
  exact ⟨source, hsource, hwritten.1 [7, 5, 7] rfl⟩

end EmatixParquet
