/-
  The adaptive read of byte arrays
  (`read_column_byte_array_predicate_adaptive` of `read.rs`), and when the
  adaptive reads accept what the plain ones do.

  The dictionary and the values that pass are flat bytes with `u32` offsets,
  whose sums are checked.

  * `foldlM_pushFlat`: values are pushed as long as the offsets fit;
  * `foldlM_materialiseEntries`: the materialising loop pushes the values whose
    index passes;
  * `exists_byteArrayAdaptive_iff`: when the reads return;
  * `adaptive_accepts_iff`: the same for the readers of the four column types.
-/
import EmatixParquet.Codec.AdaptiveRead
import EmatixParquet.Codec.OffsetsAgree

namespace EmatixParquet

open Wire

variable {α : Type}

/-! ## The reader -/

/-- A value's bytes and the offset after it, which must fit into a `u32`. -/
def pushFlat (overflow : String) (s : OffsetsOut × UInt32) (value : Bytes) :
    Res CodecError (OffsetsOut × UInt32) :=
  let len := UInt32.ofNat value.length
  if s.2.toNat + len.toNat < 2 ^ 32 then
    .ok ({ bytes := s.1.bytes ++ value, offsets := s.1.offsets ++ [s.2 + len] }, s.2 + len)
  else codecErr (.invalidInput overflow)

/-- The dictionary is kept flat.  A dictionary page adds to what is there, with
    offsets that start at 0. -/
def byteArrayFacade : AdaptiveFacade OffsetsOut where
  name := "byte_array adaptive"
  fallback := "read_column_byte_array_masked_into"
  dictionary prev decomp := do
    let slices ← decodePlainByteArray decomp
    let s ← slices.foldlM (pushFlat "dict bytes exceed u32::MAX")
      (prev.getD { offsets := [0] }, 0)
    pure s.1

/-- `&dict_bytes[dict_offsets[i]..dict_offsets[i + 1]]`. -/
def flatEntry (dict : OffsetsOut) (i : ℕ) : Res CodecError Bytes :=
  match dict.offsets[i]?, dict.offsets[i + 1]? with
  | some lo, some hi => slice dict.bytes lo.toNat hi.toNat
  | _, _ => .error (.panic "index out of bounds")

/-- What a byte-array chunk is read into. -/
inductive AdaptiveByteArrayOutputKind where
  | bitmap (bitmap : Bytes) (setBits : ℕ)
  | values (out : OffsetsOut)
  deriving DecidableEq

/-- The outcome of a byte-array chunk, with the dispatch that was taken. -/
structure AdaptiveByteArrayChunkOutput where
  dispatch : Dispatch
  totalRows : ℕ
  kind : AdaptiveByteArrayOutputKind
  deriving DecidableEq

/-- A row of the materialising loop: its entry is pushed when its bit is set. -/
def pushPassingEntry (dict : OffsetsOut) (indices : List UInt32) (bm : Bytes)
    (s : OffsetsOut × UInt32) (row : ℕ) : Res CodecError (OffsetsOut × UInt32) := do
  if ← bitmapBit bm row then
    match indices[row]? with
    | some idx => do
      let value ← flatEntry dict idx.toNat
      pushFlat "byte_array adaptive: output bytes exceed u32::MAX" s value
    | none => .error (.panic "index out of bounds")
  else pure s

/-- A page of the materialising loop. -/
def materialiseEntries (dict : OffsetsOut) (dictMask : Bytes) (s : OffsetsOut × UInt32)
    (page : AdaptivePageInput) : Res CodecError (OffsetsOut × UInt32) := do
  let indices ← decodeRleDictionaryIndices page.body page.numValues
  let bm ← decodeRleDictionaryPredicateBitmap page.body page.numValues dictMask
  (List.range page.numValues).foldlM (pushPassingEntry dict indices bm) s

/-- The probe and the two paths, without the telemetry. -/
def runByteArrayChunk (pages : List AdaptivePageInput) (dict : OffsetsOut)
    (cfg : AdaptiveDictPredicate) : Res CodecError AdaptiveByteArrayChunkOutput :=
  if totalRows pages = 0 then .ok ⟨.fused, 0, .bitmap [] 0⟩
  else do
    let probeEnd := min cfg.probePages pages.length
    let probe ← probeAll cfg.dictMask ([], ⟨0, 0⟩) (pages.take probeEnd)
    match cfg.dispatchFor probe.2 with
    | .fused =>
      let all ← probeAll cfg.dictMask probe (pages.drop probeEnd)
      pure ⟨.fused, totalRows pages, .bitmap all.1 all.2.rowsPassed⟩
    | .materialized =>
      let out ← pages.foldlM (materialiseEntries dict cfg.dictMask) ({ offsets := [0] }, 0)
      pure ⟨.materialized, totalRows pages, .values out.1⟩

section
variable [Platform]

/-- `read_column_byte_array_predicate_adaptive`. -/
def readColumnByteArrayPredicateAdaptive (file : ParquetFile) (rowGroup column : ℕ)
    (predicate : Bytes → Bool) (opts : AdaptiveDispatchOptions) :
    Res CodecError AdaptiveByteArrayChunkOutput := do
  let pulled ← pullDictChunk byteArrayFacade file rowGroup column
  let dictLen := pulled.1.offsets.length - 1
  checkMaskWidth dictLen pulled.2.2
  let flags ← (List.range dictLen).mapM fun i => predicate <$> flatEntry pulled.1 i
  runByteArrayChunk pulled.2.1 pulled.1
    ⟨padMask pulled.2.2 flags, opts.threshold, opts.probePages⟩

end

/-! ## Flat values with checked offsets -/

/-- **Pushing values** continues the offsets as long as they fit. -/
theorem foldlM_pushFlat (overflow : String) {vs ws : List Bytes}
    (hvs : vs.flatten.length < 2 ^ 32) (hws : ∀ w ∈ ws, w.length < 2 ^ 32) :
    ws.foldlM (pushFlat overflow) (.flat vs, UInt32.ofNat vs.flatten.length)
      = if (vs ++ ws).flatten.length < 2 ^ 32 then
          .ok (.flat (vs ++ ws), UInt32.ofNat (vs ++ ws).flatten.length)
        else codecErr (.invalidInput overflow) := by
  induction ws generalizing vs with
  | nil => rw [List.append_nil, if_pos hvs, List.foldlM_nil]; rfl
  | cons w ws ih =>
    rw [List.forall_mem_cons] at hws
    have hacc : (UInt32.ofNat vs.flatten.length).toNat = vs.flatten.length :=
      UInt32.toNat_ofNat_of_lt' hvs
    have hlen : (UInt32.ofNat w.length).toNat = w.length := UInt32.toNat_ofNat_of_lt' hws.1
    have hone : (vs ++ [w]).flatten.length = vs.flatten.length + w.length := by simp
    rw [List.foldlM_cons, pushFlat]
    dsimp only
    rw [hacc, hlen]
    by_cases hfits : vs.flatten.length + w.length < 2 ^ 32
    · have hpush : ({ bytes := (OffsetsOut.flat vs).bytes ++ w
                      offsets := (OffsetsOut.flat vs).offsets
                        ++ [UInt32.ofNat vs.flatten.length + UInt32.ofNat w.length] } : OffsetsOut)
          = .flat (vs ++ [w]) := by
        simp [OffsetsOut.flat, offsetsFrom_append, offsetsFrom, UInt32.ofNat_add]
      rw [if_pos hfits, hpush, ← UInt32.ofNat_add, ← hone]
      refine (ih (by omega) hws.2).trans ?_
      rw [List.append_assoc]
      rfl
    · have hmore : ¬ (vs ++ w :: ws).flatten.length < 2 ^ 32 := by
        rw [List.flatten_append, List.flatten_cons, List.length_append, List.length_append]
        omega
      rw [if_neg hfits, if_neg hmore]
      rfl

/-- The entries of a flat dictionary. -/
theorem flatEntry_flat {dict : List Bytes} (hdict : dict.flatten.length < 2 ^ 32) {i : ℕ}
    {entry : Bytes} (hi : dict[i]? = some entry) : flatEntry (.flat dict) i = .ok entry := by
  obtain ⟨lo, hi, hlo, hhi, hslice⟩ := (flat_agrees_iff.mpr ⟨rfl, hdict⟩).value i entry hi
  rw [flatEntry, hlo, hhi]
  exact hslice

theorem length_flat_offsets (vs : List Bytes) : (OffsetsOut.flat vs).offsets.length = vs.length + 1 := by
  rw [OffsetsOut.flat, List.length_cons, length_offsetsFrom]

/-- The predicate on the entries of a flat dictionary. -/
theorem mapM_flatEntry {dict : List Bytes} (hdict : dict.flatten.length < 2 ^ 32)
    (predicate : Bytes → Bool) :
    (List.range dict.length).mapM (fun i => predicate <$> flatEntry (.flat dict) i)
      = .ok (dict.map predicate) := by
  refine mapM_eq_ok.mpr (List.forall₂_iff_get.mpr ⟨by simp, fun i hi hi' => ?_⟩)
  have hlt : i < dict.length := by simpa using hi
  simp only [List.get_eq_getElem, List.getElem_range, List.getElem_map]
  rw [flatEntry_flat hdict (List.getElem?_eq_getElem hlt)]
  rfl

theorem declaredPlain_mem_lt {n : ℕ} {body : Bytes} {vs : List Bytes}
    (h : declaredPlain n body = .ok vs) : ∀ v ∈ vs, v.length < 2 ^ 32 := by
  induction n generalizing body vs with
  | zero =>
    cases h
    simp
  | succ n ih =>
    rw [declaredPlain] at h
    split at h
    · cases h
      simp
    split at h
    · cases h
    · next hfour =>
      dsimp only at h
      split at h
      · cases h
      obtain ⟨ws, hws, rfl⟩ := map_eq_ok.mp h
      refine List.forall_mem_cons.mpr ⟨?_, ih hws⟩
      have hlt := leNat_lt (body.take 4)
      rw [List.length_take_of_le (by omega)] at hlt
      rw [List.length_take]
      exact lt_of_le_of_lt (Nat.min_le_left _ _) hlt

/-- Lengths are stored in 32 bits. -/
theorem decodePlainByteArray_mem_lt {bytes : Bytes} {vs : List Bytes}
    (h : decodePlainByteArray bytes = .ok vs) : ∀ v ∈ vs, v.length < 2 ^ 32 := by
  have hall := declaredPlain_of_decode (n := vs.length) h
  rw [List.take_length] at hall
  exact declaredPlain_mem_lt hall

/-! ## The materialising loop over byte arrays -/

/-- The values whose index passes. -/
def passing (mask : Bytes) (rows : List (UInt32 × α)) : List α :=
  (rows.filter fun row => passes mask row.1).map (·.2)

theorem passing_append (mask : Bytes) (xs ys : List (UInt32 × α)) :
    passing mask (xs ++ ys) = passing mask xs ++ passing mask ys := by
  simp [passing]

theorem passing_sublist (mask : Bytes) (rows : List (UInt32 × α)) :
    (passing mask rows).Sublist (rows.map (·.2)) := List.Sublist.map _ List.filter_sublist

theorem passing_all {mask : Bytes} {rows : List (UInt32 × α)}
    (h : ∀ row ∈ rows, passes mask row.1 = true) : passing mask rows = rows.map (·.2) := by
  rw [passing, List.filter_eq_self.mpr h]

/-- A loop over rows that pushes the values whose index passes. -/
theorem foldlM_passing {σ ε : Type} {mask : Bytes} {step : σ → ℕ → Except ε σ}
    {push : σ → α → Except ε σ} {rows : List (UInt32 × α)} (h : ∀ s m row, rows[m]? = some row →
      step s m = if passes mask row.1 then push s row.2 else .ok s) (s : σ) :
    (List.range rows.length).foldlM step s = (passing mask rows).foldlM push s := by
  -- by induction on the rows done
  have hrows : ∀ m ≤ rows.length, (List.range m).foldlM step s
      = (passing mask (rows.take m)).foldlM push s := by
    intro m
    induction m with
    | zero => exact fun _ => rfl
    | succ m ih =>
      intro hm
      have hget : rows[m]? = some rows[m] := List.getElem?_eq_getElem (by omega)
      have hone : ∀ t, [m].foldlM step t = (passing mask [rows[m]]).foldlM push t := by
        intro t
        rw [List.foldlM_cons, h t m _ hget, passing]
        cases hpass : passes mask rows[m].1 with
        | false => simp [hpass, bind, Except.bind, pure, Except.pure]
        | true => simp [hpass]
      rw [List.range_succ, List.foldlM_append, List.take_add_one, hget, passing_append,
        List.foldlM_append, ih (by omega)]
      exact bind_congr hone
  rw [hrows _ (Nat.le_refl _), List.take_length]

section
variable {mask : Bytes} (hmask : IsMask mask) {dict : List Bytes}
  (hdict : dict.flatten.length < 2 ^ 32)
include hmask hdict

/-- **A page of the materialising loop** pushes the entries that pass. -/
theorem materialiseEntries_eq {p : AdaptivePageInput} {indices : List UInt32} {vs : List Bytes}
    (hcover : CoversWidth mask p.body) (hpage : pageIndices p.body p.numValues = .ok indices)
    (hvs : List.Forall₂ (EntryOf dict) indices vs) (s : OffsetsOut × UInt32) :
    materialiseEntries (.flat dict) mask s p
      = (passing mask (indices.zip vs)).foldlM
          (pushFlat "byte_array adaptive: output bytes exceed u32::MAX") s := by
  obtain ⟨hindices, hlen⟩ := decodeRleDictionaryIndices_of_pageIndices hpage
  have hbm : decodeRleDictionaryPredicateBitmap p.body p.numValues mask
      = .ok (pageBitmap mask p.numValues indices) := by
    rw [predicateBitmap_eq hmask hcover, hpage]
    rfl
  have hrows : p.numValues = (indices.zip vs).length := by
    rw [List.length_zip, ← hvs.length_eq, Nat.min_self, hlen]
  rw [materialiseEntries, hindices]
  change (decodeRleDictionaryPredicateBitmap p.body p.numValues mask >>= _) = _
  rw [hbm]
  change (List.range p.numValues).foldlM _ s = _
  conv_lhs => rw [hrows]
  refine foldlM_passing (fun s m row hrow => ?_) s
  obtain ⟨idx, v⟩ := row
  rw [List.getElem?_zip_eq_some] at hrow
  obtain ⟨hidx, hv⟩ := hrow
  have hm : m < p.numValues := by
    rw [← hlen]
    exact (List.getElem?_eq_some_iff.mp hidx).1
  have hbit : bitmapBit (pageBitmap mask (indices.zip vs).length indices) m
      = .ok (passes mask idx) := by
    rw [← hrows, bitmapBit_eq _ (by rw [length_pageBitmap, divCeil]; omega), pageBitmap,
      testBit_bitmapOf, rowPasses, hidx]
    simp [hm]
  have hentry : dict[idx.toNat]? = some v := by
    obtain ⟨hi, rfl⟩ := List.getElem?_eq_some_iff.mp hidx
    obtain ⟨hi', rfl⟩ := List.getElem?_eq_some_iff.mp hv
    exact hvs.get hi hi'
  rw [pushPassingEntry, hbit]
  change (if passes mask idx = true then _ else _) = _
  split
  · rw [hidx]
    change (flatEntry (.flat dict) idx.toNat >>= _) = _
    rw [flatEntry_flat hdict hentry]
    rfl
  · rfl

end

theorem length_flatten_le {vs ws : List Bytes} (h : vs.Sublist ws) :
    vs.flatten.length ≤ ws.flatten.length := by
  induction h with
  | slnil => exact Nat.le_refl _
  | cons w _ ih =>
    rw [List.flatten_cons, List.length_append]
    omega
  | cons_cons w _ ih =>
    rw [List.flatten_cons, List.flatten_cons, List.length_append, List.length_append]
    omega

theorem length_le_flatten {vs : List Bytes} {v : Bytes} (h : v ∈ vs) :
    v.length ≤ vs.flatten.length := by
  have hone := length_flatten_le (List.singleton_sublist.mpr h)
  simpa using hone

section
variable {mask : Bytes} (hmask : IsMask mask) {dict : List Bytes}
  (hdict : dict.flatten.length < 2 ^ 32)
include hmask hdict

/-- **The materialising loop** pushes the values whose index passes. -/
theorem foldlM_materialiseEntries {inputs : List AdaptivePageInput} {rows : List (List Bytes)}
    (hpages : ∀ p ∈ inputs, CoversWidth mask p.body ∧ Accepted p)
    (hvalues : List.Forall₂ (PageValues byteArrayDecoder dict) inputs rows) :
    ∃ entries : List (UInt32 × Bytes), entries.map (·.2) = rows.flatten ∧
      (∀ e ∈ entries, dict[e.1.toNat]? = some e.2) ∧
      ∀ s, inputs.foldlM (materialiseEntries (.flat dict) mask) s
        = (passing mask entries).foldlM
            (pushFlat "byte_array adaptive: output bytes exceed u32::MAX") s := by
  induction hvalues with
  | nil => exact ⟨[], rfl, by simp, fun s => rfl⟩
  | @cons p vs inputs rows hvs _ ih =>
    rw [List.forall_mem_cons] at hpages
    obtain ⟨⟨hcover, indices, hpage⟩, hrest⟩ := hpages
    obtain ⟨entries, hmap, hentries, hfold⟩ := ih hrest
    obtain ⟨indices', hindices', -, hof⟩ := readsEntries_byteArray _ _ _ _ hvs
    obtain rfl : indices' = indices := Except.ok.inj
      (hindices'.symm.trans (decodeRleDictionaryIndices_of_pageIndices hpage).1)
    refine ⟨indices'.zip vs ++ entries, ?_, fun e he => ?_, fun s => ?_⟩
    · rw [List.map_append, List.map_snd_zip (Nat.le_of_eq hof.length_eq.symm), hmap,
        List.flatten_cons]
    · rcases List.mem_append.mp he with hzip | hmem
      · exact List.forall₂_zip hof hzip
      · exact hentries e hmem
    · rw [List.foldlM_cons, passing_append, List.foldlM_append,
        materialiseEntries_eq hmask hdict hcover hpage hof]
      exact bind_congr hfold

/-- It returns iff what it pushes fits. -/
theorem exists_materialiseEntries_iff {inputs : List AdaptivePageInput} {rows : List (List Bytes)}
    (hpages : ∀ p ∈ inputs, CoversWidth mask p.body ∧ Accepted p)
    (hvalues : List.Forall₂ (PageValues byteArrayDecoder dict) inputs rows) :
    (rows.flatten.flatten.length < 2 ^ 32 →
      ∃ out, inputs.foldlM (materialiseEntries (.flat dict) mask) ({ offsets := [0] }, 0) = .ok out) ∧
    ((∀ i < dict.length, passes mask (UInt32.ofNat i) = true) → dict.length ≤ 2 ^ 32 →
      (∃ out, inputs.foldlM (materialiseEntries (.flat dict) mask) ({ offsets := [0] }, 0) = .ok out) →
        rows.flatten.flatten.length < 2 ^ 32) := by
  obtain ⟨entries, hmap, hentries, hfold⟩ := foldlM_materialiseEntries hmask hdict hpages hvalues
  have hlt : ∀ w ∈ passing mask entries, w.length < 2 ^ 32 := by
    intro w hw
    obtain ⟨e, he, rfl⟩ := List.mem_map.mp ((passing_sublist mask entries).subset hw)
    exact lt_of_le_of_lt (length_le_flatten (List.mem_of_getElem? (hentries e he))) hdict
  have hpush : inputs.foldlM (materialiseEntries (.flat dict) mask) ({ offsets := [0] }, 0)
      = if (passing mask entries).flatten.length < 2 ^ 32 then .ok (.flat (passing mask entries),
          UInt32.ofNat (passing mask entries).flatten.length)
        else codecErr (.invalidInput "byte_array adaptive: output bytes exceed u32::MAX") := by
    rw [hfold]
    exact @foldlM_pushFlat _ [] _ (by decide) hlt
  rw [hpush, ← hmap]
  constructor
  · intro hfits
    have hle := length_flatten_le (passing_sublist mask entries)
    exact ⟨_, by rw [if_pos (by omega)]⟩
  · rintro hall hlen ⟨out, hout⟩
    split at hout
    · next hfits =>
      rwa [passing_all fun e he => ?_] at hfits
      have hi := (List.getElem?_eq_some_iff.mp (hentries e he)).1
      have h := hall _ hi
      rwa [UInt32.ofNat_toNat] at h
    · cases hout

end

/-- A threshold below every share of rows. -/
def alwaysMaterialise : AdaptiveDispatchOptions where
  threshold := 0xBF800000
  probePages := 0

/-- A run of byte arrays, once the predicate decoder accepts every page. -/
theorem exists_runByteArrayChunk {mask : Bytes} (hmask : IsMask mask)
    {inputs : List AdaptivePageInput} {dict : OffsetsOut} (threshold : UInt32) (probePages : ℕ)
    (hpages : ∀ p ∈ inputs, CoversWidth mask p.body ∧ Accepted p)
    (hmaterialise : ∃ out, inputs.foldlM (materialiseEntries dict mask) ({ offsets := [0] }, 0)
      = .ok out) : ∃ out, runByteArrayChunk inputs dict ⟨mask, threshold, probePages⟩ = .ok out := by
  rw [runByteArrayChunk]
  split
  · exact ⟨_, rfl⟩
  · dsimp only
    obtain ⟨probe, hprobe⟩ := (exists_probeAll_iff hmask ([], ⟨0, 0⟩)).mpr fun p hp =>
      hpages p (List.mem_of_mem_take hp)
    have hrest : ∃ all, probeAll mask probe (inputs.drop (min probePages inputs.length)) = .ok all :=
      (exists_probeAll_iff hmask probe).mpr fun p hp => hpages p (List.mem_of_mem_drop hp)
    obtain ⟨all, hall⟩ := hrest
    obtain ⟨out, hout⟩ := hmaterialise
    cases hdispatch : AdaptiveDictPredicate.dispatchFor ⟨mask, threshold, probePages⟩ probe.2 with
    | fused =>
      refine ⟨⟨.fused, totalRows inputs, .bitmap all.1 all.2.rowsPassed⟩,
        bind_eq_ok.mpr ⟨probe, hprobe, ?_⟩⟩
      rw [hdispatch]
      exact bind_eq_ok.mpr ⟨all, hall, rfl⟩
    | materialized =>
      refine ⟨⟨.materialized, totalRows inputs, .values out.1⟩,
        bind_eq_ok.mpr ⟨probe, hprobe, ?_⟩⟩
      rw [hdispatch]
      exact bind_eq_ok.mpr ⟨out, hout, rfl⟩

/-- One that materialises has gone through that loop. -/
theorem materialise_of_runByteArrayChunk {mask : Bytes} {inputs : List AdaptivePageInput}
    {dict : OffsetsOut} {out : AdaptiveByteArrayChunkOutput} (htotal : totalRows inputs ≠ 0)
    (h : runByteArrayChunk inputs dict
      ⟨mask, alwaysMaterialise.threshold, alwaysMaterialise.probePages⟩ = .ok out) :
    ∃ out, inputs.foldlM (materialiseEntries dict mask) ({ offsets := [0] }, 0) = .ok out := by
  have hexceeds : exceeds 0 (F32.ofBits 0xBF800000) = true := by decide +kernel
  have hdispatch : AdaptiveDictPredicate.dispatchFor ⟨mask, 0xBF800000, 0⟩ ⟨0, 0⟩
      = .materialized := by
    simp [AdaptiveDictPredicate.dispatchFor, PageProbe.selectivity, hexceeds]
  rw [runByteArrayChunk, if_neg htotal] at h
  obtain ⟨probe, hprobe, h⟩ := bind_eq_ok.mp h
  obtain rfl : probe = ([], ⟨0, 0⟩) := by
    dsimp only [alwaysMaterialise] at hprobe
    rw [Nat.zero_min, List.take_zero] at hprobe
    exact (Except.ok.inj hprobe).symm
  change (match AdaptiveDictPredicate.dispatchFor ⟨mask, 0xBF800000, 0⟩ ⟨0, 0⟩ with
    | .fused => _ | .materialized => _) = _ at h
  rw [hdispatch] at h
  obtain ⟨out, hout, -⟩ := bind_eq_ok.mp h
  exact ⟨out, hout⟩

theorem length_flatten_values {dec : PageDecoder α} (hdec : ReadsEntries dec) {dict : List α}
    {inputs : List AdaptivePageInput} {rows : List (List α)}
    (h : List.Forall₂ (PageValues dec dict) inputs rows) : rows.flatten.length = totalRows inputs := by
  induction h with
  | nil => rfl
  | cons hvs _ ih =>
    obtain ⟨indices, -, hlen, hof⟩ := hdec _ _ _ _ hvs
    rw [List.flatten_cons, List.length_append, ih, ← hof.length_eq, hlen, totalRows, totalRows,
      List.map_cons, List.sum_cons]

theorem mem_chunkDictionary_lt [Platform] {chunk : RawChunk} {pages : List Page} :
    ∀ v ∈ chunkDictionary byteArrayDecoder.plain chunk pages, v.length < 2 ^ 32 := by
  rw [chunkDictionary]
  split
  · next page _ =>
    cases h : dictionaryPage byteArrayDecoder.plain page chunk with
    | error e => exact fun v hv => absurd hv List.not_mem_nil
    | ok dict =>
      obtain ⟨size, -, h⟩ := bind_eq_ok.mp h
      obtain ⟨decomp, -, h⟩ := bind_eq_ok.mp h
      exact decodePlainByteArray_mem_lt h
  · simp

section
variable [Platform] {file : ParquetFile} {rowGroup column : ℕ} {chunk : RawChunk}
  {pages : List Page}

/-- **Byte arrays**: the reads return for all predicates and options iff the mask
    serves the chunk and the offsets fit. -/
theorem exists_byteArrayAdaptive_iff {vs : List Bytes}
    (hchunk : readChunkRaw file rowGroup column = .ok chunk) (hpages : PagesOf chunk.bytes pages)
    (hshape : DictionaryChunk pages) (hread : readColumnByteArray file rowGroup column = .ok vs) :
    (∀ predicate opts, ∃ out,
      readColumnByteArrayPredicateAdaptive file rowGroup column predicate opts = .ok out) ↔
      MaskServes (chunkDictionary byteArrayDecoder.plain chunk pages).length
          (pagesUpTo chunk chunk.totalValues pages) ∧
        (chunkDictionary byteArrayDecoder.plain chunk pages).flatten.length < 2 ^ 32 ∧
        vs.flatten.length < 2 ^ 32 := by
  have hslices := @mem_chunkDictionary_lt _ chunk pages
  have hkeep : ∀ decomp, byteArrayFacade.dictionary none decomp = byteArrayDecoder.plain decomp
      >>= fun slices => (·.1) <$> slices.foldlM (pushFlat "dict bytes exceed u32::MAX")
        ({ offsets := [0] }, 0) := fun decomp => rfl
  obtain ⟨rows, rfl, hvalues, hpull⟩ := pullDictChunk_eq hchunk hpages hshape
    readsEntries_byteArray hkeep hread
  generalize chunkDictionary byteArrayDecoder.plain chunk pages = dict at hslices hvalues hpull ⊢
  generalize pagesUpTo chunk chunk.totalValues pages = inputs at hvalues hpull ⊢
  have hflat := @foldlM_pushFlat "dict bytes exceed u32::MAX" [] dict (by decide) hslices
  rw [List.nil_append] at hflat
  change dict.foldlM (pushFlat _) ({ offsets := [0] }, 0) = _ at hflat
  rw [hflat] at hpull
  by_cases hdict : dict.flatten.length < 2 ^ 32
  · have hindices : ∀ p ∈ inputs, ∃ indices,
        decodeRleDictionaryIndices p.body p.numValues = .ok indices := fun p hp => by
      obtain ⟨vs, hvs⟩ := PageValues.exists_of_mem hvalues hp
      obtain ⟨indices, hindices, -⟩ := readsEntries_byteArray _ _ _ _ hvs
      exact ⟨indices, hindices⟩
    rw [if_pos hdict] at hpull
    have hadaptive : ∀ predicate opts,
        readColumnByteArrayPredicateAdaptive file rowGroup column predicate opts
          = checkMaskWidth dict.length (maskWidth inputs) >>= fun _ =>
            runByteArrayChunk inputs (.flat dict)
              ⟨padMask (maskWidth inputs) (dict.map predicate), opts.threshold, opts.probePages⟩ := by
      intro predicate opts
      rw [readColumnByteArrayPredicateAdaptive, hpull]
      change (checkMaskWidth ((OffsetsOut.flat dict).offsets.length - 1) (maskWidth inputs) >>= _) = _
      rw [length_flat_offsets, Nat.add_sub_cancel]
      refine bind_congr fun _ => ?_
      rw [mapM_flatEntry hdict]
      rfl
    constructor
    · intro h
      obtain ⟨out, hout⟩ := h (fun _ => true) alwaysMaterialise
      rw [hadaptive] at hout
      obtain ⟨_, hcheck, hrun⟩ := bind_eq_ok.mp hout
      have hlen : dict.length ≤ 2 ^ 32 := by
        obtain ⟨hle, -, hlen⟩ := checkMaskWidth_eq_ok.mp hcheck
        exact hlen.trans (Nat.pow_le_pow_right (by decide) (UInt8.le_iff_toNat_le.mp hle))
      by_cases htotal : totalRows inputs = 0
      · have hnone : rows.flatten = [] := List.length_eq_zero_iff.mp
          ((length_flatten_values readsEntries_byteArray hvalues).trans htotal)
        refine ⟨(maskServes_iff (List.length_map fun _ => true) hindices).mpr
          ⟨hcheck, fun h => absurd htotal h⟩, hdict, ?_⟩
        rw [hnone]
        decide
      · have hmaterialise := materialise_of_runByteArrayChunk htotal hrun
        have haccepted : ∀ p ∈ inputs, CoversWidth
            (padMask (maskWidth inputs) (dict.map fun _ => true)) p.body ∧ Accepted p := by
          intro p hp
          obtain ⟨out, hout⟩ := hmaterialise
          obtain ⟨t, t', hstep⟩ := foldlM_step hout hp
          obtain ⟨_, -, hstep⟩ := bind_eq_ok.mp hstep
          obtain ⟨bm, hbm, -⟩ := bind_eq_ok.mp hstep
          exact (exists_bitmap_iff (isMask_padMask _ _)).mp ⟨bm, hbm⟩
        refine ⟨(maskServes_iff (List.length_map fun _ => true) hindices).mpr
          ⟨hcheck, fun _ => haccepted⟩, hdict, ?_⟩
        refine (exists_materialiseEntries_iff (isMask_padMask _ _) hdict haccepted hvalues).2
          (fun i hi => ?_) hlen hmaterialise
        have hidx : (UInt32.ofNat i).toNat = i :=
          UInt32.toNat_ofNat_of_lt' (show i < 2 ^ 32 by omega)
        rw [passes_padMask _ (by rw [hidx, List.length_map]; exact hi), List.getElem_map]
    · rintro ⟨hserves, -, hfits⟩ predicate opts
      obtain ⟨hcheck, haccepted⟩ :=
        (maskServes_iff (List.length_map predicate) hindices).mp hserves
      rw [hadaptive, hcheck]
      change ∃ out, runByteArrayChunk inputs (.flat dict) _ = .ok out
      by_cases htotal : totalRows inputs = 0
      · exact ⟨_, by rw [runByteArrayChunk, if_pos htotal]⟩
      · have hmask := isMask_padMask (maskWidth inputs) (dict.map predicate)
        exact exists_runByteArrayChunk hmask _ _ (haccepted htotal)
          ((exists_materialiseEntries_iff hmask hdict (haccepted htotal) hvalues).1 hfits)
  · rw [if_neg hdict] at hpull
    refine iff_of_false (fun h => ?_) fun h => hdict h.2.1
    obtain ⟨out, hout⟩ := h (fun _ => true) alwaysMaterialise
    rw [readColumnByteArrayPredicateAdaptive, hpull] at hout
    cases hout

end

/-! ## The readers of the four column types -/

/-- The mask serves the chunk, read with `dec`. -/
def ChunkServed [Platform] (dec : PageDecoder α) (chunk : RawChunk) (pages : List Page) : Prop :=
  MaskServes (chunkDictionary dec.plain chunk pages).length
    (pagesUpTo chunk chunk.totalValues pages)

/-- **Dictionary chunks that the plain reader accepts**: the adaptive reader
    accepts them, whatever the predicate and the options, exactly when one mask
    serves all pages; for byte arrays, the flat dictionary and the flat values
    must fit into `u32` offsets too. -/
theorem adaptive_accepts_iff [Platform] {file : ParquetFile} {rowGroup column : ℕ}
    {chunk : RawChunk} {pages : List Page}
    (hchunk : readChunkRaw file rowGroup column = .ok chunk) (hpages : PagesOf chunk.bytes pages)
    (hshape : DictionaryChunk pages) :
    (∀ vs, readColumnI64 file rowGroup column = .ok vs →
      ((∀ predicate opts, ∃ out,
        readColumnI64PredicateAdaptive file rowGroup column predicate opts = .ok out) ↔
          ChunkServed (fixedDecoder : PageDecoder Int64) chunk pages)) ∧
    (∀ vs, readColumnI32 file rowGroup column = .ok vs →
      ((∀ predicate opts, ∃ out,
        readColumnI32PredicateAdaptive file rowGroup column predicate opts = .ok out) ↔
          ChunkServed (fixedDecoder : PageDecoder Int32) chunk pages)) ∧
    (∀ vs, readColumnF64 file rowGroup column = .ok vs →
      ((∀ predicate opts, ∃ out,
        readColumnF64PredicateAdaptive file rowGroup column predicate opts = .ok out) ↔
          ChunkServed (fixedDecoder : PageDecoder F64) chunk pages)) ∧
    ∀ vs, readColumnByteArray file rowGroup column = .ok vs →
      ((∀ predicate opts, ∃ out,
        readColumnByteArrayPredicateAdaptive file rowGroup column predicate opts = .ok out) ↔
          ChunkServed byteArrayDecoder chunk pages ∧
            (chunkDictionary byteArrayDecoder.plain chunk pages).flatten.length < 2 ^ 32 ∧
            vs.flatten.length < 2 ^ 32) := by
  have hscalar : ∀ {α : Type} [FixedWidth α] (vs : List α),
      decodeChunk fixedDecoder file rowGroup column = .ok vs →
      ((∀ predicate opts, ∃ out,
        runFacade (decodePlainFixed : Bytes → Res CodecError (List α)) file rowGroup column predicate
          opts = .ok out) ↔ ChunkServed (fixedDecoder : PageDecoder α) chunk pages) := by
    intro α _ vs hread
    have hiff := exists_runFacade_iff hchunk hpages hshape hread
    exact ⟨fun h => (hiff (fun _ => true) {}).mp (h _ _), fun h predicate opts =>
      (hiff predicate opts).mpr h⟩
  exact ⟨hscalar, hscalar, hscalar, fun vs hread =>
    exists_byteArrayAdaptive_iff hchunk hpages hshape hread⟩

/-! ## Written columns -/

/-- A column, written with a dictionary. -/
def dictionaryFile (col : ColumnData) : ParquetFile :=
  let _ := Platform.stored
  ((do
    let bytes ← (writeTableWithOptions [("v", col)] { dictPerColumn := some [true] }).toOption
    (ParquetFile.open bytes).toOption).getD ⟨[], [], 0⟩)

/-- The dictionary page that the writer makes, uncompressed. -/
def writtenDictionary (dictLen : ℕ) (body : Bytes) : Page :=
  (dictionaryPageHeader dictLen body.length body.length, body)

/-- The V1 page of indices that the writer makes, uncompressed. -/
def writtenIndices (col : ColumnData) (body : Bytes) : Page :=
  (dataPageHeaderV1 .plainDictionary col.rowCount body.length body.length (computeStats col), body)

/-- The pages of three rows with two values. -/
def twoNumbers : List Page :=
  [writtenDictionary 2 (encodePlainI64 [7, 8]), writtenIndices (.i64 [7, 8, 7]) [1, 3, 2]]

/-- A dictionary of two strings, and a page of three rows. -/
def twoStrings : List Page :=
  [writtenDictionary 2 (encodePlainByteArray [[0x61], [0x62, 0x63]]),
   writtenIndices (.byteArray [[0x61], [0x62, 0x63], [0x61]]) [1, 3, 2]]

/-- The chunk of three rows with these pages. -/
def writtenChunk (pages : List Page) : RawChunk where
  bytes := pages.flatMap writePage
  totalValues := 3
  codec := .uncompressed
  maxRepLevel := 0
  maxDefLevel := 0

theorem dictionaryChunk_written {dictLen : ℕ} {col : ColumnData} {dictBody body : Bytes} :
    DictionaryChunk [writtenDictionary dictLen dictBody, writtenIndices col body] where
  dictionary := rfl
  page page hpage := by
    rcases List.mem_pair.mp hpage with rfl | rfl
    · exact .inl rfl
    · exact .inr ⟨.inl rfl, .inr rfl⟩

theorem maskServes_twoValues : MaskServes 2 [⟨[1, 3, 2], 3⟩] where
  width := by decide
  dict := by decide
  page _ p hp := by
    obtain rfl := List.mem_singleton.mp hp
    have hrepeated : AdaptivePageInput.repeated ⟨[1, 3, 2], 3⟩ = [] := by decide +kernel
    refine ⟨by decide, by decide, fun idx hidx => ?_⟩
    rw [hrepeated] at hidx
    cases hidx

theorem adaptive_accepts_iff_written :
    (@readColumnI64 Platform.stored (dictionaryFile (.i64 [7, 8, 7])) 0 0 = .ok [7, 8, 7] ∧
      ∀ predicate opts, ∃ out, @readColumnI64PredicateAdaptive Platform.stored
        (dictionaryFile (.i64 [7, 8, 7])) 0 0 predicate opts = .ok out) ∧
    (@readColumnByteArray Platform.stored
        (dictionaryFile (.byteArray [[0x61], [0x62, 0x63], [0x61]])) 0 0
          = .ok [[0x61], [0x62, 0x63], [0x61]] ∧
      ∀ predicate opts, ∃ out, @readColumnByteArrayPredicateAdaptive Platform.stored
        (dictionaryFile (.byteArray [[0x61], [0x62, 0x63], [0x61]])) 0 0 predicate opts
          = .ok out) := by
  let _ := Platform.stored
  have hnumbers : readColumnI64 (dictionaryFile (.i64 [7, 8, 7])) 0 0 = .ok [7, 8, 7] := by
    decide +kernel
  have hstrings : readColumnByteArray (dictionaryFile (.byteArray [[0x61], [0x62, 0x63], [0x61]])) 0 0
      = .ok [[0x61], [0x62, 0x63], [0x61]] := by decide +kernel
  have hnumberChunk : readChunkRaw (dictionaryFile (.i64 [7, 8, 7])) 0 0
      = .ok (writtenChunk twoNumbers) := by decide +kernel
  have hstringChunk : readChunkRaw
      (dictionaryFile (.byteArray [[0x61], [0x62, 0x63], [0x61]])) 0 0
        = .ok (writtenChunk twoStrings) := by decide +kernel
  have hnumberPages : PagesOf (writtenChunk twoNumbers).bytes twoNumbers :=
    pagesOf_flatMap (by decide)
  have hstringPages : PagesOf (writtenChunk twoStrings).bytes twoStrings :=
    pagesOf_flatMap (by decide)
  refine ⟨⟨hnumbers, ?_⟩, hstrings, ?_⟩
  · exact ((adaptive_accepts_iff hnumberChunk hnumberPages dictionaryChunk_written).1 _ hnumbers).mpr
      maskServes_twoValues
  · exact ((adaptive_accepts_iff hstringChunk hstringPages dictionaryChunk_written).2.2.2 _
      hstrings).mpr ⟨maskServes_twoValues, by decide, by decide⟩

/-- A column with one value, as the writer writes it: width 0 is taken for no
    width at all. -/
theorem adaptive_rejects_constant :
    ParquetFile.open (dictionaryFile (.i64 [7, 7, 7])).bytes
        = .ok (dictionaryFile (.i64 [7, 7, 7])) ∧
      @writeTableWithOptions Platform.stored [("v", .i64 [7, 7, 7])] { dictPerColumn := some [true] }
        = .ok (dictionaryFile (.i64 [7, 7, 7])).bytes ∧
      @readColumnI64 Platform.stored (dictionaryFile (.i64 [7, 7, 7])) 0 0 = .ok [7, 7, 7] ∧
      @readColumnI64PredicateAdaptive Platform.stored (dictionaryFile (.i64 [7, 7, 7])) 0 0
        (fun _ => true) {} = .error (.err (.bitWidthOutOfRange 0)) := by
  decide +kernel

end EmatixParquet
