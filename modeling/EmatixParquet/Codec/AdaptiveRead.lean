/-
  The adaptive reads (`read_column_*_predicate_adaptive` of `read.rs`): the
  dictionary and the data pages of a chunk are collected, the predicate is
  applied to the dictionary, and the resulting mask goes to the runner of
  `adaptive.rs`.

  The mask has one entry for every index that the first page with a non-zero bit
  width can hold.  It does for the chunk when the dictionary and all pages are
  within that width (`MaskServes`).

  * `accepted_iff`: the pages of indices that the predicate decoder accepts;
  * `pullDictChunk_eq`: of a chunk that the plain reader decodes, all pages are
    collected;
  * `exists_runFacade_iff`: when the reads of scalars return.
-/
import EmatixParquet.Codec.Adaptive
import EmatixParquet.Codec.DictAgree
import EmatixParquet.Codec.Read

namespace EmatixParquet

open Wire

variable {α δ : Type}

/-! ## Pulling a chunk -/

/-- The threshold is given by its bits. -/
structure AdaptiveDispatchOptions where
  threshold : UInt32 := AdaptiveDictPredicate.defaultThreshold
  probePages : ℕ := AdaptiveDictPredicate.defaultProbePages

/-- Where the scalar façade and that of byte arrays differ: how they name
    themselves and the reader to fall back to in their errors, and what they
    keep of a decompressed dictionary page. -/
structure AdaptiveFacade (δ : Type) where
  name : String
  fallback : String
  dictionary : Option δ → Bytes → Res CodecError δ

/-- What has been collected of a chunk. -/
structure PullState (δ : Type) where
  dict : Option δ := none
  pages : List AdaptivePageInput := []
  bitWidth : UInt8 := 0
  rowsCollected : ℕ := 0

/-- Dictionary pages pass; a fallback to PLAIN has an error of its own. -/
def AdaptiveFacade.checkEncoding (f : AdaptiveFacade δ) : Encoding → Res CodecError Unit
  | .rleDictionary | .plainDictionary => .ok ()
  | .plain => codecErr (.invalidInput
    s!"{f.name}: data page is PLAIN-encoded (writer fell back from dict — use {f.fallback} instead)")
  | other => codecErr (.unsupported
    s!"{f.name}: data page encoding not supported: {other.debug}")

/-- A data page, kept.  `if bit_width == 0 { bit_width = info.values[0]; }` -/
def PullState.push (s : PullState δ) (info : DataPageInfo) : Res CodecError (PullState δ) := do
  let bitWidth ← if s.bitWidth = 0 then byteAt info.values 0 else pure s.bitWidth
  pure { s with
    pages := s.pages ++ [⟨info.values, info.numValues⟩]
    bitWidth
    rowsCollected := s.rowsCollected + info.numValues }

section
variable [Platform]

/-- What one page does to the state. -/
def pullPage (f : AdaptiveFacade δ) (chunk : RawChunk) (s : PullState δ) (page : Page) :
    Res CodecError (PullState δ) :=
  match page.1.pageType with
  | .dictionaryPage => do
    let size ← pageUncompressedSize page.1
    let decomp ← decompressInto chunk.codec page.2 size
    let dict ← f.dictionary s.dict decomp
    pure { s with dict := some dict }
  | .dataPage | .dataPageV2 =>
    if s.dict.isNone then codecErr (.invalidInput
      s!"{f.name}: data page before dictionary (column has no DictionaryPage)")
    else do
      let info ← dataPageView page chunk
      f.checkEncoding info.encoding
      s.push info
  | .indexPage => .ok s

/-- The body of the loop of `pull_dict_chunk`. -/
def pullStep (f : AdaptiveFacade δ) (chunk : RawChunk) (s : PullState δ) (page : Page) :
    Res CodecError (PullState δ ⊕ PullState δ) := do
  let s ← pullPage f chunk s page
  pure (if chunk.totalValues ≤ s.rowsCollected then .inr s else .inl s)

/-- `pull_dict_chunk`: the dictionary, the pages and the bit width. -/
def pullDictChunk (f : AdaptiveFacade δ) (file : ParquetFile) (rowGroup column : ℕ) :
    Res CodecError (δ × List AdaptivePageInput × UInt8) := do
  let chunk ← readChunkRaw file rowGroup column
  let s ← walkPages ioToCodec (pullStep f chunk) {} chunk.bytes
  let dict ← okOr s.dict (.invalidInput s!"{f.name}: column chunk has no DictionaryPage")
  pure (dict, s.pages, s.bitWidth)

end

/-! ## The mask -/

/-- The checks before a mask is built. -/
def checkMaskWidth (dictLen : ℕ) (bitWidth : UInt8) : Res CodecError Unit :=
  if 32 < bitWidth ∨ bitWidth = 0 then codecErr (.bitWidthOutOfRange bitWidth)
  else if 2 ^ bitWidth.toNat < dictLen then codecErr (.decompress
    s!"dict has {dictLen} entries, exceeds bit_width={bitWidth} addressable space ({2 ^ bitWidth.toNat})")
  else .ok ()

/-- The entries that pass, and zeros up to `1 << bit_width`. -/
def padMask (bitWidth : UInt8) (flags : List Bool) : Bytes :=
  flags.map (fun flag => if flag then 1 else 0)
    ++ List.replicate (2 ^ bitWidth.toNat - flags.length) 0

/-- `build_dict_predicate_mask`: the predicate on every entry, padded to a power of two. -/
def buildDictPredicateMask (dict : List α) (bitWidth : UInt8) (pred : α → Bool) :
    Res CodecError Bytes := do
  checkMaskWidth dict.length bitWidth
  pure (padMask bitWidth (dict.map pred))

/-! ## Scalars -/

/-- `pull_dict_chunk` keeps the last dictionary page. -/
def scalarFacade (decodeDictPlain : Bytes → Res CodecError (List α)) : AdaptiveFacade (List α) where
  name := "adaptive read"
  fallback := "read_column_*_masked_into"
  dictionary _ decomp := decodeDictPlain decomp

section
variable [Platform]

/-- `run_facade`, without the telemetry. -/
def runFacade (decodeDictPlain : Bytes → Res CodecError (List α)) (file : ParquetFile)
    (rowGroup column : ℕ) (predicate : α → Bool) (opts : AdaptiveDispatchOptions) :
    Res CodecError (AdaptiveChunkOutput α) := do
  let pulled ← pullDictChunk (scalarFacade decodeDictPlain) file rowGroup column
  let dictMask ← buildDictPredicateMask pulled.1 pulled.2.2 predicate
  runAdaptiveDictChunk pulled.2.1 pulled.1 ⟨dictMask, opts.threshold, opts.probePages⟩

/-- `read_column_i32_predicate_adaptive`. -/
def readColumnI32PredicateAdaptive : ParquetFile → ℕ → ℕ → (Int32 → Bool) →
    AdaptiveDispatchOptions → Res CodecError (AdaptiveChunkOutput Int32) :=
  runFacade decodePlainFixed

/-- `read_column_i64_predicate_adaptive`. -/
def readColumnI64PredicateAdaptive : ParquetFile → ℕ → ℕ → (Int64 → Bool) →
    AdaptiveDispatchOptions → Res CodecError (AdaptiveChunkOutput Int64) :=
  runFacade decodePlainFixed

/-- `read_column_f64_predicate_adaptive`. -/
def readColumnF64PredicateAdaptive : ParquetFile → ℕ → ℕ → (F64 → Bool) →
    AdaptiveDispatchOptions → Res CodecError (AdaptiveChunkOutput F64) :=
  runFacade decodePlainFixed

end

/-! ## Which pages the predicate decoder accepts -/

/-- The bit width of a page of indices. -/
def AdaptivePageInput.width (p : AdaptivePageInput) : UInt8 := p.body.headD 0

/-- The indices of the RLE runs that a page begins with, up to its number of
    values; a run may be empty. -/
def AdaptivePageInput.repeated (p : AdaptivePageInput) : List UInt32 :=
  match p.body with
  | [] => []
  | bitWidth :: bytes =>
    if p.numValues = 0 ∨ bitWidth = 0 then []
    else ((repeatedValues bitWidth.toNat p.numValues bytes).toOption.getD []).map rleIndex

/-- The width can hold the repeated indices. -/
def AdaptivePageInput.RunsFit (p : AdaptivePageInput) : Prop :=
  ∀ idx ∈ p.repeated, idx.toNat < 2 ^ p.width.toNat

theorem requiredMask_eq (bitWidth : UInt8) : requiredMask bitWidth = 2 ^ bitWidth.toNat := by
  rw [requiredMask]
  split
  · next h =>
    subst h
    rfl
  · rfl

/-- **An index page is accepted** when it is narrower than 32 bits and its runs
    fit. -/
theorem accepted_iff {p : AdaptivePageInput} {indices : List UInt32}
    (h : decodeRleDictionaryIndices p.body p.numValues = .ok indices) :
    Accepted p ↔ p.width < 32 ∧ p.RunsFit := by
  obtain ⟨body, n⟩ := p
  cases body with
  | nil => cases h
  | cons bitWidth bytes =>
    simp only [Accepted, AdaptivePageInput.RunsFit, AdaptivePageInput.repeated,
      AdaptivePageInput.width, List.headD_cons, pageIndices]
    dsimp only at h
    rw [decodeRleDictionaryIndices] at h
    by_cases hwide : 32 ≤ bitWidth
    · simp [hwide, codecErr]
    have hlt : bitWidth < 32 := UInt8.not_le.mp hwide
    rw [if_neg (UInt8.not_lt.mpr (UInt8.le_of_lt hlt))] at h
    rw [if_neg hwide]
    by_cases hzero : n = 0
    · simp [hzero, hlt]
    by_cases hbw0 : bitWidth = 0
    · simp [hbw0, hzero]
    rw [if_neg hzero, if_neg hbw0] at h
    rw [if_neg hzero, if_neg hbw0, if_neg (not_or.mpr ⟨hzero, hbw0⟩)]
    have hpass : ∀ (e : ℕ) (chunk : Bytes) (m : ℕ) (vs : List UInt32),
        (.ok (List.replicate m (rleIndex chunk)) : Res CodecError (List UInt32)) = .ok vs →
        (rleIndex chunk).toNat < requiredMask bitWidth →
        widthCheckedRun (requiredMask bitWidth) e chunk m = .ok vs := fun e chunk m vs hvs hok =>
      widthCheckedRun_eq_ok.mpr ⟨hok, Except.ok.inj hvs⟩
    have hcheck : ∀ e chunk m vs, widthCheckedRun (requiredMask bitWidth) e chunk m = .ok vs →
        (rleIndex chunk).toNat < requiredMask bitWidth := fun e chunk m vs hvs =>
      (widthCheckedRun_eq_ok.mp hvs).1
    obtain ⟨chunks, hchunks, hiff⟩ := hybridDecode_checked hpass hcheck h
    have hvalues : (repeatedValues bitWidth.toNat n bytes).toOption.getD [] = chunks := by
      rw [hchunks]
      rfl
    rw [hiff, hvalues, List.forall_mem_map, requiredMask_eq]
    exact (and_iff_right hlt).symm

/-- The predicate decoder on a page, with a mask of zeros and ones. -/
theorem exists_bitmap_iff {mask : Bytes} (hmask : IsMask mask) {p : AdaptivePageInput} :
    (∃ bm, decodeRleDictionaryPredicateBitmap p.body p.numValues mask = .ok bm) ↔
      CoversWidth mask p.body ∧ Accepted p := by
  constructor
  · rintro ⟨bm, hbm⟩
    have hcover : CoversWidth mask p.body := by
      intro bitWidth bytes hbody
      rw [hbody, decodeRleDictionaryPredicateBitmap.eq_def] at hbm
      dsimp only at hbm
      split at hbm
      · cases hbm
      split at hbm
      · cases hbm
      split at hbm
      · cases hbm
      · omega
    obtain ⟨indices, hindices, -⟩ := accepted_of_bitmap hmask hcover hbm
    exact ⟨hcover, indices, hindices⟩
  · rintro ⟨hcover, indices, hindices⟩
    exact ⟨_, by rw [predicateBitmap_eq hmask hcover, hindices]; rfl⟩

/-! ## The two loops of the runner -/

theorem foldlM_step {σ τ ε : Type} {f : σ → τ → Except ε σ} {as : List τ} {s s' : σ}
    (h : as.foldlM f s = .ok s') {a : τ} (ha : a ∈ as) : ∃ t t', f t a = .ok t' := by
  induction as generalizing s with
  | nil => cases ha
  | cons b as ih =>
    rw [List.foldlM_cons] at h
    obtain ⟨t, hb, hrest⟩ := bind_eq_ok.mp h
    rcases List.mem_cons.mp ha with rfl | hmem
    · exact ⟨s, t, hb⟩
    · exact ih hrest hmem

theorem exists_foldlM {σ τ ε : Type} {f : σ → τ → Except ε σ} {as : List τ}
    (h : ∀ s, ∀ a ∈ as, ∃ t, f s a = .ok t) (s : σ) : ∃ t, as.foldlM f s = .ok t := by
  induction as generalizing s with
  | nil => exact ⟨s, rfl⟩
  | cons a as ih =>
    obtain ⟨t, ht⟩ := h s a List.mem_cons_self
    obtain ⟨t', ht'⟩ := ih (fun s b hb => h s b (List.mem_cons_of_mem _ hb)) t
    exact ⟨t', by rw [List.foldlM_cons]; exact bind_eq_ok.mpr ⟨t, ht, ht'⟩⟩

section
variable {mask : Bytes} (hmask : IsMask mask) {pages : List AdaptivePageInput}
include hmask

/-- **The fused loop** returns iff the predicate decoder accepts every page. -/
theorem exists_probeAll_iff (acc : Bytes × PageProbe) :
    (∃ out, probeAll mask acc pages = .ok out) ↔
      ∀ p ∈ pages, CoversWidth mask p.body ∧ Accepted p := by
  constructor
  · rintro ⟨out, hout⟩ p hp
    obtain ⟨t, t', hstep⟩ := foldlM_step hout hp
    obtain ⟨probe, hprobe, -⟩ := bind_eq_ok.mp hstep
    obtain ⟨bm, hbm, -⟩ := bind_eq_ok.mp hprobe
    exact (exists_bitmap_iff hmask).mp ⟨bm, hbm⟩
  · intro h
    obtain ⟨rows, hrows⟩ := exists_pagesHold fun p hp => (h p hp).2
    exact ⟨_, probeAll_eq hmask (fun p hp => (h p hp).1) hrows acc⟩

/-- **The materialising loop** does so too, if the plain decoder reads the
    pages. -/
theorem exists_materialiseAll_iff {dict : List α}
    (hplain : ∀ p ∈ pages, ∃ vs, decodeRleDictionary p.body dict p.numValues = .ok vs)
    (out : List α) :
    (∃ values, materialiseAll dict mask out pages = .ok values) ↔
      ∀ p ∈ pages, CoversWidth mask p.body ∧ Accepted p := by
  constructor
  · rintro ⟨values, hvalues⟩ p hp
    obtain ⟨t, t', hstep⟩ := foldlM_step hvalues hp
    obtain ⟨vs, -, hfilter⟩ := bind_eq_ok.mp hstep
    obtain ⟨bm, hbm, -⟩ := bind_eq_ok.mp hfilter
    exact (exists_bitmap_iff hmask).mp ⟨bm, hbm⟩
  · intro h
    refine exists_foldlM (fun out p hp => ?_) out
    obtain ⟨vs, hvs⟩ := hplain p hp
    obtain ⟨hcover, indices, hpage⟩ := h p hp
    have hentries := decodeRleDictionary_forall₂ hvs (decodeRleDictionaryIndices_of_pageIndices hpage).1
    obtain ⟨ws, hws, -⟩ := materialiseFilter_eq hmask hcover hpage hentries out
    exact ⟨_, bind_eq_ok.mpr ⟨vs, hvs, hws⟩⟩

/-- The fused loop in two parts. -/
theorem probeAll_split {k : ℕ} {acc probe all : Bytes × PageProbe}
    (hprobe : probeAll mask acc (pages.take k) = .ok probe)
    (hall : probeAll mask probe (pages.drop k) = .ok all) :
    ∀ p ∈ pages, CoversWidth mask p.body ∧ Accepted p := by
  refine (exists_probeAll_iff hmask acc).mp ⟨all, ?_⟩
  rw [← List.take_append_drop k pages, probeAll, List.foldlM_append]
  exact bind_eq_ok.mpr ⟨probe, hprobe, hall⟩

end

/-- **The runner** returns iff the predicate decoder accepts every page. -/
theorem exists_runAdaptiveDictChunk_iff {pages : List AdaptivePageInput} {dict : List α}
    {cfg : AdaptiveDictPredicate} (hmask : IsMask cfg.dictMask) (htotal : totalRows pages ≠ 0)
    (hplain : ∀ p ∈ pages, ∃ vs, decodeRleDictionary p.body dict p.numValues = .ok vs) :
    (∃ out, runAdaptiveDictChunk pages dict cfg = .ok out) ↔
      ∀ p ∈ pages, CoversWidth cfg.dictMask p.body ∧ Accepted p := by
  rw [runAdaptiveDictChunk, if_neg htotal]
  dsimp only
  constructor
  · rintro ⟨out, h⟩
    obtain ⟨probe, hprobe, h⟩ := bind_eq_ok.mp h
    split at h
    · obtain ⟨all, hall, -⟩ := bind_eq_ok.mp h
      exact probeAll_split hmask hprobe hall
    · obtain ⟨values, hvalues, -⟩ := bind_eq_ok.mp h
      exact (exists_materialiseAll_iff hmask hplain []).mp ⟨values, hvalues⟩
  · intro h
    obtain ⟨probe, hprobe⟩ := (exists_probeAll_iff hmask ([], ⟨0, 0⟩)).mpr fun p hp =>
      h p (List.mem_of_mem_take hp)
    have hrest : ∃ all, probeAll cfg.dictMask probe
        (pages.drop (min cfg.probePages pages.length)) = .ok all :=
      (exists_probeAll_iff hmask probe).mpr fun p hp => h p (List.mem_of_mem_drop hp)
    obtain ⟨all, hall⟩ := hrest
    obtain ⟨values, hvalues⟩ := (exists_materialiseAll_iff hmask hplain []).mpr h
    cases hdispatch : cfg.dispatchFor probe.2 with
    | fused =>
      refine ⟨⟨.fused, totalRows pages, .bitmap all.1 all.2.rowsPassed⟩, bind_eq_ok.mpr ⟨probe, hprobe, ?_⟩⟩
      rw [hdispatch]
      exact bind_eq_ok.mpr ⟨all, hall, rfl⟩
    | materialized =>
      refine ⟨⟨.materialized, totalRows pages, .values values⟩, bind_eq_ok.mpr ⟨probe, hprobe, ?_⟩⟩
      rw [hdispatch]
      exact bind_eq_ok.mpr ⟨values, hvalues, rfl⟩

/-! ## Masks -/

theorem checkMaskWidth_eq_ok {dictLen : ℕ} {bitWidth : UInt8} {u : Unit} :
    checkMaskWidth dictLen bitWidth = .ok u ↔
      bitWidth ≤ 32 ∧ bitWidth ≠ 0 ∧ dictLen ≤ 2 ^ bitWidth.toNat := by
  rw [checkMaskWidth]
  by_cases hwidth : 32 < bitWidth ∨ bitWidth = 0
  · rw [if_pos hwidth]
    refine iff_of_false (by rintro ⟨⟩) ?_
    rintro ⟨hle, hne, -⟩
    exact hwidth.elim (UInt8.not_lt.mpr hle) hne
  · rw [if_neg hwidth]
    obtain ⟨hle, hne⟩ := not_or.mp hwidth
    rw [UInt8.not_lt] at hle
    by_cases hdict : 2 ^ bitWidth.toNat < dictLen
    · rw [if_pos hdict]
      exact iff_of_false (by rintro ⟨⟩) fun h => absurd h.2.2 (Nat.not_le.mpr hdict)
    · rw [if_neg hdict]
      exact iff_of_true rfl ⟨hle, hne, Nat.le_of_not_lt hdict⟩

theorem isMask_padMask (bitWidth : UInt8) (flags : List Bool) : IsMask (padMask bitWidth flags) := by
  intro b hb
  rcases List.mem_append.mp hb with hb | hb
  · obtain ⟨flag, -, rfl⟩ := List.mem_map.mp hb
    cases flag <;> simp
  · exact Or.inl (List.eq_of_mem_replicate hb)

theorem length_padMask {bitWidth : UInt8} {flags : List Bool}
    (h : flags.length ≤ 2 ^ bitWidth.toNat) :
    (padMask bitWidth flags).length = 2 ^ bitWidth.toNat := by
  rw [padMask, List.length_append, List.length_map, List.length_replicate]
  omega

/-- Entries pass as the flags say. -/
theorem passes_padMask (bitWidth : UInt8) {flags : List Bool} {idx : UInt32}
    (h : idx.toNat < flags.length) : passes (padMask bitWidth flags) idx = flags[idx.toNat] := by
  rw [passes, padMask, List.getElem?_append_left (by rwa [List.length_map]), List.getElem?_map,
    List.getElem?_eq_getElem h]
  cases flags[idx.toNat] <;> rfl

/-- The bit width of the first page that has one. -/
def maskWidth : List AdaptivePageInput → UInt8
  | [] => 0
  | p :: ps => if p.width = 0 then maskWidth ps else p.width

theorem maskWidth_le {pages : List AdaptivePageInput} {w : UInt8} (h : ∀ p ∈ pages, p.width ≤ w) :
    maskWidth pages ≤ w := by
  induction pages with
  | nil => exact UInt8.zero_le
  | cons p ps ih =>
    rw [List.forall_mem_cons] at h
    rw [maskWidth]
    split
    · exact ih h.2
    · exact h.1

/-- The mask made for the first page with a non-zero width has an entry for
    every dictionary value, and serves all pages. -/
structure MaskServes (dictLen : ℕ) (pages : List AdaptivePageInput) : Prop where
  width : maskWidth pages ≠ 0
  dict : dictLen ≤ 2 ^ (maskWidth pages).toNat
  page : totalRows pages ≠ 0 → ∀ p ∈ pages, p.width < 32 ∧ p.width ≤ maskWidth pages ∧ p.RunsFit

theorem width_le_of_indices {p : AdaptivePageInput} {indices : List UInt32}
    (h : decodeRleDictionaryIndices p.body p.numValues = .ok indices) : p.width ≤ 32 := by
  obtain ⟨body, n⟩ := p
  cases body with
  | nil => cases h
  | cons bitWidth bytes =>
    dsimp only at h
    rw [decodeRleDictionaryIndices] at h
    split at h
    · cases h
    · next hle => exact UInt8.not_lt.mp hle

/-- **One page under the mask.** -/
theorem covers_accepted_iff {bitWidth : UInt8} {flags : List Bool} {p : AdaptivePageInput}
    {indices : List UInt32} (hflags : flags.length ≤ 2 ^ bitWidth.toNat)
    (h : decodeRleDictionaryIndices p.body p.numValues = .ok indices) :
    CoversWidth (padMask bitWidth flags) p.body ∧ Accepted p ↔
      p.width < 32 ∧ p.width ≤ bitWidth ∧ p.RunsFit := by
  have hcover : CoversWidth (padMask bitWidth flags) p.body ↔ p.width ≤ bitWidth := by
    obtain ⟨body, n⟩ := p
    cases body with
    | nil => cases h
    | cons w bytes =>
      rw [AdaptivePageInput.width, List.headD_cons, UInt8.le_iff_toNat_le,
        ← Nat.pow_le_pow_iff_right (Nat.lt_succ_self 1), ← requiredMask_eq w,
        ← length_padMask hflags]
      constructor
      · intro hcover
        exact hcover w bytes rfl
      · rintro hle w' bytes' hbody
        cases hbody
        exact hle
  rw [hcover, accepted_iff h]
  exact and_left_comm

/-! ## What is pulled -/

/-- The data pages that hold the first `total` rows of a chunk, as the runner
    takes them. -/
def pagesUpTo [Platform] (chunk : RawChunk) : ℕ → List Page → List AdaptivePageInput
  | _, [] => []
  | total, page :: pages =>
    if total = 0 then []
    else if page.1.pageType.IsData then
      match dataPageView page chunk with
      | .ok info => ⟨info.values, info.numValues⟩ :: pagesUpTo chunk (total - info.numValues) pages
      | .error _ => []
    else pagesUpTo chunk total pages

/-- The content of the dictionary page. -/
def chunkDictionary [Platform] (decodePlain : Bytes → Res CodecError (List α)) (chunk : RawChunk)
    (pages : List Page) : List α :=
  match pages.find? fun page => page.1.pageType = .dictionaryPage with
  | some page => (dictionaryPage decodePlain page chunk).toOption.getD []
  | none => []

/-- A data page whose values are indices. -/
def IsIndexPage (page : Page) : Prop :=
  page.1.pageType.IsData ∧
    (pageEncoding page.1 = some .rleDictionary ∨ pageEncoding page.1 = some .plainDictionary)

/-- A chunk of one dictionary page and of data pages whose values are indices. -/
structure DictionaryChunk (pages : List Page) : Prop where
  dictionary : (pages.filter fun page => page.1.pageType = .dictionaryPage).length = 1
  page : ∀ page ∈ pages, page.1.pageType = .dictionaryPage ∨ IsIndexPage page

/-- The decoder of a dictionary-encoded page returns the entries at its indices. -/
def ReadsEntries (dec : PageDecoder α) : Prop :=
  ∀ dict n values vs, dec.dict dict n values = .ok vs → ∃ indices,
    decodeRleDictionaryIndices values n = .ok indices ∧ indices.length = n ∧
      List.Forall₂ (EntryOf dict) indices vs

theorem decodeRleDictionaryIndices_length {body : Bytes} {n : ℕ} {indices : List UInt32}
    (h : decodeRleDictionaryIndices body n = .ok indices) : indices.length = n := by
  rw [decodeRleDictionaryIndices.eq_def] at h
  cases body with
  | nil => cases h
  | cons bitWidth bytes =>
    dsimp only at h
    split at h
    · cases h
    · next hbw =>
      split at h
      · next hzero =>
        cases h
        exact hzero.symm
      · split at h
        · cases h
          exact List.length_replicate
        · exact (hybridDecode_simulates (fun _ => True) (fun _ vs => vs)
            (fun _ _ _ _ _ hvs => ⟨unpackIndices_length (UInt8.not_lt.mp hbw) hvs, fun _ => hvs⟩)
            (fun _ _ _ _ _ hvs => ⟨by cases hvs; exact List.length_replicate, fun _ => hvs⟩)
            (fun _ _ _ => rfl) h).1

theorem readsEntries_byteArray : ReadsEntries byteArrayDecoder := by
  intro dict n values vs h
  obtain ⟨indices, hindices, hvs⟩ := bind_eq_ok.mp h
  exact ⟨indices, hindices, decodeRleDictionaryIndices_length hindices,
    (mapM_eq_ok.mp hvs).imp fun _ _ hv => okOr_eq_ok.mp hv⟩

theorem readsEntries_fixed [FixedWidth α] : ReadsEntries (fixedDecoder : PageDecoder α) := by
  intro dict n values vs h
  obtain ⟨indices, hindices⟩ := exists_indices_of_values h
  exact ⟨indices, hindices, decodeRleDictionaryIndices_length hindices,
    decodeRleDictionary_forall₂ h hindices⟩

section
variable [Platform] {dec : PageDecoder α} {f : AdaptiveFacade δ} {chunk : RawChunk}

theorem pagesUpTo_zero (chunk : RawChunk) (pages : List Page) : pagesUpTo chunk 0 pages = [] := by
  cases pages with
  | nil => rfl
  | cons page pages => rw [pagesUpTo, if_pos rfl]

/-- The values of a page under the plain reader. -/
def PageValues (dec : PageDecoder α) (dict : List α) (p : AdaptivePageInput) (vs : List α) : Prop :=
  dec.dict dict p.numValues p.body = .ok vs

/-- A data page that the plain reader decodes. -/
theorem decodePage_indexPage {s t : DecodeState α} {page : Page} (hpage : IsIndexPage page)
    (h : decodePage dec chunk s page = .ok t) :
    ∃ info vs, dataPageView page chunk = .ok info ∧ f.checkEncoding info.encoding = .ok () ∧
      dec.dict s.dict info.numValues info.values = .ok vs ∧ s.dict ≠ [] ∧
      t = { s with out := s.out ++ vs } := by
  have hbody : (do
      let info ← dataPageView page chunk
      let vs ← decodeValues dec s.dict info
      pure { s with out := s.out ++ vs }) = .ok t := by
    rcases hpage.1 with htype | htype
    · rwa [decodePage.eq_def, htype] at h
    · rwa [decodePage.eq_def, htype] at h
  obtain ⟨info, hinfo, hbody⟩ := bind_eq_ok.mp hbody
  obtain ⟨vs, hvs, hbody⟩ := bind_eq_ok.mp hbody
  have hencoding := (dataPageView_info hinfo).2
  have hvalues : f.checkEncoding info.encoding = .ok () ∧ decodeValues dec s.dict info =
      if s.dict = [] then codecErr (.invalidInput "dict-encoded data page before dictionary")
      else dec.dict s.dict info.numValues info.values := by
    rw [decodeValues.eq_def]
    rcases hpage.2 with he | he
    · rw [Option.some.inj (hencoding.symm.trans he)]
      exact ⟨rfl, rfl⟩
    · rw [Option.some.inj (hencoding.symm.trans he)]
      exact ⟨rfl, rfl⟩
  rw [hvalues.2] at hvs
  split at hvs
  · cases hvs
  · next hdict => exact ⟨info, vs, hinfo, hvalues.1, hvs, hdict, (Except.ok.inj hbody).symm⟩

/-- The pages pulled so far, and the width. -/
def PullState.add (s : PullState δ) (pages : List AdaptivePageInput) : PullState δ :=
  { s with
    pages := s.pages ++ pages
    bitWidth := if s.bitWidth = 0 then maskWidth pages else s.bitWidth
    rowsCollected := s.rowsCollected + totalRows pages }

omit [Platform] in
theorem PullState.add_nil (s : PullState δ) : s.add [] = s := by
  obtain ⟨dict, pages, bitWidth, rows⟩ := s
  simp only [PullState.add, List.append_nil, maskWidth, totalRows, List.map_nil, List.sum_nil,
    Nat.add_zero]
  split
  · next h => rw [h]
  · rfl

omit [Platform] in
theorem PullState.add_add (s : PullState δ) (xs ys : List AdaptivePageInput) :
    (s.add xs).add ys = s.add (xs ++ ys) := by
  have hwidth : ∀ xs ys : List AdaptivePageInput, maskWidth (xs ++ ys)
      = if maskWidth xs = 0 then maskWidth ys else maskWidth xs := by
    intro xs ys
    induction xs with
    | nil => rfl
    | cons p xs ih =>
      rw [List.cons_append, maskWidth, maskWidth, ih]
      by_cases h : p.width = 0
      · simp [h]
      · simp [h]
  simp only [PullState.add, List.append_assoc, hwidth, totalRows, List.map_append, List.sum_append,
    Nat.add_assoc]
  by_cases h : s.bitWidth = 0
  · simp [h]
  · simp [h]

/-- A data page that the plain reader decodes is pulled. -/
theorem pullPage_indexPage {s : PullState δ} {page : Page} {info : DataPageInfo} {d : δ}
    (hdata : page.1.pageType.IsData) (hdict : s.dict = some d)
    (hinfo : dataPageView page chunk = .ok info) (hencoding : f.checkEncoding info.encoding = .ok ())
    (hbody : info.values ≠ []) :
    pullPage f chunk s page = .ok (s.add [⟨info.values, info.numValues⟩]) := by
  have hpush : s.push info = .ok (s.add [⟨info.values, info.numValues⟩]) := by
    obtain ⟨b, rest, hvalues⟩ := List.exists_cons_of_ne_nil hbody
    have hwidth : maskWidth [⟨info.values, info.numValues⟩] = b := by
      rw [maskWidth, maskWidth, AdaptivePageInput.width, hvalues, List.headD_cons]
      split
      · next h => rw [h]
      · rfl
    have hrows : totalRows [⟨info.values, info.numValues⟩] = info.numValues := by
      simp [totalRows]
    rw [PullState.push, PullState.add, hwidth, hrows, hvalues]
    by_cases hzero : s.bitWidth = 0
    · rw [if_pos hzero, if_pos hzero]
      rfl
    · rw [if_neg hzero, if_neg hzero]
      rfl
  have hsome : ¬ s.dict.isNone = true := by
    rw [hdict]
    simp
  have hpull : (if s.dict.isNone then codecErr (.invalidInput
        s!"{f.name}: data page before dictionary (column has no DictionaryPage)")
      else do
        let info ← dataPageView page chunk
        f.checkEncoding info.encoding
        s.push info) = .ok (s.add [⟨info.values, info.numValues⟩]) := by
    rw [if_neg hsome]
    exact bind_eq_ok.mpr ⟨info, hinfo, bind_eq_ok.mpr ⟨(), hencoding, hpush⟩⟩
  rcases hdata with htype | htype
  · rw [pullPage.eq_def, htype]
    exact hpull
  · rw [pullPage.eq_def, htype]
    exact hpull

/-- **Data pages**: those that the plain reader decodes are pulled. -/
theorem foldPages_pull (hdec : ReadsEntries dec) {pages : List Page}
    (hpages : ∀ page ∈ pages, IsIndexPage page) {s s' : DecodeState α} {t : PullState δ} {d : δ}
    (hdict : t.dict = some d) (hrows : t.rowsCollected = s.out.length)
    (hmore : s.out.length < chunk.totalValues)
    (h : foldPages (decodeStep dec chunk) s pages = .ok s') :
    ∃ rows, s'.out = s.out ++ rows.flatten ∧
      List.Forall₂ (PageValues dec s.dict)
        (pagesUpTo chunk (chunk.totalValues - s.out.length) pages) rows ∧
      foldPages (pullStep f chunk) t pages
        = .ok (t.add (pagesUpTo chunk (chunk.totalValues - s.out.length) pages)) := by
  induction pages generalizing s t with
  | nil =>
    cases h
    exact ⟨[], by simp, .nil, by rw [foldPages, pagesUpTo, PullState.add_nil]⟩
  | cons page pages ih =>
    rw [List.forall_mem_cons] at hpages
    cases hstep : decodeStep dec chunk s page with
    | error e =>
      rw [foldPages, hstep] at h
      cases h
    | ok r =>
      obtain ⟨s₁, hpage, hr⟩ := bind_eq_ok.mp hstep
      obtain ⟨info, vs, hinfo, hencoding, hvs, -, rfl⟩ :=
        @decodePage_indexPage _ _ _ _ f _ _ _ _ hpages.1 hpage
      obtain ⟨indices, hindices, hlen, hentries⟩ := hdec _ _ _ _ hvs
      have hn : vs.length = info.numValues := hentries.length_eq.symm.trans hlen
      have hbody : info.values ≠ [] := by
        intro hnil
        rw [hnil] at hindices
        cases hindices
      have hpull : pullPage f chunk t page = .ok _ :=
        pullPage_indexPage hpages.1.1 hdict hinfo hencoding hbody
      have hcollected : (t.add [⟨info.values, info.numValues⟩]).rowsCollected
          = (s.out ++ vs).length := by
        simp [PullState.add, totalRows, hrows, hn]
      have hfirst : pagesUpTo chunk (chunk.totalValues - s.out.length) (page :: pages)
          = ⟨info.values, info.numValues⟩
            :: pagesUpTo chunk (chunk.totalValues - (s.out ++ vs).length) pages := by
        rw [pagesUpTo, if_neg (by omega), if_pos hpages.1.1, hinfo, List.length_append, hn,
          ← Nat.sub_sub]
      have hstep' : pullStep f chunk t page = .ok (if chunk.totalValues ≤ (s.out ++ vs).length
          then .inr (t.add [⟨info.values, info.numValues⟩])
          else .inl (t.add [⟨info.values, info.numValues⟩])) := by
        refine bind_eq_ok.mpr ⟨_, hpull, ?_⟩
        rw [hcollected]
        rfl
      rw [foldPages, hstep] at h
      rw [foldPages, hstep', hfirst]
      by_cases hdone : chunk.totalValues ≤ (s.out ++ vs).length
      · rw [if_pos hdone] at hr ⊢
        cases hr
        cases h
        rw [Nat.sub_eq_zero_of_le hdone, pagesUpTo_zero]
        exact ⟨[vs], by simp, .cons hvs .nil, rfl⟩
      · rw [if_neg hdone] at hr ⊢
        cases hr
        obtain ⟨rows, hout, hvalues, hrest⟩ :=
          ih hpages.2 (t := t.add [⟨info.values, info.numValues⟩]) hdict hcollected
            (Nat.lt_of_not_le hdone) h
        refine ⟨vs :: rows, ?_, .cons hvs hvalues, ?_⟩
        · rw [hout, List.flatten_cons, List.append_assoc]
        · dsimp only
          rw [hrest, PullState.add_add]
          rfl

end

section
variable [Platform] {dec : PageDecoder α} {f : AdaptiveFacade δ} {keep : List α → Res CodecError δ}
  {file : ParquetFile} {rowGroup column : ℕ} {chunk : RawChunk} {pages : List Page} {vs : List α}

/-- What the plain reader accepts begins with the dictionary page. -/
theorem DictionaryChunk.exists_cons (h : DictionaryChunk pages) {s : DecodeState α}
    (hread : foldPages (decodeStep dec chunk) {} pages = .ok s) :
    ∃ page rest dict, pages = page :: rest ∧ page.1.pageType = .dictionaryPage ∧
      (∀ p ∈ rest, IsIndexPage p) ∧ dictionaryPage dec.plain page chunk = .ok dict ∧
      chunkDictionary dec.plain chunk pages = dict ∧
      decodeStep dec chunk {} page
        = .ok (if chunk.totalValues ≤ 0 then .inr { dict } else .inl { dict }) := by
  cases pages with
  | nil => exact absurd h.dictionary (by simp)
  | cons page rest =>
    rw [foldPages] at hread
    cases hstep : decodeStep dec chunk {} page with
    | error e => simp [hstep] at hread
    | ok r =>
      obtain ⟨t, hpage, ht⟩ := bind_eq_ok.mp hstep
      rcases h.page page List.mem_cons_self with htype | hindex
      · have hnone : rest.filter (fun page => page.1.pageType = .dictionaryPage) = [] := by
          have hone := h.dictionary
          rw [List.filter_cons_of_pos (by simp [htype]), List.length_cons] at hone
          exact List.length_eq_zero_iff.mp (by omega)
        have hrest : ∀ p ∈ rest, IsIndexPage p := fun p hp =>
          (h.page p (List.mem_cons_of_mem _ hp)).resolve_left fun htype' =>
            List.filter_eq_nil_iff.mp hnone p hp (by simp [htype'])
        rw [decodePage.eq_def, htype] at hpage
        obtain ⟨dict, hdict, hpage⟩ := bind_eq_ok.mp hpage
        cases hpage
        cases ht
        refine ⟨page, rest, dict, rfl, htype, hrest, hdict, ?_, hstep⟩
        rw [chunkDictionary, List.find?_cons_of_pos (by simp [htype])]
        dsimp only
        rw [hdict]
        rfl
      · obtain ⟨-, -, -, -, -, hne, -⟩ := @decodePage_indexPage _ Unit _ _
          ⟨"", "", fun _ _ => .ok ()⟩ _ _ _ _ hindex hpage
        exact absurd rfl hne

/-- **Pulling a chunk** that the plain reader accepts: the façade makes of the
    dictionary what it keeps, and has the pages of all rows. -/
theorem pullDictChunk_eq (hchunk : readChunkRaw file rowGroup column = .ok chunk)
    (hpages : PagesOf chunk.bytes pages) (hshape : DictionaryChunk pages) (hdec : ReadsEntries dec)
    (hf : ∀ decomp, f.dictionary none decomp = dec.plain decomp >>= keep)
    (hread : decodeChunk dec file rowGroup column = .ok vs) :
    ∃ rows, vs = rows.flatten ∧
      List.Forall₂ (PageValues dec (chunkDictionary dec.plain chunk pages))
        (pagesUpTo chunk chunk.totalValues pages) rows ∧
      pullDictChunk f file rowGroup column
        = (fun d => (d, pagesUpTo chunk chunk.totalValues pages,
            maskWidth (pagesUpTo chunk chunk.totalValues pages)))
          <$> keep (chunkDictionary dec.plain chunk pages) := by
  rw [decodeChunk_eq dec hchunk hpages] at hread
  obtain ⟨s, hfold, rfl⟩ := map_eq_ok.mp hread
  obtain ⟨page, rest, dict, rfl, htype, hrest, hdict, hcontent, hstep⟩ := hshape.exists_cons hfold
  have hpull : pullPage f chunk {} page = (fun d => { dict := some d }) <$> keep dict := by
    obtain ⟨size, hsize, hdict⟩ := bind_eq_ok.mp hdict
    obtain ⟨decomp, hdecomp, hdict⟩ := bind_eq_ok.mp hdict
    rw [pullPage.eq_def, htype]
    dsimp only
    rw [hsize]
    change (decompressInto chunk.codec page.2 size >>= _) = _
    rw [hdecomp]
    change (f.dictionary none decomp >>= _) = _
    rw [hf, hdict]
    change (keep dict >>= _) = _
    cases keep dict <;> rfl
  have hdata : ¬ page.1.pageType.IsData := by
    rw [htype]
    decide
  rw [hcontent]
  rw [foldPages, hstep] at hfold
  -- what the façade does when it keeps `d`
  have hkeep : ∀ inputs, (∀ d, keep dict = .ok d →
      foldPages (pullStep f chunk) {} (page :: rest) = .ok (PullState.add { dict := some d } inputs)) →
      pullDictChunk f file rowGroup column
        = (fun d => (d, inputs, maskWidth inputs)) <$> keep dict := by
    intro inputs h
    rw [pullDictChunk, hchunk]
    change (walkPages ioToCodec (pullStep f chunk) {} chunk.bytes >>= _) = _
    rw [walkPages_eq hpages]
    cases hd : keep dict with
    | error e =>
      rw [foldPages, pullStep, hpull, hd]
      rfl
    | ok d =>
      rw [h d hd]
      rfl
  have hfirst : ∀ d, keep dict = .ok d → pullStep f chunk {} page = .ok
      (if chunk.totalValues ≤ 0 then .inr { dict := some d } else .inl { dict := some d }) := by
    intro d hd
    rw [pullStep, hpull, hd]
    rfl
  by_cases hzero : chunk.totalValues ≤ 0
  · rw [if_pos hzero] at hfold
    cases hfold
    rw [Nat.le_zero.mp hzero, pagesUpTo_zero]
    refine ⟨[], rfl, .nil, hkeep [] fun d hd => ?_⟩
    rw [foldPages, hfirst d hd, if_pos hzero, PullState.add_nil]
  · rw [if_neg hzero] at hfold
    have hskip : pagesUpTo chunk chunk.totalValues (page :: rest)
        = pagesUpTo chunk chunk.totalValues rest := by
      rw [pagesUpTo, if_neg (by omega), if_neg hdata]
    have hmore : (({ dict } : DecodeState α)).out.length < chunk.totalValues :=
      Nat.lt_of_not_le hzero
    obtain ⟨rows, hout, hvalues, -⟩ := @foldPages_pull _ Unit _ _ ⟨"", "", fun _ _ => .ok ()⟩ _ hdec
      _ hrest _ _ { dict := some () } () rfl rfl hmore hfold
    rw [hskip]
    refine ⟨rows, hout, hvalues, hkeep _ fun d hd => ?_⟩
    obtain ⟨-, -, -, hpulled⟩ := @foldPages_pull _ _ _ _ f _ hdec _ hrest _ _ { dict := some d } d
      rfl rfl hmore hfold
    rw [foldPages, hfirst d hd, if_neg hzero]
    exact hpulled

end

/-- What the mask has to do with the pages, once it is built. -/
theorem maskServes_iff {dictLen : ℕ} {inputs : List AdaptivePageInput} {flags : List Bool}
    (hflags : flags.length = dictLen) (hindices : ∀ p ∈ inputs, ∃ indices,
      decodeRleDictionaryIndices p.body p.numValues = .ok indices) :
    MaskServes dictLen inputs ↔ checkMaskWidth dictLen (maskWidth inputs) = .ok () ∧
      (totalRows inputs ≠ 0 → ∀ p ∈ inputs,
        CoversWidth (padMask (maskWidth inputs) flags) p.body ∧ Accepted p) := by
  have hle : maskWidth inputs ≤ 32 := maskWidth_le fun p hp => by
    obtain ⟨indices, h⟩ := hindices p hp
    exact width_le_of_indices h
  rw [checkMaskWidth_eq_ok]
  constructor
  · intro h
    refine ⟨⟨hle, h.width, h.dict⟩, fun htotal p hp => ?_⟩
    obtain ⟨indices, hp'⟩ := hindices p hp
    exact (covers_accepted_iff (hflags.trans_le h.dict) hp').mpr (h.page htotal p hp)
  · rintro ⟨⟨-, hwidth, hdict⟩, h⟩
    refine ⟨hwidth, hdict, fun htotal p hp => ?_⟩
    obtain ⟨indices, hp'⟩ := hindices p hp
    exact (covers_accepted_iff (hflags.trans_le hdict) hp').mp (h htotal p hp)

theorem PageValues.exists_of_mem {dec : PageDecoder α} {dict : List α}
    {inputs : List AdaptivePageInput} {rows : List (List α)}
    (h : List.Forall₂ (PageValues dec dict) inputs rows) {p : AdaptivePageInput} (hp : p ∈ inputs) :
    ∃ vs, PageValues dec dict p vs := by
  induction h with
  | nil => cases hp
  | cons hvs _ ih =>
    rcases List.mem_cons.mp hp with rfl | hmem
    · exact ⟨_, hvs⟩
    · exact ih hmem

section
variable [Platform] {file : ParquetFile} {rowGroup column : ℕ} {chunk : RawChunk}
  {pages : List Page}

/-- **Scalars**: whatever the predicate and the options, the read returns iff
    the mask serves the chunk. -/
theorem exists_runFacade_iff [FixedWidth α] {vs : List α}
    (hchunk : readChunkRaw file rowGroup column = .ok chunk) (hpages : PagesOf chunk.bytes pages)
    (hshape : DictionaryChunk pages)
    (hread : decodeChunk (fixedDecoder : PageDecoder α) file rowGroup column = .ok vs)
    (predicate : α → Bool) (opts : AdaptiveDispatchOptions) :
    (∃ out, runFacade decodePlainFixed file rowGroup column predicate opts = .ok out) ↔
      MaskServes (chunkDictionary (fixedDecoder : PageDecoder α).plain chunk pages).length
        (pagesUpTo chunk chunk.totalValues pages) := by
  have hkeep : ∀ decomp : Bytes, (decodePlainFixed decomp : Res CodecError (List α))
      = decodePlainFixed decomp >>= .ok := by
    intro decomp
    cases (decodePlainFixed decomp : Res CodecError (List α)) <;> rfl
  obtain ⟨rows, -, hvalues, hpull⟩ := pullDictChunk_eq
    (f := scalarFacade (decodePlainFixed : Bytes → Res CodecError (List α))) hchunk hpages hshape
    readsEntries_fixed hkeep hread
  generalize chunkDictionary (fixedDecoder : PageDecoder α).plain chunk pages = dict at hvalues hpull ⊢
  generalize pagesUpTo chunk chunk.totalValues pages = inputs at hvalues hpull ⊢
  have hplain : ∀ p ∈ inputs, ∃ vs, decodeRleDictionary p.body dict p.numValues = .ok vs :=
    fun p hp => PageValues.exists_of_mem hvalues hp
  have hindices : ∀ p ∈ inputs, ∃ indices,
      decodeRleDictionaryIndices p.body p.numValues = .ok indices := fun p hp => by
    obtain ⟨vs, hvs⟩ := hplain p hp
    exact exists_indices_of_values hvs
  rw [maskServes_iff (List.length_map predicate) hindices, runFacade, hpull]
  change (∃ out, (checkMaskWidth dict.length (maskWidth inputs) >>= fun _ => pure _) >>= _ = .ok out) ↔ _
  cases hcheck : checkMaskWidth dict.length (maskWidth inputs) with
  | error e => exact iff_of_false (by rintro ⟨out, h⟩; cases h) (by rintro ⟨h, -⟩; cases h)
  | ok u =>
    change (∃ out, runAdaptiveDictChunk inputs dict _ = .ok out) ↔ _
    rw [and_iff_right rfl]
    by_cases htotal : totalRows inputs = 0
    · refine iff_of_true ⟨_, by rw [runAdaptiveDictChunk, if_pos htotal]⟩ fun h => absurd htotal h
    · rw [exists_runAdaptiveDictChunk_iff (isMask_padMask _ _) htotal hplain]
      exact ⟨fun h _ => h, fun h => h htotal⟩

end

end EmatixParquet
