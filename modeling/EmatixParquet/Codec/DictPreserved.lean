/-
  BYTE_ARRAY columns read as a dictionary and indices
  (`read_column_byte_array_dict_preserved` of `read.rs` and its `u8` variant).

  Pages of values are refused, and indices that the dictionary has no entry for.

  * `preservedPages_simulates`: what the reader accepts, the owned reader
    decodes to the entries at the indices;
  * `dictPreserved_u8`: the narrow variant returns what the wide one does;
  * `dictPreserved_represents`: the dictionary and the indices represent the
    column.
-/
import EmatixParquet.Codec.AdaptiveBytes

namespace EmatixParquet

open Wire

/-! ## Narrow indices -/

/-- `decode_rle_dictionary_indices_u8_into`: what it appends. -/
def decodeRleDictionaryIndicesU8 (body : Bytes) (numValues : ℕ) : Res CodecError (List UInt8) :=
  match body with
  | [] => codecErr .emptyDictPageBody
  | bitWidth :: _ =>
    if 8 < bitWidth then codecErr (.bitWidthOutOfRange bitWidth)
    else List.map UInt32.toUInt8 <$> decodeRleDictionaryIndices body numValues

/-! ## The reader -/

/-- `DictPreservedColumn` and `DictPreservedColumnU8`. -/
structure DictPreserved (ι : Type) where
  dictBytes : Bytes
  dictOffsets : List UInt32
  indices : List ι
  deriving DecidableEq, Repr

/-- `DictPreservedColumn`: indices of 32 bits. -/
abbrev DictPreservedColumn := DictPreserved UInt32

/-- `DictPreservedColumnU8`: indices of a byte. -/
abbrev DictPreservedColumnU8 := DictPreserved UInt8

/-- What the two variants do each in their own way. -/
structure DictVariant (ι : Type) where
  name : String
  checkEntries : ℕ → Res CodecError Unit
  decodeIndices : Bytes → ℕ → Res CodecError (List ι)
  index : ι → ℕ

/-- The form with 32-bit indices, which takes every dictionary. -/
def dictVariantU32 : DictVariant UInt32 where
  name := "dict-preserved read"
  checkEntries _ := .ok ()
  decodeIndices := decodeRleDictionaryIndices
  index := UInt32.toNat

/-- At most 256 entries. -/
def dictVariantU8 : DictVariant UInt8 where
  name := "dict-preserved u8 read"
  checkEntries n :=
    if 256 < n then codecErr (.invalidInput
      s!"dict-preserved u8 read: dictionary has {n} entries (> 256); use the u32 variant")
    else .ok ()
  decodeIndices := decodeRleDictionaryIndicesU8
  index := UInt8.toNat

/-- The dictionary so far, whether there is one, and the indices. -/
structure PreservedState (ι : Type) where
  dict : OffsetsOut := { offsets := [0] }
  haveDict : Bool := false
  indices : List ι := []

variable {ι : Type}

/-- A dictionary page adds to what is there, with offsets that start at 0. -/
def PreservedState.addDictionary (v : DictVariant ι) (s : PreservedState ι) (decomp : Bytes) :
    Res CodecError (PreservedState ι) := do
  let slices ← decodePlainByteArray decomp
  v.checkEntries slices.length
  let flat ← slices.foldlM (pushFlat "dict bytes exceed u32::MAX") (s.dict, 0)
  pure { s with dict := flat.1, haveDict := true }

/-- The indices of a data page, each of which must have an entry. -/
def PreservedState.addIndices (v : DictVariant ι) (s : PreservedState ι) (info : DataPageInfo) :
    Res CodecError (PreservedState ι) :=
  match info.encoding with
  | .rleDictionary | .plainDictionary => do
    let new ← v.decodeIndices info.values info.numValues
    let dictLen := s.dict.offsets.length - 1
    match new.find? fun i => dictLen ≤ v.index i with
    | some bad => codecErr (.invalidInput
        s!"dictionary index {v.index bad} out of range (dict_len = {dictLen})")
    | none => pure { s with indices := s.indices ++ new }
  | .plain => codecErr (.invalidInput
      s!"{v.name}: data page is PLAIN-encoded (writer fell back from dict — chunk cannot be expressed as one dict + indices)")
  | other => codecErr (.unsupported
      s!"{v.name}: data page encoding not supported: {other.debug}")

section
variable [Platform]

/-- What one page does to the state. -/
def preservedPage (v : DictVariant ι) (chunk : RawChunk) (s : PreservedState ι) (page : Page) :
    Res CodecError (PreservedState ι) :=
  match page.1.pageType with
  | .dictionaryPage => do
    let size ← pageUncompressedSize page.1
    let decomp ← decompressInto chunk.codec page.2 size
    s.addDictionary v decomp
  | .dataPage | .dataPageV2 =>
    if s.haveDict then do
      let info ← dataPageView page chunk
      s.addIndices v info
    else codecErr (.invalidInput
      s!"{v.name}: data page before dictionary (column has no DictionaryPage)")
  | .indexPage => .ok s

/-- The body of the loop; past the last row it ends. -/
def preservedStep (v : DictVariant ι) (chunk : RawChunk) (s : PreservedState ι) (page : Page) :
    Res CodecError (PreservedState ι ⊕ PreservedState ι) := do
  let s ← preservedPage v chunk s page
  pure (if chunk.totalValues ≤ s.indices.length then .inr s else .inl s)

/-- The dictionary and the indices of a chunk, in the form of a variant. -/
def readDictPreserved (v : DictVariant ι) (file : ParquetFile) (rowGroup column : ℕ) :
    Res CodecError (DictPreserved ι) := do
  let chunk ← readChunkRaw file rowGroup column
  let s ← walkPages ioToCodec (preservedStep v chunk) {} chunk.bytes
  if s.haveDict then
    pure { dictBytes := s.dict.bytes, dictOffsets := s.dict.offsets, indices := s.indices }
  else codecErr (.invalidInput s!"{v.name}: column chunk has no DictionaryPage")

/-- `read_column_byte_array_dict_preserved`. -/
def readColumnByteArrayDictPreserved :
    ParquetFile → ℕ → ℕ → Res CodecError DictPreservedColumn :=
  readDictPreserved dictVariantU32

/-- `read_column_byte_array_dict_preserved_u8`. -/
def readColumnByteArrayDictPreservedU8 :
    ParquetFile → ℕ → ℕ → Res CodecError DictPreservedColumnU8 :=
  readDictPreserved dictVariantU8

end

/-! ## Narrow indices are exact -/

theorem rleIndex_lt {valueChunk : Bytes} (h : valueChunk.length ≤ 1) :
    (rleIndex valueChunk).toNat < 2 ^ 8 := by
  rw [rleIndex, UInt64.toNat_toUInt32, toNat_accumulateLe _ (by omega)]
  refine lt_of_le_of_lt (Nat.mod_le _ _) ((leNat_lt _).trans_le ?_)
  exact Nat.pow_le_pow_right (by decide) h

/-- The indices of a page of at most eight bits fit in a byte. -/
theorem decodeRleDictionaryIndices_lt {bitWidth : UInt8} {bytes : Bytes} {n : ℕ}
    {indices : List UInt32} (hbw : bitWidth ≤ 8)
    (h : decodeRleDictionaryIndices (bitWidth :: bytes) n = .ok indices) :
    ∀ v ∈ indices, v.toNat < 2 ^ 8 := by
  have hbw8 : bitWidth.toNat ≤ 8 := UInt8.le_iff_toNat_le.mp hbw
  have hle : bitWidth ≤ 32 := UInt8.le_trans hbw (by decide)
  rw [decodeRleDictionaryIndices, if_neg (UInt8.not_lt.mpr hle)] at h
  by_cases hzero : n = 0
  · rw [if_pos hzero] at h
    cases h
    simp
  rw [if_neg hzero] at h
  by_cases hbw0 : bitWidth = 0
  · rw [if_pos hbw0] at h
    cases h
    intro v hv
    rw [List.eq_of_mem_replicate hv]
    decide
  rw [if_neg hbw0] at h
  have hself : List.Forall₂ (fun v w : UInt32 => v = w ∧ v.toNat < 2 ^ 8) indices indices := by
    refine hybridDecode_related (fun hvs hws => ?_) (fun hlen hvs hws => ?_) h h
    · obtain rfl := Except.ok.inj (hvs.symm.trans hws)
      refine List.forall₂_same.mpr fun v hv => ⟨rfl, ?_⟩
      refine (unpackIndices_lt hle hbw0 hvs v hv).trans_le ?_
      rw [requiredMask_eq]
      exact Nat.pow_le_pow_right (by decide) hbw8
    · cases hvs
      cases hws
      refine List.forall₂_same.mpr fun v hv => ⟨rfl, ?_⟩
      rw [List.eq_of_mem_replicate hv]
      exact rleIndex_lt (hlen.trans_le (by rw [divCeil]; omega))
  exact fun v hv => (List.forall₂_same.mp hself v hv).2

/-! ## The turns of the loop -/

/-- The indices that are appended have entries. -/
theorem addIndices_eq_ok {v : DictVariant ι} {s s' : PreservedState ι} {info : DataPageInfo} :
    s.addIndices v info = .ok s' ↔
      (info.encoding = .rleDictionary ∨ info.encoding = .plainDictionary) ∧
        ∃ new, v.decodeIndices info.values info.numValues = .ok new ∧
          (∀ i ∈ new, v.index i < s.dict.offsets.length - 1) ∧
          s' = { s with indices := s.indices ++ new } := by
  have hindices : (do
      let new ← v.decodeIndices info.values info.numValues
      let dictLen := s.dict.offsets.length - 1
      match new.find? fun i => dictLen ≤ v.index i with
      | some bad => codecErr (.invalidInput
          s!"dictionary index {v.index bad} out of range (dict_len = {dictLen})")
      | none => pure { s with indices := s.indices ++ new }) = .ok s' ↔
      ∃ new, v.decodeIndices info.values info.numValues = .ok new ∧
        (∀ i ∈ new, v.index i < s.dict.offsets.length - 1) ∧
        s' = { s with indices := s.indices ++ new } := by
    rw [bind_eq_ok]
    refine exists_congr fun new => and_congr_right fun _ => ?_
    dsimp only
    cases hbad : new.find? fun i => s.dict.offsets.length - 1 ≤ v.index i with
    | some bad =>
      refine iff_of_false (by simp [codecErr]) fun h => ?_
      have hmem := List.mem_of_find?_eq_some hbad
      have hle := List.find?_some hbad
      exact absurd (of_decide_eq_true hle) (Nat.not_le.mpr (h.1 bad hmem))
    | none =>
      have hall : ∀ i ∈ new, v.index i < s.dict.offsets.length - 1 := fun i hi =>
        Nat.not_le.mp (by simpa using List.find?_eq_none.mp hbad i hi)
      exact ⟨fun h => ⟨hall, (Except.ok.inj h).symm⟩, fun h => congrArg Except.ok h.2.symm⟩
  unfold PreservedState.addIndices
  cases info.encoding with
  | rleDictionary | plainDictionary => exact hindices.trans (by simp)
  | _ => simp [codecErr]

variable [Platform]

/-- What a page can do to the state. -/
inductive PreservedTurn (v : DictVariant ι) (chunk : RawChunk) (s : PreservedState ι) (page : Page) :
    PreservedState ι → Prop
  | dictionary (htype : page.1.pageType = .dictionaryPage) (slices : List Bytes)
    (hslices : dictionaryPage decodePlainByteArray page chunk = .ok slices)
    (hcheck : v.checkEntries slices.length = .ok ()) (flat : OffsetsOut × UInt32)
    (hflat : slices.foldlM (pushFlat "dict bytes exceed u32::MAX") (s.dict, 0) = .ok flat) :
    PreservedTurn v chunk s page { s with dict := flat.1, haveDict := true }
  | data (htype : page.1.pageType.IsData) (hdict : s.haveDict = true) (info : DataPageInfo)
    (hinfo : dataPageView page chunk = .ok info)
    (hencoding : info.encoding = .rleDictionary ∨ info.encoding = .plainDictionary)
    (new : List ι) (hnew : v.decodeIndices info.values info.numValues = .ok new)
    (hlt : ∀ i ∈ new, v.index i < s.dict.offsets.length - 1) :
    PreservedTurn v chunk s page { s with indices := s.indices ++ new }
  | index (htype : page.1.pageType = .indexPage) : PreservedTurn v chunk s page s

/-- A data page, in a reader that has its dictionary. -/
theorem preservedData_eq_ok {v : DictVariant ι} {chunk : RawChunk} {s s' : PreservedState ι}
    {page : Page} (htype : page.1.pageType.IsData) : (if s.haveDict then do
        let info ← dataPageView page chunk
        s.addIndices v info
      else codecErr (.invalidInput
        s!"{v.name}: data page before dictionary (column has no DictionaryPage)")) = .ok s' ↔
      PreservedTurn v chunk s page s' := by
  constructor
  · intro h
    split at h
    · next hdict =>
      obtain ⟨info, hinfo, h⟩ := bind_eq_ok.mp h
      obtain ⟨hencoding, new, hnew, hlt, rfl⟩ := addIndices_eq_ok.mp h
      exact .data htype hdict info hinfo hencoding new hnew hlt
    · cases h
  · intro h
    cases h with
    | dictionary htype' => exact absurd htype' htype.ne_dictionary
    | data _ hdict info hinfo hencoding new hnew hlt =>
      rw [if_pos hdict]
      exact bind_eq_ok.mpr ⟨info, hinfo, addIndices_eq_ok.mpr ⟨hencoding, new, hnew, hlt, rfl⟩⟩
    | index htype' => exact absurd htype' htype.ne_index

theorem preservedPage_eq_ok {v : DictVariant ι} {chunk : RawChunk} {s s' : PreservedState ι}
    {page : Page} : preservedPage v chunk s page = .ok s' ↔ PreservedTurn v chunk s page s' := by
  rw [preservedPage.eq_def]
  cases htype : page.1.pageType with
  | dictionaryPage =>
    dsimp only
    constructor
    · intro h
      obtain ⟨size, hsize, h⟩ := bind_eq_ok.mp h
      obtain ⟨decomp, hdecomp, h⟩ := bind_eq_ok.mp h
      obtain ⟨slices, hslices, h⟩ := bind_eq_ok.mp h
      obtain ⟨⟨⟩, hcheck, h⟩ := bind_eq_ok.mp h
      obtain ⟨flat, hflat, h⟩ := bind_eq_ok.mp h
      cases h
      refine .dictionary htype slices ?_ hcheck flat hflat
      exact bind_eq_ok.mpr ⟨size, hsize, bind_eq_ok.mpr ⟨decomp, hdecomp, hslices⟩⟩
    · intro h
      cases h with
      | dictionary _ slices hslices hcheck flat hflat =>
        obtain ⟨size, hsize, hslices⟩ := bind_eq_ok.mp hslices
        obtain ⟨decomp, hdecomp, hslices⟩ := bind_eq_ok.mp hslices
        refine bind_eq_ok.mpr ⟨size, hsize, bind_eq_ok.mpr ⟨decomp, hdecomp, ?_⟩⟩
        exact bind_eq_ok.mpr ⟨slices, hslices, bind_eq_ok.mpr ⟨(), hcheck,
          bind_eq_ok.mpr ⟨flat, hflat, rfl⟩⟩⟩
      | data htype' => exact absurd htype htype'.ne_dictionary
      | index htype' => cases htype.symm.trans htype'
  | dataPage => exact preservedData_eq_ok (.inl htype)
  | dataPageV2 => exact preservedData_eq_ok (.inr htype)
  | indexPage =>
    dsimp only
    constructor
    · intro h
      cases h
      exact .index htype
    · intro h
      cases h with
      | dictionary htype' => cases htype.symm.trans htype'
      | data htype' => exact absurd htype htype'.ne_index
      | index => rfl

/-! ## The narrow variant -/

/-- The same state with its indices widened. -/
def PreservedState.widen (s : PreservedState UInt8) : PreservedState UInt32 :=
  { s with indices := s.indices.map UInt8.toUInt32 }

/-- The same column with its indices widened. -/
def DictPreserved.widen (col : DictPreservedColumnU8) : DictPreservedColumn :=
  { col with indices := col.indices.map UInt8.toUInt32 }

omit [Platform] in
/-- Narrowing loses nothing. -/
theorem decodeRleDictionaryIndicesU8_widen {body : Bytes} {n : ℕ} {new : List UInt8}
    (h : decodeRleDictionaryIndicesU8 body n = .ok new) :
    decodeRleDictionaryIndices body n = .ok (new.map UInt8.toUInt32) := by
  cases body with
  | nil => cases h
  | cons bitWidth bytes =>
    rw [decodeRleDictionaryIndicesU8.eq_def] at h
    dsimp only at h
    split at h
    · cases h
    next hbw =>
    obtain ⟨wide, hwide, rfl⟩ := map_eq_ok.mp h
    have hlt := decodeRleDictionaryIndices_lt (UInt8.not_lt.mp hbw) hwide
    have hexact : (wide.map UInt32.toUInt8).map UInt8.toUInt32 = wide := by
      rw [List.map_map]
      refine (List.map_congr_left fun v hv => ?_).trans (List.map_id wide)
      refine UInt32.toNat_inj.mp ?_
      rw [Function.comp_apply, UInt8.toNat_toUInt32, UInt32.toNat_toUInt8,
        Nat.mod_eq_of_lt (hlt v hv), id]
    rw [hwide, hexact]

/-- A page that the narrow variant accepts does the same in the wide one. -/
theorem preservedTurn_widen {chunk : RawChunk} {s s' : PreservedState UInt8} {page : Page}
    (h : PreservedTurn dictVariantU8 chunk s page s') :
    PreservedTurn dictVariantU32 chunk s.widen page s'.widen := by
  cases h with
  | dictionary htype slices hslices _ flat hflat =>
    exact .dictionary htype slices hslices rfl flat hflat
  | data htype hdict info hinfo hencoding new hnew hlt =>
    have hwide : ({ s with indices := s.indices ++ new } : PreservedState UInt8).widen
        = { s.widen with indices := s.widen.indices ++ new.map UInt8.toUInt32 } := by
      simp [PreservedState.widen]
    have hindices : dictVariantU32.decodeIndices info.values info.numValues
        = .ok (new.map UInt8.toUInt32) := decodeRleDictionaryIndicesU8_widen hnew
    rw [hwide]
    refine PreservedTurn.data (v := dictVariantU32) htype hdict info hinfo hencoding _ hindices
      fun i hi => ?_
    obtain ⟨j, hj, rfl⟩ := List.mem_map.mp hi
    exact (UInt8.toNat_toUInt32 j).trans_lt (hlt j hj)
  | index htype => exact .index htype

theorem preservedStep_widen {chunk : RawChunk} {s : PreservedState UInt8} {page : Page}
    {r : PreservedState UInt8 ⊕ PreservedState UInt8}
    (h : preservedStep dictVariantU8 chunk s page = .ok r) :
    preservedStep dictVariantU32 chunk s.widen page
      = .ok (r.map PreservedState.widen PreservedState.widen) := by
  obtain ⟨s', hpage, h⟩ := bind_eq_ok.mp h
  cases h
  refine bind_eq_ok.mpr ⟨s'.widen,
    preservedPage_eq_ok.mpr (preservedTurn_widen (preservedPage_eq_ok.mp hpage)), ?_⟩
  have hlen : s'.widen.indices.length = s'.indices.length := List.length_map _
  rw [hlen]
  split <;> rfl

/-- **The narrow variant** returns what the wide one does. -/
theorem dictPreserved_u8 {file : ParquetFile} {rowGroup column : ℕ} {col : DictPreservedColumnU8}
    (h : readColumnByteArrayDictPreservedU8 file rowGroup column = .ok col) :
    readColumnByteArrayDictPreserved file rowGroup column = .ok col.widen := by
  obtain ⟨chunk, hchunk, h⟩ := bind_eq_ok.mp h
  obtain ⟨s, hs, h⟩ := bind_eq_ok.mp h
  obtain ⟨t, ht, rfl⟩ := @walkPages_simulates _ _ (preservedStep dictVariantU8 chunk)
    (preservedStep dictVariantU32 chunk) (fun s t _ => t = s.widen) (fun s t => t = s.widen)
    (fun h _ => h)
    (fun {s t bs page rest r} hst _ hpage => by
      subst hst
      refine ⟨_, preservedStep_widen hpage, ?_⟩
      cases r with
      | inl s' => exact .inl rfl
      | inr s' => exact .inr rfl) ioToCodec _ _ _ _ rfl hs
  refine bind_eq_ok.mpr ⟨chunk, hchunk, bind_eq_ok.mpr ⟨_, ht, ?_⟩⟩
  by_cases hdict : s.haveDict = true
  · rw [if_pos hdict] at h
    cases h
    exact if_pos hdict
  · rw [if_neg hdict] at h
    cases h

/-! ## The dictionary and the indices -/

/-- The state stands for that of the owned reader, after the dictionary page. -/
structure PreservedState.Reads (s : PreservedState UInt32) (t : DecodeState Bytes) : Prop where
  haveDict : s.haveDict = true
  dict : s.dict = .flat t.dict
  fits : t.dict.flatten.length < 2 ^ 32
  entries : t.dict ≠ []
  rows : List.Forall₂ (EntryOf t.dict) s.indices t.out

/-- A dictionary page with entries, for both readers. -/
theorem reads_dictionary {chunk : RawChunk} {page : Page} {slices : List Bytes}
    {flat : OffsetsOut × UInt32} (hslices : dictionaryPage decodePlainByteArray page chunk = .ok slices)
    (hne : slices ≠ [])
    (hflat : slices.foldlM (pushFlat "dict bytes exceed u32::MAX") ({ offsets := [0] }, 0)
      = .ok flat) :
    PreservedState.Reads { dict := flat.1, haveDict := true } { dict := slices } := by
  obtain ⟨size, -, h⟩ := bind_eq_ok.mp hslices
  obtain ⟨decomp, -, hdecode⟩ := bind_eq_ok.mp h
  have hpush := @foldlM_pushFlat "dict bytes exceed u32::MAX" [] slices (by decide)
    (decodePlainByteArray_mem_lt hdecode)
  have hstart : ((.flat [], UInt32.ofNat ([] : List Bytes).flatten.length) : OffsetsOut × UInt32)
      = ({ offsets := [0] }, 0) := rfl
  rw [hstart, hflat, List.nil_append] at hpush
  by_cases hlt : slices.flatten.length < 2 ^ 32
  · rw [if_pos hlt] at hpush
    obtain rfl := Except.ok.inj hpush
    exact ⟨rfl, rfl, hlt, hne, .nil⟩
  · rw [if_neg hlt] at hpush
    cases hpush

/-- A data page of indices, for both readers. -/
theorem PreservedState.Reads.data {chunk : RawChunk} {s : PreservedState UInt32}
    {t : DecodeState Bytes} (h : s.Reads t) {page : Page} {info : DataPageInfo} {new : List UInt32}
    (htype : page.1.pageType.IsData) (hinfo : dataPageView page chunk = .ok info)
    (hencoding : info.encoding = .rleDictionary ∨ info.encoding = .plainDictionary)
    (hnew : decodeRleDictionaryIndices info.values info.numValues = .ok new)
    (hlt : ∀ i ∈ new, i.toNat < s.dict.offsets.length - 1) :
    ∃ t', decodePage byteArrayDecoder chunk t page = .ok t' ∧
      PreservedState.Reads { s with indices := s.indices ++ new } t' := by
  have hin : ∀ i ∈ new, i.toNat < t.dict.length := fun i hi => by
    have := hlt i hi
    rw [h.dict, length_flat_offsets] at this
    omega
  have hentries : ∀ i ∈ new, ∃ v : Bytes, okOr t.dict[i.toNat]?
      (.invalidInput "dictionary index out of range") = .ok v := fun i hi =>
    ⟨_, by rw [List.getElem?_eq_getElem (hin i hi), okOr_some]⟩
  obtain ⟨vs, hvs⟩ := exists_mapM hentries
  have hvalues : decodeValues byteArrayDecoder t.dict info = .ok vs := by
    have hdict : (if t.dict = [] then
          codecErr (.invalidInput "dict-encoded data page before dictionary")
        else byteArrayDecoder.dict t.dict info.numValues info.values) = .ok vs := by
      rw [if_neg h.entries]
      exact bind_eq_ok.mpr ⟨new, hnew, hvs⟩
    unfold decodeValues
    rcases hencoding with he | he
    · rw [he]
      exact hdict
    · rw [he]
      exact hdict
  have hpage : (do
      let info ← dataPageView page chunk
      let vs ← decodeValues byteArrayDecoder t.dict info
      pure { t with out := t.out ++ vs }) = .ok { t with out := t.out ++ vs } :=
    bind_eq_ok.mpr ⟨info, hinfo, bind_eq_ok.mpr ⟨vs, hvalues, rfl⟩⟩
  refine ⟨{ t with out := t.out ++ vs }, ?_, h.haveDict, h.dict, h.fits, h.entries, ?_⟩
  · rw [decodePage.eq_def]
    rcases htype with htype | htype
    · rw [htype]
      exact hpage
    · rw [htype]
      exact hpage
  · exact List.rel_append h.rows ((mapM_eq_ok.mp hvs).imp fun _ _ hv => okOr_eq_ok.mp hv)

/-- How many of the pages are dictionary pages. -/
def dictionaryPages (pages : List Page) : ℕ :=
  (pages.filter fun page => page.1.pageType = .dictionaryPage).length

/-- The dictionary page, if it is one, has entries. -/
def HasEntries (chunk : RawChunk) (page : Page) : Prop :=
  page.1.pageType = .dictionaryPage → dictionaryPage decodePlainByteArray page chunk ≠ .ok []

/-- The two readers before and after the dictionary page. -/
inductive Follows (pages : List Page) (s : PreservedState UInt32) (t : DecodeState Bytes) : Prop
  | before (hs : s = {}) (ht : t = {}) (hone : dictionaryPages pages ≤ 1)
  | after (hreads : s.Reads t) (hnone : dictionaryPages pages = 0)

omit [Platform] in
theorem Follows.length {pages : List Page} {s : PreservedState UInt32} {t : DecodeState Bytes}
    (h : Follows pages s t) : s.indices.length = t.out.length := by
  cases h with
  | before hs ht =>
    subst hs ht
    rfl
  | after hreads => exact hreads.rows.length_eq

/-- A page that is accepted is decoded. -/
theorem Follows.turn {chunk : RawChunk} {page : Page} {pages : List Page}
    {s s' : PreservedState UInt32} {t : DecodeState Bytes} (h : Follows (page :: pages) s t)
    (hentries : HasEntries chunk page) (hturn : PreservedTurn dictVariantU32 chunk s page s') :
    ∃ t', decodePage byteArrayDecoder chunk t page = .ok t' ∧ Follows pages s' t' := by
  cases hturn with
  | dictionary htype slices hslices _ flat hflat =>
    have hcount : dictionaryPages (page :: pages) = dictionaryPages pages + 1 := by
      simp [dictionaryPages, htype]
    cases h with
    | before hs ht hone =>
      subst hs ht
      have hne : slices ≠ [] := by
        rintro rfl
        exact hentries htype hslices
      refine ⟨{ dict := slices }, ?_, .after (reads_dictionary hslices hne hflat) (by omega)⟩
      rw [decodePage.eq_def, htype]
      exact bind_eq_ok.mpr ⟨slices, hslices, rfl⟩
    | after _ hnone => omega
  | data htype hdict info hinfo hencoding new hnew hlt =>
    cases h with
    | before hs =>
      subst hs
      cases hdict
    | after hreads hnone =>
      obtain ⟨t', ht', hreads'⟩ := hreads.data htype hinfo hencoding hnew hlt
      refine ⟨t', ht', .after hreads' ?_⟩
      simpa [dictionaryPages, htype.ne_dictionary] using hnone
  | index htype =>
    refine ⟨t, by rw [decodePage.eq_def, htype], ?_⟩
    have hcount : dictionaryPages (page :: pages) = dictionaryPages pages := by
      simp [dictionaryPages, htype]
    cases h with
    | before hs ht hone => exact .before hs ht (hcount ▸ hone)
    | after hreads hnone => exact .after hreads (hcount ▸ hnone)

/-- **The owned reader follows** the dictionary-preserving one. -/
theorem preservedPages_simulates {chunk : RawChunk} {pages : List Page}
    {s : PreservedState UInt32} (hpages : PagesOf chunk.bytes pages)
    (hone : dictionaryPages pages ≤ 1) (hentries : ∀ page ∈ pages, HasEntries chunk page)
    (h : walkPages ioToCodec (preservedStep dictVariantU32 chunk) {} chunk.bytes = .ok s)
    (hdict : s.haveDict = true) :
    ∃ t, walkPages ioToCodec (decodeStep byteArrayDecoder chunk) {} chunk.bytes = .ok t ∧
      s.Reads t := by
  rw [walkPages_eq hpages] at h ⊢
  have hstart : Follows pages {} {} := .before rfl rfl hone
  clear hpages hone
  generalize hs₀ : ({} : PreservedState UInt32) = s₀ at h hstart
  generalize ht₀ : ({} : DecodeState Bytes) = t₀ at hstart ⊢
  clear hs₀ ht₀
  induction pages generalizing s₀ t₀ with
  | nil =>
    obtain rfl := Except.ok.inj h
    refine ⟨t₀, rfl, ?_⟩
    cases hstart with
    | before hs =>
      subst hs
      cases hdict
    | after hreads => exact hreads
  | cons page pages ih =>
    rw [foldPages] at h ⊢
    cases hstep : preservedStep dictVariantU32 chunk s₀ page with
    | error e => simp [hstep] at h
    | ok r =>
      rw [hstep] at h
      obtain ⟨s', hpage, hr⟩ := bind_eq_ok.mp hstep
      obtain ⟨t', ht', hfollows⟩ := hstart.turn (hentries page List.mem_cons_self)
        (preservedPage_eq_ok.mp hpage)
      have hdecode : decodeStep byteArrayDecoder chunk t₀ page
          = .ok (if chunk.totalValues ≤ t'.out.length then .inr t' else .inl t') :=
        bind_eq_ok.mpr ⟨t', ht', rfl⟩
      obtain rfl := Except.ok.inj hr
      rw [hdecode]
      rw [hfollows.length] at h
      by_cases hdone : chunk.totalValues ≤ t'.out.length
      · rw [if_pos hdone] at h ⊢
        obtain rfl := Except.ok.inj h
        refine ⟨t', rfl, ?_⟩
        cases hfollows with
        | before hs =>
          subst hs
          cases hdict
        | after hreads => exact hreads
      · rw [if_neg hdone] at h ⊢
        exact ih (fun p hp => hentries p (List.mem_cons_of_mem _ hp)) _ h _ hfollows

/-- The dictionary has the entries, and the rows are the entries at the
    indices. -/
structure DictPreserved.Represents (col : DictPreservedColumn) (entries rows : List Bytes) :
    Prop where
  dictionary : OffsetsOut.Agrees ⟨col.dictBytes, col.dictOffsets⟩ entries
  inRange : ∀ i ∈ col.indices, i.toNat < entries.length
  rows : List.Forall₂ (EntryOf entries) col.indices rows

/-- A chunk with one dictionary page, which is not empty. -/
structure OneDictionary (chunk : RawChunk) (pages : List Page) : Prop where
  walked : PagesOf chunk.bytes pages
  one : dictionaryPages pages = 1
  entries : ∀ page ∈ pages, HasEntries chunk page

/-- **Dictionary-preserved reads represent the column**, and the narrow variant
    returns what the wide one does. -/
theorem dictPreserved_represents {file : ParquetFile} {rowGroup column : ℕ} {chunk : RawChunk}
    {pages : List Page} (hchunk : readChunkRaw file rowGroup column = .ok chunk)
    (hpages : OneDictionary chunk pages) :
    (∀ col, readColumnByteArrayDictPreserved file rowGroup column = .ok col →
      ∃ entries values, readColumnByteArray file rowGroup column = .ok values ∧
        values.length = col.indices.length ∧ col.Represents entries values) ∧
    ∀ col, readColumnByteArrayDictPreservedU8 file rowGroup column = .ok col →
      readColumnByteArrayDictPreserved file rowGroup column = .ok col.widen := by
  refine ⟨fun col h => ?_, fun col => dictPreserved_u8⟩
  obtain ⟨chunk', hchunk', h⟩ := bind_eq_ok.mp h
  obtain rfl := Except.ok.inj (hchunk.symm.trans hchunk')
  obtain ⟨s, hs, h⟩ := bind_eq_ok.mp h
  by_cases hdict : s.haveDict = true
  · rw [if_pos hdict] at h
    obtain rfl := Except.ok.inj h
    obtain ⟨t, ht, hreads⟩ := preservedPages_simulates hpages.walked hpages.one.le hpages.entries
      hs hdict
    refine ⟨t.dict, t.out, bind_eq_ok.mpr ⟨chunk, hchunk, bind_eq_ok.mpr ⟨t, ht, rfl⟩⟩,
      hreads.rows.length_eq.symm, ?_, fun i hi => ?_, hreads.rows⟩
    · dsimp only
      rw [hreads.dict]
      exact flat_agrees_iff.mpr ⟨rfl, hreads.fits⟩
    · obtain ⟨k, hk, rfl⟩ := List.mem_iff_getElem.mp hi
      have hentry := (List.forall₂_iff_get.mp hreads.rows).2 k hk (hreads.rows.length_eq ▸ hk)
      exact (List.getElem?_eq_some_iff.mp hentry).1
  · rw [if_neg hdict] at h
    cases h

omit [Platform] in
/-- Three rows of two values, from the file of the writer, in bytes of index. -/
theorem dictPreserved_represents_written :
    ∃ col entries values, @readColumnByteArrayDictPreservedU8 Platform.stored
        (dictionaryFile (.byteArray [[0x61], [0x62, 0x63], [0x61]])) 0 0 = .ok col ∧
      @readColumnByteArray Platform.stored
        (dictionaryFile (.byteArray [[0x61], [0x62, 0x63], [0x61]])) 0 0 = .ok values ∧
      values.length = 3 ∧ col.widen.Represents entries values := by
  let _ := Platform.stored
  have hread : readColumnByteArrayDictPreservedU8
      (dictionaryFile (.byteArray [[0x61], [0x62, 0x63], [0x61]])) 0 0
        = .ok ⟨[0x61, 0x62, 0x63], [0, 1, 3], [0, 1, 0]⟩ := by decide +kernel
  have hchunk : readChunkRaw
      (dictionaryFile (.byteArray [[0x61], [0x62, 0x63], [0x61]])) 0 0
        = .ok (writtenChunk twoStrings) := by decide +kernel
  have hpages : OneDictionary (writtenChunk twoStrings) twoStrings := by
    refine ⟨pagesOf_flatMap (by decide), rfl, fun page hpage htype => ?_⟩
    rcases List.mem_pair.mp hpage with rfl | rfl
    · decide +kernel
    · cases htype
  obtain ⟨hwide, hnarrow⟩ := dictPreserved_represents hchunk hpages
  obtain ⟨entries, values, hvalues, hlen, hrep⟩ := hwide _ (hnarrow _ hread)
  exact ⟨_, entries, values, hread, hvalues, hlen, hrep⟩

end EmatixParquet
