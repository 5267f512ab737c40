/-
  Data pages of OPTIONAL columns (V1, a flat schema).

  A page holds a definition level for each row, and a value for each row that
  is not null.  The reader skips the levels.

  * `dataPageView_nullable`: what is left is the values, but the count is that
    of the rows;
  * `dict_eq_ok`: a dictionary page is asked for that many indices;
  * `appendsPresent_iff`: so it appends the values that are present exactly
    when there is no null, or when the stream cannot be read that far.
-/
import EmatixParquet.Codec.Read

namespace EmatixParquet

open Wire

variable {α : Type}

/-- The definition levels of the rows, as a stream of width 1. -/
def IsLevelStream (levels : List UInt32) (stream : Bytes) : Prop :=
  stream.length < 2 ^ 32 ∧ ∃ runs pad, stream = encodeAll 1 runs ∧
    runValues runs = levels ++ pad ∧ ∀ r ∈ runs, r.Fits 1

/-- A row whose definition level is not the maximal one is null. -/
def presentRows (levels : List UInt32) : ℕ := levels.count 1

section
variable [Platform]

/-- A V1 page of an OPTIONAL column: the definition levels of its rows, then
    its values. -/
structure NullablePage (chunk : RawChunk) (page : Page) (levels : List UInt32)
    (encoding : Encoding) (values : Bytes) : Prop where
  maxRepLevel : chunk.maxRepLevel = 0
  maxDefLevel : chunk.maxDefLevel = 1
  pageType : page.1.pageType = .dataPage
  header : ∃ dph, page.1.dataPageHeader = some dph ∧ dph.encoding = encoding ∧
    i32AsUsize dph.numValues = levels.length
  body : ∃ size stream, pageUncompressedSize page.1 = .ok size ∧ IsLevelStream levels stream ∧
    decompressInto chunk.codec page.2 size = .ok (leBytes 4 stream.length ++ (stream ++ values))

/-- The page decode, where it succeeds, appends the values `present`. -/
def AppendsPresent (dec : PageDecoder α) (chunk : RawChunk) (page : Page) (dict present : List α) :
    Prop :=
  ∀ out s, decodePage dec chunk ⟨dict, out⟩ page = .ok s → s.out = out ++ present

variable {chunk : RawChunk} {page : Page} {levels : List UInt32} {encoding : Encoding}
  {values : Bytes} {dec : PageDecoder α} {dict present : List α}

omit [Platform] in
/-- One level stream is skipped. -/
theorem skipV1LevelPrefixes_levels {stream : Bytes} (hlen : stream.length < 2 ^ 32) :
    skipV1LevelPrefixes (leBytes 4 stream.length ++ (stream ++ values)) 0 1
      = .ok (4 + stream.length) := by
  have hrep : bitWidthFor 0 = 0 := rfl
  have hdef : bitWidthFor 1 = 1 := rfl
  have hprefixLen : leNat (((leBytes 4 stream.length ++ (stream ++ values)).drop 0).take 4)
      = stream.length := by
    rw [List.drop_zero, List.take_left' (length_leBytes 4 _), leNat_leBytes,
      Nat.mod_eq_of_lt (by omega)]
  have htotal : (leBytes 4 stream.length ++ (stream ++ values)).length
      = 4 + stream.length + values.length := by
    simp only [List.length_append, length_leBytes]
    omega
  have hskip : skipLevelPrefix (leBytes 4 stream.length ++ (stream ++ values)) 0 0 = .ok 0 := rfl
  rw [skipV1LevelPrefixes, hrep, hdef]
  refine bind_eq_ok.mpr ⟨0, hskip, ?_⟩
  rw [skipLevelPrefix, if_neg (by decide), if_neg (by omega)]
  dsimp only
  rw [hprefixLen, if_neg (by omega), Nat.zero_add]

/-- **The view of the page**: the values, and the count of the rows. -/
theorem dataPageView_nullable (h : NullablePage chunk page levels encoding values) :
    dataPageView page chunk = .ok { numValues := levels.length, encoding, values } := by
  obtain ⟨dph, hdph, rfl, hcount⟩ := h.header
  obtain ⟨size, stream, hsize, ⟨hlen, -⟩, hbody⟩ := h.body
  have hvalues : valuesAfterLevels (leBytes 4 stream.length ++ (stream ++ values)) chunk
      = .ok values := by
    rw [valuesAfterLevels, h.maxRepLevel, h.maxDefLevel, if_neg (by decide),
      skipV1LevelPrefixes_levels hlen]
    change Except.ok (List.drop _ _) = _
    rw [← List.append_assoc, List.drop_left' (by simp)]
  rw [dataPageView, hsize, ok_bind, hdph]
  dsimp only
  rw [dataPageViewV1, hbody]
  change (valuesAfterLevels _ chunk >>= _) = _
  rw [hvalues, hcount]
  rfl

/-- What the page decode appends is what the values decode to. -/
theorem appendsPresent_iff_decodeValues (h : NullablePage chunk page levels encoding values) :
    AppendsPresent dec chunk page dict present ↔
      ∀ vs, decodeValues dec dict ⟨levels.length, encoding, values⟩ = .ok vs → vs = present := by
  have hpage : ∀ out, decodePage dec chunk ⟨dict, out⟩ page = (do
      let vs ← decodeValues dec dict ⟨levels.length, encoding, values⟩
      pure ⟨dict, out ++ vs⟩) := by
    intro out
    rw [decodePage, h.pageType]
    dsimp only
    rw [dataPageView_nullable h]
    rfl
  constructor
  · intro happ vs hvs
    have hs := happ [] ⟨dict, vs⟩ (by rw [hpage, hvs]; rfl)
    exact hs
  · intro hvalues out s hs
    rw [hpage] at hs
    obtain ⟨vs, hvs, hs⟩ := bind_eq_ok.mp hs
    cases hs
    rw [hvalues vs hvs]

/-- PLAIN pages append what is there. -/
theorem appendsPresent_plain (h : NullablePage chunk page levels .plain values)
    (hplain : dec.plain values = .ok present) : AppendsPresent dec chunk page dict present := by
  rw [appendsPresent_iff_decodeValues h]
  intro vs hvs
  exact Except.ok.inj (hvs.symm.trans hplain)

end

/-! ## Dictionary pages -/

/-- Indices as a page body: any runs of them, padded. -/
structure IndexStream (indices : List UInt32) (bitWidth : UInt8) (bytes : Bytes) (runs : List Run) :
    Prop where
  le : bitWidth ≤ 32
  lt : ∀ v ∈ indices, v.toNat < 2 ^ bitWidth.toNat
  bytes : bitWidth ≠ 0 → bytes = encodeAll bitWidth.toNat runs ∧ ∀ r ∈ runs, r.Fits bitWidth.toNat
  values : bitWidth ≠ 0 → ∃ pad, runValues runs = indices ++ pad

/-- The decoder looks up as many indices as it is asked for. -/
def ReadsStreams (dec : PageDecoder α) : Prop :=
  ∀ {indices bitWidth bytes runs dict n vs}, IndexStream indices bitWidth bytes runs →
    (dec.dict dict n (bitWidth :: bytes) = .ok vs ↔
      Readable bitWidth runs dict.length n ∧ entries dict (streamIndices bitWidth runs n) = vs)

theorem readsStreams_fixed [FixedWidth α] : ReadsStreams (fixedDecoder (α := α)) :=
  fun h => decodeRleDictionary_eq_ok h.le h.bytes

theorem readsStreams_byteArray : ReadsStreams byteArrayDecoder := by
  intro indices bitWidth bytes runs dict n vs h
  change (decodeRleDictionaryIndices (bitWidth :: bytes) n >>= _) = _ ↔ _
  rw [bind_eq_ok, Readable, and_assoc]
  have hlookup : ∀ is : List UInt32, (is.mapM fun idx =>
      okOr dict[idx.toNat]? (.invalidInput "dictionary index out of range")) = .ok vs ↔
        (∀ v ∈ is, v.toNat < dict.length) ∧ entries dict is = vs := by
    intro is
    rw [mapM_eq_ok, ← forall₂_entries]
    simp only [okOr_eq_ok]
  constructor
  · rintro ⟨is, his, hvs⟩
    obtain ⟨hlen, rfl⟩ := (decodeRleDictionaryIndices_eq_ok h.le h.bytes).mp his
    exact ⟨hlen, (hlookup _).mp hvs⟩
  · rintro ⟨hlen, hvs⟩
    exact ⟨_, (decodeRleDictionaryIndices_eq_ok h.le h.bytes).mpr ⟨hlen, rfl⟩, (hlookup _).mpr hvs⟩

/-- The first indices of the stream are the ones it was written for. -/
theorem IndexStream.streamIndices_length {indices : List UInt32} {bitWidth : UInt8}
    {bytes : Bytes} {runs : List Run} (h : IndexStream indices bitWidth bytes runs) :
    streamIndices bitWidth runs indices.length = indices := by
  by_cases hbw0 : bitWidth = 0
  · subst hbw0
    rw [streamIndices, if_pos rfl]
    exact (eq_replicate_zero h.lt).symm
  · obtain ⟨pad, hpad⟩ := h.values hbw0
    rw [streamIndices, if_neg hbw0, hpad, List.take_left]

section
variable [Platform] {chunk : RawChunk} {page : Page} {levels : List UInt32} {encoding : Encoding}
  {dec : PageDecoder α} {dict present : List α} {indices : List UInt32} {bitWidth : UInt8}
  {bytes : Bytes} {runs : List Run}

/-- A page of indices into `dict`, one for each row that is present. -/
structure DictPage (chunk : RawChunk) (page : Page) (levels : List UInt32) (dict present : List α)
    (bitWidth : UInt8) (runs : List Run) : Prop where
  stream : ∃ encoding indices bytes, NullablePage chunk page levels encoding (bitWidth :: bytes) ∧
    (encoding = .rleDictionary ∨ encoding = .plainDictionary) ∧
    IndexStream indices bitWidth bytes runs ∧ indices.length = presentRows levels ∧
    List.Forall₂ (fun idx v => dict[idx.toNat]? = some v) indices present

/-- **Dictionary pages** append what is there when no row is null, or when the
    decode fails: the stream, padding included, is too short, or leads out of
    the dictionary. -/
theorem appendsPresent_dict (hdec : ReadsStreams dec)
    (h : DictPage chunk page levels dict present bitWidth runs) :
    AppendsPresent dec chunk page dict present ↔
      presentRows levels = levels.length ∨ ¬ Readable bitWidth runs dict.length levels.length := by
  obtain ⟨encoding, indices, bytes, hpage, hencoding, hstream, hcount, hpresent⟩ := h.stream
  obtain ⟨-, hentries⟩ := forall₂_entries.mp hpresent
  have hvalues : decodeValues dec dict ⟨levels.length, encoding, bitWidth :: bytes⟩
      = if dict = [] then codecErr (.invalidInput "dict-encoded data page before dictionary")
        else dec.dict dict levels.length (bitWidth :: bytes) := by
    rcases hencoding with rfl | rfl <;> rfl
  rw [appendsPresent_iff_decodeValues hpage, hvalues]
  constructor
  · intro happ
    by_cases hread : Readable bitWidth runs dict.length levels.length
    · left
      by_cases hdict : dict = []
      · -- no index is below 0, so there is no row
        subst hdict
        have hnone := length_entries hread.2
        rw [hread.1, entries] at hnone
        have hle : presentRows levels ≤ levels.length := List.count_le_length
        simp only [List.getElem?_nil, List.filterMap_none, List.length_nil] at hnone
        omega
      · rw [if_neg hdict] at happ
        have hall := happ _ ((hdec hstream).mpr ⟨hread, rfl⟩)
        have hlen := length_entries hread.2
        rw [hall, hread.1, ← hpresent.length_eq, hcount] at hlen
        exact hlen
    · exact .inr hread
  · intro hcond vs hvs
    by_cases hdict : dict = []
    · rw [if_pos hdict] at hvs
      cases hvs
    · rw [if_neg hdict] at hvs
      obtain ⟨hread, rfl⟩ := (hdec hstream).mp hvs
      rcases hcond with hall | hnot
      · rw [← hall, ← hcount, hstream.streamIndices_length, hentries]
      · exact absurd hread hnot

/-- **Nullable V1 pages**: PLAIN pages always append one value for each row
    that is present; dictionary pages exactly when there is no null, or when
    they fail. -/
theorem appendsPresent_iff [FixedWidth α] :
    (∀ present : List α, NullablePage chunk page levels .plain (encodePlainFixed present) →
      present.length = presentRows levels →
        ∀ dict, AppendsPresent fixedDecoder chunk page dict present) ∧
    (∀ present, NullablePage chunk page levels .plain (encodePlainByteArray present) →
      present.length = presentRows levels → (∀ v ∈ present, v.length < 2 ^ 32) →
        ∀ dict, AppendsPresent byteArrayDecoder chunk page dict present) ∧
    (∀ dict present : List α, DictPage chunk page levels dict present bitWidth runs →
      (AppendsPresent fixedDecoder chunk page dict present ↔
        presentRows levels = levels.length ∨
          ¬ Readable bitWidth runs dict.length levels.length)) ∧
    ∀ dict present : List Bytes, DictPage chunk page levels dict present bitWidth runs →
      (AppendsPresent byteArrayDecoder chunk page dict present ↔
        presentRows levels = levels.length ∨
          ¬ Readable bitWidth runs dict.length levels.length) := by
  refine ⟨fun present h _ dict => ?_, fun present h _ hlen dict => ?_, fun dict present h => ?_,
    fun dict present h => ?_⟩
  · exact appendsPresent_plain h (decodePlainFixed_encodePlainFixed present)
  · exact appendsPresent_plain h (decodePlainByteArray_encodePlainByteArray hlen)
  · exact appendsPresent_dict readsStreams_fixed h
  · exact appendsPresent_dict readsStreams_byteArray h

end

/-! ## A page of eight rows, one of them null -/

/-- Levels of eight rows, the fourth of them null. -/
def nullLevels : List UInt32 := [1, 1, 1, 0, 1, 1, 1, 1]

/-- The indices of the seven rows that are present. -/
def nullIndices : List UInt32 := [0, 1, 0, 1, 0, 1, 0]

/-- The seven indices fill a group of eight, the last one padding. -/
def nullRuns : List Run := [.packed (nullIndices ++ [0])]

/-- The body of the indices: a width, then the runs. -/
def nullValues : Bytes := 1 :: encodeAll 1 nullRuns

/-- The body of a V1 page: the levels with their length, then the indices. -/
def nullBody : Bytes :=
  leBytes 4 (encodeAll 1 [.packed nullLevels]).length ++ (encodeAll 1 [.packed nullLevels] ++ nullValues)

/-- A page of eight rows, one of them null. -/
def nullPage : Page :=
  ({ pageType := .dataPage
     uncompressedPageSize := Int32.ofNat nullBody.length
     compressedPageSize := Int32.ofNat nullBody.length
     crc := none
     dataPageHeader := some { numValues := 8, encoding := .rleDictionary,
                              definitionLevelEncoding := .rle, repetitionLevelEncoding := .rle,
                              statistics := none }
     indexPageHeader := none
     dictionaryPageHeader := none
     dataPageHeaderV2 := none }, nullBody)

/-- The chunk of that page alone. -/
def nullChunk : RawChunk where
  bytes := writePage nullPage
  totalValues := 8
  codec := .uncompressed
  maxRepLevel := 0
  maxDefLevel := 1

theorem fits_nullRun {vs : List UInt32} (hlen : vs.length = 8) (hlt : ∀ v ∈ vs, v.toNat < 2 ^ 1) :
    ∀ r ∈ [Run.packed vs], r.Fits 1 := by
  intro r hr
  obtain rfl := List.mem_singleton.mp hr
  refine ⟨hlt, ?_, ?_, ?_⟩
  · simp [Run.values, hlen]
  · simp [Run.values, hlen]
  · rintro _ ⟨⟩
    rw [hlen]

theorem dictPage_null [Platform] : DictPage nullChunk nullPage nullLevels [(10 : Int64), 20]
    [10, 20, 10, 20, 10, 20, 10] 1 nullRuns where
  stream := by
    refine ⟨.rleDictionary, nullIndices, encodeAll 1 nullRuns, ⟨rfl, rfl, rfl, ⟨_, rfl, rfl, rfl⟩, ?_⟩,
      .inl rfl, ⟨by decide, by decide, fun _ => ⟨rfl, ?_⟩, fun _ => ⟨[0], rfl⟩⟩, rfl, ?_⟩
    · refine ⟨nullBody.length, encodeAll 1 [.packed nullLevels], by decide +kernel,
        ⟨by decide +kernel, _, [], rfl, rfl, ?_⟩, rfl⟩
      exact fits_nullRun rfl (by decide)
    · exact fits_nullRun rfl (by decide)
    · simp [nullIndices]

theorem appendsPresent_iff_null :
    @AppendsPresent Int64 Platform.stored fixedDecoder nullChunk nullPage [10, 20]
        [10, 20, 10, 20, 10, 20, 10] ↔
      presentRows nullLevels = 8 ∨ ¬ Readable 1 nullRuns 2 8 :=
  let _ := Platform.stored
  appendsPresent_iff.2.2.1 _ _ dictPage_null

/-- The padding is read as an index: eight values for seven rows. -/
theorem nullPage_appends_padding :
    @DictPage Int64 Platform.stored nullChunk nullPage nullLevels [10, 20]
        [10, 20, 10, 20, 10, 20, 10] 1 nullRuns ∧
      presentRows nullLevels = 7 ∧
      (@decodePage Int64 Platform.stored fixedDecoder nullChunk ⟨[10, 20], []⟩ nullPage).map (·.out)
        = .ok [10, 20, 10, 20, 10, 20, 10, 10] ∧
      ¬ @AppendsPresent Int64 Platform.stored fixedDecoder nullChunk nullPage [10, 20]
        [10, 20, 10, 20, 10, 20, 10] := by
  let _ := Platform.stored
  have hdecode : (decodePage fixedDecoder nullChunk ⟨[(10 : Int64), 20], []⟩ nullPage).map (·.out)
      = .ok [10, 20, 10, 20, 10, 20, 10, 10] := by decide +kernel
  refine ⟨dictPage_null, rfl, hdecode, fun h => ?_⟩
  obtain ⟨s, hs, hout⟩ := map_eq_ok.mp hdecode
  rw [h [] s hs] at hout
  revert hout
  decide

end EmatixParquet
