/-
  The columns of a written table at the rows of a mask.

  * `noEmptyRun_encodeRleBitPacked`: the writer emits no run without values;
  * `ChunkOf.dataPage`: the view of the data page of a chunk;
  * `ChunkOf.oneDataPage`: the one data page of a chunk begins at row 0;
  * `ChunkOf.filtersRead`, `ChunkOf.filtersReadBytes`: a masked read of a chunk
    returns its selected rows.
-/
import EmatixParquet.Codec.MaskedBytes
import EmatixParquet.Codec.RoundTrip

namespace EmatixParquet

open Wire

/-! ## Runs -/

section
variable {α : Type} {bw numValues : ℕ} {onPacked onRle onRle' : ℕ → Bytes → ℕ → Res CodecError (List α)}

theorem Run.handle_congr (hagree : ∀ e chunk n, n ≠ 0 → onRle e chunk n = onRle' e chunk n) (r : Run)
    {e n : ℕ} (hn : n ≠ 0) : r.handle onPacked onRle bw e n = r.handle onPacked onRle' bw e n := by
  cases r with
  | rle count v => exact hagree _ _ _ hn
  | packed vs => rfl

/-- Handlers that agree on the runs with values decode the same, by induction on
    the runs. -/
theorem hybridLoop_congr (hagree : ∀ e chunk n, n ≠ 0 → onRle e chunk n = onRle' e chunk n)
    (hbw : bw ≤ 32) {runs : List Run} (hfits : ∀ r ∈ runs, r.Fits bw) (e : ℕ) (out : List α) :
    ((hybridLoop bw numValues onPacked onRle).run (e, out)).run (encodeAll bw runs)
      = ((hybridLoop bw numValues onPacked onRle').run (e, out)).run (encodeAll bw runs) := by
  induction runs generalizing e out with
  | nil =>
    rw [Loop.run_eq, Loop.run_eq]
    by_cases he : e < numValues
    · simp only [hybridLoop, if_pos he]
      rfl
    · simp only [hybridLoop, if_neg he]
      rfl
  | cons r runs ih =>
    have hr := hfits r List.mem_cons_self
    rw [encodeAll, List.flatMap_cons, Loop.run_eq, Loop.run_eq]
    by_cases he : e < numValues
    · have hn : min (numValues - e) r.values.length ≠ 0 := by
        have hpos := hr.pos
        omega
      rw [hybridLoop_step_eq hbw hr out he, hybridLoop_step_eq hbw hr out he,
        r.handle_congr hagree hn]
      cases r.handle onPacked onRle' bw e (min (numValues - e) r.values.length) with
      | error err => rfl
      | ok vs => exact ih (fun r' hr' => hfits r' (List.mem_cons_of_mem _ hr')) _ _
    · simp only [hybridLoop, if_neg he]
      rfl

end

/-- **No run of the writer is empty.** -/
theorem noEmptyRun_encodeRleBitPacked {indices : List UInt32} {bitWidth : UInt8}
    (hbw : bitWidth ≤ 32) (hlt : ∀ v ∈ indices, v.toNat < 2 ^ bitWidth.toNat)
    (hlen : indices.length < indexBound) :
    NoEmptyRun (bitWidth :: encodeRleBitPacked indices bitWidth) indices.length := by
  by_cases hbw0 : bitWidth = 0
  · exact .inl hbw0
  obtain ⟨runs, k, hbytes, hruns, hfits⟩ := encodeRleBitPacked_runs hbw hbw0 hlt hlen
  have hbw' : bitWidth.toNat ≤ 32 := UInt8.le_iff_toNat_le.mp hbw
  have henough : indices.length ≤ (runValues runs).length := by
    rw [hruns, List.length_append]
    omega
  have hdec := hybridDecode_runs (handles_unpackIndices hbw) hbw' hfits [] henough
    (fun _ _ => trivial)
  rw [List.append_nil] at hdec
  have hagree : ∀ e chunk n, n ≠ 0 →
      nonEmptyRun e chunk n = .ok (List.replicate n (rleIndex chunk)) := fun _ _ _ hn => if_neg hn
  rw [hybridDecode, ← hybridLoop_congr hagree hbw' hfits] at hdec
  exact .inr (.inr ⟨_, hbytes ▸ hdec⟩)

/-! ## Pages of a chunk -/

section
variable [Platform] [LawfulPlatform] {options : WriteOptions} {file : ParquetFile} {r ix : ℕ}
  {col : ColumnData} {c : EncodedColumn} {chunk : RawChunk}

/-- **The data page of a chunk**, viewed: all rows, PLAIN or as indices of a
    dictionary, whose page comes before it. -/
theorem ChunkOf.dataPage (h : ChunkOf options file r ix col c)
    (hchunk : readChunkRaw file r ix = .ok chunk) :
    ∃ encoding, dataPageView c.data.page chunk
        = .ok { numValues := col.rowCount, encoding, values := c.data.uncompressed } ∧
      c.data.header.pageType.IsData ∧
      (∀ p ∈ c.dictionary, p.header.pageType = .dictionaryPage) ∧
      (encoding = .plain ∧ c.data.uncompressed = col.encodePlain ∨
        encoding = .plainDictionary ∧ ∃ body len indices, col.encodeDict = some (body, len, indices) ∧
          c.data.uncompressed
            = minBitWidthForDict len :: encodeRleBitPacked indices (minBitWidthForDict len)) := by
  cases h.chunk.symm.trans hchunk
  have hcount := i32AsUsize_ofNat h.rows
  have hfits := (h.fits c.data (List.mem_append_right _ (List.mem_singleton.mpr rfl))).1
  have hpages := h.encoded
  cases hpages with
  | @plain data hdict hpage =>
    obtain ⟨compressed, hcompress, hpage⟩ := bind_eq_ok.mp hpage
    cases hpage
    cases hversion : options.pageVersion with
    | v1 =>
      rw [hversion] at hfits
      refine ⟨.plain, Eq.trans (dataPageView_v1 rfl rfl hfits hcompress ⟨rfl, rfl⟩) ?_, .inl rfl,
        by simp, .inl ⟨rfl, rfl⟩⟩
      dsimp only
      rw [hcount]
    | v2 =>
      rw [hversion] at hfits
      refine ⟨.plain, Eq.trans (dataPageView_v2 rfl rfl rfl hfits hcompress rfl ⟨rfl, rfl⟩) ?_,
        .inr rfl, by simp, .inl ⟨rfl, rfl⟩⟩
      dsimp only
      rw [hcount]
  | @dict dictionary data hdict hpage =>
    unfold encodeDictColumn at hpage
    cases henc : col.encodeDict with
    | none => simp [henc] at hpage
    | some enc =>
      obtain ⟨body, len, indices⟩ := enc
      rw [henc] at hpage
      obtain ⟨dictCompressed, -, hpage⟩ := bind_eq_ok.mp hpage
      obtain ⟨compressed, hcompress, hpage⟩ := bind_eq_ok.mp hpage
      cases hpage
      refine ⟨.plainDictionary, Eq.trans (dataPageView_v1 rfl rfl hfits hcompress ⟨rfl, rfl⟩) ?_,
        .inl rfl, ?_, .inr ⟨rfl, body, len, indices, rfl, rfl⟩⟩
      · dsimp only
        rw [hcount]
      · rintro p hp
        cases hp
        rfl

/-- The pages of a chunk: perhaps a dictionary, and one data page with all rows,
    which begins at row 0. -/
structure OneDataPage (c : EncodedColumn) (chunk : RawChunk) (pages : List Page) : Prop where
  pagesOf : PagesOf chunk.bytes pages
  dictionaryFirst : ∀ page ∈ pages.tail, page.1.pageType ≠ .dictionaryPage
  total : (pages.map pageRows).sum = chunk.totalValues
  data : ∀ page ∈ pages, page.1.pageType.IsData → page = c.data.page
  aligned : PlainAligned 0 pages

theorem ChunkOf.oneDataPage (h : ChunkOf options file r ix col c)
    (hchunk : readChunkRaw file r ix = .ok chunk) :
    OneDataPage c chunk ((c.dictionary.toList ++ [c.data]).map EncodedPage.page) := by
  obtain ⟨encoding, hview, hdata, hdict, -⟩ := h.dataPage hchunk
  cases h.chunk.symm.trans hchunk
  have hrows : pageRows c.data.page = col.rowCount :=
    pageRows_of_isData hdata (dataPageView_info hview).1
  have hnotDict : c.data.header.pageType ≠ .dictionaryPage := by
    rintro heq
    rcases hdata with hdata | hdata <;> rw [heq] at hdata <;> cases hdata
  have hpages := h.pages
  cases hd : c.dictionary with
  | none =>
    rw [hd] at hpages
    exact { pagesOf := hpages
            dictionaryFirst := by simp
            total := by simp [hrows]
            data := by simp
            aligned := ⟨fun _ _ => rfl, trivial⟩ }
  | some p =>
    rw [hd] at hpages hdict
    have hp : p.header.pageType = .dictionaryPage := hdict p rfl
    have hnotData : ¬ p.page.1.pageType.IsData := by
      rintro (heq | heq) <;> cases hp.symm.trans heq
    have hnone : pageRows p.page = 0 := if_neg hnotData
    exact { pagesOf := hpages
            dictionaryFirst := by simpa [EncodedPage.page] using hnotDict
            total := by simp [hrows, hnone]
            data := by simpa using fun hdata => absurd hdata hnotData
            aligned := ⟨fun _ _ => rfl, fun _ _ => by rw [hnone], trivial⟩ }

/-- **Chunks of fixed-width values** are filtered by masked reads. -/
theorem ChunkOf.filtersRead {α : Type} [FixedWidth α] {values : List α}
    (h : ChunkOf options file r ix col c) (hd : Decodes fixedDecoder col values) :
    FiltersRead (decodeChunkMasked file r ix) col.rowCount values := by
  obtain ⟨encoding, hview, hdata, -, hbody⟩ := h.dataPage h.chunk
  have hpages := h.oneDataPage h.chunk
  refine (decodeChunkMasked_filters_iff h.chunk ?_ (h.decode hd)).mpr hpages.aligned
  refine ⟨hpages.pagesOf, hpages.dictionaryFirst, fun page hpage => ⟨fun htype => ?_, ?_⟩, hpages.total⟩
  · obtain rfl := hpages.data page hpage htype
    exact ⟨_, (dataPageView_info hview).1⟩
  · intro htype info hinfo hplain
    obtain rfl := hpages.data page hpage htype
    cases hview.symm.trans hinfo
    rcases hbody with ⟨-, hbytes⟩ | ⟨henc, -⟩
    · obtain ⟨hlen, -⟩ := decodePlainFixed_eq_ok.mp hd.plain
      dsimp only
      rw [hbytes, hlen, hd.length]
    · cases henc.symm.trans hplain

/-- The pages of byte arrays declare what they hold. -/
theorem ChunkOf.wellFormedByteArray {values : List Bytes}
    (h : ChunkOf options file r ix (.byteArray values) c) (hvalues : ∀ v ∈ values, v.length < 2 ^ 32)
    (hchunk : readChunkRaw file r ix = .ok chunk) :
    WellFormedByteArrayChunk chunk ((c.dictionary.toList ++ [c.data]).map EncodedPage.page) := by
  obtain ⟨encoding, hview, hdata, -, hbody⟩ := h.dataPage hchunk
  have hpages := h.oneDataPage hchunk
  have hrows : values.length < 2 ^ 31 := h.rows
  refine ⟨hpages.pagesOf, hpages.dictionaryFirst, fun page hpage => ⟨?_, ?_, ?_⟩, hpages.total⟩
  · intro htype
    obtain rfl := hpages.data page hpage htype
    exact ⟨_, (dataPageView_info hview).1⟩
  · intro htype info vs hinfo hplain hvs
    obtain rfl := hpages.data page hpage htype
    cases hview.symm.trans hinfo
    rcases hbody with ⟨-, hbytes⟩ | ⟨henc, -⟩
    · dsimp only at hvs
      rw [hbytes] at hvs
      cases (decodePlainByteArray_encodePlainByteArray hvalues).symm.trans hvs
      rfl
    · cases henc.symm.trans hplain
  · intro htype info hinfo hplain
    obtain rfl := hpages.data page hpage htype
    cases hview.symm.trans hinfo
    rcases hbody with ⟨henc, -⟩ | ⟨-, body, len, indices, henc, hbytes⟩
    · exact absurd henc hplain
    · cases henc
      obtain ⟨hlen, hlt⟩ := buildDict_indices hrows rfl
      have hnone := noEmptyRun_encodeRleBitPacked (minBitWidthForDict_le _) hlt
        (by change _ < 2 ^ 58; omega)
      rw [hlen] at hnone
      dsimp only
      rwa [hbytes]

/-- **Chunks of byte arrays** are filtered, too. -/
theorem ChunkOf.filtersReadBytes {values : List Bytes}
    (h : ChunkOf options file r ix (.byteArray values) c) (hvalues : ∀ v ∈ values, v.length < 2 ^ 32) :
    FiltersRead (readColumnByteArrayMasked file r ix) values.length values := by
  intro mask out hmask
  exact byteArrayMasked_eq ownedAppend_appends h.chunk (h.wellFormedByteArray hvalues h.chunk)
    (h.decode (decodes_byteArray h.rows hvalues)) hmask trivial

end

end EmatixParquet
