/-
  Column reads of the async crate (`read.rs`): one request for the chunk, then
  the page walk and the decoding of the codec crate, written out again.

  The one step that is missing is the levels of V1 pages: `read_chunk_raw_async`
  does not compute them and `data_page_view` does not skip them.

  * `dataPageView_sameOk_iff`: the two views of a data page agree exactly when
    it has no levels to skip (`Unstripped`);
  * `decodeChunk_sameOk`: chunks on which no such page is reached are decoded
    alike;
  * `readColumnAsync_sameOk`: so the readers of every type agree, on any file
    behind a store that serves it.
-/
import EmatixParquet.Async.File
import EmatixParquet.Codec.Offsets

namespace EmatixParquet

open Wire

/-- `{e}`. -/
def CodecError.display : CodecError → String
  | wire e => s!"wire-format error: {e.display}"
  | decompress s => s!"decompression failed: {s}"
  | unalignedPlainBuffer width len => s!"PLAIN buffer length {len} not a multiple of {width}"
  | underflowingPlainBuffer width len requested =>
    s!"PLAIN buffer length {len} too short for {requested} values of width {width}"
  | bitWidthOutOfRange w => s!"bit_width {w} outside supported [0, 64]"
  | emptyDictPageBody => "dictionary-encoded data page had an empty body"
  | dictIndexOutOfRange index size => s!"dictionary index {index} ≥ dict size {size}"
  | invalidInput s => s!"invalid input: {s}"
  | unsupported s => s!"unsupported: {s}"
  | cancelled => "parallel decode cancelled by token"

namespace Async

variable {α σ : Type}

/-- The error of a file, as the readers report it. -/
def ioToAsync (e : IoError) : AsyncError := .format s!"io: {e.display}"

/-- The error of a decoder, as the readers report it. -/
def codecToAsync (e : CodecError) : AsyncError := .format s!"codec: {e.display}"

/-- `.map_err(codec_to_async)?`. -/
def ofCodec (x : Res CodecError α) : Res AsyncError α := x.mapError (Fault.map codecToAsync)

/-- `.ok_or_else(|| AsyncError::Format(..))?`. -/
def okOr (o : Option α) (msg : String) : Res AsyncError α :=
  match o with
  | some a => .ok a
  | none => asyncErr (.format msg)

/-! ## Chunks -/

/-- What `read_chunk_raw_async` returns. -/
structure RawChunk where
  bytes : Bytes
  totalValues : ℕ
  codec : CompressionCodec

/-- The inline metadata of a chunk. -/
def columnMetaData (md : FileMetaData) (rowGroup column : ℕ) : Res AsyncError ColumnMetaData := do
  let rg ← okOr md.rowGroups[rowGroup]? s!"row group {rowGroup} out of range"
  let col ← okOr rg.columns[column]? s!"column {column} out of range"
  okOr col.metaData "column missing inline meta_data"

/-- `read_chunk_raw_async`. -/
def readChunkRaw (file : AsyncParquetFile) (rowGroup column : ℕ) : Res AsyncError RawChunk := do
  let md ← file.metadata
  let cm ← columnMetaData md rowGroup column
  let bytes ← file.readRange (chunkRange cm).1 (chunkRange cm).2
  pure { bytes, totalValues := cm.numValues.toUInt64.toNat, codec := cm.codec }

/-! ## Data pages -/

/-- The size after decompression: not negative. -/
def pageUncompressedSize (hdr : PageHeader) : Res AsyncError ℕ :=
  if hdr.uncompressedPageSize < 0 then asyncErr (.format
    s!"page header uncompressed_page_size is negative ({hdr.uncompressedPageSize.toInt})")
  else .ok (i32AsUsize hdr.uncompressedPageSize)

section
variable [Platform]

/-- `decompress_into`. -/
def decompressInto (codec : CompressionCodec) (body : Bytes) (uncompressedSize : ℕ) :
    Res AsyncError Bytes :=
  match codec with
  | .uncompressed => .ok body
  | .snappy => ofCodec (decompressSnappy body)
  | .zstd => ofCodec (decompressStreamCapped .zstd body uncompressedSize)
  | .gzip => ofCodec (decompressStreamCapped .gzip body uncompressedSize)
  | .brotli => ofCodec (decompressStreamCapped .brotli body uncompressedSize)
  | .lz4Raw => ofCodec (decompressLz4Raw body uncompressedSize)
  | other => asyncErr (.format s!"compression codec not yet wired in async façade: {other.debug}")

/-- The values of a V2 body, after its `prefixLen` bytes of levels. -/
def valuesAfterPrefix (dph : DataPageHeaderV2) (uncompressedSize prefixLen : ℕ) (body : Bytes)
    (codec : CompressionCodec) : Res AsyncError Bytes :=
  if body.length < prefixLen then asyncErr (.format
    s!"DataPageV2 body too short: {body.length} bytes, need {prefixLen} for rep+def")
  else if dph.isCompressed ∧ codec ≠ .uncompressed then
    decompressInto codec (body.drop prefixLen) (uncompressedSize - prefixLen)
  else .ok (body.drop prefixLen)

/-- `data_page_view`: the values of a V1 page are its whole body. -/
def dataPageView (page : Page) (codec : CompressionCodec) : Res AsyncError DataPageInfo := do
  let uncompressedSize ← pageUncompressedSize page.1
  match page.1.dataPageHeader, page.1.dataPageHeaderV2 with
  | some dph, _ => do
    let decomp ← decompressInto codec page.2 uncompressedSize
    pure { numValues := i32AsUsize dph.numValues, encoding := dph.encoding, values := decomp }
  | none, some dph => do
    let prefixLen := (i32AsUsize dph.repetitionLevelsByteLength
      + i32AsUsize dph.definitionLevelsByteLength) % usizeBound
    let values ← valuesAfterPrefix dph uncompressedSize prefixLen page.2 codec
    pure { numValues := i32AsUsize dph.numValues, encoding := dph.encoding, values }
  | none, none => asyncErr (.format "data page missing both V1 and V2 header")

/-- The content of a dictionary page. -/
def dictionaryPage (decodePlain : Bytes → Res AsyncError (List α)) (page : Page)
    (codec : CompressionCodec) : Res AsyncError (List α) := do
  let size ← pageUncompressedSize page.1
  let decomp ← decompressInto codec page.2 size
  decodePlain decomp

/-! ## Decoding -/

/-- The page loop, over the bytes of the chunk. -/
def pageLoop (onPage : σ → Page → Res AsyncError (σ ⊕ σ)) : Loop (Fault AsyncError) σ σ where
  step s := do
    match ← nextPage.mapError (Fault.map ioToAsync) with
    | none => pure (.inr s)
    | some page => Reader.lift (onPage s page)
  consumes {s bs s' rest} h := by
    obtain ⟨o, mid, ho, h⟩ := Reader.run_bind_eq_ok h
    have ho := Reader.run_mapError_eq_ok.mp ho
    cases o with
    | none => cases h
    | some page => exact lt_of_le_of_lt (Reader.run_length_le _ h) (nextPage_consumes ho)

/-- The pages of a chunk, one after the other, until `onPage` stops. -/
def walkPages (onPage : σ → Page → Res AsyncError (σ ⊕ σ)) (s : σ) (chunk : Bytes) :
    Res AsyncError σ :=
  (·.1) <$> ((pageLoop onPage).run s).run chunk

/-- How a column type is decoded. -/
structure PageDecoder (α : Type) where
  plain : Bytes → Res AsyncError (List α)
  dict : List α → ℕ → Bytes → Res AsyncError (List α)

/-- The values of a data page. -/
def decodeValues (dec : PageDecoder α) (dict : List α) (info : DataPageInfo) :
    Res AsyncError (List α) :=
  match info.encoding with
  | .plain => dec.plain info.values
  | .rleDictionary | .plainDictionary =>
    if dict = [] then asyncErr (.format "dict-encoded data page before dictionary")
    else dec.dict dict info.numValues info.values
  | other => asyncErr (.format s!"encoding not yet dispatched by async façade: {other.debug}")

/-- What one page does to the state. -/
def decodePage (dec : PageDecoder α) (chunk : RawChunk) (s : DecodeState α) (page : Page) :
    Res AsyncError (DecodeState α) :=
  match page.1.pageType with
  | .dictionaryPage => do
    let dict ← dictionaryPage dec.plain page chunk.codec
    pure { s with dict }
  | .dataPage | .dataPageV2 => do
    let info ← dataPageView page chunk.codec
    let vs ← decodeValues dec s.dict info
    pure { s with out := s.out ++ vs }
  | .indexPage => .ok s

/-- The body of the loop of `decode_chunk_into` and
    `read_column_byte_array_async_into`. -/
def decodeStep (dec : PageDecoder α) (chunk : RawChunk) (s : DecodeState α) (page : Page) :
    Res AsyncError (DecodeState α ⊕ DecodeState α) := do
  let s ← decodePage dec chunk s page
  pure (if chunk.totalValues ≤ s.out.length then .inr s else .inl s)

/-- `decode_chunk_async`. -/
def decodeChunk (dec : PageDecoder α) (file : AsyncParquetFile) (rowGroup column : ℕ) :
    Res AsyncError (List α) := do
  let chunk ← readChunkRaw file rowGroup column
  let s ← walkPages (decodeStep dec chunk) {} chunk.bytes
  pure s.out

/-- The decoder of a fixed-width type. -/
def fixedDecoder [FixedWidth α] : PageDecoder α where
  plain b := ofCodec (decodePlainFixed b)
  dict dict numValues values := ofCodec (decodeRleDictionary values dict numValues)

/-- The decoder of byte arrays. -/
def byteArrayDecoder : PageDecoder Bytes where
  plain b := ofCodec (decodePlainByteArray b)
  dict dict numValues values := do
    let indices ← ofCodec (decodeRleDictionaryIndices values numValues)
    indices.mapM fun idx => okOr dict[idx.toNat]? "dictionary index out of range"

/-- The values of a data page, appended one by one. -/
def offsetsValues (s : OffsetsState) (info : DataPageInfo) : Res AsyncError OffsetsOut :=
  match info.encoding with
  | .plain => do
    let acc ← ofCodec s.out.running
    let out ← plainOffsets .format info.numValues info.values (s.out, acc)
    pure out.1
  | .rleDictionary | .plainDictionary =>
    if s.dictOffsets.length < 2 then
      asyncErr (.format "dict-encoded data page before dictionary")
    else do
      let indices ← ofCodec (decodeRleDictionaryIndices info.values info.numValues)
      let acc ← ofCodec s.out.running
      let out ← indices.foldlM
        (fun out idx => pushValue out <$> dictEntry AsyncError.format s idx) (s.out, acc)
      pure out.1
  | other => asyncErr (.format s!"encoding not yet dispatched by async façade: {other.debug}")

/-- One page of the offsets read. -/
def offsetsPage (chunk : RawChunk) (s : OffsetsState) (page : Page) :
    Res AsyncError OffsetsState :=
  match page.1.pageType with
  | .dictionaryPage =>
    s.withDict <$> dictionaryPage (fun b => ofCodec (decodePlainByteArray b)) page chunk.codec
  | .dataPage | .dataPageV2 => do
    let info ← dataPageView page chunk.codec
    let out ← offsetsValues s info
    pure { s with out }
  | .indexPage => .ok s

/-- The body of the loop of `read_column_byte_array_offsets_async_into`. -/
def offsetsStep (chunk : RawChunk) (s : OffsetsState) (page : Page) :
    Res AsyncError (OffsetsState ⊕ OffsetsState) := do
  let s ← offsetsPage chunk s page
  pure (s.next chunk.totalValues)

end

end Async

section
variable [Platform]

/-- `read_column_i64_async`. -/
def readColumnI64Async : AsyncParquetFile → ℕ → ℕ → Res AsyncError (List Int64) :=
  Async.decodeChunk Async.fixedDecoder

/-- `read_column_i32_async`. -/
def readColumnI32Async : AsyncParquetFile → ℕ → ℕ → Res AsyncError (List Int32) :=
  Async.decodeChunk Async.fixedDecoder

/-- `read_column_f64_async`. -/
def readColumnF64Async : AsyncParquetFile → ℕ → ℕ → Res AsyncError (List F64) :=
  Async.decodeChunk Async.fixedDecoder

/-- `read_column_byte_array_async`. -/
def readColumnByteArrayAsync : AsyncParquetFile → ℕ → ℕ → Res AsyncError (List Bytes) :=
  Async.decodeChunk Async.byteArrayDecoder

/-- `read_column_byte_array_offsets_async`. -/
def readColumnByteArrayOffsetsAsync (file : AsyncParquetFile) (rowGroup column : ℕ) :
    Res AsyncError OffsetsOut := do
  let chunk ← Async.readChunkRaw file rowGroup column
  let s ← Async.walkPages (Async.offsetsStep chunk) { out := OffsetsOut.start {} } chunk.bytes
  pure s.out

end

/-! ## Agreement of the parts -/

namespace Async

variable {α σ : Type}

theorem ofCodec_sameOk (x : Res CodecError α) : SameOk (ofCodec x) x := .mapError _ x

theorem okOr_sameOk (o : Option α) (msg : String) (e : CodecError) :
    SameOk (okOr o msg) (EmatixParquet.okOr o e) := by
  cases o with
  | none => exact .of_error _ _
  | some a => exact .of_ok a

theorem columnMetaData_sameOk (md : FileMetaData) (rowGroup column : ℕ) :
    SameOk (columnMetaData md rowGroup column)
      (EmatixParquet.columnMetaData md rowGroup column) := by
  refine .bind (okOr_sameOk _ _ _) fun rg _ => ?_
  exact .bind (okOr_sameOk _ _ _) fun col _ => okOr_sameOk _ _ _

theorem pageUncompressedSize_sameOk (hdr : PageHeader) :
    SameOk (pageUncompressedSize hdr) (EmatixParquet.pageUncompressedSize hdr) := by
  unfold pageUncompressedSize EmatixParquet.pageUncompressedSize
  split
  · exact .of_error _ _
  · exact .of_ok _

section
variable [Platform]

theorem decompressInto_sameOk (codec : CompressionCodec) (body : Bytes) (size : ℕ) :
    SameOk (decompressInto codec body size) (EmatixParquet.decompressInto codec body size) := by
  cases codec with
  | uncompressed => exact .of_ok body
  | snappy => exact ofCodec_sameOk _
  | zstd => exact ofCodec_sameOk _
  | gzip => exact ofCodec_sameOk _
  | brotli => exact ofCodec_sameOk _
  | lz4Raw => exact ofCodec_sameOk _
  | lzo => exact .of_error _ _
  | lz4 => exact .of_error _ _

/-- The page has a V1 header and a body that decompresses, in a column with
    levels: its values come after levels that the async view leaves in place. -/
def Unstripped (chunk : EmatixParquet.RawChunk) (page : Page) : Prop :=
  ¬ (chunk.maxRepLevel = 0 ∧ chunk.maxDefLevel = 0) ∧ page.1.dataPageHeader ≠ none ∧
    ∃ size decomp, EmatixParquet.pageUncompressedSize page.1 = .ok size ∧
      EmatixParquet.decompressInto chunk.codec page.2 size = .ok decomp

theorem valuesAfterPrefix_sameOk (dph : DataPageHeaderV2) (size prefixLen : ℕ) (body : Bytes)
    (chunk : EmatixParquet.RawChunk) :
    SameOk (valuesAfterPrefix dph size prefixLen body chunk.codec)
      (EmatixParquet.valuesAfterPrefix dph size prefixLen body chunk) := by
  unfold valuesAfterPrefix EmatixParquet.valuesAfterPrefix
  split
  · exact .of_error _ _
  · split
    · exact decompressInto_sameOk _ _ _
    · exact .of_ok _

/-- **The views of a data page** agree exactly when no levels are left in
    place. -/
theorem dataPageView_sameOk_iff (page : Page) (chunk : EmatixParquet.RawChunk) :
    SameOk (dataPageView page chunk.codec) (EmatixParquet.dataPageView page chunk)
      ↔ ¬ Unstripped chunk page := by
  unfold dataPageView EmatixParquet.dataPageView Unstripped
  cases hsize : EmatixParquet.pageUncompressedSize page.1 with
  | error e =>
    cases hasync : pageUncompressedSize page.1 with
    | error e' => exact iff_of_true (.of_error _ _) (by simp)
    | ok size => simp [(pageUncompressedSize_sameOk page.1 size).mp hasync] at hsize
  | ok size =>
    rw [(pageUncompressedSize_sameOk page.1 size).mpr hsize]
    change SameOk (match page.1.dataPageHeader, page.1.dataPageHeaderV2 with
      | some dph, _ => _ | none, some dph => _ | none, none => _)
      (match page.1.dataPageHeader, page.1.dataPageHeaderV2 with
      | some dph, _ => _ | none, some dph => _ | none, none => _) ↔ _
    cases hv1 : page.1.dataPageHeader with
    | none =>
      refine iff_of_true ?_ (by simp)
      cases hv2 : page.1.dataPageHeaderV2 with
      | none => exact .of_error _ _
      | some dph =>
        exact .bind (valuesAfterPrefix_sameOk dph size _ page.2 chunk) fun _ _ => .of_ok _
    | some dph =>
      dsimp only [dataPageViewV1]
      cases hdec : EmatixParquet.decompressInto chunk.codec page.2 size with
      | error e =>
        cases hasync : decompressInto chunk.codec page.2 size with
        | error e' => exact iff_of_true (.of_error _ _) (by simp [hdec])
        | ok decomp =>
          have := (decompressInto_sameOk chunk.codec page.2 size decomp).mp hasync
          simp [this] at hdec
      | ok decomp =>
        rw [(decompressInto_sameOk chunk.codec page.2 size decomp).mpr hdec]
        by_cases hlevels : chunk.maxRepLevel = 0 ∧ chunk.maxDefLevel = 0
        · refine iff_of_true ?_ (by simp [hlevels])
          have hvalues : valuesAfterLevels decomp chunk = .ok decomp := if_pos hlevels
          change SameOk _ (valuesAfterLevels decomp chunk >>= _)
          rw [hvalues]
          exact .of_ok _
        · refine iff_of_false ?_ (by simp [hlevels, hdec])
          intro hsame
          obtain ⟨_, ⟨⟩, hview⟩ := bind_eq_ok.mp ((hsame _).mp rfl)
          obtain ⟨values, hvalues, hinfo⟩ := bind_eq_ok.mp hview
          rw [valuesAfterLevels, if_neg hlevels, map_eq_ok] at hvalues
          obtain ⟨off, hoff, rfl⟩ := hvalues
          obtain ⟨hpos, hle⟩ := skipV1LevelPrefixes_pos hlevels hoff
          have hlen := congrArg (fun info => info.values.length) (Except.ok.inj hinfo)
          simp only [List.length_drop] at hlen
          omega

/-! ## The loops over pages -/

/-- A data page whose values the async reader does not find. -/
def LosesLevels (chunk : EmatixParquet.RawChunk) (page : Page) : Prop :=
  page.1.pageType.IsData ∧ Unstripped chunk page

/-- The loop over the pages reaches a page with `bad`. -/
inductive Reaches (bad : Page → Prop) (step : σ → Page → Res CodecError (σ ⊕ σ)) :
    σ → Bytes → Prop
  | here {s : σ} {bytes rest : Bytes} {page : Page} :
    nextPage.run bytes = .ok (some page, rest) → bad page → Reaches bad step s bytes
  | later {s s' : σ} {bytes rest : Bytes} {page : Page} :
    nextPage.run bytes = .ok (some page, rest) → step s page = .ok (.inl s') →
      Reaches bad step s' rest → Reaches bad step s bytes

omit [Platform] in
theorem not_reaches {bad : Page → Prop} {step : σ → Page → Res CodecError (σ ⊕ σ)}
    (h : ∀ page, ¬ bad page) {s : σ} {bytes : Bytes} : ¬ Reaches bad step s bytes := by
  intro hreach
  induction hreach with
  | here _ hbad => exact h _ hbad
  | later _ _ _ ih => exact ih

omit [Platform] in
/-- Loops whose steps agree on every page that is not `bad`. -/
theorem walkPages_sameOk {astep : σ → Page → Res AsyncError (σ ⊕ σ)}
    {step : σ → Page → Res CodecError (σ ⊕ σ)} {bad : Page → Prop}
    (hstep : ∀ s page, ¬ bad page → SameOk (astep s page) (step s page)) {s : σ} {bytes : Bytes}
    (h : ¬ Reaches bad step s bytes) :
    SameOk (walkPages astep s bytes) (EmatixParquet.walkPages ioToCodec step s bytes) := by
  refine .map _ (Loop.run_sameOk (EmatixParquet.pageLoop ioToCodec step) (pageLoop astep)
    (fun s bs => ¬ Reaches bad step s bs) (fun {s bs} hs => ?_) (fun {s bs s' rest} hs hnext => ?_)
    h)
  · have hnext : ∀ {ε : Type} (f : Fault IoError → ε),
        (nextPage.mapError f).run bs = (nextPage.run bs).mapError f := fun _ => rfl
    simp only [pageLoop, EmatixParquet.pageLoop, Reader.run_bind, hnext]
    cases hpage : nextPage.run bs with
    | error e => exact .of_error _ _
    | ok r =>
      obtain ⟨o, rest⟩ := r
      cases o with
      | none => exact .of_ok _
      | some page =>
        have hsame := hstep s page fun hbad => hs (.here hpage hbad)
        intro p
        change (Reader.lift (astep s page)).run rest = .ok p
          ↔ (Reader.lift (step s page)).run rest = .ok p
        rw [Reader.run_lift_eq_ok, Reader.run_lift_eq_ok, hsame p.1]
  · obtain ⟨o, mid, hpage, hrest⟩ := Reader.run_bind_eq_ok hnext
    rw [Reader.run_mapError_eq_ok] at hpage
    cases o with
    | none => cases hrest
    | some page =>
      obtain ⟨hcont, rfl⟩ := Reader.run_lift_eq_ok.mp hrest
      exact fun hlater => hs (.later hpage hcont hlater)

/-! ## One page -/

theorem dictionaryPage_sameOk {aplain : Bytes → Res AsyncError (List α)}
    {plain : Bytes → Res CodecError (List α)} (h : ∀ b, SameOk (aplain b) (plain b)) (page : Page)
    (chunk : EmatixParquet.RawChunk) :
    SameOk (dictionaryPage aplain page chunk.codec)
      (EmatixParquet.dictionaryPage plain page chunk) := by
  refine .bind (pageUncompressedSize_sameOk _) fun size _ => ?_
  exact .bind (decompressInto_sameOk _ _ _) fun decomp _ => h decomp

/-- The async decoder of a column type, against the sync one. -/
structure Mirrors (adec : PageDecoder α) (dec : EmatixParquet.PageDecoder α) : Prop where
  plain : ∀ b, SameOk (adec.plain b) (dec.plain b)
  dict : ∀ dict n values, SameOk (adec.dict dict n values) (dec.dict dict n values)

omit [Platform] in
theorem mirrors_fixedDecoder [FixedWidth α] :
    Mirrors (fixedDecoder (α := α)) EmatixParquet.fixedDecoder where
  plain _ := ofCodec_sameOk _
  dict _ _ _ := ofCodec_sameOk _

omit [Platform] in
theorem mirrors_byteArrayDecoder : Mirrors byteArrayDecoder EmatixParquet.byteArrayDecoder where
  plain _ := ofCodec_sameOk _
  dict _ _ _ := .bind (ofCodec_sameOk _) fun _ _ => .mapM (fun _ => okOr_sameOk _ _ _) _

omit [Platform] in
theorem decodeValues_sameOk {adec : PageDecoder α} {dec : EmatixParquet.PageDecoder α}
    (h : Mirrors adec dec) (dict : List α) (info : DataPageInfo) :
    SameOk (decodeValues adec dict info) (EmatixParquet.decodeValues dec dict info) := by
  have hdict : SameOk
      (if dict = [] then asyncErr (.format "dict-encoded data page before dictionary")
        else adec.dict dict info.numValues info.values)
      (if dict = [] then codecErr (.invalidInput "dict-encoded data page before dictionary")
        else dec.dict dict info.numValues info.values) := by
    split
    · exact .of_error _ _
    · exact h.dict _ _ _
  unfold decodeValues EmatixParquet.decodeValues
  cases info.encoding with
  | plain => exact h.plain _
  | rleDictionary => exact hdict
  | plainDictionary => exact hdict
  | _ => exact .of_error _ _

/-- What the async reader keeps of a chunk. -/
def toAsync (chunk : EmatixParquet.RawChunk) : RawChunk where
  bytes := chunk.bytes
  totalValues := chunk.totalValues
  codec := chunk.codec

theorem decodeStep_sameOk {adec : PageDecoder α} {dec : EmatixParquet.PageDecoder α}
    (h : Mirrors adec dec) (chunk : EmatixParquet.RawChunk) (s : DecodeState α) (page : Page)
    (hpage : ¬ LosesLevels chunk page) :
    SameOk (decodeStep adec (toAsync chunk) s page)
      (EmatixParquet.decodeStep dec chunk s page) := by
  refine .bind ?_ fun s' _ => .of_ok _
  have hdata : page.1.pageType.IsData → SameOk (do
      let info ← dataPageView page chunk.codec
      let vs ← decodeValues adec s.dict info
      pure { s with out := s.out ++ vs }) (do
      let info ← EmatixParquet.dataPageView page chunk
      let vs ← EmatixParquet.decodeValues dec s.dict info
      pure { s with out := s.out ++ vs } : Res CodecError (DecodeState α)) := by
    intro hdata
    refine .bind ((dataPageView_sameOk_iff page chunk).mpr fun hlost => hpage ⟨hdata, hlost⟩) ?_
    exact fun info _ => .bind (decodeValues_sameOk h s.dict info) fun _ _ => .of_ok _
  unfold decodePage EmatixParquet.decodePage
  cases ht : page.1.pageType with
  | dataPage => exact hdata (.inl ht)
  | dataPageV2 => exact hdata (.inr ht)
  | indexPage => exact .of_ok _
  | dictionaryPage => exact .bind (dictionaryPage_sameOk h.plain page chunk) fun _ _ => .of_ok _

omit [Platform] in
theorem plainOffsets_sameOk {ε ε' : Type} (invalid : String → ε) (invalid' : String → ε') (n : ℕ)
    (body : Bytes) (s : OffsetsOut × UInt32) :
    SameOk (plainOffsets invalid n body s) (plainOffsets invalid' n body s) := by
  induction n generalizing body s with
  | zero => exact .of_ok _
  | succ n ih =>
    rw [plainOffsets, plainOffsets]
    split
    · exact .of_ok _
    · split
      · exact .of_error _ _
      · dsimp only
        split
        · exact .of_error _ _
        · exact ih _ _

omit [Platform] in
theorem dictEntry_sameOk {ε ε' : Type} (invalid : String → ε) (invalid' : String → ε')
    (s : OffsetsState) (idx : UInt32) :
    SameOk (dictEntry invalid s idx) (dictEntry invalid' s idx) := by
  unfold dictEntry
  split
  · intro v
    rw [slice_eq_ok, slice_eq_ok]
  · exact .of_error _ _

omit [Platform] in
/-- Pushing the entries one by one, and all of them after they were looked up. -/
theorem foldlM_entries_sameOk (s : OffsetsState) (indices : List UInt32)
    (out : OffsetsOut × UInt32) :
    SameOk
      (indices.foldlM (fun out idx => pushValue out <$> dictEntry AsyncError.format s idx) out)
      ((fun entries => entries.foldl pushValue out)
        <$> indices.mapM (dictEntry CodecError.invalidInput s)) := by
  induction indices generalizing out with
  | nil => exact .of_ok _
  | cons idx indices ih =>
    rw [List.foldlM_cons, List.mapM_cons]
    intro r
    rw [bind_eq_ok, map_eq_ok]
    constructor
    · rintro ⟨out', hout', hr⟩
      obtain ⟨v, hv, rfl⟩ := map_eq_ok.mp hout'
      obtain ⟨entries, hentries, rfl⟩ := map_eq_ok.mp ((ih _ r).mp hr)
      refine ⟨v :: entries, ?_, rfl⟩
      rw [(dictEntry_sameOk _ _ s idx v).mp hv, hentries]
      rfl
    · rintro ⟨all, hall, rfl⟩
      obtain ⟨v, hv, hall⟩ := bind_eq_ok.mp hall
      obtain ⟨entries, hentries, hall⟩ := bind_eq_ok.mp hall
      cases hall
      refine ⟨pushValue out v, map_eq_ok.mpr ⟨v, (dictEntry_sameOk _ _ s idx v).mpr hv, rfl⟩, ?_⟩
      exact (ih _ _).mpr (map_eq_ok.mpr ⟨entries, hentries, rfl⟩)

omit [Platform] in
theorem offsetsValues_sameOk (s : OffsetsState) (info : DataPageInfo) :
    SameOk (offsetsValues s info) (EmatixParquet.offsetsValues s info) := by
  have hdict : SameOk (do
      let indices ← ofCodec (decodeRleDictionaryIndices info.values info.numValues)
      let acc ← ofCodec s.out.running
      let out ← indices.foldlM
        (fun out idx => pushValue out <$> dictEntry AsyncError.format s idx) (s.out, acc)
      pure out.1) (do
      let indices ← decodeRleDictionaryIndices info.values info.numValues
      let entries ← indices.mapM (dictEntry CodecError.invalidInput s)
      let acc ← s.out.running
      pure (entries.foldl pushValue (s.out, acc)).1) := by
    refine .bind (ofCodec_sameOk _) fun indices _ => ?_
    intro out
    simp only [bind_eq_ok, (ofCodec_sameOk _ _)]
    constructor
    · rintro ⟨acc, hacc, r, hr, hout⟩
      obtain ⟨entries, hentries, rfl⟩ := map_eq_ok.mp ((foldlM_entries_sameOk s indices _ r).mp hr)
      cases hout
      exact ⟨entries, hentries, acc, hacc, rfl⟩
    · rintro ⟨entries, hentries, acc, hacc, hout⟩
      cases hout
      exact ⟨acc, hacc, _, (foldlM_entries_sameOk s indices _ _).mpr
        (map_eq_ok.mpr ⟨entries, hentries, rfl⟩), rfl⟩
  have hguarded : SameOk
      (if s.dictOffsets.length < 2 then
          asyncErr (.format "dict-encoded data page before dictionary")
        else (do
          let indices ← ofCodec (decodeRleDictionaryIndices info.values info.numValues)
          let acc ← ofCodec s.out.running
          let out ← indices.foldlM
            (fun out idx => pushValue out <$> dictEntry AsyncError.format s idx) (s.out, acc)
          pure out.1))
      (if s.dictOffsets.length < 2 then
          codecErr (.invalidInput "dict-encoded data page before dictionary")
        else (do
          let indices ← decodeRleDictionaryIndices info.values info.numValues
          let entries ← indices.mapM (dictEntry CodecError.invalidInput s)
          let acc ← s.out.running
          pure (entries.foldl pushValue (s.out, acc)).1)) := by
    split
    · exact .of_error _ _
    · exact hdict
  unfold offsetsValues EmatixParquet.offsetsValues
  cases info.encoding with
  | plain =>
    refine .bind (ofCodec_sameOk _) fun acc _ => ?_
    exact .bind (plainOffsets_sameOk _ _ _ _ _) fun _ _ => .of_ok _
  | rleDictionary => exact hguarded
  | plainDictionary => exact hguarded
  | _ => exact .of_error _ _

theorem offsetsStep_sameOk (chunk : EmatixParquet.RawChunk) (s : OffsetsState) (page : Page)
    (hpage : ¬ LosesLevels chunk page) :
    SameOk (offsetsStep (toAsync chunk) s page) (EmatixParquet.offsetsStep chunk s page) := by
  refine .bind ?_ fun s' _ => .of_ok _
  have hdata : page.1.pageType.IsData → SameOk (do
      let info ← dataPageView page chunk.codec
      let out ← offsetsValues s info
      pure { s with out }) (do
      let info ← EmatixParquet.dataPageView page chunk
      let out ← EmatixParquet.offsetsValues s info
      pure { s with out } : Res CodecError OffsetsState) := by
    intro hdata
    refine .bind ((dataPageView_sameOk_iff page chunk).mpr fun hlost => hpage ⟨hdata, hlost⟩) ?_
    exact fun info _ => .bind (offsetsValues_sameOk s info) fun _ _ => .of_ok _
  unfold offsetsPage EmatixParquet.offsetsPage
  cases ht : page.1.pageType with
  | dataPage => exact hdata (.inl ht)
  | dataPageV2 => exact hdata (.inr ht)
  | indexPage => exact .of_ok _
  | dictionaryPage =>
    exact .map _ (dictionaryPage_sameOk (fun _ => ofCodec_sameOk _) page chunk)

/-! ## Chunks -/

/-- Once the bytes of the chunk are there, the levels of the column can be
    computed, and the loop reaches no page whose levels the async reader leaves
    in place. -/
def LevelsHandled (step : EmatixParquet.RawChunk → σ → Page → Res CodecError (σ ⊕ σ)) (init : σ)
    (file : ParquetFile) (rowGroup column : ℕ) : Prop :=
  ∀ md cm bytes, file.metadata = .ok md →
    EmatixParquet.columnMetaData md rowGroup column = .ok cm →
    file.readRange (chunkRange cm).1 (chunkRange cm).2 = .ok bytes →
    ∃ chunk, EmatixParquet.readChunkRaw file rowGroup column = .ok chunk ∧
      ¬ Reaches (LosesLevels chunk) (step chunk) init chunk.bytes

omit [Platform] in
theorem readChunkRaw_toAsync {store : ObjectStore} {file : ParquetFile} {rowGroup column : ℕ}
    {chunk : EmatixParquet.RawChunk} (hserves : store.Serves file.bytes)
    (h : EmatixParquet.readChunkRaw file rowGroup column = .ok chunk) :
    readChunkRaw (.ofFile store file) rowGroup column = .ok (toAsync chunk) := by
  obtain ⟨md, cm, bytes, levels, hmd, hcm, hbytes, -, rfl⟩ := readChunkRaw_ok h
  rw [readChunkRaw, (AsyncParquetFile.metadata_sameOk md).mpr hmd]
  change (columnMetaData md rowGroup column >>= _) = _
  rw [(columnMetaData_sameOk md rowGroup column cm).mpr hcm]
  change ((AsyncParquetFile.ofFile store file).readRange _ _ >>= _) = _
  rw [(AsyncParquetFile.readRange_sameOk hserves _ _ bytes).mpr hbytes]
  rfl

/-- The request for the chunk, then the loop. -/
theorem decodeChunk_sameOk {β : Type} {store : ObjectStore} {file : ParquetFile}
    {astep : RawChunk → σ → Page → Res AsyncError (σ ⊕ σ)}
    {step : EmatixParquet.RawChunk → σ → Page → Res CodecError (σ ⊕ σ)} {init : σ} (result : σ → β)
    (hserves : store.Serves file.bytes)
    (hstep : ∀ chunk s page, ¬ LosesLevels chunk page →
      SameOk (astep (toAsync chunk) s page) (step chunk s page))
    {rowGroup column : ℕ} (h : LevelsHandled step init file rowGroup column) :
    SameOk (do
      let chunk ← readChunkRaw (.ofFile store file) rowGroup column
      let s ← walkPages (astep chunk) init chunk.bytes
      pure (result s)) (do
      let chunk ← EmatixParquet.readChunkRaw file rowGroup column
      let s ← EmatixParquet.walkPages ioToCodec (step chunk) init chunk.bytes
      pure (result s)) := by
  have hrun : ∀ chunk, ¬ Reaches (LosesLevels chunk) (step chunk) init chunk.bytes →
      SameOk (result <$> walkPages (astep (toAsync chunk)) init chunk.bytes)
        (result <$> EmatixParquet.walkPages ioToCodec (step chunk) init chunk.bytes) :=
    fun chunk hreach => .map _ (walkPages_sameOk (hstep chunk) hreach)
  intro b
  constructor
  · intro hasync
    obtain ⟨araw, haraw, hasync⟩ := bind_eq_ok.mp hasync
    obtain ⟨md, hmd, haraw'⟩ := bind_eq_ok.mp haraw
    obtain ⟨cm, hcm, haraw'⟩ := bind_eq_ok.mp haraw'
    obtain ⟨bytes, hbytes, -⟩ := bind_eq_ok.mp haraw'
    obtain ⟨chunk, hchunk, hreach⟩ := h md cm bytes ((AsyncParquetFile.metadata_sameOk md).mp hmd)
      ((columnMetaData_sameOk md rowGroup column cm).mp hcm)
      ((AsyncParquetFile.readRange_sameOk hserves _ _ bytes).mp hbytes)
    cases haraw.symm.trans (readChunkRaw_toAsync hserves hchunk)
    rw [hchunk]
    exact (hrun chunk hreach b).mp hasync
  · intro hsync
    obtain ⟨chunk, hchunk, hsync⟩ := bind_eq_ok.mp hsync
    obtain ⟨md, cm, bytes, -, hmd, hcm, hbytes, -, -⟩ := readChunkRaw_ok hchunk
    obtain ⟨chunk', hchunk', hreach⟩ := h md cm bytes hmd hcm hbytes
    cases hchunk'.symm.trans hchunk
    rw [readChunkRaw_toAsync hserves hchunk]
    exact (hrun chunk hreach b).mpr hsync

/-! ## Columns with levels -/

/-- Both crates decode the chunk to the same `i64` values, or fail. -/
def AgreeOn (chunk : EmatixParquet.RawChunk) : Prop :=
  SameOk ((·.out) <$> walkPages (decodeStep (@fixedDecoder Int64 _) (toAsync chunk)) {} chunk.bytes)
    ((·.out) <$> EmatixParquet.walkPages ioToCodec
      (EmatixParquet.decodeStep EmatixParquet.fixedDecoder chunk) {} chunk.bytes)

/-- A V1 page with `k` bytes of levels, all zero, and the value 7. -/
def levelsPage (k : ℕ) : Page :=
  sampleBytesPage .dataPage 1 .plain (List.replicate k 0 ++ toLeBytes (7 : Int64))

/-- The page, in a column of these levels. -/
def levelsChunk (k : ℕ) (maxRepLevel maxDefLevel : UInt16) : EmatixParquet.RawChunk where
  bytes := writePage (levelsPage k)
  totalValues := 1
  codec := .uncompressed
  maxRepLevel
  maxDefLevel

theorem not_agreeOn {k : ℕ} {rep defn : UInt16} (hk : k = 4 ∨ k = 8)
    (hlevels : ¬ (rep = 0 ∧ defn = 0))
    (hskip : skipV1LevelPrefixes (levelsPage k).2 rep defn = .ok k) :
    ¬ AgreeOn (levelsChunk k rep defn) := by
  have hpages : PagesOf (levelsChunk k rep defn).bytes [levelsPage k] := by
    have hflat : PagesOf ([levelsPage k].flatMap writePage) [levelsPage k] :=
      pagesOf_flatMap (by rcases hk with rfl | rfl <;> decide)
    rwa [List.flatMap_singleton] at hflat
  -- the sync reader returns the value
  have hvalues : (levelsPage k).2.drop k = toLeBytes (7 : Int64) :=
    List.drop_left' List.length_replicate
  have hview : EmatixParquet.dataPageView (levelsPage k) (levelsChunk k rep defn)
      = .ok { numValues := 1, encoding := .plain, values := toLeBytes (7 : Int64) } := by
    have hsize : EmatixParquet.pageUncompressedSize (levelsPage k).1 = .ok (8 + k) := by
      rcases hk with rfl | rfl <;> rfl
    have hafter : valuesAfterLevels (levelsPage k).2 (levelsChunk k rep defn)
        = .ok (toLeBytes (7 : Int64)) := by
      refine (if_neg hlevels).trans ?_
      change (levelsPage k).2.drop <$> skipV1LevelPrefixes (levelsPage k).2 rep defn = _
      rw [hskip, ← hvalues]
      rfl
    rw [EmatixParquet.dataPageView, hsize]
    change (valuesAfterLevels (levelsPage k).2 (levelsChunk k rep defn) >>= _) = _
    rw [hafter]
    rfl
  have hsync : (·.out) <$> EmatixParquet.walkPages ioToCodec
      (EmatixParquet.decodeStep (@EmatixParquet.fixedDecoder Int64 _) (levelsChunk k rep defn)) {}
      (levelsChunk k rep defn).bytes = .ok [7] := by
    rw [walkPages_eq hpages, foldPages, EmatixParquet.decodeStep, decodePage_of_isData (.inl rfl),
      hview]
    rfl
  -- the async one fails, or returns the levels too
  intro hsame
  have hasync := (hsame [7]).mpr hsync
  rcases hk with rfl | rfl
  · cases hasync
  · exact absurd (Except.ok.inj hasync) (by decide)

omit [Platform] in
theorem skipLevelPrefix_zeros {body : Bytes} {off : ℕ} {maxLevel : UInt16} (hne : maxLevel ≠ 0)
    (hlen : off + 4 ≤ body.length) (hzero : leNat ((body.drop off).take 4) = 0) :
    skipLevelPrefix body off (bitWidthFor maxLevel) = .ok (off + 4) := by
  rw [skipLevelPrefix, if_neg (by rwa [bitWidthFor_eq_zero]), if_neg (by omega)]
  dsimp only
  rw [hzero, if_neg (by omega), Nat.add_zero]

/-- **Which columns are read alike**, whatever their content: those without
    levels. -/
theorem agreeOn_iff (rep defn : UInt16) :
    (∀ chunk : EmatixParquet.RawChunk, chunk.maxRepLevel = rep → chunk.maxDefLevel = defn →
      AgreeOn chunk) ↔ rep = 0 ∧ defn = 0 := by
  constructor
  · intro hagree
    by_contra hlevels
    obtain ⟨k, hk, hskip⟩ : ∃ k, (k = 4 ∨ k = 8) ∧
        skipV1LevelPrefixes (levelsPage k).2 rep defn = .ok k := by
      have hnone : ∀ body off, skipLevelPrefix body off (bitWidthFor 0) = .ok off := fun _ _ => rfl
      by_cases hrep : rep = 0
      · have hdef : defn ≠ 0 := fun hdef => hlevels ⟨hrep, hdef⟩
        refine ⟨4, .inl rfl, ?_⟩
        rw [skipV1LevelPrefixes, hrep, hnone]
        exact skipLevelPrefix_zeros hdef (by decide) (by decide)
      · have hfirst : ∀ k, (k = 4 ∨ k = 8) →
            skipLevelPrefix (levelsPage k).2 0 (bitWidthFor rep) = .ok 4 := by
          rintro k (rfl | rfl) <;> exact skipLevelPrefix_zeros hrep (by decide) (by decide)
        by_cases hdef : defn = 0
        · refine ⟨4, .inl rfl, ?_⟩
          rw [skipV1LevelPrefixes, hfirst 4 (.inl rfl), hdef]
          exact hnone (levelsPage 4).2 4
        · refine ⟨8, .inr rfl, ?_⟩
          rw [skipV1LevelPrefixes, hfirst 8 (.inr rfl)]
          exact skipLevelPrefix_zeros hdef (by decide) (by decide)
    exact not_agreeOn hk hlevels hskip (hagree _ rfl rfl)
  · rintro ⟨rfl, rfl⟩ chunk hrep hdef
    refine .map _ (walkPages_sameOk (decodeStep_sameOk mirrors_fixedDecoder chunk) ?_)
    exact not_reaches fun page hlost => hlost.2.1 ⟨hrep, hdef⟩

end

end Async

/-! ## The readers -/

section
variable [Platform]

/-- **Async reads** of a file that a store serves: each reader agrees with the
    sync one when no levels are left in place; columns with levels do not have
    this for all their contents. -/
theorem readColumnAsync_sameOk {store : ObjectStore} {bytes : Bytes} {file : ParquetFile}
    (hserves : store.Serves bytes) (hopen : ParquetFile.open bytes = .ok file) :
    (∃ afile, AsyncParquetFile.open store = .ok afile ∧ ∀ rowGroup column,
      (Async.LevelsHandled (decodeStep (@fixedDecoder Int64 _)) {} file rowGroup column →
        SameOk (readColumnI64Async afile rowGroup column) (readColumnI64 file rowGroup column)) ∧
      (Async.LevelsHandled (decodeStep (@fixedDecoder Int32 _)) {} file rowGroup column →
        SameOk (readColumnI32Async afile rowGroup column) (readColumnI32 file rowGroup column)) ∧
      (Async.LevelsHandled (decodeStep (@fixedDecoder F64 _)) {} file rowGroup column →
        SameOk (readColumnF64Async afile rowGroup column) (readColumnF64 file rowGroup column)) ∧
      (Async.LevelsHandled (decodeStep byteArrayDecoder) {} file rowGroup column →
        SameOk (readColumnByteArrayAsync afile rowGroup column)
          (readColumnByteArray file rowGroup column)) ∧
      (Async.LevelsHandled offsetsStep { out := OffsetsOut.start {} } file rowGroup column →
        SameOk (readColumnByteArrayOffsetsAsync afile rowGroup column)
          (readColumnByteArrayOffsets file rowGroup column))) ∧
    ∀ rep defn : UInt16, (∀ chunk : RawChunk, chunk.maxRepLevel = rep → chunk.maxDefLevel = defn →
      Async.AgreeOn chunk) ↔ rep = 0 ∧ defn = 0 := by
  have hbytes := AsyncParquetFile.bytes_of_open hopen
  subst hbytes
  refine ⟨⟨_, AsyncParquetFile.open_eq hserves hopen, fun rowGroup column => ?_⟩,
    Async.agreeOn_iff⟩
  have hdecode : ∀ {α : Type} {adec : Async.PageDecoder α} {dec : PageDecoder α},
      Async.Mirrors adec dec → Async.LevelsHandled (decodeStep dec) {} file rowGroup column →
      SameOk (Async.decodeChunk adec (.ofFile store file) rowGroup column)
        (decodeChunk dec file rowGroup column) := fun h hlevels =>
    Async.decodeChunk_sameOk DecodeState.out hserves (Async.decodeStep_sameOk h) hlevels
  refine ⟨hdecode Async.mirrors_fixedDecoder, hdecode Async.mirrors_fixedDecoder,
    hdecode Async.mirrors_fixedDecoder, hdecode Async.mirrors_byteArrayDecoder, fun hlevels => ?_⟩
  exact Async.decodeChunk_sameOk OffsetsState.out hserves Async.offsetsStep_sameOk hlevels

end

/-- A REQUIRED column, behind a store that holds its file. -/
theorem readColumnAsync_sameOk_sample : ∃ afile,
    AsyncParquetFile.open (.ofBytes sampleChunkFile.bytes) = .ok afile ∧
      SameOk (@readColumnI64Async Platform.stored afile 0 0)
        (@readColumnI64 Platform.stored sampleChunkFile 0 0) := by
  let _ := Platform.stored
  have hserves : (ObjectStore.ofBytes sampleChunkFile.bytes).Serves sampleChunkFile.bytes :=
    ObjectStore.ofBytes_serves (by decide +kernel)
  obtain ⟨⟨afile, hafile, hreads⟩, -⟩ := readColumnAsync_sameOk hserves open_sampleChunkFile
  refine ⟨afile, hafile, (hreads 0 0).1 fun _ _ _ _ _ _ => ?_⟩
  exact ⟨sampleChunk, readChunkRaw_sampleChunkFile,
    Async.not_reaches fun page hlost => hlost.2.1 ⟨rfl, rfl⟩⟩

/-! ## A file with an OPTIONAL column -/

/-- Two values, after eight bytes of definition levels. -/
def optionalPage : Page :=
  sampleBytesPage .dataPage 2 .plain ([4, 0, 0, 0, 2, 1, 2, 1] ++ encodePlainI64 [10, 11])

/-- The chunk of an optional column. -/
def optionalChunk : RawChunk where
  bytes := writePage optionalPage
  totalValues := 2
  codec := .uncompressed
  maxRepLevel := 0
  maxDefLevel := 1

/-- What its footer says of it. -/
def optionalMetaData : ColumnMetaData :=
  { sampleBytesMetaData with
    columnType := .int64
    encodings := [.plain, .rle]
    numValues := 2
    totalUncompressedSize := Int64.ofNat optionalChunk.bytes.length
    totalCompressedSize := Int64.ofNat optionalChunk.bytes.length }

/-- Its footer. -/
def optionalFooter : FileMetaData where
  version := 1
  schema := [{ name := [0x72], numChildren := some 1 },
    { columnType := some .int64, repetitionType := some .optional, name := [0x61] }]
  numRows := 2
  rowGroups := [{ columns := [{ fileOffset := 4, metaData := some optionalMetaData }],
                  numRows := 2 }]

/-- Its footer, written. -/
def optionalFooterBytes : Bytes := ((writeFileMetadata optionalFooter).toOption).getD []

/-- Its file. -/
def optionalFile : ParquetFile where
  bytes := parquetMagic ++ optionalChunk.bytes ++ optionalFooterBytes
    ++ leBytes 4 optionalFooterBytes.length ++ parquetMagic
  footerBytes := optionalFooterBytes
  footerOffset := 4 + optionalChunk.bytes.length

theorem readChunkRaw_optionalFile : readChunkRaw optionalFile 0 0 = .ok optionalChunk := by
  have hmd : optionalFile.metadata = .ok optionalFooter :=
    ParquetFile.metadata_of_written rfl (by decide +kernel)
  have hlevels : computeMaxLevels optionalFooter.schema 0 = .ok (0, 1) := rfl
  have hbytes : optionalFile.readRange 4 optionalChunk.bytes.length = .ok optionalChunk.bytes := by
    decide +kernel
  have hcm : columnMetaData optionalFooter 0 0 = .ok optionalMetaData := rfl
  rw [readChunkRaw_eq hmd hcm hbytes hlevels]
  rfl

/-- The async reader returns the level bytes as a third value, and first. -/
theorem readColumnI64Async_reads_levels :
    ParquetFile.open optionalFile.bytes = .ok optionalFile ∧
      (ObjectStore.ofBytes optionalFile.bytes).Serves optionalFile.bytes ∧
      AsyncParquetFile.open (.ofBytes optionalFile.bytes)
        = .ok (.ofFile (.ofBytes optionalFile.bytes) optionalFile) ∧
      @readColumnI64 Platform.stored optionalFile 0 0 = .ok [10, 11] ∧
      @readColumnI64Async Platform.stored (.ofFile (.ofBytes optionalFile.bytes) optionalFile) 0 0
        = .ok [72621652092911620, 10, 11] := by
  let _ := Platform.stored
  have hopen : ParquetFile.open optionalFile.bytes = .ok optionalFile :=
    ParquetFile.open_frame (by decide +kernel)
  have hserves : (ObjectStore.ofBytes optionalFile.bytes).Serves optionalFile.bytes :=
    ObjectStore.ofBytes_serves (by decide +kernel)
  refine ⟨hopen, hserves, AsyncParquetFile.open_eq hserves hopen, ?_, ?_⟩
  · rw [readColumnI64, decodeChunk, readChunkRaw_optionalFile]
    rfl
  · rw [readColumnI64Async, Async.decodeChunk,
      Async.readChunkRaw_toAsync hserves readChunkRaw_optionalFile]
    rfl

end EmatixParquet
