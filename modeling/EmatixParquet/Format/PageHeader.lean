/-
  Page headers — the writers of `metadata_writer.rs` for page headers and
  statistics, and their round trip.

  * `parses_statistics`, `parses_dataPageHeader`, `parses_dictionaryPageHeader`,
    `parses_dataPageHeaderV2`: each sub-header is read back;
  * `parses_pageHeader`: so is the page header, and the reader stops at the
    first byte of the page body.
-/
import EmatixParquet.Format.Metadata

namespace EmatixParquet

open Wire

/-! ## Writers -/

/-- `encode_statistics`. -/
def encodeStatistics (s : Statistics) : Bytes :=
  StructWriter.new
    |>.opt 1 .binary writeBinary s.max
    |>.opt 2 .binary writeBinary s.min
    |>.opt 3 .i64 writeZigzagI64 s.nullCount
    |>.opt 4 .i64 writeZigzagI64 s.distinctCount
    |>.opt 5 .binary writeBinary s.maxValue
    |>.opt 6 .binary writeBinary s.minValue
    |>.optBool 7 s.isMaxValueExact
    |>.optBool 8 s.isMinValueExact
    |>.stop

/-- `encode_data_page_header`. -/
def encodeDataPageHeader (dph : DataPageHeader) : Bytes :=
  StructWriter.new
    |>.field 1 .i32 (writeZigzagI32 dph.numValues)
    |>.field 2 .i32 (writeThriftEnum dph.encoding)
    |>.field 3 .i32 (writeThriftEnum dph.definitionLevelEncoding)
    |>.field 4 .i32 (writeThriftEnum dph.repetitionLevelEncoding)
    |>.opt 5 .struct encodeStatistics dph.statistics
    |>.stop

/-- `encode_dictionary_page_header`. -/
def encodeDictionaryPageHeader (dictph : DictionaryPageHeader) : Bytes :=
  StructWriter.new
    |>.field 1 .i32 (writeZigzagI32 dictph.numValues)
    |>.field 2 .i32 (writeThriftEnum dictph.encoding)
    |>.optBool 3 dictph.isSorted
    |>.stop

/-- `is_compressed` is only written when false: absent means true. -/
def encodeDataPageHeaderV2 (dph : DataPageHeaderV2) : Bytes :=
  StructWriter.new
    |>.field 1 .i32 (writeZigzagI32 dph.numValues)
    |>.field 2 .i32 (writeZigzagI32 dph.numNulls)
    |>.field 3 .i32 (writeZigzagI32 dph.numRows)
    |>.field 4 .i32 (writeThriftEnum dph.encoding)
    |>.field 5 .i32 (writeZigzagI32 dph.definitionLevelsByteLength)
    |>.field 6 .i32 (writeZigzagI32 dph.repetitionLevelsByteLength)
    |>.optBool 7 (if dph.isCompressed then none else some false)
    |>.opt 8 .struct encodeStatistics dph.statistics
    |>.stop

/-- `encode_page_header`. -/
def encodePageHeader (hdr : PageHeader) : Bytes :=
  StructWriter.new
    |>.field 1 .i32 (writeThriftEnum hdr.pageType)
    |>.field 2 .i32 (writeZigzagI32 hdr.uncompressedPageSize)
    |>.field 3 .i32 (writeZigzagI32 hdr.compressedPageSize)
    |>.opt 4 .i32 writeZigzagI32 hdr.crc
    |>.opt 5 .struct encodeDataPageHeader hdr.dataPageHeader
    |>.opt 6 .struct (fun _ => writeStop) hdr.indexPageHeader
    |>.opt 7 .struct encodeDictionaryPageHeader hdr.dictionaryPageHeader
    |>.opt 8 .struct encodeDataPageHeaderV2 hdr.dataPageHeaderV2
    |>.stop

/-- `write_page_header`. -/
def writePageHeader (hdr : PageHeader) : Bytes := encodePageHeader hdr

/-! ## Round trips -/

theorem parses_statistics (s : Statistics) :
    ReadsBack readStatistics (encodeStatistics s) s := by
  have h0 : Wrote readStatisticsStep {} .new {} := Wrote.new
  have h1 := h0.opt 1 .binary (fun a o => { a with max := o }) s.max rfl
    fun x => parses_map _ (parses_binary x)
  have h2 := h1.opt 2 .binary (fun a o => { a with min := o }) s.min rfl
    fun x => parses_map _ (parses_binary x)
  have h3 := h2.opt 3 .i64 (fun a o => { a with nullCount := o }) s.nullCount rfl
    fun x => parses_map _ (parses_zigzagI64 x)
  have h4 := h3.opt 4 .i64 (fun a o => { a with distinctCount := o }) s.distinctCount rfl
    fun x => parses_map _ (parses_zigzagI64 x)
  have h5 := h4.opt 5 .binary (fun a o => { a with maxValue := o }) s.maxValue rfl
    fun x => parses_map _ (parses_binary x)
  have h6 := h5.opt 6 .binary (fun a o => { a with minValue := o }) s.minValue rfl
    fun x => parses_map _ (parses_binary x)
  have h7 := h6.optBool 7 (fun a o => { a with isMaxValueExact := o }) s.isMaxValueExact rfl rfl rfl
  have h8 := h7.optBool 8 (fun a o => { a with isMinValueExact := o }) s.isMinValueExact rfl rfl rfl
  exact h8.stop

theorem parses_dataPageHeader (dph : DataPageHeader) :
    ReadsBack readDataPageHeader (encodeDataPageHeader dph) dph := by
  have h0 : Wrote readDataPageHeaderStep {} .new {} := Wrote.new
  have h1 := h0.field 1 .i32 (parses_map _ (parses_zigzagI32 dph.numValues))
  have h2 := h1.field 2 .i32 (parses_map _ (parses_thriftEnum dph.encoding))
  have h3 := h2.field 3 .i32 (parses_map _ (parses_thriftEnum dph.definitionLevelEncoding))
  have h4 := h3.field 4 .i32 (parses_map _ (parses_thriftEnum dph.repetitionLevelEncoding))
  have h5 := h4.opt 5 .struct (fun a o => { a with statistics := o }) dph.statistics rfl
    fun x => parses_map _ (parses_statistics x)
  exact h5.finish rfl

theorem parses_dictionaryPageHeader (dictph : DictionaryPageHeader) :
    ReadsBack readDictionaryPageHeader (encodeDictionaryPageHeader dictph) dictph := by
  have h0 : Wrote readDictionaryPageHeaderStep {} .new {} := Wrote.new
  have h1 := h0.field 1 .i32 (parses_map _ (parses_zigzagI32 dictph.numValues))
  have h2 := h1.field 2 .i32 (parses_map _ (parses_thriftEnum dictph.encoding))
  have h3 := h2.optBool 3 (fun a o => { a with isSorted := o }) dictph.isSorted rfl rfl rfl
  exact h3.finish rfl

theorem parses_dataPageHeaderV2 (dph : DataPageHeaderV2) :
    ReadsBack readDataPageHeaderV2 (encodeDataPageHeaderV2 dph) dph := by
  have h0 : Wrote readDataPageHeaderV2Step {} .new {} := Wrote.new
  have h1 := h0.field 1 .i32 (parses_map _ (parses_zigzagI32 dph.numValues))
  have h2 := h1.field 2 .i32 (parses_map _ (parses_zigzagI32 dph.numNulls))
  have h3 := h2.field 3 .i32 (parses_map _ (parses_zigzagI32 dph.numRows))
  have h4 := h3.field 4 .i32 (parses_map _ (parses_thriftEnum dph.encoding))
  have h5 := h4.field 5 .i32 (parses_map _ (parses_zigzagI32 dph.definitionLevelsByteLength))
  have h6 := h5.field 6 .i32 (parses_map _ (parses_zigzagI32 dph.repetitionLevelsByteLength))
  -- an absent flag reads as `true`, the default of the accumulator
  have h7 := h6.optBool 7 (fun a o => { a with isCompressed := o.getD true })
    (if dph.isCompressed then none else some false) rfl rfl rfl
  have h8 := h7.opt 8 .struct (fun a o => { a with statistics := o }) dph.statistics rfl
    fun x => parses_map _ (parses_statistics x)
  refine h8.finish ?_
  obtain ⟨_, _, _, _, _, _, isCompressed, _⟩ := dph
  cases isCompressed
  · rfl
  · rfl

/-- **Page header round trip.** -/
theorem parses_pageHeader (hdr : PageHeader) :
    ReadsBack readPageHeader (writePageHeader hdr) hdr := by
  have h0 : Wrote readPageHeaderStep {} .new {} := Wrote.new
  have h1 := h0.field 1 .i32 (parses_map _ (parses_thriftEnum hdr.pageType))
  have h2 := h1.field 2 .i32 (parses_map _ (parses_zigzagI32 hdr.uncompressedPageSize))
  have h3 := h2.field 3 .i32 (parses_map _ (parses_zigzagI32 hdr.compressedPageSize))
  have h4 := h3.opt 4 .i32 (fun a o => { a with crc := o }) hdr.crc rfl
    fun x => parses_map _ (parses_zigzagI32 x)
  have h5 := h4.opt 5 .struct (fun a o => { a with dph := o }) hdr.dataPageHeader rfl
    fun x => parses_map _ (parses_dataPageHeader x)
  have h6 := h5.opt 6 .struct (fun a o => { a with iph := o }) hdr.indexPageHeader rfl
    fun _ => parses_map _ (parses_map _ (parses_emptyStruct "IndexPageHeader"))
  have h7 := h6.opt 7 .struct (fun a o => { a with dictph := o }) hdr.dictionaryPageHeader rfl
    fun x => parses_map _ (parses_dictionaryPageHeader x)
  have h8 := h7.opt 8 .struct (fun a o => { a with v2 := o }) hdr.dataPageHeaderV2 rfl
    fun x => parses_map _ (parses_dataPageHeaderV2 x)
  exact h8.finish rfl

/-- **A page header is read back**, and the cursor stops exactly at the first
    byte of the page body.  The header is a `Vec<u8>`, shorter than `2 ^ 64`. -/
theorem readPageHeader_writePageHeader (hdr : PageHeader)
    (hlen : (writePageHeader hdr).length < 2 ^ 64) (t : Bytes) :
    readPageHeader.run (writePageHeader hdr ++ t) = .ok (hdr, t) :=
  parses_pageHeader hdr hlen t

/-- A data page header with statistics. -/
def samplePageHeader : PageHeader where
  pageType := .dataPage
  uncompressedPageSize := 24
  compressedPageSize := 24
  crc := some (-1)
  dataPageHeader := some { numValues := 3, encoding := .plain,
                           definitionLevelEncoding := .rle, repetitionLevelEncoding := .rle,
                           statistics := some { minValue := some [1, 0], isMinValueExact := some true } }
  indexPageHeader := none
  dictionaryPageHeader := none
  dataPageHeaderV2 := none

theorem readPageHeader_samplePageHeader :
    (writePageHeader samplePageHeader).length < 2 ^ 64 ∧
      readPageHeader.run (writePageHeader samplePageHeader ++ [0xFF])
        = .ok (samplePageHeader, [0xFF]) :=
  ⟨by decide, readPageHeader_writePageHeader samplePageHeader (by decide) [0xFF]⟩

end EmatixParquet
