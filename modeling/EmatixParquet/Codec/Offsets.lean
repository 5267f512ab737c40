/-
  BYTE_ARRAY columns read whole, as flat bytes with offsets
  (`read_column_byte_array_offsets` of `read.rs`).

  The dictionary is flat too; offsets are `u32`s and wrap.  The walk over PLAIN
  values and the look-up in the flat dictionary are shared with the async
  reader, up to the errors they raise.
-/
import EmatixParquet.Codec.MaskedBytes

namespace EmatixParquet

open Wire

variable {ε : Type}

/-- The flat dictionary of the chunk so far, and the output. -/
structure OffsetsState where
  dictBytes : Bytes := []
  dictOffsets : List UInt32 := [0]
  out : OffsetsOut := {}

/-- The dictionary page, flattened. -/
def OffsetsState.withDict (s : OffsetsState) (slices : List Bytes) : OffsetsState :=
  { s with dictBytes := slices.flatten, dictOffsets := 0 :: offsetsFrom 0 slices }

/-- A value's bytes and the offset after it. -/
def pushValue (s : OffsetsOut × UInt32) (value : Bytes) : OffsetsOut × UInt32 :=
  let acc := s.2 + UInt32.ofNat value.length
  ({ bytes := s.1.bytes ++ value, offsets := s.1.offsets ++ [acc] }, acc)

/-- `while i < body.len() && emitted < cap_target`. -/
def plainOffsets (invalid : String → ε) :
    ℕ → Bytes → OffsetsOut × UInt32 → Res ε (OffsetsOut × UInt32)
  | 0, _, s => .ok s
  | n + 1, body, s =>
    if body = [] then .ok s
    else if body.length < 4 then .error (.err (invalid "PLAIN byte_array: truncated length prefix"))
    else
      let len := leNat (body.take 4)
      let rest := body.drop 4
      if rest.length < len then
        .error (.err (invalid "PLAIN byte_array: value runs past page end"))
      else plainOffsets invalid n (rest.drop len) (pushValue s (rest.take len))

/-- The bytes of entry `idx` of the flat dictionary. -/
def dictEntry (invalid : String → ε) (s : OffsetsState) (idx : UInt32) : Res ε Bytes :=
  match s.dictOffsets[idx.toNat]?, s.dictOffsets[idx.toNat + 1]? with
  | some lo, some hi => slice s.dictBytes lo.toNat hi.toNat
  | _, _ => .error (.err (invalid "dictionary index out of range"))

/-- `out_offsets.len() > total_values`. -/
def OffsetsState.next (s : OffsetsState) (total : ℕ) : OffsetsState ⊕ OffsetsState :=
  if total < s.out.offsets.length then .inr s else .inl s

/-- The values of a data page, appended.  A first pass over the indices checks
    them all. -/
def offsetsValues (s : OffsetsState) (info : DataPageInfo) : Res CodecError OffsetsOut :=
  match info.encoding with
  | .plain => do
    let acc ← s.out.running
    let out ← plainOffsets .invalidInput info.numValues info.values (s.out, acc)
    pure out.1
  | .rleDictionary | .plainDictionary =>
    if s.dictOffsets.length < 2 then
      codecErr (.invalidInput "dict-encoded data page before dictionary")
    else do
      let indices ← decodeRleDictionaryIndices info.values info.numValues
      let entries ← indices.mapM (dictEntry .invalidInput s)
      let acc ← s.out.running
      pure (entries.foldl pushValue (s.out, acc)).1
  | other => codecErr (.unsupported s!"encoding not yet dispatched by façade: {other.debug}")

section
variable [Platform]

/-- What one page does to the state. -/
def offsetsPage (chunk : RawChunk) (s : OffsetsState) (page : Page) :
    Res CodecError OffsetsState :=
  match page.1.pageType with
  | .dictionaryPage => s.withDict <$> dictionaryPage decodePlainByteArray page chunk
  | .dataPage | .dataPageV2 => do
    let info ← dataPageView page chunk
    let out ← offsetsValues s info
    pure { s with out }
  | .indexPage => .ok s

/-- The body of the loop of `read_column_byte_array_offsets_into`. -/
def offsetsStep (chunk : RawChunk) (s : OffsetsState) (page : Page) :
    Res CodecError (OffsetsState ⊕ OffsetsState) := do
  let s ← offsetsPage chunk s page
  pure (s.next chunk.totalValues)

/-- `read_column_byte_array_offsets`: the bytes and the offsets. -/
def readColumnByteArrayOffsets (file : ParquetFile) (rowGroup column : ℕ) :
    Res CodecError OffsetsOut := do
  let chunk ← readChunkRaw file rowGroup column
  let s ← walkPages ioToCodec (offsetsStep chunk) { out := OffsetsOut.start {} } chunk.bytes
  pure s.out

end

end EmatixParquet
