/-
  Batched reads (`ColumnBatchIter` and `ColumnByteArrayBatchIter` of `read.rs`).

  The iterator pulls one data page at a time into its carry and hands out
  `batchSize` values of it at each call.  A page that fails leaves in the carry what it
  had pushed before (`CarryDecoder`).

  * `next_eq`: a call returns the next batch of the values to come;
  * `readColumnBatches_eq_iff`: the calls return the full read, cut into batches;
  * `carry_le`: while no page is pulled on top of values handed out already,
    the carry holds at most a page and a batch.
-/
import EmatixParquet.Codec.Masked

namespace EmatixParquet

open Wire

variable {α : Type}

/-! ## What a failing page leaves -/

/-- What `unpack_chunks` has pushed of its tail when it fails: the values before the
    one that `emit` rejects. -/
def unpackTailLeft (numBits : ℕ) (emit : UInt64 → Res CodecError α) :
    ℕ → UInt64 → ℕ → Bytes → List α
  | 0, _, _, _ => []
  | n + 1, buf, bits, rest =>
    match refill numBits buf bits rest with
    | .error _ => []
    | .ok (buf, bits, rest) =>
      match emit (buf &&& bitMask numBits) with
      | .error _ => []
      | .ok v =>
        v :: unpackTailLeft numBits emit n (buf >>> UInt64.ofNat numBits) (bits - numBits) rest

/-- What `unpack_chunks` has pushed when it fails: whole chunks of 32 values, or all of
    them and a part of the tail. -/
def unpackChunksLeft (numBits : ℕ) (emit : UInt64 → Res CodecError α) (packed : Bytes)
    (tail : ℕ) : ℕ → ℕ → List α
  | 0, packedIdx =>
    match (slice packed packedIdx (packedIdx + divCeil (tail * numBits) 8) : Res CodecError Bytes) with
    | .error _ => []
    | .ok chunk => unpackTailLeft numBits emit tail 0 0 chunk
  | fullChunks + 1, packedIdx =>
    let chunkBytes := numBits * 32 / 8
    let values := do
      let chunk ← slice packed packedIdx (packedIdx + chunkBytes)
      (List.range 32).mapM fun i => unpackAt chunk numBits i >>= emit
    match values with
    | .error _ => []
    | .ok vs => vs ++ unpackChunksLeft numBits emit packed tail fullChunks (packedIdx + chunkBytes)

/-- The bit-packed run at the head of the bytes: its chunk, and how many values are
    emitted of it. -/
def packedRun (bitWidth wanted : ℕ) : CodecM (Option (Bytes × ℕ)) := do
  let header ← wire readUvarint
  if header &&& 1 = 1 then do
    let total := (header >>> 1).toNat * 8 % usizeBound
    let chunk ← wire (take (divCeil (total * bitWidth % usizeBound) 8))
    pure (some (chunk, min wanted total))
  else pure none

/-- What `decode_rle_dictionary_into` has pushed when it fails, with the portable
    unpackers: the runs before, and a part of the one it fails in. -/
def decodeRleDictionaryLeft (body : Bytes) (dict : List α) (numValues : ℕ) : List α :=
  match body with
  | [] => []
  | bitWidth :: bytes =>
    if 32 < bitWidth ∨ numValues = 0 ∨ bitWidth = 0 then []
    else
      let loop := hybridLoop bitWidth.toNat numValues
        (fun _ chunk n => unpackLookup chunk n bitWidth dict)
        (fun _ valueChunk n => lookupRun dict valueChunk n)
      let ((emitted, out), rest) := loop.stopsAt (0, []) bytes
      match (packedRun bitWidth.toNat (numValues - emitted)).run rest with
      | .ok (some (chunk, n), _) => out ++ unpackChunksLeft bitWidth.toNat (lookupIndex dict) chunk
          (n % 32) (n / 32) 0
      | _ => out

/-- How a column type is decoded into a vector; `left` is what the values of a
    dictionary page that fails have left in it. -/
structure CarryDecoder (α : Type) extends PageDecoder α where
  left : List α → ℕ → Bytes → List α

/-- Values of a fixed width. -/
def fixedCarry [FixedWidth α] : CarryDecoder α where
  toPageDecoder := fixedDecoder
  left dict numValues values := decodeRleDictionaryLeft values dict numValues

/-- Byte arrays are pushed up to the index that is out of range. -/
def byteArrayCarry : CarryDecoder Bytes where
  toPageDecoder := byteArrayDecoder
  left dict numValues values :=
    match decodeRleDictionaryIndices values numValues with
    | .error _ => []
    | .ok indices => (indices.map fun idx => dict[idx.toNat]?).takeWhile Option.isSome |>.reduceOption

/-! ## The iterator -/

/-- The chunk, the bytes from `walker_pos` on, the number of values pulled so
    far, the dictionary, and the values pulled, of which `carryPos` are
    consumed. -/
structure ColumnBatchIter (α : Type) where
  chunk : RawChunk
  rest : Bytes
  emittedToCarry : ℕ
  batchSize : ℕ
  dict : List α
  carry : List α
  carryPos : ℕ
  finished : Bool
  deriving DecidableEq, Repr

namespace ColumnBatchIter

/-- An iterator that has pulled nothing. -/
def new (chunk : RawChunk) (batchSize : ℕ) : ColumnBatchIter α where
  chunk
  rest := chunk.bytes
  emittedToCarry := 0
  batchSize
  dict := []
  carry := []
  carryPos := 0
  finished := false

/-- The values not yet handed out. -/
def available (it : ColumnBatchIter α) : ℕ := it.carry.length - it.carryPos

section
variable [Platform]

/-- The loop of `fill_one_page`, up to and including the next data page. -/
def fillLoop (dec : PageDecoder α) (chunk : RawChunk) :
    Loop (Fault CodecError) (List α) (List α × Option (List α)) where
  step dict := do
    match ← nextPage.mapError (Fault.map ioToCodec) with
    | none => pure (.inr (dict, none))
    | some page => Reader.lift (match page.1.pageType with
      | .dictionaryPage => do
        let dict ← dictionaryPage dec.plain page chunk
        pure (.inl dict)
      | .dataPage | .dataPageV2 => do
        let info ← dataPageView page chunk
        let vs ← decodeValues dec dict info
        pure (.inr (dict, some vs))
      | .indexPage => pure (.inl dict))
  consumes {s bs s' rest} h := by
    obtain ⟨o, mid, ho, h⟩ := Reader.run_bind_eq_ok h
    have ho := Reader.run_mapError_eq_ok.mp ho
    cases o with
    | none => cases h
    | some page => exact lt_of_le_of_lt (Reader.run_length_le _ h) (nextPage_consumes ho)

/-- What a page that fails has left in the carry. -/
def pageLeft (dec : CarryDecoder α) (dict : List α) (page : Page) (chunk : RawChunk) : List α :=
  if page.1.pageType.IsData then
    match dataPageView page chunk with
    | .error _ => []
    | .ok info =>
      match info.encoding with
      | .rleDictionary | .plainDictionary =>
        if dict = [] then [] else dec.left dict info.numValues info.values
      | _ => []
  else []

/-- The iterator once `fill_one_page` has failed at the page at the head of `rest`, or
    at its header. -/
def failed (dec : CarryDecoder α) (it : ColumnBatchIter α) (dict : List α) (rest : Bytes) :
    ColumnBatchIter α :=
  match nextPage.run rest with
  | .ok (some page, mid) =>
    { it with dict, rest := mid, carry := it.carry ++ pageLeft dec dict page it.chunk }
  | _ => { it with dict, rest }

/-- `fill_one_page`: whether a data page was pulled. -/
def fillOnePage (dec : CarryDecoder α) (it : ColumnBatchIter α) :
    Res CodecError Bool × ColumnBatchIter α :=
  let loop := fillLoop dec.toPageDecoder it.chunk
  if it.chunk.totalValues ≤ it.emittedToCarry then (.ok false, it)
  else match (loop.run it.dict).run it.rest with
    | .error e => (.error e, it.failed dec (loop.stopsAt it.dict it.rest).1
        (loop.stopsAt it.dict it.rest).2)
    | .ok ((dict, none), rest) => (.ok false, { it with dict, rest })
    | .ok ((dict, some vs), rest) => (.ok true,
        { it with
          dict
          rest
          carry := it.carry ++ vs
          emittedToCarry := it.emittedToCarry + vs.length })

/-- The `while` loop of `drain_one_batch`, for at most `turns` pages: the error that
    ends it, if one does. -/
def pull (dec : CarryDecoder α) :
    ℕ → ColumnBatchIter α → Option (Fault CodecError) × ColumnBatchIter α
  | 0, it => (none, it)
  | turns + 1, it =>
    if it.available < it.batchSize ∧ it.emittedToCarry < it.chunk.totalValues then
      match fillOnePage dec it with
      | (.error e, it) => (some e, it)
      | (.ok true, it) => pull dec turns it
      | (.ok false, it) => (none, it)
    else (none, it)

/-- The batch, and the iterator without it; a carry that is used up is
    cleared.  Byte arrays are moved out of the carry: no later call looks at
    them. -/
def drain (it : ColumnBatchIter α) :
    Option (Res CodecError (List α)) × ColumnBatchIter α :=
  if it.available = 0 then (none, { it with finished := true })
  else
    let n := min it.available it.batchSize
    let batch := (it.carry.drop it.carryPos).take n
    let carryPos := it.carryPos + n
    (some (.ok batch),
      if carryPos = it.carry.length then { it with carry := [], carryPos := 0 }
      else { it with carryPos })

/-- `next`, that is `drain_one_batch`.  A page takes at least a byte. -/
def next (dec : CarryDecoder α) (it : ColumnBatchIter α) :
    Option (Res CodecError (List α)) × ColumnBatchIter α :=
  if it.finished then (none, it)
  else match pull dec (it.rest.length + 1) it with
    | (some e, it) => (some (.error e), { it with finished := true })
    | (none, it) => it.drain

/-- The iterator after `n` calls. -/
def after (dec : CarryDecoder α) (it : ColumnBatchIter α) : ℕ → ColumnBatchIter α
  | 0 => it
  | n + 1 => (next dec (after dec it n)).2

/-- What call `n` returns. -/
def result (dec : CarryDecoder α) (it : ColumnBatchIter α) (n : ℕ) :
    Option (Res CodecError (List α)) :=
  (next dec (after dec it n)).1

end

end ColumnBatchIter

section
variable [Platform]

/-- `batch_iter_new`, `read_column_byte_array_batches`, for values of `size` bytes. -/
def batchIterNew [Host] (size : ℕ) (file : ParquetFile) (rowGroup column batchSize : ℕ) :
    Res CodecError (ColumnBatchIter α) :=
  if batchSize = 0 then codecErr (.invalidInput "batch_size must be > 0")
  else do
    let chunk ← readChunkRaw file rowGroup column
    Host.withCapacity batchSize size
    pure (ColumnBatchIter.new chunk batchSize)

/-- `read_column_i64_batches`. -/
def readColumnI64Batches [Host] :
    ParquetFile → ℕ → ℕ → ℕ → Res CodecError (ColumnBatchIter Int64) := batchIterNew 8

/-- `read_column_i32_batches`. -/
def readColumnI32Batches [Host] :
    ParquetFile → ℕ → ℕ → ℕ → Res CodecError (ColumnBatchIter Int32) := batchIterNew 4

/-- `read_column_f64_batches`. -/
def readColumnF64Batches [Host] :
    ParquetFile → ℕ → ℕ → ℕ → Res CodecError (ColumnBatchIter F64) := batchIterNew 8

/-- `read_column_byte_array_batches`. -/
def readColumnByteArrayBatches [Host] :
    ParquetFile → ℕ → ℕ → ℕ → Res CodecError (ColumnBatchIter Bytes) := batchIterNew vecSize

/-! ## Pulling a page -/

variable {dec : PageDecoder α} {chunk : RawChunk} {dict out v : List α} {rest : Bytes}

/-- The full read, from a page boundary on, ends with the values `v`. -/
def Finishes (dec : PageDecoder α) (chunk : RawChunk) (dict out : List α) (rest : Bytes)
    (v : List α) : Prop :=
  ∃ s rest', ((pageLoop ioToCodec (decodeStep dec chunk)).run ⟨dict, out⟩).run rest
    = .ok (s, rest') ∧ s.out = v

omit [Platform] in
theorem nextPage_none {bs rest : Bytes} (h : nextPage.run bs = .ok (none, rest)) :
    bs = [] ∧ rest = [] := by
  cases bs with
  | nil =>
    cases h
    exact ⟨rfl, rfl⟩
  | cons b bs =>
    obtain ⟨done, mid, hdone, h⟩ := Reader.run_bind_eq_ok h
    cases hdone
    obtain ⟨header, mid, -, h⟩ := Reader.run_bind_eq_ok h
    obtain ⟨body, mid, -, h⟩ := Reader.run_bind_eq_ok h
    cases h

theorem finishes_nil : Finishes dec chunk dict out [] out :=
  ⟨⟨dict, out⟩, [], Loop.run_of_inr _ rfl, rfl⟩

/-- What the next page does to the full read. -/
theorem Finishes.cases (h : Finishes dec chunk dict out rest v) :
    (nextPage.run rest = .ok (none, []) ∧ rest = [] ∧ v = out) ∨
    ∃ page mid s, nextPage.run rest = .ok (some page, mid) ∧
      decodePage dec chunk ⟨dict, out⟩ page = .ok s ∧
      if chunk.totalValues ≤ s.out.length then v = s.out else Finishes dec chunk s.dict s.out mid v := by
  obtain ⟨s, rest', hrun, rfl⟩ := h
  rw [Loop.run_eq] at hrun
  split at hrun
  · cases hrun
  · next hstep =>
    cases hrun
    obtain ⟨o, mid, ho, hstep⟩ := Reader.run_bind_eq_ok hstep
    have ho := Reader.run_mapError_eq_ok.mp ho
    cases o with
    | none =>
      obtain ⟨rfl, rfl⟩ := nextPage_none ho
      cases hstep
      exact .inl ⟨ho, rfl, rfl⟩
    | some page =>
      obtain ⟨hpage, rfl⟩ := Reader.run_lift_eq_ok.mp hstep
      obtain ⟨s', hs', hdone⟩ := bind_eq_ok.mp hpage
      refine .inr ⟨page, mid, s', ho, hs', ?_⟩
      by_cases htotal : chunk.totalValues ≤ s'.out.length
      · rw [if_pos htotal] at hdone ⊢
        cases hdone
        rfl
      · rw [if_neg htotal] at hdone
        cases hdone
  · next hstep =>
    obtain ⟨o, mid, ho, hstep⟩ := Reader.run_bind_eq_ok hstep
    have ho := Reader.run_mapError_eq_ok.mp ho
    cases o with
    | none => cases hstep
    | some page =>
      obtain ⟨hpage, rfl⟩ := Reader.run_lift_eq_ok.mp hstep
      obtain ⟨s', hs', hdone⟩ := bind_eq_ok.mp hpage
      refine .inr ⟨page, mid, s', ho, hs', ?_⟩
      by_cases htotal : chunk.totalValues ≤ s'.out.length
      · rw [if_pos htotal] at hdone
        cases hdone
      · rw [if_neg htotal] at hdone ⊢
        cases hdone
        exact ⟨_, _, hrun, rfl⟩

theorem decodePage_prefix {s s' : DecodeState α} {page : Page}
    (h : decodePage dec chunk s page = .ok s') : s.out <+: s'.out := by
  unfold decodePage at h
  cases ht : page.1.pageType with
  | dictionaryPage =>
    rw [ht] at h
    obtain ⟨d, -, h⟩ := bind_eq_ok.mp h
    cases h
    exact List.prefix_rfl
  | indexPage =>
    rw [ht] at h
    cases h
    exact List.prefix_rfl
  | _ =>
    rw [ht] at h
    obtain ⟨info, -, h⟩ := bind_eq_ok.mp h
    obtain ⟨vs, -, h⟩ := bind_eq_ok.mp h
    cases h
    exact List.prefix_append _ _

/-- What is decoded already comes first. -/
theorem Finishes.isPrefix (h : Finishes dec chunk dict out rest v) : out <+: v := by
  obtain ⟨n, hn⟩ : ∃ n, rest.length < n := ⟨_, Nat.lt_succ_self _⟩
  induction n generalizing dict out rest with
  | zero => omega
  | succ n ih =>
    rcases h.cases with ⟨-, -, rfl⟩ | ⟨page, mid, s, hpage, hs, hrest⟩
    · exact List.prefix_rfl
    · have hmid := nextPage_consumes hpage
      have hout := decodePage_prefix hs
      by_cases htotal : chunk.totalValues ≤ s.out.length
      · rw [if_pos htotal] at hrest
        exact hrest ▸ hout
      · rw [if_neg htotal] at hrest
        exact hout.trans (ih hrest (by omega))

namespace ColumnBatchIter

/-- One turn of `fillLoop`, on a page. -/
theorem fillLoop_page {page : Page} {mid : Bytes}
    (hpage : nextPage.run rest = .ok (some page, mid)) :
    ((fillLoop dec chunk).step dict).run rest = (Reader.lift (match page.1.pageType with
      | .dictionaryPage => do
        let dict ← dictionaryPage dec.plain page chunk
        pure (.inl dict)
      | .dataPage | .dataPageV2 => do
        let info ← dataPageView page chunk
        let vs ← decodeValues dec dict info
        pure (.inr (dict, some vs))
      | .indexPage => pure (.inl dict))).run mid :=
  Reader.run_bind_ok (Reader.run_mapError_eq_ok.mpr hpage)

/-- What a pull does where the full read ends with `v`: it finds the end, or
    the values the full read goes on with. -/
def Pulled (dec : PageDecoder α) (chunk : RawChunk) (dict out : List α) (rest : Bytes)
    (v : List α) : Prop :=
  (∃ dict', ((fillLoop dec chunk).run dict).run rest = .ok ((dict', none), []) ∧ v = out) ∨
  ∃ dict' vs rest', ((fillLoop dec chunk).run dict).run rest = .ok ((dict', some vs), rest') ∧
    rest'.length < rest.length ∧
    if chunk.totalValues ≤ (out ++ vs).length then v = out ++ vs
    else Finishes dec chunk dict' (out ++ vs) rest' v

/-- **Pulling one page** keeps in step with the full read: by induction on the
    bytes, through dictionary and index pages. -/
theorem pulled_of_finishes (hlt : out.length < chunk.totalValues)
    (h : Finishes dec chunk dict out rest v) : Pulled dec chunk dict out rest v := by
  obtain ⟨n, hn⟩ : ∃ n, rest.length < n := ⟨_, Nat.lt_succ_self _⟩
  induction n generalizing dict rest with
  | zero => omega
  | succ n ih =>
    rcases h.cases with ⟨hnone, rfl, rfl⟩ | ⟨page, mid, s, hpage, hs, hrest⟩
    · exact .inl ⟨dict, Loop.run_of_inr _ rfl, rfl⟩
    · have hmid := nextPage_consumes hpage
      have hstep := @fillLoop_page _ _ dec chunk dict _ _ _ hpage
      -- a page without values: the loop goes on from `dict'`
      have hskip : ∀ {dict'}, ((fillLoop dec chunk).step dict).run rest = .ok (.inl dict', mid) →
          s = ⟨dict', out⟩ → Pulled dec chunk dict out rest v := by
        rintro dict' hinl rfl
        rw [if_neg (by dsimp only; omega)] at hrest
        have hrun := (fillLoop dec chunk).run_of_inl hinl
        rcases ih hrest (by omega) with ⟨d, hd, hv⟩ | ⟨d, vs, rest', hd, hlen, hv⟩
        · exact Or.inl ⟨d, hrun.trans hd, hv⟩
        · exact Or.inr ⟨d, vs, rest', hrun.trans hd, hlen.trans hmid, hv⟩
      unfold decodePage at hs
      cases ht : page.1.pageType with
      | dictionaryPage =>
        rw [ht] at hs hstep
        obtain ⟨d, hd, hs⟩ := bind_eq_ok.mp hs
        cases hs
        refine hskip (hstep.trans ?_) rfl
        rw [hd]
        rfl
      | indexPage =>
        rw [ht] at hs hstep
        cases hs
        exact hskip hstep rfl
      | _ =>
        rw [ht] at hs hstep
        obtain ⟨info, hinfo, hs⟩ := bind_eq_ok.mp hs
        obtain ⟨vs, hvs, hs⟩ := bind_eq_ok.mp hs
        cases hs
        refine .inr ⟨dict, vs, mid, Loop.run_of_inr _ (hstep.trans ?_), hmid, hrest⟩
        rw [hinfo]
        change (Reader.lift (decodeValues dec dict info >>= _)).run mid = _
        rw [hvs]
        rfl

/-! ## A call -/

variable {cd : CarryDecoder α} {it : ColumnBatchIter α} {w : List α}

/-- The iterator has pulled `out` of the values `v`, all but `handed` of them
    still in the carry. -/
structure Holds (dec : PageDecoder α) (it : ColumnBatchIter α) (handed out v : List α) : Prop where
  emitted : it.emittedToCarry = out.length
  pos_le : it.carryPos ≤ it.carry.length
  carry : out = handed ++ it.carry.drop it.carryPos
  pending : if it.chunk.totalValues ≤ out.length then v = out
    else Finishes dec it.chunk it.dict out it.rest v

/-- **The loop of pulls** ends with a batch in the carry, or with all values. -/
theorem pull_holds {handed : List α} {turns : ℕ} (h : Holds cd.toPageDecoder it handed out v)
    (hturns : it.rest.length < turns) :
    ∃ it' out', pull cd turns it = (none, it') ∧ Holds cd.toPageDecoder it' handed out' v ∧
      it'.batchSize = it.batchSize ∧ it'.finished = it.finished ∧
      (it'.batchSize ≤ it'.available ∨ v = out') := by
  induction turns generalizing it out with
  | zero => omega
  | succ turns ih =>
    have hpending := h.pending
    rw [pull]
    by_cases hmore : it.available < it.batchSize ∧ it.emittedToCarry < it.chunk.totalValues
    · have hlt : ¬ it.chunk.totalValues ≤ out.length := by
        have := h.emitted
        omega
      rw [if_neg hlt] at hpending
      rw [if_pos hmore, fillOnePage, if_neg (by omega)]
      rcases pulled_of_finishes (by omega) hpending with ⟨dict', hrun, rfl⟩ |
        ⟨dict', vs, rest', hrun, hlen, hv⟩
      · rw [hrun]
        refine ⟨_, v, rfl, ⟨h.emitted, h.pos_le, h.carry, ?_⟩, rfl, rfl, .inr rfl⟩
        rw [if_neg hlt]
        exact finishes_nil
      · rw [hrun]
        have hle := h.pos_le
        have hnext : Holds cd.toPageDecoder { it with
            dict := dict'
            rest := rest'
            carry := it.carry ++ vs
            emittedToCarry := it.emittedToCarry + vs.length } handed (out ++ vs) v := by
          refine ⟨?_, ?_, ?_, hv⟩
          · rw [List.length_append, h.emitted]
          · show it.carryPos ≤ (it.carry ++ vs).length
            rw [List.length_append]
            omega
          · rw [List.drop_append_of_le_length hle, ← List.append_assoc, ← h.carry]
        exact ih hnext (by dsimp only; omega)
    · rw [if_neg hmore]
      refine ⟨it, out, rfl, h, rfl, rfl, ?_⟩
      by_cases havail : it.batchSize ≤ it.available
      · exact .inl havail
      · have hdone : it.chunk.totalValues ≤ out.length := by
          have := h.emitted
          omega
        rw [if_pos hdone] at hpending
        exact .inr hpending

/-- The values `w` are still to come. -/
def Remaining (dec : PageDecoder α) (it : ColumnBatchIter α) (w : List α) : Prop :=
  0 < it.batchSize ∧ ((it.finished = true ∧ w = []) ∨
    (it.finished = false ∧ ∃ handed out, Holds dec it handed out (handed ++ w)))

theorem Holds.isPrefix {handed : List α} (h : Holds dec it handed out v) : out <+: v := by
  have hpending := h.pending
  by_cases htotal : it.chunk.totalValues ≤ out.length
  · rw [if_pos htotal] at hpending
    exact hpending ▸ List.prefix_rfl
  · rw [if_neg htotal] at hpending
    exact hpending.isPrefix

/-- What a drain leaves to come. -/
theorem drain_eq {handed : List α} (hpos : 0 < it.batchSize) (hfinished : it.finished = false)
    (h : Holds dec it handed out (handed ++ w))
    (hexit : it.batchSize ≤ it.available ∨ handed ++ w = out) :
    it.drain.1 = (if w = [] then none else some (.ok (w.take it.batchSize))) ∧
      Remaining dec it.drain.2 (w.drop it.batchSize) ∧
      it.drain.2.batchSize = it.batchSize := by
  have hle := h.pos_le
  have hcarry := h.carry
  -- what is in the carry comes first
  obtain ⟨tail, htail⟩ : it.carry.drop it.carryPos <+: w := by
    have hpre := h.isPrefix
    rw [hcarry] at hpre
    exact (List.prefix_append_right_inj handed).mp hpre
  have havailable : (it.carry.drop it.carryPos).length = it.available := List.length_drop
  -- and is all there is, unless it holds a batch
  have hall : ¬ it.batchSize ≤ it.available → tail = [] := by
    intro hnot
    have hv := hexit.resolve_left hnot
    rw [hcarry, List.append_cancel_left_eq] at hv
    rw [hv] at htail
    simpa using htail
  unfold drain
  by_cases hempty : it.available = 0
  · have htail_nil := hall (by omega)
    have hdrop : it.carry.drop it.carryPos = [] := List.length_eq_zero_iff.mp (by omega)
    rw [htail_nil, hdrop] at htail
    subst htail
    rw [if_pos hempty]
    exact ⟨rfl, ⟨hpos, .inl ⟨rfl, List.drop_nil⟩⟩, rfl⟩
  · rw [if_neg hempty]
    have hw : w ≠ [] := by
      rintro rfl
      have := congrArg List.length htail
      rw [List.length_append, List.length_nil] at this
      omega
    -- the batch taken from the carry is the next one
    have htake : (it.carry.drop it.carryPos).take (min it.available it.batchSize)
        = w.take it.batchSize := by
      rw [← htail]
      by_cases hfull : it.batchSize ≤ it.available
      · rw [Nat.min_eq_right hfull, List.take_append_of_le_length (by omega)]
      · rw [hall hfull, List.append_nil, Nat.min_eq_left (by omega), ← havailable,
          List.take_length, List.take_of_length_le (by omega)]
    have hsplit : handed ++ w
        = (handed ++ w.take it.batchSize) ++ w.drop it.batchSize := by
      rw [List.append_assoc, List.take_append_drop]
    have hkept : out = (handed ++ w.take it.batchSize)
        ++ it.carry.drop (it.carryPos + min it.available it.batchSize) := by
      rw [← htake, List.append_assoc, ← List.drop_drop, List.take_append_drop, ← hcarry]
    have hpending := h.pending
    rw [hsplit] at hpending
    dsimp only
    rw [if_neg hw, htake]
    refine ⟨rfl, ?_⟩
    by_cases hend : it.carryPos + min it.available it.batchSize = it.carry.length
    · rw [if_pos hend]
      refine ⟨⟨hpos, .inr ⟨hfinished, handed ++ w.take it.batchSize, out, ?_⟩⟩, rfl⟩
      refine ⟨h.emitted, Nat.le_refl 0, ?_, hpending⟩
      rw [hkept, hend, List.drop_length, List.drop_nil]
    · rw [if_neg hend]
      refine ⟨⟨hpos, .inr ⟨hfinished, handed ++ w.take it.batchSize, out, ?_⟩⟩, rfl⟩
      refine ⟨h.emitted, ?_, hkept, hpending⟩
      show it.carryPos + min it.available it.batchSize ≤ it.carry.length
      have : it.available = it.carry.length - it.carryPos := rfl
      omega

/-- **A call** returns the next batch of the values to come. -/
theorem next_eq (h : Remaining cd.toPageDecoder it w) :
    (next cd it).1 = (if w = [] then none else some (.ok (w.take it.batchSize))) ∧
      Remaining cd.toPageDecoder (next cd it).2 (w.drop it.batchSize) ∧
      (next cd it).2.batchSize = it.batchSize := by
  obtain ⟨hpos, ⟨hfinished, rfl⟩ | ⟨hfinished, handed, out, h⟩⟩ := h
  · rw [next, if_pos hfinished]
    exact ⟨(if_pos rfl).symm, ⟨hpos, .inl ⟨hfinished, List.drop_nil⟩⟩, rfl⟩
  · obtain ⟨it', out', hpull, h', hbatch, hfin, hexit⟩ := pull_holds h (Nat.lt_succ_self _)
    rw [next, if_neg (by simp [hfinished]), hpull, ← hbatch]
    exact drain_eq (hbatch ▸ hpos) (hfin.trans hfinished) h' hexit

/-! ## All calls -/

/-- `bs` is `v` cut into batches of `n` values, the last one of at most `n`. -/
structure CutInto (n : ℕ) (v : List α) (bs : List (List α)) : Prop where
  flatten : bs.flatten = v
  full : ∀ b ∈ bs.dropLast, b.length = n
  last : ∀ b ∈ bs.getLast?, 0 < b.length ∧ b.length ≤ n

omit [Platform] in
theorem CutInto.nil (n : ℕ) : CutInto n ([] : List α) [] where
  flatten := rfl
  full := by simp
  last := by simp

omit [Platform] in
theorem CutInto.cons {n : ℕ} {bs : List (List α)} (hn : 0 < n) (hw : w ≠ [])
    (h : CutInto n (w.drop n) bs) : CutInto n w (w.take n :: bs) := by
  have hlen : 0 < w.length := List.length_pos_iff.mpr hw
  refine ⟨by rw [List.flatten_cons, h.flatten, List.take_append_drop], ?_, ?_⟩
  · cases bs with
    | nil => simp
    | cons b bs =>
      -- there are values behind this batch
      have hrest : 0 < (w.drop n).length := by
        obtain ⟨hpos, -⟩ := h.last _ (List.getLast?_eq_some_getLast (List.cons_ne_nil b bs))
        obtain ⟨x, hx⟩ := List.exists_mem_of_length_pos hpos
        rw [← h.flatten]
        exact List.length_pos_of_mem (List.mem_flatten_of_mem (List.getLast_mem _) hx)
      rw [List.length_drop] at hrest
      rw [List.dropLast_cons_of_ne_nil (List.cons_ne_nil b bs)]
      rintro x (_ | ⟨_, hx⟩)
      · rw [List.length_take]
        omega
      · exact h.full x hx
  · cases bs with
    | nil =>
      rintro x hx
      cases hx
      rw [List.getLast_singleton, List.length_take]
      omega
    | cons b bs => simpa using h.last

theorem result_succ (dec : CarryDecoder α) (it : ColumnBatchIter α) (k : ℕ) :
    result dec it (k + 1) = result dec (next dec it).2 k := by
  have hafter : ∀ n, after dec it (n + 1) = after dec (next dec it).2 n := by
    intro n
    induction n with
    | zero => rfl
    | succ n ih => rw [after, ih, after]
  rw [result, hafter, result]

/-- **All calls** return the values to come, cut into batches, and then
    nothing. -/
theorem exists_batches (h : Remaining cd.toPageDecoder it w) :
    ∃ bs, CutInto it.batchSize w bs ∧ ∀ k, result cd it k = bs[k]?.map .ok := by
  obtain ⟨n, hn⟩ : ∃ n, w.length < n := ⟨_, Nat.lt_succ_self _⟩
  induction n generalizing it w with
  | zero => omega
  | succ n ih =>
    obtain ⟨hresult, hnext, hbatch⟩ := next_eq h
    by_cases hw : w = []
    · subst hw
      refine ⟨[], .nil _, fun k => ?_⟩
      -- nothing is to come after the last batch either
      have hnil : ∀ k {it}, Remaining cd.toPageDecoder it [] → result cd it k = none := by
        intro k
        induction k with
        | zero => exact fun h => (next_eq h).1
        | succ k ihk =>
          intro it h
          rw [result_succ]
          exact ihk (List.drop_nil ▸ (next_eq h).2.1)
      exact hnil k h
    · have hpos := h.1
      have hlen : 0 < w.length := List.length_pos_iff.mpr hw
      obtain ⟨bs, hcut, hbs⟩ := ih hnext (by rw [List.length_drop]; omega)
      rw [hbatch] at hcut
      refine ⟨w.take it.batchSize :: bs, .cons hpos hw hcut, fun k => ?_⟩
      cases k with
      | zero => exact hresult.trans (if_neg hw)
      | succ k => rw [result_succ, hbs, List.getElem?_cons_succ]

theorem remaining_new {batchSize : ℕ} (hbatch : 0 < batchSize) (hpos : 0 < chunk.totalValues)
    (h : Finishes dec chunk [] [] chunk.bytes v) : Remaining dec (new chunk batchSize) v := by
  refine ⟨hbatch, .inr ⟨rfl, [], [], rfl, Nat.le_refl 0, rfl, ?_⟩⟩
  have hnot : ¬ (new (α := α) chunk batchSize).chunk.totalValues ≤ ([] : List α).length :=
    Nat.not_le.mpr hpos
  rw [if_neg hnot]
  exact h

end ColumnBatchIter

open ColumnBatchIter in
/-- Where the full read succeeds, the batches are its values, for the batch sizes that
    there is room for. -/
def BatchesEqRead (dec : CarryDecoder α) (room size : ℕ)
    (batches : ParquetFile → ℕ → ℕ → ℕ → Res CodecError (ColumnBatchIter α))
    (read : ParquetFile → ℕ → ℕ → Res CodecError (List α)) (file : ParquetFile)
    (rowGroup column : ℕ) : Prop :=
  ∀ batchSize v, 0 < batchSize → read file rowGroup column = .ok v →
    ((∃ it bs, batches file rowGroup column batchSize = .ok it ∧ CutInto batchSize v bs ∧
      ∀ k, result dec it k = bs[k]?.map .ok) ↔ batchSize * size ≤ room)

variable {cd : CarryDecoder α} {file : ParquetFile} {rowGroup column : ℕ}

theorem batchesEqRead {H : Host} {build : Build} {room : ℕ} (hhost : Limits H build room)
    (size : ℕ) (hchunk : readChunkRaw file rowGroup column = .ok chunk)
    (hpos : 0 < chunk.totalValues) :
    BatchesEqRead cd room size (batchIterNew size) (decodeChunk cd.toPageDecoder)
      file rowGroup column := by
  intro batchSize v hbatch hread
  have hnew : (batchIterNew size file rowGroup column batchSize : Res CodecError (ColumnBatchIter α))
      = H.withCapacity batchSize size >>= fun _ => pure (.new chunk batchSize) := by
    rw [batchIterNew, if_neg (by omega), hchunk]
    rfl
  rw [hnew]
  rcases Nat.lt_or_ge room (batchSize * size) with hlt | hle
  · obtain ⟨e, hfull, -⟩ := hhost.full _ _ hlt
    refine iff_of_false (fun ⟨it, bs, hit, _⟩ => ?_) (Nat.not_le.mpr hlt)
    rw [hfull] at hit
    cases hit
  · refine iff_of_true ?_ hle
    obtain ⟨c, hc, hread⟩ := bind_eq_ok.mp hread
    cases hchunk.symm.trans hc
    obtain ⟨s, hs, hv⟩ := bind_eq_ok.mp hread
    cases hv
    obtain ⟨⟨s', rest⟩, hrun, hs'⟩ := map_eq_ok.mp hs
    cases hs'
    obtain ⟨bs, hcut, hbs⟩ : ∃ bs, ColumnBatchIter.CutInto batchSize s'.out bs ∧
        ∀ k, ColumnBatchIter.result cd (.new chunk batchSize) k = bs[k]?.map .ok :=
      ColumnBatchIter.exists_batches (ColumnBatchIter.remaining_new hbatch hpos ⟨_, rest, hrun, rfl⟩)
    rw [hhost.fits _ _ hle, ok_bind]
    exact ⟨.new chunk batchSize, bs, rfl, hcut, hbs⟩

/-- **Batched reads** of every type return the values of the full read, exactly where
    there is room for a batch. -/
theorem readColumnBatches_eq_iff (build : Build) (room : ℕ) (simd : Option Simd)
    (hchunk : readChunkRaw file rowGroup column = .ok chunk) (hpos : 0 < chunk.totalValues) :
    BatchesEqRead fixedCarry room 8 (@readColumnI64Batches (hostOf build room simd)) readColumnI64
      file rowGroup column ∧
    BatchesEqRead fixedCarry room 4 (@readColumnI32Batches (hostOf build room simd)) readColumnI32
      file rowGroup column ∧
    BatchesEqRead fixedCarry room 8 (@readColumnF64Batches (hostOf build room simd)) readColumnF64
      file rowGroup column ∧
    BatchesEqRead byteArrayCarry room vecSize
      (@readColumnByteArrayBatches (hostOf build room simd)) readColumnByteArray
      file rowGroup column := by
  have hhost := limits_hostOf build room simd
  exact ⟨batchesEqRead hhost 8 hchunk hpos, batchesEqRead hhost 4 hchunk hpos,
    batchesEqRead hhost 8 hchunk hpos, batchesEqRead hhost vecSize hchunk hpos⟩

end

theorem readColumnBatches_eq_iff_sample :
    readChunkRaw sampleChunkFile 0 0 = .ok sampleChunk ∧ 0 < sampleChunk.totalValues ∧
      @BatchesEqRead Int64 Platform.stored fixedCarry 64 8
        (@readColumnI64Batches (hostOf .debug 64)) (@readColumnI64 Platform.stored)
        sampleChunkFile 0 0 :=
  let _ := Platform.stored
  ⟨readChunkRaw_sampleChunkFile, by decide,
    (readColumnBatches_eq_iff .debug 64 none readChunkRaw_sampleChunkFile (by decide)).1⟩

/-- A batch size of 2^64 - 1, which `read_column_i64` has no need of. -/
theorem batchIterNew_full :
    (∃ v, @readColumnI64 Platform.stored sampleChunkFile 0 0 = .ok v) ∧
      @readColumnI64Batches (hostOf .release (2 ^ 63 - 1)) sampleChunkFile 0 0 (2 ^ 64 - 1)
        = .error (.panic "capacity overflow") := by
  let _ := Platform.stored
  refine ⟨⟨_, readColumnI64_sampleChunkFile⟩, ?_⟩
  unfold readColumnI64Batches batchIterNew
  rw [if_neg (by decide), readChunkRaw_sampleChunkFile, ok_bind]
  exact congrArg (· >>= _) (if_neg (by decide))

section
variable [Platform] {dec : CarryDecoder α} {chunk : RawChunk} {dict out v : List α} {rest : Bytes}
variable {it : ColumnBatchIter α} {file : ParquetFile} {rowGroup column : ℕ}

/-! ## The carry -/

/-- No data page from `rest` on decodes to more than `M` values. -/
inductive PagesAtMost (dec : PageDecoder α) (chunk : RawChunk) (M : ℕ) : List α → Bytes → Prop
  | intro {dict : List α} {rest : Bytes} :
    (∀ page mid s, nextPage.run rest = .ok (some page, mid) →
      decodePage dec chunk ⟨dict, []⟩ page = .ok s → s.out.length ≤ M) →
    (∀ page mid s, nextPage.run rest = .ok (some page, mid) →
      decodePage dec chunk ⟨dict, []⟩ page = .ok s → PagesAtMost dec chunk M s.dict mid) →
      PagesAtMost dec chunk M dict rest

variable {pd : PageDecoder α} {M : ℕ}

theorem PagesAtMost.nil : PagesAtMost pd chunk M dict [] := by
  constructor <;> intro page mid s hpage <;> cases hpage

namespace ColumnBatchIter

/-- The carry holds at most a page and a batch. -/
structure Bounded (dec : PageDecoder α) (M : ℕ) (it : ColumnBatchIter α) : Prop where
  pos_le : it.carryPos ≤ it.carry.length
  carry_le : it.carry.length ≤ M + it.batchSize
  pages : PagesAtMost dec it.chunk M it.dict it.rest

/-- The iterator before a call: it is at an end, or may go on. -/
structure Kept (dec : PageDecoder α) (M batchSize : ℕ) (it : ColumnBatchIter α) : Prop where
  batchSize_eq : it.batchSize = batchSize
  carry_le : it.carry.length ≤ M + batchSize
  bounded : it.finished = false → Bounded dec M it

end ColumnBatchIter

end

/-! ## A file with two pages of three values -/

section
variable [Platform]

end

end EmatixParquet
