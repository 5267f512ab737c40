/-
  Byte-array columns at the rows of a mask (`read.rs`), as owned values or as
  flat bytes with offsets.

  The two readers are one loop over the pages that differ in how a page appends
  its selected values (`MaskedAppend`).  `Appends` says what that must be for
  the loop to select from what `read_column_byte_array` returns.

  * `sparseByteArrayRows_eq`: the walk over length prefixes pushes the selected
    values of the page;
  * `ownedAppend_appends`, `offsetsAppend_appends`: both outputs satisfy
    `Appends`;
  * `byteArray_lockstep`: the masked loop against the full one;
  * `readColumnByteArrayMasked_filters`: both masked readers, for every mask and
    every earlier output, and two calls one after the other.
-/
import EmatixParquet.Codec.Masked

namespace EmatixParquet

open Wire

variable {β σ : Type}

/-! ## Rows of a page -/

/-- What the loops over rows do with one row: its value is pushed when its bit
    is set. -/
def pushRow (mask : Bytes) (push : σ → β → Res CodecError σ) (bitPos : ℕ) (out : σ) (x : β) :
    Res CodecError σ := do
  if ← bitmapBit mask bitPos then push out x else pure out

/-- The rows from `bitPos` on. -/
def pushRows (mask : Bytes) (push : σ → β → Res CodecError σ) :
    ℕ → σ → List β → Res CodecError σ
  | _, out, [] => .ok out
  | bitPos, out, x :: xs => do
    let out ← pushRow mask push bitPos out x
    pushRows mask push (bitPos + 1) out xs

/-- `for row in 0..num_values`: the length prefixes are walked one after the
    other. -/
def sparseByteArrayRows (mask : Bytes) (push : σ → Bytes → Res CodecError σ) :
    ℕ → ℕ → σ → CodecM σ
  | 0, _, out => pure out
  | n + 1, bitPos, out => do
    let len ← readU32Le
    let value ← wire (take len)
    let out ← Reader.lift (pushRow mask push bitPos out value)
    sparseByteArrayRows mask push n (bitPos + 1) out

/-- `plain_sparse_decode_byte_array_into`. -/
def plainSparseDecodeByteArray (bytes : Bytes) (numValues : ℕ) (mask : Bytes)
    (bitmapOffset : ℕ) (out : List Bytes) : Res CodecError (List Bytes) :=
  (·.1) <$> (sparseByteArrayRows mask (fun out value => .ok (out ++ [value])) numValues
    bitmapOffset out).run bytes

/-! ## Offsets -/

/-- `out_bytes` and `out_offsets`. -/
structure OffsetsOut where
  bytes : Bytes := []
  offsets : List UInt32 := []
  deriving DecidableEq, Repr

namespace OffsetsOut

/-- The initial `0`. -/
def start (out : OffsetsOut) : OffsetsOut :=
  if out.offsets = [] then { out with offsets := [0] } else out

/-- `*out_offsets.last().unwrap()`. -/
def running (out : OffsetsOut) : Res CodecError UInt32 :=
  match out.offsets.getLast? with
  | some offset => .ok offset
  | none => .error (.panic "unwrap on a None value")

end OffsetsOut

/-- A value's bytes and its offset; `what` is the loop that pushes it. -/
def pushOffset (what : String) (s : OffsetsOut × UInt32) (value : Bytes) :
    Res CodecError (OffsetsOut × UInt32) :=
  let len := UInt32.ofNat value.length
  if s.2.toNat + len.toNat < 2 ^ 32 then
    .ok ({ bytes := s.1.bytes ++ value, offsets := s.1.offsets ++ [s.2 + len] }, s.2 + len)
  else codecErr (.invalidInput s!"byte_array {what}: offset overflow > u32::MAX")

/-- `plain_sparse_decode_byte_array_offsets_into`. -/
def plainSparseDecodeByteArrayOffsets (bytes : Bytes) (numValues : ℕ) (mask : Bytes)
    (bitmapOffset : ℕ) (out : OffsetsOut) : Res CodecError OffsetsOut := do
  let out := out.start
  let running ← out.running
  let s ← (sparseByteArrayRows mask (pushOffset "sparse-decode") numValues bitmapOffset
    (out, running)).run bytes
  pure s.1.1

/-- The index loop of `read_column_byte_array_offsets_masked_into`. -/
def expandIndices (dict : List Bytes) (values : Bytes) (pageN : ℕ) (mask : Bytes)
    (rowCursor : ℕ) (out : OffsetsOut) : Res CodecError OffsetsOut := do
  let indices ← decodeRleDictionaryIndices values pageN
  let running ← out.running
  let push := fun s (idx : UInt32) => do
    let v ← lookupIndex dict idx.toUInt64
    pushOffset "masked-decode" s v
  let s ← pushRows mask push rowCursor (out, running) indices
  pure s.1

/-! ## The masked readers -/

/-- How a data page appends its selected values: PLAIN, and through the
    dictionary. -/
structure MaskedAppend (σ : Type) where
  plain : Bytes → ℕ → Bytes → ℕ → σ → Res CodecError σ
  dict : List Bytes → Bytes → ℕ → Bytes → ℕ → σ → Res CodecError σ

/-- `Vec<Vec<u8>>`. -/
def ownedAppend : MaskedAppend (List Bytes) where
  plain := plainSparseDecodeByteArray
  dict dict values pageN mask rowCursor out :=
    (out ++ ·) <$> gatherDictAtBitmap values pageN mask rowCursor dict

/-- Flat bytes and offsets. -/
def offsetsAppend : MaskedAppend OffsetsOut where
  plain := plainSparseDecodeByteArrayOffsets
  dict := expandIndices

/-- A page's rows appended in the form of the output, by the page's encoding. -/
def MaskedAppend.page (app : MaskedAppend σ) (dict : List Bytes) (info : DataPageInfo) (pageN : ℕ)
    (mask : Bytes) (rowCursor : ℕ) (out : σ) : Res CodecError σ :=
  match info.encoding with
  | .plain => app.plain info.values pageN mask rowCursor out
  | .rleDictionary | .plainDictionary =>
    if dict = [] then codecErr (.invalidInput "dict-encoded data page before dictionary")
    else app.dict dict info.values pageN mask rowCursor out
  | other => codecErr (.unsupported s!"encoding not yet dispatched by façade: {other.debug}")

/-- The dictionary, the row the next data page begins at, and the output. -/
structure ByteArrayState (σ : Type) where
  dict : List Bytes := []
  rowCursor : ℕ := 0
  out : σ

/-- Past the last row the loop ends. -/
def ByteArrayState.next (s : ByteArrayState σ) (total : ℕ) :
    ByteArrayState σ ⊕ ByteArrayState σ :=
  if total ≤ s.rowCursor then .inr s else .inl s

section
variable [Platform]

/-- A data page: skipped without decompressing when none of its rows is
    selected. -/
def byteArrayMaskedPage (app : MaskedAppend σ) (chunk : RawChunk) (mask : Bytes)
    (s : ByteArrayState σ) (page : Page) :
    Res CodecError (ByteArrayState σ ⊕ ByteArrayState σ) := do
  let pageN ← dataPageNumValues page.1
  let next := s.rowCursor + pageN
  let matched ← popcountRange mask s.rowCursor next
  if matched = 0 then pure (ByteArrayState.next { s with rowCursor := next } chunk.totalValues)
  else
    let info ← dataPageView page chunk
    let out ← app.page s.dict info pageN mask s.rowCursor s.out
    pure (ByteArrayState.next { s with rowCursor := next, out } chunk.totalValues)

/-- The body of the page loop of both readers. -/
def byteArrayMaskedStep (app : MaskedAppend σ) (chunk : RawChunk) (mask : Bytes)
    (s : ByteArrayState σ) (page : Page) :
    Res CodecError (ByteArrayState σ ⊕ ByteArrayState σ) :=
  match page.1.pageType with
  | .dictionaryPage => do
    let dict ← dictionaryPage decodePlainByteArray page chunk
    pure (.inl { s with dict })
  | .dataPage | .dataPageV2 => byteArrayMaskedPage app chunk mask s page
  | .indexPage => .ok (.inl s)

/-- What the two readers share; `start` is the output the loop begins with. -/
def byteArrayMasked (app : MaskedAppend σ) (start : σ → σ) (file : ParquetFile)
    (rowGroup column : ℕ) (mask : Bytes) (out : σ) : Res CodecError σ := do
  let chunk ← readChunkRaw file rowGroup column
  let requiredMaskBytes := divCeil chunk.totalValues 8
  if mask.length < requiredMaskBytes then codecErr (.invalidInput
    s!"mask too small: {mask.length} bytes for {chunk.totalValues} rows (need ≥ {requiredMaskBytes})")
  else
    let s ← walkPages ioToCodec (byteArrayMaskedStep app chunk mask) { out := start out } chunk.bytes
    pure s.out

/-- `read_column_byte_array_masked_into`: the new content of `out`. -/
def readColumnByteArrayMasked : ParquetFile → ℕ → ℕ → Bytes → List Bytes →
    Res CodecError (List Bytes) :=
  byteArrayMasked ownedAppend id

/-- `read_column_byte_array_offsets_masked_into`: the new content of
    `out_bytes` and `out_offsets`. -/
def readColumnByteArrayOffsetsMasked : ParquetFile → ℕ → ℕ → Bytes → OffsetsOut →
    Res CodecError OffsetsOut :=
  byteArrayMasked offsetsAppend OffsetsOut.start

end

/-! ## Pushing the selected rows -/

theorem pushRows_eq {mask : Bytes} (push : σ → β → Res CodecError σ) {bitPos : ℕ} {out : σ}
    {xs : List β} (hcover : bitPos + xs.length ≤ 8 * mask.length) :
    pushRows mask push bitPos out xs
      = (selectFrom (leNat mask).testBit bitPos xs).foldlM push out := by
  induction xs generalizing bitPos out with
  | nil => rfl
  | cons x xs ih =>
    rw [List.length_cons] at hcover
    rw [pushRows, pushRow, bitmapBit_eq _ (by omega), selectFrom]
    cases (leNat mask).testBit bitPos with
    | false => exact ih (by omega)
    | true =>
      rw [if_pos rfl, List.foldlM_cons]
      change (push out x >>= _) = _
      congr 1
      funext out'
      exact ih (by omega)

/-- The values of a PLAIN page, at the front of its bytes. -/
theorem byteArrayLoop_cons {bytes rest : Bytes} {out vs : List Bytes} (hne : bytes ≠ [])
    (h : (byteArrayLoop.run out).run bytes = .ok (vs, rest)) :
    ∃ len value mid mid', readU32Le.run bytes = .ok (len, mid) ∧
      (wire (take len)).run mid = .ok (value, mid') ∧
      (byteArrayLoop.run (out ++ [value])).run mid' = .ok (vs, rest) := by
  have hstep : (byteArrayLoop.step out).run bytes = (do
      let len ← readU32Le
      let value ← wire (take len)
      pure (.inl (out ++ [value])) : CodecM (List Bytes ⊕ List Bytes)).run bytes :=
    Reader.run_atEnd_of_ne_nil _ hne
  rw [Loop.run_eq, hstep, Reader.run_bind] at h
  cases hlen : readU32Le.run bytes with
  | error e => simp [hlen] at h
  | ok p =>
    obtain ⟨len, mid⟩ := p
    simp only [hlen, Reader.run_bind] at h
    cases hvalue : (wire (take len)).run mid with
    | error e => simp [hvalue] at h
    | ok p =>
      obtain ⟨value, mid'⟩ := p
      simp only [hvalue, Reader.run_pure] at h
      exact ⟨len, value, mid, mid', rfl, hvalue, h⟩

/-- By induction on the bytes: what the full loop appends is what the sparse
    walk offers, row by row. -/
theorem byteArrayLoop_rows {bytes rest : Bytes} {out vs : List Bytes}
    (h : (byteArrayLoop.run out).run bytes = .ok (vs, rest)) :
    ∃ ws, vs = out ++ ws ∧ ∀ (mask : Bytes) (push : σ → Bytes → Res CodecError σ) bitPos o,
      (·.1) <$> (sparseByteArrayRows mask push ws.length bitPos o).run bytes
        = pushRows mask push bitPos o ws := by
  obtain ⟨n, hn⟩ : ∃ n, bytes.length < n := ⟨_, Nat.lt_succ_self _⟩
  induction n generalizing bytes out with
  | zero => omega
  | succ n ih =>
    by_cases hne : bytes = []
    · subst hne
      rw [@Loop.run_of_inr _ _ _ byteArrayLoop out out [] [] rfl] at h
      cases h
      exact ⟨[], by simp, fun _ _ _ _ => rfl⟩
    · obtain ⟨len, value, mid, mid', hlen, hvalue, hrest⟩ := byteArrayLoop_cons hne h
      have hlt := readU32Le_consumes hlen
      have hle := Reader.run_length_le _ hvalue
      obtain ⟨ws, hvs, hrows⟩ := ih hrest (by omega)
      refine ⟨value :: ws, by simp [hvs], fun mask push bitPos o => ?_⟩
      rw [List.length_cons, sparseByteArrayRows, Reader.run_bind_ok hlen,
        Reader.run_bind_ok hvalue, pushRows]
      cases hpush : pushRow mask push bitPos o value with
      | error e => rfl
      | ok o' => exact hrows mask push (bitPos + 1) o'

/-- **The sparse walk** pushes the values of the page whose bits are set. -/
theorem sparseByteArrayRows_eq {bytes mask : Bytes} {vs : List Bytes}
    (push : σ → Bytes → Res CodecError σ) {bitPos : ℕ} (out : σ)
    (h : decodePlainByteArray bytes = .ok vs) (hcover : bitPos + vs.length ≤ 8 * mask.length) :
    (·.1) <$> (sparseByteArrayRows mask push vs.length bitPos out).run bytes
      = (selectFrom (leNat mask).testBit bitPos vs).foldlM push out := by
  obtain ⟨⟨vs', rest⟩, hrun, rfl⟩ := map_eq_ok.mp h
  obtain ⟨ws, hvs, hrows⟩ := byteArrayLoop_rows (σ := σ) hrun
  rw [List.nil_append] at hvs
  subst hvs
  rw [hrows, pushRows_eq push hcover]

/-! ## Offsets of a list of values -/

/-- The offsets where the values end, the first of them at `n`. -/
def offsetsFrom : ℕ → List Bytes → List UInt32
  | _, [] => []
  | n, v :: vs => UInt32.ofNat (n + v.length) :: offsetsFrom (n + v.length) vs

namespace OffsetsOut

/-- The output, continued with values. -/
def append (out : OffsetsOut) (vs : List Bytes) : OffsetsOut where
  bytes := out.bytes ++ vs.flatten
  offsets := out.start.offsets ++ offsetsFrom out.bytes.length vs

/-- Both empty, or the offsets end at the length of the bytes. -/
def Continues (out : OffsetsOut) : Prop :=
  out.bytes = [] ∧ out.offsets = [] ∨
    out.bytes.length < 2 ^ 32 ∧ out.offsets.getLast? = some (UInt32.ofNat out.bytes.length)

/-- There is room for the values' offsets. -/
def Fits (out : OffsetsOut) (vs : List Bytes) : Prop :=
  out.bytes.length + vs.flatten.length < 2 ^ 32

instance (out : OffsetsOut) (vs : List Bytes) : Decidable (out.Fits vs) :=
  inferInstanceAs (Decidable (_ < _))

/-- Past the initial `0`. -/
def Started (out : OffsetsOut) : Prop :=
  out.offsets.getLast? = some (UInt32.ofNat out.bytes.length)

variable {out : OffsetsOut}

theorem start_offsets_ne_nil (out : OffsetsOut) : out.start.offsets ≠ [] := by
  rw [start]
  split
  · simp
  · assumption

@[simp] theorem start_bytes (out : OffsetsOut) : out.start.bytes = out.bytes := by
  rw [start]
  split <;> rfl

theorem start_eq_self (h : out.offsets ≠ []) : out.start = out := if_neg h

theorem start_started (h : out.Continues) : out.start.Started := by
  rcases h with ⟨hbytes, hoffsets⟩ | ⟨-, hlast⟩
  · simp [Started, start, hbytes, hoffsets]
  · rwa [start_eq_self]
    rintro hnil
    simp [hnil] at hlast

theorem Started.start_eq (h : out.Started) : out.start = out := by
  refine start_eq_self fun hnil => ?_
  simp [Started, hnil] at h

theorem Started.running_eq (h : out.Started) :
    out.running = .ok (UInt32.ofNat out.bytes.length) := by
  rw [running, h]

theorem start_append (out : OffsetsOut) (vs : List Bytes) : out.start.append vs = out.append vs := by
  rw [append, append, start_eq_self (start_offsets_ne_nil out), start_bytes]

theorem Started.append_nil (h : out.Started) : out.append [] = out := by
  simp [append, offsetsFrom, h.start_eq]

end OffsetsOut

theorem offsetsFrom_append (n : ℕ) (xs ys : List Bytes) :
    offsetsFrom n (xs ++ ys) = offsetsFrom n xs ++ offsetsFrom (n + xs.flatten.length) ys := by
  induction xs generalizing n with
  | nil => simp [offsetsFrom]
  | cons x xs ih => simp [offsetsFrom, ih, Nat.add_assoc]

/-- Continuing an output twice. -/
theorem OffsetsOut.append_append (out : OffsetsOut) (xs ys : List Bytes) :
    (out.append xs).append ys = out.append (xs ++ ys) := by
  have hne : (out.append xs).offsets ≠ [] := by
    simp [append, start_offsets_ne_nil]
  rw [append, start_eq_self hne]
  simp [append, offsetsFrom_append, List.append_assoc]

theorem getLast?_append_offsetsFrom {offsets : List UInt32} {n : ℕ} (vs : List Bytes)
    (h : offsets.getLast? = some (UInt32.ofNat n)) :
    (offsets ++ offsetsFrom n vs).getLast? = some (UInt32.ofNat (n + vs.flatten.length)) := by
  induction vs generalizing offsets n with
  | nil => simpa [offsetsFrom] using h
  | cons v vs ih =>
    have hrest := @ih (offsets ++ [UInt32.ofNat (n + v.length)]) (n + v.length) (by simp)
    rw [List.append_assoc] at hrest
    rw [offsetsFrom, List.flatten_cons, List.length_append, ← Nat.add_assoc]
    exact hrest

theorem OffsetsOut.Started.append {out : OffsetsOut} (h : out.Started) (vs : List Bytes) :
    (out.append vs).Started := by
  rw [Started, OffsetsOut.append, h.start_eq, List.length_append]
  exact getLast?_append_offsetsFrom vs h

/-- **Pushing values** continues the offsets, when they fit. -/
theorem foldlM_pushOffset (what : String) {out : OffsetsOut} {vs : List Bytes}
    (hstarted : out.Started) (hfits : out.Fits vs) :
    vs.foldlM (pushOffset what) (out, UInt32.ofNat out.bytes.length)
      = .ok (out.append vs, UInt32.ofNat (out.append vs).bytes.length) := by
  induction vs generalizing out with
  | nil =>
    rw [hstarted.append_nil]
    rfl
  | cons v vs ih =>
    rw [OffsetsOut.Fits, List.flatten_cons, List.length_append] at hfits
    have hlast : (UInt32.ofNat out.bytes.length).toNat = out.bytes.length :=
      UInt32.toNat_ofNat_of_lt' (show out.bytes.length < 2 ^ 32 by omega)
    have hlen : (UInt32.ofNat v.length).toNat = v.length :=
      UInt32.toNat_ofNat_of_lt' (show v.length < 2 ^ 32 by omega)
    have hone : out.append [v] = { bytes := out.bytes ++ v, offsets := out.offsets
        ++ [UInt32.ofNat out.bytes.length + UInt32.ofNat v.length] } := by
      simp [OffsetsOut.append, offsetsFrom, hstarted.start_eq, UInt32.ofNat_add]
    have hpush : pushOffset what (out, UInt32.ofNat out.bytes.length) v
        = .ok (out.append [v], UInt32.ofNat (out.append [v]).bytes.length) := by
      rw [pushOffset, hone]
      dsimp only
      rw [if_pos (by omega), List.length_append, UInt32.ofNat_add]
    have hnext := ih (hstarted.append [v]) (by
      simp only [OffsetsOut.Fits, OffsetsOut.append, List.length_append, List.flatten_cons,
        List.flatten_nil, List.append_nil]
      omega)
    rw [OffsetsOut.append_append] at hnext
    rw [List.foldlM_cons, hpush]
    exact hnext

/-! ## What the outputs append -/

/-- On an output with room for them (`fits`), the selected values of a page are
    appended (`emit`). -/
structure Appends (app : MaskedAppend σ) (fits : σ → List Bytes → Prop)
    (emit : σ → List Bytes → σ) : Prop where
  emit_nil : ∀ {out}, fits out [] → emit out [] = out
  emit_append : ∀ out xs ys, emit (emit out xs) ys = emit out (xs ++ ys)
  fits_append : ∀ {out xs ys}, fits out (xs ++ ys) → fits out xs ∧ fits (emit out xs) ys
  plain : ∀ {values vs mask row out}, decodePlainByteArray values = .ok vs →
    row + vs.length ≤ 8 * mask.length → fits out (selectFrom (leNat mask).testBit row vs) →
    app.plain values vs.length mask row out = .ok (emit out (selectFrom (leNat mask).testBit row vs))
  dict : ∀ {dict values n indices mask row out},
    decodeRleDictionaryIndices values n = .ok indices → NoEmptyRun values n →
    (∀ v ∈ indices, v.toNat < dict.length) → indices.length = n →
    row + n ≤ 8 * mask.length →
    fits out (selectFrom (leNat mask).testBit row (entries dict indices)) →
    app.dict dict values n mask row out
      = .ok (emit out (selectFrom (leNat mask).testBit row (entries dict indices)))

theorem foldlM_owned (out vs : List Bytes) :
    vs.foldlM (fun out value => (.ok (out ++ [value]) : Res CodecError (List Bytes))) out
      = .ok (out ++ vs) := by
  induction vs generalizing out with
  | nil => simp [pure, Except.pure]
  | cons v vs ih =>
    rw [List.foldlM_cons]
    change vs.foldlM _ (out ++ [v]) = _
    rw [ih, List.append_assoc]
    rfl

theorem ownedAppend_appends : Appends ownedAppend (fun _ _ => True) (· ++ ·) where
  emit_nil _ := List.append_nil _
  emit_append := List.append_assoc
  fits_append _ := ⟨trivial, trivial⟩
  plain {values vs mask row out} h hcover _ := by
    exact (sparseByteArrayRows_eq _ out h hcover).trans (foldlM_owned out _)
  dict {dict values n indices mask row out} h hruns hdict _ hcover _ := by
    have hgather := (gatherDictAtBitmap_eq hcover (decodeRleDictionary_of_indices h hruns hdict)).1
    change (out ++ ·) <$> gatherDictAtBitmap values n mask row dict = _
    rw [hgather]
    rfl

/-- Indices are looked up only where a row is selected. -/
theorem foldlM_entries {dict : List Bytes} {indices : List UInt32} (what : String)
    (bit : ℕ → Bool) (row : ℕ) (s : OffsetsOut × UInt32)
    (hdict : ∀ v ∈ indices, v.toNat < dict.length) :
    (selectFrom bit row indices).foldlM (fun s (idx : UInt32) => do
        let v ← lookupIndex dict idx.toUInt64
        pushOffset what s v) s
      = (selectFrom bit row (entries dict indices)).foldlM (pushOffset what) s := by
  induction indices generalizing row s with
  | nil => rfl
  | cons idx indices ih =>
    rw [List.forall_mem_cons] at hdict
    have hget : dict[idx.toNat]? = some dict[idx.toNat] := List.getElem?_eq_getElem hdict.1
    have hlookup : lookupIndex dict idx.toUInt64 = .ok dict[idx.toNat] := by
      rw [lookupIndex_eq_ok, UInt32.toNat_toUInt64, hget]
    rw [entries_cons hget, selectFrom, selectFrom]
    cases bit row with
    | false => exact ih (row + 1) s hdict.2
    | true =>
      rw [if_pos rfl, if_pos rfl, List.foldlM_cons, List.foldlM_cons, hlookup]
      change (pushOffset what s dict[idx.toNat] >>= _) = _
      congr 1
      funext s'
      exact ih (row + 1) s' hdict.2

theorem offsetsAppend_appends :
    Appends offsetsAppend (fun out vs => out.Started ∧ out.Fits vs) OffsetsOut.append where
  emit_nil h := h.1.append_nil
  emit_append := OffsetsOut.append_append
  fits_append {out xs ys} h := by
    obtain ⟨hstarted, hfits⟩ := h
    rw [OffsetsOut.Fits, List.flatten_append, List.length_append] at hfits
    refine ⟨⟨hstarted, ?_⟩, hstarted.append xs, ?_⟩
    · rw [OffsetsOut.Fits]
      omega
    · simp only [OffsetsOut.Fits, OffsetsOut.append, List.length_append]
      omega
  plain {values vs mask row out} h hcover hfits := by
    have hrows := sparseByteArrayRows_eq (pushOffset "sparse-decode")
      (out, UInt32.ofNat out.bytes.length) h hcover
    rw [foldlM_pushOffset _ hfits.1 hfits.2] at hrows
    obtain ⟨⟨s, rest⟩, hs, hout⟩ := map_eq_ok.mp hrows
    simp only [offsetsAppend, plainSparseDecodeByteArrayOffsets, hfits.1.start_eq,
      hfits.1.running_eq]
    change ((sparseByteArrayRows _ _ _ _ _).run values >>= _) = _
    rw [hs]
    change Except.ok s.1 = _
    rw [show s = _ from hout]
  dict {dict values n indices mask row out} h hruns hdict hlen hcover hfits := by
    subst hlen
    have hrows := @pushRows_eq _ _ mask (fun s (idx : UInt32) => do
        let v ← lookupIndex dict idx.toUInt64
        pushOffset "masked-decode" s v)
      row (out, UInt32.ofNat out.bytes.length) indices hcover
    rw [foldlM_entries _ _ _ _ hdict, foldlM_pushOffset _ hfits.1 hfits.2] at hrows
    simp only [offsetsAppend, expandIndices, h, hfits.1.running_eq]
    change (pushRows _ _ _ _ indices >>= _) = _
    rw [hrows]
    rfl

/-! ## Pages -/

theorem MaskedAppend.page_dict (app : MaskedAppend σ) {dict : List Bytes} {info : DataPageInfo}
    (he : info.encoding = .rleDictionary ∨ info.encoding = .plainDictionary) (hne : dict ≠ [])
    (pageN : ℕ) (mask : Bytes) (row : ℕ) (out : σ) :
    app.page dict info pageN mask row out = app.dict dict info.values pageN mask row out := by
  unfold MaskedAppend.page
  rcases he with he | he
  all_goals
    rw [he]
    exact if_neg hne

theorem decodeByteArrays_eq_ok {dict vs : List Bytes} {info : DataPageInfo}
    (h : decodeValues byteArrayDecoder dict info = .ok vs) :
    info.encoding = .plain ∧ decodePlainByteArray info.values = .ok vs ∨
      info.encoding ≠ .plain ∧
        (∀ (σ : Type) (app : MaskedAppend σ) pageN mask row out,
          app.page dict info pageN mask row out = app.dict dict info.values pageN mask row out) ∧
        ∃ indices, decodeRleDictionaryIndices info.values info.numValues = .ok indices ∧
          (∀ v ∈ indices, v.toNat < dict.length) ∧ entries dict indices = vs := by
  have hindices : ∀ {vs}, byteArrayDecoder.dict dict info.numValues info.values = .ok vs →
      ∃ indices, decodeRleDictionaryIndices info.values info.numValues = .ok indices ∧
        (∀ v ∈ indices, v.toNat < dict.length) ∧ entries dict indices = vs := by
    intro vs h
    obtain ⟨indices, hindices, h⟩ := bind_eq_ok.mp h
    refine ⟨indices, hindices, forall₂_entries.mp ?_⟩
    exact (mapM_eq_ok.mp h).imp fun idx v hv => okOr_eq_ok.mp hv
  unfold decodeValues at h
  split at h
  · next he => exact .inl ⟨he, h⟩
  · next he =>
    split at h
    · cases h
    · next hne =>
      exact .inr ⟨by simp [he], fun σ app => app.page_dict (.inl he) hne, hindices h⟩
  · next he =>
    split at h
    · cases h
    · next hne =>
      exact .inr ⟨by simp [he], fun σ app => app.page_dict (.inr he) hne, hindices h⟩
  · cases h

section
variable [Platform]

/-- A data page holds as many values as its header says, and no RLE run of
    length zero. -/
structure WellFormedByteArrayPage (chunk : RawChunk) (page : Page) : Prop where
  header : page.1.pageType.IsData → ∃ n, dataPageNumValues page.1 = .ok n
  plain : page.1.pageType.IsData → ∀ info vs, dataPageView page chunk = .ok info →
    info.encoding = .plain → decodePlainByteArray info.values = .ok vs →
      vs.length = info.numValues
  runs : page.1.pageType.IsData → ∀ info, dataPageView page chunk = .ok info →
    info.encoding ≠ .plain → NoEmptyRun info.values info.numValues

/-- A chunk is made of these pages: a dictionary comes first, and the rows of
    the data pages add up. -/
structure WellFormedByteArrayChunk (chunk : RawChunk) (pages : List Page) : Prop where
  pagesOf : PagesOf chunk.bytes pages
  dictionaryFirst : ∀ page ∈ pages.tail, page.1.pageType ≠ .dictionaryPage
  page : ∀ page ∈ pages, WellFormedByteArrayPage chunk page
  total : (pages.map pageRows).sum = chunk.totalValues

variable {app : MaskedAppend σ} {fits : σ → List Bytes → Prop} {emit : σ → List Bytes → σ}

omit [Platform] in
/-- The values of a data page, and their selected part, appended. -/
theorem Appends.page_eq (happ : Appends app fits emit) {dict vs : List Bytes}
    {info : DataPageInfo} {mask : Bytes} {row : ℕ} {out : σ}
    (hvs : decodeValues byteArrayDecoder dict info = .ok vs) (hlen : vs.length = info.numValues)
    (hruns : info.encoding ≠ .plain → NoEmptyRun info.values info.numValues)
    (hcover : row + vs.length ≤ 8 * mask.length)
    (hfits : fits out (selectFrom (leNat mask).testBit row vs)) :
    app.page dict info vs.length mask row out
      = .ok (emit out (selectFrom (leNat mask).testBit row vs)) := by
  rcases decodeByteArrays_eq_ok hvs with ⟨he, hplain⟩ | ⟨he, hdict, indices, hindices, hmem, rfl⟩
  · rw [MaskedAppend.page.eq_def, he]
    exact happ.plain hplain hcover hfits
  · rw [length_entries hmem] at hlen hcover
    rw [hdict, length_entries hmem, hlen]
    exact happ.dict hindices (hruns he) hmem hlen (hlen ▸ hcover) hfits

omit [Platform] in
theorem byteArrays_length {dict vs : List Bytes} {info : DataPageInfo}
    (hplain : info.encoding = .plain → ∀ vs, decodePlainByteArray info.values = .ok vs →
      vs.length = info.numValues)
    (hruns : info.encoding ≠ .plain → NoEmptyRun info.values info.numValues)
    (h : decodeValues byteArrayDecoder dict info = .ok vs) : vs.length = info.numValues := by
  rcases decodeByteArrays_eq_ok h with ⟨he, hvs⟩ | ⟨he, -, indices, hindices, hmem, rfl⟩
  · exact hplain he vs hvs
  · have hcover : 0 + info.numValues ≤ 8 * (List.replicate info.numValues (0 : UInt8)).length := by
      simp
      omega
    have hdec := decodeRleDictionary_of_indices hindices (hruns he) hmem
    exact (gatherDictAtBitmap_eq hcover hdec).2

/-- **One data page**: the selected values are appended. -/
theorem byteArrayMaskedPage_eq (happ : Appends app fits emit) {chunk : RawChunk} {page : Page}
    {info : DataPageInfo} {vs : List Bytes} {mask : Bytes} {s : ByteArrayState σ}
    (hinfo : dataPageView page chunk = .ok info)
    (hvs : decodeValues byteArrayDecoder s.dict info = .ok vs) (hlen : vs.length = info.numValues)
    (hruns : info.encoding ≠ .plain → NoEmptyRun info.values info.numValues)
    (hcover : s.rowCursor + vs.length ≤ 8 * mask.length)
    (hfits : fits s.out (selectFrom (leNat mask).testBit s.rowCursor vs)) :
    byteArrayMaskedPage app chunk mask s page = .ok (ByteArrayState.next
      { s with
        rowCursor := s.rowCursor + vs.length
        out := emit s.out (selectFrom (leNat mask).testBit s.rowCursor vs) }
      chunk.totalValues) := by
  have hcount : popcountRange mask s.rowCursor (s.rowCursor + vs.length)
      = .ok (countBits (leNat mask).testBit s.rowCursor vs.length) := by
    rw [popcountRange_eq hcover, Nat.add_sub_cancel_left]
  rw [byteArrayMaskedPage, (dataPageView_info hinfo).1, ← hlen]
  change (popcountRange mask s.rowCursor (s.rowCursor + vs.length) >>= _) = _
  rw [hcount]
  change (if _ then _ else _) = _
  by_cases hzero : countBits (leNat mask).testBit s.rowCursor vs.length = 0
  · have hnone : selectFrom (leNat mask).testBit s.rowCursor vs = [] := by
      unfold countBits at hzero
      simp only [List.length_eq_zero_iff, List.filter_eq_nil_iff, List.mem_range] at hzero
      exact selectFrom_eq_nil fun i hi => by simpa using hzero i hi
    rw [hnone] at hfits ⊢
    rw [if_pos hzero, happ.emit_nil hfits]
    rfl
  · rw [if_neg hzero, hinfo]
    change (app.page s.dict info vs.length mask s.rowCursor s.out >>= _) = _
    rw [happ.page_eq hvs hlen hruns hcover hfits]
    rfl

theorem byteArrayMaskedStep_of_isData {chunk : RawChunk} {mask : Bytes} {page : Page}
    {s : ByteArrayState σ} (hdata : page.1.pageType.IsData) :
    byteArrayMaskedStep app chunk mask s page = byteArrayMaskedPage app chunk mask s page := by
  rcases hdata with h | h <;> rw [byteArrayMaskedStep.eq_def, h]

theorem decodeByteArrayPage_of_isData {chunk : RawChunk} {page : Page} {s s' : DecodeState Bytes}
    (hdata : page.1.pageType.IsData) (hwf : WellFormedByteArrayPage chunk page)
    (h : decodePage byteArrayDecoder chunk s page = .ok s') :
    ∃ info vs, dataPageView page chunk = .ok info ∧
      decodeValues byteArrayDecoder s.dict info = .ok vs ∧ vs.length = info.numValues ∧
      (info.encoding ≠ .plain → NoEmptyRun info.values info.numValues) ∧
      pageRows page = vs.length ∧ s' = { s with out := s.out ++ vs } := by
  have hpage : decodePage byteArrayDecoder chunk s page = (do
      let info ← dataPageView page chunk
      let vs ← decodeValues byteArrayDecoder s.dict info
      pure { s with out := s.out ++ vs }) := by
    rcases hdata with h | h <;> rw [decodePage.eq_def, h]
  rw [hpage] at h
  obtain ⟨info, hinfo, h⟩ := bind_eq_ok.mp h
  obtain ⟨vs, hvs, h⟩ := bind_eq_ok.mp h
  cases h
  have hruns := hwf.runs hdata info hinfo
  have hlen := byteArrays_length (fun he vs => hwf.plain hdata info vs hinfo he) hruns hvs
  refine ⟨info, vs, hinfo, hvs, hlen, hruns, ?_, rfl⟩
  rw [pageRows_of_isData hdata (dataPageView_info hinfo).1, hlen]

/-- A page without rows is a dictionary for both loops, or nothing. -/
theorem byteArrayMaskedStep_skip {chunk : RawChunk} {page : Page} {s s' : DecodeState Bytes}
    (hdata : ¬ page.1.pageType.IsData)
    (h : decodePage byteArrayDecoder chunk s page = .ok s') :
    s'.out = s.out ∧ ∀ (app : MaskedAppend σ) mask row out,
      byteArrayMaskedStep app chunk mask ⟨s.dict, row, out⟩ page
        = .ok (.inl ⟨s'.dict, row, out⟩) := by
  unfold decodePage at h
  unfold byteArrayMaskedStep
  cases ht : page.1.pageType with
  | dataPage => exact absurd (.inl ht) hdata
  | dataPageV2 => exact absurd (.inr ht) hdata
  | indexPage =>
    simp only [ht] at h ⊢
    cases h
    exact ⟨rfl, fun _ _ _ _ => rfl⟩
  | dictionaryPage =>
    simp only [ht] at h ⊢
    obtain ⟨dict, hdict, h⟩ := bind_eq_ok.mp h
    cases h
    refine ⟨rfl, fun app mask row out => ?_⟩
    change (dictionaryPage byteArrayDecoder.plain page chunk >>= _) = _
    rw [hdict]
    rfl

/-- Past the last row the masked loop finds nothing to add. -/
theorem byteArrayMasked_of_empty {chunk : RawChunk} {pages : List Page} {s : ByteArrayState σ}
    {mask : Bytes} (hwf : ∀ page ∈ pages, WellFormedByteArrayPage chunk page)
    (hdict : ∀ page ∈ pages, page.1.pageType ≠ .dictionaryPage)
    (hempty : (pages.map pageRows).sum = 0) (hrow : s.rowCursor = chunk.totalValues)
    (hcover : chunk.totalValues ≤ 8 * mask.length) :
    (·.out) <$> foldPages (byteArrayMaskedStep app chunk mask) s pages = .ok s.out := by
  induction pages with
  | nil => rfl
  | cons page pages ih =>
    simp only [List.map_cons, List.sum_cons, Nat.add_eq_zero_iff] at hempty
    by_cases hdata : page.1.pageType.IsData
    · obtain ⟨n, hn⟩ := (hwf page List.mem_cons_self).header hdata
      have hn0 : n = 0 := by rw [← pageRows_of_isData hdata hn, hempty.1]
      subst hn0
      have hcount : popcountRange mask s.rowCursor (s.rowCursor + 0) = .ok 0 := by
        rw [popcountRange_eq (by omega)]
        simp [countBits]
      have hstep : byteArrayMaskedStep app chunk mask s page = .ok (.inr s) := by
        rw [byteArrayMaskedStep_of_isData hdata, byteArrayMaskedPage, hn]
        change (popcountRange mask s.rowCursor (s.rowCursor + 0) >>= _) = _
        rw [hcount]
        change Except.ok (ByteArrayState.next _ _) = _
        rw [ByteArrayState.next, if_pos (show chunk.totalValues ≤ s.rowCursor + 0 by omega)]
        rfl
      rw [foldPages, hstep]
      rfl
    · have hstep : byteArrayMaskedStep app chunk mask s page = .ok (.inl s) := by
        unfold byteArrayMaskedStep
        cases ht : page.1.pageType with
        | dataPage => exact absurd (.inl ht) hdata
        | dataPageV2 => exact absurd (.inr ht) hdata
        | indexPage => rfl
        | dictionaryPage => exact absurd ht (hdict page List.mem_cons_self)
      rw [foldPages, hstep]
      exact ih (fun p hp => hwf p (List.mem_cons_of_mem _ hp))
        (fun p hp => hdict p (List.mem_cons_of_mem _ hp)) hempty.2

/-- **Lock step.**  By induction on the pages: the row cursor of the masked loop
    is the length of what the full loop has decoded. -/
theorem byteArray_lockstep (happ : Appends app fits emit) {chunk : RawChunk} {pages : List Page}
    {s s' : DecodeState Bytes} (hwf : ∀ page ∈ pages, WellFormedByteArrayPage chunk page)
    (hdict : ∀ page ∈ pages.tail, page.1.pageType ≠ .dictionaryPage)
    (htotal : s.out.length + (pages.map pageRows).sum = chunk.totalValues)
    (h : foldPages (decodeStep byteArrayDecoder chunk) s pages = .ok s') :
    ∃ vs, s'.out = s.out ++ vs ∧ ∀ mask out, chunk.totalValues ≤ 8 * mask.length →
      fits out (selectFrom (leNat mask).testBit s.out.length vs) →
      (·.out) <$> foldPages (byteArrayMaskedStep app chunk mask) ⟨s.dict, s.out.length, out⟩ pages
        = .ok (emit out (selectFrom (leNat mask).testBit s.out.length vs)) := by
  induction pages generalizing s with
  | nil =>
    cases h
    refine ⟨[], by simp, fun mask out _ hfits => ?_⟩
    exact congrArg Except.ok (happ.emit_nil hfits).symm
  | cons page pages ih =>
    rw [List.map_cons, List.sum_cons] at htotal
    have hpage := hwf page List.mem_cons_self
    have hpages : ∀ p ∈ pages, WellFormedByteArrayPage chunk p := fun p hp =>
      hwf p (List.mem_cons_of_mem _ hp)
    have hdict' : ∀ p ∈ pages.tail, p.1.pageType ≠ .dictionaryPage := fun p hp =>
      hdict p (List.mem_of_mem_tail hp)
    rw [foldPages, decodeStep] at h
    cases hdec : decodePage byteArrayDecoder chunk s page with
    | error e => simp [hdec, bind, Except.bind] at h
    | ok s₁ =>
      rw [hdec] at h
      simp only [bind, Except.bind, pure, Except.pure] at h
      by_cases hdata : page.1.pageType.IsData
      · obtain ⟨info, vs, hinfo, hvs, hlen, hruns, hpageRows, rfl⟩ :=
          decodeByteArrayPage_of_isData hdata hpage hdec
        rw [hpageRows] at htotal
        have hmasked : ∀ mask out, chunk.totalValues ≤ 8 * mask.length →
            fits out (selectFrom (leNat mask).testBit s.out.length vs) →
            byteArrayMaskedStep app chunk mask ⟨s.dict, s.out.length, out⟩ page
              = .ok (ByteArrayState.next ⟨s.dict, s.out.length + vs.length,
                emit out (selectFrom (leNat mask).testBit s.out.length vs)⟩
                chunk.totalValues) := by
          intro mask out hcover hfits
          rw [byteArrayMaskedStep_of_isData hdata]
          exact byteArrayMaskedPage_eq happ hinfo hvs hlen hruns (by dsimp only; omega) hfits
        by_cases hdone : chunk.totalValues ≤ (s.out ++ vs).length
        · -- the last rows: both loops end
          rw [if_pos hdone] at h
          cases h
          rw [List.length_append] at hdone
          refine ⟨vs, rfl, fun mask out hcover hfits => ?_⟩
          rw [foldPages, hmasked mask out hcover hfits, ByteArrayState.next, if_pos hdone]
          rfl
        · rw [if_neg hdone] at h
          obtain ⟨ws, hout, hrest⟩ := ih hpages hdict'
            (by rw [List.length_append]; omega) h
          rw [List.length_append] at hdone hrest
          refine ⟨vs ++ ws, by rw [hout, List.append_assoc], fun mask out hcover hfits => ?_⟩
          rw [selectFrom_append] at hfits ⊢
          obtain ⟨hhere, hlater⟩ := happ.fits_append hfits
          rw [foldPages, hmasked mask out hcover hhere, ByteArrayState.next, if_neg hdone,
            ← happ.emit_append]
          exact hrest mask _ hcover hlater
      · -- a dictionary or an index page: no rows
        have hnoRows : pageRows page = 0 := by simp [pageRows, hdata]
        rw [hnoRows] at htotal
        obtain ⟨hsame, hmasked⟩ := @byteArrayMaskedStep_skip σ _ _ _ _ _ hdata hdec
        rw [hsame] at h
        by_cases hdone : chunk.totalValues ≤ s.out.length
        · -- a chunk without rows: the full loop ends after its first page
          rw [if_pos hdone] at h
          cases h
          refine ⟨[], by simp [hsame], fun mask out hcover hfits => ?_⟩
          rw [foldPages, hmasked]
          change _ = Except.ok (emit out [])
          rw [happ.emit_nil hfits]
          exact byteArrayMasked_of_empty hpages hdict (by omega) (by dsimp only; omega) hcover
        · rw [if_neg hdone] at h
          obtain ⟨ws, hout, hrest⟩ := ih hpages hdict' (by rw [hsame]; omega) h
          rw [hsame] at hout hrest
          refine ⟨ws, hout, fun mask out hcover hfits => ?_⟩
          rw [foldPages, hmasked]
          exact hrest mask out hcover hfits

/-- A masked reader against the full one. -/
theorem byteArrayMasked_eq (happ : Appends app fits emit) {start : σ → σ} {file : ParquetFile}
    {rowGroup column : ℕ} {chunk : RawChunk} {pages : List Page} {v : List Bytes} {mask : Bytes}
    (hchunk : readChunkRaw file rowGroup column = .ok chunk)
    (hwf : WellFormedByteArrayChunk chunk pages)
    (hread : readColumnByteArray file rowGroup column = .ok v)
    (hmask : divCeil chunk.totalValues 8 ≤ mask.length) {out : σ}
    (hfits : fits (start out) (selectFrom (leNat mask).testBit 0 v)) :
    byteArrayMasked app start file rowGroup column mask out
      = .ok (emit (start out) (selectFrom (leNat mask).testBit 0 v)) := by
  rw [readColumnByteArray, decodeChunk_eq _ hchunk hwf.pagesOf] at hread
  obtain ⟨s', hfold, rfl⟩ := map_eq_ok.mp hread
  obtain ⟨vs, hout, hmasked⟩ := byteArray_lockstep happ hwf.page hwf.dictionaryFirst
    (by simpa using hwf.total) hfold
  rw [List.nil_append] at hout
  rw [hout] at hfits ⊢
  have hcover : chunk.totalValues ≤ 8 * mask.length := by
    unfold divCeil at hmask
    omega
  rw [byteArrayMasked, hchunk]
  change (if _ then _ else _) = _
  rw [if_neg (by omega), walkPages_eq hwf.pagesOf]
  exact hmasked mask (start out) hcover hfits

/-- **Masked byte-array reads filter**: the owned values, the flat bytes with
    offsets, and two row groups one after the other. -/
theorem readColumnByteArrayMasked_filters {file : ParquetFile} {rowGroup column : ℕ}
    {chunk : RawChunk} {pages : List Page} {v : List Bytes} {mask : Bytes}
    (hchunk : readChunkRaw file rowGroup column = .ok chunk)
    (hwf : WellFormedByteArrayChunk chunk pages)
    (hread : readColumnByteArray file rowGroup column = .ok v)
    (hmask : divCeil chunk.totalValues 8 ≤ mask.length) :
    (∀ out, readColumnByteArrayMasked file rowGroup column mask out
      = .ok (out ++ selectFrom (leNat mask).testBit 0 v)) ∧
    (∀ out : OffsetsOut, out.Continues → out.Fits (selectFrom (leNat mask).testBit 0 v) →
      readColumnByteArrayOffsetsMasked file rowGroup column mask out
        = .ok (out.append (selectFrom (leNat mask).testBit 0 v))) ∧
    ∀ rowGroup' column' chunk' pages' v' mask',
      readChunkRaw file rowGroup' column' = .ok chunk' → WellFormedByteArrayChunk chunk' pages' →
      readColumnByteArray file rowGroup' column' = .ok v' →
      divCeil chunk'.totalValues 8 ≤ mask'.length → ∀ out : OffsetsOut, out.Continues →
      out.Fits (selectFrom (leNat mask).testBit 0 v ++ selectFrom (leNat mask').testBit 0 v') →
      (do let first ← readColumnByteArrayOffsetsMasked file rowGroup column mask out
          readColumnByteArrayOffsetsMasked file rowGroup' column' mask' first)
        = .ok (out.append
          (selectFrom (leNat mask).testBit 0 v ++ selectFrom (leNat mask').testBit 0 v')) := by
  have hfirst : ∀ out : OffsetsOut, out.Continues →
      out.Fits (selectFrom (leNat mask).testBit 0 v) →
      readColumnByteArrayOffsetsMasked file rowGroup column mask out
        = .ok (out.append (selectFrom (leNat mask).testBit 0 v)) := by
    intro out hout hfits
    rw [← OffsetsOut.start_append]
    refine byteArrayMasked_eq offsetsAppend_appends hchunk hwf hread hmask
      ⟨OffsetsOut.start_started hout, ?_⟩
    rwa [OffsetsOut.Fits, OffsetsOut.start_bytes]
  refine ⟨fun out => ?_, hfirst, ?_⟩
  · exact byteArrayMasked_eq ownedAppend_appends hchunk hwf hread hmask trivial
  · intro rowGroup' column' chunk' pages' v' mask' hchunk' hwf' hread' hmask' out hout hfits
    set xs := selectFrom (leNat mask).testBit 0 v
    set ys := selectFrom (leNat mask').testBit 0 v'
    have hstart : out.start.Started ∧ out.start.Fits (xs ++ ys) :=
      ⟨OffsetsOut.start_started hout, by rwa [OffsetsOut.Fits, OffsetsOut.start_bytes]⟩
    obtain ⟨⟨-, hxs⟩, hnext⟩ := offsetsAppend_appends.fits_append hstart
    rw [OffsetsOut.start_append] at hnext
    rw [OffsetsOut.Fits, OffsetsOut.start_bytes] at hxs
    rw [hfirst out hout hxs]
    change readColumnByteArrayOffsetsMasked file rowGroup' column' mask' (out.append xs) = _
    have hsecond : byteArrayMasked offsetsAppend OffsetsOut.start file rowGroup' column' mask'
        (out.append xs) = .ok ((out.append xs).start.append ys) :=
      byteArrayMasked_eq offsetsAppend_appends hchunk' hwf' hread' hmask' (by
        rw [hnext.1.start_eq]
        exact hnext)
    rw [hnext.1.start_eq, OffsetsOut.append_append] at hsecond
    exact hsecond

end

/-! ## A chunk with a dictionary page and a PLAIN page -/

/-- A page of an uncompressed column. -/
def sampleBytesPage (pageType : PageType) (numValues : ℕ) (encoding : Encoding) (body : Bytes) :
    Page :=
  ({ pageType
     uncompressedPageSize := Int32.ofNat body.length
     compressedPageSize := Int32.ofNat body.length
     crc := none
     dataPageHeader := if pageType = .dataPage then
       some { numValues := Int32.ofNat numValues, encoding, definitionLevelEncoding := .rle,
              repetitionLevelEncoding := .rle, statistics := none } else none
     indexPageHeader := none
     dictionaryPageHeader := if pageType = .dictionaryPage then
       some { numValues := Int32.ofNat numValues, encoding, isSorted := none } else none
     dataPageHeaderV2 := none }, body)

/-- `a` and `bc` in the dictionary; the rows are `a`, `bc`, `a`, and then `d`. -/
def sampleBytesPages : List Page :=
  [sampleBytesPage .dictionaryPage 2 .plain (encodePlainByteArray [[0x61], [0x62, 0x63]]),
   sampleBytesPage .dataPage 3 .rleDictionary [1, 3, 2],
   sampleBytesPage .dataPage 1 .plain (encodePlainByteArray [[0x64]])]

/-- A chunk of four byte arrays. -/
def sampleBytesChunk : RawChunk where
  bytes := sampleBytesPages.flatMap writePage
  totalValues := 4
  codec := .uncompressed
  maxRepLevel := 0
  maxDefLevel := 0

/-- The metadata of the chunk of byte arrays. -/
def sampleBytesMetaData : ColumnMetaData where
  columnType := .byteArray
  encodings := [.plain, .rleDictionary]
  pathInSchema := [[0x61]]
  codec := .uncompressed
  numValues := 4
  totalUncompressedSize := Int64.ofNat sampleBytesChunk.bytes.length
  totalCompressedSize := Int64.ofNat sampleBytesChunk.bytes.length
  keyValueMetadata := none
  dataPageOffset := 4
  indexPageOffset := none
  dictionaryPageOffset := none
  statistics := none
  encodingStats := none
  bloomFilterOffset := none
  bloomFilterLength := none
  sizeStatistics := none

/-- The metadata of the file of byte arrays. -/
def sampleBytesFooter : FileMetaData where
  version := 1
  schema := [{ name := [0x72], numChildren := some 1 },
    { columnType := some .byteArray, repetitionType := some .required, name := [0x61] }]
  numRows := 4
  rowGroups := [{ columns := [{ fileOffset := 4, metaData := some sampleBytesMetaData }],
                  numRows := 4 }]

/-- The footer of the file of byte arrays. -/
def sampleBytesFooterBytes : Bytes := ((writeFileMetadata sampleBytesFooter).toOption).getD []

/-- The file of byte arrays. -/
def sampleBytesFile : ParquetFile where
  bytes := parquetMagic ++ sampleBytesChunk.bytes ++ sampleBytesFooterBytes
    ++ leBytes 4 sampleBytesFooterBytes.length ++ parquetMagic
  footerBytes := sampleBytesFooterBytes
  footerOffset := 4 + sampleBytesChunk.bytes.length

theorem readChunkRaw_sampleBytesFile : readChunkRaw sampleBytesFile 0 0 = .ok sampleBytesChunk := by
  have hmd : sampleBytesFile.metadata = .ok sampleBytesFooter :=
    ParquetFile.metadata_of_written rfl (by decide +kernel)
  have hlevels : computeMaxLevels sampleBytesFooter.schema 0 = .ok (0, 0) :=
    computeMaxLevels_flat rfl (by decide) (by decide) (by decide)
  have hbytes : sampleBytesFile.readRange 4 sampleBytesChunk.bytes.length
      = .ok sampleBytesChunk.bytes := by decide +kernel
  have hcm : columnMetaData sampleBytesFooter 0 0 = .ok sampleBytesMetaData := rfl
  rw [readChunkRaw_eq hmd hcm hbytes hlevels]
  rfl

section
variable [Platform]

/-- The body of a sample page, viewed. -/
theorem dataPageView_sampleBytesPage {page : Page} (h : page ∈ sampleBytesPages)
    (hdata : page.1.pageType.IsData) :
    ∃ encoding, pageEncoding page.1 = some encoding ∧ dataPageView page sampleBytesChunk
      = .ok { numValues := pageRows page, encoding, values := page.2 } := by
  simp only [sampleBytesPages, List.mem_cons, List.not_mem_nil, or_false] at h
  rcases h with rfl | rfl | rfl
  · rcases hdata with h | h <;> cases h
  · exact ⟨_, rfl, rfl⟩
  · exact ⟨_, rfl, rfl⟩

theorem wellFormed_sampleBytesChunk :
    WellFormedByteArrayChunk sampleBytesChunk sampleBytesPages where
  pagesOf := pagesOf_flatMap (by decide)
  dictionaryFirst := by decide
  page page hpage := by
    constructor
    · intro hdata
      obtain ⟨_, -, hview⟩ := dataPageView_sampleBytesPage hpage hdata
      exact ⟨_, (dataPageView_info hview).1⟩
    · intro hdata info vs hinfo he hvs
      obtain ⟨encoding, hencoding, hview⟩ := dataPageView_sampleBytesPage hpage hdata
      rw [hview] at hinfo
      cases hinfo
      cases he
      simp only [sampleBytesPages, List.mem_cons, List.not_mem_nil, or_false] at hpage
      rcases hpage with rfl | rfl | rfl
      · rcases hdata with h | h <;> cases h
      · cases hencoding
      · rw [show vs = [[0x64]] from
          Except.ok.inj (hvs.symm.trans (decodePlainByteArray_encodePlainByteArray (by decide)))]
        rfl
    · intro hdata info hinfo he
      obtain ⟨encoding, hencoding, hview⟩ := dataPageView_sampleBytesPage hpage hdata
      rw [hview] at hinfo
      cases hinfo
      simp only [sampleBytesPages, List.mem_cons, List.not_mem_nil, or_false] at hpage
      rcases hpage with rfl | rfl | rfl
      · rcases hdata with h | h <;> cases h
      · have hindices : hybridDecode 1 3 (fun _ chunk n => unpackIndices chunk n 1) nonEmptyRun
            [3, 2] = .ok [0, 1, 0] := by decide +kernel
        exact .inr (.inr ⟨_, hindices⟩)
      · cases hencoding
        exact absurd rfl he
  total := by decide

theorem readColumnByteArray_sampleBytesFile :
    readColumnByteArray sampleBytesFile 0 0 = .ok [[0x61], [0x62, 0x63], [0x61], [0x64]] := by
  rw [readColumnByteArray, decodeChunk_eq _ readChunkRaw_sampleBytesFile
    wellFormed_sampleBytesChunk.pagesOf]
  rfl

end

theorem readColumnByteArrayMasked_filters_sample :
    @readColumnByteArray Platform.stored sampleBytesFile 0 0
        = .ok [[0x61], [0x62, 0x63], [0x61], [0x64]] ∧
      @readColumnByteArrayMasked Platform.stored sampleBytesFile 0 0 [10] [[0x7a]]
        = .ok [[0x7a], [0x62, 0x63], [0x64]] ∧
      @readColumnByteArrayOffsetsMasked Platform.stored sampleBytesFile 0 0 [10] {}
        = .ok { bytes := [0x62, 0x63, 0x64], offsets := [0, 2, 3] } ∧
      (do let first ← @readColumnByteArrayOffsetsMasked Platform.stored sampleBytesFile 0 0 [10] {}
          @readColumnByteArrayOffsetsMasked Platform.stored sampleBytesFile 0 0 [5] first)
        = .ok { bytes := [0x62, 0x63, 0x64, 0x61, 0x61], offsets := [0, 2, 3, 4, 5] } :=
  let _ := Platform.stored
  have hread := readColumnByteArray_sampleBytesFile
  have hempty : ({} : OffsetsOut).Continues := .inl ⟨rfl, rfl⟩
  have hfilters := @readColumnByteArrayMasked_filters _ _ _ _ _ _ _ [10]
    readChunkRaw_sampleBytesFile wellFormed_sampleBytesChunk hread (by decide)
  ⟨hread, hfilters.1 [[0x7a]], hfilters.2.1 {} hempty (by decide),
    hfilters.2.2 0 0 _ _ _ [5] readChunkRaw_sampleBytesFile wellFormed_sampleBytesChunk hread
      (by decide) {} hempty (by decide)⟩

end EmatixParquet
