/-
  When the flat form of a BYTE_ARRAY column is the owned one
  (`read_column_byte_array_offsets` and `read_column_byte_array`).

  The flat reader takes from a PLAIN page as many values as its header declares,
  the owned reader all of them; its offsets are sums of `u32`s.  `readDeclared`
  is an owned reader that takes what the headers declare.

  * `offsetsStep_eq`: the flat reader does to the flattened values what
    `readDeclared` does to the values;
  * `readDeclared_of_counted`: pages that hold no more values than they declare
    are read alike;
  * `flat_agrees_iff`: flattened values are read back from their offsets iff the
    offsets have not wrapped;
  * `offsets_agree`: the chunks on which the two readers agree;
  * `ChunkOf.counted`: the pages of the table writer declare what they hold.
-/
import EmatixParquet.Codec.Offsets
import EmatixParquet.Codec.RoundTrip

namespace EmatixParquet

open Wire

/-! ## Flat values -/

/-- The offsets from `n` on, where each value begins or ends. -/
theorem getElem?_offsetsFrom {n i : ℕ} {vs : List Bytes} (hi : i ≤ vs.length) :
    (UInt32.ofNat n :: offsetsFrom n vs)[i]?
      = some (UInt32.ofNat (n + (vs.take i).flatten.length)) := by
  induction vs generalizing n i with
  | nil =>
    obtain rfl : i = 0 := Nat.le_zero.mp hi
    rfl
  | cons v vs ih =>
    cases i with
    | zero => rfl
    | succ i =>
      rw [List.getElem?_cons_succ, offsetsFrom, ih (Nat.le_of_succ_le_succ hi), List.take_succ_cons,
        List.flatten_cons, List.length_append, Nat.add_assoc]

theorem length_offsetsFrom (n : ℕ) (vs : List Bytes) : (offsetsFrom n vs).length = vs.length := by
  induction vs generalizing n with
  | nil => rfl
  | cons v vs ih => rw [offsetsFrom, List.length_cons, ih, List.length_cons]

/-- Values, flattened. -/
def OffsetsOut.flat (vs : List Bytes) : OffsetsOut where
  bytes := vs.flatten
  offsets := 0 :: offsetsFrom 0 vs

/-- Values pushed one by one. -/
theorem foldl_pushValue (vs ws : List Bytes) :
    ws.foldl pushValue (.flat vs, UInt32.ofNat vs.flatten.length)
      = (.flat (vs ++ ws), UInt32.ofNat (vs ++ ws).flatten.length) := by
  induction ws generalizing vs with
  | nil => rw [List.append_nil, List.foldl_nil]
  | cons w ws ih =>
    have hpush : pushValue (.flat vs, UInt32.ofNat vs.flatten.length) w
        = (.flat (vs ++ [w]), UInt32.ofNat (vs ++ [w]).flatten.length) := by
      simp [pushValue, OffsetsOut.flat, offsetsFrom_append, offsetsFrom, UInt32.ofNat_add]
    rw [List.foldl_cons, hpush, ih, List.append_assoc]
    rfl

theorem running_flat (vs : List Bytes) :
    (OffsetsOut.flat vs).running = .ok (UInt32.ofNat vs.flatten.length) := by
  have hlast : (OffsetsOut.flat vs).offsets.getLast? = some (UInt32.ofNat vs.flatten.length) := by
    have h := @getElem?_offsetsFrom 0 _ vs (Nat.le_refl vs.length)
    rw [List.take_length, Nat.zero_add] at h
    rw [List.getLast?_eq_getElem?, OffsetsOut.flat, List.length_cons, length_offsetsFrom,
      Nat.add_sub_cancel]
    exact h
  rw [OffsetsOut.running, hlast]

/-! ## PLAIN pages -/

/-- The first `n` values of a PLAIN page. -/
def declaredPlain : ℕ → Bytes → Res CodecError (List Bytes)
  | 0, _ => .ok []
  | n + 1, body =>
    if body = [] then .ok []
    else if body.length < 4 then
      codecErr (.invalidInput "PLAIN byte_array: truncated length prefix")
    else
      let len := leNat (body.take 4)
      let rest := body.drop 4
      if rest.length < len then
        codecErr (.invalidInput "PLAIN byte_array: value runs past page end")
      else (rest.take len :: ·) <$> declaredPlain n (rest.drop len)

/-- The flat reader pushes them. -/
theorem plainOffsets_eq (n : ℕ) (body : Bytes) (s : OffsetsOut × UInt32) :
    plainOffsets CodecError.invalidInput n body s
      = (fun vs => vs.foldl pushValue s) <$> declaredPlain n body := by
  induction n generalizing body s with
  | zero => rfl
  | succ n ih =>
    rw [plainOffsets, declaredPlain]
    by_cases hempty : body = []
    · rw [if_pos hempty, if_pos hempty]
      rfl
    rw [if_neg hempty, if_neg hempty]
    by_cases hshort : body.length < 4
    · rw [if_pos hshort, if_pos hshort]
      rfl
    rw [if_neg hshort, if_neg hshort]
    dsimp only
    by_cases hlen : (body.drop 4).length < leNat (body.take 4)
    · rw [if_pos hlen, if_pos hlen]
      rfl
    rw [if_neg hlen, if_neg hlen, ih]
    cases declaredPlain n ((body.drop 4).drop (leNat (body.take 4))) <;> rfl

theorem run_readU32Le_eq_ok {n : ℕ} {bytes rest : Bytes}
    (h : readU32Le.run bytes = .ok (n, rest)) :
    4 ≤ bytes.length ∧ n = leNat (bytes.take 4) ∧ rest = bytes.drop 4 := by
  rw [readU32Le, Reader.run_map] at h
  cases hpre : (wire (take 4)).run bytes with
  | error e => simp [hpre] at h
  | ok r =>
    obtain ⟨value, mid⟩ := r
    obtain ⟨hlen, rfl, rfl⟩ := run_take_eq_ok hpre
    rw [hpre] at h
    cases h
    exact ⟨hlen, rfl, rfl⟩

/-- By induction on the bytes: the first values of a page that is decoded whole. -/
theorem declaredPlain_loop {bytes rest : Bytes} {out vs : List Bytes}
    (h : (byteArrayLoop.run out).run bytes = .ok (vs, rest)) :
    ∃ ws, vs = out ++ ws ∧ ∀ n, declaredPlain n bytes = .ok (ws.take n) := by
  obtain ⟨n, hn⟩ : ∃ n, bytes.length < n := ⟨_, Nat.lt_succ_self _⟩
  induction n generalizing bytes out with
  | zero => omega
  | succ n ih =>
    by_cases hne : bytes = []
    · subst hne
      rw [@Loop.run_of_inr _ _ _ byteArrayLoop out out [] [] rfl] at h
      cases h
      refine ⟨[], by simp, fun n => ?_⟩
      cases n <;> rfl
    · obtain ⟨len, value, mid, mid', hlen, hvalue, hrest⟩ := byteArrayLoop_cons hne h
      have hlt := readU32Le_consumes hlen
      have hle := Reader.run_length_le _ hvalue
      obtain ⟨ws, hvs, hws⟩ := ih hrest (by omega)
      obtain ⟨hfour, rfl, rfl⟩ := run_readU32Le_eq_ok hlen
      obtain ⟨hfits, rfl, rfl⟩ := run_take_eq_ok hvalue
      refine ⟨_ :: ws, by rw [hvs, List.append_assoc]; rfl, fun n => ?_⟩
      cases n with
      | zero => rfl
      | succ n =>
        rw [declaredPlain, if_neg hne, if_neg (by omega)]
        dsimp only
        rw [if_neg (by omega), hws n]
        rfl

theorem declaredPlain_of_decode {n : ℕ} {bytes : Bytes} {vs : List Bytes}
    (h : decodePlainByteArray bytes = .ok vs) : declaredPlain n bytes = .ok (vs.take n) := by
  obtain ⟨⟨vs', rest⟩, hrun, rfl⟩ := map_eq_ok.mp h
  obtain ⟨ws, hvs, hws⟩ := declaredPlain_loop hrun
  rw [List.nil_append] at hvs
  subst hvs
  exact hws n

/-! ## The two readers step by step -/

/-- The state of the flat reader for a dictionary and an output. -/
def DecodeState.flat (s : DecodeState Bytes) : OffsetsState where
  dictBytes := s.dict.flatten
  dictOffsets := 0 :: offsetsFrom 0 s.dict
  out := .flat s.out

/-- A value of flattened values. -/
theorem slice_flatten {vs : List Bytes} {i : ℕ} (hi : i < vs.length) :
    (slice vs.flatten (vs.take i).flatten.length (vs.take (i + 1)).flatten.length :
      Res CodecError Bytes) = .ok vs[i] := by
  have hsplit : vs.flatten = (vs.take i).flatten ++ (vs[i] ++ (vs.drop (i + 1)).flatten) := by
    rw [← List.flatten_cons, ← List.drop_eq_getElem_cons hi, ← List.flatten_append,
      List.take_append_drop]
  have hstop : (vs.take (i + 1)).flatten.length = (vs.take i).flatten.length + vs[i].length := by
    rw [List.take_succ_eq_append_getElem hi, List.flatten_append, List.length_append,
      List.flatten_cons, List.flatten_nil, List.append_nil]
  rw [slice_ok (by omega) (by rw [hstop, hsplit, List.length_append, List.length_append]; omega),
    hstop, hsplit, drop_take_add, List.drop_left, List.take_left]

/-- **Entries of the flat dictionary**, whose offsets have not wrapped. -/
theorem dictEntry_flat {s : DecodeState Bytes} (hdict : s.dict.flatten.length < 2 ^ 32)
    (idx : UInt32) : dictEntry CodecError.invalidInput s.flat idx
      = okOr s.dict[idx.toNat]? (.invalidInput "dictionary index out of range") := by
  by_cases hi : idx.toNat < s.dict.length
  · have hle : ∀ i, (s.dict.take i).flatten.length ≤ s.dict.flatten.length := fun i => by
      conv_rhs => rw [← List.take_append_drop i s.dict, List.flatten_append, List.length_append]
      omega
    have hnat : ∀ i, (UInt32.ofNat (0 + (s.dict.take i).flatten.length)).toNat
        = (s.dict.take i).flatten.length := fun i => by
      rw [Nat.zero_add]
      exact UInt32.toNat_ofNat_of_lt' (lt_of_le_of_lt (hle i) hdict)
    have hlo := @getElem?_offsetsFrom 0 idx.toNat s.dict (by omega)
    have hhi := @getElem?_offsetsFrom 0 (idx.toNat + 1) s.dict (by omega)
    rw [dictEntry, DecodeState.flat]
    dsimp only
    rw [show (0 : UInt32) = UInt32.ofNat 0 from rfl, hlo, hhi]
    dsimp only
    rw [hnat, hnat, slice_flatten hi, List.getElem?_eq_getElem hi, okOr_some]
  · have hnone : (0 :: offsetsFrom 0 s.dict)[idx.toNat + 1]? = none :=
      List.getElem?_eq_none (by rw [List.length_cons, length_offsetsFrom]; omega)
    have hentry : s.dict[idx.toNat]? = none := List.getElem?_eq_none (Nat.le_of_not_lt hi)
    rw [dictEntry, hentry, DecodeState.flat, hnone]
    split
    · next h => cases h
    · rfl

/-- The values of a data page, as many as its header declares. -/
def declaredValues (dict : List Bytes) (info : DataPageInfo) : Res CodecError (List Bytes) :=
  match info.encoding with
  | .plain => declaredPlain info.numValues info.values
  | _ => decodeValues byteArrayDecoder dict info

theorem offsetsValues_flat {s : DecodeState Bytes} (hdict : s.dict.flatten.length < 2 ^ 32)
    (info : DataPageInfo) : offsetsValues s.flat info
      = (fun vs => OffsetsOut.flat (s.out ++ vs)) <$> declaredValues s.dict info := by
  have hout : s.flat.out = .flat s.out := rfl
  have hguard : s.flat.dictOffsets.length < 2 ↔ s.dict = [] := by
    rw [DecodeState.flat, List.length_cons, length_offsetsFrom, ← List.length_eq_zero_iff]
    omega
  have hentries : (if s.flat.dictOffsets.length < 2 then
        codecErr (.invalidInput "dict-encoded data page before dictionary")
      else do
        let indices ← decodeRleDictionaryIndices info.values info.numValues
        let entries ← indices.mapM (dictEntry .invalidInput s.flat)
        let acc ← s.flat.out.running
        pure (entries.foldl pushValue (s.flat.out, acc)).1)
      = (fun vs => OffsetsOut.flat (s.out ++ vs)) <$>
        (if s.dict = [] then codecErr (.invalidInput "dict-encoded data page before dictionary")
        else byteArrayDecoder.dict s.dict info.numValues info.values) := by
    by_cases hempty : s.dict = []
    · rw [if_pos (hguard.mpr hempty), if_pos hempty]
      rfl
    rw [if_neg (mt hguard.mp hempty), if_neg hempty, byteArrayDecoder]
    dsimp only
    cases decodeRleDictionaryIndices info.values info.numValues with
    | error e => rfl
    | ok indices =>
      simp only [funext (dictEntry_flat hdict), hout, running_flat, bind, Except.bind]
      cases indices.mapM (m := Except (Fault CodecError)) fun idx => okOr s.dict[idx.toNat]?
          (CodecError.invalidInput "dictionary index out of range") with
      | error e => rfl
      | ok entries =>
        simp only [foldl_pushValue]
        rfl
  unfold offsetsValues declaredValues
  cases he : info.encoding with
  | plain =>
    dsimp only
    rw [hout, running_flat]
    simp only [bind, Except.bind, plainOffsets_eq]
    cases declaredPlain info.numValues info.values with
    | error e => rfl
    | ok vs =>
      simp only [Functor.map, Except.map, foldl_pushValue]
      rfl
  | rleDictionary | plainDictionary =>
    simp only [decodeValues, he]
    exact hentries
  | _ =>
    simp only [decodeValues, he]
    rfl

/-! ## Dictionaries are short -/

theorem declaredPlain_length {n : ℕ} {body : Bytes} {vs : List Bytes}
    (h : declaredPlain n body = .ok vs) : vs.flatten.length ≤ body.length := by
  induction n generalizing body vs with
  | zero =>
    cases h
    exact Nat.zero_le _
  | succ n ih =>
    rw [declaredPlain] at h
    split at h
    · cases h
      exact Nat.zero_le _
    split at h
    · cases h
    dsimp only at h
    split at h
    · cases h
    obtain ⟨ws, hws, rfl⟩ := map_eq_ok.mp h
    have hrest := ih hws
    simp only [List.length_drop] at hrest
    rw [List.flatten_cons, List.length_append, List.length_take, List.length_drop]
    omega

theorem decodePlainByteArray_length {bytes : Bytes} {vs : List Bytes}
    (h : decodePlainByteArray bytes = .ok vs) : vs.flatten.length ≤ bytes.length := by
  have hall := declaredPlain_of_decode (n := vs.length) h
  rw [List.take_length] at hall
  exact declaredPlain_length hall

theorem i32AsUsize_lt {v : Int32} (h : i32AsUsize v < 2 ^ 63) : i32AsUsize v < 2 ^ 31 := by
  have hint : v.toInt64.toInt = v.toInt := Int32.toInt_toInt64 v
  have hlt := v.toInt_lt
  have hnat : i32AsUsize v = v.toInt64.toBitVec.toNat := (Int64.toNat_toBitVec _).symm
  have hbmod : v.toInt64.toInt = (v.toInt64.toBitVec.toNat : ℤ).bmod (2 ^ 64) := by
    rw [← Int64.toInt_toBitVec, BitVec.toInt_eq_toNat_bmod]
  rw [← hnat, Int.bmod_eq_of_le (by omega) (by omega), hint] at hbmod
  omega

theorem i32AsUsize_of_nonneg {v : Int32} (h : ¬ v < 0) : i32AsUsize v < 2 ^ 31 := by
  rw [Int32.lt_iff_toInt_lt, Int32.toInt_zero] at h
  have hlt := v.toInt_lt
  have hv : v = Int32.ofNat v.toInt.toNat := by
    refine Int32.toInt_inj.mp ?_
    rw [Int32.toInt_ofNat_of_lt (by omega)]
    omega
  rw [hv, i32AsUsize_ofNat (by omega)]
  omega

/-- The body of a page has the size its header says, in 31 bits. -/
theorem length_nextPage {bs rest : Bytes} {page : Page} (hbs : bs.length < 2 ^ 63)
    (h : nextPage.run bs = .ok (some page, rest)) :
    page.2.length < 2 ^ 32 ∧ rest.length < 2 ^ 63 := by
  have hrest := nextPage_consumes h
  obtain ⟨done, mid, hdone, h⟩ := Reader.run_bind_eq_ok h
  cases done with
  | true => cases h
  | false =>
    obtain ⟨header, mid', hheader, h⟩ := Reader.run_bind_eq_ok h
    obtain ⟨body, mid'', hbody, h⟩ := Reader.run_bind_eq_ok h
    cases h
    have hbody := Reader.run_mapError_eq_ok.mp hbody
    have hmid : mid'.length < 2 ^ 63 := lt_of_le_of_lt
      ((Reader.run_length_le _ hheader).trans (Reader.run_length_le _ hdone)) hbs
    simp only [take] at hbody
    split at hbody
    · cases hbody
    · next hle =>
      cases hbody
      have hlt : i32AsUsize header.compressedPageSize < 2 ^ 31 := i32AsUsize_lt (by omega)
      refine ⟨?_, by omega⟩
      rw [List.length_take]
      omega

section
variable [Platform]

theorem dictionaryPage_lt [SizedPlatform] {chunk : RawChunk} {page : Page} {dict : List Bytes}
    (hbody : page.2.length < 2 ^ 32)
    (h : dictionaryPage decodePlainByteArray page chunk = .ok dict) :
    dict.flatten.length < 2 ^ 32 := by
  obtain ⟨size, hsize, h⟩ := bind_eq_ok.mp h
  obtain ⟨decomp, hdecomp, h⟩ := bind_eq_ok.mp h
  have hlt : size < 2 ^ 31 := by
    unfold pageUncompressedSize at hsize
    split at hsize
    · cases hsize
    · next hnonneg =>
      cases hsize
      exact i32AsUsize_of_nonneg hnonneg
  exact lt_of_le_of_lt (decodePlainByteArray_length h)
    (decompressInto_length_lt hbody hlt hdecomp)

/-! ## The reader of the declared values -/

/-- What one page does to the state. -/
def declaredPage (chunk : RawChunk) (s : DecodeState Bytes) (page : Page) :
    Res CodecError (DecodeState Bytes) :=
  match page.1.pageType with
  | .dictionaryPage => do
    let dict ← dictionaryPage decodePlainByteArray page chunk
    pure { s with dict }
  | .dataPage | .dataPageV2 => do
    let info ← dataPageView page chunk
    let vs ← declaredValues s.dict info
    pure { s with out := s.out ++ vs }
  | .indexPage => .ok s

/-- One page, until the chunk's count is reached. -/
def declaredStep (chunk : RawChunk) (s : DecodeState Bytes) (page : Page) :
    Res CodecError (DecodeState Bytes ⊕ DecodeState Bytes) := do
  let s ← declaredPage chunk s page
  pure (if chunk.totalValues ≤ s.out.length then .inr s else .inl s)

/-- The values of a chunk, as many of each page as its header declares. -/
def readDeclared (file : ParquetFile) (rowGroup column : ℕ) : Res CodecError (List Bytes) := do
  let chunk ← readChunkRaw file rowGroup column
  let s ← walkPages ioToCodec (declaredStep chunk) {} chunk.bytes
  pure s.out

/-- **One page**, in the flat reader and in that of the declared values. -/
theorem offsetsStep_eq {chunk : RawChunk} {s : DecodeState Bytes} {page : Page}
    (hdict : s.dict.flatten.length < 2 ^ 32) : offsetsStep chunk s.flat page
      = Sum.map DecodeState.flat DecodeState.flat <$> declaredStep chunk s page := by
  have hpage : offsetsPage chunk s.flat page = DecodeState.flat <$> declaredPage chunk s page := by
    have hdata : (do
        let info ← dataPageView page chunk
        let out ← offsetsValues s.flat info
        pure { s.flat with out } : Res CodecError OffsetsState)
        = DecodeState.flat <$> (do
          let info ← dataPageView page chunk
          let vs ← declaredValues s.dict info
          pure { s with out := s.out ++ vs }) := by
      cases dataPageView page chunk with
      | error e => rfl
      | ok info =>
        simp only [bind, Except.bind, offsetsValues_flat hdict]
        cases declaredValues s.dict info <;> rfl
    unfold offsetsPage declaredPage
    cases page.1.pageType with
    | dictionaryPage =>
      dsimp only
      cases dictionaryPage decodePlainByteArray page chunk <;> rfl
    | indexPage => rfl
    | dataPage | dataPageV2 => exact hdata
  have hnext : ∀ s : DecodeState Bytes, s.flat.next chunk.totalValues
      = Sum.map DecodeState.flat DecodeState.flat
        (if chunk.totalValues ≤ s.out.length then .inr s else .inl s) := by
    intro s
    have hlen : chunk.totalValues < s.flat.out.offsets.length ↔ chunk.totalValues ≤ s.out.length := by
      rw [DecodeState.flat, OffsetsOut.flat, List.length_cons, length_offsetsFrom, Nat.lt_succ_iff]
    unfold OffsetsState.next
    by_cases h : chunk.totalValues ≤ s.out.length
    · rw [if_pos (hlen.mpr h), if_pos h]
      rfl
    · rw [if_neg (mt hlen.mp h), if_neg h]
      rfl
  rw [offsetsStep, hpage, declaredStep]
  cases declaredPage chunk s page with
  | error e => rfl
  | ok s' => exact congrArg Except.ok (hnext s')

theorem declaredStep_dict_lt [SizedPlatform] {chunk : RawChunk} {s t : DecodeState Bytes}
    {page : Page} (hdict : s.dict.flatten.length < 2 ^ 32) (hbody : page.2.length < 2 ^ 32)
    (h : declaredStep chunk s page = .ok (.inl t)) : t.dict.flatten.length < 2 ^ 32 := by
  obtain ⟨s', hpage, h⟩ := bind_eq_ok.mp h
  have hs' : s'.dict.flatten.length < 2 ^ 32 := by
    unfold declaredPage at hpage
    split at hpage
    · obtain ⟨dict, hpage', h'⟩ := bind_eq_ok.mp hpage
      cases h'
      exact dictionaryPage_lt hbody hpage'
    · obtain ⟨info, -, h'⟩ := bind_eq_ok.mp hpage
      obtain ⟨vs, -, h'⟩ := bind_eq_ok.mp h'
      cases h'
      exact hdict
    · obtain ⟨info, -, h'⟩ := bind_eq_ok.mp hpage
      obtain ⟨vs, -, h'⟩ := bind_eq_ok.mp h'
      cases h'
      exact hdict
    · cases hpage
      exact hdict
  split at h
  · cases h
  · cases h
    exact hs'

variable {file : ParquetFile} {rowGroup column : ℕ}

omit [Platform] in
/-- A chunk is part of its file. -/
theorem length_readChunkRaw {chunk : RawChunk} (hsize : file.bytes.length < 2 ^ 63)
    (h : readChunkRaw file rowGroup column = .ok chunk) : chunk.bytes.length < 2 ^ 63 := by
  obtain ⟨md, cm, bytes, levels, -, -, hbytes, -, rfl⟩ := readChunkRaw_ok h
  unfold ParquetFile.readRange at hbytes
  split at hbytes
  · cases hbytes
  split at hbytes
  · cases hbytes
  cases hbytes
  rw [List.length_take, List.length_drop]
  omega

/-- The states of the flat reader and of that of the declared values. -/
def Flattens (t : OffsetsState) (s : DecodeState Bytes) (bs : Bytes) : Prop :=
  t = s.flat ∧ s.dict.flatten.length < 2 ^ 32 ∧ bs.length < 2 ^ 63

theorem flattens_next [SizedPlatform] {chunk : RawChunk} {s : DecodeState Bytes} {bs rest : Bytes}
    {page : Page} {r : DecodeState Bytes ⊕ DecodeState Bytes}
    (hdict : s.dict.flatten.length < 2 ^ 32) (hbs : bs.length < 2 ^ 63)
    (hnext : nextPage.run bs = .ok (some page, rest)) (h : declaredStep chunk s page = .ok r) :
    Sum.LiftRel (Flattens · · rest) (fun t s => t = DecodeState.flat s)
      (Sum.map DecodeState.flat DecodeState.flat r) r := by
  obtain ⟨hbody, hrest⟩ := length_nextPage hbs hnext
  cases r with
  | inl s' => exact .inl ⟨rfl, declaredStep_dict_lt hdict hbody h, hrest⟩
  | inr s' => exact .inr rfl

/-- **The flat reader** returns the declared values, flattened. -/
theorem readColumnByteArrayOffsets_eq_ok [SizedPlatform] (hsize : file.bytes.length < 2 ^ 63)
    {out : OffsetsOut} : readColumnByteArrayOffsets file rowGroup column = .ok out ↔
      ∃ seen, readDeclared file rowGroup column = .ok seen ∧ out = .flat seen := by
  constructor
  · intro h
    obtain ⟨chunk, hchunk, h⟩ := bind_eq_ok.mp h
    obtain ⟨t, ht, h⟩ := bind_eq_ok.mp h
    cases h
    have hstart : Flattens { out := OffsetsOut.start {} } {} chunk.bytes :=
      ⟨rfl, Nat.two_pow_pos 32, length_readChunkRaw hsize hchunk⟩
    have hpage : ∀ {t : OffsetsState} {s : DecodeState Bytes} {bs : Bytes} {page rest r},
        Flattens t s bs → nextPage.run bs = .ok (some page, rest) →
        offsetsStep chunk t page = .ok r → ∃ r', declaredStep chunk s page = .ok r' ∧
          Sum.LiftRel (Flattens · · rest) (fun t s => t = DecodeState.flat s) r r' := by
      rintro _ s bs page rest _ ⟨rfl, hdict, hbs⟩ hnext hstep
      rw [offsetsStep_eq hdict] at hstep
      obtain ⟨r, hr, rfl⟩ := map_eq_ok.mp hstep
      exact ⟨r, hr, flattens_next hdict hbs hnext hr⟩
    obtain ⟨s, hs, rfl⟩ := walkPages_simulates _ _ (fun hR _ => hR.1) hpage ioToCodec hstart ht
    exact ⟨s.out, bind_eq_ok.mpr ⟨chunk, hchunk, bind_eq_ok.mpr ⟨s, hs, rfl⟩⟩, rfl⟩
  · rintro ⟨seen, h, rfl⟩
    obtain ⟨chunk, hchunk, h⟩ := bind_eq_ok.mp h
    obtain ⟨s, hs, h⟩ := bind_eq_ok.mp h
    cases h
    have hstart : Flattens { out := OffsetsOut.start {} } {} chunk.bytes :=
      ⟨rfl, Nat.two_pow_pos 32, length_readChunkRaw hsize hchunk⟩
    have hpage : ∀ {s : DecodeState Bytes} {t : OffsetsState} {bs : Bytes} {page rest r},
        Flattens t s bs → nextPage.run bs = .ok (some page, rest) →
        declaredStep chunk s page = .ok r → ∃ r', offsetsStep chunk t page = .ok r' ∧
          Sum.LiftRel (fun s t => Flattens t s rest) (fun s t => t = DecodeState.flat s) r r' := by
      rintro s _ bs page rest r ⟨rfl, hdict, hbs⟩ hnext hstep
      refine ⟨_, by rw [offsetsStep_eq hdict, hstep]; rfl, ?_⟩
      have hrel := flattens_next hdict hbs hnext hstep
      cases r with
      | inl s' =>
        obtain ⟨h⟩ := hrel
        exact .inl h
      | inr s' => exact .inr rfl
    obtain ⟨t, ht, rfl⟩ := walkPages_simulates (fun s t bs => Flattens t s bs) _
      (fun hR _ => hR.1) hpage ioToCodec hstart hs
    exact bind_eq_ok.mpr ⟨chunk, hchunk, bind_eq_ok.mpr ⟨_, ht, rfl⟩⟩

/-! ## Pages that declare what they hold -/

/-- A PLAIN page holds no more values than its header declares. -/
def CountedPage (chunk : RawChunk) (page : Page) : Prop :=
  ∀ info vs, dataPageView page chunk = .ok info → info.encoding = .plain →
    decodePlainByteArray info.values = .ok vs → vs.length ≤ info.numValues

/-- So do all the data pages that the owned reader looks at. -/
def Counted (file : ParquetFile) (rowGroup column : ℕ) : Prop :=
  ∀ chunk, readChunkRaw file rowGroup column = .ok chunk →
    ∀ s page, Visits (decodeStep byteArrayDecoder chunk) {} chunk.bytes s page →
      page.1.pageType.IsData → CountedPage chunk page

theorem declaredPage_of_counted {chunk : RawChunk} {page : Page} {s s' : DecodeState Bytes}
    (hcounted : page.1.pageType.IsData → CountedPage chunk page)
    (h : decodePage byteArrayDecoder chunk s page = .ok s') :
    declaredPage chunk s page = .ok s' := by
  have hdata : page.1.pageType.IsData → (do
      let info ← dataPageView page chunk
      let vs ← decodeValues byteArrayDecoder s.dict info
      pure { s with out := s.out ++ vs }) = .ok s' → (do
      let info ← dataPageView page chunk
      let vs ← declaredValues s.dict info
      pure { s with out := s.out ++ vs }) = .ok s' := by
    intro hpage h
    obtain ⟨info, hinfo, h⟩ := bind_eq_ok.mp h
    obtain ⟨vs, hvs, h⟩ := bind_eq_ok.mp h
    cases h
    refine bind_eq_ok.mpr ⟨info, hinfo, bind_eq_ok.mpr ⟨vs, ?_, rfl⟩⟩
    unfold declaredValues
    cases he : info.encoding with
    | plain =>
      have hplain : decodePlainByteArray info.values = .ok vs := by
        rw [decodeValues, he] at hvs
        exact hvs
      have hle := hcounted hpage info vs hinfo he hplain
      exact (declaredPlain_of_decode hplain).trans (by rw [List.take_of_length_le hle])
    | _ => exact hvs
  unfold decodePage at h
  unfold declaredPage
  cases ht : page.1.pageType with
  | dictionaryPage | indexPage =>
    rw [ht] at h
    exact h
  | dataPage =>
    rw [ht] at h
    exact hdata (.inl ht) h
  | dataPageV2 =>
    rw [ht] at h
    exact hdata (.inr ht) h

/-- The same state, and counted pages from there on. -/
def SameCounted (chunk : RawChunk) (s t : DecodeState Bytes) (bs : Bytes) : Prop :=
  s = t ∧ ∀ s' page, Visits (decodeStep byteArrayDecoder chunk) s bs s' page →
    page.1.pageType.IsData → CountedPage chunk page

/-- **Counted pages** are read alike. -/
theorem readDeclared_of_counted {values : List Bytes} (hcounted : Counted file rowGroup column)
    (h : readColumnByteArray file rowGroup column = .ok values) :
    readDeclared file rowGroup column = .ok values := by
  obtain ⟨chunk, hchunk, h⟩ := bind_eq_ok.mp h
  obtain ⟨s, hs, h⟩ := bind_eq_ok.mp h
  cases h
  have hstart : SameCounted chunk {} {} chunk.bytes := ⟨rfl, hcounted chunk hchunk⟩
  have hpage : ∀ {s t : DecodeState Bytes} {bs : Bytes} {page rest r}, SameCounted chunk s t bs →
      nextPage.run bs = .ok (some page, rest) → decodeStep byteArrayDecoder chunk s page = .ok r →
      ∃ r', declaredStep chunk t page = .ok r' ∧
        Sum.LiftRel (SameCounted chunk · · rest) Eq r r' := by
    rintro s _ bs page rest r ⟨rfl, hvisits⟩ hnext hstep
    obtain ⟨s', hs', hr⟩ := bind_eq_ok.mp hstep
    refine ⟨r, bind_eq_ok.mpr ⟨s', declaredPage_of_counted (hvisits s page (.here hnext)) hs', hr⟩,
      ?_⟩
    cases r with
    | inl t => exact .inl ⟨rfl, fun s'' page' hv => hvisits s'' page' (.later hnext hstep hv)⟩
    | inr t => exact .inr rfl
  obtain ⟨t, ht, rfl⟩ := walkPages_simulates _ _ (fun hR _ => hR.1) hpage ioToCodec hstart hs
  exact bind_eq_ok.mpr ⟨chunk, hchunk, bind_eq_ok.mpr ⟨_, ht, rfl⟩⟩

end

/-! ## Offsets that have not wrapped -/

/-- Offsets from 0 to the length of the bytes, between which the values are. -/
structure OffsetsOut.Agrees (out : OffsetsOut) (values : List Bytes) : Prop where
  first : out.offsets.head? = some 0
  sorted : out.offsets.Pairwise (· ≤ ·)
  count : out.offsets.length = values.length + 1
  last : out.offsets.getLast?.map UInt32.toNat = some out.bytes.length
  value : ∀ i v, values[i]? = some v → ∃ lo hi, out.offsets[i]? = some lo ∧
    out.offsets[i + 1]? = some hi ∧
    (slice out.bytes lo.toNat hi.toNat : Res CodecError Bytes) = .ok v

theorem mem_offsetsFrom {n : ℕ} {vs : List Bytes} {x : UInt32} (h : x ∈ offsetsFrom n vs) :
    ∃ m, n ≤ m ∧ m ≤ n + vs.flatten.length ∧ x = UInt32.ofNat m := by
  induction vs generalizing n with
  | nil => cases h
  | cons v vs ih =>
    rw [List.flatten_cons, List.length_append]
    rcases List.mem_cons.mp h with rfl | hmem
    · exact ⟨_, by omega, by omega, rfl⟩
    · obtain ⟨m, hlo, hhi, rfl⟩ := ih hmem
      exact ⟨m, by omega, by omega, rfl⟩

theorem pairwise_offsetsFrom {n : ℕ} {vs : List Bytes} (h : n + vs.flatten.length < 2 ^ 32) :
    (UInt32.ofNat n :: offsetsFrom n vs).Pairwise (· ≤ ·) := by
  induction vs generalizing n with
  | nil => exact List.pairwise_singleton _ _
  | cons v vs ih =>
    refine List.pairwise_cons.mpr ⟨fun x hx => ?_, ?_⟩
    · obtain ⟨m, hlo, hhi, rfl⟩ := mem_offsetsFrom hx
      rw [UInt32.le_iff_toNat_le, UInt32.toNat_ofNat_of_lt' (show n < 2 ^ 32 by omega),
        UInt32.toNat_ofNat_of_lt' (show m < 2 ^ 32 by omega)]
      exact hlo
    · rw [List.flatten_cons, List.length_append] at h
      exact ih (by omega)

/-- **Flattened values** are between their offsets iff these have not wrapped. -/
theorem flat_agrees_iff {seen values : List Bytes} :
    (OffsetsOut.flat seen).Agrees values ↔ seen = values ∧ seen.flatten.length < 2 ^ 32 := by
  have hoffset : ∀ i ≤ seen.length, (OffsetsOut.flat seen).offsets[i]?
      = some (UInt32.ofNat (seen.take i).flatten.length) := by
    intro i hi
    have h := getElem?_offsetsFrom (n := 0) hi
    rwa [Nat.zero_add] at h
  have hlast : (OffsetsOut.flat seen).offsets.getLast?
      = some (UInt32.ofNat seen.flatten.length) := by
    have h := hoffset _ (Nat.le_refl _)
    rw [List.take_length] at h
    rw [List.getLast?_eq_getElem?, ← h]
    simp [OffsetsOut.flat, length_offsetsFrom]
  have hslice : seen.flatten.length < 2 ^ 32 → ∀ i (hi : i < seen.length), ∃ lo hi,
      (OffsetsOut.flat seen).offsets[i]? = some lo ∧
      (OffsetsOut.flat seen).offsets[i + 1]? = some hi ∧
      (slice (OffsetsOut.flat seen).bytes lo.toNat hi.toNat : Res CodecError Bytes)
        = .ok seen[i] := by
    intro hlt i hi
    have hnat : ∀ i, (UInt32.ofNat (seen.take i).flatten.length).toNat
        = (seen.take i).flatten.length := by
      intro i
      refine UInt32.toNat_ofNat_of_lt' (lt_of_le_of_lt ?_ hlt)
      conv_rhs => rw [← List.take_append_drop i seen, List.flatten_append, List.length_append]
      omega
    refine ⟨_, _, hoffset i (by omega), hoffset (i + 1) (by omega), ?_⟩
    rw [hnat, hnat]
    exact slice_flatten hi
  constructor
  · intro h
    have hlt : seen.flatten.length < 2 ^ 32 := by
      have hend := h.last
      rw [hlast, Option.map_some] at hend
      exact (Option.some.inj hend).symm.trans_lt (UInt32.toNat_lt _)
    have hcount := h.count
    rw [OffsetsOut.flat, List.length_cons, length_offsetsFrom, Nat.add_right_cancel_iff] at hcount
    refine ⟨List.ext_getElem hcount fun i hi hi' => ?_, hlt⟩
    obtain ⟨lo, hi₀, hlo, hhi, hvalue⟩ := h.value i _ (List.getElem?_eq_getElem hi')
    obtain ⟨lo', hi₁, hlo', hhi', hvalue'⟩ := hslice hlt i hi
    obtain rfl := Option.some.inj (hlo.symm.trans hlo')
    obtain rfl := Option.some.inj (hhi.symm.trans hhi')
    exact Except.ok.inj (hvalue'.symm.trans hvalue)
  · rintro ⟨rfl, hlt⟩
    refine ⟨rfl, pairwise_offsetsFrom ((Nat.zero_add _).symm ▸ hlt), ?_, ?_, fun i v hv => ?_⟩
    · rw [OffsetsOut.flat, List.length_cons, length_offsetsFrom]
    · rw [hlast, Option.map_some, UInt32.toNat_ofNat_of_lt' hlt]
      rfl
    · obtain ⟨hi, rfl⟩ := List.getElem?_eq_some_iff.mp hv
      exact hslice hlt i hi

section
variable [Platform] [SizedPlatform] {file : ParquetFile} {rowGroup column : ℕ}

/-- **The flat reader agrees with the owned one** on chunks of fewer than `2 ^ 32` bytes
    of values, on pages that declare what they hold; and never on more bytes.  (Where the
    owned reader stops in a page that holds more than it declares, the flat one goes on to
    the next pages, which may happen to hold the same values.) -/
theorem offsets_agree {out : OffsetsOut} {values : List Bytes}
    (hsize : file.bytes.length < 2 ^ 63)
    (hoffsets : readColumnByteArrayOffsets file rowGroup column = .ok out)
    (howned : readColumnByteArray file rowGroup column = .ok values) :
    (values.flatten.length < 2 ^ 32 ∧ Counted file rowGroup column → out.Agrees values) ∧
      (out.Agrees values → values.flatten.length < 2 ^ 32) := by
  obtain ⟨seen, hseen, rfl⟩ := (readColumnByteArrayOffsets_eq_ok hsize).mp hoffsets
  constructor
  · rintro ⟨hlt, hcounted⟩
    obtain rfl := Except.ok.inj (hseen.symm.trans (readDeclared_of_counted hcounted howned))
    exact flat_agrees_iff.mpr ⟨rfl, hlt⟩
  · intro hagrees
    obtain ⟨rfl, hlt⟩ := flat_agrees_iff.mp hagrees
    exact hlt

end

/-! ## Written columns -/

theorem Visits.mem {σ : Type} {onPage : σ → Page → Res CodecError (σ ⊕ σ)} {s t : σ} {bytes : Bytes}
    {page : Page} {pages : List Page} (h : Visits onPage s bytes t page)
    (hpages : PagesOf bytes pages) : page ∈ pages := by
  induction h generalizing pages with
  | here hnext =>
    cases hpages with
    | nil => cases hnext
    | cons hnext' _ =>
      rw [hnext'] at hnext
      cases hnext
      exact List.mem_cons_self
  | later hnext _ _ ih =>
    cases hpages with
    | nil => cases hnext
    | cons hnext' hrest =>
      rw [hnext'] at hnext
      cases hnext
      exact List.mem_cons_of_mem _ (ih hrest)

/-- **The writer's pages** declare what they hold. -/
theorem ChunkOf.counted [Platform] [LawfulPlatform] {options : WriteOptions} {file : ParquetFile}
    {r ix : ℕ} {values : List Bytes} {c : EncodedColumn}
    (h : ChunkOf options file r ix (.byteArray values) c) (hlen : ∀ v ∈ values, v.length < 2 ^ 32) :
    Counted file r ix := by
  intro chunk hchunk s page hvisits hdata info vs hinfo hplain hvs
  have hrows : values.length < 2 ^ 31 := h.rows
  obtain rfl := Except.ok.inj (h.chunk.symm.trans hchunk)
  obtain ⟨p, hp, rfl⟩ := List.mem_map.mp (hvisits.mem h.pages)
  have hfits := h.fits p hp
  obtain ⟨hcount, hencoding⟩ := dataPageView_info hinfo
  have hpages := h.encoded
  cases hpages with
  | @plain data hdict hpage =>
    obtain ⟨compressed, hcompress, hpage⟩ := bind_eq_ok.mp hpage
    cases hpage
    obtain rfl := List.mem_singleton.mp hp
    have hvalues : info.numValues = values.length ∧ info.values = encodePlainByteArray values := by
      cases hversion : options.pageVersion with
      | v1 =>
        rw [hversion] at hinfo hfits
        obtain rfl := Except.ok.inj ((dataPageView_v1 rfl rfl hfits.1 hcompress ⟨rfl, rfl⟩).symm.trans
          hinfo)
        exact ⟨i32AsUsize_ofNat hrows, rfl⟩
      | v2 =>
        rw [hversion] at hinfo hfits
        obtain rfl := Except.ok.inj
          ((dataPageView_v2 rfl rfl rfl hfits.1 hcompress rfl ⟨rfl, rfl⟩).symm.trans hinfo)
        exact ⟨i32AsUsize_ofNat hrows, rfl⟩
    rw [hvalues.2, decodePlainByteArray_encodePlainByteArray hlen] at hvs
    cases hvs
    exact hvalues.1.ge
  | @dict dictionary data hdict hpage =>
    unfold encodeDictColumn at hpage
    split at hpage
    · cases hpage
    obtain ⟨dictCompressed, -, hpage⟩ := bind_eq_ok.mp hpage
    obtain ⟨dataCompressed, -, hpage⟩ := bind_eq_ok.mp hpage
    cases hpage
    rcases List.mem_cons.mp hp with rfl | hp
    · rcases hdata with hdata | hdata <;> cases hdata
    · -- a page of indices
      obtain rfl := List.mem_singleton.mp hp
      rw [hplain] at hencoding
      cases hencoding

/-! ## A dictionary of one value -/

/-- A value of 64 KiB. -/
def longValue : Bytes := List.replicate 65536 0

/-- It is the dictionary, and 65536 rows are its only entry. -/
def repeatedPages : List Page :=
  [sampleBytesPage .dictionaryPage 1 .plain (encodePlainByteArray [longValue]),
   sampleBytesPage .dataPage 65536 .rleDictionary [0]]

/-- A chunk whose page repeats one entry 65536 times. -/
def repeatedChunk : RawChunk where
  bytes := repeatedPages.flatMap writePage
  totalValues := 65536
  codec := .uncompressed
  maxRepLevel := 0
  maxDefLevel := 0

/-- The metadata of the repeated chunk. -/
def repeatedMetaData : ColumnMetaData :=
  { sampleBytesMetaData with
    numValues := 65536, totalUncompressedSize := 65577, totalCompressedSize := 65577 }

/-- The metadata of the repeated file. -/
def repeatedFooter : FileMetaData :=
  { sampleBytesFooter with
    numRows := 65536
    rowGroups := [{ columns := [{ fileOffset := 4, metaData := some repeatedMetaData }],
                    numRows := 65536 }] }

/-- The footer of the repeated file. -/
def repeatedFooterBytes : Bytes := ((writeFileMetadata repeatedFooter).toOption).getD []

/-- The repeated file. -/
def repeatedFile : ParquetFile where
  bytes := parquetMagic ++ repeatedChunk.bytes ++ repeatedFooterBytes
    ++ leBytes 4 repeatedFooterBytes.length ++ parquetMagic
  footerBytes := repeatedFooterBytes
  footerOffset := 4 + repeatedChunk.bytes.length

theorem length_longValue : longValue.length = 65536 := List.length_replicate

theorem length_dictionary : (encodePlainByteArray [longValue]).length = 65540 := by
  simp [encodePlainByteArray, length_longValue]

theorem repeatedPages_eq : repeatedPages =
    [({ pageType := .dictionaryPage, uncompressedPageSize := 65540, compressedPageSize := 65540
        crc := none, dataPageHeader := none, indexPageHeader := none
        dictionaryPageHeader := some { numValues := 1, encoding := .plain, isSorted := none }
        dataPageHeaderV2 := none }, encodePlainByteArray [longValue]),
     sampleBytesPage .dataPage 65536 .rleDictionary [0]] := by
  rw [repeatedPages, sampleBytesPage, length_dictionary]
  rfl

theorem length_dictionaryPage {header : PageHeader} (h : (writePageHeader header).length = 17) :
    (writePage (header, encodePlainByteArray [longValue])).length = 65557 := by
  rw [writePage, List.length_append, h, length_dictionary]

theorem length_repeatedChunk : repeatedChunk.bytes.length = 65577 := by
  have hdata : (writePage (sampleBytesPage .dataPage 65536 .rleDictionary [0])).length = 20 := by
    decide +kernel
  have hbytes : repeatedChunk.bytes = repeatedPages.flatMap writePage := rfl
  rw [hbytes, repeatedPages_eq, List.flatMap_cons, List.flatMap_cons, List.flatMap_nil,
    List.append_nil, List.length_append, length_dictionaryPage (by decide +kernel), hdata]

theorem pagesOf_repeatedChunk : PagesOf repeatedChunk.bytes repeatedPages := by
  refine pagesOf_flatMap fun page hpage => ?_
  rw [repeatedPages_eq] at hpage
  rcases List.mem_cons.mp hpage with rfl | hpage
  · exact ⟨by decide +kernel, by rw [length_dictionary]; decide +kernel⟩
  · obtain rfl := List.mem_singleton.mp hpage
    exact ⟨by decide +kernel, by decide +kernel⟩

theorem readChunkRaw_repeatedFile : readChunkRaw repeatedFile 0 0 = .ok repeatedChunk := by
  have hmd : repeatedFile.metadata = .ok repeatedFooter :=
    ParquetFile.metadata_of_written rfl (by decide +kernel)
  have hlevels : computeMaxLevels repeatedFooter.schema 0 = .ok (0, 0) :=
    computeMaxLevels_flat rfl (by decide) (by decide) (by decide)
  have hfile : repeatedFile.bytes = parquetMagic ++ (repeatedChunk.bytes
      ++ (repeatedFooterBytes ++ (leBytes 4 repeatedFooterBytes.length ++ parquetMagic))) := by
    simp only [repeatedFile, List.append_assoc]
  have hmagic : parquetMagic.length = 4 := rfl
  have hbytes : repeatedFile.readRange 4 65577 = .ok repeatedChunk.bytes := by
    rw [ParquetFile.readRange_eq (by
      rw [hfile, List.length_append, List.length_append, length_repeatedChunk, hmagic]
      omega), hfile, List.drop_left' hmagic, List.take_left' length_repeatedChunk]
  have hcm : columnMetaData repeatedFooter 0 0 = .ok repeatedMetaData := rfl
  rw [readChunkRaw_eq hmd hcm hbytes hlevels]
  rfl

section
variable [Platform]

theorem readColumnByteArray_repeatedFile :
    readColumnByteArray repeatedFile 0 0 = .ok (List.replicate 65536 longValue) := by
  have hdict : decodePage byteArrayDecoder repeatedChunk {}
      (sampleBytesPage .dictionaryPage 1 .plain (encodePlainByteArray [longValue]))
      = .ok { dict := [longValue] } := by
    refine bind_eq_ok.mpr ⟨[longValue], ?_, rfl⟩
    refine bind_eq_ok.mpr ⟨65540, by rw [sampleBytesPage, length_dictionary]; rfl, ?_⟩
    refine bind_eq_ok.mpr ⟨_, rfl, decodePlainByteArray_encodePlainByteArray fun v hv => ?_⟩
    rw [List.mem_singleton.mp hv, length_longValue]
    decide
  have hstep : decodeStep byteArrayDecoder repeatedChunk {} _ = .ok (.inl { dict := [longValue] }) :=
    bind_eq_ok.mpr ⟨_, hdict, rfl⟩
  have hindices : decodeRleDictionaryIndices [0] 65536 = .ok (List.replicate 65536 0) := by
    rw [decodeRleDictionaryIndices, if_neg (by decide), if_neg (by decide), if_pos rfl]
  have hvs : decodeValues byteArrayDecoder [longValue] ⟨65536, .rleDictionary, [0]⟩
      = .ok (List.replicate 65536 longValue) := by
    rw [decodeValues.eq_def]
    dsimp only
    rw [if_neg (List.cons_ne_nil _ _)]
    refine bind_eq_ok.mpr ⟨_, hindices, mapM_eq_ok.mpr ?_⟩
    exact List.forall₂_iff_get.mpr ⟨by simp only [List.length_replicate], fun i hi hi' => by
      simp only [List.get_eq_getElem, List.getElem_replicate]
      rfl⟩
  rw [readColumnByteArray, decodeChunk_eq _ readChunkRaw_repeatedFile pagesOf_repeatedChunk,
    repeatedPages, foldPages, hstep]
  exact decodeStep_data (s := { dict := [longValue] }) (.inl rfl) rfl hvs

theorem counted_repeatedFile : Counted repeatedFile 0 0 := by
  intro chunk hchunk s page hvisits hdata info vs hinfo hplain hvs
  obtain rfl := Except.ok.inj (readChunkRaw_repeatedFile.symm.trans hchunk)
  have hmem := hvisits.mem pagesOf_repeatedChunk
  have hencoding := (dataPageView_info hinfo).2
  rw [hplain] at hencoding
  rcases List.mem_cons.mp hmem with rfl | hmem
  · rcases hdata with hdata | hdata <;> cases hdata
  · obtain rfl := List.mem_singleton.mp hmem
    cases hencoding

end

theorem counted_sampleBytesFile [Platform] : Counted sampleBytesFile 0 0 := by
  intro chunk hchunk s page hvisits hdata info vs hinfo hplain hvs
  obtain rfl := Except.ok.inj (readChunkRaw_sampleBytesFile.symm.trans hchunk)
  have hmem := hvisits.mem wellFormed_sampleBytesChunk.pagesOf
  obtain ⟨encoding, hencoding, hview⟩ := dataPageView_sampleBytesPage hmem hdata
  obtain rfl := Except.ok.inj (hview.symm.trans hinfo)
  simp only [sampleBytesPages, List.mem_cons, List.not_mem_nil, or_false] at hmem
  rcases hmem with rfl | rfl | rfl
  · rcases hdata with h | h <;> cases h
  · obtain rfl : encoding = .plain := hplain
    cases hencoding
  · rw [show vs = [[0x64]] from
      Except.ok.inj (hvs.symm.trans (decodePlainByteArray_encodePlainByteArray (by decide)))]
    exact Nat.le_refl 1

theorem offsets_agree_sample :
    @readColumnByteArrayOffsets Platform.stored sampleBytesFile 0 0
        = .ok { bytes := [0x61, 0x62, 0x63, 0x61, 0x64], offsets := [0, 1, 3, 4, 5] } ∧
      OffsetsOut.Agrees { bytes := [0x61, 0x62, 0x63, 0x61, 0x64], offsets := [0, 1, 3, 4, 5] }
        [[0x61], [0x62, 0x63], [0x61], [0x64]] := by
  let _ := Platform.stored
  let _ := Platform.stored_sized
  have hoffsets : readColumnByteArrayOffsets sampleBytesFile 0 0
      = .ok { bytes := [0x61, 0x62, 0x63, 0x61, 0x64], offsets := [0, 1, 3, 4, 5] } := by
    decide +kernel
  have hsize : sampleBytesFile.bytes.length < 2 ^ 63 := by decide +kernel
  exact ⟨hoffsets, (offsets_agree hsize hoffsets readColumnByteArray_sampleBytesFile).1
    ⟨by decide, counted_sampleBytesFile⟩⟩

/-- 64 KiB of file are 4 GiB of values: the last offset has wrapped to 0. -/
theorem offsets_wrap : ∃ out, @readColumnByteArrayOffsets Platform.stored repeatedFile 0 0
      = .ok out ∧
    @readColumnByteArray Platform.stored repeatedFile 0 0
      = .ok (List.replicate 65536 longValue) ∧
    ¬ out.Agrees (List.replicate 65536 longValue) := by
  let _ := Platform.stored
  let _ := Platform.stored_sized
  have hsize : repeatedFile.bytes.length < 2 ^ 63 := by
    have hfooter : repeatedFooterBytes.length = 65 := by decide +kernel
    simp only [repeatedFile, List.length_append, length_repeatedChunk, hfooter, length_leBytes]
    decide
  have hdeclared := readDeclared_of_counted counted_repeatedFile readColumnByteArray_repeatedFile
  refine ⟨_, (readColumnByteArrayOffsets_eq_ok hsize).mpr ⟨_, hdeclared, rfl⟩,
    readColumnByteArray_repeatedFile, fun h => ?_⟩
  have hlt := (flat_agrees_iff.mp h).2
  rw [longValue, List.flatten_replicate_replicate, List.length_replicate] at hlt
  omega

end EmatixParquet
