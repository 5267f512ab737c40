/-
  Columns of booleans, a bit each (`decode_plain_bool` of `plain.rs`).

  * `decodePlainBool_eq`: what is decoded are the bits, from the lowest of each byte on;
  * `writeBoolColumn_read`: a written column is decoded to its values, whatever pads it.
-/
import EmatixParquet.Codec.SingleColumn

namespace EmatixParquet

open Wire

/-- Bits past `num_values` are padding. -/
def decodePlainBool (bytes : Bytes) (numValues : ℕ) : Res CodecError (List Bool) :=
  if bytes.length < divCeil numValues 8 then
    codecErr (.underflowingPlainBuffer 1 bytes.length numValues)
  else (List.range numValues).mapM (bitmapBit bytes)

/-! ## Bits -/

theorem le_divCeil_eight (n : ℕ) : n ≤ 8 * divCeil n 8 := by
  rw [divCeil]
  omega

/-- What is decoded, if there are bytes enough. -/
theorem decodePlainBool_eq {bytes : Bytes} {n : ℕ} (h : divCeil n 8 ≤ bytes.length) :
    decodePlainBool bytes n = .ok ((List.range n).map (leNat bytes).testBit) := by
  rw [decodePlainBool, if_neg (Nat.not_lt.mpr h), mapM_eq_ok, List.forall₂_map_right_iff]
  refine List.forall₂_same.mpr fun i hi => bitmapBit_eq bytes ?_
  have hn := le_divCeil_eight n
  have hlt := List.mem_range.mp hi
  omega

/-- One row more: its bit is set if it is true, and no other is touched. -/
theorem testBit_setRow {out : Bytes} {i : ℕ} (hi : i / 8 < out.length) (v : Bool) (r : ℕ) :
    (leNat (if v then out.modify (i / 8) (· ||| (1 <<< UInt8.ofNat (i % 8))) else out)).testBit r
      = ((leNat out).testBit r || (decide (r = i) && v)) := by
  cases v with
  | false => simp
  | true =>
    have hset : out.modify (i / 8) (· ||| (1 <<< UInt8.ofNat (i % 8)))
        = out.set (i / 8) (out[i / 8] ||| (1 <<< UInt8.ofNat (i % 8))) := by
      refine List.ext_getElem? fun k => ?_
      rw [List.getElem?_modify, List.getElem?_set]
      by_cases hk : i / 8 = k
      · subst hk
        simp [hi]
      · simp [hk]
    rw [if_pos rfl, hset, testBit_set_bit hi (.inr rfl)]
    rfl

/-- The bits of a buffer, by induction on the rows that go into it. -/
theorem testBit_setRows (values : List Bool) {out : Bytes} {start : ℕ}
    (hlen : start + values.length ≤ 8 * out.length) (r : ℕ) :
    (leNat ((values.zipIdx start).foldl
      (fun out (v, i) => if v then out.modify (i / 8) (· ||| (1 <<< UInt8.ofNat (i % 8))) else out)
      out)).testBit r
      = ((leNat out).testBit r || (decide (start ≤ r) && (values[r - start]?).getD false)) := by
  induction values generalizing out start with
  | nil => simp
  | cons v values ih =>
    rw [List.length_cons] at hlen
    have hi : start / 8 < out.length := by omega
    have hout : (if v then out.modify (start / 8) (· ||| (1 <<< UInt8.ofNat (start % 8)))
        else out).length = out.length := by
      cases v <;> simp
    rw [List.zipIdx_cons, List.foldl_cons, ih (by rw [hout]; omega), testBit_setRow hi, Bool.or_assoc]
    congr 1
    rcases Nat.lt_trichotomy r start with hr | rfl | hr
    · simp [Nat.not_le.mpr hr, Nat.ne_of_lt hr, Nat.not_le.mpr (Nat.lt_succ_of_lt hr)]
    · simp
    · obtain ⟨k, rfl⟩ := Nat.exists_eq_add_of_lt hr
      have hk : start + k + 1 - start = k + 1 := by omega
      have hk' : start + k + 1 - (start + 1) = k := by omega
      have hne : start + k + 1 ≠ start := by omega
      have hle : start ≤ start + k + 1 := by omega
      have hle' : start + 1 ≤ start + k + 1 := by omega
      simp [hk, hk', hne, hle, hle']

theorem length_setRows (rows : List (Bool × ℕ)) (out : Bytes) :
    (rows.foldl
      (fun out (v, i) => if v then out.modify (i / 8) (· ||| (1 <<< UInt8.ofNat (i % 8))) else out)
      out).length = out.length := by
  induction rows generalizing out with
  | nil => rfl
  | cons row rows ih =>
    obtain ⟨v, i⟩ := row
    rw [List.foldl_cons, ih]
    cases v <;> simp

/-- **Booleans are read back**, whatever follows their bytes. -/
theorem decodePlainBool_encodePlainBool (values : List Bool) (rest : Bytes) :
    decodePlainBool (encodePlainBool values ++ rest) values.length = .ok values := by
  have hlen : (encodePlainBool values).length = divCeil values.length 8 := by
    rw [encodePlainBool, length_setRows, List.length_replicate]
  have hbits := le_divCeil_eight values.length
  rw [decodePlainBool_eq (by rw [List.length_append, hlen]; exact Nat.le_add_right _ _)]
  refine congrArg Except.ok (List.ext_getElem (by simp) fun i hi hi' => ?_)
  have hzero : (leNat (List.replicate (divCeil values.length 8) (0 : UInt8))).testBit i = false := by
    rw [testBit_bytes, List.getElem?_replicate]
    split <;> simp
  rw [List.getElem_map, List.getElem_range, testBit_append, hlen, if_pos (by omega), encodePlainBool,
    testBit_setRows values (by rw [List.length_replicate]; omega), hzero]
  simp [hi']

/-! ## Files -/

/-- **Columns of booleans are read back**: the chunk of the file is one page, whose
    values decode to those of the column. -/
theorem writeBoolColumn_read [Platform] [LawfulPlatform] {name : String} {values : List Bool}
    {codec : CompressionCodec} {w : WrittenColumn} (h : writeBoolColumn name values codec = .ok w)
    (hshort : w.Short values.length) :
    ∃ file chunk page info, ParquetFile.open w.bytes = .ok file ∧ file.metadata = .ok w.metadata ∧
      readChunkRaw file 0 0 = .ok chunk ∧ PagesOf chunk.bytes [page] ∧
      dataPageView page chunk = .ok info ∧
      decodePlainBool info.values info.numValues = .ok values := by
  have hof : w.Of name (.bool values) codec false := (writeColumn_eq_ok.mp h).1
  obtain ⟨file, hopen, hmd, hchunk⟩ := hof.chunkOf hshort
  obtain ⟨encoding, hview, -, -, hbody⟩ := hchunk.dataPage hchunk.chunk
  have hdictionary : w.encoded.dictionary = none := by
    obtain ⟨⟨dictionary, data, stats, bloom⟩, metadata, footer⟩ := w
    cases hof.encoded with
    | plain => rfl
    | dict hdict => cases hdict
  have hlist : (w.encoded.dictionary.toList ++ [w.encoded.data]).map EncodedPage.page
      = [w.encoded.data.page] := by
    rw [hdictionary]
    rfl
  have hpages : PagesOf _ ((w.encoded.dictionary.toList ++ [w.encoded.data]).map EncodedPage.page) :=
    hchunk.pages
  rw [hlist] at hpages
  rcases hbody with ⟨-, hplain⟩ | ⟨-, _, _, _, hdict, -⟩
  · refine ⟨file, _, _, _, hopen, hmd, hchunk.chunk, hpages, hview, ?_⟩
    have hdecode := decodePlainBool_encodePlainBool values []
    rw [List.append_nil] at hdecode
    dsimp only at hplain ⊢
    rw [hplain]
    exact hdecode
  · cases hdict

/-- Ten values, in snappy. -/
theorem writeBoolColumn_read_sample : ∃ w file chunk page info,
    @writeBoolColumn Platform.stored "flag" (List.replicate 9 true ++ [false]) .snappy = .ok w ∧
    ParquetFile.open w.bytes = .ok file ∧ readChunkRaw file 0 0 = .ok chunk ∧
    PagesOf chunk.bytes [page] ∧ @dataPageView Platform.stored page chunk = .ok info ∧
    decodePlainBool info.values info.numValues = .ok (List.replicate 9 true ++ [false]) := by
  let _ := Platform.stored
  let _ := Platform.stored_lawful
  have hlengths : WrittenColumn.lengths <$>
      writeBoolColumn "flag" (List.replicate 9 true ++ [false]) .snappy = .ok (157, 106, [(2, 4)]) := by
    decide +kernel
  obtain ⟨w, hw, hlengths⟩ := map_eq_ok.mp hlengths
  have hshort : w.Short (List.replicate 9 true ++ [false]).length :=
    WrittenColumn.short_of_lengths hlengths (by decide) (by decide) (by decide) (by decide)
  obtain ⟨file, chunk, page, info, hopen, -, hread⟩ := writeBoolColumn_read hw hshort
  exact ⟨w, file, chunk, page, info, hw, hopen, hread⟩

end EmatixParquet
