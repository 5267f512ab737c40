/-
  `ColumnData` (`write.rs`) — the columns of a table, their PLAIN and
  dictionary encodings and their statistics.

  * `entryOf_buildDict`: every index of a dictionary points at its value, and
    the entries are values of the column;
  * `lt_minBitWidthForDict`: the indices fit in the width that is recorded.
-/
import EmatixParquet.Codec.Bloom
import EmatixParquet.Format.Metadata

namespace EmatixParquet

open Wire

/-- `s.as_bytes()`. -/
def asBytes (s : String) : Bytes := s.toByteArray.data.toList

theorem asBytes_ofList (l : List Char) :
    asBytes (String.ofList l) = l.flatMap String.utf8EncodeChar := by
  rw [asBytes, String.toByteArray_ofList]
  simp [List.utf8Encode]

/-! ## Columns -/

/-- The values of a column, by their type. -/
inductive ColumnData where
  | i32 (values : List Int32)
  | i64 (values : List Int64)
  | u64 (values : List UInt64)
  | f64 (values : List F64)
  | bool (values : List Bool)
  | byteArray (values : List Bytes)
  deriving DecidableEq

namespace ColumnData

/-- `row_count`. -/
def rowCount : ColumnData → ℕ
  | i32 v => v.length
  | i64 v => v.length
  | u64 v => v.length
  | f64 v => v.length
  | bool v => v.length
  | byteArray v => v.length

/-- `parquet_type`; unsigned values are stored as INT64. -/
def parquetType : ColumnData → ParquetType
  | i32 _ => .int32
  | i64 _ => .int64
  | u64 _ => .int64
  | f64 _ => .double
  | bool _ => .boolean
  | byteArray _ => .byteArray

/-- The PLAIN encoding of the values. -/
def encodePlain : ColumnData → Bytes
  | i32 v => encodePlainI32 v
  | i64 v => encodePlainI64 v
  | u64 v => encodePlainU64 v
  | f64 v => encodePlainF64 v
  | bool v => encodePlainBool v
  | byteArray v => encodePlainByteArray v

/-- `self.slice(start..stop)`. -/
def slice (start stop : ℕ) : ColumnData → Res CodecError ColumnData
  | i32 v => i32 <$> Wire.slice v start stop
  | i64 v => i64 <$> Wire.slice v start stop
  | u64 v => u64 <$> Wire.slice v start stop
  | f64 v => f64 <$> Wire.slice v start stop
  | bool v => bool <$> Wire.slice v start stop
  | byteArray v => byteArray <$> Wire.slice v start stop

/-- Only `u64` columns carry a marker. -/
def convertedType : ColumnData → Option ConvertedType
  | u64 _ => some .uint64
  | _ => none

end ColumnData

/-! ## Dictionaries -/

section
variable {α : Type} [DecidableEq α]

/-- The state of `build_dict_with`: the map, the positions of first
    occurrences, and the indices so far. -/
structure DictState (α : Type) where
  map : List (α × UInt32) := []
  positions : List ℕ := []
  indices : List UInt32 := []

/-- One value, at position `ix`.  Doubles are compared by bit pattern. -/
def DictState.insert (s : DictState α) (v : α) (ix : ℕ) : DictState α :=
  match s.map.lookup v with
  | some existing => { s with indices := s.indices ++ [existing] }
  | none =>
    let newIx := UInt32.ofNat s.positions.length
    { map := (v, newIx) :: s.map
      positions := s.positions ++ [ix]
      indices := s.indices ++ [newIx] }

/-- The dictionary over the values from index `ix` on. -/
def buildDictFrom (s : DictState α) : ℕ → List α → DictState α
  | _, [] => s
  | ix, v :: vs => buildDictFrom (s.insert v ix) (ix + 1) vs

/-- `build_dict_{i32, i64, f64, byte_array}`: the dictionary, in order of first
    occurrence, and the indices. -/
def buildDict (values : List α) : List α × List UInt32 :=
  let s := buildDictFrom {} 0 values
  (s.positions.filterMap fun p => values[p]?, s.indices)

end

/-- `encode_dict`: the body of the dictionary page, the number of its entries,
    and the indices. -/
def ColumnData.encodeDict : ColumnData → Option (Bytes × ℕ × List UInt32)
  | i32 v =>
    let (dict, indices) := buildDict v
    some (encodePlainI32 dict, dict.length, indices)
  | i64 v =>
    let (dict, indices) := buildDict v
    some (encodePlainI64 dict, dict.length, indices)
  | f64 v =>
    let (dict, indices) := buildDict v
    some (encodePlainF64 dict, dict.length, indices)
  | byteArray v =>
    let (dict, indices) := buildDict v
    some (encodePlainByteArray dict, dict.length, indices)
  | u64 _ => none
  | bool _ => none

/-- `min_bit_width_for_dict`. -/
def minBitWidthForDict (dictLen : ℕ) : UInt8 :=
  if dictLen ≤ 1 then 0 else UInt8.ofNat (bitLength (UInt32.ofNat dictLen - 1).toNat)

section
variable {α : Type} [DecidableEq α]

/-- After the values `seen`: the map sends each of them to its entry. -/
structure DictState.Reached (s : DictState α) (values seen : List α) : Prop where
  prefix_eq : seen <+: values
  positions_lt : ∀ p ∈ s.positions, p < seen.length
  positions_le : s.positions.length ≤ seen.length
  nonempty : seen ≠ [] → s.positions ≠ []
  map_iff : ∀ v idx, s.map.lookup v = some idx →
    ∃ p, s.positions[idx.toNat]? = some p ∧ values[p]? = some v
  seen_mem : ∀ v ∈ seen, (s.map.lookup v).isSome
  entries : List.Forall₂ (fun idx v => ∃ p, s.positions[idx.toNat]? = some p ∧
    values[p]? = some v) s.indices seen

/-- One more value, as long as there are fewer than `2 ^ 32`. -/
theorem DictState.Reached.insert {s : DictState α} {values seen rest : List α} {v : α}
    (h : s.Reached values seen) (hvalues : values = seen ++ v :: rest)
    (hlen : seen.length < 2 ^ 32) :
    (s.insert v seen.length).Reached values (seen ++ [v]) := by
  have hpre : seen ++ [v] <+: values := ⟨rest, by simp [hvalues]⟩
  have hv : values[seen.length]? = some v := by simp [hvalues]
  unfold DictState.insert
  cases hlookup : s.map.lookup v with
  | some existing =>
    refine ⟨hpre, fun p hp => ?_, ?_, fun _ => ?_, h.map_iff, ?_, ?_⟩
    · have := h.positions_lt p hp
      simp
      omega
    · have := h.positions_le
      simp
      omega
    · obtain ⟨p, hp, -⟩ := h.map_iff v existing hlookup
      rintro hnil
      simp only at hnil
      simp [hnil] at hp
    · intro w hw
      rcases List.mem_append.mp hw with hw | hw
      · exact h.seen_mem w hw
      · rw [List.mem_singleton.mp hw, hlookup]
        rfl
    · exact List.rel_append h.entries (.cons (h.map_iff v existing hlookup) .nil)
  | none =>
    have hix : (UInt32.ofNat s.positions.length).toNat = s.positions.length := by
      have := h.positions_le
      exact UInt32.toNat_ofNat_of_lt' (by change _ < 2 ^ 32; omega)
    have hgrow : ∀ {k p : ℕ}, s.positions[k]? = some p →
        (s.positions ++ [seen.length])[k]? = some p := by
      intro k p hk
      have hlt := (List.getElem?_eq_some_iff.mp hk).1
      rwa [List.getElem?_append_left hlt]
    have hnew : (s.positions ++ [seen.length])[(UInt32.ofNat s.positions.length).toNat]?
        = some seen.length := by
      rw [hix]
      simp
    refine ⟨hpre, ?_, ?_, fun _ => ?_, ?_, ?_, ?_⟩
    · intro p hp
      rcases List.mem_append.mp hp with hp | hp
      · have := h.positions_lt p hp
        simp
        omega
      · simp [List.mem_singleton.mp hp]
    · have := h.positions_le
      simp
      omega
    · simp
    · intro w idx hw
      rw [List.lookup_cons] at hw
      split at hw
      · next heq =>
        rw [beq_iff_eq] at heq
        cases hw
        exact ⟨seen.length, hnew, by rw [heq, hv]⟩
      · obtain ⟨p, hp, hget⟩ := h.map_iff w idx hw
        exact ⟨p, hgrow hp, hget⟩
    · intro w hw
      rw [List.lookup_cons]
      split
      · rfl
      · next hne =>
        rcases List.mem_append.mp hw with hw | hw
        · exact h.seen_mem w hw
        · simp [List.mem_singleton.mp hw] at hne
    · refine List.rel_append (h.entries.imp fun idx w hw => ?_) (.cons ⟨_, hnew, hv⟩ .nil)
      obtain ⟨p, hp, hget⟩ := hw
      exact ⟨p, hgrow hp, hget⟩

theorem reached_buildDictFrom {s : DictState α} {values seen rest : List α}
    (h : s.Reached values seen) (hvalues : values = seen ++ rest)
    (hlen : values.length ≤ 2 ^ 32) :
    (buildDictFrom s seen.length rest).Reached values values := by
  induction rest generalizing s seen with
  | nil =>
    rw [List.append_nil] at hvalues
    rw [buildDictFrom, hvalues]
    exact hvalues ▸ h
  | cons v rest ih =>
    have hlt : seen.length < 2 ^ 32 := by
      rw [hvalues, List.length_append, List.length_cons] at hlen
      omega
    have hstep := ih (h.insert hvalues hlt) (by simp [hvalues])
    rw [List.length_append] at hstep
    exact hstep

omit [DecidableEq α] in
/-- Positions inside the values are looked up one by one. -/
theorem getElem?_filterMap_values {values : List α} {positions : List ℕ}
    (h : ∀ p ∈ positions, p < values.length) (k : ℕ) :
    (positions.filterMap fun p => values[p]?)[k]? = positions[k]?.bind fun p => values[p]? := by
  induction positions generalizing k with
  | nil => rfl
  | cons p positions ih =>
    have hp := h p List.mem_cons_self
    have hrest := ih fun q hq => h q (List.mem_cons_of_mem _ hq)
    rw [List.filterMap_cons, List.getElem?_eq_getElem hp]
    cases k with
    | zero => simp [List.getElem?_eq_getElem hp]
    | succ k => simpa using hrest k

/-- **Dictionaries**: the entries are values, and every index points at its
    value. -/
theorem entryOf_buildDict {values dict : List α} {indices : List UInt32}
    (hlen : values.length ≤ 2 ^ 32) (h : buildDict values = (dict, indices)) :
    List.Forall₂ (EntryOf dict) indices values ∧ dict.length ≤ values.length ∧
      (∀ v ∈ dict, v ∈ values) ∧ (values ≠ [] → dict ≠ []) := by
  have hstart : ({} : DictState α).Reached values [] :=
    ⟨List.nil_prefix, by simp, by simp, by simp, by simp, by simp, .nil⟩
  have hend := reached_buildDictFrom hstart rfl hlen
  rw [List.length_nil] at hend
  cases h
  set s := buildDictFrom ({} : DictState α) 0 values
  have hget := getElem?_filterMap_values hend.positions_lt
  have hdict : (s.positions.filterMap fun p => values[p]?).length = s.positions.length := by
    rw [List.length_filterMap_eq_countP, List.countP_eq_length]
    intro p hp
    simp [List.getElem?_eq_getElem (hend.positions_lt p hp)]
  refine ⟨hend.entries.imp fun idx v hv => ?_, ?_, fun v hv => ?_, fun hne hnil => ?_⟩
  · obtain ⟨p, hp, hv⟩ := hv
    rw [EntryOf, hget, hp]
    exact hv
  · rw [hdict]
    exact hend.positions_le
  · obtain ⟨p, -, hp⟩ := List.mem_filterMap.mp hv
    exact List.mem_of_getElem? hp
  · rw [hnil] at hdict
    exact hend.nonempty hne (List.length_eq_zero_iff.mp hdict.symm)

end

/-- **Widths**: every index into the dictionary fits. -/
theorem lt_minBitWidthForDict {dictLen idx : ℕ} (hlen : dictLen < 2 ^ 32) (h : idx < dictLen) :
    idx < 2 ^ (minBitWidthForDict dictLen).toNat := by
  unfold minBitWidthForDict
  split
  · change idx < 1
    omega
  · have hsub : (UInt32.ofNat dictLen - 1).toNat = dictLen - 1 := by
      have hn : (UInt32.ofNat dictLen).toNat = dictLen := UInt32.toNat_ofNat_of_lt' hlen
      rw [UInt32.toNat_sub_of_le _ _ (by rw [UInt32.le_iff_toNat_le, hn]; change 1 ≤ dictLen; omega),
        hn]
      rfl
    have hbits := bitLength_le (show dictLen - 1 < 2 ^ 32 by omega)
    have hw : (UInt8.ofNat (bitLength (dictLen - 1))).toNat = bitLength (dictLen - 1) :=
      UInt8.toNat_ofNat_of_lt' (by change _ < 2 ^ 8; omega)
    have := lt_two_pow_bitLength (dictLen - 1)
    rw [hsub, hw]
    omega

theorem minBitWidthForDict_le (dictLen : ℕ) : minBitWidthForDict dictLen ≤ 32 := by
  unfold minBitWidthForDict
  split
  · decide
  · have hbits := bitLength_le (UInt32.ofNat dictLen - 1).toNat_lt
    rw [UInt8.le_iff_toNat_le, UInt8.toNat_ofNat_of_lt' (by change _ < 2 ^ 8; omega)]
    exact hbits

end EmatixParquet
