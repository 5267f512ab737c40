/-
  Level streams skipped and decoded (`levels.rs`).

  `skip_v1_level_prefixes` goes over the length prefixes of a V1 body;
  `parse_v1_data_page_body` decodes the streams behind them as well.  Where both
  return, the values begin at the same byte.  The parser may panic over the first
  stream before it sees that the second is cut off.

  * `LevelsWhole`: the stream at the start of some bytes is there;
  * `decodeLevels_returns_iff`: when the levels of a whole stream are decoded
    without a panic;
  * `levels_agree_iff`: skipping agrees with parsing.
-/
import EmatixParquet.Codec.HostileDelta
import EmatixParquet.Codec.HybridBuilds
import EmatixParquet.Codec.Levels

namespace EmatixParquet

open Wire

section
variable (build : Build) (room : ℕ)

/-- `decode_levels`: the levels, and how many bytes they took. -/
def decodeLevels (body : Bytes) (bitWidth : UInt8) (numValues : ℕ) :
    Res CodecError (List UInt16 × ℕ) :=
  if bitWidth = 0 then do
    -- `vec![0u16; num_values]`
    (hostOf build room).withCapacity numValues 2
    pure (List.replicate numValues 0, 0)
  else if body.length < 4 then
    codecErr (.decompress s!"level stream: need 4-byte length prefix, have {body.length}")
  else
    let len := leNat (body.take 4)
    let stop := 4 + len
    if body.length < stop then
      codecErr (.decompress
        s!"level stream: prefix says {len} body bytes, have {body.length - 4}")
    else if 64 < bitWidth then codecErr (.bitWidthOutOfRange bitWidth)
    else do
      -- the `u64`s of `decode_rle_bit_packed`
      (hostOf build room).withCapacity numValues 8
      let levels ← decodeRleBitPackedIn build ((body.take stop).drop 4) bitWidth numValues
      pure (levels.map (·.toUInt16), stop)

/-- `parse_v1_data_page_body`: the levels, and the bytes of the values. -/
def parseV1DataPageBody (body : Bytes) (maxRepLevel maxDefLevel : UInt16) (numValues : ℕ) :
    Res CodecError (List UInt16 × List UInt16 × Bytes) := do
  let (rep, repConsumed) ← decodeLevels build room body (bitWidthFor maxRepLevel) numValues
  let rest ← slice body repConsumed body.length
  let (defn, defConsumed) ← decodeLevels build room rest (bitWidthFor maxDefLevel) numValues
  let values ← slice body (repConsumed + defConsumed) body.length
  pure (rep, defn, values)

/-- Skipping finds the values that parsing returns, and where it fails, parsing
    returns an error. -/
structure SkipsAsParsed (body : Bytes) (maxRepLevel maxDefLevel : UInt16) (numValues : ℕ) :
    Prop where
  values : ∀ rep defn values,
    parseV1DataPageBody build room body maxRepLevel maxDefLevel numValues = .ok (rep, defn, values) →
    ∃ off, skipV1LevelPrefixes body maxRepLevel maxDefLevel = .ok off ∧ off ≤ body.length ∧
      body.drop off = values
  error : (∃ e, skipV1LevelPrefixes body maxRepLevel maxDefLevel = .error e) →
    ∃ e, parseV1DataPageBody build room body maxRepLevel maxDefLevel numValues = .error (.err e)

end

/-! ## Streams at the start of a body -/

/-- Where the level stream at the start of some bytes ends; there is none for the
    maximal level 0. -/
def levelsEnd (body : Bytes) (maxLevel : UInt16) : ℕ :=
  if maxLevel = 0 then 0 else 4 + leNat (body.take 4)

/-- The stream, if there is one, is there with its length. -/
def LevelsWhole (body : Bytes) (maxLevel : UInt16) : Prop :=
  maxLevel ≠ 0 → 4 ≤ body.length ∧ levelsEnd body maxLevel ≤ body.length

instance (body : Bytes) (maxLevel : UInt16) : Decidable (LevelsWhole body maxLevel) :=
  inferInstanceAs (Decidable (_ → _))

/-- There is room for `n` levels, and the runs of the stream stay within 64 bits. -/
def LevelsFit (room n : ℕ) (body : Bytes) (maxLevel : UInt16) : Prop :=
  if maxLevel = 0 then n * 2 ≤ room
  else n * 8 ≤ room ∧ RunsFit (bitWidthFor maxLevel).toNat n (fun _ _ => True) (fun _ _ => True)
    ((body.take (levelsEnd body maxLevel)).drop 4)

variable {build : Build} {room n : ℕ} {body : Bytes} {maxLevel : UInt16}

theorem levelsEnd_le (h : LevelsWhole body maxLevel) : levelsEnd body maxLevel ≤ body.length := by
  by_cases hzero : maxLevel = 0
  · rw [levelsEnd, if_pos hzero]
    exact Nat.zero_le _
  · exact (h hzero).2

theorem bitWidthFor_le (maxLevel : UInt16) : bitWidthFor maxLevel ≤ 16 := by
  have hle : bitLength maxLevel.toNat ≤ 16 := bitLength_le maxLevel.toNat_lt
  rw [UInt8.le_iff_toNat_le, bitWidthFor, UInt8.toNat_ofNat_of_lt' (show _ < 2 ^ 8 by omega)]
  exact hle

/-! ## Skipping -/

theorem skipLevelPrefix_eq {off : ℕ} (h : LevelsWhole (body.drop off) maxLevel)
    (hoff : off ≤ body.length) :
    skipLevelPrefix body off (bitWidthFor maxLevel)
      = .ok (off + levelsEnd (body.drop off) maxLevel) := by
  by_cases hzero : maxLevel = 0
  · rw [skipLevelPrefix, if_pos (bitWidthFor_eq_zero.mpr hzero), levelsEnd, if_pos hzero]
    rfl
  · obtain ⟨hlen, hstream⟩ := h hzero
    rw [levelsEnd, if_neg hzero] at hstream ⊢
    rw [List.length_drop] at hlen hstream
    rw [skipLevelPrefix, if_neg (mt bitWidthFor_eq_zero.mp hzero), if_neg (by omega)]
    dsimp only
    rw [if_neg (by omega), Nat.add_assoc]

theorem skipLevelPrefix_cut {off : ℕ} (h : ¬ LevelsWhole (body.drop off) maxLevel) :
    ∃ e, skipLevelPrefix body off (bitWidthFor maxLevel) = .error e := by
  rw [LevelsWhole, Classical.not_imp] at h
  obtain ⟨hzero, hcut⟩ := h
  rw [levelsEnd, if_neg hzero, List.length_drop] at hcut
  rw [skipLevelPrefix, if_neg (mt bitWidthFor_eq_zero.mp hzero)]
  by_cases hlen : body.length < off + 4
  · rw [if_pos hlen]
    exact ⟨_, rfl⟩
  · rw [if_neg hlen]
    dsimp only
    rw [if_pos (by omega)]
    exact ⟨_, rfl⟩

/-! ## Decoding -/

/-- A stream that is cut off is an error. -/
theorem decodeLevels_cut (h : ¬ LevelsWhole body maxLevel) :
    ∃ e, decodeLevels build room body (bitWidthFor maxLevel) n = .error (.err e) := by
  rw [LevelsWhole, Classical.not_imp] at h
  obtain ⟨hzero, hcut⟩ := h
  rw [levelsEnd, if_neg hzero] at hcut
  rw [decodeLevels, if_neg (mt bitWidthFor_eq_zero.mp hzero)]
  by_cases hlen : body.length < 4
  · rw [if_pos hlen]
    exact ⟨_, rfl⟩
  · rw [if_neg hlen]
    dsimp only
    rw [if_pos (by omega)]
    exact ⟨_, rfl⟩

/-- The levels of a whole stream. -/
theorem decodeLevels_whole (h : LevelsWhole body maxLevel) (hzero : maxLevel ≠ 0) :
    decodeLevels build room body (bitWidthFor maxLevel) n = (do
      (hostOf build room).withCapacity n 8
      let levels ← decodeRleBitPackedIn build ((body.take (levelsEnd body maxLevel)).drop 4)
        (bitWidthFor maxLevel) n
      pure (levels.map (·.toUInt16), levelsEnd body maxLevel)) := by
  obtain ⟨hlen, hstream⟩ := h hzero
  have hwide : ¬ 64 < bitWidthFor maxLevel :=
    UInt8.not_lt.mpr (UInt8.le_trans (bitWidthFor_le maxLevel) (by decide))
  rw [levelsEnd, if_neg hzero] at hstream ⊢
  rw [decodeLevels, if_neg (mt bitWidthFor_eq_zero.mp hzero), if_neg (Nat.not_lt.mpr hlen)]
  dsimp only
  rw [if_neg (Nat.not_lt.mpr hstream), if_neg hwide]

/-- What the levels took is where their stream ends. -/
theorem decodeLevels_eq_ok {levels : List UInt16} {consumed : ℕ}
    (h : decodeLevels build room body (bitWidthFor maxLevel) n = .ok (levels, consumed)) :
    LevelsWhole body maxLevel ∧ consumed = levelsEnd body maxLevel := by
  have hwhole : LevelsWhole body maxLevel := by
    by_contra hcut
    obtain ⟨e, he⟩ := @decodeLevels_cut build room n _ _ hcut
    rw [he] at h
    cases h
  refine ⟨hwhole, ?_⟩
  by_cases hzero : maxLevel = 0
  · rw [decodeLevels, if_pos (bitWidthFor_eq_zero.mpr hzero)] at h
    obtain ⟨-, -, h⟩ := bind_eq_ok.mp h
    cases h
    rw [levelsEnd, if_pos hzero]
  · rw [decodeLevels_whole hwhole hzero] at h
    obtain ⟨-, -, h⟩ := bind_eq_ok.mp h
    obtain ⟨vs, -, h⟩ := bind_eq_ok.mp h
    cases h
    rfl

theorem returns_bind_pure {α β : Type} {x : Res CodecError α} {f : α → β} :
    Returns (x >>= fun a => pure (f a)) ↔ Returns x := by
  rcases x with (e | msg) | a
  · exact iff_of_true (.inr ⟨e, rfl⟩) (.inr ⟨e, rfl⟩)
  · exact iff_of_false (not_returns rfl) (not_returns rfl)
  · exact iff_of_true (.inl ⟨f a, rfl⟩) (.inl ⟨a, rfl⟩)

theorem returns_withCapacity {α : Type} {size : ℕ} {x : Res CodecError α} :
    Returns ((hostOf build room).withCapacity n size >>= fun _ => x) ↔
      n * size ≤ room ∧ Returns x := by
  change Returns ((if n * size ≤ room then .ok () else _) >>= _) ↔ _
  by_cases hroom : n * size ≤ room
  · rw [if_pos hroom]
    exact (and_iff_right hroom).symm
  · rw [if_neg hroom]
    exact iff_of_false (not_returns rfl) fun h => hroom h.1

/-- A stream of levels that is returned is delivered in full. -/
theorem delivers_decodeRleBitPackedIn {bytes : Bytes} {bitWidth : UInt8} :
    Delivers n (decodeRleBitPackedIn build bytes bitWidth n) ↔
      Returns (decodeRleBitPackedIn build bytes bitWidth n) := by
  constructor
  · intro h
    rcases delivers_cases h with ⟨e, he⟩ | ⟨vs, hvs, -⟩
    · exact .inr ⟨e, he⟩
    · exact .inl ⟨vs, hvs⟩
  · rintro (⟨vs, hvs⟩ | ⟨e, he⟩)
    · rw [hvs]
      unfold decodeRleBitPackedIn at hvs
      split at hvs
      · cases hvs
      · split at hvs
        · next hzero =>
          cases hvs
          exact hzero.symm
        · split at hvs
          · cases hvs
            exact List.length_replicate
          · refine hybridDecodeIn_length ?_ ?_ hvs
            · exact fun _ _ _ _ hok => (mapM_length hok).trans List.length_range
            · rintro _ _ _ _ ⟨⟩
              exact List.length_replicate
    · rw [he]
      trivial

/-- **When levels are decoded without a panic**, in every build. -/
theorem decodeLevels_returns_iff (h : LevelsWhole body maxLevel) :
    (∀ build, Returns (decodeLevels build room body (bitWidthFor maxLevel) n)) ↔
      LevelsFit room n body maxLevel := by
  by_cases hzero : maxLevel = 0
  · have hlevels : ∀ build, Returns (decodeLevels build room body (bitWidthFor maxLevel) n) ↔
        n * 2 ≤ room := by
      intro build
      rw [decodeLevels, if_pos (bitWidthFor_eq_zero.mpr hzero), returns_withCapacity]
      exact and_iff_left (.inl ⟨_, rfl⟩)
    rw [LevelsFit, if_pos hzero]
    simp only [hlevels]
    exact ⟨fun hall => hall .debug, fun hroom _ => hroom⟩
  · have hlevels : ∀ build, Returns (decodeLevels build room body (bitWidthFor maxLevel) n) ↔
        n * 8 ≤ room ∧ Delivers n (decodeRleBitPackedIn build
          ((body.take (levelsEnd body maxLevel)).drop 4) (bitWidthFor maxLevel) n) := by
      intro build
      rw [decodeLevels_whole h hzero, returns_withCapacity, returns_bind_pure,
        delivers_decodeRleBitPackedIn]
    have hwidth : bitWidthFor maxLevel ≤ 64 := UInt8.le_trans (bitWidthFor_le maxLevel) (by decide)
    rw [LevelsFit, if_neg hzero, ← decodeRleBitPackedIn_delivers_iff hwidth]
    simp only [hlevels]
    exact ⟨fun hall => ⟨(hall .debug).1, fun build => (hall build).2⟩,
      fun hall build => ⟨hall.1, hall.2 build⟩⟩

/-! ## Skipping and parsing -/

variable {maxRepLevel maxDefLevel : UInt16}

theorem skipV1LevelPrefixes_eq (hrep : LevelsWhole body maxRepLevel)
    (hdef : LevelsWhole (body.drop (levelsEnd body maxRepLevel)) maxDefLevel) :
    skipV1LevelPrefixes body maxRepLevel maxDefLevel = .ok (levelsEnd body maxRepLevel
      + levelsEnd (body.drop (levelsEnd body maxRepLevel)) maxDefLevel) := by
  have hfirst := @skipLevelPrefix_eq body maxRepLevel 0 hrep (Nat.zero_le _)
  rw [List.drop_zero, Nat.zero_add] at hfirst
  rw [skipV1LevelPrefixes, hfirst]
  exact skipLevelPrefix_eq hdef (levelsEnd_le hrep)

/-- Skipping fails where one of the streams is cut off. -/
theorem skipV1LevelPrefixes_error_iff :
    (∃ e, skipV1LevelPrefixes body maxRepLevel maxDefLevel = .error e) ↔
      (LevelsWhole body maxRepLevel →
        ¬ LevelsWhole (body.drop (levelsEnd body maxRepLevel)) maxDefLevel) := by
  by_cases hrep : LevelsWhole body maxRepLevel
  · rw [forall_prop_of_true hrep]
    by_cases hdef : LevelsWhole (body.drop (levelsEnd body maxRepLevel)) maxDefLevel
    · rw [skipV1LevelPrefixes_eq hrep hdef]
      refine iff_of_false ?_ (not_not.mpr hdef)
      rintro ⟨e, ⟨⟩⟩
    · have hfirst := @skipLevelPrefix_eq body maxRepLevel 0 hrep (Nat.zero_le _)
      obtain ⟨e, he⟩ := skipLevelPrefix_cut hdef
      rw [List.drop_zero, Nat.zero_add] at hfirst
      rw [skipV1LevelPrefixes, hfirst]
      exact iff_of_true ⟨e, he⟩ hdef
  · obtain ⟨e, he⟩ := @skipLevelPrefix_cut body maxRepLevel 0 hrep
    refine iff_of_true ⟨e, ?_⟩ fun h => absurd h hrep
    rw [skipV1LevelPrefixes, he]
    rfl

/-- What follows the first stream is parsed. -/
theorem parseV1DataPageBody_rest {rep : List UInt16} (hrep : LevelsWhole body maxRepLevel)
    (h : decodeLevels build room body (bitWidthFor maxRepLevel) n
      = .ok (rep, levelsEnd body maxRepLevel)) :
    parseV1DataPageBody build room body maxRepLevel maxDefLevel n = (do
      let (defn, defConsumed) ← decodeLevels build room (body.drop (levelsEnd body maxRepLevel))
        (bitWidthFor maxDefLevel) n
      let values ← slice body (levelsEnd body maxRepLevel + defConsumed) body.length
      pure (rep, defn, values)) := by
  rw [parseV1DataPageBody, h, ok_bind]
  dsimp only
  rw [slice_ok (levelsEnd_le hrep) le_rfl, List.take_length, ok_bind]

theorem parseV1DataPageBody_values {rep defn : List UInt16} {values : Bytes}
    (h : parseV1DataPageBody build room body maxRepLevel maxDefLevel n = .ok (rep, defn, values)) :
    ∃ off, skipV1LevelPrefixes body maxRepLevel maxDefLevel = .ok off ∧ off ≤ body.length ∧
      body.drop off = values := by
  obtain ⟨⟨rep', repConsumed⟩, hrep, hrest⟩ := bind_eq_ok.mp h
  obtain ⟨hwhole, rfl⟩ := decodeLevels_eq_ok hrep
  rw [parseV1DataPageBody_rest hwhole hrep] at h
  obtain ⟨⟨defn', defConsumed⟩, hdef, h⟩ := bind_eq_ok.mp h
  obtain ⟨hwhole', rfl⟩ := decodeLevels_eq_ok hdef
  obtain ⟨values', hvalues, h⟩ := bind_eq_ok.mp h
  obtain ⟨hle, -, rfl⟩ := slice_eq_ok.mp hvalues
  cases h
  rw [List.take_length]
  exact ⟨_, skipV1LevelPrefixes_eq hwhole hwhole', hle, rfl⟩

/-- Before a second stream that is cut off, the parser fails as the first does. -/
theorem parseV1DataPageBody_cut (hrep : LevelsWhole body maxRepLevel)
    (hdef : ¬ LevelsWhole (body.drop (levelsEnd body maxRepLevel)) maxDefLevel) :
    (∃ e, parseV1DataPageBody build room body maxRepLevel maxDefLevel n = .error (.err e)) ↔
      Returns (decodeLevels build room body (bitWidthFor maxRepLevel) n) := by
  cases h : decodeLevels build room body (bitWidthFor maxRepLevel) n with
  | ok r =>
    obtain ⟨rep, consumed⟩ := r
    obtain ⟨-, rfl⟩ := decodeLevels_eq_ok h
    obtain ⟨e, he⟩ := @decodeLevels_cut build room n _ _ hdef
    refine iff_of_true ⟨e, ?_⟩ (.inl ⟨_, rfl⟩)
    rw [parseV1DataPageBody_rest hrep h, he]
    rfl
  | error f =>
    have hparse : parseV1DataPageBody build room body maxRepLevel maxDefLevel n = .error f := by
      rw [parseV1DataPageBody, h]
      rfl
    rw [hparse]
    cases f with
    | err e => exact iff_of_true ⟨e, rfl⟩ (.inr ⟨e, rfl⟩)
    | panic msg =>
      refine iff_of_false ?_ (not_returns rfl)
      rintro ⟨e, ⟨⟩⟩

/-- **Skipping agrees with parsing**, in every build, exactly where the levels of a
    first stream that is whole, before one that is cut off, can be decoded. -/
theorem levels_agree_iff (room : ℕ) (body : Bytes) (maxRepLevel maxDefLevel : UInt16) (n : ℕ) :
    (∀ build, SkipsAsParsed build room body maxRepLevel maxDefLevel n) ↔
      (LevelsWhole body maxRepLevel →
        ¬ LevelsWhole (body.drop (levelsEnd body maxRepLevel)) maxDefLevel →
        LevelsFit room n body maxRepLevel) := by
  constructor
  · intro h hrep hdef
    refine (decodeLevels_returns_iff hrep).mp fun build => ?_
    exact (parseV1DataPageBody_cut hrep hdef).mp
      ((h build).error (skipV1LevelPrefixes_error_iff.mpr fun _ => hdef))
  · intro h build
    refine ⟨fun rep defn values hparse => parseV1DataPageBody_values hparse, fun hskip => ?_⟩
    have hcut := skipV1LevelPrefixes_error_iff.mp hskip
    by_cases hrep : LevelsWhole body maxRepLevel
    · refine (parseV1DataPageBody_cut hrep (hcut hrep)).mpr ?_
      exact (decodeLevels_returns_iff hrep).mpr (h hrep (hcut hrep)) build
    · obtain ⟨e, he⟩ := @decodeLevels_cut build room n _ _ hrep
      refine ⟨e, ?_⟩
      rw [parseV1DataPageBody, he]
      rfl

/-- A stream of one bit-packed run of 2^60 groups at width 2, which is 2^64 bits. -/
def hostileLevels : Bytes := leBytes 4 9 ++ [0x81, 0x80, 0x80, 0x80, 0x80, 0x80, 0x80, 0x80, 0x20]

theorem not_skipsAsParsed (msg : String)
    (hskip : ∃ e, skipV1LevelPrefixes body maxRepLevel maxDefLevel = .error e)
    (hparse : parseV1DataPageBody build room body maxRepLevel maxDefLevel n
      = .error (.panic msg)) :
    ¬ SkipsAsParsed build room body maxRepLevel maxDefLevel n := by
  intro h
  obtain ⟨e, he⟩ := h.error hskip
  rw [hparse] at he
  cases he

/-- Skipping sees that the definition levels are missing, but the parser panics
    over the repetition levels: over their run, or for want of room. -/
theorem levels_disagree :
    ¬ SkipsAsParsed .debug (2 ^ 63 - 1) hostileLevels 3 1 1 ∧
      ¬ SkipsAsParsed .release (2 ^ 63 - 1) hostileLevels 3 1 1 ∧
      ∀ build, ¬ SkipsAsParsed build (2 ^ 63 - 1) [] 0 1 (2 ^ 63) := by
  have hskip : ∃ e, skipV1LevelPrefixes hostileLevels 3 1 = .error e := ⟨_, rfl⟩
  refine ⟨not_skipsAsParsed "attempt to multiply with overflow" hskip (by decide +kernel),
    not_skipsAsParsed "range out of bounds" hskip (by decide +kernel), ?_⟩
  intro build
  exact not_skipsAsParsed "capacity overflow" ⟨_, rfl⟩ rfl

end EmatixParquet
