/-
  Repetition and definition levels — the parts of `levels.rs` that a chunk
  read uses: the maximal levels of a column, and skipping the level streams at
  the start of a V1 page body.

  * `skipV1LevelPrefixes_pos`: a column with levels has level bytes to skip;
  * `computeMaxLevels_flat`: in a flat schema of REQUIRED columns both levels
    of every column are 0.
-/
import EmatixParquet.Codec.Error
import EmatixParquet.Format.Metadata
import EmatixParquet.Wire.Bits

namespace EmatixParquet

open Wire

/-- `bit_width_for`. -/
def bitWidthFor (maxLevel : UInt16) : UInt8 := UInt8.ofNat (bitLength maxLevel.toNat)

/-- One turn of `skip_v1_level_prefixes`: past the stream of a level of width
    `bw`, if there is one. -/
def skipLevelPrefix (body : Bytes) (off : ℕ) (bw : UInt8) : Res CodecError ℕ :=
  if bw = 0 then .ok off
  else if body.length < off + 4 then
    codecErr (.decompress
      s!"level stream: need 4-byte length prefix at offset {off}, body.len()={body.length}")
  else
    let len := leNat ((body.drop off).take 4)
    let stop := off + 4 + len
    if body.length < stop then
      codecErr (.decompress
        s!"level stream: prefix says {len} body bytes at offset {off}, body.len()={body.length}")
    else .ok stop

/-- `skip_v1_level_prefixes`: where the values of a V1 body begin. -/
def skipV1LevelPrefixes (body : Bytes) (maxRepLevel maxDefLevel : UInt16) : Res CodecError ℕ := do
  let off ← skipLevelPrefix body 0 (bitWidthFor maxRepLevel)
  skipLevelPrefix body off (bitWidthFor maxDefLevel)

theorem bitWidthFor_eq_zero {maxLevel : UInt16} : bitWidthFor maxLevel = 0 ↔ maxLevel = 0 := by
  have hle : bitLength maxLevel.toNat ≤ 16 := bitLength_le maxLevel.toNat_lt
  rw [bitWidthFor, ← UInt8.toNat_inj, UInt8.toNat_ofNat_of_lt' (show _ < 2 ^ 8 by omega),
    ← UInt16.toNat_inj]
  simp [bitLength]

theorem skipLevelPrefix_le {body : Bytes} {off stop : ℕ} {bw : UInt8}
    (h : skipLevelPrefix body off bw = .ok stop) (hoff : off ≤ body.length) :
    off ≤ stop ∧ stop ≤ body.length ∧ (bw ≠ 0 → off < stop) := by
  unfold skipLevelPrefix at h
  split at h
  · next hzero =>
    cases h
    exact ⟨le_rfl, hoff, fun hne => absurd hzero hne⟩
  · split at h
    · cases h
    · dsimp only at h
      split at h
      · cases h
      · cases h
        exact ⟨by omega, by omega, fun _ => by omega⟩

/-- Levels take bytes of the body. -/
theorem skipV1LevelPrefixes_pos {body : Bytes} {off : ℕ} {rep defn : UInt16}
    (hlevels : ¬ (rep = 0 ∧ defn = 0)) (h : skipV1LevelPrefixes body rep defn = .ok off) :
    0 < off ∧ off ≤ body.length := by
  obtain ⟨mid, hmid, hoff⟩ := bind_eq_ok.mp h
  obtain ⟨-, hle, hpos⟩ := skipLevelPrefix_le hmid (Nat.zero_le _)
  obtain ⟨hge, hle', hpos'⟩ := skipLevelPrefix_le hoff hle
  rw [ne_eq, bitWidthFor_eq_zero] at hpos hpos'
  refine ⟨?_, hle'⟩
  by_cases hrep : rep = 0
  · have := hpos' fun hdef => hlevels ⟨hrep, hdef⟩
    omega
  · have := hpos hrep
    omega

/-! ## Maximal levels -/

/-- A group being walked: its levels and the children still to come. -/
structure LevelFrame where
  maxRep : UInt16
  maxDef : UInt16
  remaining : Int32
  deriving DecidableEq, Repr

/-- Closes the groups whose last child was just seen; the root stays. -/
def unwind : List LevelFrame → List LevelFrame
  | top :: parent :: rest =>
    if top.remaining ≤ 0 then unwind ({ parent with remaining := parent.remaining - 1 } :: rest)
    else top :: parent :: rest
  | stack => stack
termination_by stack => stack.length

/-- The levels of an element below `parent`. -/
def elementLevels (parent : LevelFrame) : Option FieldRepetitionType → UInt16 × UInt16
  | some .required => (parent.maxRep, parent.maxDef)
  | some .optional => (parent.maxRep, parent.maxDef + 1)
  | some .repeated => (parent.maxRep + 1, parent.maxDef + 1)
  | none => (parent.maxRep, parent.maxDef)

/-- The loop over the elements after the root, top of the stack first. -/
def maxLevelsFrom (leafIndex : ℕ) : List SchemaElement → List LevelFrame → ℕ →
    Res CodecError (UInt16 × UInt16)
  | [], _, leafCount => codecErr (.invalidInput
      s!"leaf index {leafIndex} out of range (schema has {leafCount} leaves)")
  | _ :: _, [], _ => codecErr (.invalidInput "schema tree underflow")
  | el :: els, top :: stack, leafCount =>
    let levels := elementLevels top el.repetitionType
    let nChildren := el.numChildren.getD 0
    if nChildren = 0 then
      if leafCount = leafIndex then .ok levels
      else maxLevelsFrom leafIndex els
        (unwind ({ top with remaining := top.remaining - 1 } :: stack)) (leafCount + 1)
    else maxLevelsFrom leafIndex els (⟨levels.1, levels.2, nChildren⟩ :: top :: stack) leafCount

/-- `compute_max_levels`: a walk over the flattened schema, past its root. -/
def computeMaxLevels (schema : List SchemaElement) (leafIndex : ℕ) :
    Res CodecError (UInt16 × UInt16) :=
  match schema with
  | [] => codecErr (.invalidInput "empty schema")
  | root :: els =>
    let rootChildren := root.numChildren.getD 0
    if rootChildren ≤ 0 then codecErr (.invalidInput "schema root has no children")
    else maxLevelsFrom leafIndex els [⟨0, 0, rootChildren⟩] 0

/-- A REQUIRED column of a flat schema. -/
def SchemaElement.IsRequiredLeaf (el : SchemaElement) : Prop :=
  el.repetitionType = some .required ∧ el.numChildren.getD 0 = 0

instance : DecidablePred SchemaElement.IsRequiredLeaf :=
  fun _ => inferInstanceAs (Decidable (_ ∧ _))

/-- The walk stays at the root's frame. -/
theorem maxLevelsFrom_flat {leafIndex : ℕ} {els : List SchemaElement}
    (hflat : ∀ el ∈ els, el.IsRequiredLeaf) (remaining : Int32) {leafCount : ℕ}
    (hle : leafCount ≤ leafIndex) (hlt : leafIndex - leafCount < els.length) :
    maxLevelsFrom leafIndex els [⟨0, 0, remaining⟩] leafCount = .ok (0, 0) := by
  induction els generalizing leafCount remaining with
  | nil => simp at hlt
  | cons el els ih =>
    obtain ⟨hrep, hchildren⟩ := hflat el List.mem_cons_self
    rw [maxLevelsFrom, hrep, hchildren]
    by_cases h : leafCount = leafIndex
    · simp [h, elementLevels]
    · have hrest := ih (fun e he => hflat e (List.mem_cons_of_mem _ he)) (remaining - 1)
        (show leafCount + 1 ≤ leafIndex by omega) (by rw [List.length_cons] at hlt; omega)
      simp only [↓reduceIte, h]
      rw [unwind]
      · exact hrest
      · rintro _ _ _ ⟨⟩

/-- **Flat REQUIRED schemas** have no levels. -/
theorem computeMaxLevels_flat {root : SchemaElement} {els : List SchemaElement} {leafIndex : ℕ}
    {children : Int32} (hroot : root.numChildren = some children) (hpos : 0 < children)
    (hflat : ∀ el ∈ els, el.IsRequiredLeaf) (hlt : leafIndex < els.length) :
    computeMaxLevels (root :: els) leafIndex = .ok (0, 0) := by
  rw [computeMaxLevels, hroot]
  dsimp only [Option.getD_some]
  rw [if_neg (Int32.not_le.mpr hpos)]
  exact maxLevelsFrom_flat hflat _ (Nat.zero_le _) (by omega)

end EmatixParquet
