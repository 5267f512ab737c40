/-
  Schemas as trees — the maximal levels that `compute_max_levels` finds in one
  pass with a stack are those of the recursive definition.

  A schema lists its elements depth first, each group with the number of its
  children.  The pass over one tree counts it as a child of the group on top of
  the stack, and closes the groups that end with it, whatever lies below.

  * `maxLevelsFrom_tree`, `maxLevelsFrom_forest`: the pass over a tree, and over
    the children of a group;
  * `computeMaxLevels_tree`: the levels of a leaf count the nodes on its path.
-/
import EmatixParquet.Codec.Levels

namespace EmatixParquet

open Wire

/-! ## Trees -/

/-- A node of a schema: a column, or a group and its children. -/
inductive SchemaTree where
  | leaf (el : SchemaElement)
  | group (el : SchemaElement) (children : List SchemaTree)

/-- The repetition types on the way down to a leaf. -/
abbrev LeafPath := List (Option FieldRepetitionType)

mutual

/-- The elements, depth first. -/
def SchemaTree.flatten : SchemaTree → List SchemaElement
  | .leaf el => [el]
  | .group el children => el :: flattenAll children

/-- The elements of a forest, in depth-first order. -/
def flattenAll : List SchemaTree → List SchemaElement
  | [] => []
  | t :: ts => t.flatten ++ flattenAll ts

end

mutual

/-- The paths to the leaves, depth first. -/
def SchemaTree.paths : SchemaTree → List LeafPath
  | .leaf el => [[el.repetitionType]]
  | .group el children => (pathsAll children).map (el.repetitionType :: ·)

/-- The leaves of a forest, in depth-first order. -/
def pathsAll : List SchemaTree → List LeafPath
  | [] => []
  | t :: ts => t.paths ++ pathsAll ts

end

/-- Every group has a child, and `num_children` counts them. -/
inductive SchemaTree.WellFormed : SchemaTree → Prop
  | leaf {el} : el.numChildren.getD 0 = 0 → WellFormed (.leaf el)
  | group {el children} {n : Int32} : el.numChildren = some n → n.toInt = children.length →
      children ≠ [] → (∀ t ∈ children, WellFormed t) → WellFormed (.group el children)

/-- The repeated nodes of a path. -/
def repeatedCount (path : LeafPath) : ℕ := path.count (some .repeated)

/-- Its optional and repeated nodes. -/
def definedCount (path : LeafPath) : ℕ :=
  path.countP fun r => r = some .optional || r = some .repeated

/-! ## Levels along a path -/

/-- The levels at the end of a path that starts below a group. -/
def LevelFrame.descend (frame : LevelFrame) (path : LeafPath) : UInt16 × UInt16 :=
  (frame.maxRep + UInt16.ofNat (repeatedCount path),
    frame.maxDef + UInt16.ofNat (definedCount path))

theorem elementLevels_eq (frame : LevelFrame) (r : Option FieldRepetitionType) :
    elementLevels frame r = frame.descend [r] := by
  rcases r with _ | r
  · simp [elementLevels, LevelFrame.descend, repeatedCount, definedCount]
  · cases r <;> simp [elementLevels, LevelFrame.descend, repeatedCount, definedCount]

theorem descend_cons (frame : LevelFrame) (r : Option FieldRepetitionType) (path : LeafPath)
    (n : Int32) :
    LevelFrame.descend ⟨(elementLevels frame r).1, (elementLevels frame r).2, n⟩ path
      = frame.descend (r :: path) := by
  have hrep : repeatedCount ([r] ++ path) = repeatedCount [r] + repeatedCount path :=
    List.count_append
  have hdef : definedCount ([r] ++ path) = definedCount [r] + definedCount path :=
    List.countP_append
  rw [List.singleton_append] at hrep hdef
  rw [elementLevels_eq]
  simp only [LevelFrame.descend, hrep, hdef, UInt16.ofNat_add, UInt16.add_assoc]

/-! ## The pass -/

/-- The group on top of the stack has one child less to come. -/
def LevelFrame.less (frame : LevelFrame) (n : ℕ) : LevelFrame :=
  { frame with remaining := frame.remaining - Int32.ofNat n }

theorem less_less (frame : LevelFrame) (m n : ℕ) :
    (frame.less m).less n = frame.less (m + n) := by
  simp only [LevelFrame.less, Int32.ofNat_add, Int32.sub_eq_add_neg, Int32.neg_add, Int32.add_assoc]

theorem toInt_less {frame : LevelFrame} {n : ℕ} (h : (n : ℤ) ≤ frame.remaining.toInt) :
    (frame.less n).remaining.toInt = frame.remaining.toInt - n := by
  have hlt := frame.remaining.toInt_lt
  have hn : (Int32.ofNat n).toInt = n := Int32.toInt_ofNat_of_lt (by omega)
  rw [LevelFrame.less, Int32.toInt_sub, hn, Int.bmod_eq_of_le] <;> omega

/-- A group with children to come stays open. -/
theorem unwind_of_pos {frame : LevelFrame} {stack : List LevelFrame}
    (h : 0 < frame.remaining.toInt) : unwind (frame :: stack) = frame :: stack := by
  cases stack with
  | nil =>
    rw [unwind]
    rintro _ _ _ ⟨⟩
  | cons parent stack =>
    have hnot : ¬ frame.remaining ≤ 0 := by
      rw [Int32.le_iff_toInt_le]
      exact not_le.mpr h
    rw [unwind, if_neg hnot]

/-- A group whose last child was seen is a child of the group below. -/
theorem unwind_of_zero {frame parent : LevelFrame} {stack : List LevelFrame}
    (h : frame.remaining.toInt = 0) :
    unwind (frame :: parent :: stack) = unwind (parent.less 1 :: stack) := by
  have hle : frame.remaining ≤ 0 := by
    rw [Int32.le_iff_toInt_le, h]
    exact le_rfl
  rw [unwind, if_pos hle]
  rfl

/-- The leaf looked for is leaf `i` of those on `paths`, or comes behind them. -/
def leafOr (i : ℕ) (frame : LevelFrame) (paths : List LeafPath)
    (next : Res CodecError (UInt16 × UInt16)) : Res CodecError (UInt16 × UInt16) :=
  match paths[i]? with
  | some path => .ok (frame.descend path)
  | none => next

section
variable {i : ℕ} {frame : LevelFrame} {next : Res CodecError (UInt16 × UInt16)}

theorem leafOr_of_lt {paths : List LeafPath} {path : LeafPath} (h : paths[i]? = some path) :
    leafOr i frame paths next = .ok (frame.descend path) := by
  rw [leafOr, h]

theorem leafOr_of_le {paths : List LeafPath} (h : paths.length ≤ i) :
    leafOr i frame paths next = next := by
  rw [leafOr, List.getElem?_eq_none h]

theorem leafOr_congr {paths : List LeafPath} {next' : Res CodecError (UInt16 × UInt16)}
    (h : paths.length ≤ i → next = next') : leafOr i frame paths next = leafOr i frame paths next' := by
  rcases Nat.lt_or_ge i paths.length with hlt | hge
  · have hget := List.getElem?_eq_getElem hlt
    rw [leafOr_of_lt hget, leafOr_of_lt hget]
  · rw [h hge]

theorem leafOr_append (as bs : List LeafPath) :
    leafOr i frame (as ++ bs) next = leafOr i frame as (leafOr (i - as.length) frame bs next) := by
  rcases Nat.lt_or_ge i as.length with hlt | hge
  · have hget := List.getElem?_eq_getElem hlt
    rw [leafOr_of_lt hget, leafOr_of_lt (by rw [List.getElem?_append_left hlt, hget])]
  · rw [leafOr_of_le hge, leafOr, leafOr, List.getElem?_append_right hge]

/-- The levels below a group are those below its frame. -/
theorem leafOr_map (r : Option FieldRepetitionType) (n : Int32) (paths : List LeafPath) :
    leafOr i ⟨(elementLevels frame r).1, (elementLevels frame r).2, n⟩ paths next
      = leafOr i frame (paths.map (r :: ·)) next := by
  rcases Nat.lt_or_ge i paths.length with hlt | hge
  · have hget := List.getElem?_eq_getElem hlt
    rw [leafOr_of_lt hget, leafOr_of_lt (by rw [List.getElem?_map, hget, Option.map_some]),
      descend_cons]
  · rw [leafOr_of_le hge, leafOr_of_le (by rwa [List.length_map])]

end

/-- The pass over a tree: one child of the group on top of the stack. -/
def PassesTree (t : SchemaTree) : Prop :=
  ∀ (leafIndex : ℕ) (rest : List SchemaElement) (top : LevelFrame) (stack : List LevelFrame)
    (leafCount : ℕ), leafCount ≤ leafIndex →
    maxLevelsFrom leafIndex (t.flatten ++ rest) (top :: stack) leafCount
      = leafOr (leafIndex - leafCount) top t.paths
        (maxLevelsFrom leafIndex rest (unwind (top.less 1 :: stack)) (leafCount + t.paths.length))

/-- **The pass over the children** of a group that has as many to come. -/
theorem maxLevelsFrom_forest {ts : List SchemaTree} (hts : ∀ t ∈ ts, PassesTree t)
    (leafIndex : ℕ) (rest : List SchemaElement) (frame : LevelFrame) (stack : List LevelFrame)
    {leafCount : ℕ} (hle : leafCount ≤ leafIndex) (hpos : 0 < frame.remaining.toInt)
    (hlen : (ts.length : ℤ) ≤ frame.remaining.toInt) :
    maxLevelsFrom leafIndex (flattenAll ts ++ rest) (frame :: stack) leafCount
      = leafOr (leafIndex - leafCount) frame (pathsAll ts)
        (maxLevelsFrom leafIndex rest (unwind (frame.less ts.length :: stack))
          (leafCount + (pathsAll ts).length)) := by
  induction ts generalizing frame leafCount with
  | nil =>
    have hzero : frame.less 0 = frame := by simp [LevelFrame.less]
    rw [pathsAll, leafOr_of_le (Nat.zero_le _), List.length_nil, hzero, unwind_of_pos hpos]
    rfl
  | cons t ts ih =>
    rw [List.length_cons] at hlen
    push_cast at hlen
    have hone : (frame.less 1).remaining.toInt = frame.remaining.toInt - 1 :=
      toInt_less (by push_cast; omega)
    rw [flattenAll, pathsAll, List.append_assoc, hts t List.mem_cons_self _ _ _ _ _ hle,
      leafOr_append]
    refine leafOr_congr fun hbehind => ?_
    cases ts with
    | nil =>
      rw [pathsAll, leafOr_of_le (Nat.zero_le _), List.append_nil]
      rfl
    | cons u us =>
      have hcount : (1 : ℤ) ≤ ((u :: us).length : ℤ) := by simp
      have hsum : 1 + (u :: us).length = (t :: u :: us).length := Nat.add_comm ..
      rw [unwind_of_pos (by omega), ih (fun t ht => hts t (List.mem_cons_of_mem _ ht)) _ (by omega)
        (by omega) (by omega), less_less, hsum, List.length_append, Nat.sub_sub, Nat.add_assoc]
      rfl

/-- **The pass over a tree.** -/
theorem maxLevelsFrom_tree {t : SchemaTree} (ht : t.WellFormed) : PassesTree t := by
  induction ht with
  | @leaf el hleaf =>
    intro leafIndex rest top stack leafCount hle
    change maxLevelsFrom leafIndex (el :: rest) (top :: stack) leafCount = _
    rw [maxLevelsFrom, hleaf]
    by_cases h : leafCount = leafIndex
    · have hpath : (SchemaTree.leaf el).paths[leafIndex - leafCount]? = some [el.repetitionType] := by
        rw [h, Nat.sub_self]
        rfl
      rw [leafOr_of_lt hpath, ← elementLevels_eq]
      simp [h]
    · have hlen : (SchemaTree.leaf el).paths.length = 1 := rfl
      rw [leafOr_of_le (by rw [hlen]; omega), hlen]
      simp only [↓reduceIte, h]
      rfl
  | @group el children n hn hcount hne _ ih =>
    intro leafIndex rest top stack leafCount hle
    have hpos : 0 < n.toInt := by
      have := List.length_pos_of_ne_nil hne
      omega
    have hn0 : ¬ n = 0 := by
      rintro rfl
      exact absurd hpos (by decide)
    have hlen : (SchemaTree.group el children).paths.length = (pathsAll children).length := by
      rw [SchemaTree.paths, List.length_map]
    rw [SchemaTree.flatten, List.cons_append, maxLevelsFrom, hn]
    simp only [Option.getD_some, hn0, if_false]
    rw [maxLevelsFrom_forest ih leafIndex rest _ (top :: stack) hle hpos (by rw [hcount]), leafOr_map, hlen,
      SchemaTree.paths]
    refine leafOr_congr fun _ => ?_
    -- the last child has been seen: the group is closed
    rw [unwind_of_zero]
    rw [toInt_less (by rw [hcount]), hcount, Int.sub_self]

/-! ## The levels of a leaf -/

theorem repeatedCount_le (path : LeafPath) : repeatedCount path ≤ path.length := List.count_le_length

theorem definedCount_le (path : LeafPath) : definedCount path ≤ path.length := List.countP_le_length

/-- Counts that fit in 16 bits are not reduced. -/
theorem toNat_descend {path : LeafPath} {n : Int32} (h : path.length < 65536) :
    (LevelFrame.descend ⟨0, 0, n⟩ path).1.toNat = repeatedCount path ∧
      (LevelFrame.descend ⟨0, 0, n⟩ path).2.toNat = definedCount path := by
  have hrep := repeatedCount_le path
  have hdef := definedCount_le path
  simp only [LevelFrame.descend, UInt16.zero_add]
  exact ⟨UInt16.toNat_ofNat_of_lt' (show _ < 2 ^ 16 by omega),
    UInt16.toNat_ofNat_of_lt' (show _ < 2 ^ 16 by omega)⟩

/-- The pass over a whole schema. -/
theorem computeMaxLevels_eq {root : SchemaElement} {children : List SchemaTree}
    (h : (SchemaTree.group root children).WellFormed) (leafIndex : ℕ) :
    ∃ n : Int32, computeMaxLevels (SchemaTree.group root children).flatten leafIndex
      = leafOr leafIndex ⟨0, 0, n⟩ (pathsAll children)
        (codecErr (.invalidInput
          s!"leaf index {leafIndex} out of range (schema has {(pathsAll children).length} leaves)")) := by
  obtain _ | ⟨hn, hcount, hne, hchildren⟩ := h
  rename_i n
  have hpos : 0 < n.toInt := by
    have := List.length_pos_of_ne_nil hne
    omega
  have hnot : ¬ n ≤ 0 := by
    rw [Int32.le_iff_toInt_le]
    exact not_le.mpr hpos
  have hpass := maxLevelsFrom_forest (fun t ht => maxLevelsFrom_tree (hchildren t ht)) leafIndex []
    ⟨0, 0, n⟩ [] (Nat.zero_le leafIndex) hpos (by rw [hcount])
  refine ⟨n, ?_⟩
  rw [SchemaTree.flatten, computeMaxLevels, hn]
  dsimp only [Option.getD_some]
  rw [if_neg hnot, ← List.append_nil (flattenAll children), hpass, Nat.sub_zero, Nat.zero_add]
  refine leafOr_congr fun _ => ?_
  -- the root stays on the stack
  cases unwind [LevelFrame.less ⟨0, 0, n⟩ children.length] <;> rfl

/-- **The maximal levels** of a leaf count the repeated, and the optional and
    repeated, nodes on its path; past the last leaf there is an error. -/
theorem computeMaxLevels_tree {root : SchemaElement} {children : List SchemaTree}
    (h : (SchemaTree.group root children).WellFormed)
    (hdepth : ∀ path ∈ pathsAll children, path.length < 65536) (leafIndex : ℕ) :
    (∀ path, (pathsAll children)[leafIndex]? = some path →
      ∃ levels, computeMaxLevels (SchemaTree.group root children).flatten leafIndex = .ok levels ∧
        levels.1.toNat = repeatedCount path ∧ levels.2.toNat = definedCount path) ∧
    ((pathsAll children).length ≤ leafIndex →
      ∃ e, computeMaxLevels (SchemaTree.group root children).flatten leafIndex = codecErr e) := by
  obtain ⟨n, hlevels⟩ := computeMaxLevels_eq h leafIndex
  constructor
  · intro path hpath
    refine ⟨_, by rw [hlevels, leafOr_of_lt hpath], ?_⟩
    exact toNat_descend (hdepth path (List.mem_of_getElem? hpath))
  · exact fun hle => ⟨_, by rw [hlevels, leafOr_of_le hle]⟩

/-- A list in a list, and a column behind it: three groups end with one leaf. -/
def sampleSchema : List SchemaTree :=
  [.group { repetitionType := some .optional, numChildren := some 1 }
    [.group { repetitionType := some .repeated, numChildren := some 1 }
      [.group { repetitionType := some .repeated, numChildren := some 1 }
        [.leaf { repetitionType := some .optional }]]],
   .leaf { repetitionType := some .required }]

theorem sampleSchema_wellFormed :
    (SchemaTree.group { numChildren := some 2 } sampleSchema).WellFormed := by
  have hleaf (r : FieldRepetitionType) :
      (SchemaTree.leaf { repetitionType := some r }).WellFormed := .leaf rfl
  have hone (r : FieldRepetitionType) (t : SchemaTree) (ht : t.WellFormed) :
      (SchemaTree.group { repetitionType := some r, numChildren := some 1 } [t]).WellFormed :=
    .group rfl rfl (by simp) (by simpa using ht)
  refine .group rfl rfl (by simp [sampleSchema]) ?_
  simp only [sampleSchema, List.forall_mem_cons]
  exact ⟨hone _ _ (hone _ _ (hone _ _ (hleaf _))), hleaf _, by simp⟩

theorem computeMaxLevels_tree_nested :
    ∃ levels, computeMaxLevels
        (SchemaTree.group { numChildren := some 2 } sampleSchema).flatten 0 = .ok levels ∧
      levels.1.toNat = 2 ∧ levels.2.toNat = 4 :=
  (computeMaxLevels_tree sampleSchema_wellFormed (by decide) 0).1
    [some .optional, some .repeated, some .repeated, some .optional] rfl

end EmatixParquet
