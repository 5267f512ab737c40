/-
  Columns that keep their dictionary (`column.rs`).

  A segment holds the indices of a page, or its values; predicates are evaluated for
  the entries of the dictionary, and rows are looked up when they are asked for.

  * `DictColumnChunk.filter_eq_ok`, `DictColumnChunk.countMatching_eq_ok`: a predicate
    on the dictionary is one on the rows;
  * `DictColumnChunk.gather_eq`: the rows of a mask;
  * `DictColumnChunk.late_eq_eager`: all of these.
-/
import EmatixParquet.Codec.Dict

namespace EmatixParquet

open Wire

variable {α β : Type}

/-- The rows of a page: indices or values. -/
inductive Segment (α : Type) where
  | dictIndices (indices : List UInt32)
  | plain (values : List α)
  deriving DecidableEq, Repr

/-- A chunk whose rows are not gathered yet. -/
structure DictColumnChunk (α : Type) where
  dict : Option (List α)
  segments : List (Segment α)
  numValues : ℕ
  deriving DecidableEq, Repr

/-- The rows of a segment, by a table for the entries of the dictionary and a function
    for values. -/
def Segment.rows (table : Option (List β)) (missing : String) (direct : α → β) :
    Segment α → Res CodecError (List β)
  | dictIndices indices => do
    let table ← expectSome table missing
    indices.mapM fun i => itemAt table i.toNat
  | plain values => .ok (values.map direct)

/-- One row of `gather`: it is looked up only if its bit is set. -/
def gatherRow (mask : List Bool) (value : β → Res CodecError α) (s : ℕ × List α) (x : β) :
    Res CodecError (ℕ × List α) := do
  let bit ← itemAt mask s.1
  if bit then do
    let v ← value x
    pure (s.1 + 1, s.2 ++ [v])
  else pure (s.1 + 1, s.2)

/-- The rows of a segment that the mask keeps. -/
def gatherSegment (dict : Option (List α)) (mask : List Bool) (s : ℕ × List α) :
    Segment α → Res CodecError (ℕ × List α)
  | .dictIndices indices => do
    let d ← expectSome dict "dict-encoded without dict"
    indices.foldlM (gatherRow mask fun i => itemAt d i.toNat) s
  | .plain values => values.foldlM (gatherRow mask .ok) s

namespace DictColumnChunk

/-- The predicate, once for each entry of the dictionary. -/
def dictMask (c : DictColumnChunk α) (predicate : α → Bool) : Option (List Bool) :=
  c.dict.map (List.map predicate)

/-- A mask of the rows that satisfy the predicate. -/
def filter [H : Host] (c : DictColumnChunk α) (predicate : α → Bool) :
    Res CodecError (List Bool) := do
  Host.withCapacity c.numValues 1
  List.flatten <$> c.segments.mapM (Segment.rows (c.dictMask predicate)
    "dict-encoded segment but no dict was present" predicate)

/-- `count += m[i] as usize`, row by row. -/
def countRows (count : ℕ) (rows : List Bool) : ℕ :=
  rows.foldl (fun count b => count + b.toNat) count

/-- How many rows satisfy the predicate; nothing is reserved for it. -/
def countMatching (c : DictColumnChunk α) (predicate : α → Bool) : Res CodecError ℕ :=
  c.segments.foldlM (fun count seg => do
    let rows ← seg.rows (c.dictMask predicate) "dict-encoded without dict" predicate
    pure (countRows count rows)) 0

/-- The rows of all segments. -/
def rows (c : DictColumnChunk α) : Res CodecError (List α) :=
  List.flatten <$> c.segments.mapM (Segment.rows c.dict "dict-encoded without dict" id)

/-- All rows, of `size` bytes each. -/
def collect [H : Host] (size : ℕ) (c : DictColumnChunk α) : Res CodecError (List α) := do
  Host.withCapacity c.numValues size
  c.rows

/-- The rows of a mask. -/
def gather [H : Host] (size : ℕ) (c : DictColumnChunk α) (mask : List Bool) :
    Res CodecError (List α) :=
  if mask.length ≠ c.numValues then .error (.panic "mask length mismatch")
  else do
    Host.withCapacity (mask.count true) size
    Prod.snd <$> c.segments.foldlM (gatherSegment c.dict mask) (0, [])

end DictColumnChunk

/-! ## Predicates -/

theorem itemAt_eq_ok {xs : List α} {ix : ℕ} {x : α} : itemAt xs ix = .ok x ↔ xs[ix]? = some x := by
  cases h : xs[ix]? <;> simp [itemAt, h]

section
variable (table : List β) (missing : String) (direct : α → β) (indices : List UInt32)

@[simp] theorem Segment.rows_some :
    (dictIndices indices).rows (some table) missing direct
      = indices.mapM fun i => itemAt table i.toNat := rfl

@[simp] theorem Segment.rows_none :
    (dictIndices indices).rows (none : Option (List β)) missing direct
      = .error (.panic missing) := rfl

@[simp] theorem Segment.rows_plain (table : Option (List β)) (values : List α) :
    (plain values).rows table missing direct = .ok (values.map direct) := rfl

end

/-- A predicate on the dictionary is one on the rows. -/
theorem Segment.rows_map {dict : Option (List α)} {predicate : α → Bool} {missing : String}
    (missing' : String) {seg : Segment α} {bs : List Bool} :
    seg.rows (dict.map (List.map predicate)) missing predicate = .ok bs ↔
      ∃ vs, seg.rows dict missing' id = .ok vs ∧ bs = vs.map predicate := by
  cases seg with
  | plain values => simp [eq_comm]
  | dictIndices indices =>
    cases dict with
    | none => simp
    | some d =>
      simp only [Option.map_some, Segment.rows_some, mapM_eq_ok, itemAt_eq_ok, List.getElem?_map,
        Option.map_eq_some_iff]
      constructor
      · intro h
        induction h with
        | nil => exact ⟨[], .nil, rfl⟩
        | cons hrow _ ih =>
          obtain ⟨v, hv, rfl⟩ := hrow
          obtain ⟨vs, hvs, rfl⟩ := ih
          exact ⟨v :: vs, .cons hv hvs, rfl⟩
      · rintro ⟨vs, hvs, rfl⟩
        rw [List.forall₂_map_right_iff]
        exact hvs.imp fun _ v hv => ⟨v, hv, rfl⟩

/-- And so it is on the rows of all segments. -/
theorem mapM_rows_map {dict : Option (List α)} {predicate : α → Bool} {missing missing' : String}
    {segments : List (Segment α)} {bss : List (List Bool)} :
    segments.mapM (Segment.rows (dict.map (List.map predicate)) missing predicate) = .ok bss ↔
      ∃ vss, segments.mapM (Segment.rows dict missing' id) = .ok vss ∧
        bss = vss.map (List.map predicate) := by
  simp only [mapM_eq_ok]
  constructor
  · intro h
    induction h with
    | nil => exact ⟨[], .nil, rfl⟩
    | cons hrow _ ih =>
      obtain ⟨vs, hvs, rfl⟩ := (Segment.rows_map missing').mp hrow
      obtain ⟨vss, hvss, rfl⟩ := ih
      exact ⟨vs :: vss, .cons hvs hvss, rfl⟩
  · rintro ⟨vss, hvss, rfl⟩
    rw [List.forall₂_map_right_iff]
    exact hvss.imp fun _ vs hvs => (Segment.rows_map missing').mpr ⟨vs, hvs, rfl⟩

/-- What is reserved first has to have room. -/
theorem withCapacity_bind_eq_ok {build : Build} {room : ℕ} {simd : Option Simd} {n size : ℕ}
    {x : Res CodecError α} {v : α} :
    ((hostOf build room simd).withCapacity n size >>= fun _ => x) = .ok v ↔
      n * size ≤ room ∧ x = .ok v := by
  by_cases h : n * size ≤ room
  · have hfits : (hostOf build room simd).withCapacity n size = .ok () := if_pos h
    rw [hfits, ok_bind]
    exact (and_iff_right h).symm
  · have hfull : (hostOf build room simd).withCapacity n size = .error (.panic "capacity overflow") :=
      if_neg h
    rw [hfull]
    exact ⟨fun hx => (by cases hx), fun hx => absurd hx.1 h⟩

namespace DictColumnChunk

variable {c : DictColumnChunk α} {predicate : α → Bool} {build : Build} {room : ℕ}
  {simd : Option Simd}

theorem filter_eq_ok {bs : List Bool} :
    c.filter (H := hostOf build room simd) predicate = .ok bs ↔
      c.numValues ≤ room ∧ ∃ vs, c.rows = .ok vs ∧ bs = vs.map predicate := by
  simp only [filter, rows, dictMask, withCapacity_bind_eq_ok, Nat.mul_one, map_eq_ok]
  refine and_congr_right fun _ => ⟨?_, ?_⟩
  · rintro ⟨bss, hbss, rfl⟩
    obtain ⟨vss, hvss, rfl⟩ := mapM_rows_map.mp hbss
    exact ⟨vss.flatten, ⟨vss, hvss, rfl⟩, by rw [List.map_flatten]⟩
  · rintro ⟨_, ⟨vss, hvss, rfl⟩, rfl⟩
    exact ⟨_, mapM_rows_map.mpr ⟨vss, hvss, rfl⟩, by rw [List.map_flatten]⟩

theorem collect_eq_ok {size : ℕ} {vs : List α} :
    c.collect (H := hostOf build room simd) size = .ok vs ↔
      c.numValues * size ≤ room ∧ c.rows = .ok vs :=
  withCapacity_bind_eq_ok

theorem countRows_eq (count : ℕ) (bs : List Bool) : countRows count bs = count + bs.count true := by
  induction bs generalizing count with
  | nil => rfl
  | cons b bs ih =>
    have hcons : countRows count (b :: bs) = countRows (count + b.toNat) bs := rfl
    rw [hcons, ih]
    cases b with
    | false => simp
    | true =>
      rw [List.count_cons_self, Bool.toNat_true]
      omega

/-- A count is that of the masks of the segments, added up. -/
theorem foldlM_count {segments : List (Segment α)} {table : Option (List Bool)} {missing : String}
    {count n : ℕ} :
    segments.foldlM (fun count seg => do
      let rows ← seg.rows table missing predicate
      pure (countRows count rows)) count = .ok n ↔
      ∃ bss, segments.mapM (Segment.rows table missing predicate) = .ok bss ∧
        n = count + bss.flatten.count true := by
  induction segments generalizing count with
  | nil => simp [pure, Except.pure, eq_comm]
  | cons seg segments ih =>
    rw [List.foldlM_cons, List.mapM_cons]
    simp only [bind_eq_ok, ih]
    constructor
    · rintro ⟨_, ⟨bs, hbs, hcount⟩, bss, hbss, rfl⟩
      cases hcount
      refine ⟨bs :: bss, ⟨bs, hbs, bss, hbss, rfl⟩, ?_⟩
      rw [countRows_eq, List.flatten_cons, List.count_append, Nat.add_assoc]
    · rintro ⟨_, ⟨bs, hbs, bss, hbss, hcons⟩, rfl⟩
      cases hcons
      refine ⟨_, ⟨bs, hbs, rfl⟩, bss, hbss, ?_⟩
      rw [countRows_eq, List.flatten_cons, List.count_append, Nat.add_assoc]

theorem countMatching_eq_ok {n : ℕ} :
    c.countMatching predicate = .ok n ↔ ∃ vs, c.rows = .ok vs ∧ n = vs.countP predicate := by
  rw [countMatching, foldlM_count]
  simp only [rows, dictMask, map_eq_ok]
  have hcount : ∀ vss : List (List α), (vss.map (List.map predicate)).flatten.count true
      = vss.flatten.countP predicate := by
    intro vss
    rw [← List.map_flatten, List.count, List.countP_map]
    congr 1
    ext v
    cases h : predicate v <;> simp [h]
  constructor
  · rintro ⟨bss, hbss, rfl⟩
    obtain ⟨vss, hvss, rfl⟩ := mapM_rows_map.mp hbss
    exact ⟨_, ⟨vss, hvss, rfl⟩, by rw [hcount, Nat.zero_add]⟩
  · rintro ⟨_, ⟨vss, hvss, rfl⟩, rfl⟩
    exact ⟨_, mapM_rows_map.mpr ⟨vss, hvss, rfl⟩, by rw [hcount, Nat.zero_add]⟩

end DictColumnChunk

/-! ## Masks -/

/-- The rows whose bit is set. -/
def keepRows (vs : List α) (mask : List Bool) : List α :=
  ((vs.zip mask).filter Prod.snd).map Prod.fst

@[simp] theorem keepRows_nil (mask : List Bool) : keepRows ([] : List α) mask = [] := rfl

theorem keepRows_cons (v : α) (vs : List α) (b : Bool) (mask : List Bool) :
    keepRows (v :: vs) (b :: mask) = (if b then [v] else []) ++ keepRows vs mask := by
  cases b <;> simp [keepRows]

theorem keepRows_append (as bs : List α) {mask : List Bool} (h : as.length ≤ mask.length) :
    keepRows (as ++ bs) mask = keepRows as mask ++ keepRows bs (mask.drop as.length) := by
  induction as generalizing mask with
  | nil => simp
  | cons a as ih =>
    cases mask with
    | nil => simp at h
    | cons b mask =>
      rw [List.length_cons, List.length_cons] at h
      rw [List.cons_append, keepRows_cons, keepRows_cons, ih (Nat.le_of_succ_le_succ h),
        List.append_assoc, List.length_cons, List.drop_succ_cons]

theorem keepRows_map (vs : List α) (predicate : α → Bool) :
    keepRows vs (vs.map predicate) = vs.filter predicate := by
  induction vs with
  | nil => rfl
  | cons v vs ih =>
    rw [List.map_cons, keepRows_cons, ih, List.filter_cons]
    cases predicate v <;> rfl

/-- Rows that can be looked up, by induction on them. -/
theorem foldlM_gatherRow {mask : List Bool} {value : β → Res CodecError α} {xs : List β}
    {vs : List α} (h : List.Forall₂ (fun x v => value x = .ok v) xs vs) {row : ℕ} {out : List α}
    (hlen : row + vs.length ≤ mask.length) :
    xs.foldlM (gatherRow mask value) (row, out)
      = .ok (row + vs.length, out ++ keepRows vs (mask.drop row)) := by
  induction h generalizing row out with
  | nil => simp [pure, Except.pure]
  | @cons x v xs vs hx _ ih =>
    rw [List.length_cons] at hlen
    have hrow : row < mask.length := by omega
    have hbit : itemAt mask row = .ok mask[row] := itemAt_eq_ok.mpr (List.getElem?_eq_getElem hrow)
    have hstep : gatherRow mask value (row, out) x
        = .ok (row + 1, out ++ if mask[row] then [v] else []) := by
      rw [gatherRow, hbit, ok_bind]
      cases mask[row]
      · simp [pure, Except.pure]
      · rw [if_pos rfl, if_pos rfl, hx, ok_bind]
        rfl
    rw [List.foldlM_cons, hstep, ok_bind, ih (by omega), List.drop_eq_getElem_cons hrow,
      keepRows_cons, List.append_assoc, List.length_cons]
    congr 2
    omega

theorem gatherSegment_eq {dict : Option (List α)} {mask : List Bool} {seg : Segment α}
    {missing : String} {vs : List α} (h : seg.rows dict missing id = .ok vs) {row : ℕ} {out : List α}
    (hlen : row + vs.length ≤ mask.length) :
    gatherSegment dict mask (row, out) seg
      = .ok (row + vs.length, out ++ keepRows vs (mask.drop row)) := by
  cases seg with
  | plain values =>
    simp only [Segment.rows_plain, List.map_id, Except.ok.injEq] at h
    subst h
    exact foldlM_gatherRow (List.forall₂_same.mpr fun _ _ => rfl) hlen
  | dictIndices indices =>
    cases dict with
    | none => simp at h
    | some d => exact foldlM_gatherRow (mapM_eq_ok.mp h) hlen

theorem foldlM_gatherSegment {dict : Option (List α)} {mask : List Bool} {missing : String}
    {segments : List (Segment α)} {vss : List (List α)}
    (h : List.Forall₂ (fun seg vs => seg.rows dict missing id = .ok vs) segments vss) {row : ℕ}
    {out : List α} (hlen : row + vss.flatten.length ≤ mask.length) :
    segments.foldlM (gatherSegment dict mask) (row, out)
      = .ok (row + vss.flatten.length, out ++ keepRows vss.flatten (mask.drop row)) := by
  induction h generalizing row out with
  | nil => simp [pure, Except.pure]
  | @cons seg vs segments vss hseg _ ih =>
    rw [List.flatten_cons, List.length_append] at hlen
    rw [List.foldlM_cons, gatherSegment_eq hseg (by omega), ok_bind, ih (by omega), List.flatten_cons,
      keepRows_append _ _ (by rw [List.length_drop]; omega), List.drop_drop, List.length_append,
      List.append_assoc, Nat.add_assoc]

namespace DictColumnChunk

variable {c : DictColumnChunk α} {predicate : α → Bool} {build : Build} {room : ℕ}
  {simd : Option Simd}

/-- The rows of a mask. -/
theorem gather_eq {size : ℕ} {vs : List α}
    (h : c.collect (H := hostOf build room simd) size = .ok vs) (hrows : c.numValues = vs.length)
    {mask : List Bool} (hmask : mask.length = vs.length) :
    c.gather (H := hostOf build room simd) size mask = .ok (keepRows vs mask) := by
  obtain ⟨hroom, hcollect⟩ := collect_eq_ok.mp h
  obtain ⟨vss, hvss, rfl⟩ := map_eq_ok.mp hcollect
  have hcount : mask.count true * size ≤ room := by
    refine (Nat.mul_le_mul_right _ (List.count_le_length.trans ?_)).trans hroom
    rw [hmask, hrows]
  unfold gather
  rw [hrows, if_neg (not_not.mpr hmask)]
  refine withCapacity_bind_eq_ok.mpr ⟨hcount, ?_⟩
  rw [foldlM_gatherSegment (mapM_eq_ok.mp hvss) (by rw [hmask]; omega)]
  simp

/-- **Late reads are eager reads**, where there is room for what they reserve: what the
    dictionary and the indices say of a predicate is what it says of the rows, and a
    predicate has an answer only where the rows can be materialised; the rows of its
    mask are those that satisfy it. -/
theorem late_eq_eager (c : DictColumnChunk α) (predicate : α → Bool) (build : Build) (room : ℕ)
    (simd : Option Simd) (size : ℕ) :
    (∀ vs, c.collect (H := hostOf build room simd) size = .ok vs ↔
      c.numValues * size ≤ room ∧ c.rows = .ok vs) ∧
    (∀ bs, c.filter (H := hostOf build room simd) predicate = .ok bs ↔
      c.numValues ≤ room ∧ ∃ vs, c.rows = .ok vs ∧ bs = vs.map predicate) ∧
    (∀ n, c.countMatching predicate = .ok n ↔ ∃ vs, c.rows = .ok vs ∧ n = vs.countP predicate) ∧
    ∀ vs, c.collect (H := hostOf build room simd) size = .ok vs → c.numValues = vs.length →
      (∀ mask : List Bool, mask.length = vs.length →
        c.gather (H := hostOf build room simd) size mask = .ok (keepRows vs mask)) ∧
      (c.numValues ≤ room → (c.filter (H := hostOf build room simd) predicate
          >>= c.gather (H := hostOf build room simd) size) = .ok (vs.filter predicate)) := by
  refine ⟨fun _ => collect_eq_ok, fun _ => filter_eq_ok, fun _ => countMatching_eq_ok, ?_⟩
  intro vs hvs hrows
  refine ⟨fun mask => gather_eq hvs hrows, fun hroom => ?_⟩
  rw [filter_eq_ok.mpr ⟨hroom, vs, (collect_eq_ok.mp hvs).2, rfl⟩, ok_bind,
    gather_eq hvs hrows (List.length_map _), keepRows_map]

/-- A page of indices, and one after the dictionary was given up. -/
theorem late_eq_eager_sample :
    let c : DictColumnChunk ℕ := ⟨some [10, 20], [.dictIndices [1, 0, 1], .plain [30, 20]], 5⟩
    (c.filter (H := hostOf .release 40) (· == 20) >>= c.gather (H := hostOf .release 40) 8)
      = .ok [20, 20, 20] := by
  intro c
  exact ((late_eq_eager c (· == 20) .release 40 none 8).2.2.2 [20, 10, 20, 30, 20] rfl rfl).2
    (by decide)

end DictColumnChunk

end EmatixParquet
