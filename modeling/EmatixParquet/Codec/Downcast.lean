/-
  Integer narrowing (`downcast.rs`) — the width that holds a range, and the
  frame-of-reference decoders, which store each value less the column's minimum.

  * `narrowestIntTarget_ok`: the width chosen holds the range;
  * `decodePlainFrame_ok`: values whose deltas a width holds are stored in it, in
    builds with and without overflow checks and assertions;
  * `frameNarrowing_lossless`: narrowing by the bounds of a column loses nothing
    and keeps the order.
-/
import EmatixParquet.Codec.Plain

namespace EmatixParquet

open Wire

/-! ## Widths -/

/-- The types that a column of integers can be narrowed to. -/
inductive IntTarget where
  | i8 | u8 | i16 | u16 | i32 | u32 | i64
  deriving DecidableEq, Repr

/-- A narrow integer: `v as T`, `x as i64`, and the range that they keep. -/
class NarrowInt (τ : Type) where
  name : String
  min : ℤ
  max : ℤ
  ofI64 : Int64 → τ
  toI64 : τ → Int64
  toI64_ofI64 : ∀ v : Int64, min ≤ v.toInt → v.toInt ≤ max → toI64 (ofI64 v) = v

/-- A residue in the middle range is the number itself. -/
theorem bmod_of_range {v : ℤ} {k : ℕ} (hlo : -2 ^ k ≤ v) (hhi : v < 2 ^ k) :
    v.bmod (2 ^ (k + 1)) = v := by
  have hpow : ((2 ^ (k + 1) : ℕ) : ℤ) = 2 ^ k * 2 := by push_cast; exact pow_succ 2 k
  refine Int.bmod_eq_of_le ?_ ?_ <;> rw [hpow] <;> omega

instance : NarrowInt Int8 where
  name := "i8"
  min := -2 ^ 7
  max := 2 ^ 7 - 1
  ofI64 := Int64.toInt8
  toI64 := Int8.toInt64
  toI64_ofI64 v hlo hhi := by
    rw [← Int64.toInt_inj, Int8.toInt_toInt64, Int64.toInt_toInt8]
    exact bmod_of_range hlo (Int.lt_of_le_sub_one hhi)

instance : NarrowInt Int16 where
  name := "i16"
  min := -2 ^ 15
  max := 2 ^ 15 - 1
  ofI64 := Int64.toInt16
  toI64 := Int16.toInt64
  toI64_ofI64 v hlo hhi := by
    rw [← Int64.toInt_inj, Int16.toInt_toInt64, Int64.toInt_toInt16]
    exact bmod_of_range hlo (Int.lt_of_le_sub_one hhi)

instance : NarrowInt Int32 where
  name := "i32"
  min := -2 ^ 31
  max := 2 ^ 31 - 1
  ofI64 := Int64.toInt32
  toI64 := Int32.toInt64
  toI64_ofI64 v hlo hhi := by
    rw [← Int64.toInt_inj, Int32.toInt_toInt64, Int64.toInt_toInt32]
    exact bmod_of_range hlo (Int.lt_of_le_sub_one hhi)

/-- A number that is not negative, in the unsigned word of its bits. -/
theorem toUInt64_of_nonneg {v : Int64} (h : 0 ≤ v.toInt) : (v.toUInt64.toNat : ℤ) = v.toInt := by
  have hlt := v.toUInt64.toNat_lt
  have hv : v.toInt = (v.toUInt64.toNat : ℤ).bmod (2 ^ 64) :=
    BitVec.toInt_eq_toNat_bmod v.toBitVec
  rw [hv, Int.bmod_eq_emod] at h ⊢
  split at h
  · omega
  · rename_i hsmall
    rw [if_neg hsmall]
    omega

theorem toInt64_toUInt64_of_toNat {v : Int64} {u : UInt64} (h : u.toNat = v.toUInt64.toNat) :
    u.toInt64 = v := by
  rw [UInt64.toNat_inj.mp h, Int64.toInt64_toUInt64]

instance : NarrowInt UInt8 where
  name := "u8"
  min := 0
  max := 2 ^ 8 - 1
  ofI64 v := v.toUInt64.toUInt8
  toI64 x := x.toUInt64.toInt64
  toI64_ofI64 v hlo hhi := by
    have hv := toUInt64_of_nonneg hlo
    refine toInt64_toUInt64_of_toNat ?_
    rw [UInt8.toNat_toUInt64, UInt64.toNat_toUInt8]
    omega

instance : NarrowInt UInt16 where
  name := "u16"
  min := 0
  max := 2 ^ 16 - 1
  ofI64 v := v.toUInt64.toUInt16
  toI64 x := x.toUInt64.toInt64
  toI64_ofI64 v hlo hhi := by
    have hv := toUInt64_of_nonneg hlo
    refine toInt64_toUInt64_of_toNat ?_
    rw [UInt16.toNat_toUInt64, UInt64.toNat_toUInt16]
    omega

instance : NarrowInt UInt32 where
  name := "u32"
  min := 0
  max := 2 ^ 32 - 1
  ofI64 v := v.toUInt64.toUInt32
  toI64 x := x.toUInt64.toInt64
  toI64_ofI64 v hlo hhi := by
    have hv := toUInt64_of_nonneg hlo
    refine toInt64_toUInt64_of_toNat ?_
    rw [UInt32.toNat_toUInt64, UInt64.toNat_toUInt32]
    omega

/-- `T::MIN` and `T::MAX` of a target. -/
def IntTarget.range : IntTarget → ℤ × ℤ
  | i8 => (NarrowInt.min Int8, NarrowInt.max Int8)
  | u8 => (NarrowInt.min UInt8, NarrowInt.max UInt8)
  | i16 => (NarrowInt.min Int16, NarrowInt.max Int16)
  | u16 => (NarrowInt.min UInt16, NarrowInt.max UInt16)
  | i32 => (NarrowInt.min Int32, NarrowInt.max Int32)
  | u32 => (NarrowInt.min UInt32, NarrowInt.max UInt32)
  | i64 => (-2 ^ 63, 2 ^ 63 - 1)

/-- `debug_assert!`. -/
def Build.debugAssert {ε : Type} (build : Build) (cond : Bool) (msg : String) : Res ε Unit :=
  match build with
  | .debug => if cond then .ok () else .error (.panic msg)
  | .release => .ok ()

/-- `a - b` and `a + b` of two `i64`s. -/
def Build.subI64 {ε : Type} (build : Build) (a b : Int64) : Res ε Int64 :=
  match build with
  | .debug =>
    if -2 ^ 63 ≤ a.toInt - b.toInt ∧ a.toInt - b.toInt < 2 ^ 63 then .ok (a - b)
    else .error (.panic "attempt to subtract with overflow")
  | .release => .ok (a - b)

/-- `i64` addition, checked in debug and wrapping in release. -/
def Build.addI64 {ε : Type} (build : Build) (a b : Int64) : Res ε Int64 :=
  match build with
  | .debug =>
    if -2 ^ 63 ≤ a.toInt + b.toInt ∧ a.toInt + b.toInt < 2 ^ 63 then .ok (a + b)
    else .error (.panic "attempt to add with overflow")
  | .release => .ok (a + b)

/-- The widths in the order in which they are tried. -/
def fittingTarget (min max : ℤ) : IntTarget :=
  if -2 ^ 7 ≤ min ∧ max ≤ 2 ^ 7 - 1 then .i8
  else if 0 ≤ min ∧ max ≤ 2 ^ 8 - 1 then .u8
  else if -2 ^ 15 ≤ min ∧ max ≤ 2 ^ 15 - 1 then .i16
  else if 0 ≤ min ∧ max ≤ 2 ^ 16 - 1 then .u16
  else if -2 ^ 31 ≤ min ∧ max ≤ 2 ^ 31 - 1 then .i32
  else if 0 ≤ min ∧ max ≤ 2 ^ 32 - 1 then .u32
  else .i64

/-- `narrowest_int_target`; that the bounds are ordered is asserted in debug. -/
def narrowestIntTarget (build : Build) (min max : Int64) : Res CodecError IntTarget := do
  let _ ← build.debugAssert (min ≤ max)
    s!"narrowest_int_target: min {min.toInt} > max {max.toInt}"
  pure (fittingTarget min.toInt max.toInt)

/-! ## Narrowed columns -/

/-- The values, in the type they were narrowed to. -/
inductive NarrowedI64 where
  | i8 (v : List Int8)
  | u8 (v : List UInt8)
  | i16 (v : List Int16)
  | u16 (v : List UInt16)
  | i32 (v : List Int32)
  | u32 (v : List UInt32)
  | i64 (v : List Int64)
  deriving DecidableEq, Repr

/-- The type the values were narrowed to. -/
def NarrowedI64.target : NarrowedI64 → IntTarget
  | i8 _ => .i8 | u8 _ => .u8 | i16 _ => .i16 | u16 _ => .u16 | i32 _ => .i32 | u32 _ => .u32
  | i64 _ => .i64

/-- The values widened again, without the offset. -/
def NarrowedI64.toI64 : NarrowedI64 → List Int64
  | i8 v => v.map NarrowInt.toI64
  | u8 v => v.map NarrowInt.toI64
  | i16 v => v.map NarrowInt.toI64
  | u16 v => v.map NarrowInt.toI64
  | i32 v => v.map NarrowInt.toI64
  | u32 v => v.map NarrowInt.toI64
  | i64 v => v

/-- The values less `offset`. -/
structure FrameNarrowed where
  offset : Int64
  data : NarrowedI64
  deriving DecidableEq, Repr

/-- The values widened again, with the offset added back. -/
def FrameNarrowed.toI64 (build : Build) (frame : FrameNarrowed) : Res CodecError (List Int64) :=
  frame.data.toI64.mapM fun d => build.addI64 d frame.offset

/-- The span is computed in 128 bits. -/
def frameOfReferenceTarget (build : Build) (min max : Int64) :
    Res CodecError (Int64 × IntTarget) := do
  let _ ← build.debugAssert (min ≤ max)
    s!"frame_of_reference_target: min {min.toInt} > max {max.toInt}"
  let span := max.toInt - min.toInt
  if span ≤ 2 ^ 32 - 1 then do
    let target ← narrowestIntTarget build 0 (Int64.ofInt span)
    pure (min, target)
  else pure (0, .i64)

/-! ## Decoders -/

section
variable {α : Type} [FixedWidth α]

/-- `narrow_decode` and `narrow_decode_i32`. -/
def narrowDecode {τ : Type} (bytes : Bytes) (f : α → Res CodecError τ) : Res CodecError (List τ) := do
  let vs ← decodePlainFixed bytes
  vs.mapM f

/-- `let d = v - offset; debug_assert!(..); d as T`. -/
def frameDelta (build : Build) {τ : Type} [NarrowInt τ] (offset v : Int64) : Res CodecError τ := do
  let d ← build.subI64 v offset
  let _ ← build.debugAssert (NarrowInt.min τ ≤ d.toInt && d.toInt ≤ NarrowInt.max τ)
    s!"{NarrowInt.name τ} frame lost {v.toInt}"
  pure (NarrowInt.ofI64 d)

/-- The arms of the frame decoders, for a source of `α`; `full` is the arm that
    does not narrow. -/
def decodePlainFrame (widen : α → Int64) (full : Bytes → Res CodecError (List Int64))
    (build : Build) (bytes : Bytes) (offset : Int64) (target : IntTarget) :
    Res CodecError FrameNarrowed := do
  let data ← match target with
    | .i8 => NarrowedI64.i8 <$> narrowDecode bytes fun v => frameDelta build offset (widen v)
    | .u8 => NarrowedI64.u8 <$> narrowDecode bytes fun v => frameDelta build offset (widen v)
    | .i16 => NarrowedI64.i16 <$> narrowDecode bytes fun v => frameDelta build offset (widen v)
    | .u16 => NarrowedI64.u16 <$> narrowDecode bytes fun v => frameDelta build offset (widen v)
    | .i32 => NarrowedI64.i32 <$> narrowDecode bytes fun v => frameDelta build offset (widen v)
    | .u32 => NarrowedI64.u32 <$> narrowDecode bytes fun v => frameDelta build offset (widen v)
    | .i64 => NarrowedI64.i64 <$> full bytes
  pure { offset, data }

end

/-- The offset is 0 when nothing is narrowed: the arm for 64 bits ignores it. -/
def decodePlainI64Frame (build : Build) (bytes : Bytes) (offset : Int64) (target : IntTarget) :
    Res CodecError FrameNarrowed :=
  decodePlainFrame id decodePlainI64 build bytes offset target

/-- `decode_plain_i32_frame`; a value is widened before the offset is taken off. -/
def decodePlainI32Frame (build : Build) (bytes : Bytes) (offset : Int64) (target : IntTarget) :
    Res CodecError FrameNarrowed :=
  decodePlainFrame Int32.toInt64
    (fun bytes => narrowDecode bytes fun v : Int32 => build.subI64 v.toInt64 offset)
    build bytes offset target

/-- `decode_plain_i64_frame_auto`: offset and target from the bounds. -/
def decodePlainI64FrameAuto (build : Build) (bytes : Bytes) (min max : Int64) :
    Res CodecError FrameNarrowed := do
  let (offset, target) ← frameOfReferenceTarget build min max
  decodePlainI64Frame build bytes offset target

/-- `decode_plain_i32_frame_auto`: offset and target from the bounds. -/
def decodePlainI32FrameAuto (build : Build) (bytes : Bytes) (min max : Int64) :
    Res CodecError FrameNarrowed := do
  let (offset, target) ← frameOfReferenceTarget build min max
  decodePlainI32Frame build bytes offset target

/-! ## Arithmetic that does not overflow -/

theorem Build.debugAssert_eq {ε : Type} (build : Build) {cond : Bool} (msg : String)
    (h : cond = true) : (build.debugAssert cond msg : Res ε Unit) = .ok () := by
  cases build with
  | debug => exact if_pos h
  | release => rfl

theorem toInt_sub_of_range {a b : Int64} (hlo : -2 ^ 63 ≤ a.toInt - b.toInt)
    (hhi : a.toInt - b.toInt < 2 ^ 63) : (a - b).toInt = a.toInt - b.toInt := by
  rw [Int64.toInt_sub]
  exact bmod_of_range hlo hhi

theorem Build.subI64_eq {ε : Type} (build : Build) {a b : Int64}
    (hlo : -2 ^ 63 ≤ a.toInt - b.toInt) (hhi : a.toInt - b.toInt < 2 ^ 63) :
    (build.subI64 a b : Res ε Int64) = .ok (a - b) := by
  cases build with
  | debug => exact if_pos ⟨hlo, hhi⟩
  | release => rfl

theorem Build.addI64_eq {ε : Type} (build : Build) {a b : Int64}
    (hlo : -2 ^ 63 ≤ a.toInt + b.toInt) (hhi : a.toInt + b.toInt < 2 ^ 63) :
    (build.addI64 a b : Res ε Int64) = .ok (a + b) := by
  cases build with
  | debug => exact if_pos ⟨hlo, hhi⟩
  | release => rfl

/-! ## The width chosen -/

/-- A width holds a value. -/
def IntTarget.Holds (t : IntTarget) (v : ℤ) : Prop := t.range.1 ≤ v ∧ v ≤ t.range.2

theorem fittingTarget_holds {min max v : ℤ} (hmin : -2 ^ 63 ≤ min) (hmax : max < 2 ^ 63)
    (hlo : min ≤ v) (hhi : v ≤ max) : (fittingTarget min max).Holds v := by
  rw [fittingTarget]
  split_ifs <;> simp only [IntTarget.Holds, IntTarget.range, NarrowInt.min, NarrowInt.max] <;> omega

theorem narrowestIntTarget_ok (build : Build) {min max : Int64} (h : min ≤ max) :
    narrowestIntTarget build min max = .ok (fittingTarget min.toInt max.toInt) := by
  rw [narrowestIntTarget, build.debugAssert_eq _ (by simpa using h)]
  rfl

/-- A frame holds the values between its bounds; it is the plain decode where it
    does not narrow. -/
theorem frameOfReferenceTarget_ok (build : Build) {min max : Int64} (h : min ≤ max) :
    ∃ offset target, frameOfReferenceTarget build min max = .ok (offset, target) ∧
      (target = .i64 → offset = 0) ∧
      ∀ v : ℤ, min.toInt ≤ v → v ≤ max.toInt → target.Holds (v - offset.toInt) := by
  have hle : min.toInt ≤ max.toInt := Int64.le_iff_toInt_le.mp h
  have hmin := min.le_toInt
  have hmax := max.toInt_lt
  rw [frameOfReferenceTarget, build.debugAssert_eq _ (by simpa using h)]
  by_cases hspan : max.toInt - min.toInt ≤ 2 ^ 32 - 1
  · have hcast : (Int64.ofInt (max.toInt - min.toInt)).toInt = max.toInt - min.toInt :=
      Int64.toInt_ofInt_of_le (by omega) (by omega)
    have hzero : (0 : Int64).toInt = 0 := rfl
    have hpos : (0 : Int64) ≤ Int64.ofInt (max.toInt - min.toInt) := by
      rw [Int64.le_iff_toInt_le, hcast, hzero]
      omega
    refine ⟨min, fittingTarget 0 (max.toInt - min.toInt), ?_, fun hi64 => ?_, fun v hlo hhi => ?_⟩
    · rw [ok_bind, if_pos hspan, narrowestIntTarget_ok build hpos, hcast, hzero]
      rfl
    · -- the span fits in 32 bits, so a narrower width is found
      rw [fittingTarget] at hi64
      split_ifs at hi64
      omega
    · exact fittingTarget_holds (by omega) (by omega) (by omega) (by omega)
  · refine ⟨0, .i64, ?_, fun _ => rfl, fun v hlo hhi => ?_⟩
    · rw [ok_bind, if_neg hspan]
      rfl
    · have hzero : (0 : Int64).toInt = 0 := rfl
      rw [hzero, IntTarget.Holds, IntTarget.range]
      dsimp only
      omega

/-! ## The deltas -/

/-- The difference is exact, and the width holds it. -/
structure FitsFrame (offset : Int64) (target : IntTarget) (v : Int64) : Prop where
  lo : -2 ^ 63 ≤ v.toInt - offset.toInt
  hi : v.toInt - offset.toInt < 2 ^ 63
  holds : target.Holds (v.toInt - offset.toInt)

theorem frameDelta_ok (build : Build) {τ : Type} [NarrowInt τ] {offset v : Int64}
    (hlo : -2 ^ 63 ≤ v.toInt - offset.toInt) (hhi : v.toInt - offset.toInt < 2 ^ 63)
    (hmin : NarrowInt.min τ ≤ v.toInt - offset.toInt)
    (hmax : v.toInt - offset.toInt ≤ NarrowInt.max τ) :
    ∃ d : τ, frameDelta build offset v = .ok d ∧ NarrowInt.toI64 d = v - offset := by
  have hsub := toInt_sub_of_range hlo hhi
  refine ⟨NarrowInt.ofI64 (v - offset), ?_, ?_⟩
  · rw [frameDelta, build.subI64_eq hlo hhi, ok_bind, build.debugAssert_eq _ (by simp [hsub, hmin, hmax])]
    rfl
  · exact NarrowInt.toI64_ofI64 _ (by rwa [hsub]) (by rwa [hsub])

section
variable {α : Type} [FixedWidth α] {widen : α → Int64} {bytes : Bytes} {vs : List α}
  {offset : Int64}

/-- One arm: every value is stored as its delta. -/
theorem narrowDecode_frame (build : Build) {τ : Type} [NarrowInt τ] {target : IntTarget}
    (hbytes : decodePlainFixed bytes = .ok vs)
    (hrange : target.range = (NarrowInt.min τ, NarrowInt.max τ))
    (hvs : ∀ v ∈ vs, FitsFrame offset target (widen v)) :
    ∃ ds : List τ, narrowDecode bytes (fun v => frameDelta build offset (widen v)) = .ok ds ∧
      ds.map NarrowInt.toI64 = vs.map fun v => widen v - offset := by
  rw [narrowDecode, hbytes, ok_bind]
  clear hbytes
  induction vs with
  | nil => exact ⟨[], rfl, rfl⟩
  | cons v vs ih =>
    have hv := hvs v List.mem_cons_self
    have hholds := hv.holds
    rw [IntTarget.Holds, hrange] at hholds
    obtain ⟨d, hd, hback⟩ := frameDelta_ok (τ := τ) build hv.lo hv.hi hholds.1 hholds.2
    obtain ⟨ds, hds, hbacks⟩ := ih fun w hw => hvs w (List.mem_cons_of_mem _ hw)
    refine ⟨d :: ds, ?_, by rw [List.map_cons, List.map_cons, hback, hbacks]⟩
    rw [mapM_eq_ok] at hds ⊢
    exact .cons hd hds

/-- **A frame decode** of values that the width holds. -/
theorem decodePlainFrame_ok (build : Build) {full : Bytes → Res CodecError (List Int64)}
    {target : IntTarget} (hbytes : decodePlainFixed bytes = .ok vs)
    (hfull : target = .i64 → full bytes = .ok (vs.map fun v => widen v - offset))
    (hvs : ∀ v ∈ vs, FitsFrame offset target (widen v)) :
    ∃ data, decodePlainFrame widen full build bytes offset target = .ok { offset, data } ∧
      data.target = target ∧ data.toI64 = vs.map fun v => widen v - offset := by
  cases target with
  | i8 =>
    obtain ⟨ds, hds, hback⟩ := narrowDecode_frame (τ := Int8) build hbytes rfl hvs
    exact ⟨.i8 ds, by rw [decodePlainFrame, hds]; rfl, rfl, hback⟩
  | u8 =>
    obtain ⟨ds, hds, hback⟩ := narrowDecode_frame (τ := UInt8) build hbytes rfl hvs
    exact ⟨.u8 ds, by rw [decodePlainFrame, hds]; rfl, rfl, hback⟩
  | i16 =>
    obtain ⟨ds, hds, hback⟩ := narrowDecode_frame (τ := Int16) build hbytes rfl hvs
    exact ⟨.i16 ds, by rw [decodePlainFrame, hds]; rfl, rfl, hback⟩
  | u16 =>
    obtain ⟨ds, hds, hback⟩ := narrowDecode_frame (τ := UInt16) build hbytes rfl hvs
    exact ⟨.u16 ds, by rw [decodePlainFrame, hds]; rfl, rfl, hback⟩
  | i32 =>
    obtain ⟨ds, hds, hback⟩ := narrowDecode_frame (τ := Int32) build hbytes rfl hvs
    exact ⟨.i32 ds, by rw [decodePlainFrame, hds]; rfl, rfl, hback⟩
  | u32 =>
    obtain ⟨ds, hds, hback⟩ := narrowDecode_frame (τ := UInt32) build hbytes rfl hvs
    exact ⟨.u32 ds, by rw [decodePlainFrame, hds]; rfl, rfl, hback⟩
  | i64 => exact ⟨.i64 _, by rw [decodePlainFrame, hfull rfl]; rfl, rfl, rfl⟩

end

/-! ## Lossless narrowing -/

/-- The values come back in order, and the deltas compare as the values do. -/
structure LosslessFrame (build : Build) (vs : List Int64) (frame : FrameNarrowed) : Prop where
  restores : frame.toI64 build = .ok vs
  ordered : ∀ (i j : ℕ) (a b d e : Int64), vs[i]? = some a → frame.data.toI64[i]? = some d →
    vs[j]? = some b → frame.data.toI64[j]? = some e → (a < b ↔ d < e)

theorem losslessFrame (build : Build) {vs : List Int64} {offset : Int64} {target : IntTarget}
    {data : NarrowedI64} (hdata : data.toI64 = vs.map (· - offset))
    (hvs : ∀ v ∈ vs, FitsFrame offset target v) : LosslessFrame build vs { offset, data } := by
  have hsub (v : Int64) (hv : v ∈ vs) : (v - offset).toInt = v.toInt - offset.toInt :=
    toInt_sub_of_range (hvs v hv).lo (hvs v hv).hi
  constructor
  · rw [FrameNarrowed.toI64, hdata, mapM_eq_ok, List.forall₂_map_left_iff, List.forall₂_same]
    intro v hv
    have hlo := v.le_toInt
    have hhi := v.toInt_lt
    have hback : v - offset + offset = v := by
      rw [Int64.sub_eq_add_neg, Int64.add_assoc, Int64.add_left_neg, Int64.add_zero]
    have hsum : (v - offset).toInt + offset.toInt = v.toInt := by
      rw [hsub v hv]
      omega
    have hadd : (build.addI64 (v - offset) offset : Res CodecError Int64) = .ok v := by
      rw [build.addI64_eq (by omega) (by omega), hback]
    exact hadd
  · intro i j a b d e ha hd hb he
    simp only [hdata, List.getElem?_map, ha, hb, Option.map_some, Option.some.injEq] at hd he
    subst hd he
    rw [Int64.lt_iff_toInt_lt, Int64.lt_iff_toInt_lt, hsub a (List.mem_of_getElem? ha),
      hsub b (List.mem_of_getElem? hb)]
    omega

/-- Values between the bounds fit their frame. -/
theorem fitsFrame_of_bounds {min max offset v : Int64} {target : IntTarget}
    (hwide : target = .i64 → offset = 0)
    (hholds : ∀ v : ℤ, min.toInt ≤ v → v ≤ max.toInt → target.Holds (v - offset.toInt))
    (hlo : min ≤ v) (hhi : v ≤ max) : FitsFrame offset target v := by
  have hv := hholds v.toInt (Int64.le_iff_toInt_le.mp hlo) (Int64.le_iff_toInt_le.mp hhi)
  have hmin := v.le_toInt
  have hmax := v.toInt_lt
  have hlo64 : -2 ^ 63 ≤ target.range.1 := by cases target <;> decide
  have hhi64 : target.range.2 < 2 ^ 63 := by cases target <;> decide
  exact ⟨hlo64.trans hv.1, hv.2.trans_lt hhi64, hv⟩

/-- **Frame-of-reference narrowing is lossless**, for every buffer of `i64`s or of
    `i32`s and all bounds of its values. -/
theorem frameNarrowing_lossless (build : Build) {min max : Int64} (hle : min ≤ max) :
    (∀ (bytes : Bytes) (vs : List Int64), decodePlainI64 bytes = .ok vs →
      (∀ v ∈ vs, min ≤ v ∧ v ≤ max) →
      ∃ frame, decodePlainI64FrameAuto build bytes min max = .ok frame ∧
        frameOfReferenceTarget build min max = .ok (frame.offset, frame.data.target) ∧
        LosslessFrame build vs frame) ∧
    ∀ (bytes : Bytes) (vs : List Int32), decodePlainI32 bytes = .ok vs →
      (∀ v ∈ vs, min ≤ v.toInt64 ∧ v.toInt64 ≤ max) →
      ∃ frame, decodePlainI32FrameAuto build bytes min max = .ok frame ∧
        frameOfReferenceTarget build min max = .ok (frame.offset, frame.data.target) ∧
        LosslessFrame build (vs.map Int32.toInt64) frame := by
  obtain ⟨offset, target, htarget, hwide, hholds⟩ := frameOfReferenceTarget_ok build hle
  constructor
  · intro bytes vs hbytes hbounds
    have hfits : ∀ v ∈ vs, FitsFrame offset target v := fun v hv =>
      fitsFrame_of_bounds hwide hholds (hbounds v hv).1 (hbounds v hv).2
    have hfull : target = .i64 → decodePlainI64 bytes = .ok (vs.map fun v => id v - offset) := by
      intro h64
      simpa [hwide h64] using hbytes
    obtain ⟨data, hdecode, htgt, hdata⟩ :=
      @decodePlainFrame_ok _ _ id _ _ _ build decodePlainI64 _ hbytes hfull hfits
    refine ⟨{ offset, data }, ?_, by rw [htarget, htgt], losslessFrame build hdata hfits⟩
    rw [decodePlainI64FrameAuto, htarget, ok_bind]
    exact hdecode
  · intro bytes vs hbytes hbounds
    have hfits : ∀ v ∈ vs, FitsFrame offset target v.toInt64 := fun v hv =>
      fitsFrame_of_bounds hwide hholds (hbounds v hv).1 (hbounds v hv).2
    have hfull : narrowDecode bytes (fun v : Int32 => build.subI64 v.toInt64 offset)
        = .ok (vs.map fun v => v.toInt64 - offset) := by
      have hvs : decodePlainFixed bytes = .ok vs := hbytes
      rw [narrowDecode, hvs, ok_bind, mapM_eq_ok, List.forall₂_map_right_iff, List.forall₂_same]
      exact fun v hv => build.subI64_eq (hfits v hv).lo (hfits v hv).hi
    obtain ⟨data, hdecode, htgt, hdata⟩ :=
      @decodePlainFrame_ok _ _ Int32.toInt64 _ _ _ build
        (fun bytes => narrowDecode bytes fun v : Int32 => build.subI64 v.toInt64 offset) _ hbytes
        (fun _ => hfull) hfits
    refine ⟨{ offset, data }, ?_, by rw [htarget, htgt], ?_⟩
    · rw [decodePlainI32FrameAuto, htarget, ok_bind]
      exact hdecode
    · have hfits' : ∀ v ∈ vs.map Int32.toInt64, FitsFrame offset target v := by
        intro _ hmem
        obtain ⟨v, hv, rfl⟩ := List.mem_map.mp hmem
        exact hfits v hv
      exact losslessFrame build (by rw [hdata, List.map_map]; rfl) hfits'

/-- Both extremes of `i64`, whose span needs 65 bits, and two values next to the
    lowest. -/
theorem frameNarrowing_lossless_extremes :
    (∃ frame, decodePlainI64FrameAuto .debug (encodePlainI64 [Int64.minValue, Int64.maxValue])
        Int64.minValue Int64.maxValue = .ok frame ∧
      frameOfReferenceTarget .debug Int64.minValue Int64.maxValue
        = .ok (frame.offset, frame.data.target) ∧
      LosslessFrame .debug [Int64.minValue, Int64.maxValue] frame) ∧
    ∃ frame, decodePlainI32FrameAuto .release (encodePlainI32 [Int32.minValue, -2147483448])
        (-2147483648) (-2147483448) = .ok frame ∧
      frameOfReferenceTarget .release (-2147483648) (-2147483448)
        = .ok (frame.offset, frame.data.target) ∧
      LosslessFrame .release [-2147483648, -2147483448] frame :=
  ⟨(frameNarrowing_lossless .debug (by decide)).1 _ _ (decodePlainFixed_encodePlainFixed _)
      (by decide),
    (frameNarrowing_lossless .release (by decide)).2 _ [Int32.minValue, -2147483448]
      (decodePlainFixed_encodePlainFixed _) (by decide)⟩

end EmatixParquet
