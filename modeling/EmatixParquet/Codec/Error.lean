/-
  Errors of the codec crate (`error.rs`), and readers that fail with them.
-/
import EmatixParquet.Format.Compact

namespace EmatixParquet

open Wire

/-- The failures of the codec. -/
inductive CodecError where
  | wire (e : FormatError)
  | decompress (msg : String)
  | unalignedPlainBuffer (valueWidth bufferLen : ℕ)
  | underflowingPlainBuffer (valueWidth bufferLen requestedValues : ℕ)
  | bitWidthOutOfRange (w : UInt8)
  | emptyDictPageBody
  | dictIndexOutOfRange (index : UInt32) (dictSize : ℕ)
  | invalidInput (msg : String)
  | unsupported (msg : String)
  | cancelled
  deriving DecidableEq, Repr

/-- A function of the codec crate that reads from a cursor. -/
abbrev CodecM (α : Type) := Reader (Fault CodecError) α

/-- `Err(e)`. -/
def codecErr {α : Type} (e : CodecError) : Res CodecError α := .error (.err e)

/-- `xs[ix]`. -/
def itemAt {α : Type} (xs : List α) (ix : ℕ) : Res CodecError α :=
  match xs[ix]? with
  | some x => .ok x
  | none => .error (.panic "index out of bounds")

/-- `.expect(msg)`. -/
def expectSome {α : Type} (o : Option α) (msg : String) : Res CodecError α :=
  match o with
  | some a => .ok a
  | none => .error (.panic msg)

/-- `Ok` or `Err`. -/
def Returns {α : Type} (x : Res CodecError α) : Prop :=
  (∃ a, x = .ok a) ∨ ∃ e, x = .error (.err e)

theorem not_returns {α : Type} {x : Res CodecError α} {msg : String} (h : x = .error (.panic msg)) :
    ¬ Returns x := by
  rintro (⟨a, rfl⟩ | ⟨e, rfl⟩)
  · cases h
  · cases h

/-- `read(&mut cur)?` with `From<FormatError>`. -/
def wire {α : Type} (r : CursorM α) : CodecM α := r.mapError (Fault.map .wire)

theorem run_wire_ok {α : Type} {r : CursorM α} {bs rest : Bytes} {a : α}
    (h : r.run bs = .ok (a, rest)) : (wire r).run bs = .ok (a, rest) :=
  Reader.run_mapError_eq_ok.mpr h

theorem run_take_eq_ok {n : ℕ} {bytes value rest : Bytes}
    (h : (wire (take n)).run bytes = .ok (value, rest)) :
    n ≤ bytes.length ∧ value = bytes.take n ∧ rest = bytes.drop n := by
  have h := Reader.run_mapError_eq_ok.mp h
  simp only [take] at h
  split at h
  · cases h
  · next hle =>
    cases h
    exact ⟨by omega, rfl, rfl⟩

theorem run_wire_take_ok {k : ℕ} {mid : Bytes} (h : k ≤ mid.length) :
    (wire (take k)).run mid = .ok (mid.take k, mid.drop k) := by
  refine run_wire_ok ?_
  rw [take]
  exact if_neg (Nat.not_lt.mpr h)

theorem run_wire_take_short {k : ℕ} {mid : Bytes} (h : mid.length < k) :
    (wire (take k)).run mid = .error (.err (.wire (.unexpectedEof k mid.length))) := by
  change Except.mapError _ ((take k).run mid) = _
  rw [take]
  dsimp only
  rw [if_pos h]
  rfl

/-- With and without overflow checks. -/
inductive Build where
  | debug | release
  deriving DecidableEq, Repr

/-- `a * b` of two `usize`s. -/
def Build.mul {ε : Type} (build : Build) (a b : ℕ) : Res ε ℕ :=
  match build with
  | .debug =>
    if a * b < usizeBound then .ok (a * b) else .error (.panic "attempt to multiply with overflow")
  | .release => .ok (a * b % usizeBound)

theorem mul_eq {build : Build} {ε : Type} {a b : ℕ} (h : a * b < 2 ^ 64) :
    (build.mul a b : Res ε ℕ) = .ok (a * b) := by
  cases build with
  | debug => exact if_pos h
  | release => exact congrArg Except.ok (Nat.mod_eq_of_lt h)

/-- `a + b` of two `usize`s. -/
def Build.add {ε : Type} (build : Build) (a b : ℕ) : Res ε ℕ :=
  match build with
  | .debug =>
    if a + b < usizeBound then .ok (a + b) else .error (.panic "attempt to add with overflow")
  | .release => .ok ((a + b) % usizeBound)

theorem add_eq {build : Build} {ε : Type} {a b : ℕ} (h : a + b < 2 ^ 64) :
    (build.add a b : Res ε ℕ) = .ok (a + b) := by
  cases build with
  | debug => exact if_pos h
  | release => exact congrArg Except.ok (Nat.mod_eq_of_lt h)

/-- The vector instructions that there are kernels for. -/
inductive Simd where
  | avx2 | neon
  deriving DecidableEq, Repr

/-- What a machine does where the decoders do not check: it multiplies two `usize`s,
    and makes room for `n` elements of `size` bytes (`with_capacity`, `reserve`,
    `to_vec`); and the kernels that it has. -/
class Host where
  mul (a b : ℕ) : Res CodecError ℕ
  withCapacity (n size : ℕ) : Res CodecError Unit
  simd : Option Simd

/-- Unless another is named: products wrap, there is room, and the scalar code runs. -/
instance roomy : Host where
  mul a b := .ok (a * b % usizeBound)
  withCapacity _ _ := .ok ()
  simd := none

/-- A machine with room for `room` bytes. -/
@[reducible] def hostOf (build : Build) (room : ℕ) (simd : Option Simd := none) : Host where
  mul := build.mul
  withCapacity n size :=
    if n * size ≤ room then .ok () else .error (.panic "capacity overflow")
  simd := simd

/-- The products of the machine are those of the build, and there is room for
    `room` bytes. -/
structure Limits (H : Host) (build : Build) (room : ℕ) : Prop where
  mul : ∀ a b, H.mul a b = build.mul a b
  fits : ∀ n size, n * size ≤ room → H.withCapacity n size = .ok ()
  full : ∀ n size, room < n * size → ∃ e, H.withCapacity n size = .error e ∧ Panics e

theorem limits_hostOf (build : Build) (room : ℕ) (simd : Option Simd) :
    Limits (hostOf build room simd) build room where
  mul _ _ := rfl
  fits _ _ h := if_pos h
  full _ _ h := ⟨_, if_neg (Nat.not_le.mpr h), _, rfl⟩

/-- The size of a `Vec<u8>` itself. -/
abbrev vecSize : ℕ := 24

/-- `a.div_ceil(b)`. -/
def divCeil (a b : ℕ) : ℕ := (a + (b - 1)) / b

theorem readUvarint_consumes {bs rest : Bytes} {v : UInt64}
    (h : (wire readUvarint).run bs = .ok (v, rest)) : rest.length < bs.length :=
  consumes_of_readU8 (Reader.run_mapError_eq_ok.mp h)

end EmatixParquet
