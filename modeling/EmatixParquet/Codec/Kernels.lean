/-
  The kernels of AVX2 and NEON (`bitpack_avx2.rs`, `bitpack_neon.rs`).

  Where a machine has them, `unpack_indices_into` leaves all widths to them, and
  `unpack_lookup_into` some.  A kernel unpacks what the scalar worker unpacks, but
  compares the length of its input with what it needs first.

  * `unpackIndicesOn_eq`, `unpackLookupOn_eq`: on bytes that are long enough the check
    changes nothing;
  * `unpackIndicesOn_short`: on others a kernel fails with an error, where the scalar
    worker panics.
-/
import EmatixParquet.Codec.Bitpack
import EmatixParquet.Format.Hostile

namespace EmatixParquet

open Wire

variable {α : Type}

/-! ## The checks -/

/-- The name that messages give the instruction set. -/
def Simd.name : Simd → String
  | avx2 => "avx2"
  | neon => "neon"

/-- `required_bytes`: where values and bytes divide each other, no bits are counted. -/
def requiredBytes (mul : ℕ → ℕ → Res CodecError ℕ) (numValues : ℕ) (bitWidth : UInt8) :
    Res CodecError ℕ :=
  if bitWidth = 1 then .ok (divCeil numValues 8)
  else if bitWidth = 2 then .ok (divCeil numValues 4)
  else if bitWidth = 4 then .ok (divCeil numValues 2)
  else if bitWidth = 8 then .ok numValues
  else if bitWidth = 16 then mul numValues 2
  else if bitWidth = 32 then mul numValues 4
  else do
    let bits ← mul numValues bitWidth.toNat
    pure (divCeil bits 8)

/-- What a kernel checks; `what` tells in its message the two families apart. -/
def kernelCheck [Host] (simd : Simd) (what : String) (packed : Bytes) (numValues : ℕ)
    (bitWidth : UInt8) : Res CodecError Unit := do
  let required ← requiredBytes Host.mul numValues bitWidth
  if packed.length < required then
    codecErr (.decompress
      s!"{simd.name} bw{bitWidth}{what}: packed has {packed.length} bytes, need {required}")
  else pure ()

/-- The widths that `unpack_lookup_into` has kernels for. -/
def lookupWidths : List UInt8 := [1, 2, 3, 4, 5, 6, 8, 12, 14, 15, 16, 17, 18, 20, 21]

/-- `unpack_indices_into` where there may be kernels: for all widths. -/
def unpackIndicesOn [H : Host] (packed : Bytes) (numValues : ℕ) (bitWidth : UInt8) :
    Res CodecError (List UInt32) :=
  match H.simd with
  | some simd =>
    if numValues ≠ 0 ∧ 1 ≤ bitWidth ∧ bitWidth ≤ 32 then do
      kernelCheck simd "" packed numValues bitWidth
      unpackIndices packed numValues bitWidth
    else unpackIndices packed numValues bitWidth
  | none => unpackIndices packed numValues bitWidth

/-- `unpack_lookup_into` where there may be kernels: they look at the dictionary
    first. -/
def unpackLookupOn [H : Host] (packed : Bytes) (numValues : ℕ) (bitWidth : UInt8)
    (dict : List α) : Res CodecError (List α) :=
  match H.simd with
  | some simd =>
    if numValues ≠ 0 ∧ bitWidth ∈ lookupWidths then
      if dict = [] then codecErr (.dictIndexOutOfRange 0 0)
      else do
        kernelCheck simd " lookup" packed numValues bitWidth
        unpackLookup packed numValues bitWidth dict
    else unpackLookup packed numValues bitWidth dict
  | none => unpackLookup packed numValues bitWidth dict

/-! ## On long bytes and short ones -/

section
variable [H : Host] {build : Build} {room n : ℕ} {packed : Bytes} {bitWidth : UInt8}

omit H in
/-- Counted in a `usize`, the bytes needed are those of the bits. -/
theorem requiredBytes_eq (h : n * bitWidth.toNat < 2 ^ 64) :
    requiredBytes build.mul n bitWidth = .ok (divCeil (n * bitWidth.toNat) 8) := by
  have hmul {k : ℕ} (hk : n * k < 2 ^ 64) : (build.mul n k : Res CodecError ℕ) = .ok (n * k) :=
    mul_eq hk
  unfold requiredBytes
  split
  · next hw =>
    rw [hw]
    exact congrArg Except.ok (by simp)
  split
  · next hw =>
    rw [hw]
    refine congrArg Except.ok ?_
    change (n + 3) / 4 = (n * 2 + 7) / 8
    omega
  split
  · next hw =>
    rw [hw]
    refine congrArg Except.ok ?_
    change (n + 1) / 2 = (n * 4 + 7) / 8
    omega
  split
  · next hw =>
    rw [hw]
    refine congrArg Except.ok ?_
    change n = (n * 8 + 7) / 8
    omega
  split
  · next hw =>
    rw [hw] at h ⊢
    have h16 : n * 16 < 2 ^ 64 := h
    rw [hmul (by omega)]
    refine congrArg Except.ok ?_
    change n * 2 = (n * 16 + 7) / 8
    omega
  split
  · next hw =>
    rw [hw] at h ⊢
    have h32 : n * 32 < 2 ^ 64 := h
    rw [hmul (by omega)]
    refine congrArg Except.ok ?_
    change n * 4 = (n * 32 + 7) / 8
    omega
  · rw [hmul h]
    rfl

omit H in
theorem exists_requiredBytes (h : build = .debug → n * bitWidth.toNat < 2 ^ 64) :
    ∃ required, requiredBytes build.mul n bitWidth = .ok required := by
  cases build with
  | debug => exact ⟨_, requiredBytes_eq (h rfl)⟩
  | release =>
    unfold requiredBytes
    repeat' split
    all_goals exact ⟨_, rfl⟩

theorem kernelCheck_ok (hhost : Limits H build room) (h : n * bitWidth.toNat < 2 ^ 64)
    (hlong : n * bitWidth.toNat ≤ 8 * packed.length) (simd : Simd) (what : String) :
    kernelCheck simd what packed n bitWidth = .ok () := by
  have hle : ¬ packed.length < divCeil (n * bitWidth.toNat) 8 := by
    change ¬ packed.length < (n * bitWidth.toNat + 7) / 8
    omega
  rw [kernelCheck, funext₂ hhost.mul, requiredBytes_eq h, ok_bind, if_neg hle]
  rfl

theorem unpackIndicesOn_eq (hhost : Limits H build room) (h : n * bitWidth.toNat < 2 ^ 64)
    (hlong : n * bitWidth.toNat ≤ 8 * packed.length) :
    unpackIndicesOn packed n bitWidth = unpackIndices packed n bitWidth := by
  unfold unpackIndicesOn
  cases H.simd with
  | none => rfl
  | some simd =>
    dsimp only
    rw [kernelCheck_ok hhost h hlong, ok_bind, ite_self]

/-- With an empty dictionary there is no value to return. -/
theorem unpackLookupOn_eq (hhost : Limits H build room) (h : n * bitWidth.toNat < 2 ^ 64)
    (hlong : n * bitWidth.toNat ≤ 8 * packed.length) (dict : List α) :
    unpackLookupOn packed n bitWidth dict = unpackLookup packed n bitWidth dict ∨
      n ≠ 0 ∧ dict = [] ∧
        unpackLookupOn packed n bitWidth dict = codecErr (.dictIndexOutOfRange 0 0) := by
  unfold unpackLookupOn
  cases H.simd with
  | none => exact .inl rfl
  | some simd =>
    dsimp only
    rw [kernelCheck_ok hhost h hlong, ok_bind]
    by_cases hkernel : n ≠ 0 ∧ bitWidth ∈ lookupWidths
    · rw [if_pos hkernel]
      by_cases hdict : dict = []
      · exact .inr ⟨hkernel.1, hdict, if_pos hdict⟩
      · exact .inl (if_neg hdict)
    · exact .inl (if_neg hkernel)

/-- No kernel rejects so few bytes: there is none, or the bits it counts wrap around. -/
def KernelAccepts (build : Build) (simd : Option Simd) (n : ℕ) (bitWidth : UInt8) (len : ℕ) : Prop :=
  simd = none ∨ 32 < bitWidth ∨
    ∃ required ≤ len, requiredBytes build.mul n bitWidth = .ok required

theorem unpackIndicesOn_wide (h : 32 < bitWidth) :
    unpackIndicesOn packed n bitWidth = codecErr (.bitWidthOutOfRange bitWidth) := by
  have hportable : unpackIndices packed n bitWidth = codecErr (.bitWidthOutOfRange bitWidth) := by
    rw [unpackIndices, if_pos h]
  unfold unpackIndicesOn
  split
  · rw [if_neg fun hk => UInt8.not_le.mpr h hk.2.2, hportable]
  · exact hportable

/-- Too few bytes: an error of the kernel, or the panic of a slice. -/
theorem unpackIndicesOn_short (hhost : Limits H build room) (hbw : bitWidth ≤ 32)
    (h : build = .debug → n * bitWidth.toNat < 2 ^ 64)
    (hshort : 8 * packed.length < n * bitWidth.toNat) :
    ∃ f, unpackIndicesOn packed n bitWidth = .error f ∧
      (Panics f ↔ KernelAccepts build H.simd n bitWidth packed.length) := by
  obtain ⟨f, hrun, hf⟩ := unpackIndices_short hbw hshort
  unfold unpackIndicesOn KernelAccepts
  cases H.simd with
  | none => exact ⟨f, hrun, iff_of_true hf (.inl rfl)⟩
  | some simd =>
    obtain ⟨required, hrequired⟩ := exists_requiredBytes h
    have hpos : n ≠ 0 ∧ bitWidth.toNat ≠ 0 := by
      rw [← Nat.mul_ne_zero_iff]
      omega
    have hkernel : n ≠ 0 ∧ 1 ≤ bitWidth ∧ bitWidth ≤ 32 :=
      ⟨hpos.1, UInt8.le_iff_toNat_le.mpr (Nat.pos_of_ne_zero hpos.2), hbw⟩
    dsimp only
    rw [if_pos hkernel, kernelCheck, funext₂ hhost.mul, hrequired, ok_bind]
    simp only [reduceCtorEq, UInt8.not_lt.mpr hbw, false_or, Except.ok.injEq]
    by_cases hlen : packed.length < required
    · rw [if_pos hlen]
      refine ⟨_, rfl, iff_of_false (not_panics_err _) ?_⟩
      rintro ⟨required, hle, rfl⟩
      exact Nat.not_lt.mpr hle hlen
    · rw [if_neg hlen]
      exact ⟨f, hrun, iff_of_true hf ⟨required, Nat.not_lt.mp hlen, rfl⟩⟩

end

end EmatixParquet
