/-
  The delta decoders on any bytes (`delta.rs`), in both builds and on machines of
  any size.

  `DeltaStep` walks over a stream, from block to block and from mini-block to
  mini-block, as the format has it.  A decoder does not survive a mini-block of
  `Misfit`, whose bits are no whole number of bytes, or overflow a `usize`; and it
  asks for as much room as the head of the stream says.

  * `CheckedDelta`: what the unpackers make of a chunk, whatever its size;
  * `Foretold`: a decoder goes where the walk goes; `miniBlocks_foretold` for the
    mini-blocks of a block, `deltaLoop_foretold` for all blocks;
  * `stream_panics_iff`, `lengths_panic_iff`, `prefixes_panic_iff`: the streams.
-/
import EmatixParquet.Codec.DeltaBytes
import EmatixParquet.Format.Hostile

namespace EmatixParquet

open Wire Wire.Reader

variable {α β : Type}

/-! ## What stands in a stream -/

/-- What stands at the head of a stream. -/
structure DeltaHead (α : Type) where
  blockSize : ℕ
  miniBlocks : ℕ
  numValues : ℕ
  firstValue : α

/-- The values of a mini-block. -/
def DeltaHead.miniBlockSize (h : DeltaHead α) : ℕ := h.blockSize / h.miniBlocks

/-- There are values to read, in blocks of mini-blocks. -/
structure DeltaHead.Decodes (h : DeltaHead α) : Prop where
  values : h.numValues ≠ 0
  miniBlocks : h.miniBlocks ≠ 0
  divides : h.blockSize % h.miniBlocks = 0

/-- A place in a stream: the widths that are left of the block, the values still to
    come, and the bytes. -/
structure DeltaPlace where
  widths : List UInt8
  remaining : ℕ
  bytes : Bytes

/-- From the start of a block to its mini-blocks, and from one to the next: they
    have no more than `bits` bits a value, in whole bytes. -/
inductive DeltaStep (bits miniBlocks size : ℕ) : DeltaPlace → DeltaPlace → Prop
  | block {remaining : ℕ} {bytes mid : Bytes} {minDelta : Int64} (hrem : remaining ≠ 0)
    (hmin : readZigzagI64.run bytes = .ok (minDelta, mid)) (hcount : miniBlocks ≤ 64)
    (hlen : miniBlocks ≤ mid.length) :
    DeltaStep bits miniBlocks size ⟨[], remaining, bytes⟩
      ⟨mid.take miniBlocks, remaining, mid.drop miniBlocks⟩
  | miniBlock {width : UInt8} {widths : List UInt8} {remaining k : ℕ} {bytes : Bytes}
    (hrem : remaining ≠ 0) (hwidth : width.toNat ≤ bits) (hbits : size * width.toNat = 8 * k)
    (hfits : 8 * k < usizeBound) (hlen : k ≤ bytes.length) :
    DeltaStep bits miniBlocks size ⟨width :: widths, remaining, bytes⟩
      ⟨widths, remaining - size, bytes.drop k⟩

/-- The values end where `rest` begins. -/
structure StreamEnd (rest : Bytes) (p : DeltaPlace) : Prop where
  remaining : p.remaining = 0
  bytes : p.bytes = rest

/-- `body_bytes`, where products wrap. -/
def bodyBytes (size : ℕ) (width : UInt8) : ℕ := size * width.toNat % usizeBound / 8

section
variable (f : DeltaFormat α) [DeltaWord α] (build : Build) (simd : Option Simd)

/-- A mini-block that a decoder does not survive: its bits overflow, or its bytes
    are all there, rounded down, and do not hold them, which no kernel notices. -/
inductive Misfit (size : ℕ) : DeltaPlace → Prop
  | overflow {width : UInt8} {widths : List UInt8} {remaining : ℕ} {bytes : Bytes}
    (hrem : remaining ≠ 0) (hbuild : build = .debug) (hcheck : f.checkWidth width = .ok ())
    (hbits : usizeBound ≤ size * width.toNat) : Misfit size ⟨width :: widths, remaining, bytes⟩
  | short {width : UInt8} {widths : List UInt8} {remaining : ℕ} {bytes : Bytes}
    (hrem : remaining ≠ 0) (hwidth : width.toNat ≤ DeltaWord.bits α)
    (hlen : bodyBytes size width ≤ bytes.length)
    (hbits : 8 * bodyBytes size width < size * width.toNat)
    (hkernel : KernelAccepts build simd size width (bodyBytes size width)) :
    Misfit size ⟨width :: widths, remaining, bytes⟩

/-- The four numbers a stream begins with. -/
def readDeltaHead : CodecM (DeltaHead α) := do
  let blockSize ← wire readUvarint
  let miniBlocks ← wire readUvarint
  let numValues ← wire readUvarint
  let firstValue ← wire f.readFirst
  pure ⟨blockSize.toNat, miniBlocks.toNat, numValues.toNat, firstValue⟩

/-- There is room for what the head promises, and no mini-block is a misfit. -/
structure HeadFits (room : ℕ) (head : DeltaHead α) (rest : Bytes) : Prop where
  values : head.numValues * f.valueSize ≤ room
  buffers : ∀ size ∈ f.bufferSizes, head.miniBlockSize * size ≤ room
  miniBlocks : ¬ Ahead (DeltaStep (DeltaWord.bits α) head.miniBlocks head.miniBlockSize)
    (Misfit f build simd head.miniBlockSize) ⟨[], head.numValues - 1, rest⟩

/-- A stream that its decoder survives. -/
def StreamFits (room : ℕ) (bytes : Bytes) : Prop :=
  ∀ head rest, (readDeltaHead f).run bytes = .ok (head, rest) → head.Decodes →
    HeadFits f build simd room head rest

/-- A stream of `n` values ends where `rest` begins. -/
def StreamEnds (bytes : Bytes) (n : ℕ) (rest : Bytes) : Prop :=
  ∃ head mid, (readDeltaHead f).run bytes = .ok (head, mid) ∧ head.numValues = n ∧
    (n = 0 ∧ mid = rest ∨ head.Decodes ∧
      Ahead (DeltaStep (DeltaWord.bits α) head.miniBlocks head.miniBlockSize) (StreamEnd rest)
        ⟨[], n - 1, mid⟩)

end

/-- The stream of lengths, and the vector of the values. -/
structure LengthsFit (build : Build) (simd : Option Simd) (room : ℕ) (bytes : Bytes) : Prop where
  lengths : StreamFits deltaI32 build simd room bytes
  values : ∀ n rest, StreamEnds deltaI32 bytes n rest → n * vecSize ≤ room

/-- Both streams of lengths, and the vector of the values, where there are as many
    suffixes as prefixes. -/
structure PrefixesFit (build : Build) (simd : Option Simd) (room : ℕ) (bytes : Bytes) : Prop where
  prefixes : StreamFits deltaI32 build simd room bytes
  suffixes : ∀ n mid, StreamEnds deltaI32 bytes n mid → StreamFits deltaI32 build simd room mid
  values : ∀ n mid rest, StreamEnds deltaI32 bytes n mid → StreamEnds deltaI32 mid n rest →
    n * vecSize ≤ room

/-! ## The unpackers -/

/-- What a decoder's own code makes of any chunk and any width. -/
structure CheckedDelta (f : DeltaFormat α) [DeltaWord α] : Prop extends LawfulDelta f where
  calmFirst : Calm Panics f.readFirst
  rejects : ∀ width e, f.checkWidth width = .error e → ¬ Panics e
  tooWide : ∀ H chunk n width, DeltaWord.bits α < width.toNat → f.checkWidth width = .ok () →
    ∃ e, f.unpack H chunk n width = .error (.err e)
  short : ∀ H build room chunk n width, Limits H build room → width.toNat ≤ DeltaWord.bits α →
    (build = .debug → n * width.toNat < usizeBound) → 8 * chunk.length < n * width.toNat →
    ∃ e, f.unpack H chunk n width = .error e ∧
      (Panics e ↔ KernelAccepts build H.simd n width chunk.length)

theorem checked_deltaI32 : CheckedDelta deltaI32 where
  toLawfulDelta := lawful_deltaI32
  calmFirst := calm_readZigzagI32
  rejects width e h := by cases h
  tooWide H chunk n width hwide _ := by
    have hlt : (32 : UInt8) < width := UInt8.lt_iff_toNat_lt.mpr hwide
    exact ⟨.bitWidthOutOfRange width, map_eq_error.mpr (unpackIndicesOn_wide hlt)⟩
  short H build room chunk n width hhost hwidth hfits h := by
    obtain ⟨e, hrun, he⟩ := unpackIndicesOn_short hhost (UInt8.le_iff_toNat_le.mpr hwidth) hfits h
    exact ⟨e, map_eq_error.mpr hrun, he⟩

theorem checked_deltaI64 : CheckedDelta deltaI64 where
  toLawfulDelta := lawful_deltaI64
  calmFirst := calm_readZigzagI64
  rejects width e h := by
    simp only [deltaI64] at h
    split at h
    · cases h
      exact not_panics_err _
    · cases h
  tooWide H chunk n width hwide hcheck := by
    have hlt : (64 : UInt8) < width := UInt8.lt_iff_toNat_lt.mpr hwide
    simp only [deltaI64] at hcheck
    rw [if_pos hlt] at hcheck
    cases hcheck
  short H build room chunk n width hhost hwidth hfits h := by
    simp only [deltaI64]
    split
    · next hnarrow =>
      obtain ⟨e, hrun, he⟩ := unpackIndicesOn_short hhost hnarrow hfits h
      exact ⟨e, map_eq_error.mpr hrun, he⟩
    · next hwide =>
      -- the wide widths have no kernels
      obtain ⟨e, hrun, he⟩ := unpackIndices64_short (UInt8.le_iff_toNat_le.mpr hwidth) h
      exact ⟨e, hrun, iff_of_true he (.inr (.inl (UInt8.not_le.mp hwide)))⟩

/-! ## The readers -/

theorem calm_wire {r : CursorM α} (h : Calm Panics r) : Calm Panics (wire r) := by
  rintro bs e hrun ⟨msg, rfl⟩
  change Except.mapError _ (r.run bs) = _ at hrun
  cases hr : r.run bs with
  | ok p =>
    rw [hr] at hrun
    cases hrun
  | error e =>
    rw [hr] at hrun
    cases e with
    | err e => cases hrun
    | panic msg => exact h bs _ hr ⟨msg, rfl⟩

theorem readZigzagI64_consumes {bs rest : Bytes} {v : Int64}
    (h : readZigzagI64.run bs = .ok (v, rest)) : rest.length < bs.length := by
  rw [readZigzagI64, run_map] at h
  split at h
  · cases h
  · next hu =>
    cases h
    exact consumes_of_readU8 hu

theorem calm_readBitWidths (n : ℕ) : Calm Panics (readBitWidths n) := by
  induction n with
  | zero => exact calm_pure []
  | succ n ih => exact calm_readU8.bind fun width => ih.map (width :: ·)

theorem run_readBitWidths_take {n : ℕ} {bytes : Bytes} (h : n ≤ bytes.length) :
    (readBitWidths n).run bytes = .ok (bytes.take n, bytes.drop n) := by
  have hrun := run_readBitWidths (bytes.take n) (bytes.drop n)
  rwa [List.length_take_of_le h, List.take_append_drop] at hrun

theorem le_length_of_readBitWidths {n : ℕ} {bytes rest : Bytes} {widths : List UInt8}
    (h : (readBitWidths n).run bytes = .ok (widths, rest)) : n ≤ bytes.length := by
  induction n generalizing bytes widths with
  | zero => exact Nat.zero_le _
  | succ n ih =>
    obtain ⟨width, mid, hwidth, h⟩ := run_bind_eq_ok h
    rw [run_map] at h
    split at h
    · cases h
    · next hrest =>
      cases h
      have hle := ih hrest
      cases bytes with
      | nil => cases hwidth
      | cons b bytes =>
        cases hwidth
        exact Nat.succ_le_succ hle

/-! ## The decoder on its way -/

theorem pushDeltas_count {f : DeltaFormat α} (minDelta : Int64) (s : DeltaState f)
    (deltas : List UInt64) :
    (pushDeltas f minDelta s deltas).remaining = s.remaining - deltas.length ∧
      (pushDeltas f minDelta s deltas).out.length + (pushDeltas f minDelta s deltas).remaining
        = s.out.length + s.remaining := by
  induction deltas generalizing s with
  | nil => exact ⟨rfl, rfl⟩
  | cons delta deltas ih =>
    rw [pushDeltas]
    split
    · next hzero => simp [hzero]
    · obtain ⟨hrem, hcount⟩ := ih ⟨_, s.out ++ [f.ofAcc _], s.remaining - 1⟩
      rw [hrem, List.length_append, List.length_singleton] at hcount
      rw [hrem, List.length_cons]
      dsimp only at hcount ⊢
      omega

theorem deltaLoop_step_eq [Host] {f : DeltaFormat α} {miniBlocks size : ℕ} {s : DeltaState f}
    (hrem : s.remaining ≠ 0) :
    (deltaLoop f miniBlocks size).step s = (do
      let blockMinDelta ← wire readZigzagI64
      if 64 < miniBlocks then
        Reader.lift (codecErr (deltaErr "mini_blocks_per_block too large"))
      else do
        let bitWidths ← wire (readBitWidths miniBlocks)
        .inl <$> readMiniBlocks f size blockMinDelta s bitWidths) := if_neg hrem

/-- The product overflows in a debug build; elsewhere it wraps. -/
theorem mul_outcome (build : Build) (a b : ℕ) :
    build = .debug ∧ usizeBound ≤ a * b ∧
        (∃ e, (build.mul a b : Res CodecError ℕ) = .error e ∧ Panics e) ∨
      (build = .debug → a * b < usizeBound) ∧
        (build.mul a b : Res CodecError ℕ) = .ok (a * b % usizeBound) := by
  cases build with
  | release => exact .inr ⟨fun h => (by cases h), rfl⟩
  | debug =>
    rcases Nat.lt_or_ge (a * b) usizeBound with hlt | hge
    · exact .inr ⟨fun _ => hlt, by rw [mul_eq hlt, Nat.mod_eq_of_lt hlt]⟩
    · exact .inl ⟨rfl, hge, _, if_neg (Nat.not_lt.mpr hge), _, rfl⟩

section
variable (f : DeltaFormat α) [DeltaWord α] (build : Build) (simd : Option Simd) (miniBlocks size : ℕ)

/-- Along the walk from `p`, a reader of `n` values panics where a misfit lies
    ahead, and returns where the values end. -/
structure Foretold (n : ℕ) (p : DeltaPlace) (r : CodecM (List α)) : Prop where
  panics : r.Fails Panics p.bytes ↔
    Ahead (DeltaStep (DeltaWord.bits α) miniBlocks size) (Misfit f build simd size) p
  ended : ∀ rest, Ahead (DeltaStep (DeltaWord.bits α) miniBlocks size) (StreamEnd rest) p →
    ∃ values, r.run p.bytes = .ok (values, rest)
  returned : ∀ values rest, r.run p.bytes = .ok (values, rest) →
    values.length = n ∧ Ahead (DeltaStep (DeltaWord.bits α) miniBlocks size) (StreamEnd rest) p

variable {f build simd miniBlocks size} {n : ℕ} {p q : DeltaPlace} {r r' : CodecM (List α)}

theorem Misfit.remaining (h : Misfit f build simd size p) : p.remaining ≠ 0 := by
  cases h <;> assumption

theorem DeltaStep.remaining {bits : ℕ} (h : DeltaStep bits miniBlocks size p q) :
    p.remaining ≠ 0 := by
  cases h <;> assumption

theorem foretold_end {values : List α} (hrem : p.remaining = 0) (hlen : values.length = n)
    (hrun : r.run p.bytes = .ok (values, p.bytes)) : Foretold f build simd miniBlocks size n p r := by
  have hstuck : ∀ q, ¬ DeltaStep (DeltaWord.bits α) miniBlocks size p q :=
    fun q h => h.remaining hrem
  refine ⟨?_, fun rest h => ?_, fun values' rest h => ?_⟩
  · rw [ahead_of_stuck hstuck]
    exact iff_of_false (not_fails_of_ok hrun) fun h => h.remaining hrem
  · obtain ⟨-, rfl⟩ := (ahead_of_stuck hstuck).mp h
    exact ⟨values, hrun⟩
  · cases hrun.symm.trans h
    exact ⟨hlen, (ahead_of_stuck hstuck).mpr ⟨hrem, rfl⟩⟩

/-- The reader fails, and there is no step: it panics at a misfit. -/
theorem foretold_error {e : Fault CodecError} (hrem : p.remaining ≠ 0)
    (hstuck : ∀ q, ¬ DeltaStep (DeltaWord.bits α) miniBlocks size p q)
    (hrun : r.run p.bytes = .error e) (he : Panics e ↔ Misfit f build simd size p) :
    Foretold f build simd miniBlocks size n p r := by
  refine ⟨?_, fun rest h => ?_, fun values rest h => ?_⟩
  · rw [ahead_of_stuck hstuck, fails_of_error hrun]
    exact he
  · exact absurd ((ahead_of_stuck hstuck).mp h).remaining hrem
  · cases hrun.symm.trans h

theorem Foretold.step (h : Foretold f build simd miniBlocks size n q r')
    (hstep : DeltaStep (DeltaWord.bits α) miniBlocks size p q)
    (honly : ∀ r, DeltaStep (DeltaWord.bits α) miniBlocks size p r → r = q)
    (hfit : ¬ Misfit f build simd size p) (hrun : r.run p.bytes = r'.run q.bytes) :
    Foretold f build simd miniBlocks size n p r := by
  have hended (rest : Bytes) : ¬ StreamEnd rest p := fun h => hstep.remaining h.remaining
  refine ⟨?_, fun rest hp => ?_, fun values rest hp => ?_⟩
  · rw [ahead_of_step hfit hstep honly, ← h.panics, Fails, hrun]
    rfl
  · rw [hrun]
    exact h.ended rest ((ahead_of_step (hended rest) hstep honly).mp hp)
  · rw [hrun] at hp
    rw [ahead_of_step (hended rest) hstep honly]
    exact h.returned values rest hp

/-! ## The loops -/

theorem bodyBytes_lt (size : ℕ) (width : UInt8) : 8 * bodyBytes size width < 2 ^ 64 :=
  (Nat.mul_div_le _ 8).trans_lt (Nat.mod_lt _ (by decide))

theorem bodyBytes_le (size : ℕ) (width : UInt8) :
    8 * bodyBytes size width ≤ size * width.toNat :=
  (Nat.mul_div_le _ 8).trans (Nat.mod_le _ _)

theorem miniBlock_step_iff {bits : ℕ} {width : UInt8} {widths : List UInt8} {remaining : ℕ}
    {bytes : Bytes} : DeltaStep bits miniBlocks size ⟨width :: widths, remaining, bytes⟩ q ↔
      remaining ≠ 0 ∧ width.toNat ≤ bits ∧ 8 * bodyBytes size width = size * width.toNat ∧
        bodyBytes size width ≤ bytes.length ∧
        q = ⟨widths, remaining - size, bytes.drop (bodyBytes size width)⟩ := by
  constructor
  · intro h
    cases h with
    | @miniBlock _ _ _ k _ hrem hwidth hbits hfits hlen =>
      have hbody : bodyBytes size width = k := by
        rw [bodyBytes, hbits, Nat.mod_eq_of_lt hfits, Nat.mul_div_cancel_left _ (by decide)]
      rw [hbody]
      exact ⟨hrem, hwidth, hbits.symm, hlen, rfl⟩
  · rintro ⟨hrem, hwidth, hbits, hlen, rfl⟩
    exact .miniBlock hrem hwidth hbits.symm (bodyBytes_lt size width) hlen

theorem block_step_iff {bits remaining : ℕ} {bytes : Bytes} :
    DeltaStep bits miniBlocks size ⟨[], remaining, bytes⟩ q ↔
      ∃ minDelta mid, remaining ≠ 0 ∧ readZigzagI64.run bytes = .ok (minDelta, mid) ∧
        miniBlocks ≤ 64 ∧ miniBlocks ≤ mid.length ∧
        q = ⟨mid.take miniBlocks, remaining, mid.drop miniBlocks⟩ := by
  constructor
  · intro h
    cases h with
    | @block _ _ mid minDelta hrem hmin hcount hlen =>
      exact ⟨minDelta, mid, hrem, hmin, hcount, hlen, rfl⟩
  · rintro ⟨minDelta, mid, hrem, hmin, hcount, hlen, rfl⟩
    exact .block hrem hmin hcount hlen

theorem not_misfit_block {remaining : ℕ} {bytes : Bytes} :
    ¬ Misfit f build simd size ⟨[], remaining, bytes⟩ := fun h => by cases h

section
variable [H : Host] {room : ℕ} (hf : CheckedDelta f) (hhost : Limits H build room)
include hf hhost

theorem miniBlock_goes (minDelta : Int64) {s : DeltaState f} {width : UInt8}
    (widths : List UInt8) {bytes : Bytes} (hrem : s.remaining ≠ 0)
    (hwidth : width.toNat ≤ DeltaWord.bits α)
    (hbits : 8 * bodyBytes size width = size * width.toNat)
    (hlen : bodyBytes size width ≤ bytes.length) :
    ∃ s', s'.remaining = s.remaining - size ∧
      s'.out.length + s'.remaining = s.out.length + s.remaining ∧
      (readMiniBlocks f size minDelta s (width :: widths)).run bytes
        = (readMiniBlocks f size minDelta s' widths).run (bytes.drop (bodyBytes size width)) := by
  have hfits : size * width.toNat < 2 ^ 64 := hbits ▸ bodyBytes_lt size width
  have hbody : bodyBytes size width = size * width.toNat / 8 := by
    rw [bodyBytes, Nat.mod_eq_of_lt hfits]
  have hchunk : size * width.toNat ≤ 8 * (bytes.take (bodyBytes size width)).length := by
    rw [List.length_take_of_le hlen, hbits]
  obtain ⟨deltas, hcount, hunpack⟩ : ∃ deltas, deltas.length = size ∧
      f.unpack H (bytes.take (bodyBytes size width)) size width = .ok deltas :=
    ⟨_, by simp, hf.unpack _ _ _ _ size width hhost hwidth hfits hchunk⟩
  obtain ⟨hrem', hsum⟩ := pushDeltas_count minDelta s deltas
  refine ⟨pushDeltas f minDelta s deltas, hrem'.trans (by rw [hcount]), hsum, ?_⟩
  rw [readMiniBlocks, if_neg hrem, hf.checkWidth width hwidth, Reader.lift_ok, pure_bind, hhost.mul,
    mul_eq hfits, Reader.lift_ok, pure_bind, ← hbody, run_bind_ok (run_wire_take_ok hlen),
    hunpack, Reader.lift_ok, pure_bind]

/-- Where there is no step to the next mini-block, the decoder fails. -/
theorem miniBlock_stops (minDelta : Int64) {s : DeltaState f} {width : UInt8}
    (widths : List UInt8) {bytes : Bytes} (hrem : s.remaining ≠ 0)
    (hstuck : ¬ (width.toNat ≤ DeltaWord.bits α ∧
      8 * bodyBytes size width = size * width.toNat ∧ bodyBytes size width ≤ bytes.length)) :
    ∃ e, (readMiniBlocks f size minDelta s (width :: widths)).run bytes = .error e ∧
      (Panics e ↔ Misfit f build H.simd size ⟨width :: widths, s.remaining, bytes⟩) := by
  rw [readMiniBlocks, if_neg hrem]
  cases hcheck : f.checkWidth width with
  | error e =>
    refine ⟨e, rfl, iff_of_false (hf.rejects width e hcheck) fun h => ?_⟩
    cases h with
    | overflow _ _ hok => cases hcheck.symm.trans hok
    | short _ hwidth => cases hcheck.symm.trans (hf.checkWidth width hwidth)
  | ok u =>
    rw [Reader.lift_ok, pure_bind, hhost.mul]
    rcases mul_outcome build size width.toNat with ⟨hbuild, hover, e, hrun, he⟩ | ⟨hfits, hrun⟩
    · rw [hrun]
      exact ⟨e, rfl, iff_of_true he (.overflow hrem hbuild hcheck hover)⟩
    have hbody : size * width.toNat % usizeBound / 8 = bodyBytes size width := rfl
    have hmisfit : Misfit f build H.simd size ⟨width :: widths, s.remaining, bytes⟩ ↔
        width.toNat ≤ DeltaWord.bits α ∧ bodyBytes size width ≤ bytes.length ∧
          8 * bodyBytes size width < size * width.toNat ∧
          KernelAccepts build H.simd size width (bodyBytes size width) := by
      constructor
      · intro h
        cases h with
        | overflow _ hbuild _ hbits => exact absurd (hfits hbuild) (Nat.not_lt.mpr hbits)
        | short _ hwidth hlen hbits hkernel => exact ⟨hwidth, hlen, hbits, hkernel⟩
      · rintro ⟨hwidth, hlen, hbits, hkernel⟩
        exact .short hrem hwidth hlen hbits hkernel
    rw [hrun, Reader.lift_ok, pure_bind, hmisfit, hbody]
    rcases Nat.lt_or_ge bytes.length (bodyBytes size width) with hshort | hlen
    · rw [run_bind, run_wire_take_short hshort]
      exact ⟨_, rfl, iff_of_false (not_panics_err _) fun h => Nat.not_le.mpr hshort h.2.1⟩
    have hchunk : (bytes.take (bodyBytes size width)).length = bodyBytes size width :=
      List.length_take_of_le hlen
    rw [run_bind_ok (run_wire_take_ok hlen)]
    rcases Nat.lt_or_ge (DeltaWord.bits α) width.toNat with hwide | hwidth
    · obtain ⟨e, he⟩ := hf.tooWide H (bytes.take (bodyBytes size width)) size width hwide hcheck
      rw [he]
      exact ⟨_, rfl, iff_of_false (not_panics_err _) fun h => Nat.not_le.mpr hwide h.1⟩
    · have hbits : 8 * bodyBytes size width < size * width.toNat :=
        lt_of_le_of_ne (bodyBytes_le size width) fun h => hstuck ⟨hwidth, h, hlen⟩
      obtain ⟨e, hunpack, he⟩ := hf.short H build room (bytes.take (bodyBytes size width)) size width
        hhost hwidth hfits (by rwa [hchunk])
      rw [hunpack]
      rw [hchunk] at he
      exact ⟨e, rfl, he.trans ⟨fun h => ⟨hwidth, hlen, hbits, h⟩, fun h => h.2.2.2⟩⟩

/-- The mini-blocks of a block, and what comes after them. -/
theorem miniBlocks_foretold (bytes : Bytes) (after : DeltaState f → CodecM (List α))
    (hafter : ∀ s rest, rest.length ≤ bytes.length → s.out.length + s.remaining = n →
      Foretold f build H.simd miniBlocks size n ⟨[], s.remaining, rest⟩ (after s))
    (minDelta : Int64) (s : DeltaState f) (hn : s.out.length + s.remaining = n)
    (widths : List UInt8) :
    Foretold f build H.simd miniBlocks size n ⟨widths, s.remaining, bytes⟩
      (readMiniBlocks f size minDelta s widths >>= after) := by
  induction widths generalizing s bytes with
  | nil => exact hafter s bytes le_rfl hn
  | cons width widths ih =>
    by_cases hrem : s.remaining = 0
    · -- the widths that are left mean nothing
      have hend := hafter s bytes le_rfl hn
      obtain ⟨values, hrun⟩ := hend.ended bytes (ahead_iff.mpr (.inl ⟨hrem, rfl⟩))
      refine foretold_end hrem (hend.returned values bytes hrun).1 ?_
      rw [readMiniBlocks, if_pos hrem, pure_bind]
      exact hrun
    by_cases hgoes : width.toNat ≤ DeltaWord.bits α ∧
      8 * bodyBytes size width = size * width.toNat ∧ bodyBytes size width ≤ bytes.length
    · obtain ⟨hwidth, hbits, hlen⟩ := hgoes
      obtain ⟨s', hrem', hcount, hrun⟩ :=
        miniBlock_goes hf hhost minDelta widths hrem hwidth hbits hlen
      have hrest := ih (bytes.drop (bodyBytes size width))
        (fun s rest h => hafter s rest (h.trans (by simp))) s' (hcount.trans hn)
      refine hrest.step (miniBlock_step_iff.mpr ⟨hrem, hwidth, hbits, hlen, by rw [hrem']⟩)
        (fun r h => ?_) (fun h => ?_) ?_
      · obtain ⟨-, -, -, -, rfl⟩ := miniBlock_step_iff.mp h
        rw [hrem']
      · cases h with
        | overflow _ _ _ hover => exact Nat.not_lt.mpr hover (hbits ▸ bodyBytes_lt size width)
        | short _ _ _ hshort => exact hshort.ne hbits
      · rw [run_bind, hrun, run_bind]
    · obtain ⟨e, hrun, he⟩ :=
        miniBlock_stops hf hhost minDelta widths hrem hgoes
      refine foretold_error hrem (fun q h => ?_) (by rw [run_bind, hrun]) he
      obtain ⟨-, hwidth, hbits, hlen, -⟩ := miniBlock_step_iff.mp h
      exact hgoes ⟨hwidth, hbits, hlen⟩

/-- The loop goes where the walk goes, by induction on the bytes that are left. -/
theorem deltaLoop_foretold (s : DeltaState f) (hn : s.out.length + s.remaining = n)
    (bytes : Bytes) : Foretold f build H.simd miniBlocks size n ⟨[], s.remaining, bytes⟩
      ((deltaLoop f miniBlocks size).run s) := by
  obtain ⟨k, hk⟩ : ∃ k, bytes.length < k := ⟨_, Nat.lt_succ_self _⟩
  induction k generalizing s bytes with
  | zero => exact absurd hk (Nat.not_lt_zero _)
  | succ k ih =>
    by_cases hrem : s.remaining = 0
    · have hstep : (deltaLoop f miniBlocks size).step s = pure (.inr s.out) := if_pos hrem
      have hlen : s.out.length = n := by omega
      exact foretold_end hrem hlen (Loop.run_of_inr _ (by rw [hstep]; rfl))
    have hstep := @deltaLoop_step_eq α _ f miniBlocks size s hrem
    cases hmin : (wire readZigzagI64).run bytes with
    | error e =>
      refine foretold_error hrem (fun q h => ?_)
        (Loop.run_of_error _ (by rw [hstep, run_bind, hmin]))
        (iff_of_false (calm_wire calm_readZigzagI64 _ _ hmin) not_misfit_block)
      obtain ⟨_, _, -, hok, -⟩ := block_step_iff.mp h
      cases hmin.symm.trans (run_wire_ok hok)
    | ok p =>
      obtain ⟨minDelta, mid⟩ := p
      have hmin' := run_mapError_eq_ok.mp hmin
      have honly : ∀ q, DeltaStep (DeltaWord.bits α) miniBlocks size ⟨[], s.remaining, bytes⟩ q →
          miniBlocks ≤ 64 ∧ miniBlocks ≤ mid.length ∧
            q = ⟨mid.take miniBlocks, s.remaining, mid.drop miniBlocks⟩ := by
        intro q h
        obtain ⟨_, _, -, hok, hcount, hlen, rfl⟩ := block_step_iff.mp h
        cases hmin'.symm.trans hok
        exact ⟨hcount, hlen, rfl⟩
      by_cases hcount : 64 < miniBlocks
      · have hrun : ((deltaLoop f miniBlocks size).step s).run bytes
            = .error (.err (deltaErr "mini_blocks_per_block too large")) := by
          rw [hstep, run_bind_ok hmin, if_pos hcount]
          rfl
        exact foretold_error hrem (fun q h => Nat.not_le.mpr hcount (honly q h).1)
          (Loop.run_of_error _ hrun) (iff_of_false (not_panics_err _) not_misfit_block)
      cases hwidths : (wire (readBitWidths miniBlocks)).run mid with
      | error e =>
        refine foretold_error hrem (fun q h => ?_)
          (Loop.run_of_error _ (by rw [hstep, run_bind_ok hmin, if_neg hcount, run_bind, hwidths]))
          (iff_of_false (calm_wire (calm_readBitWidths _) _ _ hwidths) not_misfit_block)
        cases hwidths.symm.trans (run_wire_ok (run_readBitWidths_take (honly q h).2.1))
      | ok p =>
        have hlen := le_length_of_readBitWidths (run_mapError_eq_ok.mp hwidths)
        cases hwidths.symm.trans (run_wire_ok (run_readBitWidths_take hlen))
        have hlt := readZigzagI64_consumes hmin'
        have hblock := miniBlocks_foretold hf hhost (mid.drop miniBlocks)
          (deltaLoop f miniBlocks size).run
          (fun s' rest hle hn' => ih s' hn' rest (by rw [List.length_drop] at hle; omega))
          minDelta s hn (mid.take miniBlocks)
        refine hblock.step (block_step_iff.mpr
          ⟨minDelta, mid, hrem, hmin', Nat.not_lt.mp hcount, hlen, rfl⟩)
          (fun q h => (honly q h).2.2) not_misfit_block ?_
        rw [Loop.run_eq, hstep, run_bind_ok hmin, if_neg hcount, run_bind_ok hwidths, run_map,
          run_bind]
        cases (readMiniBlocks f size minDelta s (mid.take miniBlocks)).run (mid.drop miniBlocks) <;>
          rfl

end

end

/-! ## The streams -/

section
variable {f : DeltaFormat α} [DeltaWord α] [H : Host] {build : Build} {room : ℕ}

/-- What a decoder does once it has read the head. -/
def decodeDeltaRest (f : DeltaFormat α) (head : DeltaHead α) : CodecM (List α) :=
  if head.numValues = 0 then pure []
  else if head.miniBlocks = 0 then
    Reader.lift (codecErr (deltaErr "mini_blocks_per_block must be > 0"))
  else if head.blockSize % head.miniBlocks ≠ 0 then
    Reader.lift (codecErr (deltaErr "block_size must be a multiple of mini_blocks_per_block"))
  else do
    Reader.lift (Host.withCapacity head.numValues f.valueSize)
    Reader.lift (reserveBuffers head.miniBlockSize f.bufferSizes)
    (deltaLoop f head.miniBlocks head.miniBlockSize).run
      { prev := f.toAcc head.firstValue, out := [head.firstValue],
        remaining := head.numValues - 1 }

omit [DeltaWord α] in
theorem decodeDeltaFrom_eq : decodeDeltaFrom f = readDeltaHead f >>= decodeDeltaRest f := by
  simp only [readDeltaHead, bind_assoc, pure_bind]
  rfl

omit [DeltaWord α] in
theorem decodeDeltaRest_of_not_decodes {head : DeltaHead α} (h : ¬ head.Decodes) (rest : Bytes) :
    (∃ e, (decodeDeltaRest f head).run rest = .error (.err e)) ∨
      head.numValues = 0 ∧ (decodeDeltaRest f head).run rest = .ok ([], rest) := by
  rw [decodeDeltaRest]
  split
  · next hzero => exact .inr ⟨hzero, rfl⟩
  · next hvalues =>
    split
    · exact .inl ⟨_, rfl⟩
    · next hmini =>
      split
      · exact .inl ⟨_, rfl⟩
      · next hdiv => exact absurd ⟨hvalues, hmini, not_not.mp hdiv⟩ h

/-- There is no room, or the blocks decide. -/
theorem decodeDeltaRest_of_decodes (hf : CheckedDelta f) (hhost : Limits H build room)
    {head : DeltaHead α} (h : head.Decodes) (rest : Bytes) :
    (∀ rest', ¬ HeadFits f build H.simd room head rest') ∧
        (∃ e, (decodeDeltaRest f head).run rest = .error e ∧ Panics e) ∨
      (HeadFits f build H.simd room head rest ↔ ¬ Ahead
          (DeltaStep (DeltaWord.bits α) head.miniBlocks head.miniBlockSize)
          (Misfit f build H.simd head.miniBlockSize) ⟨[], head.numValues - 1, rest⟩) ∧
        Foretold f build H.simd head.miniBlocks head.miniBlockSize head.numValues
          ⟨[], head.numValues - 1, rest⟩ (decodeDeltaRest f head) := by
  rw [decodeDeltaRest, if_neg h.values, if_neg h.miniBlocks, if_neg (not_not.mpr h.divides)]
  rcases Nat.lt_or_ge room (head.numValues * f.valueSize) with hlt | hle
  · obtain ⟨e, hrun, he⟩ := hhost.full _ _ hlt
    exact .inl ⟨fun _ hfits => Nat.not_le.mpr hlt hfits.values, e, by rw [hrun]; rfl, he⟩
  rw [hhost.fits _ _ hle, Reader.lift_ok, pure_bind]
  rcases reserveBuffers_outcome hhost head.miniBlockSize f.bufferSizes with
    ⟨hbuffers, hrun⟩ | ⟨hbuffers, e, hrun, he⟩
  · rw [hrun, Reader.lift_ok, pure_bind]
    have hpos := Nat.pos_of_ne_zero h.values
    refine .inr ⟨⟨fun hfits => hfits.miniBlocks, fun hblocks => ⟨hle, hbuffers, hblocks⟩⟩,
      deltaLoop_foretold hf hhost
        ⟨f.toAcc head.firstValue, [head.firstValue], head.numValues - 1⟩ ?_ rest⟩
    change 1 + (head.numValues - 1) = head.numValues
    omega
  · exact .inl ⟨fun _ hfits => hbuffers hfits.buffers, e, by rw [hrun]; rfl, he⟩

theorem decodeDeltaRest_panics_iff (hf : CheckedDelta f) (hhost : Limits H build room)
    (head : DeltaHead α) (rest : Bytes) : (decodeDeltaRest f head).Fails Panics rest ↔
      head.Decodes ∧ ¬ HeadFits f build H.simd room head rest := by
  by_cases h : head.Decodes
  · rcases decodeDeltaRest_of_decodes hf hhost h rest with ⟨hno, e, hrun, he⟩ | ⟨hfits, hway⟩
    · exact iff_of_true ⟨e, he, hrun⟩ ⟨h, hno rest⟩
    · rw [hfits, not_not]
      simp only [h, true_and]
      exact hway.panics
  · refine iff_of_false (fun hfails => ?_) fun hd => h hd.1
    rcases decodeDeltaRest_of_not_decodes h rest with ⟨e, hrun⟩ | ⟨-, hrun⟩
    · exact not_panics_err e ((fails_of_error hrun).mp hfails)
    · exact not_fails_of_ok hrun hfails

omit [DeltaWord α] H in
theorem calm_readDeltaHead (hfirst : Calm Panics f.readFirst) : Calm Panics (readDeltaHead f) :=
  (calm_wire calm_readUvarint).bind fun _ => (calm_wire calm_readUvarint).bind fun _ =>
    (calm_wire calm_readUvarint).bind fun _ => (calm_wire hfirst).bind fun _ => calm_pure _

theorem stream_panics_iff (hf : CheckedDelta f) (hhost : Limits H build room) (bytes : Bytes) :
    (decodeDeltaFrom f).Fails Panics bytes ↔ ¬ StreamFits f build H.simd room bytes := by
  rw [decodeDeltaFrom_eq, fails_bind, StreamFits]
  push Not
  constructor
  · rintro (h | ⟨head, rest, hhead, h⟩)
    · exact absurd h ((calm_readDeltaHead hf.calmFirst).not_fails bytes)
    · obtain ⟨hdecodes, hfits⟩ := (decodeDeltaRest_panics_iff hf hhost head rest).mp h
      exact ⟨head, rest, hhead, hdecodes, hfits⟩
  · rintro ⟨head, rest, hhead, hdecodes, hfits⟩
    exact .inr ⟨head, rest, hhead,
      (decodeDeltaRest_panics_iff hf hhost head rest).mpr ⟨hdecodes, hfits⟩⟩

/-- A stream that is read ends where the walk ends. -/
theorem stream_returned (hf : CheckedDelta f) (hhost : Limits H build room) {bytes rest : Bytes}
    {values : List α} (hfits : StreamFits f build H.simd room bytes)
    (h : (decodeDeltaFrom f).run bytes = .ok (values, rest)) :
    StreamEnds f bytes values.length rest := by
  rw [decodeDeltaFrom_eq] at h
  obtain ⟨head, mid, hhead, h⟩ := run_bind_eq_ok h
  by_cases hd : head.Decodes
  · rcases decodeDeltaRest_of_decodes hf hhost hd mid with ⟨hno, -⟩ | ⟨-, hway⟩
    · exact absurd (hfits head mid hhead hd) (hno mid)
    · obtain ⟨hlen, hahead⟩ := hway.returned values rest h
      exact ⟨head, mid, hhead, hlen.symm, .inr ⟨hd, hlen ▸ hahead⟩⟩
  · rcases decodeDeltaRest_of_not_decodes hd mid with ⟨e, hrun⟩ | ⟨hzero, hrun⟩
    · cases hrun.symm.trans h
    · cases hrun.symm.trans h
      exact ⟨head, rest, hhead, hzero, .inl ⟨rfl, rfl⟩⟩

theorem stream_ends (hf : CheckedDelta f) (hhost : Limits H build room) {bytes rest : Bytes}
    {n : ℕ} (hfits : StreamFits f build H.simd room bytes) (h : StreamEnds f bytes n rest) :
    ∃ values, values.length = n ∧ (decodeDeltaFrom f).run bytes = .ok (values, rest) := by
  obtain ⟨head, mid, hhead, rfl, ⟨hzero, rfl⟩ | ⟨hd, hahead⟩⟩ := h
  · refine ⟨[], hzero.symm, ?_⟩
    rw [decodeDeltaFrom_eq, run_bind_ok hhead, decodeDeltaRest, if_pos hzero]
    rfl
  · rcases decodeDeltaRest_of_decodes hf hhost hd mid with ⟨hno, -⟩ | ⟨-, hway⟩
    · exact absurd (hfits head mid hhead hd) (hno mid)
    · obtain ⟨values, hrun⟩ := hway.ended rest hahead
      refine ⟨values, (hway.returned values rest hrun).1, ?_⟩
      rw [decodeDeltaFrom_eq, run_bind_ok hhead]
      exact hrun

end

/-! ## Byte strings -/

section
variable [H : Host] {build : Build} {room : ℕ}

theorem lengths_panic_iff (hhost : Limits H build room) {bytes : Bytes}
    (hroom : bytes.length ≤ room) :
    (decodeDeltaI32From >>= takeFrom).Fails Panics bytes ↔ ¬ LengthsFit build H.simd room bytes := by
  have hstream := stream_panics_iff checked_deltaI32 hhost bytes
  rw [fails_bind]
  constructor
  · rintro (h | ⟨lengths, rest, hrun, h⟩) hfits
    · exact hstream.mp h hfits.lengths
    · have hends := stream_returned checked_deltaI32 hhost hfits.lengths hrun
      have hlt := (takeFrom_panics_iff hhost ((run_length_le _ hrun).trans hroom)).mp h
      exact Nat.not_le.mpr hlt (hfits.values _ rest hends)
  · intro h
    by_contra hnot
    rw [not_or, not_exists] at hnot
    have hfits := not_not.mp fun hf => hnot.1 (hstream.mpr hf)
    refine h ⟨hfits, fun n rest hends => ?_⟩
    obtain ⟨lengths, rfl, hrun⟩ := stream_ends checked_deltaI32 hhost hfits hends
    by_contra hlt
    exact hnot.2 lengths ⟨rest, hrun,
      (takeFrom_panics_iff hhost ((run_length_le _ hrun).trans hroom)).mpr (Nat.not_le.mp hlt)⟩

theorem prefixes_panic_iff (hhost : Limits H build room) {bytes : Bytes}
    (hroom : bytes.length ≤ room) :
    (do
      let prefixLengths ← decodeDeltaI32From
      let suffixLengths ← decodeDeltaI32From
      rebuildFrom prefixLengths suffixLengths : CodecM (List Bytes)).Fails Panics bytes ↔
        ¬ PrefixesFit build H.simd room bytes := by
  have hstream := stream_panics_iff checked_deltaI32 hhost
  rw [fails_bind]
  constructor
  · rintro (h | ⟨prefixes, mid, hrun, h⟩) hfits
    · exact (hstream bytes).mp h hfits.prefixes
    have hends := stream_returned checked_deltaI32 hhost hfits.prefixes hrun
    rcases fails_bind.mp h with h | ⟨suffixes, rest, hrun', h⟩
    · exact (hstream mid).mp h (hfits.suffixes _ mid hends)
    · have hends' := stream_returned checked_deltaI32 hhost (hfits.suffixes _ mid hends) hrun'
      have hlen := (run_length_le _ hrun').trans ((run_length_le _ hrun).trans hroom)
      obtain ⟨heq, hlt⟩ := (rebuildFrom_panics_iff hhost hlen).mp h
      exact Nat.not_le.mpr hlt (hfits.values _ mid rest hends (heq ▸ hends'))
  · intro h
    by_contra hnot
    rw [not_or, not_exists] at hnot
    have hfits := not_not.mp fun hf => hnot.1 ((hstream bytes).mpr hf)
    have hsuffixes : ∀ n mid, StreamEnds deltaI32 bytes n mid →
        StreamFits deltaI32 build H.simd room mid := by
      intro n mid hends
      obtain ⟨prefixes, rfl, hrun⟩ := stream_ends checked_deltaI32 hhost hfits hends
      by_contra hf
      exact hnot.2 prefixes ⟨mid, hrun, fails_bind.mpr (.inl ((hstream mid).mpr hf))⟩
    refine h ⟨hfits, hsuffixes, fun n mid rest hends hends' => ?_⟩
    obtain ⟨prefixes, rfl, hrun⟩ := stream_ends checked_deltaI32 hhost hfits hends
    obtain ⟨suffixes, heq, hrun'⟩ :=
      stream_ends checked_deltaI32 hhost (hsuffixes _ mid hends) hends'
    have hlen := (run_length_le _ hrun').trans ((run_length_le _ hrun).trans hroom)
    by_contra hlt
    exact hnot.2 prefixes ⟨mid, hrun, fails_bind.mpr (.inr ⟨suffixes, rest, hrun',
      (rebuildFrom_panics_iff hhost hlen).mpr ⟨heq.symm, Nat.not_le.mp hlt⟩⟩)⟩

end

theorem returns_iff {r : CodecM α} {bytes : Bytes} :
    Returns ((·.1) <$> r.run bytes) ↔ ¬ r.Fails Panics bytes := by
  cases hrun : r.run bytes with
  | ok p => exact iff_of_true (.inl ⟨p.1, rfl⟩) (not_fails_of_ok hrun)
  | error e =>
    rw [fails_of_error hrun]
    cases e with
    | err e => exact iff_of_true (.inr ⟨e, rfl⟩) (not_panics_err e)
    | panic msg =>
      refine iff_of_false ?_ (not_not.mpr ⟨msg, rfl⟩)
      rintro (⟨a, ha⟩ | ⟨e, he⟩)
      · cases ha
      · cases he

/-- **The delta decoders on any bytes**, in either build, with or without kernels, and
    on a machine with any room beside the input: when they return. -/
theorem deltaDecoders_return_iff (build : Build) (simd : Option Simd) (bytes : Bytes)
    (spare : ℕ) :
    (Returns (@decodeDeltaI32 (hostOf build (bytes.length + spare) simd) bytes) ↔
      StreamFits deltaI32 build simd (bytes.length + spare) bytes) ∧
    (Returns (@decodeDeltaI64 (hostOf build (bytes.length + spare) simd) bytes) ↔
      StreamFits deltaI64 build simd (bytes.length + spare) bytes) ∧
    (Returns (@decodeDeltaLengthByteArray (hostOf build (bytes.length + spare) simd) bytes) ↔
      LengthsFit build simd (bytes.length + spare) bytes) ∧
    (Returns (@decodeDeltaByteArray (hostOf build (bytes.length + spare) simd) bytes) ↔
      PrefixesFit build simd (bytes.length + spare) bytes) := by
  have hhost := limits_hostOf build (bytes.length + spare) simd
  have hroom : bytes.length ≤ bytes.length + spare := Nat.le_add_right _ _
  have h32 := stream_panics_iff (H := hostOf build _ simd) checked_deltaI32 hhost bytes
  have h64 := stream_panics_iff (H := hostOf build _ simd) checked_deltaI64 hhost bytes
  have hlengths := lengths_panic_iff (H := hostOf build _ simd) hhost hroom
  have hprefixes := prefixes_panic_iff (H := hostOf build _ simd) hhost hroom
  exact ⟨returns_iff.trans (not_iff_comm.mpr h32.symm),
    returns_iff.trans (not_iff_comm.mpr h64.symm),
    returns_iff.trans (not_iff_comm.mpr hlengths.symm),
    returns_iff.trans (not_iff_comm.mpr hprefixes.symm)⟩

/-- A mini-block of one value of one bit has no bytes, which the kernels notice; one of 33
    bits has four, and there are no kernels for it; and 2^62 values want more room than
    there can be. -/
theorem deltaDecoders_hostile :
    (∀ build ∈ [Build.debug, .release],
      ¬ Returns (@decodeDeltaI32 (hostOf build (2 ^ 63 - 1)) [1, 1, 2, 0, 0, 1]) ∧
      ¬ Returns (@decodeDeltaI64 (hostOf build (2 ^ 63 - 1)) [1, 1, 2, 0, 0, 1]) ∧
      ¬ Returns (@decodeDeltaLengthByteArray (hostOf build (2 ^ 63 - 1)) [1, 1, 2, 0, 0, 1]) ∧
      ¬ Returns (@decodeDeltaByteArray (hostOf build (2 ^ 63 - 1)) [1, 1, 2, 0, 0, 1])) ∧
    ∀ build ∈ [Build.debug, .release], ∀ simd : Option Simd,
      ¬ Returns (@decodeDeltaI64 (hostOf build (2 ^ 63 - 1) simd)
        [1, 1, 2, 0, 0, 33, 0, 0, 0, 0]) ∧
      ¬ Returns (@decodeDeltaI32 (hostOf build (2 ^ 63 - 1) simd)
        ([128, 1, 4] ++ writeUvarint (2 ^ 62) ++ [0])) := by
  constructor
  · intro build hbuild
    rcases List.mem_pair.mp hbuild with rfl | rfl
    · exact ⟨not_returns rfl, not_returns rfl, not_returns rfl, not_returns rfl⟩
    · exact ⟨not_returns rfl, not_returns rfl, not_returns rfl, not_returns rfl⟩
  · intro build hbuild simd
    have hroom : @decodeDeltaI32 (hostOf build (2 ^ 63 - 1) simd)
        ([128, 1, 4] ++ writeUvarint (2 ^ 62) ++ [0]) = .error (.panic "capacity overflow") := by
      cases build <;> rcases simd with _ | _ | _ <;> decide +kernel
    refine ⟨?_, not_returns hroom⟩
    rcases List.mem_pair.mp hbuild with rfl | rfl
    · exact not_returns rfl
    · exact not_returns rfl

end EmatixParquet
