/-
  The size of what the two hybrid encoders of `rle.rs` write.

  `encode_rle_bit_packed` cuts the indices into pieces: RLE runs for
  repetitions of eight or more, once they have aligned the values pending before
  them, and bit-packed runs for what lies between.  A piece is a header and its
  bytes, and every cut costs a header.

  * `pieces`: the cuts, from the lengths of the repetitions alone;
  * `length_encodeRuns`: the size of the output is the size of the pieces;
  * `coalescing_iff`: the output is no longer than the single run of
    `encode_rle_bit_packed_single_run` iff the headers and the repeated values
    cost no more than the groups they save;
  * `pays_of_wide`: from twelve bits on they always do.
-/
import EmatixParquet.Codec.Rle
import Mathlib.Data.Nat.Log

namespace EmatixParquet

open Wire

/-! ## Sizes -/

/-- The bytes of a number as a header: one for every seven bits. -/
def headerBytes (n : ℕ) : ℕ := Nat.log 128 n + 1

theorem length_writeUvarint (v : UInt64) : (writeUvarint v).length = headerBytes v.toNat := by
  obtain ⟨n, hn⟩ : ∃ n, v.toNat = n := ⟨_, rfl⟩
  induction n using Nat.strong_induction_on generalizing v with
  | _ n ih =>
    rw [writeUvarint_eq]
    split
    · next hge =>
      have h128 : 128 ≤ v.toNat := UInt64.le_iff_toNat_le.mp hge
      have hdiv := toNat_shiftRight_seven v
      rw [List.length_cons, ih _ (by omega) _ rfl, hdiv, headerBytes, headerBytes,
        Nat.log_of_one_lt_of_le (by decide) h128]
    · next hlt =>
      have h128 : v.toNat < 128 := UInt64.lt_iff_toNat_lt.mp (UInt64.not_le.mp hlt)
      rw [headerBytes, Nat.log_of_lt h128]
      rfl

theorem headerBytes_mono {m n : ℕ} (h : m ≤ n) : headerBytes m ≤ headerBytes n :=
  Nat.succ_le_succ (Nat.log_mono_right h)

theorem headerBytes_le {n k : ℕ} (h : n < 128 ^ k) (hk : k ≠ 0) : headerBytes n ≤ k :=
  Nat.log_lt_of_lt_pow' hk h

theorem length_packBits (body : Bytes) (byteIx : ℕ) (shift : Fin 8) (remaining : ℕ)
    (value : UInt64) : (packBits body byteIx shift remaining value).length = body.length := by
  induction remaining using Nat.strong_induction_on generalizing body byteIx shift value with
  | _ remaining ih =>
    rw [packBits]
    split
    · rfl
    · next hz => rw [ih _ (by omega), List.length_modify]

theorem length_packFrom (bw : ℕ) (body : Bytes) (i : ℕ) (indices : List UInt32) :
    (packFrom bw body i indices).length = body.length := by
  induction indices generalizing body i with
  | nil => rfl
  | cons v indices ih => rw [packFrom, ih, length_packBits]

/-- The header counts the groups of eight, each of them `bw` bytes. -/
theorem length_bitPackedRun {values : List UInt32} (bw : ℕ) (h : values.length < 2 ^ 63) :
    (bitPackedRun values bw).length
      = headerBytes (2 * (values.length / 8) + 1) + values.length / 8 * bw := by
  have hheader : ((UInt64.ofNat (values.length / 8) <<< 1) ||| 1).toNat
      = 2 * (values.length / 8) + 1 := by
    obtain ⟨hbit, hgroups⟩ := header_packed (show values.length / 8 < 2 ^ 63 by omega)
    have hodd : ((UInt64.ofNat (values.length / 8) <<< 1) ||| 1).toNat % 2 = 1 := by
      have hand := congrArg UInt64.toNat hbit
      rw [UInt64.toNat_and] at hand
      exact (Nat.and_two_pow_sub_one_eq_mod _ 1).symm.trans hand
    rw [UInt64.toNat_shiftRight, Nat.shiftRight_eq_div_pow] at hgroups
    change _ / 2 = _ at hgroups
    omega
  rw [bitPackedRun, List.length_append, length_writeUvarint, hheader, packLsbFirst,
    length_packFrom, List.length_replicate]

theorem length_rleRun {count : ℕ} (v : UInt32) (bw : ℕ) (h : count < 2 ^ 63) :
    (rleRun count v bw).length = headerBytes (2 * count) + divCeil bw 8 := by
  have hheader : (UInt64.ofNat count <<< 1).toNat = 2 * count := by
    rw [UInt64.toNat_shiftLeft, UInt64.toNat_ofNat_of_lt' (show count < 2 ^ 64 by omega),
      Nat.shiftLeft_eq, Nat.mul_comm 2]
    exact Nat.mod_eq_of_lt (by change count * 2 < 2 ^ 64; omega)
  rw [rleRun, List.length_append, length_writeUvarint, hheader, length_valueBytesLe]

/-! ## The pieces -/

/-- The lengths of the repetitions of a list, each as long as it gets. -/
def repeats : List UInt32 → List ℕ
  | [] => []
  | v :: rest => (1 + (rest.takeWhile (· == v)).length) :: repeats (rest.dropWhile (· == v))
termination_by indices => indices.length
decreasing_by exact Nat.lt_succ_of_le (List.dropWhile_sublist _).length_le

/-- A run of the output: how many groups of eight, or how many equal values. -/
inductive Piece where
  | packed (groups : ℕ)
  | rle (count : ℕ)
  deriving DecidableEq, Repr

/-- The pieces of repetitions of these lengths, behind `pending` values that
    wait to be bit-packed: a repetition that is still eight long once it has
    filled the last group becomes an RLE run. -/
def pieces (pending : ℕ) : List ℕ → List Piece
  | [] => if pending = 0 then [] else [.packed (divCeil pending 8)]
  | len :: lens =>
    let borrow := if pending % 8 = 0 then 0 else 8 - pending % 8
    if 8 + borrow ≤ len then
      (if pending = 0 then [] else [.packed ((pending + borrow) / 8)])
        ++ .rle (len - borrow) :: pieces 0 lens
    else pieces (pending + len) lens

namespace Piece

/-- The header of a piece. -/
def header : Piece → ℕ
  | packed groups => headerBytes (2 * groups + 1)
  | rle count => headerBytes (2 * count)

/-- The groups of eight that it packs. -/
def groups : Piece → ℕ
  | packed groups => groups
  | rle _ => 0

/-- The repeated values that it writes. -/
def runs : Piece → ℕ
  | packed _ => 0
  | rle _ => 1

/-- The bytes of a piece: its header and its body. -/
def bytes (bw : ℕ) : Piece → ℕ
  | packed groups => headerBytes (2 * groups + 1) + groups * bw
  | rle count => headerBytes (2 * count) + divCeil bw 8

end Piece

/-- The bytes of all headers. -/
def headers (ps : List Piece) : ℕ := (ps.map Piece.header).sum

/-- The groups of all packed pieces. -/
def packedGroups (ps : List Piece) : ℕ := (ps.map Piece.groups).sum

/-- How many of the pieces are repeats. -/
def rleCount (ps : List Piece) : ℕ := (ps.map Piece.runs).sum

/-- The bytes of all pieces. -/
def piecesBytes (bw : ℕ) (ps : List Piece) : ℕ := (ps.map (Piece.bytes bw)).sum

theorem piecesBytes_eq (bw : ℕ) (ps : List Piece) :
    piecesBytes bw ps = headers ps + rleCount ps * divCeil bw 8 + packedGroups ps * bw := by
  induction ps with
  | nil => simp [piecesBytes, headers, rleCount, packedGroups]
  | cons p ps ih =>
    simp only [piecesBytes, headers, rleCount, packedGroups] at ih ⊢
    cases p <;> simp [Piece.bytes, Piece.header, Piece.runs, Piece.groups, ih] <;> ring

theorem sum_repeats (indices : List UInt32) : (repeats indices).sum = indices.length := by
  induction hn : indices.length using Nat.strong_induction_on generalizing indices with
  | _ n ih =>
    subst hn
    cases indices with
    | nil => rw [repeats]; rfl
    | cons v rest =>
      have hlen := congrArg List.length (replicate_append_dropWhile v rest)
      rw [List.length_append, List.length_replicate] at hlen
      rw [repeats, List.sum_cons, ih _ (by rw [List.length_cons]; omega) _ rfl, List.length_cons]
      omega

/-- **The size of the coalesced output**, by induction over the repetitions that
    are left. -/
theorem length_encodeRuns (bw : ℕ) (pending : List UInt32) (out : Bytes) (indices : List UInt32)
    (hsmall : pending.length + indices.length < 2 ^ 62) :
    (encodeRuns bw pending out indices).length
      = out.length + piecesBytes bw (pieces pending.length (repeats indices)) := by
  induction hn : indices.length using Nat.strong_induction_on
    generalizing pending out indices with
  | _ n ih =>
  subst hn
  cases indices with
  | nil =>
    rw [encodeRuns, repeats, pieces]
    by_cases hp : pending = []
    · rw [if_pos hp, if_pos (by rw [hp]; rfl)]
      rfl
    · have hpadded := length_padToGroups pending
      have hceil : divCeil pending.length 8 = (pending.length + 7) / 8 := rfl
      rw [List.length_nil] at hsmall
      rw [if_neg hp, if_neg (fun h => hp (List.length_eq_zero_iff.mp h)), List.length_append,
        length_bitPackedRun _ (by omega), hpadded, Nat.mul_div_cancel _ (by decide)]
      simp [piecesBytes, Piece.bytes]
  | cons v rest =>
    have hlen := congrArg List.length (replicate_append_dropWhile v rest)
    rw [List.length_append, List.length_replicate] at hlen
    rw [encodeRuns, repeats, pieces]
    dsimp only
    rw [List.length_cons] at hsmall ih
    generalize (rest.takeWhile (· == v)).length = l at hlen ⊢
    generalize rest.dropWhile (· == v) = next at hlen ⊢
    generalize hborrow : (if pending.length % 8 = 0 then 0 else 8 - pending.length % 8) = borrow
    have haligned : (pending.length + borrow) % 8 = 0 := by
      split at hborrow <;> omega
    rw [rleThreshold]
    by_cases hworth : 8 + borrow ≤ 1 + l
    · rw [if_pos hworth, if_pos hworth, ih _ (by omega) _ _ _ (by rw [List.length_nil]; omega) rfl,
        List.length_append, length_rleRun _ _ (by omega), List.length_nil]
      have hflush : (if pending ++ List.replicate borrow v = [] then out
          else out ++ bitPackedRun (pending ++ List.replicate borrow v) bw).length
          = out.length + piecesBytes bw
            (if pending.length = 0 then [] else [.packed ((pending.length + borrow) / 8)]) := by
        by_cases hp : pending.length = 0
        · have hnone : borrow = 0 := by
            rw [← hborrow, hp]
            rfl
          rw [if_pos hp, if_pos (by rw [List.length_eq_zero_iff.mp hp, hnone]; rfl)]
          rfl
        · have hne : pending ++ List.replicate borrow v ≠ [] := fun h => hp (by
            rw [(List.append_eq_nil_iff.mp h).1]
            rfl)
          rw [if_neg hp, if_neg hne, List.length_append, length_bitPackedRun _ (by
            rw [List.length_append, List.length_replicate]; omega), List.length_append,
            List.length_replicate]
          simp [piecesBytes, Piece.bytes]
      rw [hflush]
      simp only [piecesBytes, List.map_append, List.map_cons, List.sum_append, List.sum_cons,
        Piece.bytes]
      omega
    · rw [if_neg hworth, if_neg hworth, ih _ (by omega) _ _ _ (by
        rw [List.length_append, List.length_replicate]; omega) rfl, List.length_append,
        List.length_replicate]

/-! ## What the cuts cost and save -/

/-- The groups that the single run packs. -/
def singleGroups (indices : List UInt32) : ℕ := divCeil indices.length 8

/-- The pieces of a list. -/
def cuts (indices : List UInt32) : List Piece := pieces 0 (repeats indices)

/-- **The cuts pay**: their headers and the values of the RLE runs take no more
    bytes than the one header of a single run and the groups that the RLE runs
    keep from being packed. -/
def CutsPay (bw : ℕ) (indices : List UInt32) : Prop :=
  headers (cuts indices) + rleCount (cuts indices) * divCeil bw 8
    ≤ headerBytes (2 * singleGroups indices + 1)
      + (singleGroups indices - packedGroups (cuts indices)) * bw

/-- What the pieces hold, group by group: an RLE run of `count` values keeps at
    least `count / 8` groups from being packed. -/
def savedGroups (ps : List Piece) : ℕ :=
  (ps.map fun p => match p with
    | .packed _ => 0
    | .rle count => count / 8).sum

theorem packedGroups_add_savedGroups_le (pending : ℕ) (lens : List ℕ) :
    packedGroups (pieces pending lens) + savedGroups (pieces pending lens)
      ≤ divCeil (pending + lens.sum) 8 := by
  induction lens generalizing pending with
  | nil =>
    rw [pieces]
    by_cases hp : pending = 0
    · rw [if_pos hp]
      exact Nat.zero_le _
    · rw [if_neg hp]
      simp [packedGroups, savedGroups, Piece.groups]
  | cons len lens ih =>
    have hceil : ∀ n, divCeil n 8 = (n + 7) / 8 := fun _ => rfl
    rw [pieces, List.sum_cons]
    generalize hborrow : (if pending % 8 = 0 then 0 else 8 - pending % 8) = borrow
    have haligned : (pending + borrow) % 8 = 0 := by
      split at hborrow <;> omega
    by_cases hworth : 8 + borrow ≤ len
    · have h0 := ih 0
      rw [hceil] at h0 ⊢
      have hhead : packedGroups (if pending = 0 then [] else [.packed ((pending + borrow) / 8)])
          ≤ (pending + borrow) / 8 ∧
          savedGroups (if pending = 0 then [] else [.packed ((pending + borrow) / 8)]) = 0 := by
        split <;> simp [packedGroups, savedGroups, Piece.groups]
      rw [if_pos hworth]
      simp only [packedGroups, savedGroups, List.map_append, List.map_cons, List.sum_append,
        List.sum_cons, Piece.groups] at hhead h0 ⊢
      omega
    · rw [if_neg hworth, ← Nat.add_assoc]
      exact ih _

theorem packedGroups_cuts_le (indices : List UInt32) :
    packedGroups (cuts indices) + savedGroups (cuts indices) ≤ singleGroups indices := by
  have h := packedGroups_add_savedGroups_le 0 (repeats indices)
  rwa [sum_repeats, Nat.zero_add] at h

/-- Without a repetition of eight, everything is pending until the end. -/
theorem encodeRuns_of_short (bw : ℕ) (pending : List UInt32) (out : Bytes)
    (indices : List UInt32) (h : ∀ len ∈ repeats indices, len < 8) :
    encodeRuns bw pending out indices
      = if pending ++ indices = [] then out
        else out ++ bitPackedRun (padToGroups (pending ++ indices)) bw := by
  induction hn : indices.length using Nat.strong_induction_on
    generalizing pending indices with
  | _ n ih =>
  subst hn
  cases indices with
  | nil => rw [encodeRuns, List.append_nil]
  | cons v rest =>
    have hsplit := replicate_append_dropWhile v rest
    have hlen := congrArg List.length hsplit
    rw [List.length_append, List.length_replicate] at hlen
    rw [repeats, List.forall_mem_cons] at h
    rw [encodeRuns]
    dsimp only
    rw [if_neg (by rw [rleThreshold]; omega), ih _ (by rw [List.length_cons]; omega) _ _ h.2 rfl]
    have hrest : pending ++ List.replicate (1 + (rest.takeWhile (· == v)).length) v
        ++ rest.dropWhile (· == v) = pending ++ v :: rest := by
      rw [Nat.add_comm, List.replicate_succ, List.append_assoc, List.cons_append, hsplit]
    rw [hrest]

/-- Each repetition is a stretch of the list. -/
theorem replicate_infix_of_mem_repeats {indices : List UInt32} {len : ℕ}
    (h : len ∈ repeats indices) : ∃ v, List.replicate len v <:+: indices := by
  induction hn : indices.length using Nat.strong_induction_on generalizing indices with
  | _ n ih =>
  subst hn
  cases indices with
  | nil =>
    rw [repeats] at h
    cases h
  | cons v rest =>
    have hsplit := replicate_append_dropWhile v rest
    have hlen := congrArg List.length hsplit
    rw [List.length_append, List.length_replicate] at hlen
    rw [repeats] at h
    rcases List.mem_cons.mp h with rfl | h
    · refine ⟨v, [], rest.dropWhile (· == v), ?_⟩
      rw [List.nil_append, Nat.add_comm, List.replicate_succ, List.cons_append, hsplit]
    · obtain ⟨w, hw⟩ := ih _ (by rw [List.length_cons]; omega) h rfl
      exact ⟨w, hw.trans ((List.dropWhile_suffix _).isInfix.trans (List.suffix_cons v rest).isInfix)⟩

/-- The bytes of a slice of indices fit the address space. -/
abbrev maxIndices : ℕ := 2 ^ 61

/-- **Coalescing** shortens the output, or leaves its length, exactly where the
    cuts pay; where no value repeats eight times, nothing is cut. -/
theorem coalescing_iff {indices : List UInt32} {bitWidth : UInt8} (hbw0 : bitWidth ≠ 0)
    (hbw : bitWidth ≤ 32) (hlen : indices.length < maxIndices) :
    ((encodeRleBitPacked indices bitWidth).length
        ≤ (encodeRleBitPackedSingleRun indices bitWidth).length ↔
      CutsPay bitWidth.toNat indices) ∧
    ((∀ v, ¬ List.replicate 8 v <:+: indices) →
      encodeRleBitPacked indices bitWidth = encodeRleBitPackedSingleRun indices bitWidth) := by
  by_cases hnil : indices = []
  · subst hnil
    refine ⟨iff_of_true (Nat.le_refl _) ?_, fun _ => rfl⟩
    rw [CutsPay, cuts, repeats, pieces, if_pos rfl]
    simp [headers, rleCount]
  have hcoalesced : encodeRleBitPacked indices bitWidth
      = encodeRuns bitWidth.toNat [] [] indices := by
    rw [encodeRleBitPacked, if_neg hnil, if_neg hbw0, if_neg (UInt8.not_lt.mpr hbw)]
  have hsingle : encodeRleBitPackedSingleRun indices bitWidth
      = bitPackedRun (padToGroups indices) bitWidth.toNat := by
    rw [encodeRleBitPackedSingleRun, if_neg hnil, if_neg hbw0, if_neg (UInt8.not_lt.mpr hbw)]
  constructor
  · have hpadded := length_padToGroups indices
    have hceil : divCeil indices.length 8 = (indices.length + 7) / 8 := rfl
    change indices.length < 2 ^ 61 at hlen
    have hle := packedGroups_cuts_le indices
    have hmul : (singleGroups indices - packedGroups (cuts indices)) * bitWidth.toNat
        = singleGroups indices * bitWidth.toNat - packedGroups (cuts indices) * bitWidth.toNat :=
      Nat.sub_mul _ _ _
    have hmono : packedGroups (cuts indices) * bitWidth.toNat
        ≤ singleGroups indices * bitWidth.toNat := Nat.mul_le_mul_right _ (by omega)
    rw [hcoalesced, hsingle, length_encodeRuns _ _ _ _ (by rw [List.length_nil]; omega),
      length_bitPackedRun _ (by omega), hpadded, Nat.mul_div_cancel _ (by decide),
      show pieces ([] : List UInt32).length (repeats indices) = cuts indices from rfl,
      List.length_nil, piecesBytes_eq, CutsPay, hmul,
      show divCeil indices.length 8 = singleGroups indices from rfl]
    omega
  · intro hfew
    have hshort : ∀ len ∈ repeats indices, len < 8 := by
      intro len hmem
      by_contra hlong
      obtain ⟨v, hv⟩ := replicate_infix_of_mem_repeats hmem
      have h8 : List.replicate 8 v <+: List.replicate len v :=
        ⟨List.replicate (len - 8) v, by rw [← List.replicate_add]; congr 1; omega⟩
      exact hfew v (h8.isInfix.trans hv)
    rw [hcoalesced, hsingle, encodeRuns_of_short _ _ _ _ hshort, List.nil_append, if_neg hnil,
      List.nil_append]

/-- Eight mixed values, eight equal ones, eight mixed ones. -/
def mixedIndices : List UInt32 :=
  [0, 1, 0, 1, 0, 1, 0, 1] ++ (List.replicate 8 0 ++ [1, 0, 1, 0, 1, 0, 1, 0])

/-- At sixteen bits, the cuts pay for a repetition of eight. -/
theorem coalescing_iff_sixteen_bits :
    ((encodeRleBitPacked mixedIndices 16).length
        ≤ (encodeRleBitPackedSingleRun mixedIndices 16).length ↔
      CutsPay (16 : UInt8).toNat mixedIndices) ∧
    ((∀ v, ¬ List.replicate 8 v <:+: mixedIndices) →
      encodeRleBitPacked mixedIndices 16 = encodeRleBitPackedSingleRun mixedIndices 16) :=
  coalescing_iff (by decide) (by decide) (by decide)

/-- At one bit they do not: six bytes in place of four. -/
theorem coalescing_costs_two_bytes :
    (∀ v ∈ mixedIndices, v.toNat < 2 ^ 1) ∧ (encodeRleBitPacked mixedIndices 1).length = 6 ∧
      (encodeRleBitPackedSingleRun mixedIndices 1).length = 4 := by
  refine ⟨fun v hv => ?_, by decide +kernel, by decide +kernel⟩
  have hall : mixedIndices.all (fun v => v.toNat < 2 ^ 1) = true := by decide
  simpa using List.all_eq_true.mp hall v hv

/-! ## Wide indices -/

/-- The header of an RLE run takes no more bytes than the groups it saves. -/
theorem headerBytes_le_saved {count : ℕ} (h : 8 ≤ count) : headerBytes (2 * count) ≤ count / 8 := by
  have hk : 1 ≤ count / 8 := by omega
  refine headerBytes_le ?_ (by omega)
  calc 2 * count < 2 ^ 4 * (count / 8 + 1) := by omega
    _ ≤ 2 ^ 4 * 2 ^ (count / 8) := Nat.mul_le_mul_left _ Nat.lt_two_pow_self
    _ = 2 ^ (4 + count / 8) := (Nat.pow_add ..).symm
    _ ≤ 2 ^ (7 * (count / 8)) := Nat.pow_le_pow_right (by decide) (by omega)
    _ = 128 ^ (count / 8) := Nat.pow_mul ..

/-- There is at most one bit-packed piece more than there are RLE runs. -/
theorem headers_le {h : ℕ} (pending : ℕ) (lens : List ℕ)
    (hmax : headerBytes (2 * divCeil (pending + lens.sum) 8 + 1) ≤ h) :
    headers (pieces pending lens)
      ≤ (rleCount (pieces pending lens) + 1) * h + savedGroups (pieces pending lens) ∧
      rleCount (pieces pending lens) ≤ savedGroups (pieces pending lens) := by
  have hceil : ∀ n, divCeil n 8 = (n + 7) / 8 := fun _ => rfl
  induction lens generalizing pending with
  | nil =>
    rw [pieces]
    by_cases hp : pending = 0
    · rw [if_pos hp]
      simp [headers, rleCount]
    · rw [if_neg hp]
      rw [List.sum_nil, Nat.add_zero] at hmax
      simpa [headers, rleCount, Piece.header, Piece.runs, savedGroups] using hmax
  | cons len lens ih =>
    rw [List.sum_cons] at hmax
    rw [pieces]
    generalize hborrow : (if pending % 8 = 0 then 0 else 8 - pending % 8) = borrow
    have haligned : (pending + borrow) % 8 = 0 := by
      split at hborrow <;> omega
    by_cases hworth : 8 + borrow ≤ len
    · rw [if_pos hworth]
      rw [hceil] at hmax
      obtain ⟨hrest, hruns⟩ := ih 0 ((headerBytes_mono (by rw [hceil]; omega)).trans hmax)
      have hsaved := headerBytes_le_saved (show 8 ≤ len - borrow by omega)
      have hhead : headers (if pending = 0 then [] else [.packed ((pending + borrow) / 8)]) ≤ h ∧
          rleCount (if pending = 0 then [] else [.packed ((pending + borrow) / 8)]) = 0 ∧
          savedGroups (if pending = 0 then [] else [.packed ((pending + borrow) / 8)]) = 0 := by
        split
        · simp [headers, rleCount, savedGroups]
        · have hmono : headerBytes (2 * ((pending + borrow) / 8) + 1) ≤ h :=
            (headerBytes_mono (by omega)).trans hmax
          simpa [headers, rleCount, savedGroups, Piece.header, Piece.runs] using hmono
      simp only [headers, rleCount, savedGroups, List.map_append, List.map_cons, List.sum_append,
        List.sum_cons, Piece.header, Piece.runs] at hhead hrest hruns ⊢
      obtain ⟨hh, hr, hs⟩ := hhead
      rw [hr, hs]
      refine ⟨?_, by omega⟩
      simp only [Nat.add_mul, Nat.one_mul, Nat.zero_add] at hrest ⊢
      omega
    · rw [if_neg hworth]
      exact ih _ (by rwa [Nat.add_assoc])

/-- **From twelve bits on**, the cuts always pay. -/
theorem pays_of_wide {bw : ℕ} {indices : List UInt32} (hbw : 12 ≤ bw)
    (hlen : indices.length < maxIndices) : CutsPay bw indices := by
  have hceil : ∀ n, divCeil n 8 = (n + 7) / 8 := fun _ => rfl
  have hgroups : singleGroups indices < 2 ^ 59 := by
    have hbound : indices.length < 2 ^ 61 := hlen
    rw [singleGroups, hceil]
    omega
  have hheader : headerBytes (2 * singleGroups indices + 1) ≤ 9 :=
    headerBytes_le (by omega) (by decide)
  have hle := packedGroups_cuts_le indices
  have hmax : headerBytes (2 * divCeil (0 + (repeats indices).sum) 8 + 1)
      ≤ headerBytes (2 * singleGroups indices + 1) := by
    rw [sum_repeats, Nat.zero_add, singleGroups]
  obtain ⟨hheaders, hruns⟩ := headers_le 0 (repeats indices) hmax
  rw [show pieces 0 (repeats indices) = cuts indices from rfl] at hheaders hruns
  rw [CutsPay]
  set r := rleCount (cuts indices)
  set s := savedGroups (cuts indices)
  set h := headerBytes (2 * singleGroups indices + 1)
  have hcost : r * h + r * divCeil bw 8 ≤ s * (9 + divCeil bw 8) := by
    rw [← Nat.mul_add]
    exact Nat.mul_le_mul hruns (by omega)
  have hgain : s * (9 + divCeil bw 8) + s ≤ s * bw := by
    rw [← Nat.mul_succ]
    exact Nat.mul_le_mul_left _ (by rw [hceil]; omega)
  have hsaved : s * bw ≤ (singleGroups indices - packedGroups (cuts indices)) * bw :=
    Nat.mul_le_mul_right _ (by omega)
  rw [Nat.succ_mul] at hheaders
  omega

end EmatixParquet
