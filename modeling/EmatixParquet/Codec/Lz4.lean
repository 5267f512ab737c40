/-
  The size of an LZ4 block (`compression.rs`), from a walk over its sequences.

  A sequence has a token, with a literal length and a match length of four bits
  each; a length of 15 is extended by the bytes that follow, up to one that is not
  255.  The walk keeps its position and the lengths in `usize`s, and is not bounded
  by anything but the block.

  * `whileDo_chainTurn`: a run of 255s;
  * `sequenceTurn_bytes`: one sequence; `ends_sequenceTurn`: one turn on any bytes;
  * `lz4RawUncompressedSize_exact`: the size of a block, and an outcome for any
    bytes.
-/
import EmatixParquet.Codec.Compression
import EmatixParquet.Codec.Dict
import EmatixParquet.Wire.While

namespace EmatixParquet

open Wire

section
variable (build : Build) (buf : Bytes)

/-- `while i < n`: the next byte is added to a length. -/
def chainTurn (s : ℕ × ℕ) : Exec (Fault CodecError) (ℕ × ℕ ⊕ ℕ × ℕ) :=
  if s.1 < buf.length then do
    let b ← ended (byteAt buf s.1)
    let i ← ended (build.add s.1 1)
    let len ← ended (build.add s.2 b.toNat)
    pure (if b = 0xFF then .inl (i, len) else .inr (i, len))
  else pure (.inr s)

/-- A length of which four bits are in the token. -/
def readLength (nibble i len : ℕ) : Exec (Fault CodecError) (ℕ × ℕ) :=
  if nibble = 15 then whileDo (chainTurn build buf) (i, len) else pure (i, len)

/-- A sequence at `i`, where `out_len` bytes have been counted. -/
def sequenceTurn (s : ℕ × ℕ) : Exec (Fault CodecError) (ℕ × ℕ ⊕ ℕ) :=
  if s.1 < buf.length then do
    let token := (← ended (byteAt buf s.1)).toNat
    let i ← ended (build.add s.1 1)
    let (i, litLen) ← readLength build buf (token / 16) i (token / 16)
    let stop ← ended (build.add i litLen)
    if buf.length < stop then
      ended (codecErr (.decompress "lz4_raw: literal runs past end of buffer"))
    else do
      let outLen ← ended (build.add s.2 litLen)
      if stop = buf.length then pure (.inr outLen)
      else do
        let i ← ended (build.add stop 2)
        if buf.length < i then ended (codecErr (.decompress "lz4_raw: truncated match offset"))
        else do
          let (i, matchLen) ← readLength build buf (token % 16) i (token % 16 + 4)
          let outLen ← ended (build.add outLen matchLen)
          pure (.inl (i, outLen))
  else pure (.inr s.2)

/-- `lz4_raw_uncompressed_size`. -/
def lz4RawUncompressedSize : Exec (Fault CodecError) ℕ := whileDo (sequenceTurn build buf) (0, 0)

/-- `decompress_lz4_raw_into`: what is in the buffer afterwards. -/
def decompressLz4RawInto [Platform] : Exec (Fault CodecError) Bytes := do
  let uncompressedSize ← lz4RawUncompressedSize build buf
  ended (orDecompress "lz4_raw: " (Platform.lz4Decompress buf uncompressedSize))

end

/-! ## Blocks -/

/-- A length, as far as a nibble holds it. -/
def lengthNibble (n : ℕ) : ℕ := min n 15

/-- The bytes that extend a length. -/
def lengthBytes (n : ℕ) : Bytes :=
  if n < 15 then []
  else List.replicate ((n - 15) / 255) 0xFF ++ [UInt8.ofNat ((n - 15) % 255)]

/-- The token of a sequence, its two lengths in the nibbles. -/
def lz4Token (literals low : ℕ) : UInt8 := UInt8.ofNat (16 * lengthNibble literals + low)

/-- Literals, and a match of at least four bytes. -/
structure Lz4Sequence where
  literals : Bytes
  offset : UInt8 × UInt8
  matchLen : ℕ
  four_le : 4 ≤ matchLen

namespace Lz4Sequence

/-- The sequence as it is stored. -/
def bytes (s : Lz4Sequence) : Bytes :=
  lz4Token s.literals.length (lengthNibble (s.matchLen - 4)) :: (lengthBytes s.literals.length
    ++ (s.literals ++ (s.offset.1 :: s.offset.2 :: lengthBytes (s.matchLen - 4))))

/-- The bytes a sequence stands for. -/
def size (s : Lz4Sequence) : ℕ := s.literals.length + s.matchLen

end Lz4Sequence

/-- Sequences, and one of literals only, whose token has four more bits. -/
structure Lz4Block where
  sequences : List Lz4Sequence
  lastLiterals : Bytes
  low : Fin 16

namespace Lz4Block

/-- The block as it is stored: its sequences, then the last literals. -/
def bytes (b : Lz4Block) : Bytes :=
  b.sequences.flatMap Lz4Sequence.bytes ++ (lz4Token b.lastLiterals.length b.low ::
    (lengthBytes b.lastLiterals.length ++ b.lastLiterals))

/-- The bytes a block stands for. -/
def size (b : Lz4Block) : ℕ := (b.sequences.map Lz4Sequence.size).sum + b.lastLiterals.length

end Lz4Block

theorem lz4Token_div_mod (n : ℕ) {low : ℕ} (hlow : low < 16) :
    (lz4Token n low).toNat / 16 = lengthNibble n ∧ (lz4Token n low).toNat % 16 = low := by
  have hn : lengthNibble n ≤ 15 := Nat.min_le_right _ _
  rw [lz4Token, UInt8.toNat_ofNat_of_lt' (show _ < 2 ^ 8 by omega)]
  omega

/-- The length of a sequence is at most 255 for each of its bytes. -/
theorem le_length_lengthBytes (n : ℕ) : n ≤ 255 * (lengthBytes n).length + 14 := by
  unfold lengthBytes
  split
  · omega
  · rw [List.length_append, List.length_replicate, List.length_singleton]
    omega

theorem Lz4Sequence.size_le (s : Lz4Sequence) : s.size ≤ 255 * s.bytes.length := by
  have hmatch := le_length_lengthBytes (s.matchLen - 4)
  simp only [size, bytes, List.length_cons, List.length_append]
  omega

theorem Lz4Block.size_le (b : Lz4Block) : b.size ≤ 255 * b.bytes.length := by
  have hsum : (b.sequences.map Lz4Sequence.size).sum
      ≤ 255 * (b.sequences.flatMap Lz4Sequence.bytes).length := by
    induction b.sequences with
    | nil => exact Nat.zero_le _
    | cons s ss ih =>
      have hs := s.size_le
      rw [List.map_cons, List.sum_cons, List.flatMap_cons, List.length_append]
      omega
  simp only [size, bytes, List.length_append, List.length_cons]
  omega

/-! ## Lengths -/

variable {build : Build} {buf rest : Bytes} {i len : ℕ}

/-- The byte at a position. -/
theorem getElem?_of_drop {b : UInt8} (h : buf.drop i = b :: rest) :
    buf[i]? = some b ∧ i < buf.length ∧ buf.drop (i + 1) = rest := by
  have hget : buf[i]? = some b := by rw [← List.head?_drop, h, List.head?_cons]
  refine ⟨hget, (List.getElem?_eq_some_iff.mp hget).1, ?_⟩
  rw [← List.drop_drop, h, List.drop_one, List.tail_cons]

theorem byteAt_of_drop {b : UInt8} (h : buf.drop i = b :: rest) : byteAt buf i = .ok b := by
  rw [byteAt, (getElem?_of_drop h).1]

/-- A turn on the byte `b`. -/
theorem chainTurn_eq {b : UInt8} (h : buf.drop i = b :: rest) (hbuf : buf.length < 2 ^ 64)
    (hlen : len + b.toNat < 2 ^ 64) :
    chainTurn build buf (i, len)
      = ended (.ok (if b = 0xFF then .inl (i + 1, len + b.toNat)
          else .inr (i + 1, len + b.toNat))) := by
  obtain ⟨-, hi, -⟩ := getElem?_of_drop h
  rw [chainTurn, if_pos hi, byteAt_of_drop h, ended_ok_bind, add_eq (by omega), ended_ok_bind,
    add_eq hlen, ended_ok_bind]
  rfl

theorem chainTurn_done (h : ¬ i < buf.length) :
    chainTurn build buf (i, len) = ended (.ok (.inr (i, len))) := by
  rw [chainTurn, if_neg h]
  rfl

/-- **A run of 255s**, by induction on it. -/
theorem whileDo_chainTurn {k : ℕ} (h : buf.drop i = List.replicate k 0xFF ++ rest)
    (hbuf : buf.length < 2 ^ 64) (hlen : len + 255 * k < 2 ^ 64) :
    whileDo (chainTurn build buf) (i, len)
      = whileDo (chainTurn build buf) (i + k, len + 255 * k) := by
  induction k generalizing i len with
  | zero => rfl
  | succ k ih =>
    rw [List.replicate_succ, List.cons_append] at h
    obtain ⟨-, -, hrest⟩ := getElem?_of_drop h
    have hff : (0xFF : UInt8).toNat = 255 := rfl
    have hsum : len + 255 < 2 ^ 64 :=
      (Nat.add_le_add_left (Nat.le_mul_of_pos_right 255 (Nat.succ_pos k)) len).trans_lt hlen
    have hturn := @chainTurn_eq build _ _ _ len _ h hbuf (hff ▸ hsum)
    rw [if_pos rfl, hff] at hturn
    rw [whileDo_of_inl hturn, ih hrest (show len + 255 + 255 * k < 2 ^ 64 by omega)]
    refine congrArg _ (Prod.ext ?_ ?_)
    · dsimp only
      omega
    · change len + 255 + 255 * k = len + 255 * (k + 1)
      omega

/-- **A length** that was written is read back, on top of `base`. -/
theorem readLength_lengthBytes {n base : ℕ} (h : buf.drop i = lengthBytes n ++ rest)
    (hbuf : buf.length < 2 ^ 64) (hlen : base + n < 2 ^ 64) :
    readLength build buf (lengthNibble n) i (lengthNibble n + base)
      = ended (.ok (i + (lengthBytes n).length, base + n)) := by
  by_cases hn : n < 15
  · rw [lengthNibble, Nat.min_eq_left (by omega), readLength, if_neg (by omega), lengthBytes,
      if_pos hn, Nat.add_comm n base]
    rfl
  · rw [lengthBytes, if_neg hn] at h ⊢
    rw [List.append_assoc] at h
    have hsmall : (n - 15) % 255 < 255 := Nat.mod_lt _ (by decide)
    have hbyte : (UInt8.ofNat ((n - 15) % 255)).toNat = (n - 15) % 255 :=
      UInt8.toNat_ofNat_of_lt' (show _ < 2 ^ 8 by omega)
    have hlast : UInt8.ofNat ((n - 15) % 255) ≠ 0xFF := by
      intro heq
      have := congrArg UInt8.toNat heq
      rw [hbyte] at this
      exact absurd this (by change ¬ _ = 255; omega)
    have hdrop : buf.drop (i + (n - 15) / 255) = UInt8.ofNat ((n - 15) % 255) :: rest := by
      rw [← List.drop_drop, h]
      exact List.drop_left' List.length_replicate
    rw [lengthNibble, Nat.min_eq_right (by omega), readLength, if_pos rfl,
      whileDo_chainTurn h hbuf (by omega)]
    have hturn := @chainTurn_eq build _ _ _ (15 + base + 255 * ((n - 15) / 255)) _ hdrop hbuf
      (by omega)
    rw [if_neg hlast, hbyte] at hturn
    rw [whileDo_of_inr hturn, List.length_append, List.length_replicate, List.length_singleton]
    refine congrArg (fun p => ended (.ok p)) (Prod.ext ?_ ?_)
    · dsimp only
      omega
    · dsimp only
      omega

/-- On any bytes, a length is at most 255 for each byte it takes. -/
theorem ends_readLength {nibble : ℕ} (hbuf : buf.length ≤ 2 ^ 56) (hi : i ≤ buf.length)
    (hlen : len ≤ 2 ^ 32) :
    Ends (fun r => ∃ i' len', r = .ok (i', len') ∧ i ≤ i' ∧ i' ≤ buf.length ∧
      len' ≤ len + 255 * (i' - i)) (readLength build buf nibble i len) := by
  unfold readLength
  split
  · refine ends_whileDo (I := fun s : ℕ × ℕ => i ≤ s.1 ∧ s.1 ≤ buf.length ∧
      s.2 ≤ len + 255 * (s.1 - i)) (m := fun s => buf.length - s.1) ?_ ⟨le_rfl, hi, by simp⟩
    rintro ⟨j, l⟩ ⟨hij, hj, hl⟩
    dsimp only at hij hj hl
    by_cases hlt : j < buf.length
    · have hdrop := List.drop_eq_getElem_cons hlt
      have hb := buf[j].toNat_lt
      rw [chainTurn_eq hdrop (by omega) (by omega)]
      refine ends_ended ?_
      split
      · exact ⟨⟨by omega, by omega, by dsimp only; omega⟩, by dsimp only; omega⟩
      · exact ⟨_, _, rfl, by omega, by omega, by omega⟩
    · rw [chainTurn_done hlt]
      exact ends_ended ⟨_, _, rfl, hij, hj, hl⟩
  · exact ends_ended ⟨i, len, rfl, le_rfl, hi, by omega⟩

/-! ## Sequences -/

/-- The literal length behind a token. -/
theorem sequenceTurn_literals {literals low : ℕ} {out : ℕ} (hlow : low < 16)
    (h : buf.drop i = lz4Token literals low :: (lengthBytes literals ++ rest))
    (hbuf : buf.length < 2 ^ 63) (hliterals : literals < 2 ^ 63) :
    sequenceTurn build buf (i, out) = (do
      let stop ← ended (build.add (i + 1 + (lengthBytes literals).length) literals)
      if buf.length < stop then
        ended (codecErr (.decompress "lz4_raw: literal runs past end of buffer"))
      else do
        let outLen ← ended (build.add out literals)
        if stop = buf.length then pure (.inr outLen)
        else do
          let i ← ended (build.add stop 2)
          if buf.length < i then ended (codecErr (.decompress "lz4_raw: truncated match offset"))
          else do
            let (i, matchLen) ← readLength build buf low i (low + 4)
            let outLen ← ended (build.add outLen matchLen)
            pure (.inl (i, outLen))) := by
  obtain ⟨-, hi, hdrop⟩ := getElem?_of_drop h
  obtain ⟨hdiv, hmod⟩ := lz4Token_div_mod literals hlow
  have hlen := @readLength_lengthBytes build _ _ _ _ 0 hdrop (by omega) (by omega)
  simp only [Nat.add_zero, Nat.zero_add] at hlen
  rw [sequenceTurn]
  dsimp only
  rw [if_pos hi, byteAt_of_drop h, ended_ok_bind, add_eq (by omega), ended_ok_bind,
    hdiv, hmod, hlen, ended_ok_bind]

/-- The bytes of a sequence that are left behind a position. -/
theorem length_of_drop {w : Bytes} (h : buf.drop i = w ++ rest) (hi : i ≤ buf.length) :
    buf.length = i + (w.length + rest.length) ∧ buf.drop (i + w.length) = rest := by
  have hlen := congrArg List.length h
  rw [List.length_drop, List.length_append] at hlen
  refine ⟨by omega, ?_⟩
  rw [← List.drop_drop, h]
  exact List.drop_left' rfl

/-- **One sequence.** -/
theorem sequenceTurn_bytes (s : Lz4Sequence) {out : ℕ} (h : buf.drop i = s.bytes ++ rest)
    (hbuf : buf.length < 2 ^ 63) (hi : i ≤ buf.length) (hsize : out + s.size < 2 ^ 64) :
    sequenceTurn build buf (i, out) = ended (.ok (.inl (i + s.bytes.length, out + s.size))) := by
  have hlow : lengthNibble (s.matchLen - 4) < 16 := Nat.lt_succ_of_le (Nat.min_le_right _ _)
  obtain ⟨hlen, -⟩ := length_of_drop h hi
  have hmatch := s.four_le
  rw [Lz4Sequence.bytes] at h hlen ⊢
  rw [Lz4Sequence.size] at hsize ⊢
  simp only [List.length_cons, List.length_append] at hlen
  have hhead : buf.drop i = lz4Token s.literals.length (lengthNibble (s.matchLen - 4)) ::
      (lengthBytes s.literals.length ++ ((s.literals ++ [s.offset.1, s.offset.2])
        ++ (lengthBytes (s.matchLen - 4) ++ rest))) := by
    rw [h]
    simp
  rw [sequenceTurn_literals hlow hhead hbuf (by omega), add_eq (by omega), ended_ok_bind,
    if_neg (by omega), add_eq (by omega), ended_ok_bind, if_neg (by omega), add_eq (by omega),
    ended_ok_bind, if_neg (by omega)]
  have htail : buf.drop (i + 1 + (lengthBytes s.literals.length).length + s.literals.length + 2)
      = lengthBytes (s.matchLen - 4) ++ rest := by
    have hsplit : buf.drop i = (lz4Token s.literals.length (lengthNibble (s.matchLen - 4)) ::
        (lengthBytes s.literals.length ++ (s.literals ++ [s.offset.1, s.offset.2])))
        ++ (lengthBytes (s.matchLen - 4) ++ rest) := by
      rw [h]
      simp
    have hdrop := (length_of_drop hsplit hi).2
    rw [← hdrop]
    refine congrArg (List.drop · buf) ?_
    simp only [List.length_cons, List.length_append, List.length_nil]
    omega
  rw [readLength_lengthBytes htail (by omega) (by omega), ended_ok_bind]
  dsimp only
  rw [add_eq (by omega), ended_ok_bind]
  have hpos : i + 1 + (lengthBytes s.literals.length).length + s.literals.length + 2
      + (lengthBytes (s.matchLen - 4)).length
      = i + (lz4Token s.literals.length (lengthNibble (s.matchLen - 4)) ::
        (lengthBytes s.literals.length ++ (s.literals ++ (s.offset.1 :: s.offset.2 ::
          lengthBytes (s.matchLen - 4))))).length := by
    simp only [List.length_cons, List.length_append]
    omega
  have hout : out + s.literals.length + (4 + (s.matchLen - 4))
      = out + (s.literals.length + s.matchLen) := by omega
  rw [hpos, hout]
  rfl

/-- **All sequences**, by induction on them, and the literals at the end. -/
theorem whileDo_sequenceTurn (b : Lz4Block) {out : ℕ} (h : buf.drop i = b.bytes)
    (hbuf : buf.length < 2 ^ 63) (hi : i ≤ buf.length) (hsize : out + b.size < 2 ^ 64) :
    whileDo (sequenceTurn build buf) (i, out) = ended (.ok (out + b.size)) := by
  obtain ⟨sequences, lastLiterals, low⟩ := b
  rw [Lz4Block.bytes] at h
  rw [Lz4Block.size] at hsize ⊢
  dsimp only at h hsize ⊢
  induction sequences generalizing i out with
  | nil =>
    rw [List.flatMap_nil, List.nil_append] at h
    rw [List.map_nil, List.sum_nil, Nat.zero_add] at hsize ⊢
    have hlen := congrArg List.length h
    simp only [List.length_drop, List.length_cons, List.length_append] at hlen
    refine whileDo_of_inr ?_
    rw [sequenceTurn_literals low.2 h hbuf (by omega), add_eq (by omega), ended_ok_bind,
      if_neg (by omega), add_eq hsize, ended_ok_bind, if_pos (by omega)]
    rfl
  | cons s ss ih =>
    rw [List.flatMap_cons, List.append_assoc] at h
    rw [List.map_cons, List.sum_cons] at hsize ⊢
    obtain ⟨hlen, hdrop⟩ := length_of_drop h hi
    rw [whileDo_of_inl (sequenceTurn_bytes s h hbuf hi (by omega)),
      ih (by omega) hdrop (by omega)]
    exact congrArg (fun n => ended (.ok n)) (by omega)

/-- What holds between two sequences: at most 255 bytes were counted for each byte
    before. -/
def Scanned (buf : Bytes) (s : ℕ × ℕ) : Prop := s.1 ≤ buf.length ∧ s.2 ≤ 255 * s.1

/-- **A turn on any bytes** of at most 2^56: nothing overflows, and the position
    moves on. -/
theorem ends_sequenceTurn (hbuf : buf.length ≤ 2 ^ 56) {s : ℕ × ℕ} (h : Scanned buf s) :
    Ends (Turned (Scanned buf) (fun s => buf.length - s.1) Returns s) (sequenceTurn build buf s) := by
  obtain ⟨i, out⟩ := s
  obtain ⟨hi, hout⟩ := h
  unfold sequenceTurn
  dsimp only at hi hout ⊢
  by_cases hlt : i < buf.length
  · rw [if_pos hlt, byteAt_eq hlt, ended_ok_bind, add_eq (by omega), ended_ok_bind]
    have hnibble : buf[i].toNat / 16 ≤ 15 := by
      have := buf[i].toNat_lt
      omega
    have hlow : buf[i].toNat % 16 ≤ 15 := by omega
    refine (ends_readLength hbuf (by omega) (by omega)).bind ?_ (by rintro _ ⟨_, _, ⟨⟩, -⟩)
    rintro _ ⟨j, litLen, ⟨⟩, hij, hj, hlit⟩
    dsimp only
    rw [add_eq (by omega), ended_ok_bind]
    split
    · exact ends_ended (.inr ⟨_, rfl⟩)
    · next hstop =>
      rw [add_eq (by omega), ended_ok_bind]
      split
      · exact ends_ended (.inl ⟨_, rfl⟩)
      · rw [add_eq (by omega), ended_ok_bind]
        split
        · exact ends_ended (.inr ⟨_, rfl⟩)
        · refine (ends_readLength hbuf (by omega) (by omega)).bind ?_
            (by rintro _ ⟨_, _, ⟨⟩, -⟩)
          rintro _ ⟨k, matchLen, ⟨⟩, hjk, hk, hmatch⟩
          dsimp only
          rw [add_eq (by omega), ended_ok_bind]
          refine ends_ended ⟨⟨hk, ?_⟩, ?_⟩
          · dsimp only
            omega
          · dsimp only
            omega
  · rw [if_neg hlt]
    exact ends_ended (.inl ⟨out, rfl⟩)

theorem lz4RawUncompressedSize_bytes (b : Lz4Block) (hlen : b.bytes.length < 2 ^ 63)
    (hsize : b.size < 2 ^ 64) : lz4RawUncompressedSize build b.bytes = ended (.ok b.size) := by
  have h := @whileDo_sequenceTurn build b.bytes 0 b 0 rfl hlen (Nat.zero_le _) (by omega)
  rwa [Nat.zero_add] at h

/-- The decompressor gets a buffer of the size of the block. -/
theorem decompressLz4RawInto_bytes [Platform] (b : Lz4Block) (hlen : b.bytes.length < 2 ^ 63)
    (hsize : b.size < 2 ^ 64) : decompressLz4RawInto build b.bytes
      = ended (orDecompress "lz4_raw: " (Platform.lz4Decompress b.bytes b.size)) := by
  rw [decompressLz4RawInto, lz4RawUncompressedSize_bytes b hlen hsize, ended_ok_bind]

/-- **The size of an LZ4 block**, in every build: the walk over a block of sequences
    returns the sum of its literal and match lengths, as long as that is a `usize`, as
    it is for a block of at most 2^56 bytes; and on any bytes, of at most 2^56, it ends
    with a size or an error. -/
theorem lz4RawUncompressedSize_exact (build : Build) :
    (∀ b : Lz4Block, b.bytes.length < 2 ^ 63 → b.size < 2 ^ 64 →
      lz4RawUncompressedSize build b.bytes = ended (.ok b.size)) ∧
    (∀ b : Lz4Block, b.bytes.length ≤ 2 ^ 56 → b.size < 2 ^ 64) ∧
    ∀ buf : Bytes, buf.length ≤ 2 ^ 56 → Ends Returns (lz4RawUncompressedSize build buf) := by
  refine ⟨lz4RawUncompressedSize_bytes, fun b hlen => ?_, fun buf hlen => ?_⟩
  · have hle := b.size_le
    omega
  · exact ends_whileDo (fun s hs => ends_sequenceTurn hlen hs) ⟨Nat.zero_le _, Nat.zero_le _⟩

/-- Three literals, a match of 280, and one more literal. -/
def smallBlock : Lz4Block where
  sequences := [⟨[1, 2, 3], (1, 0), 280, by decide⟩]
  lastLiterals := [4]
  low := 0

theorem lz4RawUncompressedSize_small :
    lz4RawUncompressedSize .debug smallBlock.bytes = ended (.ok smallBlock.size) ∧
      smallBlock.size < 2 ^ 64 ∧ Ends Returns (lz4RawUncompressedSize .debug [0xF0, 0xFF]) :=
  have h := lz4RawUncompressedSize_exact .debug
  ⟨h.1 smallBlock (by decide) (by decide), h.2.1 smallBlock (by decide), h.2.2 _ (by decide)⟩

/-- A literal length of 15 that is extended to the end of the bytes. -/
def overlongLength (k : ℕ) : Bytes := 0xF0 :: List.replicate k 0xFF

theorem overlongLength_panics {k : ℕ} (hlen : 15 + 255 * k < 2 ^ 64)
    (hover : 2 ^ 64 ≤ 1 + k + (15 + 255 * k)) :
    lz4RawUncompressedSize .debug (overlongLength k)
      = ended (.error (.panic "attempt to add with overflow")) := by
  have hbuf : (overlongLength k).length = 1 + k := by
    rw [overlongLength, List.length_cons, List.length_replicate, Nat.add_comm]
  have hdrop : (overlongLength k).drop 1 = List.replicate k 0xFF ++ [] := by
    rw [overlongLength, List.drop_one, List.tail_cons, List.append_nil]
  have hchain : readLength .debug (overlongLength k) 15 1 15
      = ended (.ok (1 + k, 15 + 255 * k)) := by
    rw [readLength, if_pos rfl, whileDo_chainTurn hdrop (by omega) hlen]
    exact whileDo_of_inr (chainTurn_done (by omega))
  refine whileDo_of_error ?_
  have hhead : byteAt (overlongLength k) 0 = .ok 0xF0 := rfl
  have hadd : ((Build.debug).add 0 1 : Res CodecError ℕ) = .ok 1 := add_eq (by decide)
  have hoverflow : ((Build.debug).add (1 + k) (15 + 255 * k) : Res CodecError ℕ)
      = .error (.panic "attempt to add with overflow") := if_neg (Nat.not_lt.mpr hover)
  rw [sequenceTurn]
  dsimp only
  rw [if_pos (by omega), hhead, ended_ok_bind, hadd, ended_ok_bind]
  change (readLength .debug (overlongLength k) 15 1 15 >>= _) = _
  rw [hchain, ended_ok_bind]
  dsimp only
  rw [hoverflow, ended_error_bind]

/-- One byte more than 2^56 can be too many, where the build checks. -/
theorem lz4RawUncompressedSize_overflow :
    (overlongLength (2 ^ 56)).length = 2 ^ 56 + 1 ∧
      ¬ Ends Returns (lz4RawUncompressedSize .debug (overlongLength (2 ^ 56))) := by
  constructor
  · rw [overlongLength, List.length_cons, List.length_replicate]
  · rintro ⟨r, hr, hreturns⟩
    rw [overlongLength_panics (by decide) (by decide)] at hr
    obtain rfl := ended_inj.mp hr
    exact not_returns rfl hreturns

end EmatixParquet
