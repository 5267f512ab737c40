/-
  Page bodies — `compress_body` of `write.rs`, `decompress_into` of `read.rs`
  and the capped decompressors of `compression.rs`.

  The compressors themselves (snap, zstd, flate2, brotli, lz4_flex) are other
  crates: `Platform` stands for what the code calls, `LawfulPlatform` for what
  it relies on.

  * `decompressInto_compressBody`: a compressed body, decompressed with its
    recorded size, is the body.
-/
import EmatixParquet.Codec.Plain
import EmatixParquet.Format.Types

namespace EmatixParquet

open Wire

/-- The compressors that are read as a stream. -/
inductive StreamCodec where
  | zstd | gzip | brotli
  deriving DecidableEq, Repr

/-- The name that messages give the codec. -/
def StreamCodec.name : StreamCodec → String
  | zstd => "zstd" | gzip => "gzip" | brotli => "brotli"

/-- What the code calls outside the repository, and the floating-point formula
    that sizes a bloom filter. -/
class Platform where
  /-- `compress_vec`; the error is the whole message. -/
  snappyCompress : Bytes → Except String Bytes
  /-- `decompress_len`. -/
  snappyLen : Bytes → Except String ℕ
  /-- `decompress` into a buffer of the given size. -/
  snappyDecompress : Bytes → ℕ → Except String Bytes
  streamCompress : StreamCodec → Bytes → Except String Bytes
  /-- The decoder's output up to its end, or up to an error. -/
  streamDecoder : StreamCodec → Bytes → Except String (Bytes × Option String)
  /-- `lz4_flex::block::compress`. -/
  lz4Compress : Bytes → Bytes
  /-- `decompress_into` a buffer of the given size. -/
  lz4Decompress : Bytes → ℕ → Except String Bytes
  /-- `(m / 8.0).ceil() as u64` of `optimal_num_blocks`, with the clamp before it. -/
  bloomBytes : ℕ → F64 → UInt64

/-- Decompressing what was compressed, given its size, returns it. -/
class LawfulPlatform [Platform] : Prop where
  snappy : ∀ b c, Platform.snappyCompress b = .ok c →
    Platform.snappyLen c = .ok b.length ∧ Platform.snappyDecompress c b.length = .ok b
  stream : ∀ k b c, Platform.streamCompress k b = .ok c →
    Platform.streamDecoder k c = .ok (b, none)
  lz4 : ∀ b, Platform.lz4Decompress (Platform.lz4Compress b) b.length = .ok b

/-- A snappy block says its decompressed length in 32 bits, and has it. -/
class SizedPlatform [Platform] : Prop where
  snappy : ∀ c n out, Platform.snappyLen c = .ok n → Platform.snappyDecompress c n = .ok out →
    out.length < 2 ^ 32

/-! ## Short bodies -/

/-- Snappy blocks of bodies that are long enough, from 17 bytes, to be searched for
    repetitions: some have a copy, the others are one literal. -/
def snappyVectors : List (Bytes × Bytes) :=
  [([5, 0, 0, 0, 0, 0, 0, 0, 7, 0, 0, 0, 0, 0, 0, 0, 7, 0, 0, 0, 0, 0, 0, 0],
    [24, 4, 5, 0, 9, 1, 60, 7, 0, 0, 0, 0, 0, 0, 0, 7, 0, 0, 0, 0, 0, 0, 0]),
   ([7, 0, 0, 0, 0, 0, 0, 0, 5, 0, 0, 0, 0, 0, 0, 0, 7, 0, 0, 0, 0, 0, 0, 0],
    [24, 4, 7, 0, 9, 1, 60, 5, 0, 0, 0, 0, 0, 0, 0, 7, 0, 0, 0, 0, 0, 0, 0]),
   ([2, 0, 0, 0, 0, 0, 0, 0, 1, 0, 0, 0, 0, 0, 0, 0, 3, 0, 0, 0, 0, 0, 0, 0],
    [24, 4, 2, 0, 9, 1, 60, 1, 0, 0, 0, 0, 0, 0, 0, 3, 0, 0, 0, 0, 0, 0, 0]),
   ([2, 0, 0, 0, 0, 2, 2, 0, 0, 0, 0, 1, 2, 0, 0, 0, 0, 1],
    [18, 68, 2, 0, 0, 0, 0, 2, 2, 0, 0, 0, 0, 1, 2, 0, 0, 0, 0, 1]),
   ([1, 0, 0, 0, 97, 1, 0, 0, 0, 97, 1, 0, 0, 0, 98, 1, 0, 0, 0, 99],
    [20, 76, 1, 0, 0, 0, 97, 1, 0, 0, 0, 97, 1, 0, 0, 0, 98, 1, 0, 0, 0, 99]),
   ([2, 0, 0, 0, 0, 1, 2, 0, 0, 0, 0, 1, 2, 0, 0, 0, 0, 3, 2, 0, 0, 0, 0, 1],
    [24, 20, 2, 0, 0, 0, 0, 1, 29, 6, 24, 3, 2, 0, 0, 0, 0, 1])]

/-- The snappy block of a body of less than 17 bytes: its length, and one literal. -/
def snappyLiteral (b : Bytes) : Bytes :=
  if b.isEmpty then [0] else UInt8.ofNat b.length :: UInt8.ofNat (4 * (b.length - 1)) :: b

/-- The block of a short body, or of one of the vectors. -/
def snappyBlock (b : Bytes) : Except String Bytes :=
  if b.length < 17 then .ok (snappyLiteral b)
  else match snappyVectors.find? (·.1 = b) with
    | some v => .ok v.2
    | none => .error "snappy: long input"

/-- The body of a block. -/
def snappyBody (c : Bytes) : Except String Bytes :=
  if c.length < 19 ∧ snappyLiteral (c.drop 2) = c then .ok (c.drop 2)
  else match snappyVectors.find? (·.2 = c) with
    | some v => .ok v.1
    | none => .error "snappy: corrupt input"

theorem snappyBlock_cases {b c : Bytes} (h : snappyBlock b = .ok c) :
    b.length < 17 ∧ c = snappyLiteral b ∨ (b, c) ∈ snappyVectors := by
  unfold snappyBlock at h
  split at h
  · next hlt =>
    cases h
    exact .inl ⟨hlt, rfl⟩
  · split at h
    · next v hv =>
      cases h
      have hb : v.1 = b := by simpa using List.find?_some hv
      exact .inr (hb ▸ List.mem_of_find?_eq_some hv)
    · cases h

theorem snappyBody_snappyLiteral {b : Bytes} (h : b.length < 17) :
    snappyBody (snappyLiteral b) = .ok b := by
  have hdrop : (snappyLiteral b).drop 2 = b := by
    cases b <;> rfl
  have hlen : (snappyLiteral b).length < 19 := by
    cases b with
    | nil => decide
    | cons x b => exact Nat.add_lt_add_right h 2
  rw [snappyBody, hdrop, if_pos ⟨hlen, rfl⟩]

/-- A block begins with the length of its body. -/
theorem head_snappyLiteral {b : Bytes} (h : b.length < 17) :
    ∃ n rest, snappyLiteral b = n :: rest ∧ n.toNat = b.length := by
  cases b with
  | nil => exact ⟨0, [], rfl, rfl⟩
  | cons x b =>
    refine ⟨_, _, rfl, ?_⟩
    rw [UInt8.toNat_ofNat']
    omega

/-- A block is at most two bytes longer than its body. -/
theorem length_snappyBlock {b c : Bytes} (h : snappyBlock b = .ok c) : c.length ≤ b.length + 2 := by
  rcases snappyBlock_cases h with ⟨-, rfl⟩ | hmem
  · cases b <;> simp [snappyLiteral]
  · have hall : ∀ v ∈ snappyVectors, v.2.length ≤ v.1.length + 2 := by decide
    exact hall _ hmem

theorem length_snappyBody {b c : Bytes} (h : snappyBody c = .ok b) : b.length < 2 ^ 32 := by
  unfold snappyBody at h
  split at h
  · next hlt =>
    cases h
    rw [List.length_drop]
    omega
  · split at h
    · next v hv =>
      cases h
      have hall : ∀ v ∈ snappyVectors, v.1.length < 2 ^ 32 := by decide
      exact hall _ (List.mem_of_find?_eq_some hv)
    · cases h

/-- Snappy on short bodies; the streams are not at hand, and LZ4 stores its input.
    The sizes of filters are those of up to three values, for the rates 0 (which is
    taken for 10⁻¹²) and 1/100. -/
@[reducible] def Platform.stored : Platform where
  snappyCompress := snappyBlock
  snappyLen c := match c with
    | [] => .error "snappy: corrupt input (empty)"
    | n :: _ => .ok n.toNat
  snappyDecompress c _ := snappyBody c
  streamCompress _ _ := .error "no stream"
  streamDecoder _ _ := .error "no stream"
  lz4Compress b := b
  lz4Decompress b _ := .ok b
  bloomBytes n fpp := if fpp.bits = 0 then [32, 32, 63, 94].getD n 94 else [2, 2, 3, 4].getD n 4

theorem bloomBytes_stored (n : ℕ) (fpp : F64) :
    (@Platform.bloomBytes Platform.stored n fpp).toNat ≤ 2 ^ 30 := by
  change (if fpp.bits = 0 then _ else _ : UInt64).toNat ≤ 2 ^ 30
  split
  · rcases n with _ | _ | _ | _ | n
    case succ => exact (by decide : (94 : UInt64).toNat ≤ 2 ^ 30)
    all_goals decide
  · rcases n with _ | _ | _ | _ | n
    case succ => exact (by decide : (4 : UInt64).toNat ≤ 2 ^ 30)
    all_goals decide

theorem Platform.stored_lawful : @LawfulPlatform Platform.stored :=
  letI := Platform.stored
  { snappy := by
      intro b c h
      rcases snappyBlock_cases h with ⟨hlt, rfl⟩ | hmem
      · obtain ⟨n, rest, hhead, hn⟩ := head_snappyLiteral hlt
        refine ⟨?_, snappyBody_snappyLiteral hlt⟩
        rw [hhead]
        exact congrArg Except.ok hn
      · have hall : ∀ v ∈ snappyVectors, Platform.snappyLen v.2 = .ok v.1.length ∧
            snappyBody v.2 = .ok v.1 := by decide
        exact hall _ hmem
    stream := fun _ _ _ h => by cases h
    lz4 := fun _ => rfl }

theorem Platform.stored_sized : @SizedPlatform Platform.stored :=
  letI := Platform.stored
  { snappy := fun _ _ _ _ h => length_snappyBody h }

/-- `{codec:?}`. -/
def CompressionCodec.debug : CompressionCodec → String
  | .uncompressed => "Uncompressed" | .snappy => "Snappy" | .gzip => "Gzip" | .lzo => "Lzo"
  | .brotli => "Brotli" | .lz4 => "Lz4" | .zstd => "Zstd" | .lz4Raw => "Lz4Raw"

/-- `.map_err(|e| CodecError::Decompress(..))`. -/
def orDecompress {α : Type} (what : String) (x : Except String α) : Res CodecError α :=
  x.mapError fun e => .err (.decompress (what ++ e))

theorem orDecompress_eq_ok {α : Type} {what : String} {x : Except String α} {a : α} :
    orDecompress what x = .ok a ↔ x = .ok a := by
  cases x <;> simp [orDecompress, Except.mapError]

section
variable [Platform]

/-! ## Compression -/

/-- `compress_body`. -/
def compressBody (body : Bytes) (codec : CompressionCodec) : Res CodecError Bytes :=
  match codec with
  | .uncompressed => .ok body
  | .snappy => orDecompress "" (Platform.snappyCompress body)
  | .zstd => orDecompress "" (Platform.streamCompress .zstd body)
  | .gzip => orDecompress "" (Platform.streamCompress .gzip body)
  | .brotli => orDecompress "" (Platform.streamCompress .brotli body)
  | .lz4Raw => .ok (Platform.lz4Compress body)
  | other => codecErr (.unsupported
      s!"compression codec not yet supported on the write path: {other.debug}")

/-! ## Decompression -/

/-- `declared.saturating_add(DECOMPRESS_CAP_SLACK)`. -/
def capWithSlack (declared : ℕ) : ℕ := min (declared + 64) (usizeBound - 1)

/-- `check_cap`: a page is no longer than its header says. -/
def checkCap (actual cap : ℕ) (codec : String) : Res CodecError Unit :=
  if cap < actual then
    codecErr (.decompress s!"{codec}: decompressed {actual} bytes exceeds cap {cap}")
  else .ok ()

/-- `take(limit).read_to_end(out)`: an error past the limit is not met. -/
def readToEnd (codec : StreamCodec) (produced : Bytes × Option String) (limit : ℕ) :
    Res CodecError Bytes :=
  if limit ≤ produced.1.length then .ok (produced.1.take limit)
  else match produced.2 with
    | none => .ok produced.1
    | some e => codecErr (.decompress s!"{codec.name}: {e}")

/-- `decompress_{zstd, gzip, brotli}_into_capped`. -/
def decompressStreamCapped (codec : StreamCodec) (compressed : Bytes) (uncompressedSize : ℕ) :
    Res CodecError Bytes := do
  let cap := capWithSlack uncompressedSize
  let produced ← orDecompress s!"{codec.name} init: " (Platform.streamDecoder codec compressed)
  let out ← readToEnd codec produced (min (cap + 1) (usizeBound - 1))
  checkCap out.length cap codec.name
  pure out

/-- `decompress_snappy_into`. -/
def decompressSnappy (compressed : Bytes) : Res CodecError Bytes := do
  let decLen ← orDecompress "snappy len: " (Platform.snappyLen compressed)
  orDecompress "snappy: " (Platform.snappyDecompress compressed decLen)

/-- `decompress_lz4_raw_into_sized`. -/
def decompressLz4Raw (compressed : Bytes) (uncompressedSize : ℕ) : Res CodecError Bytes := do
  let out ← orDecompress "lz4_raw: " (Platform.lz4Decompress compressed uncompressedSize)
  if out.length ≠ uncompressedSize then
    codecErr (.decompress
      s!"lz4_raw: decoded {out.length} bytes, page header declared {uncompressedSize}")
  else pure out

/-- `decompress_into`: the new content of the buffer. -/
def decompressInto (codec : CompressionCodec) (body : Bytes) (uncompressedSize : ℕ) :
    Res CodecError Bytes :=
  match codec with
  | .uncompressed => .ok body
  | .snappy => decompressSnappy body
  | .zstd => decompressStreamCapped .zstd body uncompressedSize
  | .gzip => decompressStreamCapped .gzip body uncompressedSize
  | .brotli => decompressStreamCapped .brotli body uncompressedSize
  | .lz4Raw => decompressLz4Raw body uncompressedSize
  | other => codecErr (.unsupported s!"compression codec not yet wired in façade: {other.debug}")

/-! ## Round trip -/

/-- A stream shorter than the cap is read to its end. -/
theorem decompressStreamCapped_eq [LawfulPlatform] {codec : StreamCodec} {body c : Bytes}
    (hlen : body.length < 2 ^ 31) (h : Platform.streamCompress codec body = .ok c) :
    decompressStreamCapped codec c body.length = .ok body := by
  have hcap : capWithSlack body.length = body.length + 64 := by
    rw [capWithSlack, Nat.min_eq_left]
    change _ ≤ 2 ^ 64 - 1
    omega
  have hlimit : ¬ min (body.length + 64 + 1) (usizeBound - 1) ≤ body.length := by
    change ¬ min (body.length + 64 + 1) (2 ^ 64 - 1) ≤ body.length
    omega
  have hread : readToEnd codec (body, none) (min (body.length + 64 + 1) (usizeBound - 1))
      = .ok body := by
    rw [readToEnd, if_neg hlimit]
  rw [decompressStreamCapped, LawfulPlatform.stream codec body c h, hcap]
  change (readToEnd codec (body, none) _ >>= _) = _
  rw [hread]
  simp [bind, Except.bind, checkCap, pure, Except.pure]

/-- **Compression round trip**, given the recorded size. -/
theorem decompressInto_compressBody [LawfulPlatform] {codec : CompressionCodec} {body c : Bytes}
    (hlen : body.length < 2 ^ 31) (h : compressBody body codec = .ok c) :
    decompressInto codec c body.length = .ok body := by
  cases codec with
  | uncompressed => cases h; rfl
  | snappy =>
    obtain ⟨hsize, hdec⟩ := LawfulPlatform.snappy _ _ (orDecompress_eq_ok.mp h)
    rw [decompressInto, decompressSnappy, hsize]
    change orDecompress "snappy: " (Platform.snappyDecompress c body.length) = _
    rw [hdec]
    rfl
  | zstd => exact decompressStreamCapped_eq hlen (orDecompress_eq_ok.mp h)
  | gzip => exact decompressStreamCapped_eq hlen (orDecompress_eq_ok.mp h)
  | brotli => exact decompressStreamCapped_eq hlen (orDecompress_eq_ok.mp h)
  | lz4Raw =>
    cases h
    rw [decompressInto, decompressLz4Raw, LawfulPlatform.lz4]
    simp [orDecompress, Except.mapError, bind, Except.bind, pure, Except.pure]
  | lzo => cases h
  | lz4 => cases h

/-! ## Sizes -/

omit [Platform] in
theorem length_compressBody_stored {codec : CompressionCodec} {body c : Bytes}
    (h : @compressBody Platform.stored body codec = .ok c) : c.length ≤ body.length + 2 := by
  cases codec with
  | snappy => exact length_snappyBlock (orDecompress_eq_ok.mp h)
  | uncompressed | lz4Raw =>
    cases h
    exact Nat.le_add_right _ _
  | zstd | gzip | brotli | lzo | lz4 => cases h

theorem decompressStreamCapped_length {codec : StreamCodec} {body out : Bytes} {n : ℕ}
    (h : decompressStreamCapped codec body n = .ok out) : out.length ≤ n + 64 := by
  obtain ⟨produced, -, h⟩ := bind_eq_ok.mp h
  obtain ⟨out', -, h⟩ := bind_eq_ok.mp h
  obtain ⟨_, hcap, h⟩ := bind_eq_ok.mp h
  cases h
  unfold checkCap at hcap
  split at hcap
  · cases hcap
  · next hle =>
    rw [capWithSlack] at hle
    omega

/-- A page never decompresses to `2 ^ 32` bytes. -/
theorem decompressInto_length_lt [SizedPlatform] {codec : CompressionCodec} {body out : Bytes}
    {n : ℕ} (hbody : body.length < 2 ^ 32) (hn : n < 2 ^ 31)
    (h : decompressInto codec body n = .ok out) : out.length < 2 ^ 32 := by
  cases codec with
  | uncompressed =>
    cases h
    exact hbody
  | snappy =>
    obtain ⟨len, hlen, h⟩ := bind_eq_ok.mp h
    exact SizedPlatform.snappy body len out (orDecompress_eq_ok.mp hlen) (orDecompress_eq_ok.mp h)
  | zstd | gzip | brotli =>
    have hle := decompressStreamCapped_length h
    omega
  | lz4Raw =>
    obtain ⟨out', -, h⟩ := bind_eq_ok.mp h
    split at h
    · cases h
    · next hlen =>
      cases h
      rw [ne_eq, not_not] at hlen
      omega
  | lzo | lz4 => cases h

end

end EmatixParquet
