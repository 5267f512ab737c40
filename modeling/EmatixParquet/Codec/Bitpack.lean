/-
  Bit unpacking — the scalar workers of `bitpack.rs`, which every target has
  (the AVX2 and NEON kernels are the same functions for single widths).

  Values are taken 32 at a time from a chunk of whole bytes, each through a
  window of the bytes it touches; the last 0..31 values are streamed through a
  bit buffer.

  * `unpackAt_eq_of_narrow`: a window of up to eight bytes holds one digit of the
    chunk's number;
  * `unpackTail_eq`: so does each turn of the bit buffer;
  * `unpackChunks_eq`: both together yield the first `n` digits of the packed
    bytes in base `2 ^ w`.
-/
import EmatixParquet.Codec.Error
import EmatixParquet.Wire.Bits

namespace EmatixParquet

open Wire

variable {α : Type}

/-! ## The workers -/

/-- The lowest `numBits` bits. -/
def bitMask (numBits : ℕ) : UInt64 :=
  if numBits = 64 then 0xFFFFFFFFFFFFFFFF else (1 <<< UInt64.ofNat numBits) - 1

/-- Value `i` of a chunk: the bytes it touches, shifted and masked. -/
def unpackAt (chunk : Bytes) (numBits i : ℕ) : Res CodecError UInt64 := do
  let startBit := i * numBits
  let startByte := startBit / 8
  let bitInByte := startBit % 8
  let bytesNeeded := divCeil (numBits + bitInByte) 8
  let window ← slice chunk startByte (startByte + bytesNeeded)
  pure ((accumulateLe window >>> UInt64.ofNat bitInByte) &&& bitMask numBits)

/-- `while bits < NUM_BITS`: shifts in one byte after the other. -/
def refill (numBits : ℕ) (buf : UInt64) (bits : ℕ) :
    Bytes → Res CodecError (UInt64 × ℕ × Bytes)
  | [] =>
    if bits < numBits then .error (.panic "index out of bounds") else .ok (buf, bits, [])
  | b :: rest =>
    if bits < numBits then
      refill numBits (buf ||| (b.toUInt64 <<< UInt64.ofNat bits)) (bits + 8) rest
    else .ok (buf, bits, b :: rest)

/-- The last values, streamed through a bit buffer. -/
def unpackTail (numBits : ℕ) (emit : UInt64 → Res CodecError α) :
    ℕ → UInt64 → ℕ → Bytes → Res CodecError (List α)
  | 0, _, _, _ => .ok []
  | n + 1, buf, bits, rest => do
    let (buf, bits, rest) ← refill numBits buf bits rest
    let v ← emit (buf &&& bitMask numBits)
    let vs ← unpackTail numBits emit n (buf >>> UInt64.ofNat numBits) (bits - numBits) rest
    pure (v :: vs)

/-- The full chunks of 32 values from byte `packedIdx` on, then the tail. -/
def unpackChunksFrom (numBits : ℕ) (emit : UInt64 → Res CodecError α) (packed : Bytes)
    (tail : ℕ) : ℕ → ℕ → Res CodecError (List α)
  | 0, packedIdx =>
    if 0 < tail then do
      let tailBytes := divCeil (tail * numBits) 8
      let chunk ← slice packed packedIdx (packedIdx + tailBytes)
      unpackTail numBits emit tail 0 0 chunk
    else .ok []
  | fullChunks + 1, packedIdx => do
    let chunkBytes := numBits * 32 / 8
    let chunk ← slice packed packedIdx (packedIdx + chunkBytes)
    let vs ← (List.range 32).mapM fun i => unpackAt chunk numBits i >>= emit
    let ws ← unpackChunksFrom numBits emit packed tail fullChunks (packedIdx + chunkBytes)
    pure (vs ++ ws)

/-- `unpack_chunks` and `unpack_chunks_indices`, which differ in what they
    emit for an unpacked value. -/
def unpackChunks (numBits : ℕ) (emit : UInt64 → Res CodecError α) (packed : Bytes)
    (numValues : ℕ) : Res CodecError (List α) :=
  unpackChunksFrom numBits emit packed (numValues % 32) (numValues / 32) 0

/-- `unpack_indices_into`: the unpacked values themselves. -/
def unpackIndices (packed : Bytes) (numValues : ℕ) (bitWidth : UInt8) :
    Res CodecError (List UInt32) :=
  if 32 < bitWidth then codecErr (.bitWidthOutOfRange bitWidth)
  else if numValues = 0 then .ok []
  else if bitWidth = 0 then .ok (List.replicate numValues 0)
  else unpackChunks bitWidth.toNat (fun v => .ok v.toUInt32) packed numValues

/-- The dictionary value at an unpacked index.  The source skips the check
    when the mask is below the dictionary size, where it cannot fail. -/
def lookupIndex (dict : List α) (idx : UInt64) : Res CodecError α :=
  match dict[idx.toNat]? with
  | some v => .ok v
  | none => codecErr (.dictIndexOutOfRange idx.toUInt32 dict.length)

/-- `unpack_lookup_into`: the dictionary values at the unpacked indices. -/
def unpackLookup (packed : Bytes) (numValues : ℕ) (bitWidth : UInt8) (dict : List α) :
    Res CodecError (List α) :=
  if 32 < bitWidth then codecErr (.bitWidthOutOfRange bitWidth)
  else if numValues = 0 then .ok []
  else if bitWidth = 0 then
    match dict with
    | [] => codecErr (.dictIndexOutOfRange 0 0)
    | v :: _ => .ok (List.replicate numValues v)
  else unpackChunks bitWidth.toNat (lookupIndex dict) packed numValues

/-! ## What they compute -/

section
variable {w : ℕ}

theorem toNat_bitMask (hw : w ≤ 63) : (bitMask w).toNat = 2 ^ w - 1 := by
  have hpow : 2 ^ w < 2 ^ 64 := Nat.pow_lt_pow_right (by decide) (by omega)
  have hshift : (1 <<< UInt64.ofNat w : UInt64).toNat = 2 ^ w := by
    rw [UInt64.toNat_shiftLeft, UInt64.toNat_ofNat_of_lt' (show w < 2 ^ 64 by omega),
      Nat.mod_eq_of_lt (show w < 64 by omega), UInt64.toNat_one, Nat.shiftLeft_eq, Nat.one_mul,
      Nat.mod_eq_of_lt hpow]
  have hone : (1 : UInt64) ≤ 1 <<< UInt64.ofNat w := by
    rw [UInt64.le_iff_toNat_le, hshift]
    exact Nat.one_le_two_pow
  rw [bitMask, if_neg (by omega), UInt64.toNat_sub_of_le _ _ hone, hshift, UInt64.toNat_one]

/-- Masking keeps the value modulo `2 ^ w`. -/
theorem toNat_and_bitMask (hw : w ≤ 64) (v : UInt64) :
    (v &&& bitMask w).toNat = v.toNat % 2 ^ w := by
  have hmask : (bitMask w).toNat = 2 ^ w - 1 := by
    by_cases h64 : w = 64
    · subst h64
      rfl
    · exact toNat_bitMask (by omega)
  rw [UInt64.toNat_and, hmask, Nat.and_two_pow_sub_one_eq_mod]

theorem toNat_shiftRight_ofNat (v : UInt64) {k : ℕ} (hk : k < 64) :
    (v >>> UInt64.ofNat k).toNat = v.toNat / 2 ^ k := by
  rw [UInt64.toNat_shiftRight, UInt64.toNat_ofNat_of_lt' (show k < 2 ^ 64 by omega),
    Nat.mod_eq_of_lt hk, Nat.shiftRight_eq_div_pow]

/-- Bits `p` to `p + w` of a number, by way of the bytes they touch. -/
theorem window_digit (N p w : ℕ) {k : ℕ} (hk : w + p % 8 ≤ 8 * k) :
    N / 256 ^ (p / 8) % 256 ^ k / 2 ^ (p % 8) % 2 ^ w = N / 2 ^ p % 2 ^ w := by
  have hp : 2 ^ p = 256 ^ (p / 8) * 2 ^ (p % 8) := by
    rw [show (256 : ℕ) = 2 ^ 8 from rfl, ← Nat.pow_mul, ← Nat.pow_add, Nat.div_add_mod]
  have hsplit : 256 ^ k = 2 ^ (p % 8) * (2 ^ w * 2 ^ (8 * k - (w + p % 8))) := by
    rw [show (256 : ℕ) = 2 ^ 8 from rfl, ← Nat.pow_mul, ← Nat.pow_add, ← Nat.pow_add]
    congr 1
    omega
  rw [hsplit, Nat.mod_mul_right_div_self, Nat.mod_mul_right_mod, hp, Nat.div_div_eq_div_mul]

/-- A window of at most eight bytes holds digit `i` of the chunk. -/
theorem unpackAt_eq_of_narrow {chunk : Bytes} {i : ℕ} (hw : w + i * w % 8 ≤ 64)
    (h : (i + 1) * w ≤ 8 * chunk.length) :
    unpackAt chunk w i = .ok (UInt64.ofNat (leNat chunk / (2 ^ w) ^ i % 2 ^ w)) := by
  have hmul : (i + 1) * w = i * w + w := Nat.succ_mul i w
  have hneed : divCeil (w + i * w % 8) 8 ≤ 8 := by
    rw [divCeil]
    omega
  have hstop : i * w / 8 + divCeil (w + i * w % 8) 8 ≤ chunk.length := by
    rw [divCeil]
    omega
  rw [unpackAt, slice_ok (Nat.le_add_right _ _) hstop]
  refine congrArg Except.ok (UInt64.toNat_inj.mp ?_)
  set window := (chunk.take (i * w / 8 + divCeil (w + i * w % 8) 8)).drop (i * w / 8)
    with hwindow
  have hlen : window.length = divCeil (w + i * w % 8) 8 := by
    rw [hwindow, List.length_drop, List.length_take_of_le hstop]
    omega
  have hnat : leNat window
      = leNat chunk / 256 ^ (i * w / 8) % 256 ^ divCeil (w + i * w % 8) 8 := by
    rw [hwindow, List.drop_take, leNat_take, leNat_drop, Nat.add_sub_cancel_left]
  have hlt : leNat chunk / (2 ^ w) ^ i % 2 ^ w < 2 ^ 64 :=
    (Nat.mod_lt _ (by positivity)).trans_le (Nat.pow_le_pow_right (by decide) (by omega))
  rw [toNat_and_bitMask (by omega), toNat_shiftRight_ofNat _ (by omega),
    toNat_accumulateLe _ (by rw [hlen]; exact hneed), hnat, window_digit,
    UInt64.toNat_ofNat_of_lt' hlt, ← Nat.pow_mul, Nat.mul_comm w i]
  rw [divCeil]
  omega

theorem unpackAt_eq {chunk : Bytes} {i : ℕ} (hw : w ≤ 32)
    (h : (i + 1) * w ≤ 8 * chunk.length) :
    unpackAt chunk w i = .ok (UInt64.ofNat (leNat chunk / (2 ^ w) ^ i % 2 ^ w)) :=
  unpackAt_eq_of_narrow (by omega) h

/-- The bit buffer: `bits` bits are in `buf`, the rest still in the bytes; the
    number they form together is what remains to be emitted. -/
theorem refill_eq {buf : UInt64} {bits : ℕ} {rest : Bytes} (hw : w ≤ 32) (hbits : bits < w + 8)
    (hbuf : buf.toNat < 2 ^ bits) (h : w ≤ bits + 8 * rest.length) :
    ∃ buf' bits' rest', refill w buf bits rest = .ok (buf', bits', rest') ∧
      w ≤ bits' ∧ bits' < w + 8 ∧ buf'.toNat < 2 ^ bits' ∧
      bits' + 8 * rest'.length = bits + 8 * rest.length ∧
      buf'.toNat + 2 ^ bits' * leNat rest' = buf.toNat + 2 ^ bits * leNat rest := by
  induction rest generalizing buf bits with
  | nil =>
    rw [refill, if_neg (by simpa using h)]
    exact ⟨buf, bits, [], rfl, by simpa using h, hbits, hbuf, rfl, rfl⟩
  | cons b rest ih =>
    rw [refill]
    split
    · next hlt =>
      have hb : b.toNat < 2 ^ 8 := b.toNat_lt
      have hsum : b.toNat * 2 ^ bits + 2 ^ bits ≤ 2 ^ (bits + 8) := by
        rw [Nat.pow_add, Nat.mul_comm (2 ^ bits), ← Nat.succ_mul]
        exact Nat.mul_le_mul_right _ hb
      have hfit : b.toNat * 2 ^ bits < 2 ^ 64 := by
        have : 2 ^ (bits + 8) ≤ 2 ^ 64 := Nat.pow_le_pow_right (by decide) (by omega)
        have : 0 < 2 ^ bits := by positivity
        omega
      have hor : (buf ||| (b.toUInt64 <<< UInt64.ofNat bits)).toNat
          = buf.toNat + b.toNat * 2 ^ bits := by
        rw [UInt64.toNat_or, UInt64.toNat_shiftLeft,
          UInt64.toNat_ofNat_of_lt' (show bits < 2 ^ 64 by omega),
          Nat.mod_eq_of_lt (show bits < 64 by omega), UInt8.toNat_toUInt64,
          Nat.mod_eq_of_lt (by rwa [Nat.shiftLeft_eq]), or_shiftLeft_digit _ hbuf]
      rw [List.length_cons] at h
      have hnext : (buf ||| (b.toUInt64 <<< UInt64.ofNat bits)).toNat < 2 ^ (bits + 8) := by
        omega
      obtain ⟨buf', bits', rest', hrun, hle, hlt', hbuf', hlen, hval⟩ :=
        ih (show bits + 8 < w + 8 by omega) hnext (by omega)
      refine ⟨buf', bits', rest', hrun, hle, hlt', hbuf', ?_, ?_⟩
      · rw [hlen, List.length_cons]
        omega
      · rw [hval, hor, leNat_cons, Nat.pow_add]
        ring
    · exact ⟨buf, bits, b :: rest, rfl, by omega, hbits, hbuf, rfl, rfl⟩

/-- Each turn emits the lowest digit of what remains. -/
theorem unpackTail_eq (emit : UInt64 → Res CodecError α) {n : ℕ} {buf : UInt64} {bits : ℕ}
    {rest : Bytes} (hw : w ≤ 32) (hbits : bits < w + 8) (hbuf : buf.toNat < 2 ^ bits)
    (h : n * w ≤ bits + 8 * rest.length) :
    unpackTail w emit n buf bits rest
      = (lowDigits (2 ^ w) n (buf.toNat + 2 ^ bits * leNat rest)).mapM
          fun d => emit (UInt64.ofNat d) := by
  induction n generalizing buf bits rest with
  | zero => rfl
  | succ n ih =>
    rw [Nat.succ_mul] at h
    have hfill : w ≤ bits + 8 * rest.length := by omega
    obtain ⟨buf', bits', rest', hrun, hle, hlt, hbuf', hlen, hval⟩ :=
      refill_eq hw hbits hbuf hfill
    have hsplit : 2 ^ bits' = 2 ^ w * 2 ^ (bits' - w) := by
      rw [← Nat.pow_add]
      congr 1
      omega
    have hdigit : buf' &&& bitMask w
        = UInt64.ofNat ((buf.toNat + 2 ^ bits * leNat rest) % 2 ^ w) := by
      refine UInt64.toNat_inj.mp ?_
      have hlt64 : buf'.toNat % 2 ^ w < 2 ^ 64 :=
        (Nat.mod_lt _ (by positivity)).trans_le (Nat.pow_le_pow_right (by decide) (by omega))
      rw [toNat_and_bitMask (by omega), ← hval, hsplit, Nat.mul_assoc,
        Nat.add_mul_mod_self_left, UInt64.toNat_ofNat_of_lt' hlt64]
    have hrest : (buf' >>> UInt64.ofNat w).toNat + 2 ^ (bits' - w) * leNat rest'
        = (buf.toNat + 2 ^ bits * leNat rest) / 2 ^ w := by
      rw [toNat_shiftRight_ofNat _ (by omega), ← hval, hsplit, Nat.mul_assoc,
        Nat.add_mul_div_left _ _ (by positivity)]
    have hbuf'' : (buf' >>> UInt64.ofNat w).toNat < 2 ^ (bits' - w) := by
      rw [toNat_shiftRight_ofNat _ (by omega), Nat.div_lt_iff_lt_mul (by positivity),
        Nat.mul_comm, ← hsplit]
      exact hbuf'
    rw [unpackTail, hrun, lowDigits, List.mapM_cons, ← hdigit, ← hrest,
      ← ih (by omega) hbuf'' (by omega)]
    rfl

/-- The 32 windows of a chunk are its first 32 digits. -/
theorem unpackAt_mapM_range (emit : UInt64 → Res CodecError α) {chunk : Bytes} (hw : w ≤ 32)
    (h : 32 * w ≤ 8 * chunk.length) :
    ((List.range 32).mapM fun i => unpackAt chunk w i >>= emit)
      = (lowDigits (2 ^ w) 32 (leNat chunk)).mapM fun d => emit (UInt64.ofNat d) := by
  have hall : ∀ is : List ℕ, (∀ i ∈ is, i < 32) →
      (is.mapM fun i => unpackAt chunk w i >>= emit)
        = (is.map fun i => leNat chunk / (2 ^ w) ^ i % 2 ^ w).mapM
            fun d => emit (UInt64.ofNat d) := by
    intro is his
    induction is with
    | nil => rfl
    | cons i is ih =>
      have hi : i < 32 := his i List.mem_cons_self
      have hfit : (i + 1) * w ≤ 8 * chunk.length :=
        (Nat.mul_le_mul_right w (by omega)).trans h
      rw [List.mapM_cons, List.map_cons, List.mapM_cons, unpackAt_eq hw hfit,
        ih fun j hj => his j (List.mem_cons_of_mem _ hj)]
      rfl
  rw [lowDigits_eq_map]
  exact hall _ fun i hi => List.mem_range.mp hi

/-- The chunks from `packedIdx` on, by induction on their number. -/
theorem unpackChunksFrom_eq (emit : UInt64 → Res CodecError α) (packed : Bytes) {tail : ℕ}
    (hw : w ≤ 32) (fullChunks packedIdx : ℕ)
    (h : (32 * fullChunks + tail) * w ≤ 8 * (packed.length - packedIdx))
    (hidx : packedIdx ≤ packed.length) :
    unpackChunksFrom w emit packed tail fullChunks packedIdx
      = (lowDigits (2 ^ w) (32 * fullChunks + tail) (leNat (packed.drop packedIdx))).mapM
          fun d => emit (UInt64.ofNat d) := by
  induction fullChunks generalizing packedIdx with
  | zero =>
    rw [Nat.mul_zero, Nat.zero_add] at h ⊢
    rw [unpackChunksFrom]
    split
    · set tailBytes := divCeil (tail * w) 8 with htb
      have hbits : tail * w ≤ 8 * tailBytes := by
        rw [htb, divCeil]
        omega
      have hstop : packedIdx + tailBytes ≤ packed.length := by
        rw [htb, divCeil]
        omega
      have hlen : ((packed.take (packedIdx + tailBytes)).drop packedIdx).length = tailBytes := by
        rw [List.length_drop, List.length_take_of_le hstop]
        omega
      have hpow : 256 ^ tailBytes = (2 ^ w) ^ tail * 2 ^ (8 * tailBytes - tail * w) := by
        rw [show (256 : ℕ) = 2 ^ 8 from rfl, ← Nat.pow_mul, ← Nat.pow_mul, ← Nat.pow_add]
        congr 1
        rw [Nat.mul_comm w tail]
        omega
      have hfit : tail * w ≤ 0 + 8 * ((packed.take (packedIdx + tailBytes)).drop packedIdx).length := by
        rw [hlen]
        omega
      have hzero : (0 : UInt64).toNat < 2 ^ 0 := by decide
      change (slice packed packedIdx (packedIdx + tailBytes) >>= unpackTail w emit tail 0 0) = _
      rw [slice_ok (Nat.le_add_right _ _) hstop]
      refine (unpackTail_eq emit hw (by omega) hzero hfit).trans ?_
      rw [List.drop_take, Nat.add_sub_cancel_left, leNat_take, hpow]
      simp only [UInt64.toNat_zero, Nat.pow_zero, Nat.one_mul, Nat.zero_add]
      rw [lowDigits_mod]
    · next hzero =>
      obtain rfl : tail = 0 := by omega
      rfl
  | succ n ih =>
    have hchunk : w * 32 / 8 = 4 * w := by omega
    have hmul : (32 * (n + 1) + tail) * w = 32 * w + (32 * n + tail) * w := by ring
    have hstop : packedIdx + 4 * w ≤ packed.length := by omega
    have hlen : ((packed.take (packedIdx + 4 * w)).drop packedIdx).length = 4 * w := by
      rw [List.length_drop, List.length_take_of_le hstop]
      omega
    have hpow : 256 ^ (4 * w) = (2 ^ w) ^ 32 := by
      rw [show (256 : ℕ) = 2 ^ 8 from rfl, ← Nat.pow_mul, ← Nat.pow_mul]
      congr 1
      omega
    have hfit : 32 * w ≤ 8 * ((packed.take (packedIdx + 4 * w)).drop packedIdx).length := by
      rw [hlen]
      omega
    have hwindows := unpackAt_mapM_range emit hw hfit
    rw [List.drop_take, Nat.add_sub_cancel_left, leNat_take, hpow, ← Nat.mul_one ((2 ^ w) ^ 32),
      lowDigits_mod] at hwindows
    have hrest := ih (packedIdx + 4 * w) (by omega) hstop
    rw [← List.drop_drop, leNat_drop, hpow] at hrest
    rw [unpackChunksFrom, hchunk, slice_ok (Nat.le_add_right _ _) hstop,
      show 32 * (n + 1) + tail = 32 + (32 * n + tail) by ring, lowDigits_add, List.mapM_append,
      ← hrest, ← hwindows, List.drop_take, Nat.add_sub_cancel_left]
    rfl

/-- **Unpacking** yields the first digits of the packed bytes in base `2 ^ w`. -/
theorem unpackChunks_eq (emit : UInt64 → Res CodecError α) {packed : Bytes} {n : ℕ}
    (hw : w ≤ 32) (h : n * w ≤ 8 * packed.length) :
    unpackChunks w emit packed n
      = (lowDigits (2 ^ w) n (leNat packed)).mapM fun d => emit (UInt64.ofNat d) := by
  have hn : 32 * (n / 32) + n % 32 = n := Nat.div_add_mod n 32
  have hfrom := unpackChunksFrom_eq emit packed hw (n / 32) 0
    (by rw [hn]; exact h) (Nat.zero_le _)
  rwa [hn, List.drop_zero] at hfrom

/-- Unpacking that returned had all the bytes it needed. -/
theorem unpackChunksFrom_fits {emit : UInt64 → Res CodecError α} {packed : Bytes}
    {tail fullChunks packedIdx : ℕ} {vs : List α}
    (h : unpackChunksFrom w emit packed tail fullChunks packedIdx = .ok vs) :
    (32 * fullChunks + tail) * w ≤ 8 * (packed.length - packedIdx) := by
  induction fullChunks generalizing packedIdx vs with
  | zero =>
    rw [unpackChunksFrom] at h
    split at h
    · obtain ⟨chunk, hchunk, -⟩ := bind_eq_ok.mp h
      obtain ⟨-, hstop, -⟩ := slice_eq_ok.mp hchunk
      rw [divCeil] at hstop
      rw [Nat.mul_zero, Nat.zero_add]
      omega
    · next hzero =>
      obtain rfl : tail = 0 := by omega
      simp
  | succ n ih =>
    obtain ⟨chunk, hchunk, h⟩ := bind_eq_ok.mp h
    obtain ⟨vs', -, h⟩ := bind_eq_ok.mp h
    obtain ⟨ws, hws, -⟩ := bind_eq_ok.mp h
    obtain ⟨-, hstop, -⟩ := slice_eq_ok.mp hchunk
    have hrest := ih hws
    have hmul : (32 * (n + 1) + tail) * w = 32 * w + (32 * n + tail) * w := by ring
    omega

theorem unpackChunks_fits {emit : UInt64 → Res CodecError α} {packed : Bytes} {n : ℕ}
    {vs : List α} (h : unpackChunks w emit packed n = .ok vs) : n * w ≤ 8 * packed.length := by
  have hfits := unpackChunksFrom_fits h
  rwa [Nat.div_add_mod, Nat.sub_zero] at hfits

end

/-! ## Missing bytes -/

section
variable {w : ℕ} {emit : UInt64 → Res CodecError α} {f : Fault CodecError}

theorem refill_eq_error {buf : UInt64} {bits : ℕ} {rest : Bytes}
    (h : refill w buf bits rest = .error f) : Panics f := by
  induction rest generalizing buf bits with
  | nil =>
    rw [refill] at h
    split at h
    · cases h
      exact ⟨_, rfl⟩
    · cases h
  | cons b rest ih =>
    rw [refill] at h
    split at h
    · exact ih h
    · cases h

theorem unpackAt_eq_error {chunk : Bytes} {i : ℕ} (h : unpackAt chunk w i = .error f) :
    Panics f := by
  rcases bind_eq_error.mp h with h | ⟨window, -, h⟩
  · exact slice_eq_error h
  · cases h

variable (hemit : ∀ v, ∃ a, emit v = .ok a)
include hemit

theorem unpackTail_eq_error {n : ℕ} {buf : UInt64} {bits : ℕ} {rest : Bytes}
    (h : unpackTail w emit n buf bits rest = .error f) : Panics f := by
  induction n generalizing buf bits rest with
  | zero => cases h
  | succ n ih =>
    rw [unpackTail] at h
    rcases bind_eq_error.mp h with h | ⟨⟨buf', bits', rest'⟩, -, h⟩
    · exact refill_eq_error h
    · obtain ⟨a, ha⟩ := hemit (buf' &&& bitMask w)
      dsimp only at h
      rw [ha, ok_bind] at h
      rcases bind_eq_error.mp h with h | ⟨vs, -, h⟩
      · exact ih h
      · cases h

theorem unpackChunksFrom_eq_error {packed : Bytes} {tail fullChunks packedIdx : ℕ}
    (h : unpackChunksFrom w emit packed tail fullChunks packedIdx = .error f) : Panics f := by
  induction fullChunks generalizing packedIdx with
  | zero =>
    rw [unpackChunksFrom] at h
    split at h
    · rcases bind_eq_error.mp h with h | ⟨chunk, -, h⟩
      · exact slice_eq_error h
      · exact unpackTail_eq_error hemit h
    · cases h
  | succ n ih =>
    rw [unpackChunksFrom] at h
    rcases bind_eq_error.mp h with h | ⟨chunk, -, h⟩
    · exact slice_eq_error h
    rcases bind_eq_error.mp h with h | ⟨vs, -, h⟩
    · obtain ⟨i, j, -, hi, -⟩ := mapM_eq_error.mp h
      rcases bind_eq_error.mp hi with hi | ⟨v, -, hv⟩
      · exact unpackAt_eq_error hi
      · obtain ⟨a, ha⟩ := hemit v
        rw [ha] at hv
        cases hv
    rcases bind_eq_error.mp h with h | ⟨ws, -, h⟩
    · exact ih h
    · cases h

end

theorem toUInt32_ofNat (d : ℕ) : (UInt64.ofNat d).toUInt32 = UInt32.ofNat d := by
  refine UInt32.toNat_inj.mp ?_
  rw [UInt64.toNat_toUInt32, UInt64.toNat_ofNat', UInt32.toNat_ofNat',
    Nat.mod_mod_of_dvd d (by decide)]

/-- Width 0 included, where every digit is 0. -/
theorem unpackIndices_eq {packed : Bytes} {n : ℕ} {bitWidth : UInt8} (hbw : bitWidth ≤ 32)
    (h : n * bitWidth.toNat ≤ 8 * packed.length) :
    unpackIndices packed n bitWidth
      = .ok ((lowDigits (2 ^ bitWidth.toNat) n (leNat packed)).map UInt32.ofNat) := by
  rw [unpackIndices, if_neg (UInt8.not_lt.mpr hbw)]
  split
  · next hn =>
    subst hn
    rfl
  split
  · next _ hzero =>
    subst hzero
    rw [lowDigits_eq_map, List.map_map]
    refine congrArg Except.ok (Eq.symm (List.eq_replicate_iff.mpr ⟨by simp, fun b hb => ?_⟩))
    obtain ⟨i, -, rfl⟩ := List.mem_map.mp hb
    change UInt32.ofNat (_ % 1) = 0
    rw [Nat.mod_one]
    rfl
  · rw [unpackChunks_eq _ (UInt8.le_iff_toNat_le.mp hbw) h, ← funext toUInt32_ofNat]
    exact List.mapM_pure

theorem unpackIndices_fits {packed : Bytes} {n : ℕ} {bitWidth : UInt8} {is : List UInt32}
    (h : unpackIndices packed n bitWidth = .ok is) : n * bitWidth.toNat ≤ 8 * packed.length := by
  rw [unpackIndices] at h
  split at h
  · cases h
  split at h
  · next hn => simp [hn]
  split at h
  · next hzero => simp [hzero]
  · exact unpackChunks_fits h

/-- An allowed width and too few bytes. -/
theorem unpackIndices_short {packed : Bytes} {n : ℕ} {bitWidth : UInt8} (hbw : bitWidth ≤ 32)
    (h : 8 * packed.length < n * bitWidth.toNat) :
    ∃ f, unpackIndices packed n bitWidth = .error f ∧ Panics f := by
  cases hrun : unpackIndices packed n bitWidth with
  | ok is => exact absurd (unpackIndices_fits hrun) (Nat.not_le.mpr h)
  | error f =>
    refine ⟨f, rfl, ?_⟩
    rw [unpackIndices, if_neg (UInt8.not_lt.mpr hbw)] at hrun
    split at hrun
    · cases hrun
    split at hrun
    · cases hrun
    · exact unpackChunksFrom_eq_error (fun v => ⟨_, rfl⟩) hrun

theorem unpackLookup_eq {packed : Bytes} {n : ℕ} {bitWidth : UInt8} (dict : List α)
    (hbw : bitWidth ≤ 32) (hbw0 : bitWidth ≠ 0) (h : n * bitWidth.toNat ≤ 8 * packed.length) :
    unpackLookup packed n bitWidth dict
      = (lowDigits (2 ^ bitWidth.toNat) n (leNat packed)).mapM
          fun d => lookupIndex dict (UInt64.ofNat d) := by
  rw [unpackLookup.eq_def, if_neg (UInt8.not_lt.mpr hbw), if_neg hbw0]
  split
  · next hn =>
    subst hn
    rfl
  exact unpackChunks_eq _ (UInt8.le_iff_toNat_le.mp hbw) h

theorem unpackLookup_fits {packed : Bytes} {n : ℕ} {bitWidth : UInt8} {dict : List α}
    {vs : List α} (hbw0 : bitWidth ≠ 0) (h : unpackLookup packed n bitWidth dict = .ok vs) :
    n * bitWidth.toNat ≤ 8 * packed.length := by
  rw [unpackLookup.eq_def, if_neg hbw0] at h
  split at h
  · cases h
  split at h
  · next hn => simp [hn]
  · exact unpackChunks_fits h

end EmatixParquet
