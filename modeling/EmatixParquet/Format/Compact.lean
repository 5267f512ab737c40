/-
  Thrift compact protocol — the primitive readers and writers of
  `compact.rs` and `compact_writer.rs`.

  Readers run on the bytes that remain in the cursor.  `usize` and `u64` are
  64 bits wide; arithmetic on machine integers wraps, as in a release build.
  What else the readers ask of the machine is a parameter (`Machine`).

  * `parses_uvarint`, `parses_zigzagI32`, `parses_binary`, `parses_fieldHeader`,
    `parses_listHeader`: each primitive writer is undone by its reader, which
    stops exactly at the end of what was written;
  * `parses_listStruct`: the same for lists of structs.
-/
import EmatixParquet.Wire.Reader
import EmatixParquet.Wire.Varint
import Mathlib.Data.UInt

namespace EmatixParquet

open Wire

/-- Byte strings. -/
abbrev Bytes := List UInt8

/-- The bytes of one allocation: `usize` has 64 bits. -/
abbrev usizeBound : ℕ := 2 ^ 64

/-! ## Errors -/

/-- Type codes of struct fields and list elements.  Code 0 is STOP. -/
inductive FieldType where
  | boolTrue | boolFalse | byte | i16 | i32 | i64 | double | binary | list | set | map | struct
  deriving DecidableEq, Repr

/-- The nibble of a type in headers. -/
def FieldType.code : FieldType → UInt8
  | boolTrue => 1 | boolFalse => 2 | byte => 3 | i16 => 4 | i32 => 5 | i64 => 6
  | double => 7 | binary => 8 | list => 9 | set => 10 | map => 11 | struct => 12

/-- `FormatError`. -/
inductive FormatError where
  | unexpectedEof (needed remaining : ℕ)
  | varintOverflow
  | invalidEnumValue (typeName : String) (value : Int32)
  | invalidFieldType (nibble : UInt8)
  | unknownStructField (structName : String) (fieldId : Int16)
  | missingRequiredField (structName : String) (fieldId : Int16)
  | unexpectedFieldType (structName : String) (fieldId : Int16)
  | unexpectedListElementType (expected actual : FieldType)
  | emptyUnion (unionName : String)
  | invalidBoolByte (b : UInt8)
  deriving DecidableEq, Repr

/-- A function that reads from the cursor. -/
abbrev CursorM (α : Type) := Reader (Fault FormatError) α

/-- `return Err(e)`. -/
def throwFormat {α : Type} (e : FormatError) : CursorM α := Reader.fail (.err e)

/-- What a machine does where the readers do not check: it adds to the id of the
    previous field, and makes room for the elements of a list (`with_capacity`)
    when so many bytes are left. -/
class Machine where
  addId (prevId delta : Int16) : Except (Fault FormatError) Int16
  reserve (n left : ℕ) : Except (Fault FormatError) Unit

/-- Unless another is named: ids wrap, and there is room. -/
instance wrapping : Machine where
  addId prevId delta := .ok (prevId + delta)
  reserve _ _ := .ok ()

section
variable {α β : Type}

/-- `r` reads back what was written as `w`, and nothing more. -/
abbrev ReadsBack (r : CursorM α) (w : Bytes) (a : α) : Prop := Parses usizeBound r w a

/-! ## Cursor -/

/-- `read_u8`. -/
def readU8 : CursorM UInt8 where
  run
    | [] => .error (.err (.unexpectedEof 1 0))
    | b :: rest => .ok (b, rest)
  suffix {bs a rest} h := by
    cases bs with
    | nil => cases h
    | cons b bs => cases h; exact List.suffix_cons _ _

/-- `read_bytes`: the next `n` bytes. -/
def take (n : ℕ) : CursorM Bytes where
  run bs :=
    if bs.length < n then .error (.err (.unexpectedEof n bs.length))
    else .ok (bs.take n, bs.drop n)
  suffix {bs a rest} h := by
    split at h
    · cases h
    · cases h; exact List.drop_suffix _ _

@[simp] theorem run_readU8_cons (b : UInt8) (bs : Bytes) :
    readU8.run (b :: bs) = .ok (b, bs) := rfl

theorem parses_u8 (b : UInt8) : ReadsBack readU8 [b] b := fun _ _ => rfl

theorem parses_take (bs : Bytes) : ReadsBack (take bs.length) bs bs := by
  intro _ t
  simp [take]

/-- A byte was there to be read. -/
theorem readU8_consumes {bs rest : Bytes} {b : UInt8} (h : readU8.run bs = .ok (b, rest)) :
    rest.length < bs.length := by
  cases bs with
  | nil => cases h
  | cons c bs => cases h; exact Nat.lt_succ_self _

/-- A reader whose first act is to read a byte consumes one. -/
theorem consumes_of_readU8 {f : UInt8 → CursorM α} {bs rest : Bytes} {a : α}
    (h : (readU8 >>= f).run bs = .ok (a, rest)) : rest.length < bs.length := by
  obtain ⟨b, mid, hb, hf⟩ := Reader.run_bind_eq_ok h
  exact lt_of_le_of_lt ((f b).run_length_le hf) (readU8_consumes hb)

/-! ## Varints -/

/-- The turns left of the ten of `read_uvarint`, with its accumulators. -/
def readUvarintFrom : ℕ → UInt64 → UInt64 → CursorM UInt64
  | 0, _, _ => throwFormat .varintOverflow
  | turns + 1, result, shift => do
    let byte ← readU8
    let result := result ||| ((byte &&& 0x7F).toUInt64 <<< shift)
    if byte &&& 0x80 = 0 then pure result else readUvarintFrom turns result (shift + 7)

/-- `read_uvarint`: ten bytes at most. -/
def readUvarint : CursorM UInt64 := readUvarintFrom 10 0 0

theorem readUvarintFrom_error {turns : ℕ} {result shift : UInt64} {bs : Bytes}
    {f : Fault FormatError} (h : (readUvarintFrom turns result shift).run bs = .error f) :
    ∃ e, f = .err e := by
  induction turns generalizing result shift bs with
  | zero =>
    cases h
    exact ⟨_, rfl⟩
  | succ turns ih =>
    rw [readUvarintFrom] at h
    cases bs with
    | nil =>
      cases h
      exact ⟨_, rfl⟩
    | cons b bs =>
      rw [Reader.run_bind_ok (run_readU8_cons _ _)] at h
      split at h
      · cases h
      · exact ih h

/-- Reading a varint does not panic. -/
theorem readUvarint_error {bs : Bytes} {f : Fault FormatError}
    (h : readUvarint.run bs = .error f) : ∃ e, f = .err e :=
  readUvarintFrom_error h

/-- The loop of `write_uvarint`; nine turns bring any `u64` below `0x80`
    (`writeUvarint_eq`). -/
def writeUvarintFrom : ℕ → UInt64 → Bytes
  | 0, v => [v.toUInt8]
  | turns + 1, v =>
    if 0x80 ≤ v then ((v &&& 0x7F).toUInt8 ||| 0x80) :: writeUvarintFrom turns (v >>> 7)
    else [v.toUInt8]

/-- `write_uvarint`. -/
def writeUvarint (v : UInt64) : Bytes := writeUvarintFrom 9 v

theorem length_writeUvarintFrom_le (turns : ℕ) (v : UInt64) :
    (writeUvarintFrom turns v).length ≤ turns + 1 := by
  induction turns generalizing v with
  | zero => exact le_rfl
  | succ turns ih =>
    rw [writeUvarintFrom]
    split
    · simpa using ih (v >>> 7)
    · simp

theorem length_writeUvarint_le (v : UInt64) : (writeUvarint v).length ≤ 10 :=
  length_writeUvarintFrom_le 9 v

theorem writeUvarintFrom_of_lt (turns : ℕ) {v : UInt64} (h : v < 0x80) :
    writeUvarintFrom turns v = [v.toUInt8] := by
  cases turns with
  | zero => rfl
  | succ turns => rw [writeUvarintFrom, if_neg (UInt64.not_le.mpr h)]

theorem toNat_shiftRight_seven (v : UInt64) : (v >>> 7).toNat = v.toNat / 128 := by
  rw [UInt64.toNat_shiftRight, show (7 : UInt64).toNat % 64 = 7 from rfl,
    Nat.shiftRight_eq_div_pow]

/-- Once the turns suffice for the number, one more changes nothing. -/
theorem writeUvarintFrom_succ (turns : ℕ) (v : UInt64) (h : v.toNat < 128 ^ (turns + 1)) :
    writeUvarintFrom (turns + 1) v = writeUvarintFrom turns v := by
  induction turns generalizing v with
  | zero => exact writeUvarintFrom_of_lt _ (UInt64.lt_iff_toNat_lt.mpr (by simpa using h))
  | succ turns ih =>
    have hv : (v >>> 7).toNat < 128 ^ (turns + 1) := by
      rw [toNat_shiftRight_seven, Nat.div_lt_iff_lt_mul (by decide)]
      exact h
    rw [writeUvarintFrom, ih _ hv, writeUvarintFrom]

/-- `write_uvarint` is its source's loop. -/
theorem writeUvarint_eq (v : UInt64) :
    writeUvarint v = if 0x80 ≤ v
      then ((v &&& 0x7F).toUInt8 ||| 0x80) :: writeUvarint (v >>> 7) else [v.toUInt8] := by
  have h : (v >>> 7).toNat < 128 ^ 9 := by
    rw [toNat_shiftRight_seven]
    have := v.toNat_lt
    omega
  rw [writeUvarint, writeUvarintFrom, writeUvarint, ← writeUvarintFrom_succ 8 _ h]

theorem writeUvarint_ne_nil (v : UInt64) : writeUvarint v ≠ [] := by
  rw [writeUvarint_eq]
  split <;> simp

/-! The bytes of a varint: seven payload bits under a continuation bit. -/

theorem toNat_payload (v : UInt64) : (v &&& 0x7F).toUInt8.toNat = v.toNat % 128 := by
  have h : v.toNat &&& 127 = v.toNat % 128 := Nat.and_two_pow_sub_one_eq_mod v.toNat 7
  simp only [UInt64.toNat_toUInt8, UInt64.toNat_and, UInt64.reduceToNat, h]
  omega

theorem payload_of_lt (b : UInt8) (hb : b.toNat < 128) :
    ((b ||| 0x80) &&& 0x7F) = b ∧ (b ||| 0x80) &&& 0x80 ≠ 0 ∧ b &&& 0x7F = b ∧
      b &&& 0x80 = 0 := by
  have h : ∀ n : Fin 128, let b := UInt8.ofNat n
      ((b ||| 0x80) &&& 0x7F) = b ∧ (b ||| 0x80) &&& 0x80 ≠ 0 ∧ b &&& 0x7F = b ∧
        b &&& 0x80 = 0 := by decide +kernel
  simpa using h ⟨b.toNat, hb⟩

theorem payload_of_ge (b : UInt8) (hb : 128 ≤ b.toNat) :
    (b &&& 0x7F).toNat = b.toNat - 128 ∧ b &&& 0x80 ≠ 0 := by
  have h : ∀ n : Fin 256, 128 ≤ n.val → let b := UInt8.ofNat n
      (b &&& 0x7F).toNat = n.val - 128 ∧ b &&& 0x80 ≠ 0 := by decide +kernel
  simpa using h ⟨b.toNat, b.toNat_lt⟩ hb

/-- One turn of the accumulator: a digit is added above the bits already read. -/
theorem toNat_accumulate {result shift : UInt64} {d : UInt8} (hs : shift.toNat < 64)
    (hr : result.toNat < 2 ^ shift.toNat) (hd : d.toNat * 2 ^ shift.toNat < 2 ^ 64) :
    (result ||| (d.toUInt64 <<< shift)).toNat = result.toNat + d.toNat * 2 ^ shift.toNat := by
  rw [UInt64.toNat_or, UInt64.toNat_shiftLeft, Nat.mod_eq_of_lt hs, UInt8.toNat_toUInt64,
    Nat.mod_eq_of_lt (by rwa [Nat.shiftLeft_eq]), or_shiftLeft_digit _ hr]

/-- The last byte of a varint ends the loop. -/
theorem run_readUvarintFrom_last (turns : ℕ) (result shift : UInt64) {b : UInt8}
    (hb : b.toNat < 128) (t : Bytes) :
    (readUvarintFrom (turns + 1) result shift).run (b :: t)
      = .ok (result ||| (b.toUInt64 <<< shift), t) := by
  obtain ⟨-, -, hlow, hstop⟩ := payload_of_lt b hb
  rw [readUvarintFrom, Reader.run_bind_ok (run_readU8_cons _ _), hlow, if_pos hstop]
  rfl

/-- The loop invariant of the varint round trip: with `7 * k` bits read and
    `9 - k` turns left to both sides, what remains to be written of `v` lands
    above the bits already read. -/
theorem run_readUvarintFrom (turns : ℕ) (ht : turns ≤ 9) (result shift v : UInt64)
    (hs : shift.toNat = 7 * (9 - turns)) (hr : result.toNat < 2 ^ shift.toNat)
    (hv : v.toNat * 2 ^ shift.toNat < 2 ^ 64) (t : Bytes) :
    ∃ r, (readUvarintFrom (turns + 1) result shift).run (writeUvarintFrom turns v ++ t)
        = .ok (r, t) ∧ r.toNat = result.toNat + v.toNat * 2 ^ shift.toNat := by
  induction turns generalizing result shift v with
  | zero =>
    have hv2 : v.toNat < 2 := by
      rw [hs] at hv
      omega
    have hb : v.toUInt8.toNat = v.toNat := by
      rw [UInt64.toNat_toUInt8]
      omega
    have hsum := toNat_accumulate (d := v.toUInt8) (by omega) hr (by rwa [hb])
    exact ⟨_, run_readUvarintFrom_last 0 _ _ (by omega) t, by rw [hsum, hb]⟩
  | succ turns ih =>
    by_cases hlt : v < 0x80
    · have hv7 : v.toNat < 128 := UInt64.lt_iff_toNat_lt.mp hlt
      have hb : v.toUInt8.toNat = v.toNat := by
        rw [UInt64.toNat_toUInt8]
        omega
      have hsum := toNat_accumulate (d := v.toUInt8) (by omega) hr (by rwa [hb])
      rw [writeUvarintFrom_of_lt _ hlt]
      exact ⟨_, run_readUvarintFrom_last _ _ _ (by omega) t, by rw [hsum, hb]⟩
    · have hd : (v &&& 0x7F).toUInt8.toNat = v.toNat % 128 := toNat_payload v
      obtain ⟨hlow, hcont, -, -⟩ := payload_of_lt (v &&& 0x7F).toUInt8 (by omega)
      have hsplit := low7_add_rest v.toNat shift.toNat
      have hshift : (shift + 7).toNat = shift.toNat + 7 := by
        rw [UInt64.toNat_add, show (7 : UInt64).toNat = 7 from rfl]
        omega
      have hacc := toNat_accumulate (d := (v &&& 0x7F).toUInt8) (by omega) hr
        (by rw [hd]; omega)
      rw [hd] at hacc
      obtain ⟨r, hrun, hval⟩ := ih (by omega)
        (result ||| ((v &&& 0x7F).toUInt8.toUInt64 <<< shift)) (shift + 7) (v >>> 7)
        (by omega)
        (by
          rw [hacc, hshift, Nat.pow_add]
          have : v.toNat % 128 * 2 ^ shift.toNat ≤ 127 * 2 ^ shift.toNat :=
            Nat.mul_le_mul_right _ (by omega)
          omega)
        (by rw [hshift, toNat_shiftRight_seven]; omega)
      refine ⟨r, ?_, ?_⟩
      · rw [writeUvarintFrom, if_pos (UInt64.not_lt.mp hlt), List.cons_append,
          readUvarintFrom, Reader.run_bind_ok (run_readU8_cons _ _), hlow, if_neg hcont]
        exact hrun
      · rw [hval, hacc, hshift, toNat_shiftRight_seven]
        omega

/-- **Varint round trip.** -/
theorem run_readUvarint_writeUvarint (v : UInt64) (t : Bytes) :
    readUvarint.run (writeUvarint v ++ t) = .ok (v, t) := by
  obtain ⟨r, hrun, hval⟩ := run_readUvarintFrom 9 le_rfl 0 0 v rfl (by decide)
    (by simpa using v.toNat_lt) t
  obtain rfl : r = v := UInt64.toNat_inj.mp (by simpa using hval)
  exact hrun

theorem parses_uvarint (v : UInt64) : ReadsBack readUvarint (writeUvarint v) v :=
  fun _ t => run_readUvarint_writeUvarint v t

/-- One turn of the accumulator keeps the number modulo `2 ^ 64`. -/
theorem toNat_accumulate_mod {result shift : UInt64} (d : UInt8) (hs : shift.toNat < 64)
    (hr : result.toNat < 2 ^ shift.toNat) :
    (result ||| (d.toUInt64 <<< shift)).toNat
      = (result.toNat + d.toNat * 2 ^ shift.toNat) % 2 ^ 64 := by
  have hpow : 2 ^ 64 = 2 ^ shift.toNat * 2 ^ (64 - shift.toNat) := by
    rw [← Nat.pow_add]
    congr 1
    omega
  have hcut : d.toNat * 2 ^ shift.toNat % 2 ^ 64
      = d.toNat % 2 ^ (64 - shift.toNat) * 2 ^ shift.toNat := by
    rw [hpow, Nat.mul_comm, Nat.mul_mod_mul_left, Nat.mul_comm]
  have hsum : result.toNat + d.toNat % 2 ^ (64 - shift.toNat) * 2 ^ shift.toNat < 2 ^ 64 := by
    have hle : (d.toNat % 2 ^ (64 - shift.toNat) + 1) * 2 ^ shift.toNat ≤ 2 ^ 64 := by
      rw [hpow, Nat.mul_comm]
      exact Nat.mul_le_mul_left _ (Nat.mod_lt _ (Nat.two_pow_pos _))
    rw [Nat.succ_mul] at hle
    omega
  rw [UInt64.toNat_or, UInt64.toNat_shiftLeft, Nat.mod_eq_of_lt hs, UInt8.toNat_toUInt64,
    Nat.shiftLeft_eq, hcut, ← Nat.shiftLeft_eq, or_shiftLeft_digit _ hr, ← Nat.mod_eq_of_lt hsum,
    ← hcut, Nat.add_mod_mod]

/-- The digits that are left are read on top of the bits already read. -/
theorem run_readUvarintFrom_uleb128 {bs : Bytes} {n : ℕ} (h : Uleb128 bs n) {turns : ℕ}
    {result shift : UInt64} (hturns : turns ≤ 10) (hlen : bs.length ≤ turns)
    (hs : shift.toNat = 7 * (10 - turns)) (hr : result.toNat < 2 ^ shift.toNat) (t : Bytes) :
    ∃ r, (readUvarintFrom turns result shift).run (bs ++ t) = .ok (r, t) ∧
      r.toNat = (result.toNat + n * 2 ^ shift.toNat) % 2 ^ 64 := by
  induction h generalizing turns result shift with
  | @last b hb =>
    rw [List.length_singleton] at hlen
    obtain ⟨turns, rfl⟩ := Nat.exists_eq_add_of_le' hlen
    exact ⟨_, run_readUvarintFrom_last turns result shift hb t,
      toNat_accumulate_mod b (by omega) hr⟩
  | @more b bs n hb htail ih =>
    -- at least one turn is left for the other bytes, so this digit fits
    have hpos : 0 < bs.length := by cases htail <;> simp
    rw [List.length_cons] at hlen
    obtain ⟨turns, rfl⟩ := Nat.exists_eq_add_of_le' (Nat.one_le_of_lt hlen)
    obtain ⟨hdigit, hcont⟩ := payload_of_ge b hb
    have hshift : (shift + 7).toNat = shift.toNat + 7 := by
      rw [UInt64.toNat_add, show (7 : UInt64).toNat = 7 from rfl]
      omega
    have hpow : 2 ^ (shift.toNat + 7) = 128 * 2 ^ shift.toNat := by
      rw [Nat.pow_add, Nat.mul_comm]
    have hfits : 2 ^ (shift.toNat + 7) < 2 ^ 64 := Nat.pow_lt_pow_right (by decide) (by omega)
    have hdigit' : (b.toNat - 128) * 2 ^ shift.toNat ≤ 127 * 2 ^ shift.toNat :=
      Nat.mul_le_mul_right _ (by have := b.toNat_lt; omega)
    have hacc := toNat_accumulate (d := b &&& 0x7F) (by omega) hr (by rw [hdigit]; omega)
    obtain ⟨r, hrun, hval⟩ := @ih turns (result ||| ((b &&& 0x7F).toUInt64 <<< shift)) (shift + 7)
      (by omega) (by omega) (by omega) (by rw [hacc, hshift, hdigit]; omega)
    refine ⟨r, ?_, ?_⟩
    · rw [List.cons_append, readUvarintFrom, Reader.run_bind_ok (run_readU8_cons _ _),
        if_neg hcont]
      exact hrun
    · rw [hval, hacc, hdigit, hshift, hpow]
      congr 1
      ring

/-- **Any LEB128 number** of at most ten bytes is read, modulo `2 ^ 64`. -/
theorem run_readUvarint_uleb128 {bs : Bytes} {n : ℕ} (h : Uleb128 bs n) (hlen : bs.length ≤ 10)
    (t : Bytes) : readUvarint.run (bs ++ t) = .ok (UInt64.ofNat n, t) := by
  obtain ⟨r, hrun, hval⟩ := @run_readUvarintFrom_uleb128 _ _ h 10 0 0 le_rfl hlen rfl
    (by decide) t
  have hr : r = UInt64.ofNat n := by
    refine UInt64.toNat_inj.mp ?_
    rw [hval, UInt64.toNat_ofNat']
    simp
  rw [readUvarint, hrun, hr]

/-- What is read was a LEB128 number of at most ten bytes. -/
theorem uleb128_of_readUvarintFrom {turns : ℕ} {result shift v : UInt64} {input rest : Bytes}
    (h : (readUvarintFrom turns result shift).run input = .ok (v, rest)) :
    ∃ bs n, input = bs ++ rest ∧ Uleb128 bs n ∧ bs.length ≤ turns := by
  induction turns generalizing result shift input with
  | zero => cases h
  | succ turns ih =>
    cases input with
    | nil => cases h
    | cons b input =>
      rw [readUvarintFrom, Reader.run_bind_ok (run_readU8_cons _ _)] at h
      rcases Nat.lt_or_ge b.toNat 128 with hb | hb
      · obtain ⟨-, -, -, hstop⟩ := payload_of_lt b hb
        rw [if_pos hstop] at h
        cases h
        exact ⟨[b], _, rfl, .last hb, by simp⟩
      · rw [if_neg (payload_of_ge b hb).2] at h
        obtain ⟨bs, n, rfl, hbs, hlen⟩ := ih h
        exact ⟨b :: bs, _, rfl, .more hb hbs, by simpa using hlen⟩

/-! ## Zigzag integers -/

/-- `read_zigzag_i32`. -/
def readZigzagI32 : CursorM Int32 :=
  (fun u : UInt64 =>
    let u := u.toUInt32
    (u >>> 1).toInt32 ^^^ -(u &&& 1).toInt32) <$> readUvarint

/-- `read_zigzag_i64`. -/
def readZigzagI64 : CursorM Int64 :=
  (fun u : UInt64 => (u >>> 1).toInt64 ^^^ -(u &&& 1).toInt64) <$> readUvarint

/-- `read_i8`. -/
def readI8 : CursorM Int8 := UInt8.toInt8 <$> readU8

/-- `read_zigzag_i16`. -/
def readZigzagI16 : CursorM Int16 := Int32.toInt16 <$> readZigzagI32

/-- `write_zigzag_i32`. -/
def writeZigzagI32 (v : Int32) : Bytes :=
  writeUvarint ((v <<< 1) ^^^ (v >>> 31)).toUInt32.toUInt64

/-- `write_zigzag_i64`. -/
def writeZigzagI64 (v : Int64) : Bytes :=
  writeUvarint ((v <<< 1) ^^^ (v >>> 63)).toUInt64

/-- `write_zigzag_i16`. -/
def writeZigzagI16 (v : Int16) : Bytes := writeZigzagI32 v.toInt32

theorem unzigzag_i32 (v : Int32) :
    let u := ((v <<< 1) ^^^ (v >>> 31)).toUInt32
    (u >>> 1).toInt32 ^^^ -(u &&& 1).toInt32 = v :=
  Int32.toBitVec_inj.mp (unzigzag_zigzag v.toBitVec)

theorem unzigzag_i64 (v : Int64) :
    let u := ((v <<< 1) ^^^ (v >>> 63)).toUInt64
    (u >>> 1).toInt64 ^^^ -(u &&& 1).toInt64 = v :=
  Int64.toBitVec_inj.mp (unzigzag_zigzag v.toBitVec)

theorem parses_zigzagI32 (v : Int32) : ReadsBack readZigzagI32 (writeZigzagI32 v) v := by
  have h := parses_map (fun u : UInt64 =>
    let u := u.toUInt32
    (u >>> 1).toInt32 ^^^ -(u &&& 1).toInt32) (parses_uvarint
      ((v <<< 1) ^^^ (v >>> 31)).toUInt32.toUInt64)
  simp only [UInt32.toUInt32_toUInt64] at h
  rwa [unzigzag_i32] at h

theorem parses_zigzagI64 (v : Int64) : ReadsBack readZigzagI64 (writeZigzagI64 v) v := by
  have h := parses_map (fun u : UInt64 => (u >>> 1).toInt64 ^^^ -(u &&& 1).toInt64)
    (parses_uvarint ((v <<< 1) ^^^ (v >>> 63)).toUInt64)
  rwa [unzigzag_i64] at h

theorem parses_zigzagI16 (v : Int16) : ReadsBack readZigzagI16 (writeZigzagI16 v) v := by
  have h := parses_map Int32.toInt16 (parses_zigzagI32 v.toInt32)
  rwa [Int16.toInt16_toInt32] at h

theorem writeZigzagI32_ne_nil (v : Int32) : writeZigzagI32 v ≠ [] := writeUvarint_ne_nil _

/-! ## Byte strings -/

/-- `read_binary`: a length, and as many bytes. -/
def readBinary : CursorM Bytes := do
  let len ← readUvarint
  take len.toNat

/-- `write_binary`. -/
def writeBinary (bytes : Bytes) : Bytes :=
  writeUvarint (UInt64.ofNat bytes.length) ++ bytes

theorem parses_binary (bytes : Bytes) : ReadsBack readBinary (writeBinary bytes) bytes := by
  intro hlen
  have h : bytes.length < 2 ^ 64 := by
    rw [writeBinary, List.length_append] at hlen
    exact lt_of_le_of_lt (Nat.le_add_left _ _) hlen
  refine parses_bind (parses_uvarint _) ?_ hlen
  rw [UInt64.toNat_ofNat_of_lt' h]
  exact parses_take bytes

theorem writeBinary_ne_nil (bytes : Bytes) : writeBinary bytes ≠ [] :=
  List.append_ne_nil_of_left_ne_nil (writeUvarint_ne_nil _) _

/-! ## Field headers -/

/-- The id and the type of a field. -/
structure FieldHeader where
  id : Int16
  fieldType : FieldType
  deriving DecidableEq, Repr

/-- The type that a nibble stands for. -/
def decodeFieldType (nibble : UInt8) : Except (Fault FormatError) FieldType :=
  match nibble.toNat with
  | 1 => .ok .boolTrue
  | 2 => .ok .boolFalse
  | 3 => .ok .byte
  | 4 => .ok .i16
  | 5 => .ok .i32
  | 6 => .ok .i64
  | 7 => .ok .double
  | 8 => .ok .binary
  | 9 => .ok .list
  | 10 => .ok .set
  | 11 => .ok .map
  | 12 => .ok .struct
  | _ => .error (.err (.invalidFieldType nibble))

/-- Reads one field header; `none` at STOP.  The value of a boolean field is
    its type: it has no body. -/
def readFieldHeader [Machine] (prevId : Int16) : CursorM (Option FieldHeader) := do
  let header ← readU8
  if header = 0x00 then pure none
  else do
    let typeNibble := header &&& 0x0F
    let delta := (header &&& 0xF0) >>> 4
    let fieldType ← Reader.lift (decodeFieldType typeNibble)
    if delta = 0 then do
      let z ← readZigzagI32
      pure (some ⟨z.toInt16, fieldType⟩)
    else do
      let id ← Reader.lift (Machine.addId prevId delta.toUInt16.toInt16)
      pure (some ⟨id, fieldType⟩)

/-- `write_field_header`: the id as a delta to the one before, where four bits hold it. -/
def writeFieldHeader (id : Int16) (fieldType : FieldType) (prevId : Int16) : Bytes :=
  let diff := id.toInt32 - prevId.toInt32
  if 0 < diff ∧ diff ≤ 15 then [(diff.toInt8.toUInt8 <<< 4) ||| fieldType.code]
  else fieldType.code :: writeZigzagI16 id

theorem readFieldHeader_consumes [Machine] {prevId : Int16} {bs rest : Bytes} {h : Option FieldHeader}
    (hr : (readFieldHeader prevId).run bs = .ok (h, rest)) : rest.length < bs.length :=
  consumes_of_readU8 hr

@[simp] theorem decodeFieldType_code (ty : FieldType) : decodeFieldType ty.code = .ok ty := by
  cases ty <;> rfl

/-- A byte packed from two nibbles, taken apart again. -/
theorem nibbles_of_pack (hi : Fin 16) (ty : FieldType) :
    let b := (UInt8.ofNat hi.val <<< 4) ||| ty.code
    b ≠ 0 ∧ b &&& 0x0F = ty.code ∧ (b &&& 0xF0) >>> 4 = UInt8.ofNat hi.val := by
  cases ty <;> revert hi <;> decide +kernel

theorem parses_fieldStop (prevId : Int16) : ReadsBack (readFieldHeader prevId) [0x00] none :=
  fun _ _ => rfl

/-- A short delta is at most 15, so it survives the nibble. -/
theorem delta_of_short {id prevId : Int16} (h : 0 < id.toInt32 - prevId.toInt32)
    (h' : id.toInt32 - prevId.toInt32 ≤ 15) :
    ∃ k : Fin 16, UInt8.ofNat k.val ≠ 0 ∧
      (id.toInt32 - prevId.toInt32).toInt8.toUInt8 = UInt8.ofNat k.val ∧
      prevId + (UInt8.ofNat k.val).toUInt16.toInt16 = id := by
  have hdiff : (id.toInt32 - prevId.toInt32).toInt = id.toInt - prevId.toInt := by
    rw [Int32.toInt_sub, Int16.toInt_toInt32, Int16.toInt_toInt32]
    have := id.toInt_lt
    have := id.le_toInt
    have := prevId.toInt_lt
    have := prevId.le_toInt
    exact Int.bmod_eq_of_le (by omega) (by omega)
  rw [Int32.lt_iff_toInt_lt, hdiff, show (0 : Int32).toInt = 0 from rfl] at h
  rw [Int32.le_iff_toInt_le, hdiff, show (15 : Int32).toInt = 15 from rfl] at h'
  obtain ⟨k, hk⟩ : ∃ k : Fin 16, id.toInt - prevId.toInt = k.val :=
    ⟨⟨(id.toInt - prevId.toInt).toNat, by omega⟩, by simp; omega⟩
  have hpos : 0 < k.val := by omega
  refine ⟨k, ?_, ?_, ?_⟩
  · clear hdiff hk
    revert k
    decide
  · rw [← Int32.ofInt_toInt (id.toInt32 - prevId.toInt32), hdiff, hk]
    clear hdiff hk
    revert k
    decide
  · have hcast : (UInt8.ofNat k.val).toUInt16.toInt16 = Int16.ofInt k.val := by
      clear hdiff hk
      revert k
      decide
    have hid : id.toInt = prevId.toInt + k.val := by omega
    rw [hcast, ← Int16.ofInt_toInt id, hid, Int16.ofInt_add, Int16.ofInt_toInt]

/-- **Field header round trip**, whatever the previous field was. -/
theorem parses_fieldHeader (id : Int16) (ty : FieldType) (prevId : Int16) :
    ReadsBack (readFieldHeader prevId) (writeFieldHeader id ty prevId) (some ⟨id, ty⟩) := by
  rw [writeFieldHeader]
  split
  · next hshort =>
    obtain ⟨k, hk0, hk, hid⟩ := delta_of_short hshort.1 hshort.2
    obtain ⟨hne, hlow, hhigh⟩ := nibbles_of_pack k ty
    intro _ t
    rw [hk, List.singleton_append, readFieldHeader, Reader.run_bind_ok (run_readU8_cons _ _),
      if_neg hne]
    simp only [hlow, hhigh, decodeFieldType_code, Machine.addId, Reader.lift_ok, pure_bind,
      if_neg hk0, hid, Reader.run_pure]
  · -- long form: the high nibble is zero, and the id follows in full
    obtain ⟨hne, hlow, hhigh⟩ := nibbles_of_pack 0 ty
    have hcode : ((UInt8.ofNat (0 : Fin 16).val <<< 4) ||| ty.code) = ty.code := by
      cases ty <;> rfl
    rw [hcode] at hne hlow hhigh
    refine parses_bind (w := [ty.code]) (parses_u8 _) ?_
    rw [if_neg hne]
    simp only [hlow, hhigh, decodeFieldType_code, Reader.lift_ok, pure_bind]
    have hz := parses_map (fun z : Int32 => some (FieldHeader.mk z.toInt16 ty))
      (parses_zigzagI32 id.toInt32)
    rw [Int16.toInt16_toInt32] at hz
    exact hz

/-! ## List headers -/

/-- `read_list_header`: the number of elements, and their type. -/
def readListHeader : CursorM (ℕ × FieldType) := do
  let header ← readU8
  let typeNibble := header &&& 0x0F
  let high := (header &&& 0xF0) >>> 4
  let elementType ← Reader.lift (decodeFieldType typeNibble)
  if high < 0x0F then pure (high.toNat, elementType)
  else (fun n : UInt64 => (n.toNat, elementType)) <$> readUvarint

/-- `write_list_header`. -/
def writeListHeader (count : ℕ) (elementType : FieldType) : Bytes :=
  if count < 15 then [(UInt8.ofNat count <<< 4) ||| elementType.code]
  else (0xF0 ||| elementType.code) :: writeUvarint (UInt64.ofNat count)

theorem parses_listHeader (count : ℕ) (hcount : count < 2 ^ 64) (ty : FieldType) :
    ReadsBack readListHeader (writeListHeader count ty) (count, ty) := by
  rw [writeListHeader]
  split
  · next hshort =>
    obtain ⟨-, hlow, hhigh⟩ := nibbles_of_pack ⟨count, by omega⟩ ty
    have hnat : (UInt8.ofNat count).toNat = count :=
      UInt8.toNat_ofNat_of_lt' (lt_trans hshort (by decide))
    have hlt : UInt8.ofNat count < 0x0F := UInt8.lt_iff_toNat_lt.mpr (by rw [hnat]; exact hshort)
    intro _ t
    rw [List.singleton_append, readListHeader, Reader.run_bind_ok (run_readU8_cons _ _)]
    simp only [hlow, hhigh, decodeFieldType_code, Reader.lift_ok, pure_bind, if_pos hlt,
      Reader.run_pure, hnat]
  · obtain ⟨-, hlow, hhigh⟩ := nibbles_of_pack 15 ty
    refine parses_bind (w := [0xF0 ||| ty.code]) (parses_u8 _) ?_
    have hcode : ((UInt8.ofNat (15 : Fin 16).val <<< 4) ||| ty.code) = 0xF0 ||| ty.code := rfl
    rw [hcode] at hlow hhigh
    simp only [hlow, hhigh, decodeFieldType_code, Reader.lift_ok, pure_bind]
    have hn := parses_map (fun n : UInt64 => (n.toNat, ty)) (parses_uvarint (UInt64.ofNat count))
    rw [UInt64.toNat_ofNat_of_lt' hcount] at hn
    exact hn

/-! ## Lists -/

/-- A list of elements of the type `expected`. -/
def readListOf (expected : FieldType) (r : CursorM α) : CursorM (List α) := do
  let (n, et) ← readListHeader
  if et = expected then r.times n
  else throwFormat (.unexpectedListElementType expected et)

/-- `read_list_i32`. -/
def readListI32 : CursorM (List Int32) := readListOf .i32 readZigzagI32

/-- `read_list_i64`. -/
def readListI64 : CursorM (List Int64) := readListOf .i64 readZigzagI64

/-- `read_list_binary`. -/
def readListBinary : CursorM (List Bytes) := readListOf .binary readBinary

/-- `Vec::with_capacity(n)`. -/
def reserve [Machine] (n : ℕ) : CursorM Unit := do
  let left ← Reader.remaining
  Reader.lift (Machine.reserve n left)

/-- Unlike the other lists, this one and that of the booleans ask for room before
    they read an element. -/
def readListStruct [Machine] (decodeOne : CursorM α) : CursorM (List α) := do
  let (n, et) ← readListHeader
  if et = .struct then do
    reserve n
    decodeOne.times n
  else throwFormat (.unexpectedListElementType .struct et)

/-- `read_bool`, as an element of a list. -/
def readBool : CursorM Bool := do
  let b ← readU8
  if b = 0x01 then pure true
  else if b = 0x02 then pure false
  else throwFormat (.invalidBoolByte b)

/-- Both boolean type codes are accepted for the elements; a body is one byte. -/
def readListBool [Machine] : CursorM (List Bool) := do
  let (n, et) ← readListHeader
  if et = .boolTrue ∨ et = .boolFalse then do
    reserve n
    readBool.times n
  else throwFormat (.unexpectedListElementType .boolTrue et)

/-- A list header and the texts of the elements. -/
def writeListOf (ty : FieldType) (enc : α → Bytes) (as : List α) : Bytes :=
  writeListHeader as.length ty ++ (as.map enc).flatten

/-- `write_list_i32`. -/
def writeListI32 (values : List Int32) : Bytes := writeListOf .i32 writeZigzagI32 values

/-- `write_list_binary`. -/
def writeListBinary (items : List Bytes) : Bytes := writeListOf .binary writeBinary items

theorem length_le_length_flatten {ws : List Bytes} (hne : ∀ w ∈ ws, w ≠ []) :
    ws.length ≤ ws.flatten.length := by
  induction ws with
  | nil => exact le_rfl
  | cons w ws ih =>
    have hw : 0 < w.length := List.length_pos_iff.mpr (hne w List.mem_cons_self)
    have hws := ih fun v hv => hne v (List.mem_cons_of_mem _ hv)
    rw [List.flatten_cons, List.length_append, List.length_cons]
    omega

/-- **List round trip**, for elements that take at least a byte each. -/
theorem parses_listOf {ty : FieldType} {r : CursorM α} {ws : List Bytes} {as : List α}
    (hne : ∀ w ∈ ws, w ≠ []) (h : List.Forall₂ (ReadsBack r) ws as) :
    ReadsBack (readListOf ty r) (writeListHeader as.length ty ++ ws.flatten) as := by
  intro hlen
  have hcount : as.length < 2 ^ 64 := by
    rw [List.length_append] at hlen
    rw [← h.length_eq]
    exact lt_of_le_of_lt ((length_le_length_flatten hne).trans (Nat.le_add_left _ _)) hlen
  refine parses_bind (parses_listHeader _ hcount ty) ?_ hlen
  simp only [if_pos]
  exact parses_times h

theorem parses_writeListOf {ty : FieldType} {r : CursorM α} {enc : α → Bytes} (as : List α)
    (hne : ∀ a, enc a ≠ []) (h : ∀ a, ReadsBack r (enc a) a) :
    ReadsBack (readListOf ty r) (writeListOf ty enc as) as := by
  refine parses_listOf (fun w hw => ?_) ?_
  · obtain ⟨a, -, rfl⟩ := List.mem_map.mp hw
    exact hne a
  · rw [List.forall₂_map_left_iff, List.forall₂_same]
    exact fun a _ => h a

theorem parses_listI32 (values : List Int32) :
    ReadsBack readListI32 (writeListI32 values) values :=
  parses_writeListOf values writeZigzagI32_ne_nil parses_zigzagI32

theorem parses_listBinary (items : List Bytes) :
    ReadsBack readListBinary (writeListBinary items) items :=
  parses_writeListOf items writeBinary_ne_nil parses_binary

end

end EmatixParquet
