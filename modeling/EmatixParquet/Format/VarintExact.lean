/-
  Which varints are read exactly — the readers of `compact.rs` against the number
  that the LEB128 groups denote.

  The accumulator keeps 64 bits, of the tenth group only the lowest, and the
  narrower readers cast its number down.  What is read is the number modulo the
  width of the result.

  * `run_readZigzagI64_uleb128` and its siblings: what each reader returns for
    any number of at most ten groups;
  * `varintReads_exact_iff`: each is exact on the numbers below its bound, and on
    no other.
-/
import EmatixParquet.Format.Compact

namespace EmatixParquet

open Wire

/-! ## What is read -/

section
variable {bs : Bytes} {n : ℕ}

theorem run_readZigzagI64_uleb128 (h : Uleb128 bs n) (hlen : bs.length ≤ 10) (t : Bytes) :
    ∃ v, readZigzagI64.run (bs ++ t) = .ok (v, t) ∧ v.toInt = zigzagInt (n % 2 ^ 64) := by
  have hu : (UInt64.ofNat n).toNat = n % 2 ^ 64 := UInt64.toNat_ofNat'
  refine ⟨_, by rw [readZigzagI64, Reader.run_map, run_readUvarint_uleb128 h hlen], ?_⟩
  rw [← hu]
  exact toInt_unzigzag (by decide) (UInt64.ofNat n).toBitVec

theorem run_readZigzagI32_uleb128 (h : Uleb128 bs n) (hlen : bs.length ≤ 10) (t : Bytes) :
    ∃ v, readZigzagI32.run (bs ++ t) = .ok (v, t) ∧ v.toInt = zigzagInt (n % 2 ^ 32) := by
  have hu : (UInt64.ofNat n).toUInt32.toNat = n % 2 ^ 32 := by
    rw [UInt64.toNat_toUInt32, UInt64.toNat_ofNat', Nat.mod_mod_of_dvd n (by decide)]
  refine ⟨_, by rw [readZigzagI32, Reader.run_map, run_readUvarint_uleb128 h hlen], ?_⟩
  rw [← hu]
  exact toInt_unzigzag (by decide) (UInt64.ofNat n).toUInt32.toBitVec

theorem run_readZigzagI16_uleb128 (h : Uleb128 bs n) (hlen : bs.length ≤ 10) (t : Bytes) :
    ∃ v, readZigzagI16.run (bs ++ t) = .ok (v, t) ∧
      v.toInt = (zigzagInt (n % 2 ^ 32)).bmod (2 ^ 16) := by
  obtain ⟨v, hv, hval⟩ := run_readZigzagI32_uleb128 h hlen t
  refine ⟨v.toInt16, by rw [readZigzagI16, Reader.run_map, hv], ?_⟩
  rw [Int32.toInt_toInt16, hval]

/-- A header byte without a delta is followed by the id. -/
theorem run_readFieldHeader_long (ty : FieldType) (prevId : Int16) (bs : Bytes) :
    (readFieldHeader prevId).run (ty.code :: bs)
      = ((fun z : Int32 => some ⟨z.toInt16, ty⟩) <$> readZigzagI32).run bs := by
  have hpack : (UInt8.ofNat (0 : Fin 16).val <<< 4) ||| ty.code = ty.code := by cases ty <;> rfl
  obtain ⟨hne, hlow, hhigh⟩ := nibbles_of_pack 0 ty
  rw [hpack] at hne hlow hhigh
  have hzero : UInt8.ofNat (0 : Fin 16).val = 0 := rfl
  rw [readFieldHeader, Reader.run_bind_ok (run_readU8_cons _ _), if_neg hne]
  simp only [hlow, hhigh, hzero, decodeFieldType_code, Reader.lift_ok, pure_bind, if_true]
  rfl

end

/-! ## Exactness -/

section
variable {α : Type}

/-- Whatever is read is the number that the consumed groups denote. -/
def ExactRead (r : CursorM α) (toInt : α → ℤ) (value : ℕ → ℤ) (input : Bytes) : Prop :=
  ∀ v rest, r.run input = .ok (v, rest) →
    ∃ bs n, input = bs ++ rest ∧ Uleb128 bs n ∧ toInt v = value n

/-- The number at the head of the input, if there is one of at most ten groups,
    is below the bound. -/
def LeadingBelow (bound : ℕ) (input : Bytes) : Prop :=
  ∀ bs n rest, input = bs ++ rest → Uleb128 bs n → bs.length ≤ 10 → n < bound

/-- A reader that takes one number of at most ten groups and is exact for the
    numbers below a bound only. -/
structure ReadsBelow (r : CursorM α) (toInt : α → ℤ) (value : ℕ → ℤ) (bound : ℕ) : Prop where
  number : ∀ {input v rest}, r.run input = .ok (v, rest) →
    ∃ bs n, input = bs ++ rest ∧ Uleb128 bs n ∧ bs.length ≤ 10
  run : ∀ {bs n}, Uleb128 bs n → bs.length ≤ 10 → ∀ t,
    ∃ v, r.run (bs ++ t) = .ok (v, t) ∧ (toInt v = value n ↔ n < bound)

theorem ReadsBelow.exact_iff {r : CursorM α} {toInt : α → ℤ} {value : ℕ → ℤ} {bound : ℕ}
    (h : ReadsBelow r toInt value bound) (input : Bytes) :
    ExactRead r toInt value input ↔ LeadingBelow bound input := by
  constructor
  · intro hexact bs n rest hinput hbs hlen
    obtain ⟨v, hrun, hiff⟩ := h.run hbs hlen rest
    obtain ⟨bs', n', hinput', hbs', hval⟩ := hexact v rest (hinput ▸ hrun)
    obtain ⟨-, rfl, -⟩ := hbs.unique hbs' (hinput.symm.trans hinput')
    exact hiff.mp hval
  · intro hbelow v rest hrun
    obtain ⟨bs, n, rfl, hbs, hlen⟩ := h.number hrun
    obtain ⟨v', hrun', hiff⟩ := h.run hbs hlen rest
    rw [hrun] at hrun'
    cases hrun'
    exact ⟨bs, n, rfl, hbs, hiff.mpr (hbelow bs n rest rfl hbs hlen)⟩

/-- A reader behind `read_uvarint`. -/
theorem number_of_map {β : Type} {r : CursorM α} (f : α → β)
    (hr : ∀ {input v rest}, r.run input = .ok (v, rest) →
      ∃ bs n, input = bs ++ rest ∧ Uleb128 bs n ∧ bs.length ≤ 10)
    {input rest : Bytes} {v : β} (h : (f <$> r).run input = .ok (v, rest)) :
    ∃ bs n, input = bs ++ rest ∧ Uleb128 bs n ∧ bs.length ≤ 10 := by
  rw [Reader.run_map] at h
  split at h
  · cases h
  · next hrun =>
    cases h
    exact hr hrun

end

theorem zigzagInt_mod_iff {n k : ℕ} : zigzagInt (n % 2 ^ k) = zigzagInt n ↔ n < 2 ^ k := by
  constructor
  · intro h
    rw [← zigzagInt_injective h]
    exact Nat.mod_lt _ (Nat.two_pow_pos k)
  · exact fun h => by rw [Nat.mod_eq_of_lt h]

/-- Cast down to 16 bits, a code is right if it is one of 16 bits. -/
theorem bmod_zigzagInt_iff {n : ℕ} :
    (zigzagInt (n % 2 ^ 32)).bmod (2 ^ 16) = zigzagInt n ↔ n < 2 ^ 16 := by
  constructor
  · intro h
    refine zigzagInt_range (k := 15) |>.mp ?_
    rw [← h]
    have hlo := Int.le_bmod (x := zigzagInt (n % 2 ^ 32)) (m := 2 ^ 16) (by decide)
    have hhi := Int.bmod_lt (x := zigzagInt (n % 2 ^ 32)) (m := 2 ^ 16) (by decide)
    exact ⟨hlo, hhi⟩
  · intro h
    obtain ⟨hlo, hhi⟩ := zigzagInt_range (k := 15) |>.mpr h
    rw [Nat.mod_eq_of_lt (h.trans (by decide))]
    exact Int.bmod_eq_of_le hlo hhi

theorem readsBelow_uvarint :
    ReadsBelow readUvarint (fun v => (v.toNat : ℤ)) (fun n => (n : ℤ)) (2 ^ 64) where
  number := uleb128_of_readUvarintFrom
  run {bs n} hbs hlen t := by
    refine ⟨_, run_readUvarint_uleb128 hbs hlen t, ?_⟩
    rw [Nat.cast_inj, UInt64.toNat_ofNat']
    exact ⟨fun h => h ▸ Nat.mod_lt n (by decide), Nat.mod_eq_of_lt⟩

theorem readsBelow_zigzagI64 : ReadsBelow readZigzagI64 Int64.toInt zigzagInt (2 ^ 64) where
  number h := number_of_map _ uleb128_of_readUvarintFrom h
  run hbs hlen t := by
    obtain ⟨v, hrun, hval⟩ := run_readZigzagI64_uleb128 hbs hlen t
    exact ⟨v, hrun, by rw [hval, zigzagInt_mod_iff]⟩

theorem readsBelow_zigzagI32 : ReadsBelow readZigzagI32 Int32.toInt zigzagInt (2 ^ 32) where
  number h := number_of_map _ uleb128_of_readUvarintFrom h
  run hbs hlen t := by
    obtain ⟨v, hrun, hval⟩ := run_readZigzagI32_uleb128 hbs hlen t
    exact ⟨v, hrun, by rw [hval, zigzagInt_mod_iff]⟩

theorem readsBelow_zigzagI16 : ReadsBelow readZigzagI16 Int16.toInt zigzagInt (2 ^ 16) where
  number h := number_of_map _ (fun h => number_of_map _ uleb128_of_readUvarintFrom h) h
  run hbs hlen t := by
    obtain ⟨v, hrun, hval⟩ := run_readZigzagI16_uleb128 hbs hlen t
    exact ⟨v, hrun, by rw [hval, bmod_zigzagInt_iff]⟩

/-- The id behind a header byte without a delta is the number that follows. -/
def ExactLongId (ty : FieldType) (prevId : Int16) (input : Bytes) : Prop :=
  ∀ h rest, (readFieldHeader prevId).run (ty.code :: input) = .ok (some h, rest) →
    ∃ bs n, input = bs ++ rest ∧ Uleb128 bs n ∧ h.id.toInt = zigzagInt n

theorem exactLongId_iff (ty : FieldType) (prevId : Int16) (input : Bytes) :
    ExactLongId ty prevId input ↔ ExactRead readZigzagI16 Int16.toInt zigzagInt input := by
  rw [ExactLongId, run_readFieldHeader_long, ExactRead, readZigzagI16]
  simp only [Reader.run_map]
  cases readZigzagI32.run input with
  | error e => simp
  | ok p =>
    obtain ⟨z, rest⟩ := p
    constructor
    · intro h v rest' hrun
      cases hrun
      exact h ⟨z.toInt16, ty⟩ rest rfl
    · intro h fh rest' hrun
      cases hrun
      exact h z.toInt16 rest rfl

/-- **Varint reads** are exact for the numbers that the result holds, and for no
    other: ten groups hold more than 64 bits, and the narrower readers cast. -/
theorem varintReads_exact_iff (ty : FieldType) (prevId : Int16) (input : Bytes) :
    (ExactRead readUvarint (fun v => (v.toNat : ℤ)) (fun n => (n : ℤ)) input
      ↔ LeadingBelow (2 ^ 64) input) ∧
    (ExactRead readZigzagI64 Int64.toInt zigzagInt input ↔ LeadingBelow (2 ^ 64) input) ∧
    (ExactRead readZigzagI32 Int32.toInt zigzagInt input ↔ LeadingBelow (2 ^ 32) input) ∧
    (ExactRead readZigzagI16 Int16.toInt zigzagInt input ↔ LeadingBelow (2 ^ 16) input) ∧
    (ExactLongId ty prevId input ↔ LeadingBelow (2 ^ 16) input) :=
  ⟨readsBelow_uvarint.exact_iff input, readsBelow_zigzagI64.exact_iff input,
    readsBelow_zigzagI32.exact_iff input, readsBelow_zigzagI16.exact_iff input,
    (exactLongId_iff ty prevId input).trans (readsBelow_zigzagI16.exact_iff input)⟩

/-- A number from the bound on, in up to ten groups. -/
theorem not_exactRead {α : Type} {r : CursorM α} {toInt : α → ℤ} {value : ℕ → ℤ} {bound n : ℕ}
    {bs : Bytes} (h : ReadsBelow r toInt value bound) (hbs : Uleb128 bs n) (hlen : bs.length ≤ 10)
    (hn : bound ≤ n) : ¬ ExactRead r toInt value bs := by
  rw [h.exact_iff]
  intro hbelow
  have := hbelow bs n [] (List.append_nil bs).symm hbs hlen
  omega

/-- Groups of zeros that go on. -/
theorem uleb128_zeros (k : ℕ) {b : UInt8} (hb : b.toNat < 128) :
    Uleb128 (List.replicate k 0x80 ++ [b]) (128 ^ k * b.toNat) := by
  induction k with
  | zero => simpa using Uleb128.last hb
  | succ k ih =>
    have h := @Uleb128.more 0x80 _ _ (by decide) ih
    rwa [show (0x80 : UInt8).toNat - 128 = 0 from rfl, Nat.zero_add, ← Nat.mul_assoc,
      ← Nat.pow_succ'] at h

/-- The numbers 2 to the 64, 32 and 16 are read as 0, 0 and -32768. -/
theorem varintReads_reduced :
    (readUvarint.run [0x80, 0x80, 0x80, 0x80, 0x80, 0x80, 0x80, 0x80, 0x80, 0x02] = .ok (0, []) ∧
      ¬ ExactRead readUvarint (fun v => (v.toNat : ℤ)) (fun n => (n : ℤ))
        [0x80, 0x80, 0x80, 0x80, 0x80, 0x80, 0x80, 0x80, 0x80, 0x02]) ∧
    (readZigzagI32.run [0x80, 0x80, 0x80, 0x80, 0x10] = .ok (0, []) ∧
      ¬ ExactRead readZigzagI32 Int32.toInt zigzagInt [0x80, 0x80, 0x80, 0x80, 0x10]) ∧
    (readZigzagI16.run [0x80, 0x80, 0x04] = .ok (-32768, []) ∧
      ¬ ExactRead readZigzagI16 Int16.toInt zigzagInt [0x80, 0x80, 0x04]) ∧
    (readFieldHeader 0).run [0x05, 0x80, 0x80, 0x04] = .ok (some ⟨-32768, .i32⟩, []) ∧
      ¬ ExactLongId .i32 0 [0x80, 0x80, 0x04] := by
  have h64 := @uleb128_zeros 9 2 (by decide)
  have h32 := @uleb128_zeros 4 0x10 (by decide)
  have h16 := @uleb128_zeros 2 4 (by decide)
  have hi16 := not_exactRead readsBelow_zigzagI16 h16 (by decide) (by decide)
  exact ⟨⟨by decide, not_exactRead readsBelow_uvarint h64 (by decide) (by decide)⟩,
    ⟨by decide, not_exactRead readsBelow_zigzagI32 h32 (by decide) (by decide)⟩,
    ⟨by decide, hi16⟩, by decide, (exactLongId_iff .i32 0 _).not.mpr hi16⟩

end EmatixParquet
