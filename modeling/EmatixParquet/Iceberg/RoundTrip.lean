/-
  What is read of an extension that was written.

  The parser hears a character after an escape as one character for each of its
  bytes, so a string is read back if and only if it is legible: clean, and ASCII
  from the first escape on (`heardString_eq_ok`).  An extension is read as its
  strings are heard (`fromJson_toJson`); numbers and byte strings are read back.
-/
import EmatixParquet.Iceberg.Extension
import EmatixParquet.Json.Syntax

namespace EmatixParquet

open Wire

/-! ## Strings -/

/-- A character, byte by byte. -/
def bytewise (c : Char) : List Char := (String.utf8EncodeChar c).map asChar

theorem stringLoop_laterByte {s : StringState} {w : Bytes} (hout : s.out ≠ "")
    (hw : ∀ b ∈ w, isPlainByte b = true) (t : Bytes) :
    ((stringLoop laterByte).run s).run (w ++ t)
      = ((stringLoop laterByte).run { s with out := s.out ++ String.ofList (w.map asChar) }).run t := by
  induction w generalizing s with
  | nil => simp
  | cons b w ih =>
    have hb := hw b List.mem_cons_self
    simp only [isPlainByte, Bool.and_eq_true, decide_eq_true_eq] at hb
    have hstep : ((stringLoop laterByte).step s).run (b :: (w ++ t))
        = .ok (.inl { s with out := s.out ++ String.singleton (asChar b) }, w ++ t) := by
      change (s.byte laterByte b).run _ = _
      rw [StringState.byte, if_neg hb.1, if_neg hb.2, Reader.run_map, StringState.accumulate,
        if_neg hout]
      rfl
    rw [List.cons_append, (stringLoop laterByte).run_of_inl hstep,
      ih (by simp) fun b hb => hw b (List.mem_cons_of_mem _ hb), List.map_cons,
      ← List.singleton_append, String.ofList_append, ← String.append_assoc,
      String.singleton_eq_ofList]

theorem laterByte_hears : Hears laterByte bytewise := by
  intro s cs t hout hcs _
  have hchars : (encode cs).map asChar = cs.flatMap bytewise := by
    rw [encode, List.map_flatMap]
    rfl
  rw [stringLoop_laterByte hout (isPlainByte_of_plain hcs), hchars]

/-- Clean, and ASCII from the first escape on. -/
def Legible (v : String) : Prop :=
  Clean v ∧ ∀ c ∈ v.toList.dropWhile fun c => PlainChar c, c.toNat < 128

instance : DecidablePred Legible := fun _ => inferInstanceAs (Decidable (_ ∧ _))

theorem bytewise_ascii {c : Char} (h : c.toNat < 128) : bytewise c = [c] := by
  rw [bytewise, encodeChar_ascii h, List.map_singleton, asChar,
    UInt8.toNat_ofNat_of_lt' (show c.toNat < 2 ^ 8 by omega), Char.ofNat_toNat]

theorem length_bytewise (c : Char) : (bytewise c).length = (String.utf8EncodeChar c).length :=
  List.length_map _

theorem length_bytewise_high {c : Char} (h : 128 ≤ c.toNat) : 2 ≤ (bytewise c).length := by
  have hnot : ¬ c.val.toNat ≤ 127 := by change ¬ c.toNat ≤ 127; omega
  simp only [length_bytewise, String.utf8EncodeChar, hnot, if_false]
  split
  · simp
  · split <;> simp

/-- Nothing is lost. -/
theorem length_heardFrom {esc : Bool} {cs l : List Char} (h : heardFrom bytewise esc cs = some l) :
    cs.length ≤ l.length := by
  induction cs generalizing esc l with
  | nil => exact Nat.zero_le _
  | cons c cs ih =>
    rw [heardFrom] at h
    split at h
    · obtain ⟨l', hl', rfl⟩ := Option.map_eq_some_iff.mp h
      have hpos : 1 ≤ (if esc then bytewise c else [c]).length := by
        cases esc with
        | false => simp
        | true =>
          rw [if_pos rfl, length_bytewise]
          exact List.length_pos_of_ne_nil String.utf8EncodeChar_ne_nil
      have := ih hl'
      rw [List.length_append, List.length_cons]
      omega
    · split at h
      · obtain ⟨l', hl', rfl⟩ := Option.map_eq_some_iff.mp h
        simpa using ih hl'
      · cases h

/-- After an escape. -/
theorem heardFrom_true (cs : List Char) : heardFrom bytewise true cs = some cs ↔
    (∀ c ∈ cs, CleanChar c) ∧ ∀ c ∈ cs, c.toNat < 128 := by
  induction cs with
  | nil => simp [heardFrom]
  | cons c cs ih =>
    rw [heardFrom, List.forall_mem_cons, List.forall_mem_cons]
    by_cases hplain : PlainChar c
    · have hclean : CleanChar c := .inl hplain.1
      rw [if_pos hplain, if_pos rfl, Option.map_eq_map, Option.map_eq_some_iff]
      constructor
      · rintro ⟨l, hl, heq⟩
        have hlt : c.toNat < 128 := by
          by_contra hge
          have hlen := congrArg List.length heq
          rw [List.length_append, List.length_cons] at hlen
          have := length_bytewise_high (Nat.le_of_not_lt hge)
          have := length_heardFrom hl
          omega
        rw [bytewise_ascii hlt, List.singleton_append, List.cons.injEq] at heq
        obtain ⟨hcs, hascii⟩ := ih.mp (heq.2 ▸ hl)
        exact ⟨⟨hclean, hcs⟩, hlt, hascii⟩
      · rintro ⟨⟨-, hcs⟩, hlt, hascii⟩
        exact ⟨cs, ih.mpr ⟨hcs, hascii⟩, by rw [bytewise_ascii hlt, List.singleton_append]⟩
    · rw [if_neg hplain]
      by_cases hclean : CleanChar c
      · have hlt : c.toNat < 128 := by
          rcases hclean with h | rfl | rfl | rfl
          · by_contra hge
            exact hplain ⟨h, by rintro rfl; exact hge (by decide), by rintro rfl; exact hge (by decide)⟩
          all_goals decide
        rw [if_pos hclean, Option.map_eq_map, Option.map_eq_some_iff]
        simp only [List.cons.injEq, true_and, exists_eq_right, ih, hclean, hlt]
      · simp [hclean]

/-- Before the first escape. -/
theorem heardFrom_false (cs : List Char) : heardFrom bytewise false cs = some cs ↔
    (∀ c ∈ cs, CleanChar c) ∧ ∀ c ∈ cs.dropWhile fun c => PlainChar c, c.toNat < 128 := by
  induction cs with
  | nil => simp [heardFrom]
  | cons c cs ih =>
    by_cases hplain : PlainChar c
    · have hclean : CleanChar c := .inl hplain.1
      rw [heardFrom, if_pos hplain, List.dropWhile_cons_of_pos (by simpa using hplain), Option.map_eq_map,
        Option.map_eq_some_iff, List.forall_mem_cons]
      simp only [Bool.false_eq_true, if_false, List.singleton_append, List.cons.injEq, true_and,
        exists_eq_right, ih, hclean]
    · have htrue := heardFrom_true (c :: cs)
      rw [heardFrom, if_neg hplain] at htrue ⊢
      rw [List.dropWhile_cons_of_neg (by simpa using hplain)]
      exact htrue

/-- **Strings**: legible ones are read back. -/
theorem heardString_eq_ok (v : String) :
    heardString bytewise v = (.ok v : Except IcebergIndexError String) ↔ Legible v := by
  rw [Legible, Clean, ← heardFrom_false, heardString]
  cases heardFrom bytewise false v.toList with
  | none => simp
  | some l =>
    simp only [Except.ok.injEq, Option.some.injEq]
    constructor
    · rintro rfl
      exact (String.toList_ofList ..).symm
    · rintro rfl
      exact String.ofList_toList ..

theorem reads_extensionStr {follow : Bytes → Prop} (len : ℕ) (v : String) :
    Reads follow (heardString bytewise v) (jsonStr extensionJson len) (asBytes (jsonString v)) :=
  reads_stringWith laterByte_hears len v

/-- A constant that the writer puts between quotes. -/
theorem reads_legible {follow : Bytes → Prop} (len : ℕ) {v : String} (hv : Legible v) :
    Reads follow (.ok v) (jsonStr extensionJson len) (asBytes (jsonString v)) := by
  have hread := @reads_extensionStr follow len v
  rwa [(heardString_eq_ok v).mpr hv] at hread

/-! ## Numbers -/

/-- What is made of the text of a number. -/
def extNumber (raw : String) : Except IcebergIndexError Int64 :=
  match parseI64 raw with
  | .ok v => .ok v
  | .error e => .error (.malformed s!"i64 parse `{raw}`: {e.display}")

@[simp] theorem integerChars_true (ds : List Char) :
    encode (integerChars true ds) = 0x2D :: encode ds := by
  rw [integerChars, if_pos rfl, encode_append]
  rfl

@[simp] theorem integerChars_false (ds : List Char) : integerChars false ds = ds := rfl

theorem isDigitByte_of_digit {c : Char} (h : c.isDigit = true) :
    String.utf8EncodeChar c = [UInt8.ofNat c.toNat] ∧ isDigitByte (UInt8.ofNat c.toNat) = true := by
  obtain ⟨hlo, hhi⟩ := isDigit_range h
  refine ⟨encodeChar_ascii (by omega), ?_⟩
  rw [isDigitByte, Bool.and_eq_true, decide_eq_true_eq, decide_eq_true_eq, UInt8.le_iff_toNat_le,
    UInt8.le_iff_toNat_le, UInt8.toNat_ofNat_of_lt' (show c.toNat < 2 ^ 8 by omega)]
  exact ⟨hlo, hhi⟩

/-- **Integers**, up to the first byte that is not a digit. -/
theorem reads_extI64 {negative : Bool} {digits : List Char} (hne : digits ≠ [])
    (hdigits : ∀ c ∈ digits, c.isDigit = true) :
    Reads (fun t => ∀ b ∈ t.head?, isDigitByte b = false)
      (extNumber (String.ofList (integerChars negative digits))) extI64
      (encode (integerChars negative digits)) := by
  intro t ht
  have hbytes : ∀ b ∈ encode digits, isDigitByte b = true := by
    intro b hb
    obtain ⟨c, hc, hb⟩ := List.mem_flatMap.mp hb
    obtain ⟨henc, hdigit⟩ := isDigitByte_of_digit (hdigits c hc)
    rw [henc, List.mem_singleton] at hb
    rw [hb]
    exact hdigit
  obtain ⟨b, w, hw⟩ : ∃ b w, encode digits = b :: w := by
    obtain ⟨c, cs, rfl⟩ := List.exists_cons_of_ne_nil hne
    rw [encode_cons, (isDigitByte_of_digit (hdigits c List.mem_cons_self)).1]
    exact ⟨_, _, rfl⟩
  have hb : isDigitByte b = true := hbytes b (hw ▸ List.mem_cons_self)
  have hsolid : Solid (encode (integerChars negative digits) ++ t) := by
    cases negative with
    | true =>
      rw [integerChars_true]
      exact solid_cons (by decide)
    | false =>
      rw [integerChars_false, hw]
      refine solid_cons ?_
      by_contra hspace
      rw [Bool.not_eq_false, isJsonSpace_iff] at hspace
      revert hb
      rcases hspace with rfl | rfl | rfl | rfl <;> decide
  have hsign : (consumeIf 0x2D : ExtM Bool).run (encode (integerChars negative digits) ++ t)
      = .ok (negative, encode digits ++ t) := by
    rw [consumeIf_eq]
    cases negative with
    | true => simp
    | false =>
      have hne : b ≠ 0x2D := by
        rintro rfl
        exact absurd hb (by decide)
      rw [integerChars_false, hw, List.cons_append, List.head?_cons,
        if_neg fun h => hne (Option.some.inj h)]
  have hraw : (if negative then [0x2D] else []) ++ encode digits
      = encode (integerChars negative digits) := by
    cases negative <;> simp
  rw [extI64, Reader.run_bind_ok (skipWs_solid hsolid), Reader.run_bind_ok hsign,
    Reader.run_bind_ok (Reader.run_takeWhile_append isDigitByte hbytes ht), hraw, utf8,
    fromUtf8_encode, extNumber]
  dsimp only
  rw [pure_bind]
  cases parseI64 (String.ofList (integerChars negative digits)) <;> rfl

theorem not_digit_of_ended {t : Bytes} (ht : Ended t) : ∀ b ∈ t.head?, isDigitByte b = false := by
  intro b hb
  rcases ht b hb with rfl | rfl | rfl | rfl | hspace
  · decide
  · decide
  · decide
  · decide
  · rcases isJsonSpace_iff.mp hspace with rfl | rfl | rfl | rfl <;> decide

theorem reads_integer (n : Int64) : Reads Ended (.ok n) extI64 (asBytes (toString n.toInt)) := by
  obtain ⟨negative, digits, htext, hne, hdigits⟩ : ∃ negative digits,
      (toString n.toInt).toList = integerChars negative digits ∧ digits ≠ [] ∧
        ∀ c ∈ digits, c.isDigit = true := by
    have hdigit : ∀ k : ℕ, ∀ c ∈ Nat.toDigits 10 k, c.isDigit = true :=
      fun k c hc => Nat.isDigit_of_mem_toDigits (by decide) (by decide) hc
    rw [toList_toString_int]
    split
    · exact ⟨false, _, rfl, Nat.toDigits_ne_nil, hdigit _⟩
    · exact ⟨true, _, rfl, Nat.toDigits_ne_nil, hdigit _⟩
  have hread := @reads_extI64 negative _ hne hdigits
  rw [← htext, String.ofList_toList, ← asBytes_eq_encode, extNumber, parseI64_toString] at hread
  exact hread.mono fun t ht => not_digit_of_ended ht

/-! ## Byte strings -/

theorem hexDigit_nibble : ∀ n < 16, PlainChar (hexDigit n) ∧ (hexDigit n).toNat < 128 ∧
    String.utf8EncodeChar (hexDigit n) = [UInt8.ofNat (hexDigit n).toNat] ∧
    hexNibble (UInt8.ofNat (hexDigit n).toNat) = .ok (UInt8.ofNat n) := by
  decide +kernel

theorem mem_hexPair {b : UInt8} {c : Char} (h : c ∈ hexPair b) : ∃ n < 16, c = hexDigit n := by
  have := b.toNat_lt
  simp only [hexPair, List.mem_cons, List.not_mem_nil, or_false] at h
  rcases h with rfl | rfl
  · exact ⟨_, by omega, rfl⟩
  · exact ⟨_, by omega, rfl⟩

theorem mem_hexBytes {bs : Bytes} {c : Char} (h : c ∈ bs.flatMap hexPair) :
    ∃ n < 16, c = hexDigit n := by
  obtain ⟨b, -, hc⟩ := List.mem_flatMap.mp h
  exact mem_hexPair hc

theorem writeHex_legible (bs : Bytes) : Legible (writeHex bs) := by
  have hplain : ∀ c ∈ (writeHex bs).toList, PlainChar c := by
    intro c hc
    rw [writeHex, String.toList_ofList] at hc
    obtain ⟨n, hn, rfl⟩ := mem_hexBytes hc
    exact (hexDigit_nibble n hn).1
  refine ⟨fun c hc => .inl (hplain c hc).1, fun c hc => ?_⟩
  have hnone : (writeHex bs).toList.dropWhile (fun c => PlainChar c) = [] := by
    have happ := @List.dropWhile_append_of_pos _ (fun c => decide (PlainChar c)) (writeHex bs).toList []
      fun c hc => by simpa using hplain c hc
    simpa using happ
  rw [hnone] at hc
  cases hc

/-- Hexadecimal digits are put between quotes as they are. -/
theorem jsonString_writeHex (bs : Bytes) : jsonString (writeHex bs) = "\"" ++ (writeHex bs ++ "\"") := by
  have hplain : ∀ l : List Char, (∀ c ∈ l, PlainChar c) → l.flatMap escapeChar = l := by
    intro l hl
    induction l with
    | nil => rfl
    | cons c l ih =>
      rw [List.flatMap_cons, escapeChar_plain (hl c List.mem_cons_self),
        ih fun c hc => hl c (List.mem_cons_of_mem _ hc), List.singleton_append]
  have hhex : ∀ c ∈ bs.flatMap hexPair, PlainChar c := by
    intro c hc
    obtain ⟨n, hn, rfl⟩ := mem_hexBytes hc
    exact (hexDigit_nibble n hn).1
  rw [jsonString, writeHex, String.toList_ofList, hplain _ hhex, String.append_assoc]

theorem nibbles (b : UInt8) :
    (UInt8.ofNat (b.toNat / 16) <<< 4) ||| UInt8.ofNat (b.toNat % 16) = b := by
  have hlt := b.toNat_lt
  have hor : (b.toNat / 16) <<< 4 ||| b.toNat % 16 = b.toNat := by
    rw [← Nat.shiftLeft_add_eq_or_of_lt (by omega), Nat.shiftLeft_eq]
    omega
  apply UInt8.toNat_inj.mp
  rw [UInt8.toNat_or, UInt8.toNat_shiftLeft, UInt8.toNat_ofNat_of_lt' (show b.toNat / 16 < 2 ^ 8 by omega),
    UInt8.toNat_ofNat_of_lt' (show b.toNat % 16 < 2 ^ 8 by omega), Nat.mod_eq_of_lt (b := 2 ^ 8)]
  · exact hor
  · change (b.toNat / 16) <<< 4 < 2 ^ 8
    rw [Nat.shiftLeft_eq]
    omega

theorem parseHexPairs_hexPair (bs : Bytes) : parseHexPairs (encode (bs.flatMap hexPair)) = .ok bs := by
  induction bs with
  | nil => rfl
  | cons b bs ih =>
    have := b.toNat_lt
    obtain ⟨-, -, hhi, hhi'⟩ := hexDigit_nibble (b.toNat / 16) (by omega)
    obtain ⟨-, -, hlo, hlo'⟩ := hexDigit_nibble (b.toNat % 16) (by omega)
    rw [List.flatMap_cons, encode_append, hexPair, encode_cons, encode_cons, hhi, hlo]
    simp only [encode_nil, List.append_nil, List.cons_append, List.nil_append]
    rw [parseHexPairs, hhi', hlo', ih]
    change Except.ok (_ :: bs) = _
    rw [nibbles]

theorem length_hexBytes (bs : Bytes) : (encode (bs.flatMap hexPair)).length = 2 * bs.length := by
  induction bs with
  | nil => rfl
  | cons b bs ih =>
    have := b.toNat_lt
    obtain ⟨-, -, hhi, -⟩ := hexDigit_nibble (b.toNat / 16) (by omega)
    obtain ⟨-, -, hlo, -⟩ := hexDigit_nibble (b.toNat % 16) (by omega)
    rw [List.flatMap_cons, encode_append, hexPair, encode_cons, encode_cons, hhi, hlo,
      List.length_append, ih]
    simp
    omega

theorem parseHex_writeHex (bs : Bytes) : parseHex (writeHex bs) = .ok bs := by
  have hbytes : asBytes (writeHex bs) = encode (bs.flatMap hexPair) := by
    rw [asBytes_eq_encode, writeHex, String.toList_ofList]
  rw [parseHex, hbytes, length_hexBytes, if_neg (by omega), parseHexPairs_hexPair]

theorem reads_hexStr {follow : Bytes → Prop} (len : ℕ) (bs : Bytes) :
    Reads follow (.ok bs) (hexStr len) (asBytes (jsonString (writeHex bs))) := by
  refine (reads_legible len (writeHex_legible bs)).bind_pure rfl ?_
  rw [parseHex_writeHex, Reader.lift_ok]

/-! ## Keys -/

section
variable {σ α : Type} {member : String → σ → ExtM σ} (len : ℕ)

/-- A member whose value is read into the state. -/
theorem isExtMember (key : String) (hkey : Legible key) {r : ExtM α} {x : Except IcebergIndexError α}
    {w : Bytes} (h : Reads Ended x r w) {store : σ → α → σ}
    (hmember : ∀ s, member key s = store s <$> r) :
    IsMember extensionJson len member (memberText key w) fun s => store s <$> x := by
  refine @isMember _ _ σ extensionJson _ laterByte_hears len key ?_ member _ w fun s => ?_
  · exact (heardFrom_false _).mpr hkey
  · rw [hmember]
    exact h.map _

end

/-- The members of a key. -/
def SummaryKey.members : SummaryKey → List String
  | i64 v => [memberString "type" (jsonString "i64"), memberString "value" (toString v.toInt)]
  | i32 v => [memberString "type" (jsonString "i32"), memberString "value" (toString v.toInt)]
  | bytes b => [memberString "type" (jsonString "bytes"), memberString "value_hex" (jsonString (writeHex b))]

theorem asBytes_writeKey (k : SummaryKey) :
    asBytes k.write = 0x7B :: (joinComma (k.members.map asBytes) ++ [0x7D]) := by
  have hclose : asBytes "\x7d" = [0x7D] := by decide
  have hi64 : asBytes "\x7b\"type\":\"i64\",\"value\":" = 0x7B ::
      (asBytes (memberString "type" (jsonString "i64")) ++ 0x2C :: (asBytes (jsonString "value") ++ [0x3A])) := by
    decide +kernel
  have hi32 : asBytes "\x7b\"type\":\"i32\",\"value\":" = 0x7B ::
      (asBytes (memberString "type" (jsonString "i32")) ++ 0x2C :: (asBytes (jsonString "value") ++ [0x3A])) := by
    decide +kernel
  have hhex : asBytes "\x7b\"type\":\"bytes\",\"value_hex\":\"" = 0x7B ::
      (asBytes (memberString "type" (jsonString "bytes"))
        ++ 0x2C :: (asBytes (jsonString "value_hex") ++ 0x3A :: asBytes "\"")) := by
    decide +kernel
  have hquote : asBytes "\"\x7d" = asBytes "\"" ++ [0x7D] := by decide
  cases k with
  | i64 v =>
    unfold SummaryKey.write SummaryKey.members
    generalize toString v.toInt = a
    simp only [asBytes_append, hi64, hclose, List.map_cons, List.map_nil, joinComma,
      asBytes_memberString, memberText]
    simp only [List.cons_append, List.append_assoc, List.nil_append]
  | i32 v =>
    unfold SummaryKey.write SummaryKey.members
    generalize toString v.toInt = a
    simp only [asBytes_append, hi32, hclose, List.map_cons, List.map_nil, joinComma,
      asBytes_memberString, memberText]
    simp only [List.cons_append, List.append_assoc, List.nil_append]
  | bytes b =>
    unfold SummaryKey.write SummaryKey.members
    dsimp only
    rw [jsonString_writeHex]
    simp only [asBytes_append, hhex, hquote, List.map_cons, List.map_nil, joinComma,
      asBytes_memberString, memberText]
    simp only [List.cons_append, List.append_assoc]

/-- **Keys** are read back. -/
theorem reads_key {follow : Bytes → Prop} (len : ℕ) (k : SummaryKey) :
    Reads follow (.ok k) (parseSummaryKey len) (asBytes k.write) := by
  have htype : ∀ typ, Legible typ → IsMember extensionJson len (KeyFields.read len)
      (memberText "type" (asBytes (jsonString typ)))
      fun s => (fun v => { s with typ := some v }) <$> .ok typ :=
    fun typ htyp => isExtMember len "type" (by decide) (reads_legible len htyp)
      fun s => KeyFields.read.eq_1 len s
  rw [asBytes_writeKey]
  cases k with
  | i64 v =>
    have hvalue := isExtMember len "value" (by decide) (reads_integer v)
      fun s => KeyFields.read.eq_2 len s
    have hobject := @reads_object _ _ follow KeyFields extensionJson len (KeyFields.read len) _ _
      (.cons (htype "i64" (by decide)) (.cons hvalue .nil)) {}
    exact hobject.bind_pure rfl rfl
  | i32 v =>
    have hwide : v.toInt64.toInt = v.toInt := Int32.toInt_toInt64 v
    have hinteger := reads_integer v.toInt64
    rw [hwide] at hinteger
    have hvalue := isExtMember len "value" (by decide) hinteger fun s => KeyFields.read.eq_2 len s
    have hobject := @reads_object _ _ follow KeyFields extensionJson len (KeyFields.read len) _ _
      (.cons (htype "i32" (by decide)) (.cons hvalue .nil)) {}
    have hnarrow : narrowKey v.toInt64 = pure (.i32 v) := by
      have hlo := v.le_toInt
      have hhi := v.toInt_lt
      rw [narrowKey, hwide, if_pos ⟨hlo, hhi⟩, Int32.ofInt_toInt]
    exact hobject.bind_pure rfl hnarrow
  | bytes b =>
    have hvalue := isExtMember len "value_hex" (by decide) (reads_hexStr len b)
      fun s => KeyFields.read.eq_3 len s
    have hobject := @reads_object _ _ follow KeyFields extensionJson len (KeyFields.read len) _ _
      (.cons (htype "bytes" (by decide)) (.cons hvalue .nil)) {}
    exact hobject.bind_pure rfl rfl

/-! ## Summaries -/

/-- A member that may be left out. -/
def optionalMembers {α : Type} (key : String) (write : α → String) (o : Option α) : List String :=
  (o.map fun a => memberString key (write a)).toList

/-- The members of a summary. -/
def IndexSummary.members (summary : IndexSummary) : List String :=
  memberString "name" (jsonString summary.name)
    :: (optionalMembers "min_key" SummaryKey.write summary.minKey
    ++ (optionalMembers "max_key" SummaryKey.write summary.maxKey
    ++ optionalMembers "dataset_bloom_hex" (fun b => jsonString (writeHex b)) summary.datasetBloom))

/-- What follows the first member. -/
theorem joinComma_cons (w : Bytes) (ws : List Bytes) :
    joinComma (w :: ws) = w ++ (ws.flatMap fun w => 0x2C :: w) := by
  induction ws generalizing w with
  | nil => simp [joinComma]
  | cons w' ws ih => rw [joinComma, ih, List.flatMap_cons, List.cons_append]

theorem asBytes_optionalMember {α : Type} {start stop key : String} {write value : α → String}
    (h : ∀ a, asBytes start ++ (asBytes (write a) ++ asBytes stop)
      = 0x2C :: asBytes (memberString key (value a))) (o : Option α) :
    asBytes (optionalMember start write stop o)
      = ((optionalMembers key value o).map asBytes).flatMap fun w => 0x2C :: w := by
  cases o with
  | none => rfl
  | some a =>
    rw [optionalMember, asBytes_append, asBytes_append, h]
    simp [optionalMembers]

theorem asBytes_writeSummary (summary : IndexSummary) :
    asBytes summary.write = 0x7B :: (joinComma (summary.members.map asBytes) ++ [0x7D]) := by
  have hclose : asBytes "\x7d" = [0x7D] := by decide
  have hempty : asBytes "" = [] := by decide
  have hname : asBytes "\x7b\"name\":" = 0x7B :: (asBytes (jsonString "name") ++ [0x3A]) := by
    decide +kernel
  have hmin : asBytes ",\"min_key\":" = 0x2C :: (asBytes (jsonString "min_key") ++ [0x3A]) := by
    decide +kernel
  have hmax : asBytes ",\"max_key\":" = 0x2C :: (asBytes (jsonString "max_key") ++ [0x3A]) := by
    decide +kernel
  have hbloom : asBytes ",\"dataset_bloom_hex\":\"" = 0x2C ::
      (asBytes (jsonString "dataset_bloom_hex") ++ 0x3A :: asBytes "\"") := by decide +kernel
  have hkey : ∀ {start key : String}, asBytes start = 0x2C :: (asBytes (jsonString key) ++ [0x3A]) →
      ∀ o, asBytes (optionalMember start SummaryKey.write "" o)
        = ((optionalMembers key SummaryKey.write o).map asBytes).flatMap fun w => 0x2C :: w := by
    intro start key hstart
    refine asBytes_optionalMember fun a => ?_
    rw [hstart, hempty, asBytes_memberString, memberText]
    simp
  have hhex : ∀ o, asBytes (optionalMember ",\"dataset_bloom_hex\":\"" writeHex "\"" o)
      = ((optionalMembers "dataset_bloom_hex" (fun b => jsonString (writeHex b)) o).map asBytes).flatMap
        fun w => 0x2C :: w := by
    refine asBytes_optionalMember fun b => ?_
    rw [hbloom, asBytes_memberString, memberText, jsonString_writeHex, asBytes_append, asBytes_append]
    simp
  unfold IndexSummary.write IndexSummary.members
  simp only [asBytes_append, hname, hclose, hkey hmin, hkey hmax, hhex, List.map_cons,
    joinComma_cons, List.map_append, List.flatMap_append, asBytes_memberString, memberText]
  simp only [List.cons_append, List.append_assoc, List.nil_append]

section
variable {σ α : Type} {member : String → σ → ExtM σ} (len : ℕ)

/-- The value, if there is one, is read into the state. -/
theorem isExtMember_optional {key : String} {write : α → String} {store : σ → α → σ}
    (h : ∀ a, IsMember extensionJson len member (memberText key (asBytes (write a)))
      fun s => store s <$> .ok a) (o : Option α) :
    List.Forall₂ (IsMember extensionJson len member) ((optionalMembers key write o).map asBytes)
      (o.map fun a s => store s <$> .ok a).toList := by
  cases o with
  | none => exact .nil
  | some a =>
    have ha := h a
    rw [← asBytes_memberString] at ha
    exact .cons ha .nil

end

/-- A summary with its name as it is heard. -/
def IndexSummary.heard (summary : IndexSummary) : Except IcebergIndexError IndexSummary :=
  (fun name => { summary with name }) <$> heardString bytewise summary.name

/-- What the members of a summary do to its fields. -/
def IndexSummary.steps (summary : IndexSummary) :
    List (SummaryFields → Except IcebergIndexError SummaryFields) :=
  (fun s => (fun v => { s with name := some v }) <$> heardString bytewise summary.name)
    :: ((summary.minKey.map fun k s => (fun v => { s with minKey := some v }) <$> .ok k).toList
    ++ ((summary.maxKey.map fun k s => (fun v => { s with maxKey := some v }) <$> .ok k).toList
    ++ (summary.datasetBloom.map fun b s => (fun v => { s with datasetBloom := some v }) <$> .ok b).toList))

theorem isMember_summary (len : ℕ) (summary : IndexSummary) :
    List.Forall₂ (IsMember extensionJson len (SummaryFields.read len))
      (summary.members.map asBytes) summary.steps := by
  have hname := isExtMember len "name" (by decide) (reads_extensionStr len summary.name)
    fun s => SummaryFields.read.eq_1 len s
  have hmin := isExtMember_optional len (fun k => isExtMember len "min_key" (by decide)
    (reads_key len k) fun s => SummaryFields.read.eq_2 len s) summary.minKey
  have hmax := isExtMember_optional len (fun k => isExtMember len "max_key" (by decide)
    (reads_key len k) fun s => SummaryFields.read.eq_3 len s) summary.maxKey
  have hbloom := isExtMember_optional len (fun b => isExtMember len "dataset_bloom_hex" (by decide)
    (reads_hexStr len b) fun s => SummaryFields.read.eq_4 len s) summary.datasetBloom
  rw [← asBytes_memberString] at hname
  rw [IndexSummary.members, List.map_cons, List.map_append, List.map_append]
  exact .cons hname (List.rel_append hmin (List.rel_append hmax hbloom))

theorem fold_summary (summary : IndexSummary) :
    summary.steps.foldlM (fun s g => g s) {} = (fun name => ({
      name := some name
      minKey := summary.minKey
      maxKey := summary.maxKey
      datasetBloom := summary.datasetBloom } : SummaryFields)) <$>
        (heardString bytewise summary.name : Except IcebergIndexError String) := by
  obtain ⟨name, minKey, maxKey, bloom⟩ := summary
  rw [IndexSummary.steps, List.foldlM_cons]
  dsimp only
  cases (heardString bytewise name : Except IcebergIndexError String) with
  | error e => rfl
  | ok v => cases minKey <;> cases maxKey <;> cases bloom <;> rfl

/-- **A summary** is read as its name is heard. -/
theorem reads_summary {follow : Bytes → Prop} (len : ℕ) (summary : IndexSummary) :
    Reads follow summary.heard (parseOneSummary len) (asBytes summary.write) := by
  have hobject := @reads_object _ _ follow SummaryFields extensionJson len (SummaryFields.read len) _ _
    (isMember_summary len summary) {}
  rw [fold_summary] at hobject
  rw [asBytes_writeSummary]
  exact hobject.bind_conclude fun _ => rfl

/-! ## Extensions -/

/-- The members of an extension, with the texts of its summaries. -/
def EmatixDataFileExtension.members (e : EmatixDataFileExtension) (summaries : List String) :
    List String :=
  [memberString "version" (jsonString ematixExtensionVersion),
    memberString "sidecar_relative_path" (jsonString e.sidecarRelativePath),
    memberString "summaries" ("[" ++ (commaSeparated summaries ++ "]"))]

theorem asBytes_toJson (e : EmatixDataFileExtension) : asBytes e.toJson
    = asBytes (objectString (e.members (e.summaries.map IndexSummary.write))) := by
  have hversion : asBytes "\x7b\"version\":\"" = 0x7B ::
      (asBytes (jsonString "version") ++ [0x3A, 0x22]) := by decide +kernel
  have hconst : asBytes (jsonString ematixExtensionVersion)
      = 0x22 :: (asBytes ematixExtensionVersion ++ [0x22]) := by decide +kernel
  have hpath : asBytes "\",\"sidecar_relative_path\":" = 0x22 :: 0x2C ::
      (asBytes (jsonString "sidecar_relative_path") ++ [0x3A]) := by decide +kernel
  have hsummaries : asBytes ",\"summaries\":[" = 0x2C ::
      (asBytes (jsonString "summaries") ++ 0x3A :: asBytes "[") := by decide +kernel
  have hclose : asBytes "]\x7d" = asBytes "]" ++ [0x7D] := by decide
  unfold EmatixDataFileExtension.toJson
  rw [asBytes_objectString, EmatixDataFileExtension.members]
  simp only [asBytes_append, List.map_cons, List.map_nil, joinComma, asBytes_memberString, memberText,
    hversion, hconst, hpath, hsummaries, hclose]
  simp only [List.cons_append, List.append_assoc, List.nil_append]

/-- An extension with its strings as they are heard. -/
def EmatixDataFileExtension.heard (e : EmatixDataFileExtension) :
    Except IcebergIndexError EmatixDataFileExtension := do
  let sidecarRelativePath ← heardString bytewise e.sidecarRelativePath
  let summaries ← e.summaries.mapM IndexSummary.heard
  pure { sidecarRelativePath, summaries }

theorem brace_head (t : Bytes) : ∃ b w, 0x7B :: t = b :: w ∧ isJsonSpace b = false ∧ b ≠ 0x5D :=
  ⟨_, _, rfl, by decide, by decide⟩

theorem reads_summaries {follow : Bytes → Prop} (len : ℕ) (summaries : List IndexSummary) :
    Reads follow (summaries.mapM IndexSummary.heard) (parseSummaries len)
      (asBytes ("[" ++ (commaSeparated (summaries.map IndexSummary.write) ++ "]"))) := by
  have hopen : asBytes "[" = [0x5B] := by decide
  have hclose : asBytes "]" = [0x5D] := by decide
  have hread := @reads_list _ _ follow _ len (parseOneSummary len) (parseOneSummary_consumes len)
    (summaries.map fun s => asBytes s.write) (summaries.map IndexSummary.heard)
    (List.forall₂_map_left_iff.mpr (List.forall₂_map_right_iff.mpr (List.forall₂_same.mpr
      fun s _ => ⟨by rw [asBytes_writeSummary]; exact brace_head _, reads_summary len s⟩)))
  rw [List.mapM_map] at hread
  rw [asBytes_append, asBytes_append, asBytes_commaSeparated, hopen, hclose, List.map_map]
  exact hread

/-- What the members of an extension do to the fields. -/
def EmatixDataFileExtension.steps (e : EmatixDataFileExtension)
    (summaries : Except IcebergIndexError (List IndexSummary)) :
    List (ExtensionFields → Except IcebergIndexError ExtensionFields) :=
  [fun s => (fun v => { s with version := some v }) <$> .ok ematixExtensionVersion,
    fun s => (fun v => { s with sidecarRelativePath := some v })
      <$> heardString bytewise e.sidecarRelativePath,
    fun s => (fun v => { s with summaries := some v }) <$> summaries]

/-- The members of an extension, for any text `w` of its summaries. -/
theorem isMember_extension (len : ℕ) (e : EmatixDataFileExtension)
    {outcome : Except IcebergIndexError (List IndexSummary)} {texts : List String}
    (h : Reads Ended outcome (parseSummaries len) (asBytes ("[" ++ (commaSeparated texts ++ "]")))) :
    List.Forall₂ (IsMember extensionJson len (ExtensionFields.read len))
      ((e.members texts).map asBytes) (e.steps outcome) := by
  have hversion := isExtMember len "version" (by decide)
    (reads_legible len (v := ematixExtensionVersion) (by decide)) fun s => ExtensionFields.read.eq_1 len s
  have hpath := isExtMember len "sidecar_relative_path" (by decide)
    (reads_extensionStr len e.sidecarRelativePath) fun s => ExtensionFields.read.eq_2 len s
  have hsummaries := isExtMember len "summaries" (by decide) h
    fun s => ExtensionFields.read.eq_3 len s
  rw [← asBytes_memberString] at hversion hpath hsummaries
  exact .cons hversion (.cons hpath (.cons hsummaries .nil))

theorem fold_extension (e : EmatixDataFileExtension) :
    (e.steps (e.summaries.mapM IndexSummary.heard)).foldlM (fun s g => g s) {}
      = (fun e => ({
          version := some ematixExtensionVersion
          sidecarRelativePath := some e.sidecarRelativePath
          summaries := some e.summaries } : ExtensionFields)) <$> e.heard := by
  rw [EmatixDataFileExtension.steps, EmatixDataFileExtension.heard]
  cases (heardString bytewise e.sidecarRelativePath : Except IcebergIndexError String) with
  | error _ => rfl
  | ok v => cases e.summaries.mapM IndexSummary.heard <;> rfl

/-- **An extension** is read as its strings are heard. -/
theorem extension_fromJson (e : EmatixDataFileExtension) :
    EmatixDataFileExtension.fromJson e.toJson = e.heard := by
  have hread : ∀ len, Reads (fun _ => True) e.heard
      (jsonObject extensionJson len (ExtensionFields.read len) {} >>= ExtensionFields.extension)
      (asBytes e.toJson) := by
    intro len
    have hobject := @reads_object _ _ (fun _ => True) ExtensionFields extensionJson len
      (ExtensionFields.read len) _ _ (isMember_extension len e (reads_summaries len e.summaries)) {}
    rw [fold_extension] at hobject
    rw [asBytes_toJson, asBytes_objectString, ← id_map e.heard]
    exact hobject.bind_conclude fun _ => rfl
  have hrun := hread (asBytes e.toJson).length [] trivial
  rw [List.append_nil] at hrun
  rw [EmatixDataFileExtension.fromJson, hrun]
  cases e.heard <;> rfl

theorem heard_summary_eq_ok (summary : IndexSummary) :
    summary.heard = .ok summary ↔ Legible summary.name := by
  rw [← heardString_eq_ok, IndexSummary.heard]
  cases (heardString bytewise summary.name : Except IcebergIndexError String) with
  | error _ => simp
  | ok name =>
    obtain ⟨name', minKey, maxKey, bloom⟩ := summary
    simp

theorem heard_summaries_eq_ok (summaries : List IndexSummary) :
    summaries.mapM IndexSummary.heard = .ok summaries ↔ ∀ s ∈ summaries, Legible s.name := by
  induction summaries with
  | nil => simp [pure, Except.pure]
  | cons s ss ih =>
    rw [List.mapM_cons, List.forall_mem_cons, ← ih, ← heard_summary_eq_ok]
    cases s.heard with
    | error _ => simp [bind, Except.bind]
    | ok s' => cases ss.mapM IndexSummary.heard <;> simp [bind, Except.bind, pure, Except.pure]

/-- The strings of an extension. -/
def EmatixDataFileExtension.strings (e : EmatixDataFileExtension) : List String :=
  e.sidecarRelativePath :: e.summaries.map IndexSummary.name

theorem heard_extension_eq_ok (e : EmatixDataFileExtension) :
    e.heard = .ok e ↔ ∀ v ∈ e.strings, Legible v := by
  rw [EmatixDataFileExtension.strings, List.forall_mem_cons, List.forall_mem_map,
    ← heard_summaries_eq_ok, ← heardString_eq_ok, EmatixDataFileExtension.heard]
  obtain ⟨path, summaries⟩ := e
  cases (heardString bytewise path : Except IcebergIndexError String) with
  | error _ => simp [bind, Except.bind]
  | ok v => cases summaries.mapM IndexSummary.heard <;> simp [bind, Except.bind, pure, Except.pure]

/-! ## Key metadata -/

theorem decodeKeyMetadata_encode (e : EmatixDataFileExtension) :
    decodeKeyMetadata (encodeKeyMetadata e) = some <$> e.heard := by
  have hlen : ¬ ((encodeKeyMetadata e).length < keyMetadataMagic.length
      ∨ (encodeKeyMetadata e).take keyMetadataMagic.length ≠ keyMetadataMagic) := by
    rw [encodeKeyMetadata, List.take_left', List.length_append]
    · simp
    · rfl
  have hdrop : (encodeKeyMetadata e).drop keyMetadataMagic.length = asBytes e.toJson :=
    List.drop_left' rfl
  rw [decodeKeyMetadata, if_neg hlen, hdrop]
  dsimp only
  rw [fromUtf8_asBytes]
  dsimp only
  rw [extension_fromJson]

theorem decodeKeyMetadata_other {bytes : Bytes} (h : ¬ keyMetadataMagic <+: bytes) :
    decodeKeyMetadata bytes = .ok none := by
  rw [decodeKeyMetadata, if_pos]
  by_contra hnot
  rw [not_or, not_not] at hnot
  exact h (List.prefix_iff_eq_take.mpr hnot.2.symm)

/-- **The round trip** of key metadata, ours and those of others. -/
theorem keyMetadata_roundTrip (e : EmatixDataFileExtension) (bytes : Bytes) :
    (decodeKeyMetadata (encodeKeyMetadata e) = .ok (some e) ↔ ∀ v ∈ e.strings, Legible v) ∧
    (¬ keyMetadataMagic <+: bytes → decodeKeyMetadata bytes = .ok none) := by
  refine ⟨?_, decodeKeyMetadata_other⟩
  rw [decodeKeyMetadata_encode, ← heard_extension_eq_ok]
  cases e.heard <;> simp

/-- Quotes, line feeds, and letters before the first escape. -/
theorem keyMetadata_roundTrip_sample :
    let e : EmatixDataFileExtension := ⟨"\u00e9\"\n.idx", [
      { name := "by key", minKey := some (.i64 (-5)), maxKey := some (.i32 7), datasetBloom := none },
      { name := "\\", minKey := some (.bytes [0xDE]), maxKey := none, datasetBloom := some [0, 1] }]⟩
    decodeKeyMetadata (encodeKeyMetadata e) = .ok (some e) ∧
      decodeKeyMetadata [0x45, 0x4D] = .ok none :=
  ⟨(keyMetadata_roundTrip _ []).1.mpr (by decide),
    (keyMetadata_roundTrip ⟨"", []⟩ _).2 (by decide)⟩

/-- A quote and a letter with an accent. -/
def accented : EmatixDataFileExtension := ⟨"\"\u00e9", []⟩

/-- U+00E9 is heard as U+00C3 and U+00A9. -/
theorem keyMetadata_accent :
    decodeKeyMetadata (encodeKeyMetadata accented) = .ok (some ⟨"\"\u00c3\u00a9", []⟩) ∧
      decodeKeyMetadata (encodeKeyMetadata accented) ≠ .ok (some accented) := by
  rw [decodeKeyMetadata_encode]
  decide +kernel

end EmatixParquet
