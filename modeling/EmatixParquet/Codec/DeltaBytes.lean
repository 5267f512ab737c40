/-
  DELTA_LENGTH_BYTE_ARRAY and DELTA_BYTE_ARRAY (`delta.rs`) — byte strings after
  the delta streams of their lengths.

  A value of the second encoding takes over a prefix of the value before it.  How
  long the prefix is, up to what the two values share, is the encoder's choice
  (`PrefixChoice`).

  * `takeValues_flatten`, `rebuildValues_choice`: the two loops on what an encoder
    wrote;
  * `takeValues_not_panics`, `rebuildValues_not_panics`: where the input fits the
    machine, so do the values;
  * `nonneg_of_takeValues`, `lengths_of_rebuildValues`: what they accept had lengths
    that make sense;
  * `byteArrays_inverse_iff`: where there is room, the decoders return the values, and
    reject the rest.
-/
import EmatixParquet.Codec.Delta
import EmatixParquet.Io.Pages

namespace EmatixParquet

open Wire Wire.Reader

/-! ## The decoders -/

/-- An error of the DELTA_BYTE_ARRAY decoder. -/
def deltaByteErr (msg : String) : CodecError := .decompress s!"DELTA_BYTE_ARRAY: {msg}"

/-- `for len in lengths`. -/
def takeValues [Host] : List Int32 → CodecM (List Bytes)
  | [] => pure []
  | len :: lengths =>
    if len < 0 then Reader.lift (codecErr (deltaByteErr "negative length"))
    else do
      let slice ← wire (take (i32AsUsize len))
      Reader.lift (Host.withCapacity slice.length 1)
      (slice :: ·) <$> takeValues lengths

/-- What follows the stream of lengths. -/
def takeFrom [Host] (lengths : List Int32) : CodecM (List Bytes) := do
  Reader.lift (Host.withCapacity lengths.length vecSize)
  takeValues lengths

/-- `decode_delta_length_byte_array`: the lengths, then the bytes of all values. -/
def decodeDeltaLengthByteArray [Host] (bytes : Bytes) : Res CodecError (List Bytes) :=
  (·.1) <$> (decodeDeltaI32From >>= takeFrom).run bytes

/-- `for (pfx, sfx) in prefix_lengths.into_iter().zip(suffix_lengths)`. -/
def rebuildValues [Host] (prev : Bytes) : List (Int32 × Int32) → CodecM (List Bytes)
  | [] => pure []
  | (pfx, sfx) :: lengths =>
    if pfx < 0 ∨ sfx < 0 then Reader.lift (codecErr (deltaByteErr "negative length"))
    else if prev.length < i32AsUsize pfx then
      Reader.lift (codecErr (deltaByteErr "prefix_length exceeds prior value length"))
    else do
      let suffix ← wire (take (i32AsUsize sfx))
      Reader.lift (Host.withCapacity (i32AsUsize pfx + i32AsUsize sfx) 1)
      let value := prev.take (i32AsUsize pfx) ++ suffix
      -- the clone that becomes the next `prev`
      Reader.lift (Host.withCapacity value.length 1)
      (value :: ·) <$> rebuildValues value lengths

/-- What follows the two streams of lengths. -/
def rebuildFrom [Host] (prefixLengths suffixLengths : List Int32) : CodecM (List Bytes) :=
  if prefixLengths.length ≠ suffixLengths.length then
    Reader.lift (codecErr (deltaByteErr "prefix_lengths and suffix_lengths length mismatch"))
  else do
    Reader.lift (Host.withCapacity prefixLengths.length vecSize)
    rebuildValues [] (prefixLengths.zip suffixLengths)

/-- `decode_delta_byte_array`: prefix lengths, suffix lengths, then the suffixes. -/
def decodeDeltaByteArray [Host] (bytes : Bytes) : Res CodecError (List Bytes) :=
  (·.1) <$> (do
    let prefixLengths ← decodeDeltaI32From
    let suffixLengths ← decodeDeltaI32From
    rebuildFrom prefixLengths suffixLengths).run bytes

/-! ## The format -/

section
variable {α : Type} [DecidableEq α]

/-- How many elements two lists share at their heads. -/
def sharedLength : List α → List α → ℕ
  | a :: as, b :: bs => if a = b then sharedLength as bs + 1 else 0
  | _, _ => 0

theorem take_of_le_sharedLength {as bs : List α} {n : ℕ} (h : n ≤ sharedLength as bs) :
    n ≤ as.length ∧ as.take n = bs.take n := by
  induction as generalizing bs n with
  | nil =>
    obtain rfl : n = 0 := Nat.le_zero.mp h
    simp
  | cons a as ih =>
    cases n with
    | zero => simp
    | succ n =>
      cases bs with
      | nil => simp [sharedLength] at h
      | cons b bs =>
        rw [sharedLength] at h
        split at h
        · next heq =>
          obtain ⟨hlen, htake⟩ := ih (Nat.le_of_succ_le_succ h)
          exact ⟨Nat.succ_le_succ hlen, by simp [heq, htake]⟩
        · exact absurd h (Nat.not_succ_le_zero n)

end

/-- A choice of prefix lengths for the values after `prev`. -/
inductive PrefixChoice : Bytes → List Bytes → List ℕ → Prop
  | nil (prev : Bytes) : PrefixChoice prev [] []
  | cons {prev value : Bytes} {values : List Bytes} {n : ℕ} {ns : List ℕ}
    (hshared : n ≤ sharedLength prev value) (hrest : PrefixChoice value values ns) :
    PrefixChoice prev (value :: values) (n :: ns)

/-- What is left of the values once their prefixes are taken off. -/
def suffixesOf (ns : List ℕ) (values : List Bytes) : List Bytes :=
  List.zipWith (fun n value => value.drop n) ns values

/-- The numbers of a stream of lengths. -/
def lengthWords (ns : List ℕ) : List Int32 := ns.map Int32.ofNat

/-- The length of the values, as the two streams have it. -/
def declaredLengths (prefixLengths suffixLengths : List Int32) : List ℤ :=
  List.zipWith (fun pfx sfx => pfx.toInt + sfx.toInt) prefixLengths suffixLengths

/-- Some prefix is longer than the value before it, the first of them after a
    value of length `prev`. -/
def LongPrefix (prev : ℕ) (prefixLengths suffixLengths : List Int32) : Prop :=
  ∃ (i : ℕ) (pfx : Int32) (len : ℤ), prefixLengths[i]? = some pfx ∧
    ((prev : ℤ) :: declaredLengths prefixLengths suffixLengths)[i]? = some len ∧ len < pfx.toInt

/-! ## Lengths that are written -/

theorem ofNat_not_neg {n : ℕ} (h : n < 2 ^ 31) : ¬ Int32.ofNat n < 0 := by
  rw [Int32.lt_iff_toInt_lt, Int32.toInt_ofNat_of_lt h]
  exact not_lt.mpr (Int.natCast_nonneg n)

theorem toInt_of_nonneg {v : Int32} (h : ¬ v < 0) : (i32AsUsize v : ℤ) = v.toInt := by
  have hnonneg : 0 ≤ v.toInt := not_lt.mp fun hlt => h (Int32.lt_iff_toInt_lt.mpr hlt)
  have hlt := v.toInt_lt
  have hv : v = Int32.ofNat v.toInt.toNat := by
    refine Int32.toInt_inj.mp ?_
    rw [Int32.toInt_ofNat_of_lt (by omega), Int.toNat_of_nonneg hnonneg]
  rw [hv, i32AsUsize_ofNat (by omega), Int32.toInt_ofNat_of_lt (by omega)]

theorem PrefixChoice.length_eq {prev : Bytes} {values : List Bytes} {ns : List ℕ}
    (h : PrefixChoice prev values ns) : ns.length = values.length := by
  induction h with
  | nil => rfl
  | cons _ _ ih => rw [List.length_cons, ih, List.length_cons]

section
variable [H : Host] {build : Build} {room : ℕ} (hhost : Limits H build room)
include hhost

/-- Where there is room, asking for it changes nothing. -/
theorem bind_withCapacity {α : Type} {n size : ℕ} (h : n * size ≤ room) (f : Unit → CodecM α) :
    (Reader.lift (Host.withCapacity n size) >>= f) = f () := by
  rw [hhost.fits n size h, Reader.lift_ok, pure_bind]

theorem takeValues_flatten {values : List Bytes} (hlen : ∀ v ∈ values, v.length < 2 ^ 31)
    (t : Bytes) (hroom : (values.flatten ++ t).length ≤ room) :
    (takeValues (lengthWords (values.map List.length))).run (values.flatten ++ t)
      = .ok (values, t) := by
  induction values with
  | nil => rfl
  | cons v values ih =>
    rw [List.forall_mem_cons] at hlen
    rw [List.flatten_cons, List.append_assoc, List.length_append] at hroom
    have hrest := ih hlen.2 (by omega)
    rw [lengthWords] at hrest
    rw [List.map_cons, lengthWords, List.map_cons, takeValues, if_neg (ofNat_not_neg hlen.1),
      List.flatten_cons, List.append_assoc,
      Reader.run_bind_ok (run_wire_take (i32AsUsize_ofNat hlen.1).symm _),
      bind_withCapacity hhost (by omega), Reader.run_map, hrest]

/-- Whatever the prefixes are: prefix and suffix make up the value, which is the
    one before of the next. -/
theorem rebuildValues_choice {prev : Bytes} {values : List Bytes} {ns : List ℕ}
    (h : PrefixChoice prev values ns) (hprev : prev.length < 2 ^ 31)
    (hlen : ∀ v ∈ values, v.length < 2 ^ 31) (t : Bytes)
    (hroom : prev.length + ((suffixesOf ns values).flatten ++ t).length ≤ room) :
    (rebuildValues prev ((lengthWords ns).zip
        (lengthWords ((suffixesOf ns values).map List.length)))).run
      ((suffixesOf ns values).flatten ++ t) = .ok (values, t) := by
  induction h with
  | nil prev => rfl
  | @cons prev value values n ns hshared _ ih =>
    rw [List.forall_mem_cons] at hlen
    obtain ⟨hn, htake⟩ := take_of_le_sharedLength hshared
    have hsuffix : (value.drop n).length < 2 ^ 31 := by
      rw [List.length_drop]
      omega
    have hvalue : n ≤ value.length := by
      have := congrArg List.length htake
      rw [List.length_take, List.length_take] at this
      omega
    simp only [lengthWords, suffixesOf] at ih hroom ⊢
    rw [List.zipWith_cons_cons, List.flatten_cons, List.append_assoc, List.length_append,
      List.length_drop] at hroom
    have hrest := ih hlen.1 hlen.2 (by omega)
    rw [List.zipWith_cons_cons, List.map_cons, List.map_cons, List.map_cons, List.zip_cons_cons,
      rebuildValues, if_neg (not_or.mpr ⟨ofNat_not_neg (by omega), ofNat_not_neg hsuffix⟩),
      i32AsUsize_ofNat (show n < 2 ^ 31 by omega), if_neg (Nat.not_lt.mpr hn), List.flatten_cons,
      List.append_assoc, Reader.run_bind_ok (run_wire_take (i32AsUsize_ofNat hsuffix).symm _),
      i32AsUsize_ofNat hsuffix, List.length_drop, bind_withCapacity hhost (by omega)]
    dsimp only
    rw [htake, List.take_append_drop, bind_withCapacity hhost (by omega), Reader.run_map, hrest]

end

/-! ## Lengths that are read -/

theorem run_wire_take_error {n : ℕ} {bytes : Bytes} {f : Fault CodecError}
    (h : (wire (take n)).run bytes = .error f) : ∃ e, f = .err e := by
  rcases Nat.lt_or_ge bytes.length n with hlt | hge
  · rw [run_wire_take_short hlt] at h
    cases h
    exact ⟨_, rfl⟩
  · rw [run_wire_take_ok hge] at h
    cases h

section
variable [H : Host]

/-- What is accepted had no negative length. -/
theorem nonneg_of_takeValues {lengths : List Int32} {bytes rest : Bytes} {values : List Bytes}
    (h : (takeValues lengths).run bytes = .ok (values, rest)) : ∀ len ∈ lengths, ¬ len < 0 := by
  induction lengths generalizing bytes rest values with
  | nil => simp
  | cons len lengths ih =>
    rw [takeValues] at h
    split at h
    · cases h
    · next hneg =>
      obtain ⟨slice, mid, -, hrest⟩ := Reader.run_bind_eq_ok h
      obtain ⟨-, mid', -, hrest⟩ := Reader.run_bind_eq_ok hrest
      rw [Reader.run_map] at hrest
      split at hrest
      · cases hrest
      · next htail => exact List.forall_mem_cons.mpr ⟨hneg, ih htail⟩

omit H in
/-- A prefix that is too long is the first one, or one of those after it. -/
theorem longPrefix_cons {prev value : ℕ} {pfx sfx : Int32} {prefixes suffixes : List Int32}
    (hvalue : (value : ℤ) = pfx.toInt + sfx.toInt) :
    LongPrefix prev (pfx :: prefixes) (sfx :: suffixes) ↔
      (prev : ℤ) < pfx.toInt ∨ LongPrefix value prefixes suffixes := by
  constructor
  · rintro ⟨i, p, len, hpi, hli, hlong⟩
    cases i with
    | zero =>
      simp only [List.getElem?_cons_zero, Option.some.injEq] at hpi hli
      subst hpi hli
      exact .inl hlong
    | succ i =>
      refine .inr ⟨i, p, len, hpi, ?_, hlong⟩
      rw [hvalue]
      exact hli
  · rintro (hlong | ⟨i, p, len, hpi, hli, hlong⟩)
    · exact ⟨0, pfx, prev, rfl, rfl, hlong⟩
    · refine ⟨i + 1, p, len, hpi, ?_, hlong⟩
      rw [hvalue] at hli
      exact hli

/-- What is accepted: no length was negative, and no prefix longer than the value
    before it. -/
theorem lengths_of_rebuildValues {prev : Bytes} {prefixes suffixes : List Int32}
    (hlen : prefixes.length = suffixes.length) {bytes rest : Bytes} {values : List Bytes}
    (h : (rebuildValues prev (prefixes.zip suffixes)).run bytes = .ok (values, rest)) :
    (∀ len ∈ prefixes ++ suffixes, ¬ len < 0) ∧ ¬ LongPrefix prev.length prefixes suffixes := by
  induction prefixes generalizing prev suffixes bytes rest values with
  | nil =>
    obtain rfl := List.length_eq_zero_iff.mp hlen.symm
    exact ⟨by simp, fun ⟨_, _, _, hpfx, _⟩ => by simp at hpfx⟩
  | cons pfx prefixes ih =>
    cases suffixes with
    | nil => cases hlen
    | cons sfx suffixes =>
      rw [List.zip_cons_cons, rebuildValues] at h
      split at h
      · cases h
      · next hneg =>
        rw [not_or] at hneg
        split at h
        · cases h
        · next hprefix =>
          obtain ⟨suffix, mid, htake, hrest⟩ := Reader.run_bind_eq_ok h
          obtain ⟨hsfx, rfl, rfl⟩ := run_take_eq_ok htake
          obtain ⟨-, mid', -, hrest⟩ := Reader.run_bind_eq_ok hrest
          obtain ⟨-, mid'', -, hrest⟩ := Reader.run_bind_eq_ok hrest
          rw [Reader.run_map] at hrest
          split at hrest
          · cases hrest
          · next htail =>
            obtain ⟨hnonneg, hshort⟩ := ih (Nat.succ.inj hlen) htail
            have hp := toInt_of_nonneg hneg.1
            have hs := toInt_of_nonneg hneg.2
            -- the value just made is as long as the streams say
            have hvalue : ((prev.take (i32AsUsize pfx) ++ bytes.take (i32AsUsize sfx)).length : ℤ)
                = pfx.toInt + sfx.toInt := by
              rw [List.length_append, List.length_take, List.length_take]
              omega
            constructor
            · intro len hmem
              simp only [List.cons_append, List.mem_cons, List.mem_append] at hmem hnonneg
              rcases hmem with rfl | hmem | rfl | hmem
              · exact hneg.1
              · exact hnonneg len (.inl hmem)
              · exact hneg.2
              · exact hnonneg len (.inr hmem)
            · rw [longPrefix_cons hvalue]
              rintro (hlong | hlong)
              · omega
              · exact hshort hlong

end

/-! ## Room for the values -/

section
variable [H : Host] {build : Build} {room : ℕ} (hhost : Limits H build room)
include hhost

/-- The bytes of the values are taken from the input, which there is room for. -/
theorem takeValues_not_panics {lengths : List Int32} {bytes : Bytes}
    (hroom : bytes.length ≤ room) : ¬ (takeValues lengths).Fails Panics bytes := by
  induction lengths generalizing bytes with
  | nil => exact (calm_pure _).not_fails bytes
  | cons len lengths ih =>
    rw [takeValues]
    split
    · exact (calm_fail (not_panics_err _)).not_fails bytes
    · rw [fails_bind]
      rintro (⟨e, he, hrun⟩ | ⟨slice, rest, hrun, h⟩)
      · obtain ⟨e, rfl⟩ := run_wire_take_error hrun
        exact not_panics_err e he
      · obtain ⟨-, rfl, rfl⟩ := run_take_eq_ok hrun
        rw [hhost.fits _ 1 (by simp; omega), Reader.lift_ok, pure_bind, fails_map] at h
        exact ih (by simp; omega) h

/-- A value and what is left to read are never more than the input. -/
theorem rebuildValues_not_panics {prev : Bytes}
    {lengths : List (Int32 × Int32)} {bytes : Bytes} (hroom : prev.length + bytes.length ≤ room) :
    ¬ (rebuildValues prev lengths).Fails Panics bytes := by
  induction lengths generalizing prev bytes with
  | nil => exact (calm_pure _).not_fails bytes
  | cons q lengths ih =>
    obtain ⟨pfx, sfx⟩ := q
    rw [rebuildValues]
    split
    · exact (calm_fail (not_panics_err _)).not_fails bytes
    split
    · exact (calm_fail (not_panics_err _)).not_fails bytes
    · next hprev =>
      rw [fails_bind]
      rintro (⟨e, he, hrun⟩ | ⟨suffix, rest, hrun, h⟩)
      · obtain ⟨e, rfl⟩ := run_wire_take_error hrun
        exact not_panics_err e he
      · obtain ⟨hlen, rfl, rfl⟩ := run_take_eq_ok hrun
        have hvalue : (prev.take (i32AsUsize pfx) ++ bytes.take (i32AsUsize sfx)).length
            = i32AsUsize pfx + i32AsUsize sfx := by
          rw [List.length_append, List.length_take, List.length_take]
          omega
        rw [hhost.fits _ 1 (by omega), Reader.lift_ok, pure_bind] at h
        dsimp only at h
        rw [hhost.fits _ 1 (by omega), Reader.lift_ok, pure_bind, fails_map] at h
        refine ih ?_ h
        rw [hvalue, List.length_drop]
        omega

theorem takeFrom_panics_iff {lengths : List Int32} {bytes : Bytes}
    (hroom : bytes.length ≤ room) :
    (takeFrom lengths).Fails Panics bytes ↔ room < lengths.length * vecSize := by
  rw [takeFrom]
  rcases Nat.lt_or_ge room (lengths.length * vecSize) with hlt | hle
  · obtain ⟨e, hrun, he⟩ := hhost.full _ _ hlt
    exact iff_of_true ⟨e, he, by rw [hrun]; rfl⟩ hlt
  · rw [hhost.fits _ _ hle, Reader.lift_ok, pure_bind]
    exact iff_of_false (takeValues_not_panics hhost hroom) (Nat.not_lt.mpr hle)

theorem rebuildFrom_panics_iff {prefixes suffixes : List Int32}
    {bytes : Bytes} (hroom : bytes.length ≤ room) :
    (rebuildFrom prefixes suffixes).Fails Panics bytes ↔
      prefixes.length = suffixes.length ∧ room < prefixes.length * vecSize := by
  rw [rebuildFrom]
  split
  · next hne =>
    exact iff_of_false ((calm_fail (not_panics_err _)).not_fails bytes) fun h => hne h.1
  · next heq =>
    rw [not_not] at heq
    simp only [heq, true_and]
    rcases Nat.lt_or_ge room (suffixes.length * vecSize) with hlt | hle
    · obtain ⟨e, hrun, he⟩ := hhost.full _ _ hlt
      exact iff_of_true ⟨e, he, by rw [hrun]; rfl⟩ hlt
    · rw [hhost.fits _ _ hle, Reader.lift_ok, pure_bind]
      exact iff_of_false (rebuildValues_not_panics hhost (by simpa using hroom))
        (Nat.not_lt.mpr hle)

end

/-! ## The decoders and their format -/

/-- The lengths for which `decode_delta_byte_array` fails, whatever bytes follow. -/
def BadLengths (prefixLengths suffixLengths : List Int32) : Prop :=
  prefixLengths.length ≠ suffixLengths.length ∨
    (∃ len ∈ prefixLengths ++ suffixLengths, len < 0) ∨ LongPrefix 0 prefixLengths suffixLengths

theorem rebuildFrom_bad [H : Host] {prefixes suffixes : List Int32} (hbad : BadLengths prefixes suffixes)
    (bytes : Bytes) : ∀ out, (rebuildFrom prefixes suffixes).run bytes ≠ .ok out := by
  intro out hrun
  rw [rebuildFrom] at hrun
  split at hrun
  · cases hrun
  · next hlen =>
    obtain ⟨-, mid, -, hrun⟩ := Reader.run_bind_eq_ok hrun
    obtain ⟨hnonneg, hshort⟩ := lengths_of_rebuildValues (not_not.mp hlen) hrun
    rcases hbad with hne | ⟨len, hmem, hneg⟩ | hlong
    · exact absurd hne hlen
    · exact absurd hneg (hnonneg len hmem)
    · exact absurd hlong hshort

/-- A reader that does not succeed returns an error, or panics. -/
theorem err_iff_not_panics {α : Type} {r : CodecM α} {bytes : Bytes}
    (h : ∀ out, r.run bytes ≠ .ok out) :
    (∃ e, (·.1) <$> r.run bytes = .error (.err e)) ↔ ¬ r.Fails Panics bytes := by
  cases hrun : r.run bytes with
  | ok out => exact absurd hrun (h out)
  | error f =>
    rw [Reader.fails_of_error hrun]
    cases f with
    | err e => exact iff_of_true ⟨e, rfl⟩ (not_panics_err e)
    | panic msg => exact iff_of_false (fun ⟨e, he⟩ => by cases he) (not_not.mpr ⟨msg, rfl⟩)

/-- A reader that fails returns nothing. -/
theorem map_fst_ne_ok {α : Type} {r : CodecM α} {bytes : Bytes} {e : Fault CodecError} {a : α}
    (h : r.run bytes = .error e) : (·.1) <$> r.run bytes ≠ .ok a := by
  rw [h]
  exact fun h => by cases h

/-- Where there is room for the values, there is for their lengths. -/
theorem roomFor_of_lengths {room size n : ℕ} (hbuffer : size * 4 ≤ room)
    (hvalues : n * vecSize ≤ room) : deltaI32.RoomFor room size n where
  values := (Nat.mul_le_mul_left n (by decide)).trans hvalues
  buffers _ h := List.mem_singleton.mp h ▸ hbuffer

section
variable [H : Host] {build : Build} {room : ℕ} (hhost : Limits H build room)
include hhost

theorem decodeDeltaLengthByteArray_iff {values : List Bytes}
    (hlen : ∀ v ∈ values, v.length < 2 ^ 31) {p : DeltaSizes} {lengths t : Bytes}
    (h : DeltaEncoding p (lengthWords (values.map List.length)) lengths)
    (hbits : 8 * lengths.length < usizeBound)
    (hroom : (lengths ++ (values.flatten ++ t)).length ≤ room) :
    decodeDeltaLengthByteArray (lengths ++ (values.flatten ++ t)) = .ok values ↔
      (values ≠ [] → p.miniBlockSize * 4 ≤ room ∧ values.length * vecSize ≤ room) := by
  have hcount : (lengthWords (values.map List.length)).length = values.length := by
    simp [lengthWords]
  have hne : lengthWords (values.map List.length) ≠ [] ↔ values ≠ [] := by
    simp [lengthWords]
  rw [decodeDeltaLengthByteArray]
  rcases decodeDelta_encoding hhost lawful_deltaI32 h hbits (values.flatten ++ t) with
    ⟨hfits, hrun⟩ | ⟨hfits, e, hrun, -⟩
  · rw [decodeDeltaI32From, Reader.run_bind_ok hrun, takeFrom, hcount]
    rcases Nat.lt_or_ge room (values.length * vecSize) with hlt | hle
    · obtain ⟨e, hfull, -⟩ := hhost.full _ _ hlt
      refine iff_of_false (map_fst_ne_ok (e := e) (by rw [hfull]; rfl)) fun hno => ?_
      have hvalues : values ≠ [] := by
        rintro rfl
        exact Nat.not_lt_zero _ (Nat.zero_mul vecSize ▸ hlt)
      exact Nat.not_le.mpr hlt (hno hvalues).2
    · rw [List.length_append] at hroom
      rw [bind_withCapacity hhost hle, takeValues_flatten hhost hlen t (by omega)]
      exact iff_of_true rfl fun hv =>
        ⟨(hfits (hne.mpr hv)).buffers 4 (List.mem_singleton_self 4), hle⟩
  · refine iff_of_false (map_fst_ne_ok (e := e) (by rw [decodeDeltaI32From, Reader.run_bind, hrun]))
      fun hno => hfits fun hv => ?_
    obtain ⟨hbuffer, hvec⟩ := hno (hne.mp hv)
    exact roomFor_of_lengths hbuffer (by rwa [hcount])

theorem decodeDeltaByteArray_iff {values : List Bytes}
    (hlen : ∀ v ∈ values, v.length < 2 ^ 31) {p p' : DeltaSizes} {ns : List ℕ}
    (hchoice : PrefixChoice [] values ns) {prefixes suffixes t : Bytes}
    (hpre : DeltaEncoding p (lengthWords ns) prefixes)
    (hsuf : DeltaEncoding p' (lengthWords ((suffixesOf ns values).map List.length)) suffixes)
    (hbits : 8 * prefixes.length < usizeBound) (hbits' : 8 * suffixes.length < usizeBound)
    (hroom : (prefixes ++ (suffixes ++ ((suffixesOf ns values).flatten ++ t))).length ≤ room) :
    decodeDeltaByteArray (prefixes ++ (suffixes ++ ((suffixesOf ns values).flatten ++ t)))
        = .ok values ↔
      (values ≠ [] → p.miniBlockSize * 4 ≤ room ∧ p'.miniBlockSize * 4 ≤ room ∧
        values.length * vecSize ≤ room) := by
  have hcount : (lengthWords ns).length = values.length := by
    rw [lengthWords, List.length_map, hchoice.length_eq]
  have hcount' : (lengthWords ((suffixesOf ns values).map List.length)).length = values.length := by
    simp [lengthWords, suffixesOf, hchoice.length_eq]
  have hne {words : List Int32} (h : words.length = values.length) : words ≠ [] ↔ values ≠ [] := by
    rw [← List.length_pos_iff, h, List.length_pos_iff]
  rw [decodeDeltaByteArray]
  rcases decodeDelta_encoding hhost lawful_deltaI32 hpre hbits
    (suffixes ++ ((suffixesOf ns values).flatten ++ t)) with ⟨hfits, hrun⟩ | ⟨hfits, e, hrun, -⟩
  · rw [decodeDeltaI32From, Reader.run_bind_ok hrun]
    rcases decodeDelta_encoding hhost lawful_deltaI32 hsuf hbits'
      ((suffixesOf ns values).flatten ++ t) with ⟨hfits', hrun'⟩ | ⟨hfits', e, hrun', -⟩
    · rw [Reader.run_bind_ok hrun', rebuildFrom, if_neg (not_not.mpr (hcount.trans hcount'.symm)),
        hcount]
      rcases Nat.lt_or_ge room (values.length * vecSize) with hlt | hle
      · obtain ⟨e, hfull, -⟩ := hhost.full _ _ hlt
        refine iff_of_false (map_fst_ne_ok (e := e) (by rw [hfull]; rfl)) fun hno => ?_
        have hvalues : values ≠ [] := by
          rintro rfl
          exact Nat.not_lt_zero _ (Nat.zero_mul vecSize ▸ hlt)
        exact Nat.not_le.mpr hlt (hno hvalues).2.2
      · rw [List.length_append, List.length_append] at hroom
        rw [bind_withCapacity hhost hle, rebuildValues_choice hhost hchoice (by decide) hlen t
          (by rw [List.length_nil]; omega)]
        exact iff_of_true rfl fun hv =>
          ⟨(hfits ((hne hcount).mpr hv)).buffers 4 (List.mem_singleton_self 4),
            (hfits' ((hne hcount').mpr hv)).buffers 4 (List.mem_singleton_self 4), hle⟩
    · refine iff_of_false (map_fst_ne_ok (e := e) (by rw [Reader.run_bind, hrun']))
        fun hno => hfits' fun hv => ?_
      obtain ⟨-, hbuffer, hvec⟩ := hno ((hne hcount').mp hv)
      exact roomFor_of_lengths hbuffer (by rwa [hcount'])
  · refine iff_of_false (map_fst_ne_ok (e := e) (by rw [decodeDeltaI32From, Reader.run_bind, hrun]))
      fun hno => hfits fun hv => ?_
    obtain ⟨hbuffer, -, hvec⟩ := hno ((hne hcount).mp hv)
    exact roomFor_of_lengths hbuffer (by rwa [hcount])

end

/-- **The DELTA byte-array decoders.**  They return the values of any encoding of
    their lengths, for any choice of prefixes, exactly where there is room for the vector
    of the values and for the buffer of a mini-block; lengths that make no sense are
    errors, exactly where the vector they ask for has room. -/
theorem byteArrays_inverse_iff (build : Build) (room : ℕ) (simd : Option Simd)
    {values : List Bytes} (hlen : ∀ v ∈ values, v.length < 2 ^ 31) (p p' : DeltaSizes) (t : Bytes) :
    (∀ lengths, DeltaEncoding p (lengthWords (values.map List.length)) lengths →
      8 * lengths.length < usizeBound → (lengths ++ (values.flatten ++ t)).length ≤ room →
      (@decodeDeltaLengthByteArray (hostOf build room simd) (lengths ++ (values.flatten ++ t))
          = .ok values ↔
        (values ≠ [] → p.miniBlockSize * 4 ≤ room ∧ values.length * vecSize ≤ room))) ∧
    (∀ ns prefixes suffixes, PrefixChoice [] values ns →
      DeltaEncoding p (lengthWords ns) prefixes →
      DeltaEncoding p' (lengthWords ((suffixesOf ns values).map List.length)) suffixes →
      8 * prefixes.length < usizeBound → 8 * suffixes.length < usizeBound →
      (prefixes ++ (suffixes ++ ((suffixesOf ns values).flatten ++ t))).length ≤ room →
      (@decodeDeltaByteArray (hostOf build room simd)
          (prefixes ++ (suffixes ++ ((suffixesOf ns values).flatten ++ t))) = .ok values ↔
        (values ≠ [] → p.miniBlockSize * 4 ≤ room ∧ p'.miniBlockSize * 4 ≤ room ∧
          values.length * vecSize ≤ room))) ∧
    (∀ bytes lengths rest, bytes.length ≤ room →
      (@decodeDeltaI32From (hostOf build room simd)).run bytes = .ok (lengths, rest) →
      (∃ len ∈ lengths, len < 0) →
      ((∃ e, @decodeDeltaLengthByteArray (hostOf build room simd) bytes = .error (.err e)) ↔
        lengths.length * vecSize ≤ room)) ∧
    (∀ bytes prefixLengths suffixLengths mid rest, bytes.length ≤ room →
      (@decodeDeltaI32From (hostOf build room simd)).run bytes = .ok (prefixLengths, mid) →
      (@decodeDeltaI32From (hostOf build room simd)).run mid = .ok (suffixLengths, rest) →
      BadLengths prefixLengths suffixLengths →
      ((∃ e, @decodeDeltaByteArray (hostOf build room simd) bytes = .error (.err e)) ↔
        (prefixLengths.length = suffixLengths.length → prefixLengths.length * vecSize ≤ room))) := by
  have hhost := limits_hostOf build room simd
  refine ⟨fun lengths henc hbits hroom => ?_,
    fun ns prefixes suffixes hchoice hpre hsuf hbits hbits' hroom => ?_,
    fun bytes lengths rest hroom hrun hneg => ?_,
    fun bytes prefixes suffixes mid rest hroom hpre hsuf hbad => ?_⟩
  · exact decodeDeltaLengthByteArray_iff (H := hostOf build room simd) hhost hlen henc hbits hroom
  · exact decodeDeltaByteArray_iff (H := hostOf build room simd) hhost hlen hchoice hpre hsuf hbits
      hbits' hroom
  · have hrest := (Reader.run_length_le _ hrun).trans hroom
    have hno (out) : (@takeFrom (hostOf build room simd) lengths).run rest ≠ .ok out := by
      intro hok
      obtain ⟨-, mid, -, hok⟩ := Reader.run_bind_eq_ok hok
      obtain ⟨len, hmem, hlt⟩ := hneg
      exact nonneg_of_takeValues (H := hostOf build room simd) hok len hmem hlt
    unfold decodeDeltaLengthByteArray
    rw [Reader.run_bind_ok hrun, err_iff_not_panics hno,
      takeFrom_panics_iff (H := hostOf build room simd) hhost hrest, Nat.not_lt]
  · have hmid := (Reader.run_length_le _ hpre).trans hroom
    have hrest := (Reader.run_length_le _ hsuf).trans hmid
    unfold decodeDeltaByteArray
    rw [Reader.run_bind_ok hpre, Reader.run_bind_ok hsuf,
      err_iff_not_panics (rebuildFrom_bad (H := hostOf build room simd) hbad rest),
      rebuildFrom_panics_iff (H := hostOf build room simd) hhost hrest, not_and, Nat.not_lt]

/-- A stream of two values: a block whose deltas are all the minimum. -/
def twoLengths (head : UInt64) (minDelta : UInt64) : Bytes :=
  writeUvarint 128 ++ (writeUvarint 4 ++ (writeUvarint 2 ++ (writeUvarint head
    ++ (writeUvarint minDelta ++ ([0, 0, 0, 0] ++ (packDigits 0 (List.replicate 32 0) ++ []))))))

theorem twoLengths_spec {a b : Int32} {d : Int64} {head minDelta : UInt64}
    (hhead : head.toNat = (zigzag a.toBitVec).toNat)
    (hmin : minDelta.toNat = (zigzag d.toBitVec).toNat)
    (hb : b.toBitVec = a.toBitVec + BitVec.ofInt 32 d.toInt + 0) :
    DeltaEncoding fourMiniBlocks [a, b] (twoLengths head minDelta) := by
  have hmini : MiniBlocks 32 d a [b] [0, 0, 0, 0] (packDigits 0 (List.replicate 32 0) ++ []) :=
    .used (List.cons_ne_nil _ _) (Nat.zero_le _) rfl (by decide) (.next hb (.padding _ _))
      (.unused _ _)
  have hblock := DeltaBlocks.block (p := fourMiniBlocks) (List.cons_ne_nil b [])
    (hmin ▸ isVarint_writeUvarint minDelta) rfl hmini (.done _)
  exact .stream a (isVarint_writeUvarint 128) (isVarint_writeUvarint 4) (isVarint_writeUvarint 2)
    (hhead ▸ isVarint_writeUvarint head) (by simp) hblock

/-- The second value takes over one byte of the first. -/
theorem byteArrays_inverse_iff_shared :
    @decodeDeltaLengthByteArray (hostOf .debug 128) (twoLengths 4 2 ++ ([7, 8, 7, 9, 4] ++ [1]))
      = .ok [[7, 8], [7, 9, 4]] ∧
    @decodeDeltaByteArray (hostOf .release 128 (some .avx2))
        (twoLengths 0 2 ++ (twoLengths 4 0 ++ ([7, 8, 9, 4] ++ [1])))
      = .ok [[7, 8], [7, 9, 4]] ∧
    (∃ e, @decodeDeltaLengthByteArray (hostOf .debug 128) (twoLengths 1 2 ++ [])
      = .error (.err e)) ∧
    ∃ e, @decodeDeltaByteArray (hostOf .debug 128) (twoLengths 2 2 ++ twoLengths 0 0)
      = .error (.err e) := by
  have hbits : 8 * (twoLengths 4 2).length < usizeBound ∧ 8 * (twoLengths 0 2).length < usizeBound ∧
      8 * (twoLengths 4 0).length < usizeBound := by decide +kernel
  have hroom : fourMiniBlocks.miniBlockSize * 4 ≤ 128 ∧ 2 * vecSize ≤ 128 := by decide
  have h := @byteArrays_inverse_iff .debug 128 none [[7, 8], [7, 9, 4]] (by decide) fourMiniBlocks
    fourMiniBlocks [1]
  have h' := @byteArrays_inverse_iff .release 128 (some .avx2) [[7, 8], [7, 9, 4]] (by decide)
    fourMiniBlocks fourMiniBlocks [1]
  have hneg : DeltaEncoding fourMiniBlocks [(-1 : Int32), 0] (twoLengths 1 2) :=
    twoLengths_spec (d := 1) (by decide) (by decide) (by decide)
  have hone : DeltaEncoding fourMiniBlocks [(1 : Int32), 2] (twoLengths 2 2) :=
    twoLengths_spec (d := 1) (by decide) (by decide) (by decide)
  have hzero : DeltaEncoding fourMiniBlocks [(0 : Int32), 0] (twoLengths 0 0) :=
    twoLengths_spec (d := 0) (by decide) (by decide) (by decide)
  have hdebug := limits_hostOf .debug 128 none
  have hread {values : List Int32} {bytes : Bytes} (henc : DeltaEncoding fourMiniBlocks values bytes)
      (hlen : values.length = 2) (hbits : 8 * bytes.length < usizeBound) (t : Bytes) :
      (@decodeDeltaI32From (hostOf .debug 128)).run (bytes ++ t) = .ok (values, t) :=
    (decodeDelta_encoding_iff (H := hostOf .debug 128) hdebug lawful_deltaI32 henc hbits t).mpr
      fun _ => roomFor_of_lengths hroom.1 (hlen ▸ hroom.2)
  refine ⟨(h.1 _ (twoLengths_spec (d := 1) (by decide) (by decide) (by decide)) hbits.1
      (by decide +kernel)).mpr fun _ => hroom,
    (h'.2.1 [0, 1] _ _ (.cons (by decide) (.cons (by decide) (.nil _)))
      (twoLengths_spec (d := 1) (by decide) (by decide) (by decide))
      (twoLengths_spec (d := 0) (by decide) (by decide) (by decide)) hbits.2.1 hbits.2.2
      (by decide +kernel)).mpr fun _ => ⟨hroom.1, hroom⟩,
    (h.2.2.1 _ _ [] (by decide +kernel) (hread hneg rfl (by decide +kernel) []) ⟨-1, by decide⟩).mpr
      hroom.2,
    (h.2.2.2 _ _ _ _ [] (by decide +kernel) (hread hone rfl (by decide +kernel) _)
      (List.append_nil (twoLengths 0 0) ▸ hread hzero rfl (by decide +kernel) [])
      (.inr (.inr ⟨0, 1, 0, rfl, rfl, by decide⟩))).mpr fun _ => hroom.2⟩

/-- Encodings of two strings of five bytes whose mini-blocks want buffers of 2^64 bytes. -/
theorem byteArrays_full :
    DeltaEncoding hugeMiniBlock (lengthWords ([[1, 2, 3, 4, 5], [6, 7, 8, 9, 10]].map List.length))
      (twiceInHugeBlock 10) ∧
    PrefixChoice [] [[1, 2, 3, 4, 5], [6, 7, 8, 9, 10]] [0, 0] ∧
    DeltaEncoding hugeMiniBlock (lengthWords [0, 0]) (twiceInHugeBlock 0) ∧
    ∀ build simd,
      @decodeDeltaLengthByteArray (hostOf build (2 ^ 63 - 1) simd)
          (twiceInHugeBlock 10 ++ [1, 2, 3, 4, 5, 6, 7, 8, 9, 10])
        ≠ .ok [[1, 2, 3, 4, 5], [6, 7, 8, 9, 10]] ∧
      @decodeDeltaByteArray (hostOf build (2 ^ 63 - 1) simd)
          (twiceInHugeBlock 0 ++ (twiceInHugeBlock 10 ++ [1, 2, 3, 4, 5, 6, 7, 8, 9, 10]))
        ≠ .ok [[1, 2, 3, 4, 5], [6, 7, 8, 9, 10]] := by
  have hlengths : DeltaEncoding hugeMiniBlock
      (lengthWords ([[1, 2, 3, 4, 5], [6, 7, 8, 9, 10]].map List.length)) (twiceInHugeBlock 10) :=
    twiceInHugeBlock_spec (a := (5 : Int32)) (by decide)
  have hprefixes : DeltaEncoding hugeMiniBlock (lengthWords [0, 0]) (twiceInHugeBlock 0) :=
    twiceInHugeBlock_spec (a := (0 : Int32)) (by decide)
  have hchoice : PrefixChoice [] [[1, 2, 3, 4, 5], [6, 7, 8, 9, 10]] [0, 0] :=
    .cons (Nat.zero_le _) (.cons (Nat.zero_le _) (.nil _))
  have hsizes : (twiceInHugeBlock 10).length = 14 ∧ (twiceInHugeBlock 0).length = 14 := by
    decide +kernel
  have hshort : ∀ v ∈ [[1, 2, 3, 4, 5], ([6, 7, 8, 9, 10] : Bytes)], v.length < 2 ^ 31 := by
    decide
  generalize twiceInHugeBlock 10 = lengths at *
  generalize twiceInHugeBlock 0 = prefixes at *
  have hbits : 8 * 14 < usizeBound := by decide +kernel
  have hfull : ¬ hugeMiniBlock.miniBlockSize * 4 ≤ 2 ^ 63 - 1 := by decide +kernel
  refine ⟨hlengths, hchoice, hprefixes, fun build simd => ⟨fun hrun => ?_, fun hrun => ?_⟩⟩
  · have hiff := decodeDeltaLengthByteArray_iff (H := hostOf build (2 ^ 63 - 1) simd)
      (limits_hostOf build _ simd) hshort (t := []) hlengths (by rwa [hsizes.1])
      (by simp [hsizes.1])
    exact hfull (hiff.mp hrun (List.cons_ne_nil _ _)).1
  · have hiff := decodeDeltaByteArray_iff (H := hostOf build (2 ^ 63 - 1) simd)
      (limits_hostOf build _ simd) hshort (t := []) hchoice hprefixes hlengths
      (by rwa [hsizes.2]) (by rwa [hsizes.1]) (by simp [hsizes.1, hsizes.2, suffixesOf])
    exact hfull (hiff.mp hrun (List.cons_ne_nil _ _)).1

end EmatixParquet
