/-
  The metadata readers on any bytes.

  `checking` is the machine on which everything a reader may not do is a panic:
  a field id out of the range of `i16`, and room for more elements of a list than
  there are bytes left.

  * `Checked P r r'`: `r`, which does not panic, and `r'`, the same reader on that
    machine, which panics on the inputs of `P`;
  * `Accepts`: the steps of a struct go on after small field ids only, so that the
    id of the next field is in range (`readFieldHeader_checking`);
  * `Checked.fields`, `Checked.struct`: the field loop.
-/
import EmatixParquet.Format.Metadata
import EmatixParquet.Wire.Guard

namespace EmatixParquet

open Wire Wire.Reader

variable {α β σ : Type}

/-! ## The machine that checks -/

/-- The machine that stops where a field id leaves `i16` or a list is longer than what is left.
    -/
@[reducible] def checking : Machine where
  addId prevId delta :=
    if -2 ^ 15 ≤ prevId.toInt + delta.toInt ∧ prevId.toInt + delta.toInt < 2 ^ 15 then
      .ok (prevId + delta)
    else .error (.panic "attempt to add with overflow")
  reserve n left := if n ≤ left then .ok () else .error (.panic "capacity overflow")

theorem not_panics_err {ε : Type} (e : ε) : ¬ Panics (.err e) := fun ⟨_, h⟩ => by cases h

/-- A reader that never panics, and its checked form, which stops exactly on `P`. -/
structure Checked (P : Bytes → Prop) (r r' : CursorM α) : Prop where
  calm : Calm Panics r
  guarded : Guarded Panics P r r'

/-- Nothing to check. -/
abbrev Total (r r' : CursorM α) : Prop := Checked (fun _ => False) r r'

theorem Checked.of_calm {P : Bytes → Prop} {r : CursorM α} (hr : Calm Panics r)
    (hP : ∀ bs, ¬ P bs) : Checked P r r :=
  ⟨hr, (Guarded.refl r).congr fun bs => by simp [hP bs]⟩

theorem Total.of_calm {r : CursorM α} (hr : Calm Panics r) : Total r r :=
  Checked.of_calm hr fun _ => id

theorem Checked.of_total {P : Bytes → Prop} {r r' : CursorM α} (h : Total r r')
    (hP : ∀ bs, ¬ P bs) : Checked P r r' :=
  ⟨h.calm, h.guarded.congr fun bs => by simp [hP bs]⟩

theorem Total.eq {r r' : CursorM α} (h : Total r r') : r' = r :=
  Reader.ext fun _ => h.guarded.same id

theorem Checked.congr {P Q : Bytes → Prop} {r r' : CursorM α} (h : Checked P r r')
    (hPQ : ∀ bs, P bs ↔ Q bs) : Checked Q r r' :=
  ⟨h.calm, h.guarded.congr hPQ⟩

@[simp] theorem Checked.map {P : Bytes → Prop} {r r' : CursorM α} (h : Checked P r r')
    (f : α → β) : Checked P (f <$> r) (f <$> r') :=
  ⟨h.calm.map f, h.guarded.map f⟩

/-! ## The readers of `compact.rs` -/

theorem calm_readU8 : Calm Panics readU8 := by
  intro bs e h
  cases bs with
  | nil =>
    cases h
    exact not_panics_err _
  | cons b bs => cases h

theorem calm_take (n : ℕ) : Calm Panics (take n) := by
  intro bs e h
  simp only [take] at h
  split at h
  · cases h
    exact not_panics_err _
  · cases h

theorem calm_throw (e : FormatError) : Calm Panics (throwFormat e : CursorM α) :=
  calm_fail (not_panics_err e)

theorem map_throw (f : α → β) (e : FormatError) :
    f <$> (throwFormat e : CursorM α) = throwFormat e := rfl

theorem calm_readUvarint : Calm Panics readUvarint := by
  intro bs e h
  obtain ⟨e, rfl⟩ := readUvarint_error h
  exact not_panics_err e

theorem calm_decodeFieldType (nibble : UInt8) : Calm Panics (lift (decodeFieldType nibble)) := by
  refine calm_lift fun e h => ?_
  unfold decodeFieldType at h
  split at h <;> cases h
  exact not_panics_err _

theorem calm_readZigzagI32 : Calm Panics readZigzagI32 := calm_readUvarint.map _

theorem calm_readZigzagI64 : Calm Panics readZigzagI64 := calm_readUvarint.map _

theorem calm_readZigzagI16 : Calm Panics readZigzagI16 := calm_readZigzagI32.map _

theorem calm_readI8 : Calm Panics readI8 := calm_readU8.map _

theorem calm_readBinary : Calm Panics readBinary := calm_readUvarint.bind fun _ => calm_take _

theorem calm_readListHeader : Calm Panics readListHeader := by
  refine calm_readU8.bind fun header => (calm_decodeFieldType _).bind fun et => ?_
  split
  · exact calm_pure _
  · exact calm_readUvarint.map _

theorem calm_readListOf {expected : FieldType} {r : CursorM α} (hr : Calm Panics r) :
    Calm Panics (readListOf expected r) := by
  refine calm_readListHeader.bind fun ⟨n, et⟩ => ?_
  dsimp only
  split
  · exact hr.times _
  · exact calm_throw _

theorem calm_readBool : Calm Panics readBool := by
  refine calm_readU8.bind fun b => ?_
  split
  · exact calm_pure _
  · split
    · exact calm_pure _
    · exact calm_throw _

/-- The high nibble of a header, as the sum takes it. -/
theorem toInt_delta (header : UInt8) :
    0 ≤ ((header &&& 0xF0) >>> 4).toUInt16.toInt16.toInt ∧
      ((header &&& 0xF0) >>> 4).toUInt16.toInt16.toInt ≤ 15 := by
  have h : ∀ n : Fin 256, 0 ≤ ((UInt8.ofNat n &&& 0xF0) >>> 4).toUInt16.toInt16.toInt ∧
      ((UInt8.ofNat n &&& 0xF0) >>> 4).toUInt16.toInt16.toInt ≤ 15 := by decide +kernel
  simpa using h ⟨header.toNat, header.toNat_lt⟩

/-- After a small id, the sum is in range. -/
theorem readFieldHeader_checking {prevId : Int16} (h : 0 ≤ prevId.toInt) (h' : prevId.toInt ≤ 18) :
    @readFieldHeader checking prevId = readFieldHeader prevId := by
  unfold readFieldHeader
  refine bind_congr fun header => ?_
  split
  · rfl
  · refine bind_congr fun fieldType => ?_
    split
    · rfl
    · have hdelta := toInt_delta header
      have hadd : @Machine.addId checking prevId ((header &&& 0xF0) >>> 4).toUInt16.toInt16
          = Machine.addId prevId ((header &&& 0xF0) >>> 4).toUInt16.toInt16 :=
        if_pos ⟨by omega, by omega⟩
      rw [hadd]

theorem calm_readFieldHeader (prevId : Int16) : Calm Panics (readFieldHeader prevId) := by
  refine calm_readU8.bind fun header => ?_
  split
  · exact calm_pure _
  · refine (calm_decodeFieldType _).bind fun fieldType => ?_
    split
    · exact calm_readZigzagI32.bind fun z => calm_pure _
    · exact (calm_pure _).bind fun id => calm_pure _

theorem calm_thriftEnum [ThriftEnum α] : Calm Panics (ThriftEnum.read : CursorM α) := by
  refine calm_readZigzagI32.bind fun v => calm_lift fun e h => ?_
  obtain ⟨name, rfl⟩ := ThriftEnum.fromI32_error h
  exact not_panics_err _

theorem calm_required (o : Option α) (s : String) (i : Int16) : Calm Panics (required o s i) := by
  cases o with
  | none => exact calm_throw _
  | some a => exact calm_pure a

theorem calm_requiredUnion (o : Option α) (s : String) : Calm Panics (requiredUnion o s) := by
  cases o with
  | none => exact calm_throw _
  | some a => exact calm_pure a

theorem calm_required_bind (o : Option α) (s : String) (i : Int16) (f : α → CursorM β) :
    Calm Panics (required o s i >>= f) ↔ ∀ a, o = some a → Calm Panics (f a) := by
  cases o with
  | none =>
    refine iff_of_true (fun bs e h => ?_) (by simp)
    cases h
    exact not_panics_err _
  | some a => simp

/-! ## Lists -/

/-- A list header of more elements than there are bytes after it. -/
def LongList (et : FieldType → Prop) (input : Bytes) : Prop :=
  ∃ p rest, readListHeader.run input = .ok (p, rest) ∧ et p.2 ∧ rest.length < p.1

/-- In a list of structs, the reader comes to an element at which `P`. -/
def InList (decodeOne : CursorM α) (P : Bytes → Prop) (input : Bytes) : Prop :=
  ∃ p rest, readListHeader.run input = .ok (p, rest) ∧ p.2 = .struct ∧
    Meets P decodeOne p.1 rest

theorem checked_reserve (n : ℕ) :
    Checked (fun bs => bs.length < n) (reserve n) (@reserve checking n) where
  calm := by
    intro bs e h
    cases h
  guarded := by
    constructor
    · intro bs hlt
      have hfull : @Machine.reserve checking n bs.length = .error (.panic "capacity overflow") :=
        if_neg (Nat.not_le.mpr hlt)
      refine ⟨_, ⟨"capacity overflow", rfl⟩, ?_⟩
      unfold reserve
      rw [run_bind, run_remaining]
      dsimp only
      rw [hfull]
      rfl
    · intro bs hge
      have hroom : @Machine.reserve checking n bs.length = .ok () := if_pos (Nat.not_lt.mp hge)
      unfold reserve
      rw [run_bind, run_bind, run_remaining]
      dsimp only
      rw [hroom]
      rfl

/-- A list that reserves, with its elements: they come after as many bytes as
    before, for nothing is read in between. -/
theorem checked_elements {P : Bytes → Prop} {r r' : CursorM α} (h : Checked P r r') (n : ℕ) :
    Checked (fun bs => bs.length < n ∨ Meets P r n bs) (reserve n >>= fun _ => r.times n)
      (@reserve checking n >>= fun _ => r'.times n) where
  calm := (checked_reserve n).calm.bind fun _ => h.calm.times n
  guarded := ((checked_reserve n).guarded.bind fun _ => h.guarded.times n).congr fun bs => by
    refine or_congr_right ⟨?_, fun hmeets => ⟨(), bs, rfl, hmeets⟩⟩
    rintro ⟨_, mid, hrun, hmeets⟩
    cases hrun
    exact hmeets

theorem checked_list {P : Bytes → Prop} {r r' : CursorM α} (h : Checked P r r')
    (et : FieldType → Prop) [DecidablePred et] (e : FieldType → FormatError) :
    Checked (fun input => ∃ p rest, readListHeader.run input = .ok (p, rest) ∧ et p.2 ∧
        (rest.length < p.1 ∨ Meets P r p.1 rest))
      (readListHeader >>= fun p => if et p.2 then reserve p.1 >>= fun _ => r.times p.1
        else throwFormat (e p.2))
      (readListHeader >>= fun p => if et p.2 then @reserve checking p.1 >>= fun _ => r'.times p.1
        else throwFormat (e p.2)) := by
  have hbody : ∀ p : ℕ × FieldType,
      Checked (fun bs => et p.2 ∧ (bs.length < p.1 ∨ Meets P r p.1 bs))
        (if et p.2 then reserve p.1 >>= fun _ => r.times p.1 else throwFormat (e p.2))
        (if et p.2 then @reserve checking p.1 >>= fun _ => r'.times p.1
          else throwFormat (e p.2)) := by
    intro p
    by_cases het : et p.2
    · rw [if_pos het, if_pos het]
      exact (checked_elements h p.1).congr fun bs => by simp [het]
    · rw [if_neg het, if_neg het]
      exact .of_calm (calm_throw _) fun bs hbs => het hbs.1
  refine ⟨calm_readListHeader.bind fun p => (hbody p).calm, ?_⟩
  exact ((Guarded.refl readListHeader).bind fun p => (hbody p).guarded).congr fun bs => by simp

theorem checked_listStruct {P : Bytes → Prop} {r r' : CursorM α} (h : Checked P r r') :
    Checked (fun input => LongList (· = .struct) input ∨ InList r P input) (readListStruct r)
      (@readListStruct _ checking r') := by
  refine (checked_list h (· = .struct) (.unexpectedListElementType .struct)).congr fun input => ?_
  constructor
  · rintro ⟨p, rest, hrun, het, hlong | hmeets⟩
    · exact .inl ⟨p, rest, hrun, het, hlong⟩
    · exact .inr ⟨p, rest, hrun, het, hmeets⟩
  · rintro (⟨p, rest, hrun, het, hlong⟩ | ⟨p, rest, hrun, het, hmeets⟩)
    · exact ⟨p, rest, hrun, het, .inl hlong⟩
    · exact ⟨p, rest, hrun, het, .inr hmeets⟩

/-- The elements reserve nothing. -/
theorem checked_listTotal {r r' : CursorM α} (h : Total r r') :
    Checked (LongList (· = .struct)) (readListStruct r) (@readListStruct _ checking r') :=
  (checked_listStruct h).congr fun bs => by simp [InList, Meets]

theorem checked_listBool : Checked (LongList fun et => et = .boolTrue ∨ et = .boolFalse)
    readListBool (@readListBool checking) :=
  (checked_list (Total.of_calm calm_readBool) (fun et => et = .boolTrue ∨ et = .boolFalse)
    (.unexpectedListElementType .boolTrue)).congr fun bs => by simp [LongList, Meets]

/-! ## Structs -/

/-- What a struct reader does about one field: it checks `P`, and if it goes on
    then the id was small. -/
structure Accepts (h : FieldHeader) (P : Bytes → Prop) (r r' : CursorM σ) : Prop where
  checked : Checked P r r'
  small : (0 ≤ h.id.toInt ∧ h.id.toInt ≤ 18) ∨ ∃ e, r = throwFormat e

section
variable {step step' : σ → FieldHeader → CursorM σ} {Q : FieldHeader → Bytes → Prop}

/-- The reader of a struct comes to a field at which `Q`. -/
def InFields (step : σ → FieldHeader → CursorM σ) (init : σ) (Q : FieldHeader → Bytes → Prop)
    (input : Bytes) : Prop :=
  (fieldLoop step).Meets
    (fun s bs => ∃ h rest, (readFieldHeader s.2).run bs = .ok (some h, rest) ∧ Q h rest)
    (init, 0) input

theorem calm_fieldStep (hstep : ∀ a h, Accepts h (Q h) (step a h) (step' a h)) (s : σ × Int16) :
    Calm Panics ((fieldLoop step).step s) := by
  refine (calm_readFieldHeader s.2).bind fun o => ?_
  cases o with
  | none => exact calm_pure _
  | some h => exact (hstep s.1 h).checked.calm.map _

theorem checked_fieldStep (hstep : ∀ a h, Accepts h (Q h) (step a h) (step' a h)) {s : σ × Int16}
    (hs : 0 ≤ s.2.toInt ∧ s.2.toInt ≤ 18) :
    Checked (fun bs => ∃ h rest, (readFieldHeader s.2).run bs = .ok (some h, rest) ∧ Q h rest)
      ((fieldLoop step).step s) ((@fieldLoop _ checking step').step s) := by
  have hcheck : Guarded Panics (fun bs => False ∨ ∃ o rest,
      (readFieldHeader s.2).run bs = .ok (o, rest) ∧ ∃ h, o = some h ∧ Q h rest)
      ((fieldLoop step).step s) ((@fieldLoop _ checking step').step s) := by
    unfold fieldLoop
    dsimp only
    rw [readFieldHeader_checking hs.1 hs.2]
    refine (Guarded.refl _).bind fun o => ?_
    cases o with
    | none => exact (Guarded.refl _).congr fun bs => by simp
    | some h => exact ((hstep s.1 h).checked.guarded.map _).congr fun bs => by simp
  refine ⟨calm_fieldStep hstep s, hcheck.congr fun bs => ?_⟩
  rw [false_or]
  constructor
  · rintro ⟨_, rest, hrun, h, rfl, hQ⟩
    exact ⟨h, rest, hrun, hQ⟩
  · rintro ⟨h, rest, hrun, hQ⟩
    exact ⟨some h, rest, hrun, h, rfl, hQ⟩

/-- **The field loop.**  All ids stay small, so that only the steps can panic. -/
theorem Checked.fields (hstep : ∀ a h, Accepts h (Q h) (step a h) (step' a h)) (init : σ) :
    Checked (InFields step init Q) (readFields step init) (@readFields _ checking step' init) := by
  refine ⟨Loop.calm_run _ (calm_fieldStep hstep) _, ?_⟩
  refine Loop.guarded (fieldLoop step) (@fieldLoop _ checking step')
    (I := fun s => 0 ≤ s.2.toInt ∧ s.2.toInt ≤ 18) (fun hs => (checked_fieldStep hstep hs).guarded)
    (fun {s bs s' rest} hs hrun => ?_) ⟨le_rfl, show (0 : Int16).toInt ≤ 18 by decide⟩
  obtain ⟨o, mid, -, hbody⟩ := run_bind_eq_ok hrun
  cases o with
  | none => cases hbody
  | some h =>
    rw [run_map] at hbody
    split at hbody
    · cases hbody
    · next hok =>
      cases hbody
      -- the id of the next field is added to this one, which was accepted
      rcases (hstep s.1 h).small with hsmall | ⟨e, he⟩
      · exact hsmall
      · rw [he] at hok
        cases hok

/-- The fields, and then what reserves nothing. -/
theorem Checked.struct (hstep : ∀ a h, Accepts h (Q h) (step a h) (step' a h)) {init : σ}
    {f : σ → CursorM α} (hf : ∀ a, Calm Panics (f a)) :
    Checked (InFields step init Q) (readFields step init >>= f)
      (@readFields _ checking step' init >>= f) :=
  ⟨(Checked.fields hstep init).calm.bind hf, (Checked.fields hstep init).guarded.bind_left f⟩

/-- Nothing is checked at any field. -/
theorem not_inFields {init : σ} (hQ : ∀ h bs, ¬ Q h bs) (input : Bytes) :
    ¬ InFields step init Q input := by
  intro h
  unfold InFields at h
  generalize (init, (0 : Int16)) = s at h
  induction h with
  | here hbad =>
    obtain ⟨h, rest, -, hbad⟩ := hbad
    exact hQ h rest hbad
  | later _ _ ih => exact ih

theorem Total.fields (hstep : ∀ a h, Accepts h (fun _ => False) (step a h) (step' a h)) (init : σ) :
    Total (readFields step init) (@readFields _ checking step' init) :=
  (Checked.fields hstep init).congr fun bs => iff_of_false (not_inFields (fun _ _ => id) bs) id

theorem Total.struct (hstep : ∀ a h, Accepts h (fun _ => False) (step a h) (step' a h)) {init : σ}
    {f : σ → CursorM α} (hf : ∀ a, Calm Panics (f a)) :
    Total (readFields step init >>= f) (@readFields _ checking step' init >>= f) :=
  (Checked.struct hstep hf).congr fun bs => iff_of_false (not_inFields (fun _ _ => id) bs) id

theorem total_emptyStruct (name : String) :
    Total (readEmptyStruct name) (@readEmptyStruct checking name) := by
  unfold readEmptyStruct
  rw [readFieldHeader_checking le_rfl (by decide)]
  refine .of_calm ((calm_readFieldHeader 0).bind fun o => ?_)
  cases o with
  | none => exact calm_pure _
  | some h => exact calm_throw _

end

/-! ## Structs that reserve nothing -/

attribute [local simp] map_throw Calm.map calm_pure calm_throw calm_required calm_required_bind
  calm_requiredUnion calm_readZigzagI16 calm_readZigzagI32 calm_readZigzagI64 calm_readI8
  calm_readBinary calm_thriftEnum calm_readListOf Total.of_calm total_emptyStruct

@[local simp] theorem total_statistics : Total readStatistics (@readStatistics checking) := by
  refine .fields (fun a h => ?_) _
  unfold readStatisticsStep
  split <;> exact ⟨by simp, by simp [*]⟩

@[local simp] theorem total_keyValue : Total readKeyValue (@readKeyValue checking) := by
  refine .struct (fun a h => ?_) fun a => by simp
  unfold readKeyValueStep
  split <;> exact ⟨by simp, by simp [*]⟩

@[local simp] theorem total_dataPageHeader :
    Total readDataPageHeader (@readDataPageHeader checking) := by
  refine .struct (fun a h => ?_) fun a => by simp
  unfold readDataPageHeaderStep
  split <;> exact ⟨by simp, by simp [*]⟩

@[local simp] theorem total_indexPageHeader :
    Total readIndexPageHeader (@readIndexPageHeader checking) :=
  (total_emptyStruct _).map _

@[local simp] theorem total_dictionaryPageHeader :
    Total readDictionaryPageHeader (@readDictionaryPageHeader checking) := by
  refine .struct (fun a h => ?_) fun a => by simp
  unfold readDictionaryPageHeaderStep
  split <;> exact ⟨by simp, by simp [*]⟩

@[local simp] theorem total_dataPageHeaderV2 :
    Total readDataPageHeaderV2 (@readDataPageHeaderV2 checking) := by
  refine .struct (fun a h => ?_) fun a => by simp
  unfold readDataPageHeaderV2Step
  split <;> exact ⟨by simp, by simp [*]⟩

/-- Page headers have no lists. -/
theorem total_pageHeader : Total readPageHeader (@readPageHeader checking) := by
  refine .struct (fun a h => ?_) fun a => by simp
  unfold readPageHeaderStep
  split <;> exact ⟨by simp, by simp [*]⟩

@[local simp] theorem total_timeUnit : Total readTimeUnit (@readTimeUnit checking) := by
  refine .struct (fun a h => ?_) fun a => by simp
  unfold readTimeUnitStep
  split <;> exact ⟨by simp, by simp [*]⟩

@[local simp] theorem total_decimalType : Total readDecimalType (@readDecimalType checking) := by
  refine .struct (fun a h => ?_) fun a => by simp
  unfold readDecimalTypeStep
  split <;> exact ⟨by simp, by simp [*]⟩

@[local simp] theorem total_intType : Total readIntType (@readIntType checking) := by
  refine .struct (fun a h => ?_) fun a => by simp
  unfold readIntTypeStep
  split <;> exact ⟨by simp, by simp [*]⟩

theorem accepts_utcUnit (name : String) (a : UtcUnitAcc) (h : FieldHeader) :
    Accepts h (fun _ => False) (readUtcUnitStep name a h) (@readUtcUnitStep checking name a h) := by
  unfold readUtcUnitStep
  split <;> exact ⟨by simp, by simp [*]⟩

@[local simp] theorem total_timestampType :
    Total readTimestampType (@readTimestampType checking) :=
  .struct (accepts_utcUnit _) fun a => by simp

@[local simp] theorem total_timeType : Total readTimeType (@readTimeType checking) :=
  .struct (accepts_utcUnit _) fun a => by simp

@[local simp] theorem total_variantType : Total readVariantType (@readVariantType checking) := by
  refine .fields (fun a h => ?_) _
  unfold readVariantTypeStep
  split <;> exact ⟨by simp, by simp [*]⟩

@[local simp] theorem total_geometryType : Total readGeometryType (@readGeometryType checking) := by
  refine .fields (fun a h => ?_) _
  unfold readGeometryTypeStep
  split <;> exact ⟨by simp, by simp [*]⟩

@[local simp] theorem total_geographyType :
    Total readGeographyType (@readGeographyType checking) := by
  refine .fields (fun a h => ?_) _
  unfold readGeographyTypeStep
  split <;> exact ⟨by simp, by simp [*]⟩

@[local simp] theorem total_logicalType : Total readLogicalType (@readLogicalType checking) := by
  refine .struct (fun a h => ?_) fun a => by simp
  unfold readLogicalTypeStep
  split <;> exact ⟨by simp, by simp [*]⟩

@[local simp] theorem total_schemaElement :
    Total readSchemaElement (@readSchemaElement checking) := by
  refine .struct (fun a h => ?_) fun a => by simp
  unfold readSchemaElementStep
  split <;> exact ⟨by simp, by simp [*]⟩

/-! Encryption descriptors have lists of strings only. -/

@[local simp] theorem total_aesGcmV1 : Total readAesGcmV1 (@readAesGcmV1 checking) := by
  refine .fields (fun a h => ?_) _
  unfold readAesGcmV1Step
  split <;> exact ⟨by simp, by simp [*]⟩

@[local simp] theorem total_aesGcmCtrV1 : Total readAesGcmCtrV1 (@readAesGcmCtrV1 checking) := by
  refine .fields (fun a h => ?_) _
  unfold readAesGcmCtrV1Step
  split <;> exact ⟨by simp, by simp [*]⟩

@[local simp] theorem total_encryptionAlgorithm :
    Total readEncryptionAlgorithm (@readEncryptionAlgorithm checking) := by
  refine .struct (fun a h => ?_) fun a => by simp
  unfold readEncryptionAlgorithmStep
  split <;> exact ⟨by simp, by simp [*]⟩

theorem calm_readListBinary : Calm Panics readListBinary := calm_readListOf calm_readBinary

theorem calm_readListI64 : Calm Panics readListI64 := calm_readListOf calm_readZigzagI64

theorem calm_readEncodings : Calm Panics readEncodings := by
  refine (calm_readListOf calm_readZigzagI32).bind fun raw => calm_lift fun e h => ?_
  obtain ⟨i, v, -, hv, -⟩ := mapM_eq_error.mp h
  obtain ⟨name, rfl⟩ := ThriftEnum.fromI32_error hv
  exact not_panics_err _

attribute [local simp] calm_readListBinary calm_readListI64 calm_readEncodings

@[local simp] theorem total_encryptionWithColumnKey :
    Total readEncryptionWithColumnKey (@readEncryptionWithColumnKey checking) := by
  refine .struct (fun a h => ?_) fun a => by simp
  unfold readEncryptionWithColumnKeyStep
  split <;> exact ⟨by simp, by simp [*]⟩

@[local simp] theorem total_encryptionWithFooterKey :
    Total readEncryptionWithFooterKey (@readEncryptionWithFooterKey checking) :=
  total_emptyStruct _

@[local simp] theorem total_columnCryptoMetadata :
    Total readColumnCryptoMetadata (@readColumnCryptoMetadata checking) := by
  refine .struct (fun a h => ?_) fun a => by simp
  unfold readColumnCryptoMetadataStep
  split <;> exact ⟨by simp, by simp [*]⟩

theorem total_pageEncodingStats :
    Total readPageEncodingStats (@readPageEncodingStats checking) := by
  refine .struct (fun a h => ?_) fun a => by simp
  unfold readPageEncodingStatsStep
  split <;> exact ⟨by simp, by simp [*]⟩

@[local simp] theorem total_sizeStatistics :
    Total readSizeStatistics (@readSizeStatistics checking) := by
  refine .fields (fun a h => ?_) _
  unfold readSizeStatisticsStep
  split <;> exact ⟨by simp, by simp [*]⟩

theorem total_sortingColumn : Total readSortingColumn (@readSortingColumn checking) := by
  refine .struct (fun a h => ?_) fun a => by simp
  unfold readSortingColumnStep
  split <;> exact ⟨by simp, by simp [*]⟩

theorem total_columnOrder : Total readColumnOrder (@readColumnOrder checking) := by
  refine .struct (fun a h => ?_) fun a => by simp
  unfold readColumnOrderStep
  split <;> exact ⟨by simp, by simp [*]⟩

theorem total_pageLocation : Total readPageLocation (@readPageLocation checking) := by
  refine .struct (fun a h => ?_) fun a => by simp
  unfold readPageLocationStep
  split <;> exact ⟨by simp, by simp [*]⟩

/-! ## Structs with lists of structs -/

/-- The field is of this id and type, and what follows its header is of `P`. -/
def AtField (id : ℤ) (ty : FieldType) (P : Bytes → Prop) (h : FieldHeader) (rest : Bytes) : Prop :=
  h.id.toInt = id ∧ h.fieldType = ty ∧ P rest

@[local simp] theorem not_atField {id : ℤ} {ty : FieldType} {P : Bytes → Prop} {h : FieldHeader}
    (hne : h.id.toInt = id → h.fieldType = ty → False) (rest : Bytes) : ¬ AtField id ty P h rest :=
  fun hat => hne hat.1 hat.2.1

/-- A list of structs longer than the rest of the input. -/
abbrev LongStructs : Bytes → Prop := LongList (· = .struct)

/-- In the key-value pairs or the encoding statistics. -/
def LongColumnMetadata : Bytes → Prop :=
  InFields readColumnMetadataStep {} fun h rest =>
    AtField 8 .list LongStructs h rest ∨ AtField 13 .list LongStructs h rest

theorem checked_columnMetadata :
    Checked LongColumnMetadata readColumnMetadata (@readColumnMetadata checking) := by
  refine .struct (fun a h => ?_) fun a => by simp
  unfold readColumnMetadataStep
  split
  case h_8 hid hty =>
    refine ⟨((checked_listTotal total_keyValue).map _).congr fun bs => ?_, by simp [hid]⟩
    simp [AtField, hid, hty]
  case h_13 hid hty =>
    refine ⟨((checked_listTotal total_pageEncodingStats).map _).congr fun bs => ?_, by simp [hid]⟩
    simp [AtField, hid, hty]
  all_goals exact ⟨.of_total (by simp) (by simp [*]), by simp [*]⟩

/-- A column chunk whose metadata holds a list longer than what is left. -/
def LongColumnChunk : Bytes → Prop :=
  InFields readColumnChunkStep {} (AtField 3 .struct LongColumnMetadata)

theorem checked_columnChunk :
    Checked LongColumnChunk readColumnChunk (@readColumnChunk checking) := by
  refine .struct (fun a h => ?_) fun a => by simp
  unfold readColumnChunkStep
  split
  case h_3 hid hty =>
    refine ⟨(checked_columnMetadata.map _).congr fun bs => ?_, by simp [hid]⟩
    simp [AtField, hid, hty]
  all_goals exact ⟨.of_total (by simp) (by simp [*]), by simp [*]⟩

/-- In the columns, the sorting columns or a column. -/
def LongRowGroup : Bytes → Prop :=
  InFields readRowGroupStep {} fun h rest =>
    AtField 1 .list LongStructs h rest ∨ AtField 4 .list LongStructs h rest ∨
      AtField 1 .list (InList readColumnChunk LongColumnChunk) h rest

theorem checked_rowGroup : Checked LongRowGroup readRowGroup (@readRowGroup checking) := by
  refine .struct (fun a h => ?_) fun a => by simp
  unfold readRowGroupStep
  split
  case h_1 hid hty =>
    refine ⟨((checked_listStruct checked_columnChunk).map _).congr fun bs => ?_, by simp [hid]⟩
    simp [AtField, hid, hty]
  case h_4 hid hty =>
    refine ⟨((checked_listTotal total_sortingColumn).map _).congr fun bs => ?_, by simp [hid]⟩
    simp [AtField, hid, hty]
  all_goals exact ⟨.of_total (by simp) (by simp [*]), by simp [*]⟩

/-- In the schema, the row groups, the key-value pairs, the column orders or a row
    group. -/
def LongFileMetadata : Bytes → Prop :=
  InFields readFileMetadataStep {} fun h rest =>
    AtField 2 .list LongStructs h rest ∨ AtField 4 .list LongStructs h rest ∨
      AtField 5 .list LongStructs h rest ∨ AtField 7 .list LongStructs h rest ∨
      AtField 4 .list (InList readRowGroup LongRowGroup) h rest

theorem checked_fileMetadata :
    Checked LongFileMetadata readFileMetadata (@readFileMetadata checking) := by
  refine .struct (fun a h => ?_) fun a => by simp
  unfold readFileMetadataStep
  split
  case h_2 hid hty =>
    refine ⟨((checked_listTotal total_schemaElement).map _).congr fun bs => ?_, by simp [hid]⟩
    simp [AtField, hid, hty]
  case h_4 hid hty =>
    refine ⟨((checked_listStruct checked_rowGroup).map _).congr fun bs => ?_, by simp [hid]⟩
    simp [AtField, hid, hty]
  case h_5 hid hty =>
    refine ⟨((checked_listTotal total_keyValue).map _).congr fun bs => ?_, by simp [hid]⟩
    simp [AtField, hid, hty]
  case h_7 hid hty =>
    refine ⟨((checked_listTotal total_columnOrder).map _).congr fun bs => ?_, by simp [hid]⟩
    simp [AtField, hid, hty]
  all_goals exact ⟨.of_total (by simp) (by simp [*]), by simp [*]⟩

/-- An offset index whose list of pages is longer than what is left. -/
def LongOffsetIndex : Bytes → Prop :=
  InFields readOffsetIndexStep {} (AtField 1 .list LongStructs)

theorem checked_offsetIndex :
    Checked LongOffsetIndex readOffsetIndex (@readOffsetIndex checking) := by
  refine .struct (fun a h => ?_) fun a => by simp
  unfold readOffsetIndexStep
  split
  case h_1 hid hty =>
    refine ⟨((checked_listTotal total_pageLocation).map _).congr fun bs => ?_, by simp [hid]⟩
    simp [AtField, hid, hty]
  all_goals exact ⟨.of_total (by simp) (by simp [*]), by simp [*]⟩

/-- In the null pages, a list of booleans. -/
def LongColumnIndex : Bytes → Prop :=
  InFields readColumnIndexStep {}
    (AtField 1 .list (LongList fun et => et = .boolTrue ∨ et = .boolFalse))

theorem checked_columnIndex :
    Checked LongColumnIndex readColumnIndex (@readColumnIndex checking) := by
  refine .struct (fun a h => ?_) fun a => by simp
  unfold readColumnIndexStep
  split
  case h_1 hid hty =>
    refine ⟨(checked_listBool.map _).congr fun bs => ?_, by simp [hid]⟩
    simp [AtField, hid, hty]
  all_goals exact ⟨.of_total (by simp) (by simp [*]), by simp [*]⟩

/-! ## The header of a bloom filter -/

theorem total_skipFieldHeaders :
    Total (skipFieldHeaders.run ()) ((@skipFieldHeaders checking).run ()) := by
  have hstep : ∀ s, Calm Panics (skipFieldHeaders.step s) := fun s =>
    (calm_readFieldHeader 0).bind fun o => by cases o <;> exact calm_pure _
  have hsame : @skipFieldHeaders checking = skipFieldHeaders := by
    unfold skipFieldHeaders
    congr 1
    rw [readFieldHeader_checking le_rfl (by decide)]
  rw [hsame]
  exact .of_calm (Loop.calm_run _ hstep ())

@[local simp] theorem total_bloomUnion (name : String) (variant : α) :
    Total (readBloomUnion name variant) (@readBloomUnion checking _ name variant) := by
  refine .struct (fun a h => ?_) fun a => by simp
  by_cases hid : h.id = 1
  · rw [if_pos hid, if_pos hid]
    exact ⟨total_skipFieldHeaders.map _, .inl (by simp [hid])⟩
  · rw [if_neg hid, if_neg hid]
    exact ⟨by simp, .inr ⟨_, rfl⟩⟩

theorem total_bloomFilterHeader :
    Total readBloomFilterHeader (@readBloomFilterHeader checking) := by
  refine .struct (fun a h => ?_) fun a => by simp
  unfold readBloomFilterHeaderStep
  split <;> exact ⟨by simp, by simp [*]⟩

/-! ## Any bytes -/

/-- The reader returns a value or an error. -/
def Settles (r : CursorM α) (input : Bytes) : Prop := ∀ msg, r.run input ≠ .error (.panic msg)

theorem Checked.settles_iff {P : Bytes → Prop} {r r' : CursorM α} (h : Checked P r r')
    (input : Bytes) : Settles r' input ↔ ¬ P input := by
  rw [← h.guarded.fails_iff h.calm]
  constructor
  · rintro hsettles ⟨_, ⟨msg, rfl⟩, hrun⟩
    exact hsettles msg hrun
  · rintro hno msg hrun
    exact hno ⟨_, ⟨msg, rfl⟩, hrun⟩

/-- **The metadata readers on any bytes.**  No field id ever leaves its range; what
    can go wrong is the room asked for by a list of structs or of booleans whose
    header has more elements than there are bytes after it. -/
theorem metadataReaders_settle_iff (input : Bytes) :
    (Settles (@readFileMetadata checking) input ↔ ¬ LongFileMetadata input) ∧
    Settles (@readPageHeader checking) input ∧
    (Settles (@readColumnIndex checking) input ↔ ¬ LongColumnIndex input) ∧
    (Settles (@readOffsetIndex checking) input ↔ ¬ LongOffsetIndex input) ∧
    Settles (@readBloomFilterHeader checking) input :=
  ⟨checked_fileMetadata.settles_iff input, (total_pageHeader.settles_iff input).mpr id,
    checked_columnIndex.settles_iff input, checked_offsetIndex.settles_iff input,
    (total_bloomFilterHeader.settles_iff input).mpr id⟩

/-- The count of a list that no memory holds. -/
def hugeCount : Bytes := List.replicate 9 0xFF ++ [0x01]

/-- The schema, the null pages and the page locations. -/
theorem metadataReaders_overflow :
    ¬ Settles (@readFileMetadata checking) (0x29 :: 0xFC :: hugeCount) ∧
    ¬ Settles (@readColumnIndex checking) (0x19 :: 0xF1 :: hugeCount) ∧
    ¬ Settles (@readOffsetIndex checking) (0x19 :: 0xFC :: hugeCount) :=
  ⟨fun h => h "capacity overflow" (by decide +kernel),
    fun h => h "capacity overflow" (by decide +kernel),
    fun h => h "capacity overflow" (by decide +kernel)⟩

end EmatixParquet
