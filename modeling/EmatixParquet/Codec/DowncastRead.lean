/-
  Narrowing on read (`read_column_i64_downcast`) — the statistics of a column
  choose the width, and every page is decoded into it.

  * `toInt64_between`: an unsigned range whose bounds are in signed order too is
    a signed range;
  * `decodes_narrow_i64`, `decodes_narrow_u64`: the narrow decoders undo the
    encodings of a column that the width holds;
  * `readColumnI64Downcast_written`: a column of a written table is read as
    `read_column_i64` reads it, where its pages and the footer fit in the fields
    that record their sizes;
  * `recordedFooter_zeroEnding`: a footer that does not fit, whose end is a footer
    with other statistics.
-/
import EmatixParquet.Codec.Downcast
import EmatixParquet.Codec.ExactStats

namespace EmatixParquet

open Wire

/-! ## Decoders -/

section
variable (build : Build)

/-- The `decode_plain_i64_as_*`: `v as T`. -/
def decodePlainI64As (τ : Type) [NarrowInt τ] (bytes : Bytes) : Res CodecError (List τ) :=
  narrowDecode bytes fun v : Int64 => do
    let _ ← build.debugAssert (NarrowInt.min τ ≤ v.toInt && v.toInt ≤ NarrowInt.max τ)
      s!"{NarrowInt.name τ} downcast lost {v.toInt}"
    pure (NarrowInt.ofI64 v)

/-- `decode_plain_i64_as_i8`. -/
def decodePlainI64AsI8 : Bytes → Res CodecError (List Int8) := decodePlainI64As build Int8

/-- `decode_plain_i64_as_u8`. -/
def decodePlainI64AsU8 : Bytes → Res CodecError (List UInt8) := decodePlainI64As build UInt8

/-- `decode_plain_i64_as_i16`. -/
def decodePlainI64AsI16 : Bytes → Res CodecError (List Int16) := decodePlainI64As build Int16

/-- `decode_plain_i64_as_u16`. -/
def decodePlainI64AsU16 : Bytes → Res CodecError (List UInt16) := decodePlainI64As build UInt16

/-- `decode_plain_i64_as_i32`. -/
def decodePlainI64AsI32 : Bytes → Res CodecError (List Int32) := decodePlainI64As build Int32

/-- `decode_plain_i64_as_u32`. -/
def decodePlainI64AsU32 : Bytes → Res CodecError (List UInt32) := decodePlainI64As build UInt32

/-- `decode_chunk_into` with a decoder of PLAIN bytes: the dictionary has the
    values of its type. -/
def scalarDecoder {τ : Type} (decodePlain : Bytes → Res CodecError (List τ)) : PageDecoder τ where
  plain := decodePlain
  dict dict numValues values := decodeRleDictionary values dict numValues

/-! ## The width -/

/-- The width of a pair of bounds of 8 bytes, read as signed numbers. -/
def boundsNarrowTarget (minBytes maxBytes : Option Bytes) : Res CodecError IntTarget :=
  match minBytes, maxBytes with
  | some mn, some mx =>
    if mn.length = 8 ∧ mx.length = 8 then
      let min : Int64 := fromLeBytes mn
      let max : Int64 := fromLeBytes mx
      if max < min then .ok .i64 else narrowestIntTarget build min max
    else .ok .i64
  | _, _ => .ok .i64

/-- `min_value` and `max_value` are preferred to `min` and `max`. -/
def statisticsNarrowTarget (stats : Statistics) : Res CodecError IntTarget :=
  boundsNarrowTarget build (stats.minValue <|> stats.min) (stats.maxValue <|> stats.max)

/-- The target that the chunk's statistics allow; `i64` without them. -/
def columnNarrowTarget (file : ParquetFile) (rowGroup column : ℕ) : Res CodecError IntTarget := do
  let md ← mapIo ioToCodec file.metadata
  match (md.rowGroups[rowGroup]?.bind (·.columns[column]?)).bind (·.metaData) with
  | none => pure .i64
  | some cm =>
    match cm.statistics with
    | none => pure .i64
    | some stats => statisticsNarrowTarget build stats

/-- `read_column_i64_downcast`: every page narrowed while it is decoded. -/
def readColumnI64Downcast [Platform] (file : ParquetFile) (rowGroup column : ℕ) :
    Res CodecError NarrowedI64 := do
  let target ← columnNarrowTarget build file rowGroup column
  match target with
  | .i8 => .i8 <$> decodeChunk (scalarDecoder (decodePlainI64AsI8 build)) file rowGroup column
  | .u8 => .u8 <$> decodeChunk (scalarDecoder (decodePlainI64AsU8 build)) file rowGroup column
  | .i16 => .i16 <$> decodeChunk (scalarDecoder (decodePlainI64AsI16 build)) file rowGroup column
  | .u16 => .u16 <$> decodeChunk (scalarDecoder (decodePlainI64AsU16 build)) file rowGroup column
  | .i32 => .i32 <$> decodeChunk (scalarDecoder (decodePlainI64AsI32 build)) file rowGroup column
  | .u32 => .u32 <$> decodeChunk (scalarDecoder (decodePlainI64AsU32 build)) file rowGroup column
  | .i64 => .i64 <$> decodeChunk (scalarDecoder decodePlainI64) file rowGroup column

end

/-! ## The narrow decoders -/

section
variable {τ : Type} [NarrowInt τ]

/-- The width holds every one of the values. -/
def HeldBy (τ : Type) [NarrowInt τ] (values : List Int64) : Prop :=
  ∀ v ∈ values, NarrowInt.min τ ≤ v.toInt ∧ v.toInt ≤ NarrowInt.max τ

theorem toI64_map_ofI64 {values : List Int64} (h : HeldBy τ values) :
    (values.map (NarrowInt.ofI64 : Int64 → τ)).map NarrowInt.toI64 = values := by
  rw [List.map_map]
  refine (List.map_congr_left fun v hv => ?_).trans (List.map_id values)
  exact NarrowInt.toI64_ofI64 v (h v hv).1 (h v hv).2

/-- No value is lost. -/
theorem decodePlainI64As_ok (build : Build) {bytes : Bytes} {values : List Int64}
    (hbytes : decodePlainFixed bytes = .ok values) (h : HeldBy τ values) :
    decodePlainI64As build τ bytes = .ok (values.map NarrowInt.ofI64) := by
  rw [decodePlainI64As, narrowDecode, hbytes, ok_bind, mapM_eq_ok, List.forall₂_map_right_iff,
    List.forall₂_same]
  intro v hv
  have hrange := h v hv
  rw [build.debugAssert_eq _ (by simp [hrange])]
  rfl

/-- A column of signed numbers: what the dictionary holds are values of the
    column. -/
theorem decodes_narrow_i64 (build : Build) {values : List Int64} (hlen : values.length < 2 ^ 31)
    (h : HeldBy τ values) : Decodes (scalarDecoder (decodePlainI64As build τ)) (.i64 values)
      (values.map NarrowInt.ofI64) where
  length := List.length_map _
  plain := decodePlainI64As_ok build (decodePlainFixed_encodePlainFixed values) h
  dict body len indices hdict := by
    have henc : (ColumnData.i64 values).encodeDict = some (encodePlainFixed (buildDict values).1,
      (buildDict values).1.length, (buildDict values).2) := rfl
    rw [henc] at hdict
    cases hdict
    have hbuild : buildDict values = ((buildDict values).1, (buildDict values).2) := rfl
    obtain ⟨hentries, -, hmem, hne⟩ := entryOf_buildDict (by omega) hbuild
    obtain ⟨hindices, hlt⟩ := buildDict_indices hlen hbuild
    have hheld : HeldBy τ (buildDict values).1 := fun v hv => h v (hmem v hv)
    refine ⟨_, decodePlainI64As_ok build (decodePlainFixed_encodePlainFixed _) hheld, ?_, ?_⟩
    · simpa using hne
    · have hnarrow : List.Forall₂
          (fun (idx : UInt32) v =>
            ((buildDict values).1.map (NarrowInt.ofI64 : Int64 → τ))[idx.toNat]? = some v)
          (buildDict values).2 (values.map NarrowInt.ofI64) := by
        rw [List.forall₂_map_right_iff]
        refine hentries.imp fun idx v hv => ?_
        rw [List.getElem?_map, show (buildDict values).1[idx.toNat]? = some v from hv]
        rfl
      rw [List.length_map, ← hindices]
      exact decodeRleDictionary_runs (minBitWidthForDict_le _) hlt hnarrow fun hbw =>
        encodeRleBitPacked_runs (minBitWidthForDict_le _) hbw hlt
          (by change _ < 2 ^ 58; omega)

/-- A column of unsigned numbers has no dictionary. -/
theorem decodes_narrow_u64 (build : Build) {values : List UInt64}
    (h : HeldBy τ (values.map UInt64.toInt64)) :
    Decodes (scalarDecoder (decodePlainI64As build τ)) (.u64 values)
      ((values.map UInt64.toInt64).map NarrowInt.ofI64) where
  length := by simp [ColumnData.rowCount]
  plain := decodePlainI64As_ok build (decodes_u64 values).plain h
  dict _ _ _ hdict := by cases hdict

end

/-! ## Bounds -/

/-- A word, read as a signed number. -/
theorem toInt_toInt64 (u : UInt64) :
    u.toInt64.toInt = if u.toNat < 2 ^ 63 then (u.toNat : ℤ) else u.toNat - 2 ^ 64 := by
  have hu : u.toInt64.toInt = (u.toNat : ℤ).bmod (2 ^ 64) := BitVec.toInt_eq_toNat_bmod u.toBitVec
  have hlt := u.toNat_lt
  rw [hu, Int.bmod_eq_emod]
  split_ifs <;> omega

/-- Where the bounds of an unsigned range are in signed order too, either both are
    negative or none is, and the range is a signed one. -/
theorem toInt64_between {a b v : UInt64} (hlo : a ≤ v) (hhi : v ≤ b)
    (hab : a.toInt64.toInt ≤ b.toInt64.toInt) :
    a.toInt64.toInt ≤ v.toInt64.toInt ∧ v.toInt64.toInt ≤ b.toInt64.toInt := by
  have hlo := UInt64.le_iff_toNat_le.mp hlo
  have hhi := UInt64.le_iff_toNat_le.mp hhi
  have ha := a.toNat_lt
  have hb := b.toNat_lt
  rw [toInt_toInt64, toInt_toInt64] at hab
  rw [toInt_toInt64, toInt_toInt64, toInt_toInt64]
  split_ifs at hab ⊢ <;> omega

/-- A type of 8 bytes, and its values as signed numbers. -/
structure SignedView (α : Type) [FixedWidth α] [LE α] (signed : α → Int64) : Prop where
  width : FixedWidth.width α = 8
  bytes : ∀ b : Bytes, (fromLeBytes b : Int64) = signed (fromLeBytes b)
  between : ∀ {a b v : α}, a ≤ v → v ≤ b → (signed a).toInt ≤ (signed b).toInt →
    (signed a).toInt ≤ (signed v).toInt ∧ (signed v).toInt ≤ (signed b).toInt

theorem signedView_i64 : SignedView Int64 id where
  width := rfl
  bytes _ := rfl
  between hlo hhi _ := ⟨Int64.le_iff_toInt_le.mp hlo, Int64.le_iff_toInt_le.mp hhi⟩

theorem signedView_u64 : SignedView UInt64 UInt64.toInt64 where
  width := rfl
  bytes _ := rfl
  between := toInt64_between

theorem IntTarget.holds_i64 (v : Int64) : IntTarget.i64.Holds v.toInt := by
  have hlo := v.le_toInt
  have hhi := v.toInt_lt
  exact ⟨hlo, Int.le_sub_one_of_lt hhi⟩

/-- **The width that exact statistics choose** holds every value. -/
theorem statisticsNarrowTarget_ok (build : Build) {α : Type} [FixedWidth α] [LE α]
    {signed : α → Int64} {values : List α} {stats : Statistics} (hsigned : SignedView α signed)
    (hstats : ExactBounds decodeFixedStat values stats) :
    ∃ target, statisticsNarrowTarget build stats = .ok target ∧
      ∀ v ∈ values, target.Holds (signed v).toInt := by
  rw [statisticsNarrowTarget, hstats.deprecated.1, hstats.deprecated.2]
  cases hmin : stats.minValue with
  | none => exact ⟨.i64, rfl, fun v _ => IntTarget.holds_i64 _⟩
  | some mn =>
    cases hmax : stats.maxValue with
    | none => exact ⟨.i64, rfl, fun v _ => IntTarget.holds_i64 _⟩
    | some mx =>
      obtain ⟨least, hdecode, hleast⟩ := hstats.least mn hmin
      obtain ⟨greatest, hdecode', hgreatest⟩ := hstats.greatest mx hmax
      obtain ⟨hmn, ⟨⟩⟩ := Option.ite_none_right_eq_some.mp hdecode
      obtain ⟨hmx, ⟨⟩⟩ := Option.ite_none_right_eq_some.mp hdecode'
      change ∃ target, boundsNarrowTarget build (some mn) (some mx) = .ok target ∧ _
      rw [boundsNarrowTarget, if_pos ⟨hmn.trans hsigned.width, hmx.trans hsigned.width⟩]
      dsimp only
      split
      · exact ⟨.i64, rfl, fun v _ => IntTarget.holds_i64 _⟩
      · next hlt =>
        have hle := Int64.not_lt.mp hlt
        refine ⟨_, narrowestIntTarget_ok build hle, fun v hv => ?_⟩
        rw [Int64.le_iff_toInt_le, hsigned.bytes, hsigned.bytes] at hle
        obtain ⟨hlo, hhi⟩ := hsigned.between (hleast.2 hv) (hgreatest.2 hv) hle
        rw [← hsigned.bytes] at hlo hhi
        exact fittingTarget_holds (Int64.le_toInt _) (Int64.toInt_lt _) hlo hhi

/-! ## The read -/

section
variable [Platform] {build : Build} {file : ParquetFile} {rowGroup column : ℕ}
  {values : List Int64}

/-- The narrow decoders read the chunk as these values, where a width holds
    them. -/
structure ReadsNarrow (build : Build) (file : ParquetFile) (rowGroup column : ℕ)
    (values : List Int64) : Prop where
  narrow : ∀ (τ : Type) [NarrowInt τ], HeldBy τ values →
    decodeChunk (scalarDecoder (decodePlainI64As build τ)) file rowGroup column
      = .ok (values.map NarrowInt.ofI64)
  full : readColumnI64 file rowGroup column = .ok values

/-- A target that holds the values loses none. -/
theorem readColumnI64Downcast_ok {target : IntTarget}
    (h : ReadsNarrow build file rowGroup column values)
    (htarget : columnNarrowTarget build file rowGroup column = .ok target)
    (hheld : ∀ v ∈ values, target.Holds v.toInt) :
    ∃ narrowed, readColumnI64Downcast build file rowGroup column = .ok narrowed ∧
      narrowed.toI64 = values := by
  rw [readColumnI64Downcast, htarget, ok_bind]
  cases target with
  | i8 => exact ⟨.i8 _, map_eq_ok.mpr ⟨_, h.narrow Int8 hheld, rfl⟩, toI64_map_ofI64 hheld⟩
  | u8 => exact ⟨.u8 _, map_eq_ok.mpr ⟨_, h.narrow UInt8 hheld, rfl⟩, toI64_map_ofI64 hheld⟩
  | i16 => exact ⟨.i16 _, map_eq_ok.mpr ⟨_, h.narrow Int16 hheld, rfl⟩, toI64_map_ofI64 hheld⟩
  | u16 => exact ⟨.u16 _, map_eq_ok.mpr ⟨_, h.narrow UInt16 hheld, rfl⟩, toI64_map_ofI64 hheld⟩
  | i32 => exact ⟨.i32 _, map_eq_ok.mpr ⟨_, h.narrow Int32 hheld, rfl⟩, toI64_map_ofI64 hheld⟩
  | u32 => exact ⟨.u32 _, map_eq_ok.mpr ⟨_, h.narrow UInt32 hheld, rfl⟩, toI64_map_ofI64 hheld⟩
  | i64 => exact ⟨.i64 values, map_eq_ok.mpr ⟨_, h.full, rfl⟩, rfl⟩

end

/-! ## Written columns -/

/-- The values of an integer column, as `read_column_i64` returns them. -/
def ColumnData.asI64 : ColumnData → Option (List Int64)
  | .i64 v => some v
  | .u64 v => some (v.map UInt64.toInt64)
  | .i32 _ | .f64 _ | .byteArray _ | .bool _ => none

theorem ColumnData.asI64_slice {data col : ColumnData} {values : List Int64} {start stop : ℕ}
    (h : data.asI64 = some values) (hslice : data.slice start stop = .ok col) :
    col.asI64 = some ((values.take stop).drop start) := by
  cases data with
  | i64 v =>
    obtain ⟨w, hw, rfl⟩ := map_eq_ok.mp hslice
    obtain ⟨-, -, rfl⟩ := slice_eq_ok.mp hw
    cases h
    rfl
  | u64 v =>
    obtain ⟨w, hw, rfl⟩ := map_eq_ok.mp hslice
    obtain ⟨-, -, rfl⟩ := slice_eq_ok.mp hw
    cases h
    rw [← List.map_take, ← List.map_drop]
    rfl
  | _ => cases h

section
variable {col : ColumnData} {values : List Int64} (h : col.asI64 = some values)
include h

theorem ColumnData.decodes_asI64 (hrows : col.rowCount < 2 ^ 31) :
    Decodes fixedDecoder col values := by
  cases col with
  | i64 v =>
    cases h
    exact decodes_fixed hrows rfl rfl rfl
  | u64 v =>
    cases h
    exact decodes_u64 v
  | _ => cases h

theorem ColumnData.decodes_narrow (build : Build) {τ : Type} [NarrowInt τ]
    (hrows : col.rowCount < 2 ^ 31) (hheld : HeldBy τ values) :
    Decodes (scalarDecoder (decodePlainI64As build τ)) col (values.map NarrowInt.ofI64) := by
  cases col with
  | i64 v =>
    cases h
    exact decodes_narrow_i64 build hrows hheld
  | u64 v =>
    cases h
    exact decodes_narrow_u64 build hheld
  | _ => cases h

theorem ColumnData.statisticsNarrowTarget_ok (build : Build) {stats : Statistics}
    (hstats : StatisticsExact stats col) :
    ∃ target, statisticsNarrowTarget build stats = .ok target ∧
      ∀ v ∈ values, target.Holds v.toInt := by
  cases col with
  | i64 v =>
    cases h
    exact EmatixParquet.statisticsNarrowTarget_ok build signedView_i64 hstats
  | u64 v =>
    cases h
    obtain ⟨target, htarget, hheld⟩ :=
      EmatixParquet.statisticsNarrowTarget_ok build signedView_u64 hstats
    exact ⟨target, htarget, List.forall_mem_map.mpr hheld⟩
  | _ => cases h

end

section
variable [Platform] [LawfulPlatform] {columns : Columns} {options : WriteOptions}
  {t : WrittenTable} {ix : ℕ} {named : String × ColumnData} {values : List Int64}

omit [Platform] [LawfulPlatform] in
/-- The statistics of a written column are the ones that the reader finds. -/
theorem columnNarrowTarget_eq (build : Build) {file : ParquetFile} {r : ℕ} {rg : RowGroup}
    {cc : ColumnChunk} {cm : ColumnMetaData} {stats : Statistics}
    (hmd : file.metadata = .ok t.metadata) (hrg : t.metadata.rowGroups[r]? = some rg)
    (hcc : rg.columns[ix]? = some cc) (hcm : cc.metaData = some cm)
    (hstats : cm.statistics = some stats) :
    columnNarrowTarget build file r ix = statisticsNarrowTarget build stats := by
  rw [columnNarrowTarget, hmd, mapIo_ok, ok_bind, hrg, Option.bind_some, hcc, Option.bind_some,
    hcm]
  dsimp only
  rw [hstats]

/-- **Narrowing loses nothing**: in every row group, the column is read in the
    width that its statistics choose as the values that the full read returns. -/
theorem readColumnI64Downcast_written (build : Build) (h : writtenTable columns options = .ok t)
    (hlen : t.bytes.length < 2 ^ 63) (hnamed : columns[ix]? = some named)
    (hvalues : named.2.asI64 = some values) (hfit : ColumnFits columns options ix)
    (hfooter : t.footer.length < 2 ^ 32) :
    ∃ file, ParquetFile.open t.bytes = .ok file ∧
      ∀ r < rowGroupCount (rowsOf columns) options.rowGroupSize, ∃ narrowed,
        readColumnI64Downcast build file r ix = .ok narrowed ∧
        readColumnI64 file r ix = .ok narrowed.toI64 ∧
        narrowed.toI64 = (values.take (min ((r + 1) * options.rowGroupSize) (rowsOf columns))).drop
          (r * options.rowGroupSize) := by
  obtain ⟨file, hopen, hbytes, -, hmd⟩ := open_table h hfooter
  obtain ⟨-, -, hsize⟩ := totalRows_eq h
  have hexact := exactFooter_table h hlen
  refine ⟨file, hopen, fun r hr => ?_⟩
  -- the slice that was encoded, and the decoders that undo its encoding
  obtain ⟨col, hslice, hcol, hread⟩ :=
    decodeChunk_table h hfit hlen hfooter hbytes hmd hr hnamed
  have hrows := lt_of_le_of_lt (hcol.rowCount_le hsize) hfit.rows
  have hasI64 := ColumnData.asI64_slice hvalues hslice
  have hreads : ReadsNarrow build file r ix _ :=
    ⟨fun _ _ hheld => hread (ColumnData.decodes_narrow hasI64 build hrows hheld),
      hread (ColumnData.decodes_asI64 hasI64 hrows)⟩
  -- the statistics of the same slice, in the footer that is read back
  obtain ⟨rg, hrg⟩ : ∃ rg, t.metadata.rowGroups[r]? = some rg :=
    ⟨_, List.getElem?_eq_getElem (hexact.rowGroups ▸ hr)⟩
  obtain ⟨col', cc, cm, stats, hslice', hcc, hcm, hstats, hstatistics⟩ :=
    hexact.columns r rg ix named hrg hnamed
  obtain rfl := Except.ok.inj (hslice.symm.trans hslice')
  obtain ⟨target, htarget, hheld⟩ :=
    ColumnData.statisticsNarrowTarget_ok hasI64 build hstatistics
  rw [← columnNarrowTarget_eq build hmd hrg hcc hcm hstats] at htarget
  obtain ⟨narrowed, hnarrowed, hback⟩ := readColumnI64Downcast_ok hreads htarget hheld
  exact ⟨narrowed, hnarrowed, hback ▸ hreads.full, hback⟩

end

theorem readColumnI64Downcast_written_sample : ∃ t file, sampleFile = .ok t ∧
    (ParquetFile.open t.bytes = .ok file ∧ ∀ r < rowGroupCount 2 1, ∃ narrowed,
      @readColumnI64Downcast .debug Platform.stored file r 0 = .ok narrowed ∧
      @readColumnI64 Platform.stored file r 0 = .ok narrowed.toI64 ∧
      narrowed.toI64 = (([1, 2] : List Int64).take (min ((r + 1) * 1) 2)).drop (r * 1)) := by
  let _ := Platform.stored
  let _ := Platform.stored_lawful
  have hlens : (fun t => (t.bytes.length, t.footer.length)) <$> sampleFile = .ok (372, 218) := by
    decide +kernel
  obtain ⟨t, ht, hlens⟩ := map_eq_ok.mp hlens
  obtain ⟨hbytes, hfooter⟩ := Prod.mk.inj hlens
  have hfit : PagesFit sampleTable { rowGroupSize := 1 } :=
    pagesFit_i64 rfl rfl rfl (by decide) (by decide)
  obtain ⟨file, hfile⟩ := readColumnI64Downcast_written .debug ht (by rw [hbytes]; decide) rfl rfl
    (hfit.column 0) (by rw [hfooter]; decide)
  exact ⟨t, file, ht, hfile⟩

/-! ## A footer inside a text -/

/-- What is written after the fields so far. -/
theorem StructWriter.stop_opt {α : Type} (w : StructWriter) (id : Int16) (ty : FieldType)
    (body : α → Bytes) (o : Option α) :
    (w.opt id ty body o).stop = w.buf ++ ((StructWriter.mk [] w.prev).opt id ty body o).stop := by
  cases o <;> simp [opt, field, stop]

/-- What a footer has after its last text: the end of the pair, and the version of
    the writer. -/
def afterText (createdBy : Option Bytes) : Bytes :=
  0x00 :: ((StructWriter.mk [] 5).opt 6 .binary writeBinary createdBy).stop

theorem footer_ends {md : FileMetaData} {key value w : Bytes}
    (hcrypto : md.encryptionAlgorithm = none ∧ md.footerSigningKeyMetadata = none)
    (hw : writeFileMetadata { md with keyValueMetadata := some [⟨key, some value⟩] } = .ok w) :
    ∃ start, w = start ++ value ++ afterText md.createdBy := by
  obtain ⟨schema, -, hw⟩ := bind_eq_ok.mp hw
  obtain ⟨rowGroups, -, hw⟩ := bind_eq_ok.mp hw
  obtain ⟨-, hout⟩ := unsupported_bind_eq_ok.mp hw
  dsimp only at hout
  rw [hcrypto.1, hcrypto.2] at hout
  cases hout
  have hpair : encodeKeyValue ⟨key, some value⟩ = (writeFieldHeader 1 .binary 0 ++ writeBinary key
      ++ writeFieldHeader 2 .binary 1 ++ writeUvarint (UInt64.ofNat value.length)) ++ value
      ++ [0x00] := by
    simp [encodeKeyValue, StructWriter.new, StructWriter.opt, StructWriter.field, StructWriter.stop,
      writeBinary]
  have hlist : writeListOf .struct encodeKeyValue [⟨key, some value⟩]
      = writeListHeader 1 .struct ++ encodeKeyValue ⟨key, some value⟩ := by simp [writeListOf]
  change ∃ start, (StructWriter.opt (StructWriter.field _ 5 .list _) 6 .binary writeBinary
    md.createdBy).stop = _
  have hregroup : ∀ a b c d e f : Bytes,
      a ++ (b ++ (c ++ (d ++ e ++ [0x00]))) ++ f = a ++ (b ++ (c ++ d)) ++ e ++ (0x00 :: f) := by
    simp
  rw [StructWriter.stop_opt, hlist, hpair]
  exact ⟨_, hregroup _ _ _ _ _ _⟩

/-- `n` letters and a text. -/
def padded (n : ℕ) (text : List Char) : String := String.ofList (List.replicate n 'a' ++ text)

theorem asBytes_padded (n : ℕ) (text : List Char) :
    asBytes (padded n text) = List.replicate n 97 ++ text.flatMap String.utf8EncodeChar := by
  rw [padded, asBytes_ofList, List.flatMap_append, List.flatMap_replicate]
  simp [show String.utf8EncodeChar 'a' = [97] from by decide]

/-- The page of a column with the row 300. -/
def pageOf300 : Page :=
  (dataPageHeaderV1 .plain 1 8 8 (computeStats (.i64 [300])), toLeBytes (300 : Int64))

/-- A footer that says of it that it holds zeros, in a chunk of 8225 bytes (whose
    varint is valid UTF-8). -/
def zeroMetadata : FileMetaData :=
  footerMetadata [("a", .i64 [300])] (textFooter "") 1 [(1,
    [{ dataPageOffset := 4, dictionaryPageOffset := none, totalUncompressedSize := 0,
       totalCompressedSize := 8225, stats := computeStats (.i64 [0]),
       bloomFilterOffset := none, bloomFilterLength := none }])]

/-- The beginning of that footer, as characters. -/
def zeroText : List Char := ([
  21, 2, 25, 44, 72, 6, 115, 99, 104, 101, 109, 97, 21, 2, 0, 21, 4, 37, 0, 24, 1, 97, 0, 22, 2,
  25, 28, 25, 28, 38, 8, 28, 21, 4, 25, 37, 0, 6, 25, 24, 1, 97, 21, 0, 22, 2, 22, 0, 22, 128, 1,
  38, 8, 60, 24, 8, 0, 0, 0, 0, 0, 0, 0, 0, 24, 8, 0, 0, 0, 0, 0, 0, 0, 0, 22, 0, 40, 8, 0, 0, 0,
  0, 0, 0, 0, 0, 24, 8, 0, 0, 0, 0, 0, 0, 0, 0, 17, 17, 0, 0, 0, 22, 0, 22, 2, 68, 0, 0, 25, 28,
  24, 0, 24, 0] : List ℕ).map Char.ofNat

/-- The footer of a file whose only column is zero throughout. -/
def zeroFooter : Bytes := zeroText.flatMap String.utf8EncodeChar ++ afterText zeroMetadata.createdBy

theorem zeroFooter_written : writeFileMetadata zeroMetadata = .ok zeroFooter := by decide +kernel

theorem length_zeroFooter : zeroFooter.length = 139 := by decide +kernel

/-- A chunk of one row. -/
def chunkOf300 (bytes : Bytes) : RawChunk where
  bytes
  totalValues := 1
  codec := .uncompressed
  maxRepLevel := 0
  maxDefLevel := 0

theorem decodeStep_pageOf300 {α : Type} {dec : PageDecoder α} {v : α} {bytes : Bytes}
    (h : dec.plain (toLeBytes (300 : Int64)) = .ok [v]) :
    @decodeStep _ Platform.stored dec (chunkOf300 bytes) {} pageOf300
      = .ok (.inr { out := [v] }) := by
  let _ := Platform.stored
  have hpage : decodePage dec (chunkOf300 bytes) {} pageOf300 = .ok { out := [v] } :=
    bind_eq_ok.mpr ⟨⟨1, .plain, toLeBytes (300 : Int64)⟩, rfl, bind_eq_ok.mpr ⟨[v], h, rfl⟩⟩
  exact bind_eq_ok.mpr ⟨_, hpage, rfl⟩

/-- A file with that page and that footer: the column is read right, and narrowed
    by the wrong statistics. -/
theorem reads_zeroFooter {file : ParquetFile} {rest : Bytes}
    (hmd : file.metadata = .ok zeroMetadata)
    (hbytes : file.bytes = parquetMagic ++ writePage pageOf300 ++ rest)
    (hrest : 8225 ≤ rest.length) :
    @readColumnI64 Platform.stored file 0 0 = .ok [300] ∧
      @readColumnI64Downcast .release Platform.stored file 0 0 = .ok (.i8 [44]) := by
  let _ := Platform.stored
  obtain ⟨cm, hcm, hrange, hraw⟩ : ∃ cm, columnMetaData zeroMetadata 0 0 = .ok cm ∧
      chunkRange cm = (4, 8225) ∧ (cm.numValues.toUInt64.toNat = 1 ∧ cm.codec = .uncompressed) :=
    ⟨_, rfl, by decide, by decide⟩
  have hpage : (writePage pageOf300).length = 71 := by decide +kernel
  have hmagic : parquetMagic.length = 4 := rfl
  have hread : file.readRange (chunkRange cm).1 (chunkRange cm).2
      = .ok (writePage pageOf300 ++ rest.take 8154) := by
    rw [hrange, ParquetFile.readRange_eq (by simp [hbytes, hpage]; omega), hbytes,
      List.append_assoc, List.drop_left' hmagic, List.take_append, hpage,
      List.take_of_length_le (by omega)]
    rfl
  have hlevels : computeMaxLevels zeroMetadata.schema 0 = .ok (0, 0) := by decide
  have hchunk := readChunkRaw_eq hmd hcm hread hlevels
  rw [hraw.1, hraw.2] at hchunk
  have hnext := @nextPage_written pageOf300.1 pageOf300.2 (by decide +kernel) (by decide)
    (rest.take 8154)
  have hdecode : ∀ {α : Type} {dec : PageDecoder α} {v : α},
      dec.plain (toLeBytes (300 : Int64)) = .ok [v] → decodeChunk dec file 0 0 = .ok [v] := by
    intro α dec v h
    exact bind_eq_ok.mpr ⟨_, hchunk, bind_eq_ok.mpr
      ⟨_, walkPages_of_inr hnext (decodeStep_pageOf300 h), rfl⟩⟩
  have htarget : columnNarrowTarget .release file 0 0 = .ok .i8 := by
    rw [columnNarrowTarget, hmd]
    decide +kernel
  refine ⟨hdecode (by decide), ?_⟩
  rw [readColumnI64Downcast, htarget]
  exact map_eq_ok.mpr ⟨[44], hdecode (by decide), rfl⟩

/-- The text ends as that footer begins. -/
def zeroEndingText : String := padded (2 ^ 32 - 120) zeroText

/-- With that text, the footer has 139 bytes more than its length can say, and
    these are the other footer. -/
theorem recordedFooter_zeroEnding {t t₀ : WrittenTable}
    (ht : @writtenTable Platform.stored [("a", .i64 [300])] (textFooter zeroEndingText) = .ok t)
    (ht₀ : @writtenTable Platform.stored [("a", .i64 [300])] (textFooter "") = .ok t₀)
    (hfooter₀ : t₀.footer.length = 140) :
    t.groups = t₀.groups ∧ t.footer.length = 2 ^ 32 + 139 ∧
      ParquetFile.recordedFooter t.footer = zeroFooter := by
  let _ := Platform.stored
  have htext := asBytes_padded (2 ^ 32 - 120) zeroText
  have hzero : (zeroText.flatMap String.utf8EncodeChar).length = 115 := by decide +kernel
  have hlength : (asBytes zeroEndingText).length = 2 ^ 32 - 5 := by
    rw [zeroEndingText, htext, List.length_append, List.length_replicate, hzero]
    rfl
  have hk : (writeBinary (asBytes zeroEndingText)).length
      = (writeBinary []).length + (2 ^ 32 - 1) := by
    have hpre : (writeUvarint (UInt64.ofNat (2 ^ 32 - 5))).length = 5 := by decide
    rw [writeBinary, List.length_append, hlength, hpre]
    rfl
  obtain ⟨hgroups, hlen⟩ := footer_text ht ht₀ hk
  have hfooter : t.footer.length = 2 ^ 32 + 139 := by
    rw [hlen, hfooter₀]
    norm_num
  obtain ⟨-, -, hmd, hw⟩ := writtenTable_eq_ok.mp ht
  rw [hmd] at hw
  obtain ⟨start, hends⟩ := @footer_ends (footerMetadata [("a", .i64 [300])] {} t.totalRows
    (placeGroups 4 t.groups)) (asBytes "") (asBytes zeroEndingText) _ ⟨rfl, rfl⟩ hw
  rw [zeroEndingText, htext, ← List.append_assoc start, List.append_assoc (start ++ _)] at hends
  refine ⟨hgroups, hfooter, ?_⟩
  have hzeroLength := length_zeroFooter
  rw [hends]
  refine ParquetFile.recordedFooter_append ?_
  rw [← hends, hfooter]
  exact hzeroLength.symm

/-- The file opens with the other footer: the row 300 is narrowed to 8 bits. -/
theorem narrowing_loses_value : ∃ t file,
    @writtenTable Platform.stored [("a", .i64 [300])] (textFooter zeroEndingText) = .ok t ∧
    t.bytes.length < 2 ^ 63 ∧ t.footer.length = 2 ^ 32 + 139 ∧
    ParquetFile.open t.bytes = .ok file ∧
    @readColumnI64 Platform.stored file 0 0 = .ok [300] ∧
    @readColumnI64Downcast .release Platform.stored file 0 0 = .ok (.i8 [44]) := by
  let _ := Platform.stored
  obtain ⟨t, ht⟩ : ∃ t, writtenTable [("a", .i64 [300])] (textFooter zeroEndingText) = .ok t :=
    exists_writtenTable (n := 1) rfl rfl rfl rfl rfl
  have hsizes : (fun t => (t.footer.length, t.groups.flatMap EncodedGroup.bytes)) <$>
      writtenTable [("a", .i64 [300])] (textFooter "") = .ok (140, writePage pageOf300) := by
    decide +kernel
  obtain ⟨t₀, ht₀, hsizes⟩ := map_eq_ok.mp hsizes
  obtain ⟨hfooter₀, hbody⟩ := Prod.mk.inj hsizes
  obtain ⟨hgroups, hfooter, hrecorded⟩ := recordedFooter_zeroEnding ht ht₀ hfooter₀
  have hzeroLength := length_zeroFooter
  have hopen := @ParquetFile.open_recorded (t.groups.flatMap EncodedGroup.bytes) t.footer
  rw [hrecorded] at hopen
  have hmetadata := @ParquetFile.metadata_of_written
    { bytes := parquetMagic ++ t.groups.flatMap EncodedGroup.bytes ++ t.footer
        ++ leBytes 4 t.footer.length ++ parquetMagic
      footerBytes := zeroFooter
      footerOffset := 4 + (t.groups.flatMap EncodedGroup.bytes).length
        + (t.footer.length - t.footer.length % 2 ^ 32) } _ zeroFooter_written (by dsimp only; omega)
  have hreads := @reads_zeroFooter _ (t.footer ++ leBytes 4 t.footer.length ++ parquetMagic)
    hmetadata (by simp [hgroups, hbody]) (by simp [hfooter]; omega)
  refine ⟨t, _, ht, ?_, hfooter, hopen, hreads⟩
  rw [WrittenTable.bytes, fileBytes, hgroups, hbody]
  simp only [List.length_append, hfooter, length_leBytes]
  decide +kernel

end EmatixParquet
