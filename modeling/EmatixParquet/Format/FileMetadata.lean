/-
  The footer — the writers of `metadata_writer.rs` for `FileMetaData` and the
  structs it nests, and their round trip.

  A writer panics on a field it does not implement (`unsupported`), so a
  writer that returns has written the whole value:

  * `parses_columnMetadata`, `parses_columnChunk`, `parses_rowGroup`, ...:
    whatever a writer returned is read back as the value written;
  * `FileMetaData.Supported` is the domain of the writers, and
    `exists_encodeFileMetadata` says that they return on it.
-/
import EmatixParquet.Format.PageHeader

namespace EmatixParquet

open Wire

variable {α β : Type}

/-! ## Writers -/

/-- `if o.is_some() { panic!(msg) }`. -/
def unsupported (o : Option α) (msg : String) : Res FormatError Unit :=
  match o with
  | some _ => .error (.panic msg)
  | none => .ok ()

/-- A list header, then each element. -/
def writeListStruct (enc : α → Res FormatError Bytes) (as : List α) :
    Res FormatError Bytes := do
  let bodies ← as.mapM enc
  pure (writeListHeader as.length .struct ++ bodies.flatten)

/-- The fields of `KeyValue`. -/
def encodeKeyValue (kv : KeyValue) : Bytes :=
  StructWriter.new
    |>.field 1 .binary (writeBinary kv.key)
    |>.opt 2 .binary writeBinary kv.value
    |>.stop

/-- The fields of `SchemaElement`; logical types are refused. -/
def encodeSchemaElement (se : SchemaElement) : Res FormatError Bytes := do
  unsupported se.logicalType "SchemaElement.logical_type write not yet implemented"
  pure (StructWriter.new
    |>.opt 1 .i32 writeThriftEnum se.columnType
    |>.opt 2 .i32 writeZigzagI32 se.typeLength
    |>.opt 3 .i32 writeThriftEnum se.repetitionType
    |>.field 4 .binary (writeBinary se.name)
    |>.opt 5 .i32 writeZigzagI32 se.numChildren
    |>.opt 6 .i32 writeThriftEnum se.convertedType
    |>.opt 7 .i32 writeZigzagI32 se.scale
    |>.opt 8 .i32 writeZigzagI32 se.precision
    |>.opt 9 .i32 writeZigzagI32 se.fieldId
    |>.stop)

/-- The fields of `AesGcmV1`. -/
def encodeAesGcmV1 (v : AesGcmV1) : Bytes :=
  StructWriter.new
    |>.opt 1 .binary writeBinary v.aadPrefix
    |>.opt 2 .binary writeBinary v.aadFileUnique
    |>.optBool 3 v.supplyAadPrefix
    |>.stop

/-- The fields of `AesGcmCtrV1`. -/
def encodeAesGcmCtrV1 (v : AesGcmCtrV1) : Bytes :=
  StructWriter.new
    |>.opt 1 .binary writeBinary v.aadPrefix
    |>.opt 2 .binary writeBinary v.aadFileUnique
    |>.optBool 3 v.supplyAadPrefix
    |>.stop

/-- The variant of `EncryptionAlgorithm`. -/
def encodeEncryptionAlgorithm : EncryptionAlgorithm → Bytes
  | .aesGcmV1 v => (StructWriter.new.field 1 .struct (encodeAesGcmV1 v)).stop
  | .aesGcmCtrV1 v => (StructWriter.new.field 2 .struct (encodeAesGcmCtrV1 v)).stop

/-- The fields of `EncryptionWithColumnKey`. -/
def encodeEncryptionWithColumnKey (k : EncryptionWithColumnKey) : Bytes :=
  StructWriter.new
    |>.field 1 .list (writeListBinary k.pathInSchema)
    |>.opt 2 .binary writeBinary k.keyMetadata
    |>.stop

/-- The variant of `ColumnCryptoMetaData`. -/
def encodeColumnCryptoMetadata : ColumnCryptoMetaData → Bytes
  | .encryptionWithFooterKey => (StructWriter.new.field 1 .struct writeStop).stop
  | .encryptionWithColumnKey k =>
    (StructWriter.new.field 2 .struct (encodeEncryptionWithColumnKey k)).stop

/-- `write_file_crypto_metadata`: the algorithm is required. -/
def writeFileCryptoMetadata (fcm : FileCryptoMetaData) : Res FormatError Bytes :=
  match fcm.encryptionAlgorithm with
  | none => .error (.panic "FileCryptoMetaData.encryption_algorithm is required")
  | some alg => .ok (StructWriter.new
    |>.field 1 .struct (encodeEncryptionAlgorithm alg)
    |>.opt 2 .binary writeBinary fcm.keyMetadata
    |>.stop)

/-- The fields of `ColumnMetaData`. -/
def encodeColumnMetadata (cm : ColumnMetaData) : Res FormatError Bytes := do
  unsupported cm.keyValueMetadata
    "ColumnMetaData.key_value_metadata write not yet implemented"
  unsupported cm.encodingStats "ColumnMetaData.encoding_stats write not yet implemented"
  unsupported cm.sizeStatistics "ColumnMetaData.size_statistics write not yet implemented"
  pure (StructWriter.new
    |>.field 1 .i32 (writeThriftEnum cm.columnType)
    |>.field 2 .list (writeListI32 (cm.encodings.map ThriftEnum.toI32))
    |>.field 3 .list (writeListBinary cm.pathInSchema)
    |>.field 4 .i32 (writeThriftEnum cm.codec)
    |>.field 5 .i64 (writeZigzagI64 cm.numValues)
    |>.field 6 .i64 (writeZigzagI64 cm.totalUncompressedSize)
    |>.field 7 .i64 (writeZigzagI64 cm.totalCompressedSize)
    |>.field 9 .i64 (writeZigzagI64 cm.dataPageOffset)
    |>.opt 10 .i64 writeZigzagI64 cm.indexPageOffset
    |>.opt 11 .i64 writeZigzagI64 cm.dictionaryPageOffset
    |>.opt 12 .struct encodeStatistics cm.statistics
    |>.opt 14 .i64 writeZigzagI64 cm.bloomFilterOffset
    |>.opt 15 .i32 writeZigzagI32 cm.bloomFilterLength
    |>.stop)

/-- The body of an optional struct whose writer may panic. -/
def encodeOption (enc : α → Res FormatError Bytes) :
    Option α → Res FormatError (Option Bytes)
  | some a => some <$> enc a
  | none => pure none

/-- The fields of `ColumnChunk`. -/
def encodeColumnChunk (cc : ColumnChunk) : Res FormatError Bytes := do
  let metaData ← encodeOption encodeColumnMetadata cc.metaData
  pure (StructWriter.new
    |>.opt 1 .binary writeBinary cc.filePath
    |>.field 2 .i64 (writeZigzagI64 cc.fileOffset)
    |>.opt 3 .struct id metaData
    |>.opt 4 .i64 writeZigzagI64 cc.offsetIndexOffset
    |>.opt 5 .i32 writeZigzagI32 cc.offsetIndexLength
    |>.opt 6 .i64 writeZigzagI64 cc.columnIndexOffset
    |>.opt 7 .i32 writeZigzagI32 cc.columnIndexLength
    |>.opt 8 .struct encodeColumnCryptoMetadata cc.cryptoMetadata
    |>.opt 9 .binary writeBinary cc.encryptedColumnMetadata
    |>.stop)

/-- The fields of `RowGroup`. -/
def encodeRowGroup (rg : RowGroup) : Res FormatError Bytes := do
  let columns ← writeListStruct encodeColumnChunk rg.columns
  unsupported rg.sortingColumns "RowGroup.sorting_columns write not yet implemented"
  pure (StructWriter.new
    |>.field 1 .list columns
    |>.field 2 .i64 (writeZigzagI64 rg.totalByteSize)
    |>.field 3 .i64 (writeZigzagI64 rg.numRows)
    |>.opt 5 .i64 writeZigzagI64 rg.fileOffset
    |>.opt 6 .i64 writeZigzagI64 rg.totalCompressedSize
    |>.opt 7 .i16 writeZigzagI16 rg.ordinal
    |>.stop)

/-- The fields of `FileMetaData`. -/
def encodeFileMetadata (md : FileMetaData) : Res FormatError Bytes := do
  let schema ← writeListStruct encodeSchemaElement md.schema
  let rowGroups ← writeListStruct encodeRowGroup md.rowGroups
  unsupported md.columnOrders "FileMetaData.column_orders write not yet implemented"
  pure (StructWriter.new
    |>.field 1 .i32 (writeZigzagI32 md.version)
    |>.field 2 .list schema
    |>.field 3 .i64 (writeZigzagI64 md.numRows)
    |>.field 4 .list rowGroups
    |>.opt 5 .list (writeListOf .struct encodeKeyValue) md.keyValueMetadata
    |>.opt 6 .binary writeBinary md.createdBy
    |>.opt 8 .struct encodeEncryptionAlgorithm md.encryptionAlgorithm
    |>.opt 9 .binary writeBinary md.footerSigningKeyMetadata
    |>.stop)

/-- `write_file_metadata`. -/
def writeFileMetadata (md : FileMetaData) : Res FormatError Bytes := encodeFileMetadata md

/-! ## Writers that may panic -/

/-- A writer that returned met no field it does not implement. -/
theorem unsupported_bind_eq_ok {o : Option α} {msg : String} {f : Unit → Res FormatError β}
    {b : β} : (unsupported o msg >>= f) = .ok b ↔ o = none ∧ f () = .ok b := by
  cases o <;> simp [unsupported, bind, Except.bind]

/-- Elements that are written are not empty. -/
theorem bodies_ne_nil {enc : α → Res FormatError Bytes} {as : List α} {bodies : List Bytes}
    (h : as.mapM enc = .ok bodies) (hne : ∀ a b, enc a = .ok b → b ≠ []) :
    ∀ b ∈ bodies, b ≠ [] := by
  intro b hb
  obtain ⟨i, hi⟩ := List.mem_iff_getElem?.mp hb
  obtain ⟨a, -, hab⟩ := (mapM_getElem? h i).2 b hi
  exact hne a b hab

/-- **List round trip**, for a writer that may panic. -/
theorem parses_listStruct {enc : α → Res FormatError Bytes} {r : CursorM α} {as : List α}
    {w : Bytes} (hw : writeListStruct enc as = .ok w)
    (hne : ∀ a b, enc a = .ok b → b ≠ []) (h : ∀ a b, enc a = .ok b → ReadsBack r b a) :
    ReadsBack (readListStruct r) w as := by
  obtain ⟨bodies, hbodies, hflat⟩ := bind_eq_ok.mp hw
  cases hflat
  have hall : List.Forall₂ (fun a b => enc a = .ok b) as bodies := mapM_eq_ok.mp hbodies
  exact parses_listOf (bodies_ne_nil hbodies hne) (hall.flip.imp fun b a hab => h a b hab)

/-- A byte for each element. -/
theorem length_le_writeListStruct {enc : α → Res FormatError Bytes} {as : List α} {w : Bytes}
    (hw : writeListStruct enc as = .ok w) (hne : ∀ a b, enc a = .ok b → b ≠ []) :
    as.length ≤ w.length := by
  obtain ⟨bodies, hbodies, hflat⟩ := bind_eq_ok.mp hw
  cases hflat
  have := length_le_length_flatten (bodies_ne_nil hbodies hne)
  rw [mapM_length hbodies] at this
  rw [List.length_append]
  omega

/-- Each element is inside its list. -/
theorem length_body_le_writeListStruct {enc : α → Res FormatError Bytes} {as : List α} {w : Bytes}
    (hw : writeListStruct enc as = .ok w) {a : α} (ha : a ∈ as) :
    ∃ b, enc a = .ok b ∧ b.length ≤ w.length := by
  obtain ⟨bodies, hbodies, hflat⟩ := bind_eq_ok.mp hw
  cases hflat
  obtain ⟨i, hi⟩ := List.mem_iff_getElem?.mp ha
  obtain ⟨b, hb, hab⟩ := (mapM_getElem? hbodies i).1 a hi
  have := (List.sublist_flatten_of_mem (List.mem_of_getElem? hb)).length_le
  refine ⟨b, hab, ?_⟩
  rw [List.length_append]
  omega

/-! ## Round trips -/

theorem parses_keyValue (kv : KeyValue) : ReadsBack readKeyValue (encodeKeyValue kv) kv := by
  have h0 : Wrote readKeyValueStep {} .new {} := Wrote.new
  have h1 := h0.field 1 .binary (parses_map _ (parses_binary kv.key))
  have h2 := h1.opt 2 .binary (fun a o => { a with value := o }) kv.value rfl
    fun x => parses_map _ (parses_binary x)
  exact h2.finish rfl

theorem parses_schemaElement {se : SchemaElement} {w : Bytes}
    (hw : encodeSchemaElement se = .ok w) : ReadsBack readSchemaElement w se := by
  obtain ⟨hlogical, hout⟩ := unsupported_bind_eq_ok.mp hw
  cases hout
  have h0 : Wrote readSchemaElementStep {} .new {} := Wrote.new
  have h1 := h0.opt 1 .i32 (fun a o => { a with columnType := o }) se.columnType rfl
    fun x => parses_map _ (parses_thriftEnum x)
  have h2 := h1.opt 2 .i32 (fun a o => { a with typeLength := o }) se.typeLength rfl
    fun x => parses_map _ (parses_zigzagI32 x)
  have h3 := h2.opt 3 .i32 (fun a o => { a with repetitionType := o }) se.repetitionType rfl
    fun x => parses_map _ (parses_thriftEnum x)
  have h4 := h3.field 4 .binary (parses_map _ (parses_binary se.name))
  have h5 := h4.opt 5 .i32 (fun a o => { a with numChildren := o }) se.numChildren rfl
    fun x => parses_map _ (parses_zigzagI32 x)
  have h6 := h5.opt 6 .i32 (fun a o => { a with convertedType := o }) se.convertedType rfl
    fun x => parses_map _ (parses_thriftEnum x)
  have h7 := h6.opt 7 .i32 (fun a o => { a with scale := o }) se.scale rfl
    fun x => parses_map _ (parses_zigzagI32 x)
  have h8 := h7.opt 8 .i32 (fun a o => { a with precision := o }) se.precision rfl
    fun x => parses_map _ (parses_zigzagI32 x)
  have h9 := h8.opt 9 .i32 (fun a o => { a with fieldId := o }) se.fieldId rfl
    fun x => parses_map _ (parses_zigzagI32 x)
  refine h9.finish ?_
  obtain ⟨_, _, _, _, _, _, _, _, _, logicalType⟩ := se
  cases hlogical
  rfl

theorem parses_aesGcmV1 (v : AesGcmV1) : ReadsBack readAesGcmV1 (encodeAesGcmV1 v) v := by
  have h0 : Wrote readAesGcmV1Step {} .new {} := Wrote.new
  have h1 := h0.opt 1 .binary (fun a o => { a with aadPrefix := o }) v.aadPrefix rfl
    fun x => parses_map _ (parses_binary x)
  have h2 := h1.opt 2 .binary (fun a o => { a with aadFileUnique := o }) v.aadFileUnique rfl
    fun x => parses_map _ (parses_binary x)
  have h3 := h2.optBool 3 (fun a o => { a with supplyAadPrefix := o }) v.supplyAadPrefix rfl rfl rfl
  exact h3.stop

theorem parses_aesGcmCtrV1 (v : AesGcmCtrV1) :
    ReadsBack readAesGcmCtrV1 (encodeAesGcmCtrV1 v) v := by
  have h0 : Wrote readAesGcmCtrV1Step {} .new {} := Wrote.new
  have h1 := h0.opt 1 .binary (fun a o => { a with aadPrefix := o }) v.aadPrefix rfl
    fun x => parses_map _ (parses_binary x)
  have h2 := h1.opt 2 .binary (fun a o => { a with aadFileUnique := o }) v.aadFileUnique rfl
    fun x => parses_map _ (parses_binary x)
  have h3 := h2.optBool 3 (fun a o => { a with supplyAadPrefix := o }) v.supplyAadPrefix rfl rfl rfl
  exact h3.stop

theorem parses_encryptionAlgorithm (alg : EncryptionAlgorithm) :
    ReadsBack readEncryptionAlgorithm (encodeEncryptionAlgorithm alg) alg := by
  have h0 : Wrote readEncryptionAlgorithmStep none .new none := Wrote.new
  cases alg with
  | aesGcmV1 v =>
    exact (h0.field 1 .struct (parses_map _ (parses_aesGcmV1 v))).finish rfl
  | aesGcmCtrV1 v =>
    exact (h0.field 2 .struct (parses_map _ (parses_aesGcmCtrV1 v))).finish rfl

theorem parses_encryptionWithColumnKey (k : EncryptionWithColumnKey) :
    ReadsBack readEncryptionWithColumnKey (encodeEncryptionWithColumnKey k) k := by
  have h0 : Wrote readEncryptionWithColumnKeyStep {} .new {} := Wrote.new
  have h1 := h0.field 1 .list (parses_map _ (parses_listBinary k.pathInSchema))
  have h2 := h1.opt 2 .binary (fun a o => { a with keyMetadata := o }) k.keyMetadata rfl
    fun x => parses_map _ (parses_binary x)
  exact h2.finish rfl

theorem parses_columnCryptoMetadata (c : ColumnCryptoMetaData) :
    ReadsBack readColumnCryptoMetadata (encodeColumnCryptoMetadata c) c := by
  have h0 : Wrote readColumnCryptoMetadataStep none .new none := Wrote.new
  cases c with
  | encryptionWithFooterKey =>
    exact (h0.field 1 .struct (parses_map _ (parses_emptyStruct _))).finish rfl
  | encryptionWithColumnKey k =>
    exact (h0.field 2 .struct (parses_map _ (parses_encryptionWithColumnKey k))).finish rfl

theorem parses_fileCryptoMetadata {fcm : FileCryptoMetaData} {w : Bytes}
    (hw : writeFileCryptoMetadata fcm = .ok w) : ReadsBack readFileCryptoMetadata w fcm := by
  obtain ⟨alg, keyMetadata⟩ := fcm
  cases alg with
  | none => cases hw
  | some alg =>
    cases hw
    have h0 : Wrote readFileCryptoMetadataStep {} .new {} := Wrote.new
    have h1 := h0.field 1 .struct (parses_map _ (parses_encryptionAlgorithm alg))
    have h2 := h1.opt 2 .binary (fun a o => { a with keyMetadata := o }) keyMetadata rfl
      fun x => parses_map _ (parses_binary x)
    exact h2.finish rfl

theorem mapM_fromI32_toI32 (es : List Encoding) :
    (es.map ThriftEnum.toI32).mapM (ThriftEnum.fromI32 : Int32 → Res FormatError Encoding)
      = .ok es := by
  rw [mapM_eq_ok, List.forall₂_map_left_iff, List.forall₂_same]
  exact fun e _ => ThriftEnum.fromI32_toI32 e

theorem parses_encodings (es : List Encoding) :
    ReadsBack readEncodings (writeListI32 (es.map ThriftEnum.toI32)) es := by
  have h := parses_bind (parses_listI32 (es.map ThriftEnum.toI32))
    (f := fun raw => Reader.lift (raw.mapM ThriftEnum.fromI32)) (b := es)
    (by rw [mapM_fromI32_toI32]; exact parses_pure es)
  rwa [List.append_nil] at h

theorem parses_columnMetadata {cm : ColumnMetaData} {w : Bytes}
    (hw : encodeColumnMetadata cm = .ok w) : ReadsBack readColumnMetadata w cm := by
  obtain ⟨hkv, hw⟩ := unsupported_bind_eq_ok.mp hw
  obtain ⟨hstats, hw⟩ := unsupported_bind_eq_ok.mp hw
  obtain ⟨hsize, hout⟩ := unsupported_bind_eq_ok.mp hw
  cases hout
  have h0 : Wrote readColumnMetadataStep {} .new {} := Wrote.new
  have h1 := h0.field 1 .i32 (parses_map _ (parses_thriftEnum cm.columnType))
  have h2 := h1.field 2 .list (parses_map _ (parses_encodings cm.encodings))
  have h3 := h2.field 3 .list (parses_map _ (parses_listBinary cm.pathInSchema))
  have h4 := h3.field 4 .i32 (parses_map _ (parses_thriftEnum cm.codec))
  have h5 := h4.field 5 .i64 (parses_map _ (parses_zigzagI64 cm.numValues))
  have h6 := h5.field 6 .i64 (parses_map _ (parses_zigzagI64 cm.totalUncompressedSize))
  have h7 := h6.field 7 .i64 (parses_map _ (parses_zigzagI64 cm.totalCompressedSize))
  have h9 := h7.field 9 .i64 (parses_map _ (parses_zigzagI64 cm.dataPageOffset))
  have h10 := h9.opt 10 .i64 (fun a o => { a with indexPageOffset := o }) cm.indexPageOffset rfl
    fun x => parses_map _ (parses_zigzagI64 x)
  have h11 := h10.opt 11 .i64 (fun a o => { a with dictPageOffset := o })
    cm.dictionaryPageOffset rfl fun x => parses_map _ (parses_zigzagI64 x)
  have h12 := h11.opt 12 .struct (fun a o => { a with statistics := o }) cm.statistics rfl
    fun x => parses_map _ (parses_statistics x)
  have h14 := h12.opt 14 .i64 (fun a o => { a with bloomOffset := o }) cm.bloomFilterOffset rfl
    fun x => parses_map _ (parses_zigzagI64 x)
  have h15 := h14.opt 15 .i32 (fun a o => { a with bloomLength := o }) cm.bloomFilterLength rfl
    fun x => parses_map _ (parses_zigzagI32 x)
  refine h15.finish ?_
  obtain ⟨_, _, _, _, _, _, _, _, _, _, _, _, _, _, _, _⟩ := cm
  cases hkv
  cases hstats
  cases hsize
  rfl

theorem encodeOption_eq_ok {enc : α → Res FormatError Bytes} {o : Option α}
    {body : Option Bytes} (h : encodeOption enc o = .ok body) :
    Option.Rel (fun a b => enc a = .ok b) o body := by
  cases o with
  | none =>
    cases h
    exact .none
  | some a =>
    cases ha : enc a with
    | error e => simp [encodeOption, ha] at h
    | ok b =>
      simp only [encodeOption, ha] at h
      cases h
      exact .some ha

theorem parses_columnChunk {cc : ColumnChunk} {w : Bytes} (hw : encodeColumnChunk cc = .ok w) :
    ReadsBack readColumnChunk w cc := by
  obtain ⟨metaData, hmeta, hout⟩ := bind_eq_ok.mp hw
  cases hout
  have h0 : Wrote readColumnChunkStep {} .new {} := Wrote.new
  have h1 := h0.opt 1 .binary (fun a o => { a with filePath := o }) cc.filePath rfl
    fun x => parses_map _ (parses_binary x)
  have h2 := h1.field 2 .i64 (parses_map _ (parses_zigzagI64 cc.fileOffset))
  have h3 := h2.optRel 3 .struct (fun a o => { a with metaData := o })
    (encodeOption_eq_ok hmeta) rfl fun x _ hx => parses_map _ (parses_columnMetadata hx)
  have h4 := h3.opt 4 .i64 (fun a o => { a with offsetIndexOffset := o }) cc.offsetIndexOffset rfl
    fun x => parses_map _ (parses_zigzagI64 x)
  have h5 := h4.opt 5 .i32 (fun a o => { a with offsetIndexLength := o }) cc.offsetIndexLength rfl
    fun x => parses_map _ (parses_zigzagI32 x)
  have h6 := h5.opt 6 .i64 (fun a o => { a with columnIndexOffset := o }) cc.columnIndexOffset rfl
    fun x => parses_map _ (parses_zigzagI64 x)
  have h7 := h6.opt 7 .i32 (fun a o => { a with columnIndexLength := o }) cc.columnIndexLength rfl
    fun x => parses_map _ (parses_zigzagI32 x)
  have h8 := h7.opt 8 .struct (fun a o => { a with cryptoMetadata := o }) cc.cryptoMetadata rfl
    fun x => parses_map _ (parses_columnCryptoMetadata x)
  have h9 := h8.opt 9 .binary (fun a o => { a with encryptedColumnMetadata := o })
    cc.encryptedColumnMetadata rfl fun x => parses_map _ (parses_binary x)
  exact h9.finish rfl

theorem encodeColumnChunk_ne_nil (cc : ColumnChunk) (w : Bytes)
    (hw : encodeColumnChunk cc = .ok w) : w ≠ [] := by
  obtain ⟨metaData, -, hout⟩ := bind_eq_ok.mp hw
  cases hout
  exact StructWriter.stop_ne_nil _

theorem parses_rowGroup {rg : RowGroup} {w : Bytes} (hw : encodeRowGroup rg = .ok w) :
    ReadsBack readRowGroup w rg := by
  obtain ⟨columns, hcolumns, hw⟩ := bind_eq_ok.mp hw
  obtain ⟨hsorting, hout⟩ := unsupported_bind_eq_ok.mp hw
  cases hout
  have hread := parses_listStruct hcolumns encodeColumnChunk_ne_nil
    fun _ _ h => parses_columnChunk h
  have h0 : Wrote readRowGroupStep {} .new {} := Wrote.new
  have h1 := h0.field 1 .list (parses_map _ hread)
  have h2 := h1.field 2 .i64 (parses_map _ (parses_zigzagI64 rg.totalByteSize))
  have h3 := h2.field 3 .i64 (parses_map _ (parses_zigzagI64 rg.numRows))
  have h5 := h3.opt 5 .i64 (fun a o => { a with fileOffset := o }) rg.fileOffset rfl
    fun x => parses_map _ (parses_zigzagI64 x)
  have h6 := h5.opt 6 .i64 (fun a o => { a with totalCompressedSize := o })
    rg.totalCompressedSize rfl fun x => parses_map _ (parses_zigzagI64 x)
  have h7 := h6.opt 7 .i16 (fun a o => { a with ordinal := o }) rg.ordinal rfl
    fun x => parses_map _ (parses_zigzagI16 x)
  refine h7.finish ?_
  obtain ⟨_, _, _, _, _, _, _⟩ := rg
  cases hsorting
  rfl

theorem encodeRowGroup_ne_nil (rg : RowGroup) (w : Bytes) (hw : encodeRowGroup rg = .ok w) :
    w ≠ [] := by
  obtain ⟨columns, -, hw⟩ := bind_eq_ok.mp hw
  obtain ⟨-, hout⟩ := unsupported_bind_eq_ok.mp hw
  cases hout
  exact StructWriter.stop_ne_nil _

theorem encodeSchemaElement_ne_nil (se : SchemaElement) (w : Bytes)
    (hw : encodeSchemaElement se = .ok w) : w ≠ [] := by
  obtain ⟨-, hout⟩ := unsupported_bind_eq_ok.mp hw
  cases hout
  exact StructWriter.stop_ne_nil _

/-- **Footer round trip**: what the writer returned is read back whole. -/
theorem parses_fileMetadata {md : FileMetaData} {w : Bytes}
    (hw : writeFileMetadata md = .ok w) : ReadsBack readFileMetadata w md := by
  obtain ⟨schema, hschema, hw⟩ := bind_eq_ok.mp hw
  obtain ⟨rowGroups, hrowGroups, hw⟩ := bind_eq_ok.mp hw
  obtain ⟨horders, hout⟩ := unsupported_bind_eq_ok.mp hw
  cases hout
  have hreadSchema := parses_listStruct hschema encodeSchemaElement_ne_nil
    fun _ _ h => parses_schemaElement h
  have hreadGroups := parses_listStruct hrowGroups encodeRowGroup_ne_nil
    fun _ _ h => parses_rowGroup h
  have h0 : Wrote readFileMetadataStep {} .new {} := Wrote.new
  have h1 := h0.field 1 .i32 (parses_map _ (parses_zigzagI32 md.version))
  have h2 := h1.field 2 .list (parses_map _ hreadSchema)
  have h3 := h2.field 3 .i64 (parses_map _ (parses_zigzagI64 md.numRows))
  have h4 := h3.field 4 .list (parses_map _ hreadGroups)
  have h5 := h4.opt 5 .list (fun a o => { a with keyValueMetadata := o }) md.keyValueMetadata rfl
    fun x => parses_map _ (parses_writeListOf x (fun kv => StructWriter.stop_ne_nil _)
      parses_keyValue)
  have h6 := h5.opt 6 .binary (fun a o => { a with createdBy := o }) md.createdBy rfl
    fun x => parses_map _ (parses_binary x)
  have h8 := h6.opt 8 .struct (fun a o => { a with encryptionAlgorithm := o })
    md.encryptionAlgorithm rfl fun x => parses_map _ (parses_encryptionAlgorithm x)
  have h9 := h8.opt 9 .binary (fun a o => { a with footerSigningKeyMetadata := o })
    md.footerSigningKeyMetadata rfl fun x => parses_map _ (parses_binary x)
  refine h9.finish ?_
  obtain ⟨_, _, _, _, _, _, _, _, _⟩ := md
  cases horders
  rfl

theorem length_columns_le {rg : RowGroup} {w : Bytes} (hw : encodeRowGroup rg = .ok w) :
    rg.columns.length ≤ w.length := by
  obtain ⟨columns, hcolumns, hw⟩ := bind_eq_ok.mp hw
  obtain ⟨-, hout⟩ := unsupported_bind_eq_ok.mp hw
  cases hout
  have hlen := length_le_writeListStruct hcolumns encodeColumnChunk_ne_nil
  have h1 : 0 + rg.columns.length ≤ (StructWriter.new.field 1 .list columns).buf.length :=
    StructWriter.le_field (Nat.zero_le _) hlen
  rw [Nat.zero_add] at h1
  open StructWriter in
  exact le_stop (le_opt (le_opt (le_opt (le_field (le_field h1 (Nat.zero_le _)) (Nat.zero_le _)))))

/-- A footer has a byte for each element of its schema, and one for each column
    of a row group. -/
theorem length_le_writeFileMetadata {md : FileMetaData} {w : Bytes} {rg : RowGroup}
    (hw : writeFileMetadata md = .ok w) (hrg : rg ∈ md.rowGroups) :
    md.schema.length + rg.columns.length ≤ w.length := by
  obtain ⟨schema, hschema, hw⟩ := bind_eq_ok.mp hw
  obtain ⟨rowGroups, hrowGroups, hw⟩ := bind_eq_ok.mp hw
  obtain ⟨-, hout⟩ := unsupported_bind_eq_ok.mp hw
  cases hout
  obtain ⟨b, hb, hle⟩ := length_body_le_writeListStruct hrowGroups hrg
  have hs := length_le_writeListStruct hschema encodeSchemaElement_ne_nil
  have h2 : 0 + md.schema.length ≤ ((StructWriter.new.field 1 .i32
      (writeZigzagI32 md.version)).field 2 .list schema).buf.length :=
    StructWriter.le_field (Nat.zero_le _) hs
  rw [Nat.zero_add] at h2
  open StructWriter in
  exact le_stop (le_opt (le_opt (le_opt (le_opt (le_field (le_field h2 (Nat.zero_le _))
    ((length_columns_le hb).trans hle))))))

/-- A footer has no fewer bytes than row groups. -/
theorem rowGroups_length_le_writeFileMetadata {md : FileMetaData} {w : Bytes}
    (hw : writeFileMetadata md = .ok w) : md.rowGroups.length ≤ w.length := by
  obtain ⟨schema, -, hw⟩ := bind_eq_ok.mp hw
  obtain ⟨rowGroups, hrowGroups, hw⟩ := bind_eq_ok.mp hw
  obtain ⟨-, hout⟩ := unsupported_bind_eq_ok.mp hw
  cases hout
  have hle := length_le_writeListStruct hrowGroups encodeRowGroup_ne_nil
  rw [← Nat.zero_add md.rowGroups.length]
  open StructWriter in
  exact le_stop (le_opt (le_opt (le_opt (le_opt (le_field (Nat.zero_le _) hle)))))

/-! ## The domain of the writers -/

/-- No column-level key/value pairs, encoding or size statistics. -/
def ColumnMetaData.Supported (cm : ColumnMetaData) : Prop :=
  cm.keyValueMetadata = none ∧ cm.encodingStats = none ∧ cm.sizeStatistics = none

/-- The writer knows all that the metadata has. -/
def ColumnChunk.Supported (cc : ColumnChunk) : Prop := ∀ cm ∈ cc.metaData, cm.Supported

/-- The writer knows all that the chunks have. -/
def RowGroup.Supported (rg : RowGroup) : Prop :=
  rg.sortingColumns = none ∧ ∀ cc ∈ rg.columns, cc.Supported

/-- The footers the writers implement. -/
def FileMetaData.Supported (md : FileMetaData) : Prop :=
  md.columnOrders = none ∧ (∀ se ∈ md.schema, se.logicalType = none) ∧
    ∀ rg ∈ md.rowGroups, rg.Supported

instance : DecidablePred ColumnMetaData.Supported :=
  fun _ => inferInstanceAs (Decidable (_ ∧ _ ∧ _))

instance : DecidablePred ColumnChunk.Supported :=
  fun cc => inferInstanceAs (Decidable (∀ cm ∈ cc.metaData, cm.Supported))

instance : DecidablePred RowGroup.Supported :=
  fun rg => inferInstanceAs (Decidable (_ ∧ ∀ cc ∈ rg.columns, cc.Supported))

instance : DecidablePred FileMetaData.Supported :=
  fun md => inferInstanceAs (Decidable (_ ∧ (∀ se ∈ md.schema, se.logicalType = none) ∧
    ∀ rg ∈ md.rowGroups, rg.Supported))

theorem exists_writeListStruct {enc : α → Res FormatError Bytes} {as : List α}
    (h : ∀ a ∈ as, ∃ b, enc a = .ok b) : ∃ w, writeListStruct enc as = .ok w := by
  obtain ⟨bodies, hbodies⟩ := exists_mapM h
  exact ⟨_, bind_eq_ok.mpr ⟨bodies, hbodies, rfl⟩⟩

theorem exists_encodeColumnMetadata {cm : ColumnMetaData} (h : cm.Supported) :
    ∃ w, encodeColumnMetadata cm = .ok w := by
  obtain ⟨hkv, hstats, hsize⟩ := h
  rw [encodeColumnMetadata, hkv, hstats, hsize]
  exact ⟨_, rfl⟩

theorem exists_encodeColumnChunk {cc : ColumnChunk} (h : cc.Supported) :
    ∃ w, encodeColumnChunk cc = .ok w := by
  cases hm : cc.metaData with
  | none =>
    rw [encodeColumnChunk, hm]
    exact ⟨_, rfl⟩
  | some cm =>
    obtain ⟨b, hb⟩ := exists_encodeColumnMetadata (h cm hm)
    rw [encodeColumnChunk, hm, encodeOption, hb]
    exact ⟨_, rfl⟩

theorem exists_encodeRowGroup {rg : RowGroup} (h : rg.Supported) :
    ∃ w, encodeRowGroup rg = .ok w := by
  obtain ⟨hsorting, hcolumns⟩ := h
  obtain ⟨columns, hw⟩ := exists_writeListStruct fun cc hcc =>
    exists_encodeColumnChunk (hcolumns cc hcc)
  rw [encodeRowGroup, hsorting, hw]
  exact ⟨_, rfl⟩

/-- On its domain the footer writer returns. -/
theorem exists_writeFileMetadata {md : FileMetaData} (h : md.Supported) :
    ∃ w, writeFileMetadata md = .ok w := by
  obtain ⟨horders, hschema, hrowGroups⟩ := h
  have hse : ∀ se ∈ md.schema, ∃ w, encodeSchemaElement se = .ok w := by
    intro se hse
    rw [encodeSchemaElement, hschema se hse]
    exact ⟨_, rfl⟩
  obtain ⟨schema, hs⟩ := exists_writeListStruct hse
  obtain ⟨rowGroups, hr⟩ := exists_writeListStruct fun rg hrg =>
    exists_encodeRowGroup (hrowGroups rg hrg)
  rw [writeFileMetadata, encodeFileMetadata, hs, hr, horders]
  exact ⟨_, rfl⟩

/-- **The footer is read back whole**, and the cursor stops at the first byte
    after it.  The writer's output is a `Vec<u8>`, shorter than `2 ^ 64`. -/
theorem readFileMetadata_writeFileMetadata (md : FileMetaData) (h : md.Supported) :
    ∃ w, writeFileMetadata md = .ok w ∧
      (w.length < 2 ^ 64 → ∀ t, readFileMetadata.run (w ++ t) = .ok (md, t)) := by
  obtain ⟨w, hw⟩ := exists_writeFileMetadata h
  exact ⟨w, hw, parses_fileMetadata hw⟩

/-- A footer with an encrypted column next to a plain one. -/
def sampleFooter : FileMetaData where
  version := 2
  schema := [{ name := [0x72], numChildren := some 1 },
    { columnType := some .int64, repetitionType := some .required, name := [0x61] }]
  numRows := 3
  rowGroups := [{ columns := [{ fileOffset := 4,
                                cryptoMetadata := some .encryptionWithFooterKey,
                                encryptedColumnMetadata := some [1, 2] }],
                  numRows := 3, ordinal := some 0 }]
  keyValueMetadata := some [{ key := [0x6B], value := none }]
  encryptionAlgorithm := some (.aesGcmV1 { supplyAadPrefix := some false })

theorem readFileMetadata_sampleFooter :
    sampleFooter.Supported ∧ ∃ w, writeFileMetadata sampleFooter = .ok w ∧
      (w.length < 2 ^ 64 → ∀ t, readFileMetadata.run (w ++ t) = .ok (sampleFooter, t)) :=
  ⟨by decide, readFileMetadata_writeFileMetadata sampleFooter (by decide)⟩

end EmatixParquet
