/-
  Indexes on pairs of columns and on tokens, from the writer to the lookup.

  * `compositeIndex_exact`: lookups of a pair, or of its first value alone,
    select exactly the rows with it;
  * `invertedIndex_exact`: a lookup of a token selects exactly the rows whose text
    has it.
-/
import EmatixParquet.Index.Source

namespace EmatixParquet

open Wire

section
variable {κ : Type} {cs : Columns} {entries : List (κ × IndexTargets.Row)} {options : WriteOptions}
  {t : WrittenTable} {file : ParquetFile}

section
variable [Platform]

/-- A body whose row groups are not bounded has one. -/
theorem WrittenFile.one_group (h : WrittenFile t (cs ++ targetColumns entries) options file)
    (hsize : options.rowGroupSize = defaultRowGroupSize) :
    entries.length ≤ options.rowGroupSize ∧ rowGroupCount entries.length options.rowGroupSize = 1 := by
  have hrows : rowsOf (cs ++ targetColumns entries) = entries.length := by
    rw [@WrittenFile.rowCount_eq _ _ _ _ _ h cs.length "target_rg" (.i32 (entries.map fun e => e.2.1))
      (by simp [targetColumns]), ColumnData.rowCount, List.length_map]
  have hfit := h.short.rows
  have hgt := defaultRowGroupSize_gt
  rw [hrows, hsize] at hfit
  rw [hsize]
  exact ⟨by omega, rowGroupCount_default hfit⟩

/-- **Its columns**: those of the targets, and each of the others. -/
theorem WrittenFile.readBody [LawfulPlatform]
    (h : WrittenFile t (cs ++ targetColumns entries) options file)
    (hsize : options.rowGroupSize = defaultRowGroupSize) :
    (readColumnI32 file 0 cs.length = .ok (entries.map fun e => e.2.1) ∧
      readColumnI32 file 0 (cs.length + 1) = .ok (entries.map fun e => e.2.2.1) ∧
      readColumnByteArray file 0 (cs.length + 2) = .ok (entries.map fun e => e.2.2.2)) ∧
    (∀ ix name (f : κ → Int64), cs[ix]? = some (name, .i64 (entries.map fun e => f e.1)) →
      readColumnI64 file 0 ix = .ok (entries.map fun e => f e.1)) ∧
    ∀ ix name (f : κ → Bytes), cs[ix]? = some (name, .byteArray (entries.map fun e => f e.1)) →
      readColumnByteArray file 0 ix = .ok (entries.map fun e => f e.1) := by
  obtain ⟨hle, hone⟩ := h.one_group hsize
  have hgroup : ∀ {α : Type} (f : κ × IndexTargets.Row → α),
      groupRows (entries.map f) options.rowGroupSize 0 = entries.map f :=
    fun f => groupRows_zero (by rwa [List.length_map])
  have htargets := h.readTargets (r := 0) (by omega)
  rw [groupRows_zero hle] at htargets
  refine ⟨htargets, fun ix name f hnamed => ?_, fun ix name f hnamed => ?_⟩
  · have hget : (cs ++ targetColumns entries)[ix]? = some (name, .i64 (entries.map fun e => f e.1)) := by
      rw [List.getElem?_append_left (List.getElem?_eq_some_iff.mp hnamed).1, hnamed]
    rw [h.readI64 hget (by rw [List.length_map]; omega), hgroup fun e => f e.1]
  · have hget : (cs ++ targetColumns entries)[ix]?
        = some (name, .byteArray (entries.map fun e => f e.1)) := by
      rw [List.getElem?_append_left (List.getElem?_eq_some_iff.mp hnamed).1, hnamed]
    rw [h.readByteArray hget (by rw [List.length_map]; omega), hgroup fun e => f e.1]

end

end

/-! ## Pairs -/

/-- The body with these rows. -/
def compositeOf (entries : List ((Int64 × Int64) × IndexTargets.Row)) : LoadedTypedCompositeI64I64 where
  valuesA := entries.map fun e => e.1.1
  valuesB := entries.map fun e => e.1.2
  targetRgs := entries.map fun e => e.2.1
  targetPages := entries.map fun e => e.2.2.1
  rowsets := entries.map fun e => e.2.2.2

@[simp] theorem entries_compositeOf (entries : List ((Int64 × Int64) × IndexTargets.Row)) :
    (compositeOf entries).entries = entries := by
  rw [LoadedTypedCompositeI64I64.entries, LoadedTypedCompositeI64I64.pairs, IndexTargets.rows,
    compositeOf]
  simp [List.zip_map']

theorem inOrder_compositeOf {entries : List ((Int64 × Int64) × IndexTargets.Row)}
    (h : (entries.map Prod.fst).Pairwise fun x y => (compare x y).isLE = true) :
    (compositeOf entries).InOrder := by
  refine ⟨by simp [compositeOf], ⟨by simp [compositeOf], by simp [compositeOf], by simp [compositeOf]⟩, ?_⟩
  have hpairs : (compositeOf entries).pairs = entries.map Prod.fst := by
    rw [LoadedTypedCompositeI64I64.pairs, compositeOf]
    simp [List.zip_map']
  rw [hpairs]
  refine h.imp fun {x y} hle => ?_
  change (compareLex (compareOn Prod.fst) (compareOn Prod.snd) x y).isLE = true at hle
  rw [compareLex, Ordering.isLE_then_iff_or, compareOn, compareOn, Std.compare_eq_lt,
    Std.compare_eq_iff_eq, Std.isLE_compare] at hle
  exact hle

section
variable [Platform] {source : ParquetFile} {md : FileMetaData} {nameA nameB indexName : String}
  {colA colB : ℕ}

/-- A row has the pair of values that the columns have there. -/
theorem rowWith_readPairs {q : Int64 × Int64 → Prop} {g r : ℕ} :
    RowWith (readPairs source colA colB) q g r
      ↔ ∃ as bs, readColumnI64 source g colA = .ok as ∧ readColumnI64 source g colB = .ok bs ∧
        as.length = bs.length ∧ ∃ a b, as[r]? = some a ∧ bs[r]? = some b ∧ q (a, b) := by
  constructor
  · rintro ⟨rows, ks, hread, hks, k, hk, hq⟩
    obtain ⟨as, has, hread⟩ := bind_eq_ok.mp hread
    obtain ⟨bs, hbs, hread⟩ := bind_eq_ok.mp hread
    split at hread
    · cases hread
    · next hlen =>
      cases hread
      rw [List.getElem?_map, Option.map_eq_some_iff] at hks
      obtain ⟨⟨a, b⟩, hab, rfl⟩ := hks
      obtain ⟨ha, hb⟩ := List.getElem?_zip_eq_some.mp hab
      rw [List.mem_singleton] at hk
      exact ⟨as, bs, has, hbs, not_not.mp hlen, a, b, ha, hb, hk ▸ hq⟩
  · rintro ⟨as, bs, has, hbs, hlen, a, b, ha, hb, hq⟩
    refine ⟨(as.zip bs).map fun pair => [pair], [(a, b)], ?_, ?_, (a, b), List.mem_singleton.mpr rfl, hq⟩
    · rw [readPairs, has, ok_bind, hbs, ok_bind, if_neg (not_not.mpr hlen)]
      rfl
    · have hab : (as.zip bs)[r]? = some (a, b) := List.getElem?_zip_eq_some.mpr ⟨ha, hb⟩
      rw [List.getElem?_map, hab]
      rfl

variable [FloatText]

/-- The entry of an index on a pair in the manifest. -/
def compositeEntry (indexName nameA nameB : String) : IndexEntry :=
  { name := indexName, kind := .compositePrefix [nameA, nameB] [.int64, .int64],
    sidecarRowGroup := 0, sidecarRowGroupCount := 1 }

/-- **What a table of pairs is made of.** -/
theorem compositeTable_eq_ok (h : Indexable source md nameA colA)
    (hB : leafOrdinal md.schema nameB = some colB) {table : Columns × WriteOptions}
    (htable : compositeTable source indexName colA colB = .ok table) :
    ∃ b entries fp, bucketRowGroups source md "col_a" colA (readPairs source colA colB) = .ok b ∧
      b.entries = .ok entries ∧ computeSourceFingerprint source = .ok fp ∧
      table = (("value_a", .i64 (entries.map fun e => e.1.1))
          :: ("value_b", .i64 (entries.map fun e => e.1.2)) :: targetColumns entries,
        sidecarOptions fp (compositeEntry indexName nameA nameB) .snappy defaultRowGroupSize) := by
  rw [compositeTable] at htable
  split at htable
  · cases htable
  obtain ⟨md', hmd, htable⟩ := bind_eq_ok.mp htable
  rw [h.metadata, mapIo_ok] at hmd
  cases hmd
  obtain ⟨leafA, hleafA, htable⟩ := bind_eq_ok.mp htable
  obtain ⟨leafB, hleafB, htable⟩ := bind_eq_ok.mp htable
  obtain ⟨typeA, -, htable⟩ := bind_eq_ok.mp htable
  obtain ⟨typeB, -, htable⟩ := bind_eq_ok.mp htable
  split at htable
  · cases htable
  obtain ⟨b, hb, htable⟩ := bind_eq_ok.mp htable
  obtain ⟨entries, hentries, htable⟩ := bind_eq_ok.mp htable
  obtain ⟨fp, hfp, htable⟩ := bind_eq_ok.mp htable
  rw [leafName_ok h.ordinal hleafA, ok_bind, leafName_ok hB hleafB, ok_bind] at htable
  cases htable
  exact ⟨b, entries, fp, hb, hentries, hfp, rfl⟩

omit [FloatText] in
/-- **The reader** has the columns of a body of pairs. -/
theorem loadComposite_ok {file : ParquetFile} {entry : IndexEntry} {sourceColumns : List String}
    {d : LoadedTypedCompositeI64I64} (hcolumns : sourceColumns.length = 2)
    (hA : readColumnI64 file entry.sidecarRowGroup.toNat 0 = .ok d.valuesA)
    (hB : readColumnI64 file entry.sidecarRowGroup.toNat 1 = .ok d.valuesB)
    (hrgs : readColumnI32 file entry.sidecarRowGroup.toNat 2 = .ok d.targetRgs)
    (hpages : readColumnI32 file entry.sidecarRowGroup.toNat 3 = .ok d.targetPages)
    (hrowsets : readColumnByteArray file entry.sidecarRowGroup.toNat 4 = .ok d.rowsets)
    (h : d.InOrder) : loadComposite file entry sourceColumns [.int64, .int64] = .ok d := by
  have hlengths := h.targets
  rw [loadComposite, if_neg (by simp [hcolumns])]
  dsimp only
  rw [hA, ok_bind, hB, ok_bind, hrgs, ok_bind, hpages, ok_bind, hrowsets, ok_bind]
  exact if_neg (by simp [h.valuesB, hlengths.targetRgs, hlengths.targetPages, hlengths.rowsets])

/-- An opened index on a pair: its body, in the order of the pairs, names the rows
    of the source. -/
structure CompositeIndex (index : ParquetIndex) (source : ParquetFile) (md : FileMetaData)
    (indexName nameA : String) (colA colB : ℕ) (d : LoadedTypedCompositeI64I64) : Prop where
  format : index.rowsetFormat = .v2Tagged
  found : ∃ entry nameB, index.findIndex indexName
      = .ok { entry, data := .compositePrefixI64I64 d } ∧
    entry.kind = .compositePrefix [nameA, nameB] [.int64, .int64]
  inOrder : d.InOrder
  rows : ∃ keys paging, KeyedSource source md colA (readPairs source colA colB) keys paging ∧
    IndexesRows d.entries keys paging

/-- **A written index on a pair opens.** -/
theorem exists_compositeIndex [LawfulPlatform] (h : Indexable source md nameA colA)
    (hB : leafOrdinal md.schema nameB = some colB) {idx : Bytes}
    (hwrite : writeSortedCompositePrefixI64I64 source indexName colA colB = .ok idx)
    (hshort : ∀ table, compositeTable source indexName colA colB = .ok table →
      ShortTable table.1 table.2)
    (hclean : ∀ name ∈ [indexName, nameA, nameB], Clean name) :
    ∃ index d, ParquetIndex.open idx source = .ok index ∧
      CompositeIndex index source md indexName nameA colA colB d := by
  obtain ⟨table, htable, hwrite⟩ := bind_eq_ok.mp hwrite
  have hshort := hshort table htable
  obtain ⟨b, entries, fp, hb, hentries, hfp, rfl⟩ := compositeTable_eq_ok h hB htable
  obtain ⟨t, ht, rfl⟩ := map_eq_ok.mp hwrite
  obtain ⟨file, hfile⟩ := exists_writtenFile ht hshort
  obtain ⟨hsorted, keys, paging, hkeyed, hrows⟩ := h.indexesRows hb hentries hfp
  have hbody : WrittenFile t ([("value_a", .i64 (entries.map fun e => e.1.1)),
    ("value_b", .i64 (entries.map fun e => e.1.2))] ++ targetColumns entries) _ file := hfile
  obtain ⟨⟨hrgs, hpages, hrowsets⟩, hvalues, -⟩ := hbody.readBody rfl
  have hload : loadIndexData file (compositeEntry indexName nameA nameB)
      = .ok (.compositePrefixI64I64 (compositeOf entries)) :=
    map_eq_ok.mpr ⟨compositeOf entries, loadComposite_ok rfl (hvalues 0 "value_a" Prod.fst rfl)
      (hvalues 1 "value_b" Prod.snd rfl) hrgs hpages hrowsets (inOrder_compositeOf hsorted), rfl⟩
  obtain ⟨index, hopen, hformat, hfound⟩ := hfile.open_sidecar ⟨Nat.le_refl 1, rfl⟩ hclean hfp hload
  refine ⟨index, _, hopen, hformat, ⟨_, nameB, hfound, rfl⟩, inOrder_compositeOf hsorted, keys, paging,
    hkeyed, ?_⟩
  rwa [entries_compositeOf]

omit [FloatText] in
/-- **The rows of the body** whose pair satisfies a predicate, as bitmaps. -/
theorem CompositeIndex.selects {index : ParquetIndex} {d : LoadedTypedCompositeI64I64}
    (h : CompositeIndex index source md indexName nameA colA colB d)
    (hsource : Indexable source md nameA colA) (q : Int64 × Int64 → Prop) [DecidablePred q] :
    ∃ hits bitmaps, (d.entries.filter fun e => q e.1).mapM (fun e => toHit .v2Tagged e.2) = .ok hits ∧
      index.assembleBitmaps source indexName hits = .ok bitmaps ∧
      Selects bitmaps md (RowWith (readPairs source colA colB) q) := by
  obtain ⟨entry, nameB, hfound, hkind⟩ := h.found
  obtain ⟨keys, paging, hkeyed, hrows⟩ := h.rows
  obtain ⟨hits, hhits, bitmaps, hbitmaps, hselects⟩ := hrows.selects hkeyed hsource.resolves q
  refine ⟨hits, bitmaps, hhits, ?_, hselects⟩
  rw [ParquetIndex.assembleBitmaps, hfound, ok_bind, ParquetIndex.indexedColumn, hkind]
  exact hbitmaps

omit [FloatText] in
/-- **A lookup of a pair** selects the rows with it. -/
theorem CompositeIndex.lookupEq_selects {index : ParquetIndex} {d : LoadedTypedCompositeI64I64}
    (h : CompositeIndex index source md indexName nameA colA colB d)
    (hsource : Indexable source md nameA colA) (a b : Int64) : ∃ hits bitmaps,
      index.lookupCompositeEq indexName (.i64 a) (.i64 b) = .ok hits ∧
      index.assembleBitmaps source indexName hits = .ok bitmaps ∧
      Selects bitmaps md (RowWith (readPairs source colA colB) (· = (a, b))) := by
  obtain ⟨hits, bitmaps, hhits, hbitmaps, hselects⟩ := h.selects hsource (· = (a, b))
  obtain ⟨entry, -, hfound, -⟩ := h.found
  refine ⟨hits, bitmaps, ?_, hbitmaps, hselects⟩
  rw [ParquetIndex.lookupCompositeEq, hfound, ok_bind]
  dsimp only
  rw [h.format, compositeEqHits_eq h.inOrder, hhits]

omit [FloatText] in
/-- **A lookup of a first value** selects the rows with it. -/
theorem CompositeIndex.lookupPrefix_selects {index : ParquetIndex} {d : LoadedTypedCompositeI64I64}
    (h : CompositeIndex index source md indexName nameA colA colB d)
    (hsource : Indexable source md nameA colA) (a : Int64) : ∃ hits bitmaps,
      index.lookupCompositePrefix indexName (.i64 a) = .ok hits ∧
      index.assembleBitmaps source indexName hits = .ok bitmaps ∧
      Selects bitmaps md (RowWith (readPairs source colA colB) (·.1 = a)) := by
  obtain ⟨hits, bitmaps, hhits, hbitmaps, hselects⟩ := h.selects hsource (·.1 = a)
  obtain ⟨entry, -, hfound, -⟩ := h.found
  refine ⟨hits, bitmaps, ?_, hbitmaps, hselects⟩
  rw [ParquetIndex.lookupCompositePrefix, hfound, ok_bind]
  dsimp only
  rw [h.format, compositePrefixHits_eq h.inOrder, hhits]

/-- **Indexes on pairs are exact**: an index that was written on two columns
    opens, the bitmaps of the hits of a pair have the rows with that pair and no
    others, and those of a first value alone the rows with that value. -/
theorem compositeIndex_exact [LawfulPlatform] (h : Indexable source md nameA colA)
    (hB : leafOrdinal md.schema nameB = some colB) {idx : Bytes}
    (hwrite : writeSortedCompositePrefixI64I64 source indexName colA colB = .ok idx)
    (hshort : ∀ table, compositeTable source indexName colA colB = .ok table →
      ShortTable table.1 table.2)
    (hclean : ∀ name ∈ [indexName, nameA, nameB], Clean name) :
    ∃ index, ParquetIndex.open idx source = .ok index ∧
      (∀ a b, ∃ hits bitmaps, index.lookupCompositeEq indexName (.i64 a) (.i64 b) = .ok hits ∧
        index.assembleBitmaps source indexName hits = .ok bitmaps ∧
        Selects bitmaps md fun g r => ∃ as bs, readColumnI64 source g colA = .ok as ∧
          readColumnI64 source g colB = .ok bs ∧ as.length = bs.length ∧
          as[r]? = some a ∧ bs[r]? = some b) ∧
      ∀ a, ∃ hits bitmaps, index.lookupCompositePrefix indexName (.i64 a) = .ok hits ∧
        index.assembleBitmaps source indexName hits = .ok bitmaps ∧
        Selects bitmaps md fun g r => ∃ as bs, readColumnI64 source g colA = .ok as ∧
          readColumnI64 source g colB = .ok bs ∧ as.length = bs.length ∧ as[r]? = some a := by
  obtain ⟨index, d, hopen, hd⟩ := exists_compositeIndex h hB hwrite hshort hclean
  refine ⟨index, hopen, fun a b => ?_, fun a => ?_⟩
  · obtain ⟨hits, bitmaps, hhits, hbitmaps, hselects⟩ := hd.lookupEq_selects h a b
    refine ⟨hits, bitmaps, hhits, hbitmaps, hselects.congr fun g r => ?_⟩
    rw [rowWith_readPairs]
    simp
  · obtain ⟨hits, bitmaps, hhits, hbitmaps, hselects⟩ := hd.lookupPrefix_selects h a
    refine ⟨hits, bitmaps, hhits, hbitmaps, hselects.congr fun g r => ?_⟩
    rw [rowWith_readPairs]
    refine exists_congr fun as => exists_congr fun bs => and_congr_right fun _ =>
      and_congr_right fun _ => and_congr_right fun hlen => ?_
    constructor
    · rintro ⟨a', b, ha, -, rfl⟩
      exact ha
    · intro ha
      obtain ⟨hr, -⟩ := List.getElem?_eq_some_iff.mp ha
      exact ⟨a, _, ha, List.getElem?_eq_getElem (hlen ▸ hr), rfl⟩

end

/-- The index on the pairs of the sample is written. -/
theorem writeComposite_keys : ∃ source idx, keysFile = .ok source ∧
    @writeSortedCompositePrefixI64I64 FloatText.hundredth Platform.stored source "by_pair" 0 1
      = .ok idx ∧
    ∀ table, @compositeTable FloatText.hundredth Platform.stored source "by_pair" 0 1 = .ok table →
      @ShortTable Platform.stored table.1 table.2 := by
  let _ := Platform.stored
  let _ := FloatText.hundredth
  obtain ⟨source, table, t, hsource, htable, ht, hshort⟩ :=
    @shortTable_keys (fun source => compositeTable source "by_pair" 0 1) 1176 811
      (by decide +kernel) (by decide) (by decide)
  exact ⟨source, t.bytes, hsource, bind_eq_ok.mpr ⟨table, htable, map_eq_ok.mpr ⟨t, ht, rfl⟩⟩, hshort⟩

theorem compositeIndex_exact_sample : ∃ source md idx index, keysFile = .ok source ∧
    @ParquetIndex.open Platform.stored FloatText.hundredth idx source = .ok index ∧
    (∀ a b, ∃ hits bitmaps, index.lookupCompositeEq "by_pair" (.i64 a) (.i64 b) = .ok hits ∧
      index.assembleBitmaps source "by_pair" hits = .ok bitmaps ∧
      Selects bitmaps md fun g r => ∃ as bs, @readColumnI64 Platform.stored source g 0 = .ok as ∧
        @readColumnI64 Platform.stored source g 1 = .ok bs ∧ as.length = bs.length ∧
        as[r]? = some a ∧ bs[r]? = some b) ∧
    ∀ a, ∃ hits bitmaps, index.lookupCompositePrefix "by_pair" (.i64 a) = .ok hits ∧
      index.assembleBitmaps source "by_pair" hits = .ok bitmaps ∧
      Selects bitmaps md fun g r => ∃ as bs, @readColumnI64 Platform.stored source g 0 = .ok as ∧
        @readColumnI64 Platform.stored source g 1 = .ok bs ∧ as.length = bs.length ∧
        as[r]? = some a := by
  let _ := Platform.stored
  let _ := Platform.stored_lawful
  let _ := FloatText.hundredth
  obtain ⟨source, idx, hsource, hwrite, hshort⟩ := writeComposite_keys
  obtain ⟨md, hindexable, -, hvalue⟩ := indexable_keys hsource
  have hclean : ∀ name ∈ ["by_pair", "key", "value"], Clean name := by decide +kernel
  obtain ⟨index, hopen, hlookups⟩ := compositeIndex_exact hindexable hvalue hwrite hshort hclean
  exact ⟨source, md, idx, index, hsource, hopen, hlookups⟩

/-! ## Tokens -/

/-- The tokens of the rows of a row group. -/
def readTokens [Platform] (source : ParquetFile) (tokenizer : Tokenizer) (column rg : ℕ) :
    Res CodecError (List (List Bytes)) :=
  List.map (fun v => (tokenizer.tokenize v).eraseDups) <$> readColumnByteArray source rg column

section
variable [Platform] {source : ParquetFile} {md : FileMetaData} {sourceCol indexName : String}
  {column : ℕ} {tokenizer : Tokenizer}

/-- A row has the tokens of its text. -/
theorem rowWith_readTokens {q : Bytes → Prop} {g r : ℕ} :
    RowWith (readTokens source tokenizer column) q g r
      ↔ ∃ vs v, readColumnByteArray source g column = .ok vs ∧ vs[r]? = some v ∧
        ∃ tok ∈ tokenizer.tokenize v, q tok := by
  constructor
  · rintro ⟨rows, ks, hread, hks, k, hk, hq⟩
    obtain ⟨vs, hvs, rfl⟩ := map_eq_ok.mp hread
    rw [List.getElem?_map, Option.map_eq_some_iff] at hks
    obtain ⟨v, hv, rfl⟩ := hks
    exact ⟨vs, v, hvs, hv, k, List.mem_eraseDups.mp hk, hq⟩
  · rintro ⟨vs, v, hvs, hv, tok, htok, hq⟩
    refine ⟨_, _, map_eq_ok.mpr ⟨vs, hvs, rfl⟩, ?_, tok, List.mem_eraseDups.mpr htok, hq⟩
    rw [List.getElem?_map, hv]
    rfl

variable [FloatText]

/-- The entry of an inverted index in the manifest. -/
def invertedEntry (indexName sourceCol : String) (tokenizer : Tokenizer) : IndexEntry :=
  { name := indexName, kind := .inverted sourceCol tokenizer, sidecarRowGroup := 0,
    sidecarRowGroupCount := 1 }

/-- **What a table of tokens is made of.** -/
theorem invertedTable_eq_ok (h : Indexable source md sourceCol column) {table : Columns × WriteOptions}
    (htable : invertedTable source indexName column tokenizer = .ok table) :
    ∃ b entries fp, bucketRowGroups source md "col" column (readTokens source tokenizer column) = .ok b ∧
      b.entries = .ok entries ∧ computeSourceFingerprint source = .ok fp ∧
      table = (("token", .byteArray (entries.map fun e => e.1)) :: targetColumns entries,
        sidecarOptions fp (invertedEntry indexName sourceCol tokenizer) .snappy
          defaultRowGroupSize) := by
  obtain ⟨md', hmd, htable⟩ := bind_eq_ok.mp htable
  rw [h.metadata, mapIo_ok] at hmd
  cases hmd
  obtain ⟨leaf, hleaf, htable⟩ := bind_eq_ok.mp htable
  obtain ⟨columnType, -, htable⟩ := bind_eq_ok.mp htable
  split at htable
  · cases htable
  obtain ⟨b, hb, htable⟩ := bind_eq_ok.mp htable
  obtain ⟨entries, hentries, htable⟩ := bind_eq_ok.mp htable
  obtain ⟨fp, hfp, htable⟩ := bind_eq_ok.mp htable
  rw [leafName_ok h.ordinal hleaf, ok_bind] at htable
  cases htable
  exact ⟨b, entries, fp, hb, hentries, hfp, rfl⟩

omit [FloatText] in
/-- **The reader** has the columns of a body of tokens. -/
theorem loadInverted_ok {file : ParquetFile} {entry : IndexEntry} {d : LoadedTyped Bytes}
    (htokens : readColumnByteArray file entry.sidecarRowGroup.toNat 0 = .ok d.values)
    (hrgs : readColumnI32 file entry.sidecarRowGroup.toNat 1 = .ok d.targetRgs)
    (hpages : readColumnI32 file entry.sidecarRowGroup.toNat 2 = .ok d.targetPages)
    (hrowsets : readColumnByteArray file entry.sidecarRowGroup.toNat 3 = .ok d.rowsets)
    (h : d.Aligned) : loadInverted file entry = .ok d := by
  rw [loadInverted]
  dsimp only
  rw [htokens, ok_bind, hrgs, ok_bind, hpages, ok_bind, hrowsets, ok_bind]
  exact if_neg (by simp [h.targetRgs, h.targetPages, h.rowsets])

/-- An opened index on tokens: its body, in the order of the tokens, names the
    rows of the source. -/
structure InvertedIndex (index : ParquetIndex) (source : ParquetFile) (md : FileMetaData)
    (indexName sourceCol : String) (tokenizer : Tokenizer) (column : ℕ) (d : LoadedTyped Bytes) :
    Prop where
  format : index.rowsetFormat = .v2Tagged
  found : ∃ entry, index.findIndex indexName = .ok { entry, data := .inverted d } ∧
    entry.kind = .inverted sourceCol tokenizer
  aligned : d.Aligned
  sorted : d.values.Pairwise (· ≤ ·)
  rows : ∃ keys paging,
    KeyedSource source md column (readTokens source tokenizer column) keys paging ∧
    IndexesRows d.entries keys paging

/-- **A written index on tokens opens.** -/
theorem exists_invertedIndex [LawfulPlatform] (h : Indexable source md sourceCol column) {idx : Bytes}
    (hwrite : writeInvertedByteArray source indexName column tokenizer = .ok idx)
    (hshort : ∀ table, invertedTable source indexName column tokenizer = .ok table →
      ShortTable table.1 table.2)
    (hindexName : Clean indexName) (hsourceCol : Clean sourceCol) :
    ∃ index d, ParquetIndex.open idx source = .ok index ∧
      InvertedIndex index source md indexName sourceCol tokenizer column d := by
  obtain ⟨table, htable, hwrite⟩ := bind_eq_ok.mp hwrite
  have hshort := hshort table htable
  obtain ⟨b, entries, fp, hb, hentries, hfp, rfl⟩ := invertedTable_eq_ok h htable
  obtain ⟨t, ht, rfl⟩ := map_eq_ok.mp hwrite
  obtain ⟨file, hfile⟩ := exists_writtenFile ht hshort
  obtain ⟨hsorted, keys, paging, hkeyed, hrows⟩ := h.indexesRows hb hentries hfp
  have hbody : WrittenFile t ([("token", .byteArray (entries.map fun e => e.1))]
    ++ targetColumns entries) _ file := hfile
  obtain ⟨⟨hrgs, hpages, hrowsets⟩, -, hvalues⟩ := hbody.readBody rfl
  have hload : loadIndexData file (invertedEntry indexName sourceCol tokenizer)
      = .ok (.inverted (bodyOf entries)) :=
    map_eq_ok.mpr ⟨bodyOf entries, loadInverted_ok (hvalues 0 "token" id rfl) hrgs hpages hrowsets
      (aligned_bodyOf entries), rfl⟩
  have hnames : ∀ v ∈ (invertedEntry indexName sourceCol tokenizer).names, Clean v := by
    simp [IndexEntry.names, invertedEntry, IndexKind.columns, hindexName, hsourceCol]
  obtain ⟨index, hopen, hformat, hfound⟩ := hfile.open_sidecar ⟨Nat.le_refl 1, trivial⟩ hnames hfp hload
  refine ⟨index, _, hopen, hformat, ⟨_, hfound, rfl⟩, aligned_bodyOf entries, ?_, keys, paging, hkeyed, ?_⟩
  · exact hsorted.imp fun hle => (Std.LawfulOrderOrd.isLE_compare _ _).mp hle
  · rwa [entries_bodyOf]

omit [FloatText] in
/-- **A lookup of a token** selects the rows whose text has it. -/
theorem InvertedIndex.lookupToken_selects {index : ParquetIndex} {d : LoadedTyped Bytes}
    (h : InvertedIndex index source md indexName sourceCol tokenizer column d)
    (hsource : Indexable source md sourceCol column) (tok : Bytes) :
    ∃ hits bitmaps, index.lookupToken indexName tok = .ok hits ∧
      index.assembleBitmaps source indexName hits = .ok bitmaps ∧
      Selects bitmaps md fun g r => ∃ vs v, readColumnByteArray source g column = .ok vs ∧
        vs[r]? = some v ∧ tok ∈ tokenizer.tokenize v := by
  obtain ⟨entry, hfound, hkind⟩ := h.found
  obtain ⟨keys, paging, hkeyed, hrows⟩ := h.rows
  obtain ⟨hits, hhits, bitmaps, hbitmaps, hselects⟩ :=
    hrows.selects hkeyed hsource.resolves (· = tok)
  refine ⟨hits, bitmaps, ?_, ?_, hselects.congr fun g r => ?_⟩
  · rw [ParquetIndex.lookupToken, hfound, ok_bind]
    dsimp only
    rw [invertedEqHits, h.format, eqHits_eq h.aligned h.sorted, hhits]
  · rw [ParquetIndex.assembleBitmaps, hfound, ok_bind, ParquetIndex.indexedColumn, hkind]
    exact hbitmaps
  · rw [rowWith_readTokens]
    simp

/-- **Inverted indexes are exact**: an index that was written on a column of texts
    opens, and the bitmaps of the hits of a token have the rows whose text has it
    and no others. -/
theorem invertedIndex_exact [LawfulPlatform] (h : Indexable source md sourceCol column) {idx : Bytes}
    (hwrite : writeInvertedByteArray source indexName column tokenizer = .ok idx)
    (hshort : ∀ table, invertedTable source indexName column tokenizer = .ok table →
      ShortTable table.1 table.2)
    (hindexName : Clean indexName) (hsourceCol : Clean sourceCol) :
    ∃ index, ParquetIndex.open idx source = .ok index ∧
      ∀ tok, ∃ hits bitmaps, index.lookupToken indexName tok = .ok hits ∧
        index.assembleBitmaps source indexName hits = .ok bitmaps ∧
        Selects bitmaps md fun g r => ∃ vs v, readColumnByteArray source g column = .ok vs ∧
          vs[r]? = some v ∧ tok ∈ tokenizer.tokenize v := by
  obtain ⟨index, d, hopen, hd⟩ := exists_invertedIndex h hwrite hshort hindexName hsourceCol
  exact ⟨index, hopen, hd.lookupToken_selects h⟩

end

/-- The index on the tokens of the sample is written. -/
theorem writeInverted_keys : ∃ source idx, keysFile = .ok source ∧
    @writeInvertedByteArray FloatText.hundredth Platform.stored source "by_token" 2
      .whitespaceLowercaseV1 = .ok idx ∧
    ∀ table, @invertedTable FloatText.hundredth Platform.stored source "by_token" 2
      .whitespaceLowercaseV1 = .ok table → @ShortTable Platform.stored table.1 table.2 := by
  let _ := Platform.stored
  let _ := FloatText.hundredth
  obtain ⟨source, table, t, hsource, htable, ht, hshort⟩ :=
    @shortTable_keys (fun source => invertedTable source "by_token" 2 .whitespaceLowercaseV1) 924 668
      (by decide +kernel) (by decide) (by decide)
  exact ⟨source, t.bytes, hsource, bind_eq_ok.mpr ⟨table, htable, map_eq_ok.mpr ⟨t, ht, rfl⟩⟩, hshort⟩

theorem invertedIndex_exact_sample : ∃ source md idx index, keysFile = .ok source ∧
    @ParquetIndex.open Platform.stored FloatText.hundredth idx source = .ok index ∧
    ∀ tok, ∃ hits bitmaps, index.lookupToken "by_token" tok = .ok hits ∧
      index.assembleBitmaps source "by_token" hits = .ok bitmaps ∧
      Selects bitmaps md fun g r => ∃ vs v, @readColumnByteArray Platform.stored source g 2 = .ok vs ∧
        vs[r]? = some v ∧ tok ∈ Tokenizer.whitespaceLowercaseV1.tokenize v := by
  let _ := Platform.stored
  let _ := Platform.stored_lawful
  let _ := FloatText.hundredth
  obtain ⟨source, idx, hsource, hwrite, hshort⟩ := writeInverted_keys
  obtain ⟨md, -, hindexable, -⟩ := indexable_keys hsource
  obtain ⟨index, hopen, hlookups⟩ :=
    invertedIndex_exact hindexable hwrite hshort (by decide +kernel) (by decide +kernel)
  exact ⟨source, md, idx, index, hsource, hopen, hlookups⟩

end EmatixParquet
