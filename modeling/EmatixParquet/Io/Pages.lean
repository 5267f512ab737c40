/-
  `PageWalker` (`pages.rs`) — the pages of a column chunk, one after the other,
  and the loop over them that every chunk reader runs.

  `PagesOf bytes pages` says that the walker takes the bytes apart into exactly
  these pages.

  * `walkPages_eq`: on such bytes the loop is a fold over the pages
    (`foldPages`);
  * `pagesOf_cons`, `pagesOf_flatMap`: a written header and its body are one
    page.
-/
import EmatixParquet.Io.File

namespace EmatixParquet

open Wire

variable {σ : Type}

/-- `v as usize`. -/
def i32AsUsize (v : Int32) : ℕ := v.toInt64.toUInt64.toNat

theorem i32AsUsize_ofNat {n : ℕ} (h : n < 2 ^ 31) : i32AsUsize (Int32.ofNat n) = n := by
  have hint : (Int32.ofNat n).toInt = n := by
    rw [Int32.toInt_ofNat_of_lt h]
  have h64 : (Int32.ofNat n).toInt64 = Int64.ofNat n := by
    refine Int64.toInt_inj.mp ?_
    rw [Int32.toInt_toInt64, hint, Int64.toInt_ofNat_of_lt (by omega)]
  rw [i32AsUsize, h64]
  change (UInt64.ofNat n).toNat = n
  exact UInt64.toNat_ofNat_of_lt' (by change n < 2 ^ 64; omega)

/-- A page: its header and its body. -/
abbrev Page := PageHeader × Bytes

/-- `next_page`. -/
def nextPage : Reader (Fault IoError) (Option Page) := do
  if ← Reader.atEnd then pure none
  else
    let header ← readPageHeader.mapError (Fault.map .format)
    let body ← (take (i32AsUsize header.compressedPageSize)).mapError (Fault.map .format)
    pure (some (header, body))

theorem readPageHeader_consumes {bs rest : Bytes} {hdr : PageHeader}
    (h : readPageHeader.run bs = .ok (hdr, rest)) : rest.length < bs.length := by
  obtain ⟨a, mid, hfields, hrest⟩ := Reader.run_bind_eq_ok h
  refine lt_of_le_of_lt (Reader.run_length_le _ hrest) ?_
  rw [readFields, Loop.run_eq] at hfields
  split at hfields
  · cases hfields
  · next hstep =>
    cases hfields
    obtain ⟨o, mid, ho, hrest⟩ := Reader.run_bind_eq_ok hstep
    exact lt_of_le_of_lt (Reader.run_length_le _ hrest) (readFieldHeader_consumes ho)
  · next hstep =>
    exact lt_of_le_of_lt (Reader.run_length_le _ hfields) ((fieldLoop _).consumes hstep)

theorem nextPage_consumes {bs rest : Bytes} {page : Page}
    (h : nextPage.run bs = .ok (some page, rest)) : rest.length < bs.length := by
  obtain ⟨done, mid, hdone, h⟩ := Reader.run_bind_eq_ok h
  cases hdone
  cases bs with
  | nil => cases h
  | cons b bs =>
    obtain ⟨header, mid, hheader, h⟩ := Reader.run_bind_eq_ok h
    exact lt_of_le_of_lt (Reader.run_length_le _ h)
      (readPageHeader_consumes (Reader.run_mapError_eq_ok.mp hheader))

/-- `while let Some((hdr, body)) = walker.next_page().map_err(..)? { .. }`.
    `onPage` goes on (`inl`) or leaves the loop (`inr`). -/
def pageLoop (mapErr : IoError → CodecError)
    (onPage : σ → Page → Res CodecError (σ ⊕ σ)) : Loop (Fault CodecError) σ σ where
  step s := do
    match ← nextPage.mapError (Fault.map mapErr) with
    | none => pure (.inr s)
    | some page => Reader.lift (onPage s page)
  consumes {s bs s' rest} h := by
    obtain ⟨o, mid, ho, h⟩ := Reader.run_bind_eq_ok h
    have ho := Reader.run_mapError_eq_ok.mp ho
    cases o with
    | none => cases h
    | some page => exact lt_of_le_of_lt (Reader.run_length_le _ h) (nextPage_consumes ho)

/-- The loop over the pages of a chunk, from state `s`. -/
def walkPages (mapErr : IoError → CodecError) (onPage : σ → Page → Res CodecError (σ ⊕ σ))
    (s : σ) (chunk : Bytes) : Res CodecError σ :=
  (·.1) <$> ((pageLoop mapErr onPage).run s).run chunk

/-- Loops whose pages do the same up to `f` end in the same state up to `f`. -/
theorem walkPages_map {τ : Type} {onPage : σ → Page → Res CodecError (σ ⊕ σ)}
    {onPage' : τ → Page → Res CodecError (τ ⊕ τ)} (f : σ → τ)
    (h : ∀ s page, onPage' (f s) page = Sum.map f f <$> onPage s page)
    (mapErr : IoError → CodecError) (s : σ) (bytes : Bytes) :
    walkPages mapErr onPage' (f s) bytes = f <$> walkPages mapErr onPage s bytes := by
  have hstep : ∀ s bs, ((pageLoop mapErr onPage').step (f s)).run bs
      = (Prod.map (Sum.map f f) id) <$> ((pageLoop mapErr onPage).step s).run bs := by
    intro s bs
    simp only [pageLoop, Reader.run_bind]
    cases (nextPage.mapError (Fault.map mapErr)).run bs with
    | error e => rfl
    | ok o =>
      obtain ⟨o, mid⟩ := o
      cases o with
      | none => rfl
      | some page =>
        simp only [h]
        cases onPage s page <;> rfl
  have hrun : ∀ n s bs, bs.length < n → ((pageLoop mapErr onPage').run (f s)).run bs
      = Prod.map f id <$> ((pageLoop mapErr onPage).run s).run bs := by
    intro n
    induction n with
    | zero => intro s bs hn; omega
    | succ n ih =>
      intro s bs hn
      rw [Loop.run_eq, Loop.run_eq, hstep]
      cases hs : ((pageLoop mapErr onPage).step s).run bs with
      | error e => rfl
      | ok r =>
        obtain ⟨r, rest⟩ := r
        cases r with
        | inr s' => rfl
        | inl s' =>
          have hlt := (pageLoop mapErr onPage).consumes hs
          exact ih s' rest (by omega)
  rw [walkPages, hrun _ s bytes (Nat.lt_succ_self _), walkPages]
  cases ((pageLoop mapErr onPage).run s).run bytes <;> rfl

/-- One turn of the loop. -/
theorem pageLoop_step (mapErr : IoError → CodecError)
    (onPage : σ → Page → Res CodecError (σ ⊕ σ)) (s : σ) (bs : Bytes) :
    ((pageLoop mapErr onPage).step s).run bs =
      match nextPage.run bs with
      | .error e => .error (Fault.map mapErr e)
      | .ok (none, rest) => .ok (.inr s, rest)
      | .ok (some page, rest) => (·, rest) <$> onPage s page := by
  simp only [pageLoop, Reader.run_bind]
  have hmap : (nextPage.mapError (Fault.map mapErr)).run bs
      = (nextPage.run bs).mapError (Fault.map mapErr) := rfl
  rw [hmap]
  cases nextPage.run bs with
  | error e => rfl
  | ok o =>
    obtain ⟨o, rest⟩ := o
    cases o with
    | none => rfl
    | some page =>
      dsimp only [Except.mapError]
      cases onPage s page <;> rfl

/-- The pages the loop looks at, each with the state it meets it in. -/
inductive Visits (onPage : σ → Page → Res CodecError (σ ⊕ σ)) : σ → Bytes → σ → Page → Prop
  | here {s bs page rest} : nextPage.run bs = .ok (some page, rest) → Visits onPage s bs s page
  | later {s s' t bs page page' rest} : nextPage.run bs = .ok (some page, rest) →
      onPage s page = .ok (.inl s') → Visits onPage s' rest t page' → Visits onPage s bs t page'

/-- **Simulation** of one page loop by another. -/
theorem walkPages_simulates {τ : Type} {onPage : σ → Page → Res CodecError (σ ⊕ σ)}
    {onPage' : τ → Page → Res CodecError (τ ⊕ τ)} (R : σ → τ → Bytes → Prop) (Q : σ → τ → Prop)
    (hend : ∀ {s t bs rest}, R s t bs → nextPage.run bs = .ok (none, rest) → Q s t)
    (hpage : ∀ {s t bs page rest r}, R s t bs → nextPage.run bs = .ok (some page, rest) →
      onPage s page = .ok r → ∃ r', onPage' t page = .ok r' ∧ Sum.LiftRel (R · · rest) Q r r')
    (mapErr : IoError → CodecError) {s s' : σ} {t : τ} {bytes : Bytes} (h : R s t bytes)
    (hwalk : walkPages mapErr onPage s bytes = .ok s') :
    ∃ t', walkPages mapErr onPage' t bytes = .ok t' ∧ Q s' t' := by
  have hturn : ∀ {s t bs r rest}, R s t bs →
      ((pageLoop mapErr onPage).step s).run bs = .ok (r, rest) →
      ∃ r', ((pageLoop mapErr onPage').step t).run bs = .ok (r', rest) ∧
        Sum.LiftRel (R · · rest) Q r r' := by
    intro s t bs r rest hR hstep
    rw [pageLoop_step] at hstep ⊢
    cases hnext : nextPage.run bs with
    | error e => simp [hnext] at hstep
    | ok o =>
      obtain ⟨o, mid⟩ := o
      rw [hnext] at hstep
      cases o with
      | none =>
        cases hstep
        exact ⟨_, rfl, .inr (hend hR hnext)⟩
      | some page =>
        obtain ⟨r', honPage, hr'⟩ := map_eq_ok.mp hstep
        cases hr'
        obtain ⟨r'', hr'', hrel⟩ := hpage hR hnext honPage
        exact ⟨r'', by simp only [hr'']; rfl, hrel⟩
  obtain ⟨⟨s', rest⟩, hrun, rfl⟩ := map_eq_ok.mp hwalk
  obtain ⟨t', ht', hQ⟩ := Loop.run_simulates _ (pageLoop mapErr onPage') R Q hturn h hrun
  exact ⟨t', map_eq_ok.mpr ⟨_, ht', rfl⟩, hQ⟩

/-- The pages the walker finds in the bytes. -/
inductive PagesOf : Bytes → List Page → Prop
  | nil : PagesOf [] []
  | cons {bytes rest : Bytes} {page : Page} {pages : List Page} :
    nextPage.run bytes = .ok (some page, rest) → PagesOf rest pages →
      PagesOf bytes (page :: pages)

/-- The same loop over a list of pages. -/
def foldPages (onPage : σ → Page → Res CodecError (σ ⊕ σ)) : σ → List Page → Res CodecError σ
  | s, [] => .ok s
  | s, page :: pages =>
    match onPage s page with
    | .error e => .error e
    | .ok (.inr s') => .ok s'
    | .ok (.inl s') => foldPages onPage s' pages

/-- **The page loop is a fold over the pages.** -/
theorem walkPages_eq {bytes : Bytes} {pages : List Page} (h : PagesOf bytes pages)
    (mapErr : IoError → CodecError) (onPage : σ → Page → Res CodecError (σ ⊕ σ)) (s : σ) :
    walkPages mapErr onPage s bytes = foldPages onPage s pages := by
  induction h generalizing s with
  | nil =>
    rw [walkPages, @Loop.run_of_inr _ _ _ (pageLoop mapErr onPage) s s [] []]
    · rfl
    · rfl
  | @cons bytes rest page pages hpage _ ih =>
    have hstep : ((pageLoop mapErr onPage).step s).run bytes
        = (Reader.lift (onPage s page)).run rest :=
      Reader.run_bind_ok (Reader.run_mapError_eq_ok.mpr hpage)
    rw [walkPages, Loop.run_eq, hstep, foldPages]
    cases honPage : onPage s page with
    | error e => rfl
    | ok o =>
      cases o with
      | inr s' => rfl
      | inl s' => exact ih s'

/-- The loop ends in a page. -/
theorem walkPages_of_inr {bytes rest : Bytes} {page : Page} {mapErr : IoError → CodecError}
    {onPage : σ → Page → Res CodecError (σ ⊕ σ)} {s s' : σ}
    (hpage : nextPage.run bytes = .ok (some page, rest)) (h : onPage s page = .ok (.inr s')) :
    walkPages mapErr onPage s bytes = .ok s' := by
  rw [walkPages, Loop.run_eq, pageLoop_step, hpage]
  dsimp only
  rw [h]
  rfl

/-- **A written page** is read back. -/
theorem nextPage_written {hdr : PageHeader} {body : Bytes}
    (hhdr : (writePageHeader hdr).length < 2 ^ 64)
    (hbody : i32AsUsize hdr.compressedPageSize = body.length) (rest : Bytes) :
    nextPage.run (writePageHeader hdr ++ body ++ rest) = .ok (some (hdr, body), rest) := by
  have hread := parses_pageHeader hdr hhdr (body ++ rest)
  have hne : writePageHeader hdr ++ (body ++ rest) ≠ [] := by
    intro h
    rw [h] at hread
    have := readPageHeader_consumes hread
    simp at this
  have htake : (take (i32AsUsize hdr.compressedPageSize)).run (body ++ rest)
      = .ok (body, rest) := by
    rw [hbody]
    simp [take]
  rw [List.append_assoc, nextPage, Reader.run_atEnd_of_ne_nil _ hne]
  change (readPageHeader.mapError _ >>= _).run _ = _
  rw [Reader.run_bind_ok (Reader.run_mapError_eq_ok.mpr hread),
    Reader.run_bind_ok (Reader.run_mapError_eq_ok.mpr htake)]
  rfl

theorem pagesOf_cons {hdr : PageHeader} {body rest : Bytes} {pages : List Page}
    (hhdr : (writePageHeader hdr).length < 2 ^ 64)
    (hbody : i32AsUsize hdr.compressedPageSize = body.length) (hrest : PagesOf rest pages) :
    PagesOf (writePageHeader hdr ++ body ++ rest) ((hdr, body) :: pages) :=
  .cons (nextPage_written hhdr hbody rest) hrest

/-- A page, written. -/
def writePage (page : Page) : Bytes := writePageHeader page.1 ++ page.2

/-- **Written pages are walked** one by one, when their headers say their
    sizes. -/
theorem pagesOf_flatMap {pages : List Page}
    (h : ∀ page ∈ pages, (writePageHeader page.1).length < 2 ^ 64 ∧
      i32AsUsize page.1.compressedPageSize = page.2.length) :
    PagesOf (pages.flatMap writePage) pages := by
  induction pages with
  | nil => exact .nil
  | cons page pages ih =>
    obtain ⟨hhdr, hbody⟩ := h page List.mem_cons_self
    rw [List.flatMap_cons]
    exact pagesOf_cons hhdr hbody (ih fun p hp => h p (List.mem_cons_of_mem _ hp))

end EmatixParquet
