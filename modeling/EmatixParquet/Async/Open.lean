/-
  The two openers, `AsyncParquetFile::open` and `ParquetFile::open`, side by
  side.

  Both subtract a length found in the file from the file's size.  A build with
  overflow checks panics where the difference is negative, a build without them
  wraps (`Build`).

  * `ParquetFile.openOn_eq`: the sync opener has no such difference;
  * `AsyncParquetFile.openOn_served`: the async opener on files of 12 bytes or
    more;
  * `asyncOpen_agrees_iff`: the files on which the two agree.
-/
import EmatixParquet.Async.File

namespace EmatixParquet

open Wire

/-- `a - b` of two `u64`s. -/
def Build.sub {ε : Type} (build : Build) (a b : ℕ) : Res ε ℕ :=
  match build with
  | .debug => if b ≤ a then .ok (a - b) else .error (.panic "attempt to subtract with overflow")
  | .release => .ok (u64Sub a b)

theorem Build.sub_release {ε : Type} (a b : ℕ) :
    (Build.release.sub a b : Res ε ℕ) = .ok (u64Sub a b) := rfl

theorem Build.sub_eq {ε : Type} (build : Build) {a b : ℕ} (h : b ≤ a) (ha : a < usizeBound) :
    (build.sub a b : Res ε ℕ) = .ok (a - b) := by
  cases build with
  | debug => exact if_pos h
  | release => rw [Build.sub, u64Sub_eq h ha]

/-- The last four bytes of a file. -/
def tailMagic (bytes : Bytes) : Bytes := (bytes.drop (bytes.length - 8)).drop 4

/-- The footer length that a file declares. -/
def declaredFooterLen (bytes : Bytes) : ℕ := leNat ((bytes.drop (bytes.length - 8)).take 4)

/-! ## The sync opener -/

namespace ParquetFile

/-- `ParquetFile::open`, with the subtractions of a build. -/
def openOn (build : Build) (bytes : Bytes) : Res IoError ParquetFile :=
  let fileSize := bytes.length
  if fileSize < 4 + 8 then ioErr (.truncatedFooter fileSize 0)
  else if bytes.take 4 ≠ parquetMagic then
    ioErr (.notAParquetFile parquetMagic (bytes.take 4) "file head")
  else if tailMagic bytes ≠ parquetMagic then
    ioErr (.notAParquetFile parquetMagic (tailMagic bytes) "file tail")
  else do
    let footerLen := declaredFooterLen bytes
    let limit ← build.sub (← build.sub fileSize 8) 4
    if limit < footerLen then ioErr (.truncatedFooter fileSize footerLen)
    else
      let footerOffset ← build.sub (← build.sub fileSize 8) footerLen
      pure { bytes, footerBytes := (bytes.drop footerOffset).take footerLen, footerOffset }

variable {bytes : Bytes}

/-- **No build** makes a difference to the sync opener. -/
theorem openOn_eq (build : Build) (hsize : bytes.length < usizeBound) :
    openOn build bytes = ParquetFile.open bytes := by
  rw [openOn, «open»]
  dsimp only
  change (if _ then _ else if _ then _ else if tailMagic bytes ≠ parquetMagic then _ else _) =
    (if _ then _ else if _ then _ else if tailMagic bytes ≠ parquetMagic then _ else _)
  by_cases hlong : bytes.length < 4 + 8
  · rw [if_pos hlong, if_pos hlong]
  rw [if_neg hlong, if_neg hlong]
  by_cases hhead : bytes.take 4 ≠ parquetMagic
  · rw [if_pos hhead, if_pos hhead]
  rw [if_neg hhead, if_neg hhead]
  by_cases htail : tailMagic bytes ≠ parquetMagic
  · rw [if_pos htail, if_pos htail]
    rfl
  rw [if_neg htail, if_neg htail]
  simp only [build.sub_eq (show 8 ≤ bytes.length by omega) hsize,
    build.sub_eq (show 4 ≤ bytes.length - 8 by omega) (show bytes.length - 8 < usizeBound by omega),
    bind, Except.bind]
  change (if bytes.length - 8 - 4 < declaredFooterLen bytes then _ else _)
    = (if bytes.length - 8 - 4 < declaredFooterLen bytes then _ else _)
  by_cases hfooter : bytes.length - 8 - 4 < declaredFooterLen bytes
  · rw [if_pos hfooter, if_pos hfooter]
    rfl
  · rw [if_neg hfooter, if_neg hfooter,
      build.sub_eq (show declaredFooterLen bytes ≤ bytes.length - 8 by omega) (by omega)]
    rfl

/-- **The sync opener** needs both magics and a footer that fits. -/
theorem open_eq_ok {file : ParquetFile} : ParquetFile.open bytes = .ok file ↔
    12 ≤ bytes.length ∧ bytes.take 4 = parquetMagic ∧ tailMagic bytes = parquetMagic ∧
      declaredFooterLen bytes + 12 ≤ bytes.length ∧
      file = { bytes
               footerBytes := (bytes.drop (bytes.length - 8 - declaredFooterLen bytes)).take
                 (declaredFooterLen bytes)
               footerOffset := bytes.length - 8 - declaredFooterLen bytes } := by
  have hstage : ParquetFile.open bytes =
      if bytes.length < 12 then ioErr (.truncatedFooter bytes.length 0)
      else if bytes.take 4 ≠ parquetMagic then
        ioErr (.notAParquetFile parquetMagic (bytes.take 4) "file head")
      else if tailMagic bytes ≠ parquetMagic then
        ioErr (.notAParquetFile parquetMagic (tailMagic bytes) "file tail")
      else if bytes.length - 8 - 4 < declaredFooterLen bytes then
        ioErr (.truncatedFooter bytes.length (declaredFooterLen bytes))
      else .ok
        { bytes
          footerBytes := (bytes.drop (bytes.length - 8 - declaredFooterLen bytes)).take
            (declaredFooterLen bytes)
          footerOffset := bytes.length - 8 - declaredFooterLen bytes } := rfl
  rw [hstage]
  constructor
  · intro h
    split at h
    · cases h
    next hlong =>
    split at h
    · cases h
    next hhead =>
    split at h
    · cases h
    next htail =>
    split at h
    · cases h
    next hfooter =>
    cases h
    exact ⟨by omega, not_not.mp hhead, not_not.mp htail, by omega, rfl⟩
  · rintro ⟨hlong, hhead, htail, hfooter, rfl⟩
    rw [if_neg (by omega), if_neg (not_not.mpr hhead), if_neg (not_not.mpr htail),
      if_neg (by omega)]

/-- The sync opener has no panic. -/
theorem open_ne_panic (msg : String) : ParquetFile.open bytes ≠ .error (.panic msg) := by
  rw [«open»]
  dsimp only
  repeat' split
  all_goals rintro ⟨⟩

end ParquetFile

/-! ## The async opener -/

namespace AsyncParquetFile

/-- `AsyncParquetFile::open` once the suffix is there, with the subtractions of a
    build; the suffix is long enough for the others. -/
def openSuffixOn (build : Build) (store : ObjectStore) (fileSize : ℕ) (suffix : Bytes) :
    Res AsyncError AsyncParquetFile :=
  if suffix.length < 8 then asyncErr (.truncatedFooter fileSize 0)
  else
    let trailer := suffix.drop (suffix.length - 8)
    let magic := trailer.drop 4
    if magic ≠ parquetMagic then asyncErr (.notAParquetFile parquetMagic magic "file tail")
    else do
      let footerLen := leNat (trailer.take 4)
      let limit ← build.sub (← build.sub fileSize 8) 4
      if limit < footerLen then asyncErr (.truncatedFooter fileSize footerLen)
      else
        let footerOffset ← build.sub (← build.sub fileSize 8) footerLen
        let footerBytes ← footerFrom store suffix footerLen footerOffset
        pure { store, fileSize, footerBytes, footerOffset }

/-- `AsyncParquetFile::open`, with the subtractions of a build. -/
def openOn (build : Build) (store : ObjectStore) : Res AsyncError AsyncParquetFile := do
  let result ← fromStore (store.getSuffix coldOpenSuffixBytes)
  openSuffixOn build store result.1 result.2

/-- Without overflow checks it is the opener. -/
theorem openOn_release (store : ObjectStore) :
    openOn .release store = AsyncParquetFile.open store := by
  have hsuffix : ∀ fileSize suffix,
      openSuffixOn .release store fileSize suffix = openSuffix store fileSize suffix := by
    intro fileSize suffix
    unfold openSuffixOn openSuffix
    by_cases hshort : suffix.length < 8
    · rw [if_pos hshort, if_pos hshort]
    rw [if_neg hshort, if_neg hshort]
    by_cases htail : (suffix.drop (suffix.length - 8)).drop 4 ≠ parquetMagic
    · rw [if_pos htail, if_pos htail]
    rw [if_neg htail, if_neg htail, Build.sub_release, ok_bind, Build.sub_release, ok_bind]
    by_cases hfooter : u64Sub (u64Sub fileSize 8) 4
        < leNat ((suffix.drop (suffix.length - 8)).take 4)
    · rw [if_pos hfooter, if_pos hfooter]
    rw [if_neg hfooter, if_neg hfooter, ok_bind, Build.sub_release, ok_bind]
  unfold openOn «open»
  simp only [hsuffix]

variable {store : ObjectStore} {bytes : Bytes}

/-- The trailer of a file, from its suffix. -/
theorem drop_suffix :
    (bytes.drop (bytes.length - coldOpenSuffixBytes)).drop
      ((bytes.drop (bytes.length - coldOpenSuffixBytes)).length - 8)
        = bytes.drop (bytes.length - 8) := by
  have hcold : coldOpenSuffixBytes = 8192 := by decide
  rw [List.drop_drop, List.length_drop,
    show bytes.length - coldOpenSuffixBytes
      + (bytes.length - (bytes.length - coldOpenSuffixBytes) - 8) = bytes.length - 8 by omega]

/-- The opener after the checks of the trailer. -/
def openFooter (build : Build) (store : ObjectStore) (bytes : Bytes) :
    Res AsyncError AsyncParquetFile := do
  let limit ← build.sub (bytes.length - 8) 4
  if limit < declaredFooterLen bytes then
    asyncErr (.truncatedFooter bytes.length (declaredFooterLen bytes))
  else
    let footerOffset ← build.sub (bytes.length - 8) (declaredFooterLen bytes)
    let footerBytes ← footerFrom store (bytes.drop (bytes.length - coldOpenSuffixBytes))
      (declaredFooterLen bytes) footerOffset
    pure { store, fileSize := bytes.length, footerBytes, footerOffset }

/-- The opener on a store that serves a file. -/
theorem openOn_served (build : Build) (h : store.Serves bytes) :
    openOn build store =
      if bytes.length < 8 then asyncErr (.truncatedFooter bytes.length 0)
      else if tailMagic bytes ≠ parquetMagic then
        asyncErr (.notAParquetFile parquetMagic (tailMagic bytes) "file tail")
      else openFooter build store bytes := by
  have hsize : bytes.length < usizeBound := lt_trans h.size (by decide)
  have hcold : coldOpenSuffixBytes = 8192 := by decide
  simp only [openOn, h.suffix, fromStore_ok, bind, Except.bind]
  rw [openSuffixOn, drop_suffix]
  by_cases hshort : bytes.length < 8
  · rw [if_pos hshort, if_pos (by rw [List.length_drop]; omega)]
  rw [if_neg hshort, if_neg (by rw [List.length_drop]; omega)]
  unfold tailMagic openFooter declaredFooterLen
  by_cases htail : (bytes.drop (bytes.length - 8)).drop 4 ≠ parquetMagic
  · rw [if_pos htail, if_pos htail]
  rw [if_neg htail, if_neg htail, build.sub_eq (show 8 ≤ bytes.length by omega) hsize, ok_bind,
    ok_bind]

/-- In a file of 12 bytes or more, the footer is the last bytes before the
    trailer. -/
theorem openFooter_long (build : Build) (h : store.Serves bytes) (hlong : 12 ≤ bytes.length) :
    openFooter build store bytes =
      if bytes.length - 8 - 4 < declaredFooterLen bytes then
        asyncErr (.truncatedFooter bytes.length (declaredFooterLen bytes))
      else .ok
        { store
          fileSize := bytes.length
          footerBytes := (bytes.drop (bytes.length - 8 - declaredFooterLen bytes)).take
            (declaredFooterLen bytes)
          footerOffset := bytes.length - 8 - declaredFooterLen bytes } := by
  have hsize : bytes.length - 8 < usizeBound := lt_of_le_of_lt (Nat.sub_le _ _)
    (lt_trans h.size (by decide))
  rw [openFooter, build.sub_eq (show 4 ≤ bytes.length - 8 by omega) hsize, ok_bind]
  by_cases hfooter : bytes.length - 8 - 4 < declaredFooterLen bytes
  · rw [if_pos hfooter, if_pos hfooter]
  rw [if_neg hfooter, if_neg hfooter, build.sub_eq (by omega) hsize, ok_bind,
    footerFrom_eq h (by omega), ok_bind]
  rfl

/-- A file of 8 to 11 bytes has a trailer, and a negative limit for its footer. -/
theorem openFooter_short (hshort : bytes.length < 12) : openFooter .debug store bytes
      = .error (.panic "attempt to subtract with overflow") := by
  rw [openFooter, Build.sub, if_neg (by omega)]
  rfl

/-- What both openers return is the same. -/
def SameOpen (store : ObjectStore) (bytes : Bytes) : Prop :=
  ∀ build handle, openOn build store = .ok handle ↔
    ∃ file, ParquetFile.openOn build bytes = .ok file ∧ handle = ofFile store file

/-- No build of either opener panics; with overflow checks, a difference below
    zero would. -/
def NoPanic (store : ObjectStore) (bytes : Bytes) : Prop :=
  ∀ build msg, openOn build store ≠ .error (.panic msg) ∧
    ParquetFile.openOn build bytes ≠ .error (.panic msg)

end AsyncParquetFile

section
open AsyncParquetFile
variable {store : ObjectStore} {bytes : Bytes}

/-- Two openers that refuse a file agree. -/
theorem agrees_of_refused (hsize : bytes.length < usizeBound)
    (hasync : ∀ build, ∃ e, openOn build store = .error (.err e))
    (hsync : ∀ file, ParquetFile.open bytes ≠ .ok file) :
    SameOpen store bytes ∧ NoPanic store bytes := by
  constructor
  · intro build handle
    obtain ⟨e, he⟩ := hasync build
    rw [he, ParquetFile.openOn_eq build hsize]
    simp [hsync]
  · intro build msg
    obtain ⟨e, he⟩ := hasync build
    rw [he, ParquetFile.openOn_eq build hsize]
    exact ⟨by simp, ParquetFile.open_ne_panic msg⟩

/-- **The files on which the openers agree**: those without a trailer, and of the
    others those of 12 bytes or more that begin with the magic or declare too
    long a footer. -/
theorem asyncOpen_agrees_iff (h : store.Serves bytes) :
    SameOpen store bytes ∧ NoPanic store bytes ↔
      bytes.length < 8 ∨ tailMagic bytes ≠ parquetMagic ∨
        12 ≤ bytes.length ∧
          (bytes.take 4 = parquetMagic ∨ bytes.length < declaredFooterLen bytes + 12) := by
  have hsize : bytes.length < usizeBound := lt_trans h.size (by decide)
  by_cases hshort : bytes.length < 8
  · -- no trailer
    refine iff_of_true (agrees_of_refused hsize (fun build => ?_) fun file hfile => ?_) (.inl hshort)
    · exact ⟨_, by rw [openOn_served build h, if_pos hshort]; rfl⟩
    · have hlong := (ParquetFile.open_eq_ok.mp hfile).1
      omega
  by_cases htail : tailMagic bytes = parquetMagic
  swap
  · refine iff_of_true (agrees_of_refused hsize (fun build => ?_) fun file hfile => ?_)
      (.inr (.inl htail))
    · exact ⟨_, by rw [openOn_served build h, if_neg hshort, if_pos htail]; rfl⟩
    · exact htail (ParquetFile.open_eq_ok.mp hfile).2.2.1
  rw [or_iff_right hshort, or_iff_right (not_not.mpr htail)]
  have hopen : ∀ build, openOn build store = openFooter build store bytes := fun build => by
    rw [openOn_served build h, if_neg hshort, if_neg (not_not.mpr htail)]
  by_cases hlong : 12 ≤ bytes.length
  swap
  · -- the limit of the footer is negative
    refine iff_of_false ?_ fun h => hlong h.1
    rintro ⟨-, hpanic⟩
    exact (hpanic .debug _).1 ((hopen .debug).trans (openFooter_short (by omega)))
  rw [and_iff_right hlong]
  have hfooter : ∀ build, openOn build store = _ := fun build =>
    (hopen build).trans (openFooter_long build h hlong)
  by_cases hfits : bytes.length - 8 - 4 < declaredFooterLen bytes
  · refine iff_of_true (agrees_of_refused hsize (fun build => ?_) fun file hfile => ?_)
      (.inr (by omega))
    · exact ⟨_, by rw [hfooter build, if_pos hfits]; rfl⟩
    · have hlen := (ParquetFile.open_eq_ok.mp hfile).2.2.2.1
      omega
  rw [or_iff_left (show ¬ bytes.length < declaredFooterLen bytes + 12 by omega)]
  constructor
  · -- the async opener does not read the head of the file
    rintro ⟨hsame, -⟩
    obtain ⟨file, hfile, -⟩ := (hsame .release _).mp ((hfooter .release).trans (if_neg hfits))
    rw [ParquetFile.openOn_eq _ hsize] at hfile
    exact (ParquetFile.open_eq_ok.mp hfile).2.1
  · intro hhead
    have hfile : ParquetFile.open bytes = .ok
        { bytes
          footerBytes := (bytes.drop (bytes.length - 8 - declaredFooterLen bytes)).take
            (declaredFooterLen bytes)
          footerOffset := bytes.length - 8 - declaredFooterLen bytes } :=
      ParquetFile.open_eq_ok.mpr ⟨hlong, hhead, htail, by omega, rfl⟩
    constructor
    · intro build handle
      rw [hfooter build, if_neg hfits, ParquetFile.openOn_eq build hsize, hfile]
      simp [ofFile, eq_comm]
    · intro build msg
      rw [hfooter build, if_neg hfits, ParquetFile.openOn_eq build hsize, hfile]
      simp

/-- A file of 12 bytes, with an empty footer. -/
theorem asyncOpen_agrees_minimal :
    SameOpen (.ofBytes (parquetMagic ++ leBytes 4 0 ++ parquetMagic))
        (parquetMagic ++ leBytes 4 0 ++ parquetMagic) ∧
      NoPanic (.ofBytes (parquetMagic ++ leBytes 4 0 ++ parquetMagic))
        (parquetMagic ++ leBytes 4 0 ++ parquetMagic) :=
  asyncOpen_agrees_iff (ObjectStore.ofBytes_serves (by decide)) |>.mpr
    (.inr (.inr ⟨by decide, .inl (by decide)⟩))

/-- A trailer alone, on which the limit of the footer is below zero, and a file
    whose head is not the magic: the async opener takes it, the sync one not. -/
theorem asyncOpen_differs :
    ¬ NoPanic (.ofBytes (leBytes 4 0 ++ parquetMagic)) (leBytes 4 0 ++ parquetMagic) ∧
    ¬ SameOpen (.ofBytes (leBytes 8 0 ++ parquetMagic)) (leBytes 8 0 ++ parquetMagic) := by
  constructor
  · intro h
    exact (h .debug _).1 rfl
  · intro h
    obtain ⟨file, hfile, -⟩ := (h .debug _).mp rfl
    cases hfile

end

end EmatixParquet
