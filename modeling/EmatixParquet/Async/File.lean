/-
  `AsyncParquetFile` (`file.rs` of the async crate) — a file behind an object
  store: its footer, found with a suffix request, and reads of byte ranges.

  The store is another crate: `ObjectStore` stands for the requests the code
  makes, `ObjectStore.Serves` for a store that returns what it is asked for.

  * `AsyncParquetFile.open_eq`: a store that serves a file that opens is opened
    with the same footer;
  * `AsyncParquetFile.readRange_sameOk`: ranges are read as the sync file reads
    them.
-/
import EmatixParquet.Io.File

namespace EmatixParquet

open Wire

/-- The failures of the async reader. -/
inductive AsyncError where
  | objectStore (msg : String)
  | format (msg : String)
  | truncatedFooter (fileSize declaredFooterLength : ℕ)
  | notAParquetFile (expected found : Bytes) (position : String)
  | outOfRangeRead (offset length fileSize : ℕ)
  | emptyResponse
  deriving DecidableEq, Repr

/-- A failure of the async reader, as a result. -/
def asyncErr {α : Type} (e : AsyncError) : Res AsyncError α := .error (.err e)

/-! ## The store -/

/-- The object at the path of the file. -/
structure ObjectStore where
  /-- `GetRange::Suffix(n)`: `meta.size` and the bytes. -/
  getSuffix : ℕ → Except String (ℕ × Bytes)
  /-- `GetRange::Bounded(start..end)`. -/
  getBounded : ℕ → ℕ → Except String Bytes

/-- The store returns the ranges of `bytes` it is asked for. -/
structure ObjectStore.Serves (store : ObjectStore) (bytes : Bytes) : Prop where
  size : bytes.length < 2 ^ 63
  suffix : ∀ n, store.getSuffix n = .ok (bytes.length, bytes.drop (bytes.length - n))
  bounded : ∀ start stop, start < stop → stop ≤ bytes.length →
    store.getBounded start stop = .ok ((bytes.take stop).drop start)

/-- A store that holds these bytes. -/
def ObjectStore.ofBytes (bytes : Bytes) : ObjectStore where
  getSuffix n := .ok (bytes.length, bytes.drop (bytes.length - n))
  getBounded start stop :=
    if start < stop ∧ stop ≤ bytes.length then .ok ((bytes.take stop).drop start)
    else .error "range not available"

theorem ObjectStore.ofBytes_serves {bytes : Bytes} (h : bytes.length < 2 ^ 63) :
    (ObjectStore.ofBytes bytes).Serves bytes where
  size := h
  suffix _ := rfl
  bounded _ _ hlt hle := if_pos ⟨hlt, hle⟩

/-- `store.get_opts(..).await?`. -/
def fromStore {α : Type} (x : Except String α) : Res AsyncError α :=
  x.mapError fun msg => .err (.objectStore msg)

@[simp] theorem fromStore_ok {α : Type} (a : α) : fromStore (.ok a) = .ok a := rfl

/-! ## Files -/

/-- `COLD_OPEN_SUFFIX_BYTES`. -/
def coldOpenSuffixBytes : ℕ := 8 * 1024

/-- `a - b` of two `u64`s. -/
def u64Sub (a b : ℕ) : ℕ := (a + (usizeBound - b)) % usizeBound

theorem u64Sub_eq {a b : ℕ} (h : b ≤ a) (ha : a < usizeBound) : u64Sub a b = a - b := by
  rw [u64Sub, show a + (usizeBound - b) = a - b + usizeBound by omega, Nat.add_mod_right,
    Nat.mod_eq_of_lt (by omega)]

/-- An open file: its store, its size and its footer. -/
structure AsyncParquetFile where
  store : ObjectStore
  fileSize : ℕ
  footerBytes : Bytes
  footerOffset : ℕ

namespace AsyncParquetFile

/-- The footer, from the suffix if it covers it, else with a second request. -/
def footerFrom (store : ObjectStore) (suffix : Bytes) (footerLen footerOffset : ℕ) :
    Res AsyncError Bytes :=
  if footerLen + 8 ≤ suffix.length then
    slice suffix (suffix.length - 8 - footerLen) (suffix.length - 8)
  else do
    let bytes ← fromStore
      (store.getBounded footerOffset ((footerOffset + footerLen) % usizeBound))
    if bytes.length ≠ footerLen then asyncErr .emptyResponse else pure bytes

/-- The rest of `AsyncParquetFile::open`, once the suffix is there. -/
def openSuffix (store : ObjectStore) (fileSize : ℕ) (suffix : Bytes) :
    Res AsyncError AsyncParquetFile :=
  if suffix.length < 8 then asyncErr (.truncatedFooter fileSize 0)
  else
    let trailer := suffix.drop (suffix.length - 8)
    let tailMagic := trailer.drop 4
    if tailMagic ≠ parquetMagic then
      asyncErr (.notAParquetFile parquetMagic tailMagic "file tail")
    else
      let footerLen := leNat (trailer.take 4)
      if u64Sub (u64Sub fileSize 8) 4 < footerLen then
        asyncErr (.truncatedFooter fileSize footerLen)
      else do
        let footerOffset := u64Sub (u64Sub fileSize 8) footerLen
        let footerBytes ← footerFrom store suffix footerLen footerOffset
        pure { store, fileSize, footerBytes, footerOffset }

/-- `AsyncParquetFile::open`. -/
def «open» (store : ObjectStore) : Res AsyncError AsyncParquetFile := do
  let result ← fromStore (store.getSuffix coldOpenSuffixBytes)
  openSuffix store result.1 result.2

/-- `metadata`. -/
def metadata (file : AsyncParquetFile) : Res AsyncError FileMetaData :=
  match readFileMetadata.run file.footerBytes with
  | .ok (md, _) => .ok md
  | .error e => .error (e.map fun e => .format e.display)

/-- `read_range`. -/
def readRange (file : AsyncParquetFile) (offset length : ℕ) : Res AsyncError Bytes :=
  if file.fileSize < min (offset + length) (usizeBound - 1) then
    asyncErr (.outOfRangeRead offset length file.fileSize)
  else if length = 0 then .ok []
  else fromStore (file.store.getBounded offset ((offset + length) % usizeBound))

/-- The handle on a store that serves what a sync file holds. -/
def ofFile (store : ObjectStore) (file : ParquetFile) : AsyncParquetFile where
  store
  fileSize := file.bytes.length
  footerBytes := file.footerBytes
  footerOffset := file.footerOffset

variable {store : ObjectStore} {bytes : Bytes} {file : ParquetFile}

/-- The bytes before the last 8 are at the end of any suffix that covers
    them. -/
theorem slice_suffix {n footerLen : ℕ} (hn : n ≤ bytes.length) (h : footerLen + 8 ≤ n) :
    (((bytes.drop (bytes.length - n)).take (n - 8)).drop (n - 8 - footerLen))
      = (bytes.drop (bytes.length - 8 - footerLen)).take footerLen := by
  rw [List.drop_take, List.drop_drop, show n - 8 - (n - 8 - footerLen) = footerLen by omega,
    show bytes.length - n + (n - 8 - footerLen) = bytes.length - 8 - footerLen by omega]

theorem footerFrom_eq (h : store.Serves bytes) {footerLen : ℕ}
    (hlen : footerLen + 12 ≤ bytes.length) :
    footerFrom store (bytes.drop (bytes.length - coldOpenSuffixBytes)) footerLen
        (bytes.length - 8 - footerLen)
      = .ok ((bytes.drop (bytes.length - 8 - footerLen)).take footerLen) := by
  have hsize := h.size
  have hstart : bytes.length - coldOpenSuffixBytes
      = bytes.length - min bytes.length coldOpenSuffixBytes := by omega
  rw [hstart]
  set n := min bytes.length coldOpenSuffixBytes with hn
  have hle : n ≤ bytes.length := Nat.min_le_left _ _
  have hlength : (bytes.drop (bytes.length - n)).length = n := by
    rw [List.length_drop]
    omega
  rw [footerFrom, hlength]
  by_cases hcover : footerLen + 8 ≤ n
  · rw [if_pos hcover, slice_ok (Nat.sub_le _ _) (by omega), slice_suffix hle hcover]
  · have hpos : 0 < footerLen := by
      have : coldOpenSuffixBytes = 8192 := by decide
      omega
    have hend : bytes.length - 8 - footerLen + footerLen < usizeBound :=
      lt_trans (show _ < 2 ^ 63 by omega) (by decide)
    rw [if_neg hcover, Nat.mod_eq_of_lt hend, h.bounded _ _ (by omega) (by omega)]
    change (if _ then _ else _) = _
    rw [drop_take_add, if_neg]
    · rfl
    · rw [not_not, List.length_take, List.length_drop]
      omega

/-- **Opening** a store that serves a file. -/
theorem open_eq (h : store.Serves bytes) (hopen : ParquetFile.open bytes = .ok file) :
    AsyncParquetFile.open store = .ok (ofFile store file) := by
  have hsize : bytes.length < usizeBound := lt_trans h.size (by decide)
  have hcold : coldOpenSuffixBytes = 8192 := by decide
  rw [ParquetFile.open] at hopen
  dsimp only at hopen
  split at hopen
  · cases hopen
  next hlong =>
  split at hopen
  · cases hopen
  split at hopen
  · cases hopen
  next hmagic =>
  split at hopen
  · cases hopen
  next hfooter =>
  cases hopen
  have hstart : bytes.length - coldOpenSuffixBytes
      + (bytes.length - (bytes.length - coldOpenSuffixBytes) - 8) = bytes.length - 8 := by omega
  have htrailer : (bytes.drop (bytes.length - coldOpenSuffixBytes)).drop
      ((bytes.drop (bytes.length - coldOpenSuffixBytes)).length - 8)
        = bytes.drop (bytes.length - 8) := by
    rw [List.drop_drop, List.length_drop, hstart]
  simp only [«open», h.suffix, fromStore_ok, bind, Except.bind]
  rw [openSuffix]
  dsimp only
  rw [htrailer, if_neg (by rw [List.length_drop]; omega), if_neg hmagic,
    u64Sub_eq (show 8 ≤ bytes.length by omega) hsize, u64Sub_eq (by omega) (by omega),
    if_neg hfooter, u64Sub_eq (by omega) (by omega)]
  change (footerFrom store _ _ _ >>= _) = _
  rw [footerFrom_eq h (by omega)]
  rfl

/-- The bytes of an open file are the bytes it was opened on. -/
theorem bytes_of_open (hopen : ParquetFile.open bytes = .ok file) : file.bytes = bytes := by
  rw [ParquetFile.open] at hopen
  dsimp only at hopen
  repeat' split at hopen
  all_goals cases hopen
  rfl

theorem metadata_sameOk : SameOk (ofFile store file).metadata file.metadata := by
  rw [metadata, ParquetFile.metadata, ofFile]
  cases readFileMetadata.run file.footerBytes with
  | error e => exact .of_error _ _
  | ok r => exact .of_ok _

/-- **Ranges** of a served file. -/
theorem readRange_sameOk (h : store.Serves file.bytes) (offset length : ℕ) :
    SameOk ((ofFile store file).readRange offset length) (file.readRange offset length) := by
  have hsize := h.size
  have hbound : usizeBound = 2 ^ 64 := rfl
  rw [readRange, ofFile]
  dsimp only
  by_cases hout : file.bytes.length < min (offset + length) (usizeBound - 1)
  · rw [if_pos hout, ParquetFile.readRange, ParquetFile.fileSize, if_pos hout]
    exact .of_error _ _
  · have hle : offset + length ≤ file.bytes.length := by omega
    rw [if_neg hout, ParquetFile.readRange_eq hle]
    by_cases hzero : length = 0
    · rw [if_pos hzero, hzero, List.take_zero]
      exact .of_ok _
    · rw [if_neg hzero, Nat.mod_eq_of_lt (by omega), h.bounded _ _ (by omega) hle, drop_take_add]
      exact .of_ok _

end AsyncParquetFile

end EmatixParquet
