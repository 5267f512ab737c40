/-
  The additional authenticated data of encrypted modules (`aad.rs`).

  * `ModuleIdentity`: what tells one module of a file from another;
  * `ModuleIdentity.bytes_injective`: their bytes are different;
  * `buildModuleAad_eq_ok`: the AAD is that of the file, followed by them.
-/
import EmatixParquet.Codec.Plain

namespace EmatixParquet

open Wire

/-- The kinds of modules, each with its own byte in the AAD. -/
inductive ModuleType where
  | footer | columnMetaData | dataPage | dictionaryPage | dataPageHeader | dictionaryPageHeader
  | columnIndex | offsetIndex | bloomFilterHeader | bloomFilterBitset
  deriving DecidableEq, Repr

/-- `module as u8`. -/
def ModuleType.byte : ModuleType → UInt8
  | footer => 0
  | columnMetaData => 1
  | dataPage => 2
  | dictionaryPage => 3
  | dataPageHeader => 4
  | dictionaryPageHeader => 5
  | columnIndex => 6
  | offsetIndex => 7
  | bloomFilterHeader => 8
  | bloomFilterBitset => 9

theorem ModuleType.byte_injective : Function.Injective byte := by
  intro m m' h
  cases m <;> cases m' <;> first | rfl | cases h

/-- Only data pages and their headers are numbered. -/
def ModuleType.hasPageOrdinal : ModuleType → Bool
  | dataPage | dataPageHeader => true
  | _ => false

/-- `x.to_le_bytes()`. -/
def i16LeBytes (x : Int16) : Bytes := leBytes 2 x.toUInt16.toNat

theorem i16LeBytes_injective : Function.Injective i16LeBytes := by
  intro x y h
  have hnat := congrArg leNat h
  have hx : x.toUInt16.toNat < 256 ^ 2 := x.toUInt16.toNat_lt
  have hy : y.toUInt16.toNat < 256 ^ 2 := y.toUInt16.toNat_lt
  rw [i16LeBytes, i16LeBytes, leNat_leBytes, leNat_leBytes, Nat.mod_eq_of_lt hx,
    Nat.mod_eq_of_lt hy] at hnat
  cases x
  cases y
  exact congrArg Int16.ofUInt16 (UInt16.toNat_inj.mp hnat)

@[simp] theorem length_i16LeBytes (x : Int16) : (i16LeBytes x).length = 2 := length_leBytes 2 _

/-- `file_aad`. -/
def fileAad (aadPrefix : Option Bytes) (aadFileUnique : Bytes) : Bytes :=
  aadPrefix.getD [] ++ aadFileUnique

/-- A build with debug assertions checks that a page ordinal is given where the
    module carries one. -/
def buildModuleAad {ε : Type} (build : Build) (aadPrefix : Option Bytes) (aadFileUnique : Bytes)
    (module : ModuleType) (rgOrdinal colOrdinal : Int16) (pageOrdinal : Option Int16) :
    Res ε Bytes :=
  if build = .debug ∧ module.hasPageOrdinal ≠ pageOrdinal.isSome then
    .error (.panic "page_ordinal contract violated")
  else if module = .footer then .ok (fileAad aadPrefix aadFileUnique ++ [module.byte])
  else .ok (fileAad aadPrefix aadFileUnique ++ (module.byte :: (i16LeBytes rgOrdinal
    ++ (i16LeBytes colOrdinal
    ++ if module.hasPageOrdinal then (pageOrdinal.map i16LeBytes).getD [] else []))))

/-! ## What identifies a module -/

/-- The type of a module, its row group and column, and its page. -/
structure ModuleIdentity where
  module : ModuleType
  column : Option (Int16 × Int16)
  page : Option Int16
  deriving DecidableEq, Repr

/-- The ordinals that the type carries. -/
def moduleIdentity (module : ModuleType) (rgOrdinal colOrdinal : Int16)
    (pageOrdinal : Option Int16) : ModuleIdentity where
  module := module
  column := if module = .footer then none else some (rgOrdinal, colOrdinal)
  page := if module.hasPageOrdinal then pageOrdinal else none

namespace ModuleIdentity

/-- The ordinals of the row group and of the column, where a module has them. -/
def columnBytes : Option (Int16 × Int16) → Bytes
  | none => []
  | some (rg, col) => i16LeBytes rg ++ i16LeBytes col

/-- The ordinal of the page, where a module has one. -/
def pageBytes : Option Int16 → Bytes
  | none => []
  | some page => i16LeBytes page

/-- What is appended to the AAD of the file. -/
def bytes (id : ModuleIdentity) : Bytes :=
  id.module.byte :: (columnBytes id.column ++ pageBytes id.page)

theorem pageBytes_injective : Function.Injective pageBytes := by
  intro p p' h
  have hlen := congrArg List.length h
  rcases p with - | p <;> rcases p' with - | p'
  · rfl
  · simp [pageBytes] at hlen
  · simp [pageBytes] at hlen
  · exact congrArg some (i16LeBytes_injective h)

/-- A column is two ordinals longer than none, and a page only one. -/
theorem columnBytes_append {c c' : Option (Int16 × Int16)} {p p' : Option Int16}
    (h : columnBytes c ++ pageBytes p = columnBytes c' ++ pageBytes p') : c = c' ∧ p = p' := by
  have hlen := congrArg List.length h
  have hpage : ∀ q, (pageBytes q).length ≤ 2 := by
    rintro (- | q) <;> simp [pageBytes]
  have hp := hpage p
  have hp' := hpage p'
  rcases c with - | ⟨rg, col⟩ <;> rcases c' with - | ⟨rg', col'⟩
  · exact ⟨rfl, pageBytes_injective h⟩
  · simp [columnBytes] at hlen
    omega
  · simp [columnBytes] at hlen
    omega
  · simp only [columnBytes, List.append_assoc] at h
    obtain ⟨hrg, h⟩ := List.append_inj h (by simp)
    obtain ⟨hcol, h⟩ := List.append_inj h (by simp)
    rw [i16LeBytes_injective hrg, i16LeBytes_injective hcol]
    exact ⟨rfl, pageBytes_injective h⟩

/-- **Different modules** append different bytes. -/
theorem bytes_injective : Function.Injective bytes := by
  rintro ⟨m, c, p⟩ ⟨m', c', p'⟩ h
  obtain ⟨hbyte, hrest⟩ := List.cons.inj h
  obtain rfl := ModuleType.byte_injective hbyte
  obtain ⟨rfl, rfl⟩ := columnBytes_append hrest
  rfl

end ModuleIdentity

/-- What the builder returns. -/
theorem buildModuleAad_eq_ok {ε : Type} {build : Build} {aadPrefix : Option Bytes}
    {aadFileUnique aad : Bytes} {module : ModuleType} {rg col : Int16} {page : Option Int16}
    (h : (buildModuleAad build aadPrefix aadFileUnique module rg col page : Res ε Bytes) = .ok aad) :
    aad = fileAad aadPrefix aadFileUnique ++ (moduleIdentity module rg col page).bytes := by
  unfold buildModuleAad at h
  split at h
  · cases h
  · split at h
    · next hfooter =>
      cases h
      subst hfooter
      rfl
    · next hfooter =>
      cases h
      rw [ModuleIdentity.bytes, moduleIdentity, if_neg hfooter]
      refine congrArg (fileAad _ _ ++ module.byte :: ·) ?_
      rw [ModuleIdentity.columnBytes, List.append_assoc]
      by_cases hpage : module.hasPageOrdinal = true
      · rw [if_pos hpage, if_pos hpage]
        cases page <;> rfl
      · rw [if_neg hpage, if_neg hpage]
        rfl

/-- A caller that keeps to the contract gets an AAD, in every build. -/
theorem exists_buildModuleAad {ε : Type} {module : ModuleType} {page : Option Int16}
    (h : page.isSome = module.hasPageOrdinal) (build : Build) (aadPrefix : Option Bytes)
    (aadFileUnique : Bytes) (rg col : Int16) :
    ∃ aad, (buildModuleAad build aadPrefix aadFileUnique module rg col page : Res ε Bytes)
      = .ok aad := by
  rw [buildModuleAad, if_neg (by simp [h])]
  split
  · exact ⟨_, rfl⟩
  · exact ⟨_, rfl⟩

end EmatixParquet
