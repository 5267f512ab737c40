/-
  The files that are left to read (`iceberg_rs.rs`) — each data file with its
  extension and the place of its sidecar.

  * `resolveSidecarUri_beside`: a relative sidecar stands in the directory of its
    data file;
  * `pairWithExtensions_eq`: the files that have an extension, in their order;
  * `candidate_written`: what a writer put into the key metadata comes back.
-/
import EmatixParquet.Iceberg.Pruning
import EmatixParquet.Iceberg.RoundTrip
import Mathlib.Data.List.DropRight

namespace EmatixParquet

open Wire

/-! ## The place of a sidecar -/

/-- The path does not depend on where the data file is. -/
def IsAbsolute (relative : String) : Prop :=
  "/".toList <+: relative.toList ∨ "://".toList <:+: relative.toList

instance (relative : String) : Decidable (IsAbsolute relative) :=
  inferInstanceAs (Decidable (_ ∨ _))

/-- `resolve_sidecar_uri`. -/
def resolveSidecarUri (dataFileUri relative : String) : String :=
  if IsAbsolute relative then relative
  else if '/' ∈ dataFileUri.toList then
    -- up to the last slash, which is kept
    String.ofList (dataFileUri.toList.rdropWhile fun c => c ≠ '/') ++ relative
  else relative

theorem resolveSidecarUri_absolute {uri relative : String} (h : IsAbsolute relative) :
    resolveSidecarUri uri relative = relative := if_pos h

/-- What stands behind the last slash is a name. -/
theorem rdropWhile_name {dir name : List Char} (h : '/' ∉ name) :
    (dir ++ '/' :: name).rdropWhile (fun c => c ≠ '/') = dir ++ ['/'] := by
  induction name using List.reverseRecOn with
  | nil => exact List.rdropWhile_concat_neg _ _ _ (by decide)
  | append_singleton name c ih =>
    obtain ⟨hname, hc⟩ : '/' ∉ name ∧ ¬ '/' = c := by simpa using h
    have hlast : dir ++ '/' :: (name ++ [c]) = (dir ++ '/' :: name) ++ [c] := by simp
    rw [hlast, List.rdropWhile_concat_pos _ _ _ (by simpa using Ne.symm hc), ih hname]

/-- **A relative sidecar** stands in the directory of its data file. -/
theorem resolveSidecarUri_beside {dir name relative : String} (hname : '/' ∉ name.toList)
    (h : ¬ IsAbsolute relative) :
    resolveSidecarUri (dir ++ "/" ++ name) relative = dir ++ "/" ++ relative := by
  have huri : (dir ++ "/" ++ name).toList = dir.toList ++ '/' :: name.toList := by simp
  have hslash : '/' ∈ (dir ++ "/" ++ name).toList := by simp
  rw [resolveSidecarUri, if_neg h, if_pos hslash, huri, rdropWhile_name hname]
  simp

/-- A data file that is a bare name has no directory. -/
theorem resolveSidecarUri_bare {uri relative : String} (h : '/' ∉ uri.toList) :
    resolveSidecarUri uri relative = relative := by
  rw [resolveSidecarUri, if_neg h, ite_self]

/-! ## Candidates -/

/-- A data file, and where it is. -/
class LocatedFile (δ : Type) extends DataFile δ where
  filePath : δ → String

/-- A file that survived pruning, with what it takes to open its sidecar. -/
structure PrunedDataFile (δ : Type) where
  dataFile : δ
  extension : EmatixDataFileExtension
  sidecarUri : String
  deriving DecidableEq

section
variable {δ : Type} [LocatedFile δ]

/-- A file with its extension. -/
def pruned (df : δ) (ext : EmatixDataFileExtension) : PrunedDataFile δ where
  dataFile := df
  extension := ext
  sidecarUri := resolveSidecarUri (LocatedFile.filePath df) ext.sidecarRelativePath

/-- `pair_with_extensions`, behind the files that are paired. -/
def pairWithExtensions (out : List (PrunedDataFile δ)) :
    List δ → Except IcebergIndexError (List (PrunedDataFile δ))
  | [] => .ok out
  | df :: files => do
    match ← extractExtension df with
    | none => pairWithExtensions out files
    | some ext => pairWithExtensions (out ++ [pruned df ext]) files

/-- A file as a candidate, if it has an extension. -/
def candidate (df : δ) : Except IcebergIndexError (Option (PrunedDataFile δ)) :=
  Option.map (pruned df) <$> extractExtension df

/-- **Every file that has an extension is paired with it**, in the order of the files; a
    malformed extension is an error. -/
theorem pairWithExtensions_eq (files : List δ) (out : List (PrunedDataFile δ)) :
    pairWithExtensions out files = (out ++ ·.reduceOption) <$> files.mapM candidate := by
  induction files generalizing out with
  | nil => exact congrArg Except.ok (List.append_nil out).symm
  | cons df files ih =>
    rw [pairWithExtensions, List.mapM_cons, candidate]
    cases extractExtension df with
    | error e => rfl
    | ok ext =>
      cases ext with
      | none =>
        rw [ok_bind]
        dsimp only
        rw [ih]
        cases files.mapM candidate <;> rfl
      | some ext =>
        rw [ok_bind]
        dsimp only
        rw [ih]
        cases files.mapM candidate with
        | error e => rfl
        | ok cs => exact congrArg Except.ok (List.append_assoc _ _ _)

/-- **A file that carries a written extension** comes back with it, and with a sidecar in its
    own directory. -/
theorem candidate_written {df : δ} {ext : EmatixDataFileExtension} {dir name : String}
    (h : DataFile.keyMetadata df = some (encodeKeyMetadata ext))
    (hlegible : ∀ v ∈ ext.strings, Legible v)
    (hpath : LocatedFile.filePath df = dir ++ "/" ++ name) (hname : '/' ∉ name.toList)
    (hrelative : ¬ IsAbsolute ext.sidecarRelativePath) :
    candidate df = .ok (some ⟨df, ext, dir ++ "/" ++ ext.sidecarRelativePath⟩) := by
  have hheard : ext.heard = .ok ext := (heard_extension_eq_ok ext).mpr hlegible
  rw [candidate, extractExtension, h]
  dsimp only
  rw [decodeKeyMetadata_encode, hheard, ← resolveSidecarUri_beside hname hrelative, ← hpath]
  rfl

/-- A file of a bucket. -/
def bucketFile : String × Option Bytes :=
  ("s3://bucket/dir/file.parquet", some (encodeKeyMetadata ⟨"file.parquet.idx", []⟩))

instance : LocatedFile (String × Option Bytes) where
  keyMetadata := Prod.snd
  filePath := Prod.fst

example : candidate bucketFile
    = .ok (some ⟨bucketFile, ⟨"file.parquet.idx", []⟩, "s3://bucket/dir/file.parquet.idx"⟩) :=
  @candidate_written _ _ _ _ "s3://bucket/dir" "file.parquet" rfl (by decide) rfl (by decide)
    (by decide)

end

end EmatixParquet
