import Mathlib.Data.List.Infix
import VaultLink.FileOperations

/-!
# What renames and deletions do to the share table

The rows of the share table as a rename or a delete may change them: a rename rewrites the
paths at or below the old one, a delete deactivates them. Both updates are idempotent, which is
what allows recovery to run them again after a crash that hid whether they had been committed.
-/
namespace VaultLink

/-- The path itself or, for a directory, something below it. -/
def Under (path : Text) (isDirectory : Bool) (candidate : Text) : Prop :=
  candidate = path ∨ isDirectory = true ∧ path ++ ['/'] <+: candidate

instance (path : Text) (isDirectory : Bool) (candidate : Text) :
    Decidable (Under path isDirectory candidate) :=
  inferInstanceAs (Decidable (_ ∨ _))

/-- The rows by id, path and activity. -/
def shareRows (s : Store) : List (ℕ × Text × Bool) :=
  s.shares.rows.map fun share => (share.id, share.relativePath, share.active)

/-- The rows after the entry at `old` was renamed to `new`. -/
def renamedRows (old new : Text) (isDirectory : Bool) (rows : List (ℕ × Text × Bool)) :
    List (ℕ × Text × Bool) :=
  rows.map fun (id, path, active) =>
    (id, if Under old isDirectory path then new ++ path.drop old.length else path, active)

theorem pathMatches_iff_under (path : Text) (isDirectory : Bool) (share : Share) :
    pathMatches path isDirectory share = true ↔ Under path isDirectory share.relativePath := by
  rw [pathMatches_iff, Under]
  refine or_congr_right (and_congr_right fun _ => ?_)
  constructor
  · rintro ⟨rest, h⟩
    exact ⟨rest, by simp [h]⟩
  · rintro ⟨rest, h⟩
    exact ⟨rest, by simp [← h]⟩

theorem shareRows_rename (old new : Text) (isDirectory recovery : Bool) (s : Store) :
    shareRows (renameSharePathsAndAudit old new isDirectory recovery s).1 =
      renamedRows old new isDirectory (shareRows s) := by
  simp only [shareRows, renameSharePathsAndAudit, renameSharePathsInTransaction,
    insertRequiredAudits, renamedRows, KeyedTable.updateWhere, List.map_map]
  refine List.map_congr_left fun share _ => ?_
  by_cases h : Under old isDirectory share.relativePath
  · simp [(pathMatches_iff_under old isDirectory share).mpr h, h, Share.renamed]
  · have hnot : pathMatches old isDirectory share = false :=
      Bool.eq_false_iff.mpr fun hmat => h ((pathMatches_iff_under old isDirectory share).mp hmat)
    simp [hnot, h]

section Separate

variable {oldPath newPath suffix : Text} {isDirectory : Bool}

/-- What may follow the path of an entry: nothing or, for a directory, a slash and more. -/
def Continues (isDirectory : Bool) (suffix : Text) : Prop :=
  suffix = [] ∨ isDirectory = true ∧ ∃ rest, suffix = '/' :: rest

theorem under_iff {candidate : Text} : Under oldPath isDirectory candidate ↔
    ∃ suffix, candidate = oldPath ++ suffix ∧ Continues isDirectory suffix := by
  constructor
  · rintro (rfl | ⟨hdir, rest, rfl⟩)
    · exact ⟨[], by simp, .inl rfl⟩
    · exact ⟨'/' :: rest, by simp, .inr ⟨hdir, rest, rfl⟩⟩
  · rintro ⟨_, rfl, rfl | ⟨hdir, rest, rfl⟩⟩
    · exact .inl (by simp)
    · exact .inr ⟨hdir, rest, by simp⟩

theorem Continues.front {front rest : Text} (h : Continues isDirectory (front ++ rest)) :
    Continues isDirectory front := by
  cases front with
  | nil => exact .inl rfl
  | cons c front =>
    obtain h | ⟨hdir, tail, h⟩ := h
    · cases h
    · cases h
      exact .inr ⟨hdir, front, rfl⟩

/-- If neither path is at or below the other, nothing below the one is below the other. -/
theorem not_under_renamed (hnew : ¬Under oldPath isDirectory newPath)
    (hold : ¬Under newPath isDirectory oldPath) (hsuf : Continues isDirectory suffix) :
    ¬Under oldPath isDirectory (newPath ++ suffix) := by
  intro hunder
  obtain ⟨tail, happend, htail⟩ := under_iff.mp hunder
  obtain ⟨between, hbet, rfl⟩ | ⟨between, hbet, rfl⟩ := List.append_eq_append_iff.mp happend
  · exact hold (under_iff.mpr ⟨between, hbet, hsuf.front⟩)
  · exact hnew (under_iff.mpr ⟨between, hbet, htail.front⟩)

end Separate

section Siblings

variable {parent : List Text} {oldName newName : Text}

/-- No name is at or below another one next to it. -/
theorem not_under_sibling (hne : oldName ≠ newName) (hnew : '/' ∉ newName) (isDirectory : Bool) :
    ¬Under (joinRelative parent oldName) isDirectory (joinRelative parent newName) := by
  intro hunder
  obtain ⟨suffix, happend, hsuf⟩ := under_iff.mp hunder
  rw [joinRelative_eq, joinRelative_eq, List.append_assoc] at happend
  obtain rfl := List.append_cancel_left happend
  obtain rfl | ⟨-, rest, rfl⟩ := hsuf
  · exact hne (List.append_nil _).symm
  · simp at hnew

theorem renamedRows_idem (hne : oldName ≠ newName) (hold : '/' ∉ oldName) (hnew : '/' ∉ newName)
    (isDirectory : Bool) (rows : List (ℕ × Text × Bool)) :
    renamedRows (joinRelative parent oldName) (joinRelative parent newName) isDirectory
        (renamedRows (joinRelative parent oldName) (joinRelative parent newName) isDirectory rows) =
      renamedRows (joinRelative parent oldName) (joinRelative parent newName) isDirectory rows := by
  simp only [renamedRows, List.map_map]
  refine List.map_congr_left fun row _ => ?_
  obtain ⟨id, path, active⟩ := row
  simp only [Function.comp_apply]
  by_cases h : Under (joinRelative parent oldName) isDirectory path
  · rw [if_pos h, if_neg]
    obtain ⟨suffix, rfl, hsuf⟩ := under_iff.mp h
    rw [List.drop_left]
    exact not_under_renamed (not_under_sibling hne hnew isDirectory)
      (not_under_sibling hne.symm hold isDirectory) hsuf
  · rw [if_neg h, if_neg h]

end Siblings

end VaultLink
