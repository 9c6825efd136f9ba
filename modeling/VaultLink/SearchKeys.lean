import VaultLink.SharePaths

/-!
# Path renames and their search keys

Next to its path a share row keeps the path's search key. A rename rewrites both columns with
`substr`, cutting each by the length of its own old value. The key is built character by
character, so the key of a path is the key of its front followed by the key of its rest, and the
two cuts agree. Running the rename again changes nothing as long as neither path is at or below
the other: what was renamed might otherwise be at or below the old path once more.
-/
namespace VaultLink

open KeyedTable

/-- `unicode_search_key`, over `char::to_lowercase`. -/
def unicodeSearchKey (toLowercase : Char → Text) (value : Text) : Text :=
  (value.flatMap toLowercase).flatMap fun c => if c = 'ß' then ['s', 's'] else [c]

/-- The `path_search_key` column, by share id, after `rename_share_paths_in_transaction`. -/
def renameSearchKeys (toLowercase : Char → Text) (oldPath newPath : Text) (isDirectory : Bool)
    (s : Store) (keys : ℕ → Text) (id : ℕ) : Text :=
  if s.shares.any (fun share => share.id = id && pathMatches oldPath isDirectory share) then
    unicodeSearchKey toLowercase newPath ++
      (keys id).drop (unicodeSearchKey toLowercase oldPath).length
  else keys id

/-- Each row has the search key of its path. -/
def Keyed (toLowercase : Char → Text) (s : Store) (keys : ℕ → Text) : Prop :=
  ∀ share ∈ s.shares, keys share.id = unicodeSearchKey toLowercase share.relativePath

variable {oldPath newPath suffix : Text} {isDirectory : Bool} {s : Store}

theorem unicodeSearchKey_append (toLowercase : Char → Text) (front rest : Text) :
    unicodeSearchKey toLowercase (front ++ rest) =
      unicodeSearchKey toLowercase front ++ unicodeSearchKey toLowercase rest := by
  simp [unicodeSearchKey]

theorem pathMatches_eq : pathMatches oldPath isDirectory =
    fun share => decide (Under oldPath isDirectory share.relativePath) := by
  ext share
  rw [Bool.eq_iff_iff, pathMatches_iff_under, decide_eq_true_iff]

theorem renameSharePaths_rows (recovery : Bool) :
    (renameSharePathsInTransaction oldPath newPath isDirectory recovery s).1.shares.rows =
      s.shares.rows.map fun share =>
        if Under oldPath isDirectory share.relativePath then share.renamed oldPath newPath
        else share := by
  simp [renameSharePathsInTransaction, updateWhere, pathMatches_eq]

theorem Share.renamed_relativePath {share : Share} (h : share.relativePath = oldPath ++ suffix) :
    (share.renamed oldPath newPath).relativePath = newPath ++ suffix := by
  simp [Share.renamed, h]

/-- Whether a key is rewritten depends on its own row only. -/
theorem renameSearchKeys_eq (toLowercase : Char → Text) (keys : ℕ → Text) {share : Share}
    (hsh : share ∈ s.shares) :
    renameSearchKeys toLowercase oldPath newPath isDirectory s keys share.id =
      if Under oldPath isDirectory share.relativePath then
        unicodeSearchKey toLowercase newPath ++
          (keys share.id).drop (unicodeSearchKey toLowercase oldPath).length
      else keys share.id := by
  unfold renameSearchKeys
  refine if_congr ?_ rfl rfl
  simp only [any_iff, Bool.and_eq_true, decide_eq_true_eq, pathMatches_eq]
  constructor
  · rintro ⟨row, hrow, hid, hunder⟩
    rwa [← s.shares.eq_of_key_eq hrow hsh hid]
  · exact fun hunder => ⟨share, hsh, rfl, hunder⟩

theorem Keyed.rename {toLowercase : Char → Text} {keys : ℕ → Text} (h : Keyed toLowercase s keys)
    (recovery : Bool) :
    Keyed toLowercase (renameSharePathsInTransaction oldPath newPath isDirectory recovery s).1
      (renameSearchKeys toLowercase oldPath newPath isDirectory s keys) := by
  intro row hrow
  rw [mem_def, renameSharePaths_rows] at hrow
  obtain ⟨share, hsh, rfl⟩ := List.mem_map.mp hrow
  have hkey := @renameSearchKeys_eq oldPath newPath isDirectory s toLowercase keys share hsh
  split
  · rename_i hunder
    rw [if_pos hunder] at hkey
    obtain ⟨suffix, hpath, -⟩ := under_iff.mp hunder
    rw [Share.renamed_relativePath hpath, unicodeSearchKey_append, show (share.renamed oldPath
      newPath).id = share.id from rfl, hkey, h share hsh, hpath, unicodeSearchKey_append,
      List.drop_left]
  · rename_i hunder
    rw [if_neg hunder] at hkey
    rw [hkey, h share hsh]

/-- After a rename between separate paths no row is at or below the old one. -/
theorem pathMatches_renamed (hnew : ¬Under oldPath isDirectory newPath)
    (hold : ¬Under newPath isDirectory oldPath) (recovery : Bool) :
    ∀ row ∈ (renameSharePathsInTransaction oldPath newPath isDirectory recovery s).1.shares,
      pathMatches oldPath isDirectory row = false := by
  intro row hrow
  rw [mem_def, renameSharePaths_rows] at hrow
  obtain ⟨share, -, rfl⟩ := List.mem_map.mp hrow
  rw [pathMatches_eq, decide_eq_false_iff_not]
  split
  · rename_i hunder
    obtain ⟨suffix, hpath, hsuf⟩ := under_iff.mp hunder
    rw [Share.renamed_relativePath hpath]
    exact not_under_renamed hnew hold hsuf
  · assumption

/-- Without rows at or below the old path a rename does nothing. -/
theorem renameSharePaths_noop
    (hnone : ∀ row ∈ s.shares, pathMatches oldPath isDirectory row = false)
    (toLowercase : Char → Text) (recovery : Bool) (keys : ℕ → Text) :
    (renameSharePathsInTransaction oldPath newPath isDirectory recovery s).1 = s ∧
      (renameSharePathsInTransaction oldPath newPath isDirectory recovery s).2.1 = 0 ∧
      renameSearchKeys toLowercase oldPath newPath isDirectory s keys = keys := by
  refine ⟨?_, count_eq_zero hnone, ?_⟩
  · have hrows : s.shares.updateWhere (pathMatches oldPath isDirectory)
        (Share.renamed oldPath newPath) = s.shares := by
      have hmap : s.shares.rows.map (fun row => if pathMatches oldPath isDirectory row then
          row.renamed oldPath newPath else row) = s.shares.rows :=
        (List.map_congr_left fun row hrow => by simp [hnone row hrow]).trans (List.map_id _)
      simp only [updateWhere, hmap]
    simp only [renameSharePathsInTransaction, hrows]
  · funext id
    refine if_neg fun hany => ?_
    obtain ⟨row, hrow, hmat⟩ := any_iff.mp hany
    simp [hnone row hrow] at hmat

/-- A rename rewrites exactly the rows at the old path or, for a directory, below it: their
paths, with the rest kept, and their keys, which stay the keys of the new paths. Run again it
changes nothing, unless one of the paths is at or below the other. A deletion deactivates the
active rows among the same ones. -/
theorem path_mutations_select_subtree (toLowercase : Char → Text) (oldPath newPath : Text)
    (isDirectory recovery cleanupPending : Bool) (s : Store) (keys : ℕ → Text)
    (hkeys : Keyed toLowercase s keys) :
    let after := renameSharePathsInTransaction oldPath newPath isDirectory recovery s
    let keysAfter := renameSearchKeys toLowercase oldPath newPath isDirectory s keys
    let again := renameSharePathsInTransaction oldPath newPath isDirectory recovery after.1
    let deleted :=
      deactivateSharesForPathInTransaction oldPath isDirectory recovery cleanupPending s
    after.1.shares.rows = s.shares.rows.map (fun share =>
        if Under oldPath isDirectory share.relativePath then share.renamed oldPath newPath
        else share) ∧
      (∀ (share : Share) (suffix : Text), share.relativePath = oldPath ++ suffix →
        (share.renamed oldPath newPath).relativePath = newPath ++ suffix) ∧
      after.2.1 = s.shares.count (fun share => Under oldPath isDirectory share.relativePath) ∧
      Keyed toLowercase after.1 keysAfter ∧
      (¬Under oldPath isDirectory newPath → ¬Under newPath isDirectory oldPath →
        again.1 = after.1 ∧ again.2.1 = 0 ∧
          renameSearchKeys toLowercase oldPath newPath isDirectory after.1 keysAfter =
            keysAfter) ∧
      deleted.1.shares.rows = s.shares.rows.map (fun share =>
        if share.active && Under oldPath isDirectory share.relativePath then share.deactivated
        else share) ∧
      deleted.2.1 = s.shares.count (fun share =>
        share.active && Under oldPath isDirectory share.relativePath) := by
  refine ⟨renameSharePaths_rows recovery, fun _ _ => Share.renamed_relativePath, ?_,
    hkeys.rename recovery, fun hnew hold => ?_, ?_, ?_⟩
  · simp only [renameSharePathsInTransaction, pathMatches_eq]
  · exact renameSharePaths_noop (pathMatches_renamed hnew hold recovery) toLowercase recovery _
  · simp only [deactivateSharesForPathInTransaction, updateWhere, pathMatches_eq]
  · simp only [deactivateSharesForPathInTransaction, pathMatches_eq]

/-- A share two levels below a directory of the same name. -/
def nestedShare : Store :=
  { Store.empty with
    shares := ⟨[⟨1, "share", none, "a/b/b".toList, false, .downloadOnly, none, none, none, none,
      none, 0, true, 1, 0, none, .reject, 0⟩], by decide⟩ }

theorem path_mutations_select_subtree_nested :
    Keyed (fun c => [c]) nestedShare (fun _ => "a/b/b".toList) ∧
      (renameSharePathsInTransaction "a/b".toList "c".toList true false nestedShare).2.1 = 1 ∧
      Keyed (fun c => [c])
        (renameSharePathsInTransaction "a/b".toList "c".toList true false nestedShare).1
        (renameSearchKeys (fun c => [c]) "a/b".toList "c".toList true nestedShare
          fun _ => "a/b/b".toList) := by
  have hkeys : Keyed (fun c => [c]) nestedShare (fun _ => "a/b/b".toList) := by
    intro share hsh
    cases List.mem_singleton.mp hsh
    decide
  exact ⟨hkeys, by decide, (path_mutations_select_subtree _ "a/b".toList "c".toList true false false
    nestedShare _ hkeys).2.2.2.1⟩

/-- A rename to a parent of the old path: the new path is neither the old one nor below it, and
the second run still finds a row. -/
theorem rename_to_parent_runs_twice :
    ¬Under "a/b".toList true "a".toList ∧
      (renameSharePathsInTransaction "a/b".toList "a".toList true false
        (renameSharePathsInTransaction "a/b".toList "a".toList true false nestedShare).1).2.1 = 1 ∧
      (renameSharePathsInTransaction "a/b".toList "a".toList true false
        (renameSharePathsInTransaction "a/b".toList "a".toList true false nestedShare).1).1 ≠
        (renameSharePathsInTransaction "a/b".toList "a".toList true false nestedShare).1 := by
  refine ⟨by decide, by decide, fun h => ?_⟩
  have hpath := congrArg (fun s : Store => s.shares.rows.map Share.relativePath) h
  revert hpath
  decide

end VaultLink
