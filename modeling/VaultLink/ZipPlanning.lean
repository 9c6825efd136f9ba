import Mathlib.Algebra.Order.BigOperators.Group.List
import Mathlib.Data.List.Nodup
import VaultLink.Worklist
import VaultLink.ZipPlan

/-!
# A plan lists the whole tree

The walk of `plan_zip` is a breadth-first exploration of the directories below the root. If it
succeeds, every directory was read to its end, and the plan lists what scanning reports, once,
under the path relative to the root, and a directory before what is in it. A tree that exceeds
one of the limits is refused.
-/
namespace VaultLink

open DirectoryAccess

section Tree

variable (access : DirectoryAccess) (root : Text)

/-- The path under which a directory below the root is scanned. -/
def sourcePath (path : List Text) : Text := path.foldl joinDisplay root

/-- The path of a directory in the archive. -/
def archivePath (path : List Text) : Text := path.foldl joinDisplay []

/-- What scanning reports in a directory below the root. -/
def DirectoryAccess.entriesAt (path : List Text) : List DirectoryEntry :=
  match access.scanEntries (sourcePath root path) with
  | .ok scan => scan.entries
  | .error _ => []

/-- The number of items in a directory, shown or not. -/
def DirectoryAccess.itemsAt (path : List Text) : ℕ :=
  match access.scanEntries (sourcePath root path) with
  | .ok scan => scan.length
  | .error _ => 0

def DirectoryAccess.subdirectories (path : List Text) : List (List Text) :=
  ((access.entriesAt root path).filter (·.isDir)).map fun entry => path ++ [entry.name]

/-- A directory of the tree. -/
def DirectoryAccess.Contains (path : List Text) : Prop :=
  Relation.ReflTransGen (IsChild (access.subdirectories root)) path []

/-- An entry that scanning reports in a directory of the tree. -/
def DirectoryAccess.Reports (path : List Text) (entry : DirectoryEntry) : Prop :=
  access.Contains root path ∧ entry ∈ access.entriesAt root path

/-- Every item of the directory can be read. -/
def DirectoryAccess.Readable (path : List Text) : Prop :=
  ∃ scan items, access.scanEntries (sourcePath root path) = .ok scan ∧ scan.Reads items

variable {access root} {path : List Text} {entry : DirectoryEntry}

theorem nodup_names (path : List Text) :
    ((access.entriesAt root path).map DirectoryEntry.name).Nodup := by
  unfold entriesAt
  split
  · rename_i scan hscan
    exact (access.distinct _ scan hscan).sublist scan.entries_sublist
  · exact List.nodup_nil

theorem isChild_subdirectories {child : List Text} :
    IsChild (access.subdirectories root) child path ↔
      ∃ entry ∈ access.entriesAt root path, entry.isDir = true ∧ path ++ [entry.name] = child := by
  simp [IsChild, subdirectories, and_assoc]

theorem rooted_subdirectories : Rooted (access.subdirectories root) [] where
  nodup path := by
    have hnames : (((access.entriesAt root path).filter (·.isDir)).map DirectoryEntry.name).Nodup :=
      (nodup_names path).sublist (List.filter_sublist.map _)
    have hpaths := hnames.map (f := fun name => path ++ [name]) fun name name' heq => by
      simpa using heq
    rwa [List.map_map] at hpaths
  parent_unique := by
    intro child path path' h h'
    obtain ⟨entry, -, -, rfl⟩ := isChild_subdirectories.mp h
    obtain ⟨entry', -, -, heq⟩ := isChild_subdirectories.mp h'
    exact (List.append_inj' heq rfl).1.symm
  root_not_child path hmem := by
    obtain ⟨entry, -, -, heq⟩ := isChild_subdirectories.mp hmem
    simp at heq

/-- A directory of the tree is below every shorter part of its path. -/
theorem DirectoryAccess.Contains.below (h : access.Contains root path) {above rest : List Text}
    (hpath : path = above ++ rest) (hrest : rest ≠ []) :
    Relation.TransGen (IsChild (access.subdirectories root)) path above := by
  induction h using Relation.ReflTransGen.head_induction_on generalizing rest with
  | refl => simp_all
  | head hchild _ ih =>
    obtain ⟨entry, -, -, rfl⟩ := isChild_subdirectories.mp hchild
    obtain ⟨init, last, rfl⟩ := (List.eq_nil_or_concat' rest).resolve_left hrest
    rw [← List.append_assoc] at hpath
    obtain ⟨rfl, -⟩ := List.append_inj' hpath rfl
    by_cases hinit : init = []
    · subst hinit
      rw [List.append_nil] at hchild ⊢
      exact .single hchild
    · exact .head hchild (ih rfl hinit)

end Tree

variable {access : DirectoryAccess} {alloc : Allocator} {settings : RuntimeSettings} {root : Text}
  {path : List Text} {visited pending final : List (List Text)} {s : ZipPlanState} {scanned : ℕ}

section Names

variable {entry : DirectoryEntry}

/-- The record of an entry in the plan. -/
def planned (root : Text) (item : List Text × DirectoryEntry) : ZipFilePlan :=
  plannedFile (sourcePath root item.1) (archivePath item.1) item.2

theorem joinDisplay_render {name : Text} (h : ∀ component ∈ path, PlainComponent component) :
    joinDisplay (['/'].intercalate path) name = joinRelative path name := by
  rw [joinRelative_eq, joinDisplay]
  by_cases hpath : path = []
  · subst hpath
    simp
  · have hnot : ∀ text, pathComponents text = [] → ['/'].intercalate path ≠ text := by
      rintro text htext rfl
      exact hpath ((pathComponents_render h).symm.trans htext)
    rw [if_neg hpath, if_neg]
    · simp
    · simp [List.isEmpty_iff, hnot [] rfl, hnot ['.'] rfl]

theorem archivePath_render (h : ∀ component ∈ path, PlainComponent component) :
    archivePath path = ['/'].intercalate path := by
  induction path using List.reverseRecOn with
  | nil => rfl
  | append_singleton path name ih =>
    have hpath : ∀ component ∈ path, PlainComponent component :=
      fun component hmem => h component (List.mem_append_left _ hmem)
    rw [archivePath, List.foldl_append, ← archivePath, ih hpath]
    exact joinDisplay_render hpath

/-- The name of an entry in the archive is its path relative to the root. -/
theorem planned_archiveName (h : ∀ component ∈ path ++ [entry.name], PlainComponent component) :
    (planned root (path, entry)).archiveName =
      ['/'].intercalate (path ++ [entry.name]) ++ if entry.isDir then ['/'] else [] := by
  have hpath : ∀ component ∈ path, PlainComponent component :=
    fun component hmem => h component (List.mem_append_left _ hmem)
  have hjoined : joinDisplay (archivePath path) entry.name =
      ['/'].intercalate (path ++ [entry.name]) := by
    rw [archivePath_render hpath]
    exact joinDisplay_render hpath
  unfold planned plannedFile
  cases entry.isDir <;> simp [hjoined]

/-- The entry can be told from its name in the archive. -/
theorem pathComponents_planned (h : ∀ component ∈ path ++ [entry.name], PlainComponent component) :
    pathComponents (planned root (path, entry)).archiveName = path ++ [entry.name] := by
  rw [planned_archiveName h]
  cases entry.isDir with
  | true =>
    rw [if_pos rfl, pathComponents_append_slash, pathComponents_render h]
    exact List.append_nil _
  | false =>
    rw [if_neg Bool.false_ne_true, List.append_nil, pathComponents_render h]

theorem planned_isDirectory : (planned root (path, entry)).isDirectory = entry.isDir := by
  unfold planned plannedFile
  cases entry.isDir <;> simp

/-- A file below a directory in the archive is below it in the tree. -/
theorem isPrefix_of_archiveName {path' : List Text} {entry' : DirectoryEntry}
    (h : ∀ component ∈ path ++ [entry.name], PlainComponent component)
    (h' : ∀ component ∈ path' ++ [entry'.name], PlainComponent component)
    (hdir : entry.isDir = true)
    (hstarts : (planned root (path, entry)).archiveName <+:
      (planned root (path', entry')).archiveName) :
    path ++ [entry.name] <+: path' ++ [entry'.name] := by
  obtain ⟨rest, hrest⟩ := hstarts
  rw [planned_archiveName h, if_pos hdir, List.append_assoc, List.singleton_append] at hrest
  have hparts := congrArg pathComponents hrest
  rw [pathComponents_append_slash, pathComponents_render h, pathComponents_planned h']
    at hparts
  exact ⟨_, hparts⟩

end Names

section Walk

variable {s' s'' : ZipPlanState} {scanned' : ℕ}

/-- The queue's record of a directory. -/
def pendingDirectory (root : Text) (path : List Text) : Text × Text :=
  (sourcePath root path, archivePath path)

/-- The entries of a directory, with its path. -/
def DirectoryAccess.itemsOf (access : DirectoryAccess) (root : Text) (path : List Text) :
    List (List Text × DirectoryEntry) :=
  (access.entriesAt root path).map fun entry => (path, entry)

theorem queued_eq_subdirectories {entries : List DirectoryEntry} :
    entries.flatMap (queuedDirectory (sourcePath root path) (archivePath path)) =
      ((entries.filter (·.isDir)).map fun entry => path ++ [entry.name]).map
        (pendingDirectory root) := by
  induction entries with
  | nil => rfl
  | cons entry entries ih =>
    rw [List.flatMap_cons, ih, List.filter_cons]
    cases hdir : entry.isDir with
    | true => simp [queuedDirectory, hdir, pendingDirectory, sourcePath, archivePath]
    | false => simp [queuedDirectory, hdir]

/-- The walk has planned the directories it has visited, and the others are queued. -/
structure Walk (access : DirectoryAccess) (root : Text) (settings : RuntimeSettings)
    (visited pending : List (List Text)) (s : ZipPlanState) (scanned : ℕ) : Prop where
  queue_eq : s.queue = pending.map (pendingDirectory root)
  files_eq : s.files = (visited.flatMap (access.itemsOf root)).map (planned root)
  readable : ∀ path ∈ visited, access.Readable root path
  safe : ∀ path ∈ visited, ∀ entry ∈ access.entriesAt root path, safeFilename entry.name = true
  name_le : ∀ file ∈ s.files, byteLength file.archiveName ≤ 2 ^ 16 - 1
  scanned_eq : scanned = (visited.map (access.itemsAt root)).sum
  scanned_le : scanned ≤ settings.maxSearchEntries.toNat
  used_le : queueBytes s.queue ≤ s.used
  count_eq : s.regularFileCount = min (s.files.countP (!·.isDirectory)) (2 ^ 64 - 1)
  count_le : settings.maxZipFiles ≠ 0 → s.regularFileCount ≤ settings.maxZipFiles.toNat
  total_eq : s.totalData = (s.files.map ZipFilePlan.scannedLen).sum
  total_le : settings.maxZipSize ≠ 0 → s.totalData ≤ settings.maxZipSize.toNat

theorem startPlan_walk (h : startPlan alloc root = .ok s) :
    Walk access root settings [] [[]] s 0 := by
  unfold startPlan at h
  split at h
  · cases h
  dsimp only at h
  split at h
  · cases h
    refine ⟨rfl, rfl, nofun, nofun, nofun, rfl, Nat.zero_le _, ?_, rfl, fun _ => Nat.zero_le _, rfl,
      fun _ => Nat.zero_le _⟩
    simp [queueBytes]
  · cases h

theorem countP_planned (entries : List DirectoryEntry) (current archive : Text) :
    (entries.map (plannedFile current archive)).countP (!·.isDirectory) =
      entries.countP (!·.isDir) := by
  rw [List.countP_map]
  refine List.countP_congr fun entry _ => ?_
  unfold plannedFile
  cases hdir : entry.isDir <;> simp [hdir]

/-- A directory is scanned; the bytes of its strings are still accounted for. -/
theorem Walk.scan (h : Walk access root settings visited (path :: pending) s scanned)
    (hscan : scanZipDirectory access alloc settings
      { s with queue := pending.map (pendingDirectory root) } scanned (sourcePath root path)
      (archivePath path) = .ok (s', scanned')) :
    pendingBytes (pendingDirectory root path) ≤ s'.used ∧
      ∀ s'', releaseBytes (pendingBytes (pendingDirectory root path)) s' = .ok s'' →
        Walk access root settings (visited ++ [path])
          (pending ++ access.subdirectories root path) s'' scanned' := by
  obtain ⟨scan, items, hopen, hreads, hfold, rfl, hleng⟩ := scanZipDirectory_ok hscan
  have hadds := foldlM_addZipEntry_ok hfold
  have hents : access.entriesAt root path = visibleEntries items := by
    unfold entriesAt
    rw [hopen]
    exact hreads.entries_eq
  have hits : access.itemsAt root path = scan.length := by
    unfold itemsAt
    rw [hopen]
  have hque : (visibleEntries items).flatMap
      (queuedDirectory (sourcePath root path) (archivePath path)) =
        (access.subdirectories root path).map (pendingDirectory root) := by
    rw [queued_eq_subdirectories, subdirectories, hents]
  have hfiles : s'.files = s.files ++
      (access.entriesAt root path).map (plannedFile (sourcePath root path) (archivePath path)) := by
    rw [hadds.files_eq, hents]
  have hused : s.used + queueBytes ((access.subdirectories root path).map (pendingDirectory root)) ≤
      s'.used := hque ▸ hadds.used_le
  have hbef : pendingBytes (pendingDirectory root path) +
      queueBytes (pending.map (pendingDirectory root)) ≤ s.used := by
    have := h.used_le
    rwa [h.queue_eq] at this
  refine ⟨by omega, fun s'' hrelease => ?_⟩
  rw [releaseBytes, if_pos (by omega)] at hrelease
  cases hrelease
  have hcount := hadds.count_eq _ h.count_eq
  constructor
  · rw [hadds.queue_eq, hque, List.map_append]
  · rw [hfiles, h.files_eq, List.flatMap_append, List.map_append]
    simp [itemsOf, planned]
  · intro found hfound
    obtain hfound | hfound := List.mem_append.mp hfound
    · exact h.readable found hfound
    · obtain rfl := List.mem_singleton.mp hfound
      exact ⟨scan, items, hopen, hreads⟩
  · intro found hfound
    obtain hfound | hfound := List.mem_append.mp hfound
    · exact h.safe found hfound
    · obtain rfl := List.mem_singleton.mp hfound
      rw [hents]
      exact hadds.safe
  · intro file hfile
    dsimp only at hfile
    rw [hadds.files_eq] at hfile
    obtain hfile | hfile := List.mem_append.mp hfile
    · exact h.name_le file hfile
    · obtain ⟨entry, hent, rfl⟩ := List.mem_map.mp hfile
      exact hadds.name_le entry hent
  · rw [h.scanned_eq, List.map_append, List.sum_append, List.map_singleton, List.sum_singleton,
      hits]
  · have := h.scanned_le
    omega
  · have haft : queueBytes s'.queue = queueBytes (pending.map (pendingDirectory root)) +
        queueBytes ((access.subdirectories root path).map (pendingDirectory root)) := by
      rw [hadds.queue_eq, hque, queueBytes_append]
    dsimp only
    omega
  · dsimp only
    rw [hcount, hfiles, List.countP_append, countP_planned, hents]
  · intro hlimd
    exact hadds.count_le hlimd (h.count_le hlimd)
  · dsimp only
    rw [hadds.total_eq, hadds.files_eq, List.map_append, List.sum_append, List.map_map]
    exact congrArg (· + _) h.total_eq
  · intro hlimd
    exact hadds.total_le hlimd (h.total_le hlimd)

end Walk

section Panics

variable {α β : Type}

/-- The computation may fail, but no expectation is broken. -/
def NoPanic (result : Except ZipStop α) : Prop :=
  ∀ message, result ≠ .error (.panicked message)

theorem NoPanic.bind {result : Except ZipStop α} {next : α → Except ZipStop β}
    (h : NoPanic result) (hnext : ∀ a, result = .ok a → NoPanic (next a)) :
    NoPanic (result >>= next) := by
  cases result with
  | error stop => exact fun message heq => h message (congrArg Except.error (Except.error.inj heq))
  | ok a => exact hnext a rfl

theorem noPanic_retainBytes (bytes : ℕ) (s : ZipPlanState) : NoPanic (retainBytes bytes s) := by
  intro message h
  unfold retainBytes at h
  split at h <;> cases h

theorem noPanic_reserveFile (s : ZipPlanState) : NoPanic (reserveFile alloc s) := by
  unfold reserveFile
  split
  · exact nofun
  · exact noPanic_retainBytes _ _

theorem noPanic_reserveDirectory (s : ZipPlanState) : NoPanic (reserveDirectory alloc s) := by
  unfold reserveDirectory
  split
  · exact nofun
  · exact noPanic_retainBytes _ _

theorem noPanic_validateZipName (name : Text) : NoPanic (validateZipName name) := by
  intro message h
  unfold validateZipName at h
  split at h <;> cases h

theorem noPanic_addZipEntry (current archive : Text) (s : ZipPlanState) (entry : DirectoryEntry) :
    NoPanic (addZipEntry alloc settings current archive s entry) := by
  unfold addZipEntry
  split
  · exact nofun
  split
  · refine (noPanic_validateZipName _).bind fun _ _ => (noPanic_reserveFile _).bind fun s₁ _ => ?_
    refine (noPanic_reserveDirectory _).bind fun s₂ _ => ?_
    exact (noPanic_retainBytes _ _).bind fun s₃ _ => nofun
  · refine (noPanic_validateZipName _).bind fun _ _ => (noPanic_reserveFile _).bind fun s₁ _ => ?_
    refine (noPanic_retainBytes _ _).bind fun s₂ _ => ?_
    dsimp only
    split_ifs <;> exact nofun

theorem noPanic_scanZipDirectory (scanned : ℕ) (current archive : Text) :
    NoPanic (scanZipDirectory access alloc settings s scanned current archive) := by
  intro message h
  unfold scanZipDirectory at h
  split at h
  · cases h
  split at h
  · rename_i stop hscan
    cases h
    refine scanBounded_error (P := fun stop => stop ≠ .panicked message)
      (fun _ => ZipStop.noConfusion) ?_ hscan rfl
    rintro state entry error herr rfl
    exact noPanic_addZipEntry current archive state entry message herr
  · split at h <;> cases h

end Panics

section Runs

/-- The loop explores the directories and keeps the invariant, and it never panics. -/
theorem Walk.run (h : Walk access root settings visited pending s scanned) :
    NoPanic (planLoop access alloc settings s scanned) ∧
      ∀ s', planLoop access alloc settings s scanned = .ok s' → ∃ final scanned',
        Explores (access.subdirectories root) visited pending final ∧
          Walk access root settings final [] s' scanned' := by
  induction hmeasure : settings.maxSearchEntries.toNat - scanned + s.queue.length using
    Nat.strong_induction_on generalizing visited pending s scanned with
  | _ measure ih =>
  subst hmeasure
  have hque := h.queue_eq
  rw [planLoop]
  split
  · rename_i hemp
    obtain rfl : pending = [] := by simpa [hque] using hemp
    refine ⟨by simp [NoPanic], fun s' hs' => ?_⟩
    cases hs'
    exact ⟨visited, scanned, .done visited, h⟩
  · rename_i current archive queue hcons
    obtain ⟨path, pending, rfl⟩ : ∃ path rest, pending = path :: rest := by
      cases pending with
      | nil => simp [hque] at hcons
      | cons path rest => exact ⟨path, rest, rfl⟩
    rw [hque, List.map_cons] at hcons
    obtain ⟨hpair, rfl⟩ := List.cons.inj hcons
    obtain ⟨rfl, rfl⟩ := Prod.mk.inj hpair
    dsimp only
    split
    · exact ⟨by rintro _ ⟨⟩, by rintro _ ⟨⟩⟩
    split
    · rename_i stop hscan
      refine ⟨fun message heq => ?_, by simp⟩
      cases heq
      exact noPanic_scanZipDirectory _ _ _ message hscan
    · rename_i s' scanned' hscan
      obtain ⟨hused, hnext⟩ := h.scan hscan
      have hrelease : releaseBytes (pendingBytes (pendingDirectory root path)) s' = .ok
          { s' with used := s'.used - pendingBytes (pendingDirectory root path) } := if_pos hused
      have hsmaller := scanZipDirectory_measure hscan
      split
      · rename_i stop hstop
        cases hstop.symm.trans hrelease
      · rename_i s'' hs''
        cases hs''.symm.trans hrelease
        obtain ⟨hpanic, hrun⟩ := ih _ (by
          rw [hque]
          simp only [List.map_cons, List.length_cons] at hsmaller ⊢
          omega) (hnext _ hrelease) rfl
        refine ⟨hpanic, fun final hfinal => ?_⟩
        obtain ⟨visited', scanned'', hexp, hwalk⟩ := hrun final hfinal
        exact ⟨visited', scanned'', .visit hexp, hwalk⟩

theorem planZip_walk {plan : ZipPlan} (h : planZip access alloc root settings = .ok plan) :
    ∃ final s scanned, Explores (access.subdirectories root) [] [[]] final ∧
      Walk access root settings final [] s scanned ∧ plan.files = s.files ∧
      estimateZipArchiveSize plan.files = .ok plan.estimatedArchiveSize := by
  obtain ⟨s₀, hsta, h⟩ := except_bind_eq_ok.mp h
  obtain ⟨s, hloop, h⟩ := except_bind_eq_ok.mp h
  obtain ⟨estimate, hestimate, h⟩ := except_bind_eq_ok.mp h
  cases h
  obtain ⟨final, scanned, hexp, hwalk⟩ := (startPlan_walk hsta).run.2 s hloop
  exact ⟨final, s, scanned, hexp, hwalk, rfl, mapError_eq_ok.mp hestimate⟩

theorem noPanic_planZip : NoPanic (planZip access alloc root settings) := by
  have hsta : NoPanic (startPlan alloc root) := by
    intro message h
    unfold startPlan at h
    split at h
    · cases h
    dsimp only at h
    split at h <;> cases h
  unfold planZip
  refine hsta.bind fun s₀ hs₀ => (startPlan_walk hs₀).run.1.bind fun s _ => ?_
  cases estimateZipArchiveSize s.files <;> exact nofun

end Runs

section Listing

/-- The plan lists the tree: every entry that scanning reports, once and under its relative path,
with every directory before what is below it, and within the limits. -/
structure ListsTree (access : DirectoryAccess) (root : Text) (settings : RuntimeSettings)
    (plan : ZipPlan) (directories : List (List Text)) (order : List (List Text × DirectoryEntry)) :
    Prop where
  directories_nodup : directories.Nodup
  mem_directories : ∀ path, path ∈ directories ↔ access.Contains root path
  readable : ∀ path ∈ directories, access.Readable root path
  scanned_le : (directories.map (access.itemsAt root)).sum ≤ settings.maxSearchEntries.toNat
  order_nodup : order.Nodup
  mem_order : ∀ path entry, (path, entry) ∈ order ↔ access.Reports root path entry
  files_eq : plan.files = order.map (planned root)
  archiveName_eq : ∀ path entry, (path, entry) ∈ order → (planned root (path, entry)).archiveName =
    ['/'].intercalate (path ++ [entry.name]) ++ if entry.isDir then ['/'] else []
  names_nodup : (plan.files.map ZipFilePlan.archiveName).Nodup
  directories_first : plan.files.Pairwise fun earlier later => later.isDirectory = true →
    ¬later.archiveName <+: earlier.archiveName
  count_le : settings.maxZipFiles ≠ 0 →
    plan.files.countP (!·.isDirectory) ≤ settings.maxZipFiles.toNat
  size_le : settings.maxZipSize ≠ 0 →
    (plan.files.map ZipFilePlan.scannedLen).sum ≤ settings.maxZipSize.toNat

theorem mem_flatMap_itemsOf {directories : List (List Text)} {path : List Text}
    {entry : DirectoryEntry} : (path, entry) ∈ directories.flatMap (access.itemsOf root) ↔
      path ∈ directories ∧ entry ∈ access.entriesAt root path := by
  simp [itemsOf]

theorem nodup_flatMap_itemsOf {directories : List (List Text)} (h : directories.Nodup) :
    (directories.flatMap (access.itemsOf root)).Nodup := by
  refine List.nodup_flatMap.mpr ⟨fun path _ => ?_, ?_⟩
  · refine List.Nodup.map (fun _ _ heq => (Prod.mk.inj heq).2) ?_
    exact (nodup_names path).of_map _
  · refine h.imp fun hne => ?_
    rintro ⟨path, entry⟩ hmem hmem'
    simp only [itemsOf, List.mem_map, Prod.mk.injEq] at hmem hmem'
    obtain ⟨_, _, rfl, _⟩ := hmem
    obtain ⟨_, _, rfl, _⟩ := hmem'
    exact hne rfl

/-- The components of a path in the tree are names that were checked. -/
theorem plain_of_contains (hsafe : ∀ path, access.Contains root path →
      ∀ entry ∈ access.entriesAt root path, safeFilename entry.name = true)
    {path : List Text} (h : access.Contains root path) :
    ∀ component ∈ path, PlainComponent component := by
  induction h using Relation.ReflTransGen.head_induction_on with
  | refl => exact nofun
  | head hchild hpar ih =>
    obtain ⟨entry, hent, -, rfl⟩ := isChild_subdirectories.mp hchild
    intro component hmem
    obtain hmem | hmem := List.mem_append.mp hmem
    · exact ih component hmem
    · obtain rfl := List.mem_singleton.mp hmem
      exact .of_safeFilename (hsafe _ hpar entry hent)

theorem length_entriesAt_le (path : List Text) :
    (access.entriesAt root path).length ≤ access.itemsAt root path := by
  unfold entriesAt itemsAt
  split
  · exact List.length_filterMap_le _ _
  · exact le_rfl

theorem length_flatMap_itemsOf_le (directories : List (List Text)) :
    (directories.flatMap (access.itemsOf root)).length ≤
      (directories.map (access.itemsAt root)).sum := by
  rw [List.length_flatMap]
  refine List.sum_le_sum fun path _ => ?_
  rw [itemsOf, List.length_map]
  exact length_entriesAt_le path

/-- No entry comes before one that is above it. -/
theorem pairwise_flatMap_itemsOf (hexp : Explores (access.subdirectories root) [] [[]] final) :
    (final.flatMap (access.itemsOf root)).Pairwise fun earlier later =>
      ¬later.1 ++ [later.2.name] <+: earlier.1 ++ [earlier.2.name] := by
  refine List.pairwise_flatMap.mpr ⟨fun path _ => ?_, ?_⟩
  · refine List.pairwise_map.mpr ?_
    refine (List.pairwise_map.mp (nodup_names path)).imp fun hne hstarts => hne ?_
    have heq := hstarts.eq_of_length (by simp)
    exact (List.singleton_inj.mp (List.append_cancel_left heq)).symm
  · have hpairwise := (hexp.pairwise rooted_subdirectories).and
      (hexp.nodup rooted_subdirectories)
    refine hpairwise.imp_of_mem fun {path path'} hpath _ ⟨hnot, hne⟩ => ?_
    rintro ⟨_, entry⟩ hitem ⟨_, entry'⟩ hitem' hstarts
    obtain ⟨_, -, hitem⟩ := List.mem_map.mp hitem
    obtain ⟨_, -, hitem'⟩ := List.mem_map.mp hitem'
    cases hitem
    cases hitem'
    obtain heq | ⟨rest, hrest⟩ := List.prefix_concat_iff.mp hstarts
    · exact hne (List.append_inj' heq rfl).1.symm
    · have hcon : access.Contains root path :=
        (hexp.mem_iff rooted_subdirectories).mp hpath
      exact hnot (hcon.below (hrest.symm.trans (List.append_assoc _ _ _)) (by simp))

/-- The plan of a walk that has come to its end. -/
theorem Walk.listsTree {plan : ZipPlan} (h : Walk access root settings final [] s scanned)
    (hexp : Explores (access.subdirectories root) [] [[]] final) (hplan : plan.files = s.files) :
    ListsTree access root settings plan final (final.flatMap (access.itemsOf root)) := by
  have hmem : ∀ path, path ∈ final ↔ access.Contains root path :=
    fun path => hexp.mem_iff rooted_subdirectories
  have hnod := hexp.nodup rooted_subdirectories
  have hsafe : ∀ path, access.Contains root path →
      ∀ entry ∈ access.entriesAt root path, safeFilename entry.name = true :=
    fun path hpath => h.safe path ((hmem path).mpr hpath)
  have hfiles := hplan.trans h.files_eq
  have hplain : ∀ path entry, (path, entry) ∈ final.flatMap (access.itemsOf root) →
      ∀ component ∈ path ++ [entry.name], PlainComponent component := by
    intro path entry hitem component hcom
    obtain ⟨hpath, hent⟩ := mem_flatMap_itemsOf.mp hitem
    have hcon := (hmem path).mp hpath
    obtain hcom | hcom := List.mem_append.mp hcom
    · exact plain_of_contains hsafe hcon component hcom
    · obtain rfl := List.mem_singleton.mp hcom
      exact .of_safeFilename (hsafe path hcon entry hent)
  -- an entry is determined by its path and its name
  have hinjective : ∀ item ∈ final.flatMap (access.itemsOf root),
      ∀ item' ∈ final.flatMap (access.itemsOf root),
        item.1 ++ [item.2.name] = item'.1 ++ [item'.2.name] → item = item' := by
    rintro ⟨path, entry⟩ hitem ⟨path', entry'⟩ hitem' heq
    obtain ⟨hpath, hname⟩ := List.append_inj' heq rfl
    dsimp only at hpath hname
    subst hpath
    rw [List.inj_on_of_nodup_map (nodup_names _) (mem_flatMap_itemsOf.mp hitem).2
      (mem_flatMap_itemsOf.mp hitem').2 (List.singleton_inj.mp hname)]
  refine ⟨hnod, hmem, h.readable, ?_, nodup_flatMap_itemsOf hnod, ?_, hfiles, ?_, ?_, ?_, ?_, ?_⟩
  · rw [← h.scanned_eq]
    exact h.scanned_le
  · intro path entry
    rw [mem_flatMap_itemsOf, hmem, DirectoryAccess.Reports]
  · exact fun path entry hitem => planned_archiveName (hplain path entry hitem)
  · rw [hfiles, List.map_map]
    refine List.Nodup.map_on ?_ (nodup_flatMap_itemsOf hnod)
    rintro ⟨path, entry⟩ hitem ⟨path', entry'⟩ hitem' heq
    have hparts := congrArg pathComponents heq
    dsimp only [Function.comp_apply] at hparts
    rw [pathComponents_planned (hplain path entry hitem),
      pathComponents_planned (hplain path' entry' hitem')] at hparts
    exact hinjective _ hitem _ hitem' hparts
  · rw [hfiles]
    refine List.pairwise_map.mpr ((pairwise_flatMap_itemsOf hexp).imp_of_mem ?_)
    rintro ⟨path, entry⟩ ⟨path', entry'⟩ hitem hitem' hnot hdire hstarts
    refine hnot (isPrefix_of_archiveName (hplain path' entry' hitem') (hplain path entry hitem) ?_
      hstarts)
    rwa [planned_isDirectory] at hdire
  · intro hlimd
    have hcount := h.count_le hlimd
    have hleng : (final.flatMap (access.itemsOf root)).length ≤
        (final.map (access.itemsAt root)).sum := length_flatMap_itemsOf_le final
    have hscanned := h.scanned_le
    have hbound := settings.maxSearchEntries.toNat_lt
    have hall : s.files.countP (!·.isDirectory) ≤ s.files.length := List.countP_le_length
    rw [h.count_eq] at hcount
    rw [hplan]
    have hfilesLength : s.files.length = (final.flatMap (access.itemsOf root)).length := by
      rw [h.files_eq, List.length_map]
    rw [← h.scanned_eq] at hleng
    omega
  · intro hlimd
    rw [hplan, ← h.total_eq]
    exact h.total_le hlimd

theorem sum_map_le_of_subset {α : Type} {l l' : List α} (f : α → ℕ) (hnod : l.Nodup)
    (hsubset : l ⊆ l') : (l.map f).sum ≤ (l'.map f).sum := by
  obtain ⟨l₁, hperm, hsublist⟩ := List.subperm_of_subset hnod hsubset
  rw [← (hperm.map f).sum_eq]
  exact (hsublist.map f).sum_le_sum fun _ _ => Nat.zero_le _

/-- Entries that a listing has in it are no more, and no larger, than all it lists. -/
theorem ListsTree.le {plan : ZipPlan} {directories : List (List Text)}
    {order files : List (List Text × DirectoryEntry)}
    (h : ListsTree access root settings plan directories order) (hnod : files.Nodup)
    (hrep : ∀ item ∈ files, access.Reports root item.1 item.2 ∧ item.2.isDir = false) :
    files.length ≤ plan.files.countP (!·.isDirectory) ∧
      (files.map (·.2.len)).sum ≤ (plan.files.map ZipFilePlan.scannedLen).sum := by
  have hsubset : files ⊆ order :=
    fun item hitem => (h.mem_order item.1 item.2).mpr (hrep item hitem).1
  constructor
  · have hfiles : files ⊆ order.filter (!·.2.isDir) := fun item hitem =>
      List.mem_filter.mpr ⟨hsubset hitem, by rw [(hrep item hitem).2]; rfl⟩
    have hcount : plan.files.countP (!·.isDirectory) = (order.filter (!·.2.isDir)).length := by
      rw [h.files_eq, List.countP_map, List.countP_eq_length_filter]
      congr 2
      funext item
      exact congrArg (!·) planned_isDirectory
    rw [hcount]
    exact (List.subperm_of_subset hnod hfiles).length_le
  · have hlen : files.map (·.2.len) = files.map (ZipFilePlan.scannedLen ∘ planned root) := by
      refine List.map_congr_left fun item hitem => ?_
      rw [Function.comp_apply, planned, plannedFile, (hrep item hitem).2]
      rfl
    rw [hlen, h.files_eq, List.map_map]
    exact sum_map_le_of_subset _ hnod hsubset

/-- If planning succeeds, the plan lists the whole tree within the limits. A tree that is above
one of them is refused with an error, wherever the limit is reached. -/
theorem zip_plan_lists_tree (access : DirectoryAccess) (alloc : Allocator) (root : Text)
    (settings : RuntimeSettings) :
    (∀ plan, planZip access alloc root settings = .ok plan →
      ∃ directories order, ListsTree access root settings plan directories order) ∧
    (∀ directories : List (List Text), directories.Nodup →
      (∀ path ∈ directories, access.Contains root path) →
      settings.maxSearchEntries.toNat < (directories.map (access.itemsAt root)).sum →
      ∃ error, planZip access alloc root settings = .error (.failed error)) ∧
    ∀ files : List (List Text × DirectoryEntry), files.Nodup →
      (∀ item ∈ files, access.Reports root item.1 item.2 ∧ item.2.isDir = false) →
      (settings.maxZipFiles ≠ 0 ∧ settings.maxZipFiles.toNat < files.length ∨
        settings.maxZipSize ≠ 0 ∧ settings.maxZipSize.toNat < (files.map (·.2.len)).sum) →
      ∃ error, planZip access alloc root settings = .error (.failed error) := by
  have hlists : ∀ plan, planZip access alloc root settings = .ok plan →
      ∃ directories order, ListsTree access root settings plan directories order := by
    intro plan hplan
    obtain ⟨final, s, scanned, hexp, hwalk, hfiles, -⟩ := planZip_walk hplan
    exact ⟨final, _, hwalk.listsTree hexp hfiles⟩
  -- what is not a plan is an error, since nothing panics
  have href : (∀ plan, planZip access alloc root settings ≠ .ok plan) →
      ∃ error, planZip access alloc root settings = .error (.failed error) := by
    intro hnone
    cases hres : planZip access alloc root settings with
    | ok plan => exact absurd hres (hnone plan)
    | error stop =>
      cases stop with
      | failed error => exact ⟨error, rfl⟩
      | panicked message => exact absurd hres (noPanic_planZip message)
  refine ⟨hlists, fun directories hnod hcon habove => href fun plan hplan => ?_,
    fun files hnod hrep habove => href fun plan hplan => ?_⟩
  · obtain ⟨all, order, htree⟩ := hlists plan hplan
    have hsum := sum_map_le_of_subset (access.itemsAt root) hnod fun path hpath =>
      (htree.mem_directories path).mpr (hcon path hpath)
    have hbelow := htree.scanned_le
    omega
  · obtain ⟨all, order, htree⟩ := hlists plan hplan
    obtain ⟨hcount, hsize⟩ := htree.le hnod hrep
    obtain ⟨hlimd, habove⟩ | ⟨hlimd, habove⟩ := habove
    · have := htree.count_le hlimd
      omega
    · have := htree.size_le hlimd
      omega

/-- A directory `d` with a file `g` in it, and a file `f`. -/
def smallTree : DirectoryAccess where
  scanEntries path :=
    if path = [] then .ok [.ok ⟨some ['d'], .found ⟨.directory, 0, none⟩⟩,
      .ok ⟨some ['f'], .found ⟨.regular, 3, none⟩⟩]
    else if path = ['d'] then .ok [.ok ⟨some ['g'], .found ⟨.regular, 4, none⟩⟩]
    else .error ⟨.notFound, "No such file or directory"⟩
  distinct path scan h := by
    split at h
    · cases h
      decide
    · split at h
      · cases h
        decide
      · cases h

def exactAllocator : Allocator :=
  ⟨fun s => some (s.files.length + 1), fun s => some (s.queue.length + 1)⟩

/-- Limits that the small tree just meets. -/
def tightSettings : RuntimeSettings where
  publicBaseUrl := ""
  maxUploadSize := 0
  blockedExtensions := []
  sharePasswordMinLength := 0
  sharePasswordMaxLength := 0
  shareUnlockMinutes := 0
  maxZipSize := 7
  maxZipFiles := 2
  maxSearchEntries := 3
  maxSearchResults := 0
  maxPreviewSize := 0
  previewExtensions := []
  imagePreviewExtensions := []
  pdfPreviewEnabled := false
  maxMediaPreviewSize := 0
  auditClientIpEnabled := false

theorem zip_plan_lists_tree_small :
    ∃ plan, planZip smallTree exactAllocator [] tightSettings = .ok plan ∧
      plan.files.map ZipFilePlan.archiveName = [['d', '/'], ['f'], ['d', '/', 'g']] ∧
      ∃ directories order, ListsTree smallTree [] tightSettings plan directories order := by
  have hnames : (planZip smallTree exactAllocator [] tightSettings).toOption.map
      (fun plan => plan.files.map ZipFilePlan.archiveName) =
        some [['d', '/'], ['f'], ['d', '/', 'g']] := by decide +kernel
  cases hplan : planZip smallTree exactAllocator [] tightSettings with
  | error stop =>
    rw [hplan] at hnames
    cases hnames
  | ok plan =>
    rw [hplan] at hnames
    exact ⟨plan, rfl, Option.some.inj hnames,
      (zip_plan_lists_tree smallTree exactAllocator [] tightSettings).1 plan hplan⟩

end Listing

end VaultLink
