import Mathlib.Algebra.GroupWithZero.Nat
import VaultLink.DirectoryScan
import VaultLink.RuntimeSettings

/-!
# Planning a ZIP archive

A directory is downloaded as an archive of everything below it. The plan is made first: a
breadth-first walk over the directories, in batches, with a budget of scanned entries and
limits on files, bytes, names and on the memory the plan itself takes. What the memory
allocator answers is a parameter; the sizes of records are those of a 64-bit target.
-/
namespace VaultLink

section Records

inductive ZipBuildError
  | limit (message : String)
  | source (error : IoError)
  | output (error : IoError)
deriving DecidableEq

/-- How planning ends without a plan: an error, or an expectation that did not hold. -/
inductive ZipStop
  | failed (error : ZipBuildError)
  | panicked (message : String)
deriving DecidableEq

structure ZipFilePlan where
  sourcePath : Text
  archiveName : Text
  scannedLen : ℕ
  isDirectory : Bool
deriving DecidableEq

structure ZipPlan where
  files : List ZipFilePlan
  maxDataSize : ℕ
  estimatedArchiveSize : ℕ
deriving DecidableEq

def zipPlanMaxBytes : ℕ := 16 * 1024 * 1024

/-- `size_of::<ZipPlan>()`. -/
def sizeOfZipPlan : ℕ := 40

/-- `size_of::<ZipFilePlan>()`. -/
def sizeOfZipFilePlan : ℕ := 48

/-- `size_of::<PendingZipDirectory>()`. -/
def sizeOfPendingZipDirectory : ℕ := 32

/-- What `plan_zip` has gathered so far: the queue and the files with the capacities allocated for
them, `ZipPlanMemory`, and the counters. -/
structure ZipPlanState where
  queue : List (Text × Text)
  queueCapacity : ℕ
  files : List ZipFilePlan
  filesCapacity : ℕ
  used : ℕ
  regularFileCount : ℕ
  totalData : ℕ
deriving DecidableEq

/-- The capacity after an allocation, or `none` if it fails. -/
structure Allocator where
  files : ZipPlanState → Option ℕ
  queue : ZipPlanState → Option ℕ

/-- `scan_entries` of a tree that does not change; a directory holds a name only once. -/
structure DirectoryAccess where
  scanEntries : Text → Except IoError ReadDir
  distinct : ∀ path scan, scanEntries path = .ok scan → scan.names.Nodup

end Records

section Memory

def memoryExceeded : ZipStop := .failed (.limit "zip plan memory limit exceeded")

/-- `ZipPlanMemory::retain_bytes`; a sum that overflows is above the limit as well. -/
def retainBytes (bytes : ℕ) (s : ZipPlanState) : Except ZipStop ZipPlanState :=
  if s.used + bytes ≤ zipPlanMaxBytes then .ok { s with used := s.used + bytes }
  else .error memoryExceeded

def releaseBytes (bytes : ℕ) (s : ZipPlanState) : Except ZipStop ZipPlanState :=
  if bytes ≤ s.used then .ok { s with used := s.used - bytes }
  else .error (.panicked "ZIP plan memory accounting underflow")

def reserveFile (alloc : Allocator) (s : ZipPlanState) : Except ZipStop ZipPlanState :=
  match if s.files.length < s.filesCapacity then some s.filesCapacity else alloc.files s with
  | none => .error memoryExceeded
  | some capacity =>
    retainBytes ((capacity - s.filesCapacity) * sizeOfZipFilePlan)
      { s with filesCapacity := capacity }

def reserveDirectory (alloc : Allocator) (s : ZipPlanState) : Except ZipStop ZipPlanState :=
  match if s.queue.length < s.queueCapacity then some s.queueCapacity else alloc.queue s with
  | none => .error memoryExceeded
  | some capacity =>
    retainBytes ((capacity - s.queueCapacity) * sizeOfPendingZipDirectory)
      { s with queueCapacity := capacity }

/-- The strings of a pending directory. -/
def pendingBytes (pending : Text × Text) : ℕ := byteLength pending.1 + byteLength pending.2

/-- The start of `plan_zip`: the root is queued, and `ZipPlanMemory::new` accounts for it. -/
def startPlan (alloc : Allocator) (rootPath : Text) : Except ZipStop ZipPlanState :=
  match alloc.queue ⟨[], 0, [], 0, 0, 0, 0⟩ with
  | none => .error memoryExceeded
  | some capacity =>
    let used := sizeOfZipPlan + capacity * sizeOfPendingZipDirectory + pendingBytes (rootPath, [])
    if used ≤ zipPlanMaxBytes then .ok ⟨[(rootPath, [])], capacity, [], 0, used, 0, 0⟩
    else .error memoryExceeded

end Memory

section Walk

def validateZipName (name : Text) : Except ZipStop Unit :=
  if 2 ^ 16 - 1 < byteLength name then .error (.failed (.limit "zip entry name is too long"))
  else .ok ()

def addZipEntry (alloc : Allocator) (settings : RuntimeSettings)
    (currentDirectory archivePrefix : Text) (s : ZipPlanState) (entry : DirectoryEntry) :
    Except ZipStop ZipPlanState :=
  if !safeFilename entry.name then
    .error (.failed (.source ⟨.invalidData, "unsafe ZIP entry name"⟩))
  else
    let sourcePath := joinDisplay currentDirectory entry.name
    let archiveName := joinDisplay archivePrefix entry.name
    if entry.isDir then do
      let directoryName := archiveName ++ ['/']
      validateZipName directoryName
      let s ← reserveFile alloc s
      let s ← reserveDirectory alloc s
      let s ← retainBytes
        (byteLength sourcePath * 2 + byteLength archiveName + byteLength directoryName) s
      return { s with
        files := s.files ++ [⟨sourcePath, directoryName, 0, true⟩]
        queue := s.queue ++ [(sourcePath, archiveName)] }
    else do
      validateZipName archiveName
      let s ← reserveFile alloc s
      let s ← retainBytes (byteLength sourcePath + byteLength archiveName) s
      let regularFileCount := saturatingAddU64 s.regularFileCount 1
      if settings.maxZipFiles ≠ 0 && settings.maxZipFiles.toNat < regularFileCount then
        .error (.failed (.limit "zip file count limit exceeded"))
      else if 2 ^ 64 ≤ s.totalData + entry.len then .error (.failed (.limit "zip size overflow"))
      else if settings.maxZipSize ≠ 0 && settings.maxZipSize.toNat < s.totalData + entry.len then
        .error (.failed (.limit "zip size limit exceeded"))
      else
        return { s with
          files := s.files ++ [⟨sourcePath, archiveName, entry.len, false⟩]
          regularFileCount
          totalData := s.totalData + entry.len }

def scanZipDirectory (access : DirectoryAccess) (alloc : Allocator) (settings : RuntimeSettings)
    (s : ZipPlanState) (scannedEntries : ℕ) (currentDirectory archivePrefix : Text) :
    Except ZipStop (ZipPlanState × ℕ) :=
  match access.scanEntries currentDirectory with
  | .error error => .error (.failed (.source error))
  | .ok scan =>
    match scanBounded (fun error => .failed (.source error))
        (addZipEntry alloc settings currentDirectory archivePrefix)
        settings.maxSearchEntries.toNat 100 scannedEntries s scan with
    | .error stop => .error stop
    | .ok (s, scannedEntries, exceeded) =>
      if exceeded then .error (.failed (.limit "zip scan entry limit exceeded"))
      else .ok (s, scannedEntries)

end Walk

section Steps

variable {alloc : Allocator} {settings : RuntimeSettings} {access : DirectoryAccess}
  {current archive : Text} {s s' : ZipPlanState} {entry : DirectoryEntry}
  {entries : List DirectoryEntry} {scanned scanned' : ℕ}

/-- The plan's record of an entry. -/
def plannedFile (current archive : Text) (entry : DirectoryEntry) : ZipFilePlan :=
  if entry.isDir then
    ⟨joinDisplay current entry.name, joinDisplay archive entry.name ++ ['/'], 0, true⟩
  else ⟨joinDisplay current entry.name, joinDisplay archive entry.name, entry.len, false⟩

/-- The directory an entry queues. -/
def queuedDirectory (current archive : Text) (entry : DirectoryEntry) : List (Text × Text) :=
  if entry.isDir then [(joinDisplay current entry.name, joinDisplay archive entry.name)] else []

/-- The bytes of the strings in a queue. -/
def queueBytes (queue : List (Text × Text)) : ℕ := (queue.map pendingBytes).sum

theorem queueBytes_append (queue queue' : List (Text × Text)) :
    queueBytes (queue ++ queue') = queueBytes queue + queueBytes queue' := by
  simp [queueBytes]

/-- Only the accounting of the memory grows. -/
structure Accounts (bytes : ℕ) (s s' : ZipPlanState) : Prop where
  queue_eq : s'.queue = s.queue
  files_eq : s'.files = s.files
  count_eq : s'.regularFileCount = s.regularFileCount
  total_eq : s'.totalData = s.totalData
  used_le : s.used + bytes ≤ s'.used

theorem Accounts.trans {bytes bytes' : ℕ} {s₁ s₂ s₃ : ZipPlanState} (h : Accounts bytes s₁ s₂)
    (h' : Accounts bytes' s₂ s₃) : Accounts (bytes + bytes') s₁ s₃ where
  queue_eq := h'.queue_eq.trans h.queue_eq
  files_eq := h'.files_eq.trans h.files_eq
  count_eq := h'.count_eq.trans h.count_eq
  total_eq := h'.total_eq.trans h.total_eq
  used_le := by
    have := h.used_le
    have := h'.used_le
    omega

theorem retainBytes_eq_ok {bytes : ℕ} : retainBytes bytes s = .ok s' ↔
    s.used + bytes ≤ zipPlanMaxBytes ∧ s' = { s with used := s.used + bytes } := by
  unfold retainBytes
  split <;> simp_all [eq_comm]

theorem reserveFile_ok (h : reserveFile alloc s = .ok s') : ∃ capacity,
    (if s.files.length < s.filesCapacity then some s.filesCapacity else alloc.files s) =
      some capacity ∧ s.used + (capacity - s.filesCapacity) * sizeOfZipFilePlan ≤ zipPlanMaxBytes ∧
    s' = { s with
      filesCapacity := capacity
      used := s.used + (capacity - s.filesCapacity) * sizeOfZipFilePlan } := by
  unfold reserveFile at h
  split at h
  · cases h
  · rename_i capacity hcap
    exact ⟨capacity, hcap, retainBytes_eq_ok.mp h⟩

theorem reserveDirectory_ok (h : reserveDirectory alloc s = .ok s') : ∃ capacity,
    (if s.queue.length < s.queueCapacity then some s.queueCapacity else alloc.queue s) =
      some capacity ∧
    s.used + (capacity - s.queueCapacity) * sizeOfPendingZipDirectory ≤ zipPlanMaxBytes ∧
    s' = { s with
      queueCapacity := capacity
      used := s.used + (capacity - s.queueCapacity) * sizeOfPendingZipDirectory } := by
  unfold reserveDirectory at h
  split at h
  · cases h
  · rename_i capacity hcap
    exact ⟨capacity, hcap, retainBytes_eq_ok.mp h⟩

theorem retainBytes_accounts {bytes : ℕ} (h : retainBytes bytes s = .ok s') :
    Accounts bytes s s' := by
  obtain ⟨-, rfl⟩ := retainBytes_eq_ok.mp h
  exact ⟨rfl, rfl, rfl, rfl, le_rfl⟩

theorem reserveFile_accounts (h : reserveFile alloc s = .ok s') : Accounts 0 s s' := by
  obtain ⟨capacity, -, -, rfl⟩ := reserveFile_ok h
  exact ⟨rfl, rfl, rfl, rfl, Nat.le_add_right _ _⟩

theorem reserveDirectory_accounts (h : reserveDirectory alloc s = .ok s') : Accounts 0 s s' := by
  obtain ⟨capacity, -, -, rfl⟩ := reserveDirectory_ok h
  exact ⟨rfl, rfl, rfl, rfl, Nat.le_add_right _ _⟩

/-- What a successful `add_zip_entry` does. -/
structure AddsEntry (settings : RuntimeSettings) (current archive : Text) (entry : DirectoryEntry)
    (s s' : ZipPlanState) : Prop where
  safe : safeFilename entry.name = true
  name_le : byteLength (plannedFile current archive entry).archiveName ≤ 2 ^ 16 - 1
  files_eq : s'.files = s.files ++ [plannedFile current archive entry]
  queue_eq : s'.queue = s.queue ++ queuedDirectory current archive entry
  used_le : s.used + queueBytes (queuedDirectory current archive entry) ≤ s'.used
  count_eq : s'.regularFileCount =
    if entry.isDir then s.regularFileCount else saturatingAddU64 s.regularFileCount 1
  count_le : entry.isDir = false → settings.maxZipFiles ≠ 0 →
    s'.regularFileCount ≤ settings.maxZipFiles.toNat
  total_eq : s'.totalData = s.totalData + (plannedFile current archive entry).scannedLen
  total_le : entry.isDir = false → settings.maxZipSize ≠ 0 →
    s'.totalData ≤ settings.maxZipSize.toNat

theorem validateZipName_ok {name : Text} (h : validateZipName name = .ok ()) :
    byteLength name ≤ 2 ^ 16 - 1 := by
  unfold validateZipName at h
  split at h
  · cases h
  · omega

theorem addZipEntry_ok (h : addZipEntry alloc settings current archive s entry = .ok s') :
    AddsEntry settings current archive entry s s' := by
  unfold addZipEntry at h
  split at h
  · cases h
  rename_i hsafe
  have hsafe : safeFilename entry.name = true := by simpa using hsafe
  split at h
  · rename_i hdir
    obtain ⟨_, hname, h⟩ := except_bind_eq_ok.mp h
    obtain ⟨s₁, hfile, h⟩ := except_bind_eq_ok.mp h
    obtain ⟨s₂, hdire, h⟩ := except_bind_eq_ok.mp h
    obtain ⟨s₃, hret, h⟩ := except_bind_eq_ok.mp h
    cases h
    have hacts := ((reserveFile_accounts hfile).trans
      (reserveDirectory_accounts hdire)).trans (retainBytes_accounts hret)
    refine ⟨hsafe, ?_, ?_, ?_, ?_, ?_, ?_, ?_, ?_⟩
    · rw [plannedFile, if_pos hdir]
      exact validateZipName_ok hname
    · rw [plannedFile, if_pos hdir]
      exact congrArg (· ++ _) hacts.files_eq
    · rw [queuedDirectory, if_pos hdir]
      exact congrArg (· ++ _) hacts.queue_eq
    · rw [queuedDirectory, if_pos hdir]
      have hused := hacts.used_le
      simp only [queueBytes, List.map_singleton, List.sum_singleton, pendingBytes]
      omega
    · rw [if_pos hdir]
      exact hacts.count_eq
    · rw [hdir]
      exact nofun
    · rw [plannedFile, if_pos hdir]
      exact hacts.total_eq
    · rw [hdir]
      exact nofun
  · rename_i hfile
    obtain ⟨_, hname, h⟩ := except_bind_eq_ok.mp h
    obtain ⟨s₁, hrsve, h⟩ := except_bind_eq_ok.mp h
    obtain ⟨s₂, hret, h⟩ := except_bind_eq_ok.mp h
    have hacts := (reserveFile_accounts hrsve).trans (retainBytes_accounts hret)
    dsimp only at h
    split at h
    · cases h
    rename_i hcount
    split at h
    · cases h
    split at h
    · cases h
    rename_i hsize
    cases h
    refine ⟨hsafe, ?_, ?_, ?_, ?_, ?_, ?_, ?_, ?_⟩
    · rw [plannedFile, if_neg hfile]
      exact validateZipName_ok hname
    · rw [plannedFile, if_neg hfile]
      exact congrArg (· ++ _) hacts.files_eq
    · rw [queuedDirectory, if_neg hfile, List.append_nil]
      exact hacts.queue_eq
    · rw [queuedDirectory, if_neg hfile]
      have hused := hacts.used_le
      simp only [queueBytes, List.map_nil, List.sum_nil]
      omega
    · rw [if_neg hfile]
      exact congrArg (saturatingAddU64 · 1) hacts.count_eq
    · intro _ hlimd
      simpa [hlimd] using hcount
    · rw [plannedFile, if_neg hfile]
      exact congrArg (· + entry.len) hacts.total_eq
    · intro _ hlimd
      simpa [hlimd] using hsize

/-- What the entries of a directory do one after the other. -/
structure AddsEntries (settings : RuntimeSettings) (current archive : Text)
    (entries : List DirectoryEntry) (s s' : ZipPlanState) : Prop where
  safe : ∀ entry ∈ entries, safeFilename entry.name = true
  name_le : ∀ entry ∈ entries, byteLength (plannedFile current archive entry).archiveName ≤
    2 ^ 16 - 1
  files_eq : s'.files = s.files ++ entries.map (plannedFile current archive)
  queue_eq : s'.queue = s.queue ++ entries.flatMap (queuedDirectory current archive)
  used_le : s.used + queueBytes (entries.flatMap (queuedDirectory current archive)) ≤ s'.used
  count_eq : ∀ count, s.regularFileCount = min count (2 ^ 64 - 1) →
    s'.regularFileCount = min (count + entries.countP (!·.isDir)) (2 ^ 64 - 1)
  count_le : settings.maxZipFiles ≠ 0 → s.regularFileCount ≤ settings.maxZipFiles.toNat →
    s'.regularFileCount ≤ settings.maxZipFiles.toNat
  total_eq : s'.totalData =
    s.totalData + (entries.map fun entry => (plannedFile current archive entry).scannedLen).sum
  total_le : settings.maxZipSize ≠ 0 → s.totalData ≤ settings.maxZipSize.toNat →
    s'.totalData ≤ settings.maxZipSize.toNat

theorem AddsEntries.nil : AddsEntries settings current archive [] s s :=
  ⟨nofun, nofun, by simp, by simp, by simp [queueBytes], fun _ h => by simpa using h, fun _ h => h,
    by simp, fun _ h => h⟩

theorem AddsEntries.cons {s₁ : ZipPlanState} (h : AddsEntry settings current archive entry s s₁)
    (h' : AddsEntries settings current archive entries s₁ s') :
    AddsEntries settings current archive (entry :: entries) s s' where
  safe := List.forall_mem_cons.mpr ⟨h.safe, h'.safe⟩
  name_le := List.forall_mem_cons.mpr ⟨h.name_le, h'.name_le⟩
  files_eq := by
    rw [h'.files_eq, h.files_eq, List.map_cons, List.append_assoc, List.singleton_append]
  queue_eq := by
    rw [h'.queue_eq, h.queue_eq, List.flatMap_cons, List.append_assoc]
  used_le := by
    have := h.used_le
    have := h'.used_le
    rw [List.flatMap_cons, queueBytes_append]
    omega
  count_eq := by
    intro count hcount
    have hfirst := h.count_eq
    rw [List.countP_cons, Nat.add_comm (entries.countP _), ← Nat.add_assoc]
    refine h'.count_eq _ ?_
    rw [hfirst, hcount]
    cases entry.isDir with
    | true => simp
    | false =>
      simp only [Bool.false_eq_true, if_false, saturatingAddU64, Bool.not_false, if_true]
      omega
  count_le := by
    intro hlimd hle
    refine h'.count_le hlimd ?_
    cases hdir : entry.isDir with
    | true =>
      rw [h.count_eq, if_pos hdir]
      exact hle
    | false => exact h.count_le hdir hlimd
  total_eq := by
    rw [h'.total_eq, h.total_eq, List.map_cons, List.sum_cons, Nat.add_assoc]
  total_le := by
    intro hlimd hle
    refine h'.total_le hlimd ?_
    cases hdir : entry.isDir with
    | true =>
      rw [h.total_eq, plannedFile, if_pos hdir]
      exact hle
    | false => exact h.total_le hdir hlimd

theorem foldlM_addZipEntry_ok
    (h : entries.foldlM (addZipEntry alloc settings current archive) s = .ok s') :
    AddsEntries settings current archive entries s s' := by
  induction entries generalizing s with
  | nil =>
    cases h
    exact .nil
  | cons entry entries ih =>
    rw [List.foldlM_cons] at h
    obtain ⟨s₁, hent, hrest⟩ := except_bind_eq_ok.mp h
    exact .cons (addZipEntry_ok hent) (ih hrest)

/-- A directory that was scanned successfully was read to its end, within the budget. -/
theorem scanZipDirectory_ok
    (h : scanZipDirectory access alloc settings s scanned current archive = .ok (s', scanned')) :
    ∃ scan items, access.scanEntries current = .ok scan ∧ scan.Reads items ∧
      (visibleEntries items).foldlM (addZipEntry alloc settings current archive) s = .ok s' ∧
      scanned' = scanned + scan.length ∧
      scan.length ≤ settings.maxSearchEntries.toNat - scanned := by
  unfold scanZipDirectory at h
  split at h
  · cases h
  rename_i scan hscan
  split at h
  · cases h
  rename_i s₁ scanned₁ exceeded hbounded
  obtain ⟨hvisits, hscanned, hexceeded⟩ := (scanBounded_ok_iff (by decide)).mp hbounded
  split at h
  · cases h
  rename_i hwithin
  cases h
  have hlen : scan.length ≤ settings.maxSearchEntries.toNat - scanned := by
    rw [hexceeded] at hwithin
    simpa using hwithin
  obtain ⟨items, hreads, hfold⟩ := (visits_of_length_lt hlen).mp hvisits
  refine ⟨scan, items, hscan, hreads, hfold, ?_, hlen⟩
  rw [hscanned, Nat.min_eq_left hlen]

theorem length_queued_le (entries : List DirectoryEntry) :
    (entries.flatMap (queuedDirectory current archive)).length ≤ entries.length := by
  induction entries with
  | nil => exact le_rfl
  | cons entry entries ih =>
    rw [List.flatMap_cons, List.length_append, List.length_cons]
    have hone : (queuedDirectory current archive entry).length ≤ 1 := by
      unfold queuedDirectory
      split <;> simp
    omega

/-- The budget pays for every directory that is queued. -/
theorem scanZipDirectory_measure
    (h : scanZipDirectory access alloc settings s scanned current archive = .ok (s', scanned')) :
    settings.maxSearchEntries.toNat - scanned' + s'.queue.length ≤
      settings.maxSearchEntries.toNat - scanned + s.queue.length := by
  obtain ⟨scan, items, -, hreads, hfold, rfl, hlen⟩ := scanZipDirectory_ok h
  have hqueued : (List.flatMap (queuedDirectory current archive) (visibleEntries items)).length ≤
      (visibleEntries items).length := length_queued_le _
  have hvis : (visibleEntries items).length ≤ items.length := List.length_filterMap_le _ _
  rw [(foldlM_addZipEntry_ok hfold).queue_eq, List.length_append, ← hreads.length_eq]
  rw [← hreads.length_eq] at hlen
  omega

end Steps

section Planning

/-- The loop of `plan_zip`. -/
def planLoop (access : DirectoryAccess) (alloc : Allocator) (settings : RuntimeSettings)
    (s : ZipPlanState) (scannedEntries : ℕ) : Except ZipStop ZipPlanState :=
  match _ : s.queue with
  | [] => .ok s
  | (currentDirectory, archivePrefix) :: queue =>
    let activeDirectoryBytes := byteLength currentDirectory + byteLength archivePrefix
    if 2 ^ 64 ≤ activeDirectoryBytes then .error memoryExceeded
    else
      match _ : scanZipDirectory access alloc settings { s with queue } scannedEntries
          currentDirectory archivePrefix with
      | .error stop => .error stop
      | .ok (s', scannedEntries) =>
        match _ : releaseBytes activeDirectoryBytes s' with
        | .error stop => .error stop
        | .ok s => planLoop access alloc settings s scannedEntries
termination_by settings.maxSearchEntries.toNat - scannedEntries + s.queue.length
decreasing_by
  rename_i hqueue _ hscan hrelease
  have hmeasure := scanZipDirectory_measure hscan
  have hreleased : s.queue = s'.queue := by
    unfold releaseBytes at hrelease
    split at hrelease
    · cases hrelease
      rfl
    · cases hrelease
  rw [hreleased, hqueue, List.length_cons]
  dsimp only at hmeasure
  omega

def zip64EntryFixedSize : ℕ := 30 + 20 + 24 + 46 + 28

def zip64ArchiveEndSize : ℕ := 22 + 76

/-- `estimate_zip_archive_size`; the lengths of names are `u64` as they are. -/
def estimateZipArchiveSize (files : List ZipFilePlan) : Except ZipBuildError ℕ :=
  files.foldlM (fun size file =>
    let next := size + file.scannedLen + zip64EntryFixedSize + byteLength file.archiveName * 2
    if next < 2 ^ 64 then .ok next else .error (.limit "zip archive size overflow"))
    zip64ArchiveEndSize

def planZip (access : DirectoryAccess) (alloc : Allocator) (rootPath : Text)
    (settings : RuntimeSettings) : Except ZipStop ZipPlan := do
  let s ← startPlan alloc rootPath
  let s ← planLoop access alloc settings s 0
  let estimatedArchiveSize ← (estimateZipArchiveSize s.files).mapError .failed
  return ⟨s.files, settings.maxZipSize.toNat, estimatedArchiveSize⟩

end Planning

end VaultLink
