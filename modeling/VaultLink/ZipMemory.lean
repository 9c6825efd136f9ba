import VaultLink.ZipPlanning

/-!
# The memory of a plan

What `ZipPlanMemory` counts is what the plan holds: the capacities of its two lists and the bytes
of all strings in them. The strings of a directory are charged when it is queued and given back
when it is finished; while it is scanned they are outside both lists.
-/
namespace VaultLink

/-- A successful `try_reserve_exact(1)` has made room for one more element. -/
structure Allocator.Reserves (alloc : Allocator) : Prop where
  files : ∀ s capacity, alloc.files s = some capacity → s.files.length < capacity
  queue : ∀ s capacity, alloc.queue s = some capacity → s.queue.length < capacity

/-- The bytes of the strings in the file list. -/
def fileBytes (files : List ZipFilePlan) : ℕ :=
  (files.map fun file => byteLength file.sourcePath + byteLength file.archiveName).sum

/-- What a plan holds together with `active` bytes of strings outside its lists. -/
def ZipPlanState.heldBytes (s : ZipPlanState) (active : ℕ) : ℕ :=
  sizeOfZipPlan + s.filesCapacity * sizeOfZipFilePlan +
    s.queueCapacity * sizeOfPendingZipDirectory + fileBytes s.files + queueBytes s.queue + active

variable (alloc : Allocator) (settings : RuntimeSettings) (root : Text)

/-- The states of `plan_zip` at its start and after each step of the walk, with the directory that
is being scanned. -/
inductive PlanReaches : Option (Text × Text) → ZipPlanState → Prop
  | started {s : ZipPlanState} (h : startPlan alloc root = .ok s) : PlanReaches none s
  | opened {s : ZipPlanState} {directory : Text × Text} {queue : List (Text × Text)}
      (h : PlanReaches none s) (hque : s.queue = directory :: queue) :
      PlanReaches (some directory) { s with queue }
  | accepted {s s' : ZipPlanState} {directory : Text × Text} {entry : DirectoryEntry}
      (h : PlanReaches (some directory) s)
      (hadd : addZipEntry alloc settings directory.1 directory.2 s entry = .ok s') :
      PlanReaches (some directory) s'
  | finished {s s' : ZipPlanState} {directory : Text × Text} (h : PlanReaches (some directory) s)
      (hrelease : releaseBytes (pendingBytes directory) s = .ok s') : PlanReaches none s'

/-- What is counted is held, within the limit, and the lists fit their capacities. -/
structure MemoryExact (active : ℕ) (s : ZipPlanState) : Prop where
  used_eq : s.used = s.heldBytes active
  used_le : s.used ≤ zipPlanMaxBytes
  files_le : s.files.length ≤ s.filesCapacity
  queue_le : s.queue.length ≤ s.queueCapacity

variable {alloc settings root} {access : DirectoryAccess} {s s' : ZipPlanState} {active bytes : ℕ}
  {directory : Text × Text}

section Accounting

/-- Strings move between the lists and the walk. -/
theorem MemoryExact.hold {active' count total : ℕ} {files : List ZipFilePlan}
    {queue : List (Text × Text)} (h : MemoryExact active s)
    (hbytes : fileBytes files + queueBytes queue + active' =
      fileBytes s.files + queueBytes s.queue + active)
    (hfiles : files.length ≤ s.filesCapacity) (hque : queue.length ≤ s.queueCapacity) :
    MemoryExact active'
      { s with files, queue, regularFileCount := count, totalData := total } := by
  refine ⟨?_, h.used_le, hfiles, hque⟩
  have hused := h.used_eq
  simp only [ZipPlanState.heldBytes] at hused ⊢
  omega

theorem MemoryExact.retainBytes (h : MemoryExact active s)
    (hret : retainBytes bytes s = .ok s') : MemoryExact (active + bytes) s' := by
  obtain ⟨hle, rfl⟩ := retainBytes_eq_ok.mp hret
  refine { h with used_eq := ?_, used_le := hle }
  have hused := h.used_eq
  simp only [ZipPlanState.heldBytes] at hused ⊢
  omega

theorem MemoryExact.releaseBytes (h : MemoryExact bytes s)
    (hrelease : releaseBytes bytes s = .ok s') : MemoryExact 0 s' := by
  unfold VaultLink.releaseBytes at hrelease
  split at hrelease
  · cases hrelease
    refine { h with used_eq := ?_, used_le := (Nat.sub_le _ _).trans h.used_le }
    have hused := h.used_eq
    simp only [ZipPlanState.heldBytes] at hused ⊢
    omega
  · cases hrelease

/-- The room after a reservation. -/
theorem reserved_room {length capacity capacity' : ℕ} {answer : Option ℕ}
    (hfits : length ≤ capacity) (hans : ∀ n, answer = some n → length < n)
    (h : (if length < capacity then some capacity else answer) = some capacity') :
    length < capacity' ∧ capacity ≤ capacity' := by
  split at h
  · cases h
    exact ⟨by assumption, le_rfl⟩
  · have := hans capacity' h
    omega

theorem MemoryExact.reserveFile (halloc : alloc.Reserves) (h : MemoryExact active s)
    (hrsve : reserveFile alloc s = .ok s') :
    MemoryExact active s' ∧ s'.files.length < s'.filesCapacity := by
  obtain ⟨capacity, hcap, hle, rfl⟩ := reserveFile_ok hrsve
  obtain ⟨hroom, hgrown⟩ := reserved_room h.files_le (halloc.files s) hcap
  refine ⟨⟨?_, hle, hroom.le, h.queue_le⟩, hroom⟩
  have hused := h.used_eq
  simp only [ZipPlanState.heldBytes, sizeOfZipFilePlan] at hused ⊢
  omega

theorem MemoryExact.reserveDirectory (halloc : alloc.Reserves) (h : MemoryExact active s)
    (hrsve : reserveDirectory alloc s = .ok s') :
    MemoryExact active s' ∧ s'.queue.length < s'.queueCapacity := by
  obtain ⟨capacity, hcap, hle, rfl⟩ := reserveDirectory_ok hrsve
  obtain ⟨hroom, hgrown⟩ := reserved_room h.queue_le (halloc.queue s) hcap
  refine ⟨⟨?_, hle, h.files_le, hroom.le⟩, hroom⟩
  have hused := h.used_eq
  simp only [ZipPlanState.heldBytes, sizeOfPendingZipDirectory] at hused ⊢
  omega

theorem fileBytes_append (files files' : List ZipFilePlan) :
    fileBytes (files ++ files') = fileBytes files + fileBytes files' := by
  simp [fileBytes]

theorem MemoryExact.addZipEntry {current archive : Text} {entry : DirectoryEntry}
    (halloc : alloc.Reserves) (h : MemoryExact active s)
    (hadd : addZipEntry alloc settings current archive s entry = .ok s') :
    MemoryExact active s' := by
  unfold VaultLink.addZipEntry at hadd
  split at hadd
  · cases hadd
  split at hadd
  · obtain ⟨_, -, hadd⟩ := except_bind_eq_ok.mp hadd
    obtain ⟨s₁, hfile, hadd⟩ := except_bind_eq_ok.mp hadd
    obtain ⟨s₂, hdir, hadd⟩ := except_bind_eq_ok.mp hadd
    obtain ⟨s₃, hret, hadd⟩ := except_bind_eq_ok.mp hadd
    cases hadd
    obtain ⟨h₁, hfiles⟩ := h.reserveFile halloc hfile
    obtain ⟨h₂, hque⟩ := h₁.reserveDirectory halloc hdir
    have h₃ := h₂.retainBytes hret
    obtain ⟨_, -, -, rfl⟩ := reserveDirectory_ok hdir
    obtain ⟨-, rfl⟩ := retainBytes_eq_ok.mp hret
    refine h₃.hold ?_ (by simpa [Nat.succ_le_iff] using hfiles)
      (by simpa [Nat.succ_le_iff] using hque)
    rw [fileBytes_append, queueBytes_append]
    simp only [fileBytes, queueBytes, pendingBytes, List.map_singleton, List.sum_singleton]
    omega
  · obtain ⟨_, -, hadd⟩ := except_bind_eq_ok.mp hadd
    obtain ⟨s₁, hfile, hadd⟩ := except_bind_eq_ok.mp hadd
    obtain ⟨s₂, hret, hadd⟩ := except_bind_eq_ok.mp hadd
    obtain ⟨h₁, hfiles⟩ := h.reserveFile halloc hfile
    have h₂ := h₁.retainBytes hret
    obtain ⟨-, rfl⟩ := retainBytes_eq_ok.mp hret
    dsimp only at hadd
    split_ifs at hadd
    cases hadd
    refine h₂.hold ?_ (by simpa [Nat.succ_le_iff] using hfiles) h₂.queue_le
    rw [fileBytes_append]
    simp only [fileBytes, List.map_singleton, List.sum_singleton]
    omega

theorem startPlan_exact (halloc : alloc.Reserves) (h : startPlan alloc root = .ok s) :
    MemoryExact 0 s := by
  unfold startPlan at h
  split at h
  · cases h
  rename_i capacity hcap
  dsimp only at h
  split at h
  · rename_i hle
    cases h
    refine ⟨?_, hle, le_rfl, halloc.queue _ capacity hcap⟩
    simp only [ZipPlanState.heldBytes, fileBytes, queueBytes, List.map_nil, List.sum_nil,
      List.map_singleton, List.sum_singleton]
    omega
  · cases h

/-- The bytes of the directory that is being scanned. -/
def activeBytes (directory : Option (Text × Text)) : ℕ := directory.elim 0 pendingBytes

theorem PlanReaches.exact {directory : Option (Text × Text)} (halloc : alloc.Reserves)
    (h : PlanReaches alloc settings root directory s) : MemoryExact (activeBytes directory) s := by
  induction h with
  | started hsta => exact startPlan_exact halloc hsta
  | opened _ hque ih =>
    refine ih.hold ?_ ih.files_le ?_
    · rw [hque]
      simp only [activeBytes, queueBytes, List.map_cons, List.sum_cons, Option.elim]
      omega
    · have := ih.queue_le
      rw [hque, List.length_cons] at this
      omega
  | accepted _ hadd ih => exact ih.addZipEntry halloc hadd
  | finished _ hrelease ih => exact ih.releaseBytes hrelease

end Accounting

section Runs

theorem PlanReaches.foldlM {entries : List DirectoryEntry}
    (h : PlanReaches alloc settings root (some directory) s)
    (hfold : entries.foldlM (addZipEntry alloc settings directory.1 directory.2) s = .ok s') :
    PlanReaches alloc settings root (some directory) s' := by
  induction entries generalizing s with
  | nil =>
    cases hfold
    exact h
  | cons entry entries ih =>
    rw [List.foldlM_cons] at hfold
    obtain ⟨s₁, hadd, hrest⟩ := except_bind_eq_ok.mp hfold
    exact ih (h.accepted hadd) hrest

/-- The loop passes through the states of the walk. -/
theorem PlanReaches.planLoop {scanned : ℕ} (h : PlanReaches alloc settings root none s)
    (hloop : planLoop access alloc settings s scanned = .ok s') :
    PlanReaches alloc settings root none s' := by
  fun_induction VaultLink.planLoop access alloc settings s scanned with
  | case1 =>
    cases hloop
    exact h
  | case5 s scanned current archive queue hque _ _ s₁ scanned' hscan s₂ hrelease ih =>
    obtain ⟨_, _, -, -, hfold, -⟩ := scanZipDirectory_ok hscan
    exact ih (.finished ((h.opened hque).foldlM hfold) hrelease) hloop
  | _ => cases hloop

/-- For every allocator that makes room as it says, at the start of planning, after each accepted
entry and after each finished directory the bytes counted are the bytes held, at most 16 MiB, and
the bytes of the scanned directory can be given back. A successful run ends in such a state, and
no run panics. -/
theorem zip_plan_memory_is_exact (access : DirectoryAccess) (alloc : Allocator)
    (halloc : alloc.Reserves) (settings : RuntimeSettings) (root : Text) :
    (∀ directory s, PlanReaches alloc settings root directory s →
      s.used = s.heldBytes (activeBytes directory) ∧ s.used ≤ zipPlanMaxBytes ∧
        activeBytes directory ≤ s.used) ∧
    (∀ s s', startPlan alloc root = .ok s → planLoop access alloc settings s 0 = .ok s' →
      PlanReaches alloc settings root none s') ∧
    ∀ message, planZip access alloc root settings ≠ .error (.panicked message) := by
  refine ⟨fun directory s h => ?_, fun s s' hsta hloop => ?_, noPanic_planZip⟩
  · obtain ⟨hused, hle, -, -⟩ := h.exact halloc
    refine ⟨hused, hle, ?_⟩
    rw [hused]
    exact Nat.le_add_left _ _
  · exact PlanReaches.planLoop (.started hsta) hloop

/-- The plan of the small tree, after three entries and two directories. -/
theorem zip_plan_memory_is_exact_small :
    ∃ s, PlanReaches exactAllocator tightSettings [] none s ∧ s.files.length = 3 ∧
      s.used = 227 ∧ s.used = s.heldBytes 0 := by
  have halloc : exactAllocator.Reserves := by
    constructor <;> rintro s _ ⟨⟩ <;> exact Nat.lt_succ_self _
  have hsta : startPlan exactAllocator [] = .ok ⟨[([], [])], 1, [], 0, 72, 0, 0⟩ := by decide
  have hplanned : (planLoop smallTree exactAllocator tightSettings ⟨[([], [])], 1, [], 0, 72, 0, 0⟩
      0).toOption.map (fun s => (s.files.length, s.used)) = some (3, 227) := by decide +kernel
  obtain ⟨hexact, hruns, -⟩ :=
    zip_plan_memory_is_exact smallTree exactAllocator halloc tightSettings []
  cases hloop : planLoop smallTree exactAllocator tightSettings ⟨[([], [])], 1, [], 0, 72, 0, 0⟩ 0
    with
  | error =>
    rw [hloop] at hplanned
    cases hplanned
  | ok s =>
    rw [hloop] at hplanned
    obtain ⟨hlen, hused⟩ := Prod.mk.inj (Option.some.inj hplanned)
    have hreached := hruns _ s hsta hloop
    exact ⟨s, hreached, hlen, hused, (hexact none s hreached).1⟩

end Runs

end VaultLink
