import VaultLink.RecoveryRules
import VaultLink.SharePaths

/-!
# The states of a rename

Between its first durable step and its last a rename is in one of a few states: the entry is
under its old or its new name, the journal is missing or in a phase that goes with that name,
and the shares are rewritten only once the entry has moved. Each step of the rename and of its
recovery leads from one of these states to another, and so does a power loss during it.
-/
namespace VaultLink

open WriteBack (replay survive settle flush)

/-- The world is synchronized, with these files in sight. -/
abbrev Stored (w : World) (g : FileMap) (s : Store) : Prop :=
  Holds Location.isTemporary w g [] s

abbrev Keeps {ε α : Type} (env : Environment) (𝒞 : FileMap → Store → Prop)
    (m : Action Environment World ε α) (w : World) (Q : α → World → Prop)
    (E : ε → World → Prop) : Prop :=
  Safe Location.isTemporary env 𝒞 m w Q E

/-- The files between two operations: objects with one name each, and nothing that is pending. -/
structure Idle (g : FileMap) : Prop where
  unique : ∀ directory name directory' name' identity type type',
    g (.visible directory name) = some (.object identity type) →
    g (.visible directory' name') = some (.object identity type') →
    directory = directory' ∧ name = name'
  objects : ∀ directory name content, g (.visible directory name) ≠ some (.record content)
  no_journal : ∀ token, g (.staged (.operation token)) = none
  no_manifest : ∀ token, g (.staged (.deletionManifest token)) = none
  no_pending : ∀ token, g (.staged (.deletionPending token)) = none

variable {g : FileMap}

theorem Idle.noManifests (h : Idle g) : NoManifests g :=
  fun token => ⟨h.no_manifest token, h.no_pending token⟩

variable {name : Text}

/-- What is accepted as the source of a rename or a delete. -/
theorem Idle.source (h : Idle g) {directory : Directory} {entry : Entry}
    (hent : g (.visible directory name) = some entry) {refusal : String} {kind : EntryKind}
    (hkind : sourceKind refusal entry = .ok kind) :
    ∃ identity, entry = .object identity kind.type := by
  match entry with
  | .object identity .file =>
    cases hkind
    exact ⟨identity, rfl⟩
  | .object identity .directory =>
    cases hkind
    exact ⟨identity, rfl⟩
  | .object identity (.symlink _) | .object identity .special => cases hkind
  | .record content => exact absurd hent (h.objects directory name content)

section Paths

variable {parent : List Text}

theorem splitParentName_joinRelative (hpar : ∀ component ∈ parent, PlainComponent component)
    (hname : safeAdminFilename name = true) :
    splitParentName (joinRelative parent name) = .ok (parent, name) := by
  have hall : ∀ component ∈ parent ++ [name], PlainComponent component := by
    intro component hmem
    obtain hmem | hmem := List.mem_append.mp hmem
    · exact hpar component hmem
    · rw [List.mem_singleton.mp hmem]
      exact .of_safeAdminFilename hname
  simp [splitParentName, joinRelative, validateRelative_render hall, hname]

theorem splitParentName_ok {relative : Text} (h : splitParentName relative = .ok (parent, name)) :
    (∀ component ∈ parent, PlainComponent component) ∧ safeAdminFilename name = true := by
  unfold splitParentName at h
  split at h
  · cases h
  rename_i components hparts
  split at h
  · cases h
  split at h
  · rename_i hsafe
    cases h
    exact ⟨fun component hmem => PlainComponent.of_validateRelative hparts component
      (List.mem_of_mem_dropLast hmem), hsafe⟩
  · cases h

theorem joinRelative_injective {other : Text}
    (h : joinRelative parent name = joinRelative parent other) : name = other := by
  rw [joinRelative_eq, joinRelative_eq] at h
  exact List.append_cancel_left h

end Paths

section Journal

variable {g : FileMap} {token : ℕ} {operation : DurableFileOperation}

theorem withJournal_self : withJournal g token operation (.staged (.operation token)) =
    some (.record (.operation operation)) := by
  simp [withJournal]

theorem withJournal_of_ne {location : Location} (h : location ≠ .staged (.operation token)) :
    withJournal g token operation location = g location :=
  Function.update_of_ne h _ _

theorem withJournal_again (g : FileMap) (token : ℕ) (operation operation' : DurableFileOperation) :
    withJournal (withJournal g token operation) token operation' =
      withJournal g token operation' := by
  simp [withJournal]

theorem withJournal_removed (operation : DurableFileOperation)
    (h : g (.staged (.operation token)) = none) :
    Function.update (withJournal g token operation) (.staged (.operation token)) none = g := by
  rw [withJournal, Function.update_idem]
  exact Function.update_eq_self_iff.mpr h.symm

end Journal

/-- A rename of an existing entry between operations. -/
structure RenameCase where
  files : FileMap
  db : Store
  idle : Idle files
  forbidSymlinks : Bool
  parentPath : List Text
  parent : Directory
  oldName : Text
  newName : Text
  identity : FileIdentity
  kind : EntryKind
  plain : ∀ component ∈ parentPath, PlainComponent component
  old_safe : safeAdminFilename oldName = true
  new_safe : safeAdminFilename newName = true
  names_ne : oldName ≠ newName
  resolves : resolve forbidSymlinks files parentPath = some parent
  entry : files (.visible parent oldName) = some (.object identity kind.type)

namespace RenameCase

variable (c : RenameCase)

def oldPath : Text := joinRelative c.parentPath c.oldName

def newPath : Text := joinRelative c.parentPath c.newName

def old : Location := .visible c.parent c.oldName

def new : Location := .visible c.parent c.newName

def operation (phase : DurableRenamePhase) : RenameOperation :=
  { originalPath := c.oldPath, newPath := c.newPath, kind := c.kind
    device := c.identity.device, inode := c.identity.inode, phase }

def journal (phase : DurableRenamePhase) : DurableFileOperation := .rename (c.operation phase)

/-- The files after the move. -/
def moved : FileMap :=
  Function.update (Function.update c.files c.old none) c.new
    (some (.object c.identity c.kind.type))

def Before (s : Store) : Prop := shareRows s = shareRows c.db

def After (s : Store) : Prop :=
  shareRows s = renamedRows c.oldPath c.newPath (c.kind = .directory) (shareRows c.db)

/-- The states of the rename. -/
inductive Class : FileMap → Store → Prop
  | untouched {s : Store} (before : c.Before s) : Class c.files s
  | intent {token : ℕ} {s : Store} (before : c.Before s) :
    Class (withJournal c.files token (c.journal .intent)) s
  | renamed {token : ℕ} {s : Store} (free : c.files c.new = none) (before : c.Before s) :
    Class (withJournal c.moved token (c.journal .intent)) s
  | recorded {token : ℕ} {s : Store} (free : c.files c.new = none)
    (rows : c.Before s ∨ c.After s) :
    Class (withJournal c.moved token (c.journal .moved)) s
  | finished {s : Store} (free : c.files c.new = none) (after : c.After s) :
    Class c.moved s

/-- The states in which nothing is pending. -/
inductive Settled : FileMap → Store → Prop
  | unchanged {s : Store} (before : c.Before s) : Settled c.files s
  | renamed {s : Store} (free : c.files c.new = none) (after : c.After s) : Settled c.moved s

section Facts

def pair : ℕ × ℕ := (c.identity.device, c.identity.inode)

theorem old_ne_new : c.old ≠ c.new := by
  simp [old, new, c.names_ne]

@[simp] theorem old_ne_staged (name : StagingName) : c.old ≠ .staged name := by
  simp [old]

@[simp] theorem new_ne_staged (name : StagingName) : c.new ≠ .staged name := by
  simp [new]

theorem old_in_sight : c.old.isTemporary = false := rfl

theorem new_in_sight : c.new.isTemporary = false := rfl

theorem moved_old : c.moved c.old = none := by
  simp [moved, c.old_ne_new]

theorem moved_new : c.moved c.new = some (.object c.identity c.kind.type) := by
  simp [moved]

theorem moved_of_ne {location : Location} (hold : location ≠ c.old) (hnew : location ≠ c.new) :
    c.moved location = c.files location := by
  simp [moved, hold, hnew]

theorem moved_staged (name : StagingName) : c.moved (.staged name) = c.files (.staged name) :=
  c.moved_of_ne (c.old_ne_staged name).symm (c.new_ne_staged name).symm

theorem journaled_old (token : ℕ) (operation : DurableFileOperation) :
    withJournal c.files token operation c.old = some (.object c.identity c.kind.type) := by
  rw [withJournal_of_ne (c.old_ne_staged _)]
  exact c.entry

theorem identityOf_entry :
    identityOf (some (.object c.identity c.kind.type)) c.pair c.kind = .expected := by
  simp [identityOf, Entry.is, pair]

theorem entry_of_expected {entry : Option Entry}
    (h : identityOf entry c.pair c.kind = .expected) :
    entry = some (.object c.identity c.kind.type) := by
  match entry with
  | none | some (.record content) => simp [identityOf, Entry.is] at h
  | some (.object found type) =>
    obtain ⟨his, rfl⟩ : (found.device, found.inode) = c.pair ∧ type = c.kind.type := by
      by_contra hne
      simp [identityOf, Entry.is, hne] at h
    obtain rfl : found = c.identity := by
      cases found
      cases hidentity : c.identity
      simpa [pair, hidentity] using his
    rfl

/-- No other name holds the object, in whatever directory it is looked for. -/
theorem files_expected {directory : Directory} {name : Text}
    (h : identityOf (c.files (.visible directory name)) c.pair c.kind = .expected) :
    .visible directory name = c.old := by
  obtain ⟨rfl, rfl⟩ := c.idle.unique _ _ _ _ _ _ _ (c.entry_of_expected h) c.entry
  rfl

theorem moved_expected {directory : Directory} {name : Text}
    (h : identityOf (c.moved (.visible directory name)) c.pair c.kind = .expected) :
    .visible directory name = c.new := by
  by_contra hnew
  by_cases hold : .visible directory name = c.old
  · rw [hold, c.moved_old] at h
    cases h
  · rw [c.moved_of_ne hold hnew] at h
    exact hold (c.files_expected h)

theorem validate_journal (phase : DurableRenamePhase) :
    validateFileOperation (c.journal phase) = .ok () := by
  have hne : joinRelative c.parentPath c.oldName ≠ joinRelative c.parentPath c.newName :=
    fun h => c.names_ne (joinRelative_injective h)
  simp [validateFileOperation, journal, operation, oldPath, newPath, validateIdentity,
    splitParentName_joinRelative c.plain c.old_safe,
    splitParentName_joinRelative c.plain c.new_safe, hne, c.identity.device_ne,
    c.identity.inode_ne, bind, Except.bind]

theorem files_journal (token : ℕ) : c.files (.staged (.operation token)) = none :=
  c.idle.no_journal token

theorem moved_journal (token : ℕ) : c.moved (.staged (.operation token)) = none := by
  rw [c.moved_staged, c.files_journal]

/-- The journal is the only one. -/
theorem journals (hnone : ∀ token, g (.staged (.operation token)) = none) (token : ℕ)
    (phase : DurableRenamePhase) :
    Journals (withJournal g token (c.journal phase)) [⟨.operation token, c.journal phase⟩] :=
  .one withJournal_self (c.validate_journal phase) fun other hoth => by
    rw [withJournal_of_ne (by simpa using hoth), hnone]

theorem after_of_rename {s : Store} (h : c.Before s ∨ c.After s) (recovery : Bool) :
    c.After (renameSharePathsAndAudit c.oldPath c.newPath (c.kind = .directory) recovery s).1 := by
  unfold After
  rw [shareRows_rename]
  obtain h | h := h
  · rw [h]
  · rw [h]
    exact renamedRows_idem c.names_ne (PlainComponent.of_safeAdminFilename c.old_safe).no_slash
      (PlainComponent.of_safeAdminFilename c.new_safe).no_slash _ _

end Facts

section Recovery

variable {env : Environment} {w : World} {s : Store} {token : ℕ}

/-- The rename is in one of its states. -/
def Reached (w : World) : Prop := ∃ g s, Stored w g s ∧ c.Class g s

/-- What is pending after the journal's own recovery step. -/
def Recovered (token : ℕ) (recovery : FileOperationRecovery) (w : World) : Prop :=
  (recovery = .cancelled ∧ ∃ s, Stored w c.files s ∧ c.Before s) ∨
  (recovery = .rename c.oldPath c.newPath (c.kind = .directory) ∧ c.files c.new = none ∧
    ∃ s, Stored w (withJournal c.moved token (c.journal .moved)) s ∧
      (c.Before s ∨ c.After s))

/-- Nothing is pending any more. -/
def Done (w : World) : Prop := ∃ g s, Stored w g s ∧ c.Settled g s

variable {c} (hT : Tolerated env)

theorem Done.reached (h : c.Done w) : c.Reached w := by
  obtain ⟨g, s, hw, hset⟩ := h
  cases hset with
  | unchanged before => exact ⟨_, s, hw, .untouched before⟩
  | renamed free after => exact ⟨_, s, hw, .finished free after⟩

include hT

/-- The journal goes and leaves the files behind. -/
theorem removeJournal_safe {operation : DurableFileOperation}
    (hw : Stored w (withJournal g token operation) s)
    (hnone : g (.staged (.operation token)) = none)
    (hclass : c.Class (withJournal g token operation) s) (hdone : c.Class g s) :
    Keeps env c.Class (removeFileOperation (.operation token)) w
      (fun _ w' => Stored w' g s)
      (fun _ w' => Stored w' (withJournal g token operation) s) := by
  have hremoved := withJournal_removed operation hnone
  refine (removeRecord_safe hT hw rfl ?_ ⟨hclass, ?_⟩).mono ?_ fun _ _ h => h
  · rw [withJournal_self]
    rfl
  · rw [hremoved]
    exact hdone
  · exact fun _ w' hw' => hremoved ▸ hw'

/-- A probe in any directory of the tree. -/
theorem probe_safe {operation : DurableFileOperation}
    (hw : Stored w (withJournal g token operation) s)
    (hclass : c.Class (withJournal g token operation) s) (directory : Directory) (name : Text) :
    Keeps env c.Class (entryIdentityState (.visible directory name) c.pair c.kind) w
      (fun state w' => state = identityOf (g (.visible directory name)) c.pair c.kind ∧
        Stored w' (withJournal g token operation) s)
      (fun _ w' => c.Reached w') := by
  refine (entryIdentityState_safe hT hw (covered_nil.mpr hclass) rfl c.pair c.kind).mono ?_
    fun _ w' h => ⟨_, s, h, hclass⟩
  rintro state w' ⟨hw', hst⟩
  exact ⟨hst.trans (by rw [replay, withJournal_of_ne (by simp)]), hw'⟩

/-- The first steps of the recovery open some directory, not always the one of the rename: a link
on the way may lead through what has moved. -/
theorem recoverRename_safe {phase : DurableRenamePhase} (hw : Stored w g s)
    (hclass : c.Class g s) {Q : FileOperationRecovery → World → Prop}
    (hnext : ∀ parent w', Stored w' g s → Keeps env c.Class
      (recoverRenameIn (.operation token) (c.operation phase) parent c.oldName c.newName) w' Q
      (fun _ w'' => c.Reached w'')) :
    Keeps env c.Class (recoverRenameOperation (.operation token) (c.operation phase)) w Q
      (fun _ w' => c.Reached w') := by
  unfold recoverRenameOperation
  refine Action.Meets.ofOk (splitParentName_joinRelative c.plain c.old_safe) ?_
  refine Action.Meets.ofOk (splitParentName_joinRelative c.plain c.new_safe) ?_
  dsimp only
  rw [if_neg (by simp)]
  refine (bindDirectory_safe hT hw (covered_nil.mpr hclass) (fun _ _ => rfl) _).bind ?_
    fun _ w₃ hw₃ => ⟨_, s, hw₃, hclass⟩
  exact fun parent w₃ h => hnext parent w₃ h.1

/-- An unmoved entry: the rename is cancelled, unless something else has the new name. -/
theorem recoverUnmoved_safe (hw : Stored w (withJournal c.files token (c.journal .intent)) s)
    (hbef : c.Before s) (parent : Directory) :
    Keeps env c.Class
      (recoverRenameIn (.operation token) (c.operation .intent) parent c.oldName c.newName) w
      (c.Recovered token) (fun _ w' => c.Reached w') := by
  have hclass : c.Class (withJournal c.files token (c.journal .intent)) s := .intent hbef
  refine Action.Meets.bind (Q := fun happened w' => happened = false ∧
      Stored w' (withJournal c.files token (c.journal .intent)) s) ?_ ?_ fun _ _ h => h
  · refine (probe_safe hT hw hclass parent c.newName).bind ?_ fun _ _ h => h
    rintro state w₁ ⟨hst, hw₁⟩
    cases state with
    | expected =>
      have hname := (Location.visible.inj (c.files_expected hst.symm)).2
      exact absurd hname.symm c.names_ne
    | replaced => exact ⟨_, s, hw₁, hclass⟩
    | missing =>
      refine (probe_safe hT hw₁ hclass parent c.oldName).bind ?_ fun _ _ h => h
      rintro state w₂ ⟨-, hw₂⟩
      cases state with
      | expected => exact ⟨rfl, hw₂⟩
      | replaced | missing => exact ⟨_, s, hw₂, hclass⟩
  · rintro happened w₁ ⟨rfl, hw₁⟩
    refine (removeJournal_safe hT hw₁ (c.files_journal token) hclass (.untouched hbef)).bind ?_
      fun _ _ h => ⟨_, s, h, hclass⟩
    exact fun _ w₂ hw₂ => .inl ⟨rfl, s, hw₂, hbef⟩

/-- An entry that moved: the journal says so before anything else happens. -/
theorem recoverRenamed_safe (hw : Stored w (withJournal c.moved token (c.journal .intent)) s)
    (hfree : c.files c.new = none) (hbef : c.Before s) (parent : Directory) :
    Keeps env c.Class
      (recoverRenameIn (.operation token) (c.operation .intent) parent c.oldName c.newName) w
      (c.Recovered token) (fun _ w' => c.Reached w') := by
  have hclass : c.Class (withJournal c.moved token (c.journal .intent)) s := .renamed hfree hbef
  refine Action.Meets.bind (Q := fun happened w' => happened = true ∧
      Stored w' (withJournal c.moved token (c.journal .intent)) s) ?_ ?_ fun _ _ h => h
  · refine (probe_safe hT hw hclass parent c.newName).bind ?_ fun _ _ h => h
    rintro state w₁ ⟨-, hw₁⟩
    cases state with
    | expected =>
      refine (syncDirectory_nothing hT hw₁ hclass _).andThen ?_
      exact fun _ w₂ hw₂ => ⟨rfl, hw₂⟩
    | replaced => exact ⟨_, s, hw₁, hclass⟩
    | missing =>
      refine (probe_safe hT hw₁ hclass parent c.oldName).bind ?_ fun _ _ h => h
      rintro state w₂ ⟨hst, hw₂⟩
      cases state with
      | expected =>
        have hname := (Location.visible.inj (c.moved_expected hst.symm)).2
        exact absurd hname c.names_ne
      | replaced | missing => exact ⟨_, s, hw₂, hclass⟩
  · rintro happened w₁ ⟨rfl, hw₁⟩
    have hagain := withJournal_again c.moved token (c.journal .intent) (c.journal .moved)
    refine (replaceFileOperation_safe hT hw₁ withJournal_self ⟨hclass, ?_⟩).bind ?_
      fun _ _ h => ⟨_, s, h, hclass⟩
    · exact hagain.symm ▸ .recorded hfree (.inl hbef)
    · intro _ w₂ hw₂
      exact .inr ⟨rfl, hfree, s, hagain ▸ hw₂, .inl hbef⟩

theorem recoverRecorded_safe (hw : Stored w (withJournal c.moved token (c.journal .moved)) s)
    (hfree : c.files c.new = none) (hrows : c.Before s ∨ c.After s) (parent : Directory) :
    Keeps env c.Class
      (recoverRenameIn (.operation token) (c.operation .moved) parent c.oldName c.newName) w
      (c.Recovered token) (fun _ w' => c.Reached w') := by
  have hclass : c.Class (withJournal c.moved token (c.journal .moved)) s := .recorded hfree hrows
  refine (probe_safe hT hw hclass parent c.newName).bind ?_ fun _ _ h => h
  rintro state w₁ ⟨-, hw₁⟩
  cases state with
  | expected =>
    refine (syncDirectory_nothing hT hw₁ hclass _).andThen ?_
    exact fun _ w₂ hw₂ => .inr ⟨rfl, hfree, s, hw₂, hrows⟩
  | replaced => exact ⟨_, s, hw₁, hclass⟩
  | missing => exact .inr ⟨rfl, hfree, s, hw₁, hrows⟩

/-- The database follows the journal, and then the journal goes. -/
theorem recoverPending_safe {phase : DurableRenamePhase} (hrecover : Keeps env c.Class
      (recoverRenameOperation (.operation token) (c.operation phase)) w (c.Recovered token)
      (fun _ w' => c.Reached w')) :
    Keeps env c.Class (recoverPending ⟨.operation token, c.journal phase⟩) w
      (fun _ w' => c.Done w') (fun _ w' => c.Reached w') := by
  refine hrecover.mapBind ?_ fun _ _ h => h
  rintro recovery w₁ (⟨rfl, s, hw₁, hbef⟩ | ⟨rfl, hfree, s, hw₁, hrows⟩)
  · exact ⟨c.files, s, hw₁, .unchanged hbef⟩
  · refine (databaseTransaction_safe hT hw₁ (.recorded hfree hrows) _).bind ?_
      fun _ _ h => ⟨_, _, h, .recorded hfree hrows⟩
    intro _ w₂ hw₂
    have haft := c.after_of_rename hrows true
    refine (removeJournal_safe hT hw₂ (c.moved_journal token) (.recorded hfree (.inr haft))
      (.finished hfree haft)).mapBind ?_ fun _ _ h => ⟨_, _, h, .recorded hfree (.inr haft)⟩
    exact fun _ w₃ hw₃ => ⟨c.moved, _, hw₃, .renamed hfree haft⟩

omit hT

theorem noManifests_withJournal (h : NoManifests g) (operation : DurableFileOperation) :
    NoManifests (withJournal g token operation) := fun other => by
  rw [withJournal_of_ne (by simp), withJournal_of_ne (by simp)]
  exact h other

theorem noManifests_moved : NoManifests c.moved := fun token => by
  rw [c.moved_staged, c.moved_staged]
  exact c.idle.noManifests token

/-- Recovery brings every state of the rename to an end, unless a call fails. -/
theorem recover_safe (hT : Tolerated env) (hw : Stored w g s) (hclass : c.Class g s) :
    Keeps env c.Class recoverPendingFileOperationsBlocking w
      (fun _ w' => c.Done w') (fun _ w' => c.Reached w') := by
  have hstopped : ∀ (_ : FileOperationError) w', Stored w' g s → c.Reached w' :=
    fun _ _ hw' => ⟨g, s, hw', hclass⟩
  cases hclass with
  | untouched before =>
    refine recoverBlocking_safe hT hw (.untouched before) c.idle.noManifests
      (.none c.files_journal) (fun w' hw' => ?_) hstopped
    exact ⟨c.files, s, hw', .unchanged before⟩
  | @intent token _ before =>
    refine recoverBlocking_safe hT hw (.intent before)
      (noManifests_withJournal c.idle.noManifests _) (c.journals c.files_journal token _)
      (fun w' hw' => recoverAll_one (recoverPending_safe hT ?_)) hstopped
    exact recoverRename_safe hT hw' (.intent before)
      fun parent _ h => recoverUnmoved_safe hT h before parent
  | @renamed token _ free before =>
    refine recoverBlocking_safe hT hw (.renamed free before)
      (noManifests_withJournal noManifests_moved _) (c.journals c.moved_journal token _)
      (fun w' hw' => recoverAll_one (recoverPending_safe hT ?_)) hstopped
    exact recoverRename_safe hT hw' (.renamed free before)
      fun parent _ h => recoverRenamed_safe hT h free before parent
  | @recorded token _ free rows =>
    refine recoverBlocking_safe hT hw (.recorded free rows)
      (noManifests_withJournal noManifests_moved _) (c.journals c.moved_journal token _)
      (fun w' hw' => recoverAll_one (recoverPending_safe hT ?_)) hstopped
    exact recoverRename_safe hT hw' (.recorded free rows)
      fun parent _ h => recoverRecorded_safe hT h free rows parent
  | finished free after =>
    refine recoverBlocking_safe hT hw (.finished free after) noManifests_moved
      (.none c.moved_journal) (fun w' hw' => ?_) hstopped
    exact ⟨c.moved, s, hw', .renamed free after⟩

/-- In none of the states is a deletion pending, and there is at most one journal. -/
theorem Class.pending (h : c.Class g s) : NoManifests g ∧ ∃ pending, Journals g pending := by
  cases h with
  | untouched => exact ⟨c.idle.noManifests, _, .none c.files_journal⟩
  | intent =>
    exact ⟨noManifests_withJournal c.idle.noManifests _, _, c.journals c.files_journal _ _⟩
  | renamed | recorded =>
    exact ⟨noManifests_withJournal noManifests_moved _, _, c.journals c.moved_journal _ _⟩
  | finished => exact ⟨noManifests_moved, _, .none c.moved_journal⟩

end Recovery

end RenameCase

end VaultLink
