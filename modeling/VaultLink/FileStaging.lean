import VaultLink.SecureFs

/-!
# Staged renames and deletions

`secure_fs::staging`: what a rename or a delete does to the storage before the database
commits. A rename publishes a journal, moves the entry and advances the journal. A delete
first moves the entry to a private name under the protection of a manifest. Every error
path probes which name holds the entry before it decides how to report the outcome.
-/
namespace VaultLink

section Rename

structure StagedRename where
  originalPath : Text
  newPath : Text
  kind : EntryKind
  sourceIdentity : ℕ × ℕ
  committed : Bool
  parent : Directory
  originalName : Text
  newName : Text
  operationName : StagingName
  commitStarted : Bool

inductive RenameStageOutcome
  | ready (staged : StagedRename)
  | publishedUncertain (newPath : Text) (kind : EntryKind) (error : IoError)

/-- `SecureDirectory::rename_noreplace`; a failed `fsync` is only logged. -/
def renameInDirectory (parent : Directory) (old new : Text) : FsM Unit := do
  renameNoreplace (.visible parent old) (.visible parent new)
  bestEffort (syncDirectory (.directory parent))

/-- What the metadata of an opened source says, or the error for anything special. -/
def sourceKind (refusal : String) : Entry → Except IoError EntryKind
  | .object _ .file | .record _ => .ok .file
  | .object _ .directory => .ok .directory
  | .object _ (.symlink _) | .object _ .special => .error ⟨.invalidInput, refusal⟩

/-- `(dev, ino)` of an opened entry. Records are not in the visible tree. -/
def Entry.identity : Entry → ℕ × ℕ
  | .object found _ => (found.device, found.inode)
  | .record _ => (0, 0)

def reconcileRenameResult (parent : Directory) (originalName newName newPath : Text)
    (sourceIdentity : ℕ × ℕ) (kind : EntryKind) (operationName : StagingName)
    (rename : Except IoError Unit) : FsM (Option RenameStageOutcome) := do
  let uncertain (error : IoError) := some (RenameStageOutcome.publishedUncertain newPath kind error)
  match ← Action.attempt (entryIdentityState (.visible parent newName) sourceIdentity kind) with
  | .error error => pure (uncertain error)
  | .ok destinationState =>
    match rename with
    | .ok () =>
      match destinationState with
      | .expected => pure none
      | .missing => pure (uncertain
          ⟨.notFound, "rename destination disappeared before identity verification"⟩)
      | .replaced => pure (uncertain
          ⟨.permissionDenied, "rename destination was replaced after publication"⟩)
    | .error error =>
      match ← Action.attempt
          (entryIdentityState (.visible parent originalName) sourceIdentity kind) with
      | .error probeError => pure (uncertain ⟨probeError.kind,
          s!"rename result and source identity are uncertain: {error.message}; " ++
            probeError.message⟩)
      | .ok sourceState =>
        match destinationState, sourceState with
        | _, .expected => do
          removeFileOperation operationName
          Action.fail error
        -- The entry moved although the call reported an error.
        | .expected, .missing => pure none
        | _, _ => pure (uncertain error)

def stageRenameWithOutcome (relative newName : Text) : FsM RenameStageOutcome := do
  let (parentPath, originalName) ← Action.ofExcept (splitParentName relative)
  let originalPath := joinRelative parentPath originalName
  if !safeAdminFilename newName then
    Action.fail ⟨.invalidInput, "invalid destination name"⟩
  else if originalName = newName then
    Action.fail ⟨.invalidInput, "new name matches current name"⟩
  else
    let parent ← bindDirectory parentPath
    duplicate
    duplicate
    let source ← openPath (.visible parent originalName)
    let kind ← Action.ofExcept
      (sourceKind "rename source is not a regular file or directory" source)
    let newPath := joinRelative parentPath newName
    let journal := fun phase => DurableFileOperation.rename
      { originalPath, newPath, kind, phase
        device := source.identity.1, inode := source.identity.2 }
    let operationName ← Action.mapError FileOperationWriteError.error
      (writeFileOperation (journal .intent))
    let rename ← Action.attempt (renameInDirectory parent originalName newName)
    match ← reconcileRenameResult parent originalName newName newPath source.identity kind
        operationName rename with
    | some outcome => pure outcome
    | none =>
      match ← Action.attempt (do
          syncDirectory (.directory parent)
          replaceFileOperation operationName (journal .moved)) with
      | .error error => pure (.publishedUncertain newPath kind error)
      | .ok () => pure (.ready
          { originalPath, newPath, kind, sourceIdentity := source.identity, committed := false
            parent, originalName, newName, operationName, commitStarted := false })

def StagedRename.beginDatabaseCommit (staged : StagedRename) : StagedRename :=
  { staged with commitStarted := true }

def StagedRename.commit (staged : StagedRename) : FsM Unit :=
  removeFileOperation staged.operationName

def StagedRename.rollback (staged : StagedRename) : FsM Unit := do
  match ← entryIdentityState (.visible staged.parent staged.newName) staged.sourceIdentity
      staged.kind with
  | .missing => Action.fail ⟨.notFound, "rename rollback target is missing"⟩
  | .replaced => Action.fail ⟨.permissionDenied, "rename rollback target was replaced"⟩
  | .expected =>
    replaceFileOperation staged.operationName (.rename
      { originalPath := staged.originalPath, newPath := staged.newPath, kind := staged.kind
        device := staged.sourceIdentity.1, inode := staged.sourceIdentity.2, phase := .rollback })
    renameNoreplace (.visible staged.parent staged.newName)
      (.visible staged.parent staged.originalName)
    syncDirectory (.directory staged.parent)
    removeFileOperation staged.operationName

/-- `Drop for StagedRename`. -/
def StagedRename.drop (staged : StagedRename) : FsM Unit :=
  if !staged.committed && !staged.commitStarted then bestEffort staged.rollback else pure ()

end Rename

section DeleteStage

structure EntryStatus where
  kind : EntryKind
  directoryNonEmpty : Bool

/-- The values `StagedDelete` keeps until its commit. -/
structure StagedDelete where
  originalPath : Text
  status : EntryStatus
  parent : Directory
  originalName : Text
  tombstoneName : StagingName
  manifestName : StagingName
  operationName : Option StagingName
  sourceIdentity : ℕ × ℕ

inductive DeleteStageOutcome
  | ready (staged : StagedDelete)
  | publishedUncertain (originalPath : Text) (kind : EntryKind) (error : IoError)

inductive PendingDeleteStage
  | ready (tombstoneName manifestName : StagingName)
  | publishedUncertain (error : IoError)

structure PendingDeleteSource where
  parent : Directory
  originalName : Text
  originalPath : Text
  identity : ℕ × ℕ
  kind : EntryKind

def describeIdentity : Except IoError EntryIdentityState → String
  | .ok .expected => "expected identity"
  | .ok .missing => "missing"
  | .ok .replaced => "different identity"
  | .error error => s!"probe failed: {error.message}"

def describeResult : Except IoError Unit → String
  | .ok () => "ok"
  | .error error => s!"failed: {error.message}"

def ambiguousDeleteStageError (renameError : IoError)
    (pendingState sourceState : Except IoError EntryIdentityState) : IoError :=
  ⟨renameError.kind, s!"delete staging rename outcome is ambiguous after {renameError.message}; "
    ++ s!"pending {describeIdentity pendingState}; source {describeIdentity sourceState}"⟩

def uncertainDeleteRollbackError (originalError : IoError) (rollback : Except IoError Unit)
    (sourceState pendingState : Except IoError EntryIdentityState)
    (parentSync stagingSync : Except IoError Unit) (manifestError : Option IoError) : IoError :=
  let manifest := match manifestError with
    | none => "not attempted"
    | some error => s!"failed: {error.message}"
  ⟨originalError.kind, s!"delete staging cleanup is uncertain after {originalError.message}; "
    ++ s!"rollback {describeResult rollback}; source {describeIdentity sourceState}; "
    ++ s!"pending {describeIdentity pendingState}; parent sync {describeResult parentSync}; "
    ++ s!"staging sync {describeResult stagingSync}; manifest cleanup {manifest}"⟩

def sourceIsUnchangedAndPendingIsForeign
    (sourceState pendingState : Except IoError EntryIdentityState) : Bool :=
  match sourceState, pendingState with
  | .ok .expected, .ok .missing | .ok .expected, .ok .replaced => true
  | _, _ => false

/-- The candidate's pending name and manifest, or `none` when the name is taken. -/
def preparePendingDeleteCandidate (originalPath : Text) :
    FsM (Option (StagingName × StagingName)) := do
  let candidate := StagingName.deletionPending (← randomToken)
  match ← Action.attempt (writePendingManifest candidate originalPath) with
  | .ok manifestName => pure (some (candidate, manifestName))
  | .error error => if error.kind = .alreadyExists then pure none else Action.fail error

def discardUnusedPendingDelete (manifestName : StagingName) : FsM Unit :=
  bestEffort (removePendingManifest manifestName)

def reconcilePendingDeleteRename (source : PendingDeleteSource)
    (candidate manifestName : StagingName) (renameError : IoError) :
    FsM (Option PendingDeleteStage) := do
  let pendingState ←
    Action.attempt (entryIdentityState (.staged candidate) source.identity source.kind)
  match pendingState with
  | .ok .expected => pure (some (.ready candidate manifestName))
  | pendingState =>
    let sourceState ← Action.attempt
      (entryIdentityState (.visible source.parent source.originalName) source.identity source.kind)
    if sourceIsUnchangedAndPendingIsForeign sourceState pendingState then
      discardUnusedPendingDelete manifestName
      if renameError.kind = .alreadyExists then pure none else Action.fail renameError
    else
      pure (some (.publishedUncertain
        (ambiguousDeleteStageError renameError pendingState sourceState)))

/-- The loop of `stage_pending_delete`; `attempts` bounds the candidates it tries. -/
def stagePendingDelete (source : PendingDeleteSource) : ℕ → FsM PendingDeleteStage
  | 0 => Action.fail ⟨.alreadyExists, "pending deletion names are exhausted"⟩
  | attempts + 1 => do
    match ← preparePendingDeleteCandidate source.originalPath with
    | none => stagePendingDelete source attempts
    | some (candidate, manifestName) =>
      match ← Action.attempt (renameNoreplace (.visible source.parent source.originalName)
          (.staged candidate)) with
      | .ok () => pure (.ready candidate manifestName)
      | .error error =>
        match ← reconcilePendingDeleteRename source candidate manifestName error with
        | some outcome => pure outcome
        | none => stagePendingDelete source attempts

/-- One more than the entries there are: some candidate is not among them. -/
def candidateBound : FsM ℕ := fun _ w => .ok (w.view.keys.length + 1) w

def inspectPendingDelete (parent : Directory) (tombstoneName : StagingName)
    (sourceIdentity : ℕ × ℕ) (sourceKind : EntryKind) : FsM EntryStatus := do
  let tombstone ← openPath (.staged tombstoneName)
  if !tombstone.is sourceIdentity sourceKind then
    Action.fail ⟨.permissionDenied, "deletion target changed during atomic staging"⟩
  else
    let directoryNonEmpty ← match sourceKind with
      | .file => pure false
      | .directory => scanNonEmpty (.staged tombstoneName)
    -- The private destination becomes durable before the visible source removal.
    syncDirectory .staging
    syncDirectory (.directory parent)
    pure { kind := sourceKind, directoryNonEmpty }

def reconcileFailedDeleteStage (originalError : IoError) (pendingName manifestName : StagingName)
    (parent : Directory) (originalName originalPath : Text) (sourceIdentity : ℕ × ℕ)
    (sourceKind : EntryKind) : FsM DeleteStageOutcome := do
  let rollback ← Action.attempt
    (renameNoreplace (.staged pendingName) (.visible parent originalName))
  let sourceState ← Action.attempt
    (entryIdentityState (.visible parent originalName) sourceIdentity sourceKind)
  let pendingState ← Action.attempt
    (entryIdentityState (.staged pendingName) sourceIdentity sourceKind)
  let parentSync ← Action.attempt (syncDirectory (.directory parent))
  let stagingSync ← Action.attempt (syncDirectory .staging)
  let uncertain := fun manifestError =>
    DeleteStageOutcome.publishedUncertain originalPath sourceKind
      (uncertainDeleteRollbackError originalError rollback sourceState pendingState parentSync
        stagingSync manifestError)
  match sourceState, pendingState, parentSync, stagingSync with
  | .ok .expected, .ok .missing, .ok (), .ok () =>
    match ← Action.attempt (removePendingManifest manifestName) with
    | .ok () => Action.fail originalError
    | .error manifestError => pure (uncertain (some manifestError))
  | _, _, _, _ => pure (uncertain none)

def stageDelete (relative : Text) : FsM DeleteStageOutcome := do
  let (parentPath, originalName) ← Action.ofExcept (splitParentName relative)
  let originalPath := joinRelative parentPath originalName
  let parent ← bindDirectory parentPath
  duplicate
  duplicate
  let source ← openPath (.visible parent originalName)
  let kind ← Action.ofExcept
    (sourceKind "deletion target is not a regular file or directory" source)
  let attempts ← candidateBound
  match ← stagePendingDelete
      { parent, originalName, originalPath, identity := source.identity, kind } attempts with
  | .publishedUncertain error => pure (.publishedUncertain originalPath kind error)
  | .ready tombstoneName manifestName =>
    match ← Action.attempt (inspectPendingDelete parent tombstoneName source.identity kind) with
    | .error error =>
      reconcileFailedDeleteStage error tombstoneName manifestName parent originalName originalPath
        source.identity kind
    | .ok status => pure (.ready
        { originalPath, status, parent, originalName, tombstoneName, manifestName
          operationName := none, sourceIdentity := source.identity })

end DeleteStage

end VaultLink
