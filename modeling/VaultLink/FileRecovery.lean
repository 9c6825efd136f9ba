import Mathlib.Data.Char
import Mathlib.Data.List.Lex
import Mathlib.Data.List.Sort
import VaultLink.FileStaging

/-!
# Recovery of interrupted file operations

`secure_fs::recovery`: what the server does with the journals and manifests it finds. A
journal is read, checked and acted on by its phase and by which of its names holds the
recorded object; a manifest without a journal restores the entry it was written for. Anything
unexpected is an error that leaves the journal in place.
-/
namespace VaultLink

section Pending

structure PendingFileOperation where
  journalName : StagingName
  operation : DurableFileOperation

inductive FileOperationRecovery
  | rename (originalPath newPath : Text) (isDirectory : Bool)
  | delete (originalPath : Text) (isDirectory : Bool) (tombstonePath : Option StagingName)
  | cancelled

/-- The zero check both kinds of journal end with. -/
def validateIdentity (device inode : ℕ) : Except IoError Unit :=
  if device = 0 ∨ inode = 0 then
    .error ⟨.invalidData, "file-operation journal has an invalid filesystem identity"⟩
  else .ok ()

def validateFileOperation : DurableFileOperation → Except IoError Unit
  | .rename operation => do
    let (originalParent, _) ← splitParentName operation.originalPath
    let (newParent, _) ← splitParentName operation.newPath
    if originalParent ≠ newParent ∨ operation.originalPath = operation.newPath then
      .error ⟨.invalidData, "invalid rename recovery journal"⟩
    else validateIdentity operation.device operation.inode
  | .delete operation => do
    let _ ← splitParentName operation.originalPath
    if !isDeletionPendingName operation.pendingName ||
        !isDeletionTombstoneName operation.tombstoneName then
      .error ⟨.invalidData, "invalid delete recovery journal"⟩
    else validateIdentity operation.device operation.inode

def collectFileOperations : List StagingName → FsM (List PendingFileOperation)
  | [] => pure []
  | name :: names => do
    if !isFileOperationName name then collectFileOperations names
    else
      let operation ← readFileOperation name
      Action.ofExcept (validateFileOperation operation)
      let rest ← collectFileOperations names
      pure (⟨name, operation⟩ :: rest)

def pendingFileOperations : FsM (List PendingFileOperation) := do
  let names ← snapshotDirectoryNames
  let operations ← collectFileOperations names
  pure (operations.insertionSort fun left right => left.journalName.text ≤ right.journalName.text)

/-- Unlinks the journal temporaries among the names; whether there was one. -/
def removeTemporaries : List StagingName → FsM Bool
  | [] => pure false
  | name :: names => do
    if !isFileOperationTemporaryName name then removeTemporaries names
    else
      match ← Action.attempt (unlink name) with
      | .ok () => do
        let _ ← removeTemporaries names
        pure true
      | .error error =>
        if error.kind = .notFound then removeTemporaries names else Action.fail error

def removeIncompleteFileOperationWrites : FsM Unit := do
  let names ← snapshotDirectoryNames
  if ← removeTemporaries names then syncDirectory .staging

end Pending

section Manifests

/-- `journaled_pending.contains`: a delete journal is responsible for the pending name. -/
def journaled (pending : List PendingFileOperation) (name : StagingName) : Bool :=
  pending.any fun entry =>
    match entry.operation with
    | .delete operation => operation.pendingName = name
    | .rename _ => false

def invalidManifestError (what : String) (pendingName : StagingName) (error : IoError) : IoError :=
  ⟨error.kind, s!"{what} deletion {String.ofList pendingName.text} has no valid recovery manifest: "
    ++ error.message⟩

/-- The first loop: a manifest whose entry is already back at its original path. -/
def finalizeRestoredDeletion (pending : List PendingFileOperation) (manifestName : StagingName) :
    FsM Unit := do
  match deletionPendingFromManifestName manifestName with
  | none => pure ()
  | some pendingName =>
    if journaled pending pendingName then pure ()
    else if ← entryExists (.staged pendingName) then pure ()
    else
      let originalPath ← Action.mapError (invalidManifestError "restored" pendingName)
        (readPendingManifest manifestName)
      let (parentPath, originalName) ← Action.ofExcept (splitParentName originalPath)
      let parent ← bindDirectory parentPath
      if ← entryExists (.visible parent originalName) then
        syncDirectory (.directory parent)
        syncDirectory .staging
        removePendingManifest manifestName
      else
        Action.fail ⟨.notFound, "delete recovery lost both pending entry "
          ++ s!"{String.ofList pendingName.text} and original path {String.ofList originalPath}"⟩

/-- The second loop: an entry that is still at its pending name goes back. -/
def restorePendingDeletion (pending : List PendingFileOperation) (pendingName : StagingName) :
    FsM Unit := do
  if !isDeletionPendingName pendingName || journaled pending pendingName then pure ()
  else
    let manifestName := deletionManifestName pendingName
    let originalPath ← Action.mapError (invalidManifestError "pending" pendingName)
      (readPendingManifest manifestName)
    let (parentPath, originalName) ← Action.ofExcept (splitParentName originalPath)
    let parent ← bindDirectory parentPath
    renameNoreplace (.staged pendingName) (.visible parent originalName)
    syncDirectory (.directory parent)
    syncDirectory .staging
    removePendingManifest manifestName

def recoverPendingDeletions (pending : List PendingFileOperation) : FsM Unit := do
  let names ← snapshotDirectoryNames
  Action.each (finalizeRestoredDeletion pending) names
  Action.each (restorePendingDeletion pending) names

/-- The recovery part of `SecureRoot::open`. -/
def openSecureRoot : FsM Unit := do
  removeIncompleteFileOperationWrites
  let pending ← pendingFileOperations
  recoverPendingDeletions pending

end Manifests

section Rename

/-- The `Intent` phase of `recover_rename_operation`: whether the rename had happened. -/
def recoverRenameIntent (parent : Directory) (originalName newName : Text) (identity : ℕ × ℕ)
    (kind : EntryKind) : FsM Bool := do
  match ← entryIdentityState (.visible parent newName) identity kind with
  | .expected =>
    syncDirectory (.directory parent)
    pure true
  | .replaced =>
    Action.fail ⟨.alreadyExists, "rename recovery destination was replaced by another object"⟩
  | .missing =>
    match ← entryIdentityState (.visible parent originalName) identity kind with
    | .expected => pure false
    | .replaced =>
      Action.fail ⟨.alreadyExists, "rename recovery source was replaced by another object"⟩
    | .missing =>
      Action.fail ⟨.notFound, "rename intent target is missing under both names"⟩

/-- The `Rollback` phase: afterwards the object is back under its original name. -/
def recoverRenameRollback (parent : Directory) (originalName newName : Text) (identity : ℕ × ℕ)
    (kind : EntryKind) : FsM Unit := do
  let originalState ← entryIdentityState (.visible parent originalName) identity kind
  let destinationState ← entryIdentityState (.visible parent newName) identity kind
  match originalState, destinationState with
  | .expected, .missing => syncDirectory (.directory parent)
  | .missing, .expected =>
    renameNoreplace (.visible parent newName) (.visible parent originalName)
    syncDirectory (.directory parent)
  | .replaced, _ =>
    Action.fail ⟨.alreadyExists, "rename rollback source was replaced by another object"⟩
  | _, .replaced =>
    Action.fail ⟨.alreadyExists, "rename rollback destination was replaced by another object"⟩
  | .expected, .expected =>
    Action.fail ⟨.alreadyExists, "rename rollback identity appears under both names"⟩
  | .missing, .missing =>
    Action.fail ⟨.notFound, "rename rollback target is missing under both names"⟩

/-- The phases of `recover_rename_operation`, once the parent directory is open. -/
def recoverRenameIn (operationName : StagingName) (operation : RenameOperation)
    (parent : Directory) (originalName newName : Text) : FsM FileOperationRecovery := do
  let identity := (operation.device, operation.inode)
  let outcome := FileOperationRecovery.rename operation.originalPath operation.newPath
    (operation.kind = .directory)
  match operation.phase with
  | .intent =>
    if ← recoverRenameIntent parent originalName newName identity operation.kind then
      replaceFileOperation operationName (.rename { operation with phase := .moved })
      pure outcome
    else
      removeFileOperation operationName
      pure .cancelled
  | .moved =>
    match ← entryIdentityState (.visible parent newName) identity operation.kind with
    | .expected =>
      syncDirectory (.directory parent)
      pure outcome
    | .replaced =>
      Action.fail ⟨.alreadyExists, "completed rename destination was replaced by another object"⟩
    -- The old name never reconstructs a completed move.
    | .missing => pure outcome
  | .rollback =>
    recoverRenameRollback parent originalName newName identity operation.kind
    removeFileOperation operationName
    pure .cancelled

def recoverRenameOperation (operationName : StagingName) (operation : RenameOperation) :
    FsM FileOperationRecovery := do
  let (originalParent, originalName) ← Action.ofExcept (splitParentName operation.originalPath)
  let (newParent, newName) ← Action.ofExcept (splitParentName operation.newPath)
  if originalParent ≠ newParent then
    Action.fail ⟨.invalidData, "rename recovery journal crosses parent directories"⟩
  else
    let parent ← bindDirectory originalParent
    recoverRenameIn operationName operation parent originalName newName

end Rename

section Delete

/-- Which private name holds the object, for a journal without replaced entries. -/
def privateSource (pendingName tombstoneName : StagingName) :
    EntryIdentityState → EntryIdentityState → Except IoError (Option StagingName)
  | .expected, .missing => .ok (some pendingName)
  | .missing, .expected => .ok (some tombstoneName)
  | .missing, .missing => .ok none
  | _, _ =>
    .error ⟨.alreadyExists, "delete rollback identity appears under both private names"⟩

/-- Renames the object back; a lost response is recognised by the object's identity. -/
def renameBack (original : Location) (privateName : StagingName) (identity : ℕ × ℕ)
    (kind : EntryKind) : FsM Unit := do
  match ← Action.attempt (renameNoreplace (.staged privateName) original) with
  | .ok () => pure ()
  | .error error =>
    if ← entryMatchesIdentity original identity kind then
      if ← entryExists (.staged privateName) then Action.fail error else pure ()
    else Action.fail error

/-- Brings the object back to its original name, from wherever it is. -/
def restoreOriginal (parent : Directory) (originalName : Text) (identity : ℕ × ℕ)
    (kind : EntryKind) : EntryIdentityState → Option StagingName → FsM Unit
  | .expected, none => syncDirectory (.directory parent)
  | .expected, some _ => Action.fail
      ⟨.alreadyExists, "delete rollback identity appears under visible and private names"⟩
  | _, some privateName => do
    renameBack (.visible parent originalName) privateName identity kind
    -- The destination is synchronized before the source directory.
    syncDirectory (.directory parent)
    syncDirectory .staging
  | _, none => Action.fail
      ⟨.notFound, "delete rollback target is missing under all recovery names"⟩

def recoverDeleteRollback (operationName : StagingName) (operation : DeleteOperation)
    (parent : Directory) (originalName : Text) : FsM FileOperationRecovery := do
  let identity := (operation.device, operation.inode)
  let originalState ← entryIdentityState (.visible parent originalName) identity operation.kind
  let pendingState ← entryIdentityState (.staged operation.pendingName) identity operation.kind
  let tombstoneState ← entryIdentityState (.staged operation.tombstoneName) identity operation.kind
  if originalState = .replaced then
    Action.fail ⟨.alreadyExists, "delete rollback destination was replaced by another object"⟩
  else if pendingState = .replaced ∨ tombstoneState = .replaced then
    Action.fail ⟨.alreadyExists, "delete rollback private entry was replaced by another object"⟩
  else
    let source ← Action.ofExcept
      (privateSource operation.pendingName operation.tombstoneName pendingState tombstoneState)
    restoreOriginal parent originalName identity operation.kind originalState source
    removePendingManifest (deletionManifestName operation.pendingName)
    removeFileOperation operationName
    pure .cancelled

/-- Removes the tombstone of a file; a missing one is fine. -/
def unlinkTombstone (tombstoneName : StagingName) : FsM Unit := do
  match ← Action.attempt (unlink tombstoneName) with
  | .ok () => syncDirectory .staging
  | .error error => if error.kind = .notFound then pure () else Action.fail error

/-- The removal of the tombstone, as the kind of the object and the confirmation allow. -/
def removeTombstone (operationName : StagingName) (operation : DeleteOperation)
    (parent : Directory) (originalName : Text) : FsM FileOperationRecovery := do
  let identity := (operation.device, operation.inode)
  let removed := FileOperationRecovery.delete operation.originalPath
    (operation.kind = .directory) none
  removePendingManifest (deletionManifestName operation.pendingName)
  match operation.kind with
  | .file =>
    unlinkTombstone operation.tombstoneName
    pure removed
  | .directory =>
    if operation.allowRecursive then
      pure (.delete operation.originalPath true (some operation.tombstoneName))
    else
      match ← Action.attempt (rmdir operation.tombstoneName) with
      | .ok () =>
        syncDirectory .staging
        pure removed
      | .error error =>
        match ← entryIdentityState (.staged operation.tombstoneName) identity .directory with
        | .missing =>
          syncDirectory .staging
          pure removed
        | .replaced =>
          Action.fail ⟨.alreadyExists, "delete recovery tombstone was replaced"⟩
        | .expected =>
          if error.kind = .directoryNotEmpty then
            replaceDeleteOperationPhase operationName .rollback
            renameNoreplace (.staged operation.tombstoneName) (.visible parent originalName)
            syncDirectory (.directory parent)
            syncDirectory .staging
            removeFileOperation operationName
            pure .cancelled
          else Action.fail error

/-- The `Moved` phase of `recover_delete_operation`. -/
def recoverDeleteMoved (operationName : StagingName) (operation : DeleteOperation)
    (parent : Directory) (originalName : Text) : FsM FileOperationRecovery := do
  let identity := (operation.device, operation.inode)
  if ← entryMatchesIdentity (.staged operation.tombstoneName) identity operation.kind then
    removeTombstone operationName operation parent originalName
  else if ← entryExists (.staged operation.tombstoneName) then
    Action.fail
      ⟨.alreadyExists, "delete recovery tombstone was replaced by another object"⟩
  else if ← entryMatchesIdentity (.staged operation.pendingName) identity operation.kind then
    renameNoreplace (.staged operation.pendingName) (.staged operation.tombstoneName)
    syncDirectory .staging
    removeTombstone operationName operation parent originalName
  else if ← entryExists (.staged operation.pendingName) then
    Action.fail
      ⟨.alreadyExists, "pending delete recovery entry was replaced by another object"⟩
  else
    -- Both private names are gone: the removal completed. A visible object at the old path
    -- is left alone, whatever its identity.
    removePendingManifest (deletionManifestName operation.pendingName)
    pure (.delete operation.originalPath (operation.kind = .directory) none)

/-- `recover_delete_operation`; both of its parts begin by opening the parent directory. -/
def recoverDeleteOperation (operationName : StagingName) (operation : DeleteOperation) :
    FsM FileOperationRecovery := do
  let (parentPath, originalName) ← Action.ofExcept (splitParentName operation.originalPath)
  let parent ← bindDirectory parentPath
  match operation.phase with
  | .intent | .rollback => recoverDeleteRollback operationName operation parent originalName
  | .moved => recoverDeleteMoved operationName operation parent originalName

end Delete

def recoverFileOperation (pending : PendingFileOperation) : FsM FileOperationRecovery :=
  match pending.operation with
  | .rename operation => recoverRenameOperation pending.journalName operation
  | .delete operation => recoverDeleteOperation pending.journalName operation

def completeFileOperation (pending : PendingFileOperation) : FsM Unit :=
  removeFileOperation pending.journalName

end VaultLink
