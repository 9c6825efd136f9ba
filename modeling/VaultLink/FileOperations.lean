import VaultLink.FileRecovery
import VaultLink.Shares

/-!
# Rename and recovery

`file_ops`: the request that renames an entry of the visible tree, and the share table with
it, and the recovery that reconciles the two. The request runs its filesystem part inside the
SQLite transaction that rewrites the shares; when anything after the first durable step is
uncertain it attempts one recovery before it gives up the storage lock. The flag of a result
says whether the storage was left clean, which is when later requests may skip recovery.
-/
namespace VaultLink

inductive FileOperationError
  | invalidPath
  | invalidName
  | notFound
  | conflict
  | database
  | io (error : IoError)
deriving DecidableEq

abbrev OpM := Action Environment World FileOperationError

def mapIo (error : IoError) : FileOperationError :=
  match error.kind with
  | .notFound | .notADirectory => .notFound
  | .alreadyExists => .conflict
  | .invalidInput | .invalidData | .permissionDenied => .invalidPath
  | .directoryNotEmpty | .other => .io error

section Requests

def normalize (raw : Text) (allowEmpty : Bool) : Except FileOperationError Text :=
  match validateRelative raw with
  | none => .error .invalidPath
  | some components =>
    if !allowEmpty && components.isEmpty then .error .invalidPath
    else .ok (['/'].intercalate components)

def validateName (name : Text) : Except FileOperationError Text :=
  if safeAdminFilename name then .ok name else .error .invalidName

structure RenamePlan where
  path : Text
  newName : Text
  destination : Text
deriving DecidableEq

/-- `path.rsplit_once('/').map_or("", |(parent, _)| parent)`. -/
def parentOf (path : Text) : Text := ['/'].intercalate (path.splitOn '/').dropLast

def planRename (path newName : Text) : Except FileOperationError RenamePlan := do
  let path ← normalize path false
  let newName ← validateName newName
  let parent := parentOf path
  let destination := if parent.isEmpty then newName else parent ++ '/' :: newName
  if destination = path then .error .invalidName else .ok ⟨path, newName, destination⟩

def validatedRenamePaths (path newName : Text) : Except FileOperationError (Text × Text) := do
  let plan ← planRename path newName
  let detail := s!"old_path={String.ofList plan.path};updated_shares={2 ^ 64 - 1};recovery=false"
  if auditFits plan.destination detail then .ok (plan.path, plan.newName) else .error .database

end Requests

section Database

def databaseCall {α : Type} (m : FsM α) : OpM α := Action.mapError (fun _ => .database) m

/-- What the open transaction reads. -/
def readDatabase : FsM Store := fun _ w => .ok w.db w

/-- A transaction of the recovery. -/
def databaseTransaction (update : Store → Store) : OpM Unit := databaseCall do
  beginTransaction
  let db ← readDatabase
  commitTransaction (update db)

end Database

section Recovery

/-- One round of the recovery loop, with the tombstone it leaves for cleanup. -/
def recoverPending (pending : PendingFileOperation) : OpM (Option StagingName) := do
  match ← Action.mapError mapIo (recoverFileOperation pending) with
  | .rename originalPath newPath isDirectory =>
    databaseTransaction fun db =>
      (renameSharePathsAndAudit originalPath newPath isDirectory true db).1
    Action.mapError mapIo (completeFileOperation pending)
    pure none
  | .delete originalPath isDirectory tombstonePath =>
    databaseTransaction fun db => (deactivateSharesForPathAndAudit originalPath isDirectory true
      tombstonePath.isSome db).1
    Action.mapError mapIo (completeFileOperation pending)
    pure tombstonePath
  | .cancelled => pure none

def recoverAll : List PendingFileOperation → OpM (List StagingName)
  | [] => pure []
  | pending :: rest => do
    let tombstone ← recoverPending pending
    let tombstones ← recoverAll rest
    pure (tombstone.toList ++ tombstones)

/-- `recover_pending_file_operations_blocking`: the tombstones left for cleanup. -/
def recoverPendingFileOperationsBlocking : OpM (List StagingName) := do
  let pending ← Action.mapError mapIo pendingFileOperations
  Action.mapError mapIo (recoverPendingDeletions pending)
  recoverAll pending

def recoverUncertainFileOperationBeforeUnlock : OpM Bool := do
  match ← Action.attempt recoverPendingFileOperationsBlocking with
  | .ok _ => pure true
  | .error (_ : FileOperationError) => pure false

end Recovery

inductive AuditDurability
  | durable
  | uncertain
deriving DecidableEq

/-- `RequiredAuditFileOutcome<SessionBound<_>>`. -/
inductive FileOutcome (α : Type)
  | sessionUnavailable
  | audited (result : α)
  | uncertain (result : α)

/-- A result with what the storage guard was told: `finish_clean` or nothing. -/
structure Guarded (α : Type) where
  outcome : FileOutcome α
  clean : Bool

section Rename

structure RenameResult where
  path : Text
  kind : EntryKind
  updatedShares : ℕ
  auditDurability : AuditDurability

/-- A rename request; `sessionLive` is what `live_mfa_session` reads in the transaction. -/
structure RenameRequest where
  path : Text
  newName : Text
  sessionLive : Bool

/-- The end of a rename whose share update has been committed. -/
def finishRename (staged : StagedRename) (updatedShares : ℕ) : OpM (Guarded RenameResult) := do
  match ← Action.attempt staged.commit with
  | .ok () => pure ⟨.audited ⟨staged.newPath, staged.kind, updatedShares, .durable⟩, true⟩
  | .error (_ : IoError) =>
    let clean ← recoverUncertainFileOperationBeforeUnlock
    pure ⟨.audited ⟨staged.newPath, staged.kind, updatedShares, .uncertain⟩, clean⟩

/-- The transaction of a rename after its filesystem part. -/
def commitRename : RenameStageOutcome → OpM (Guarded RenameResult)
  | .publishedUncertain newPath kind _ => do
    let db ← databaseCall readDatabase
    databaseCall (commitTransaction db)
    let clean ← recoverUncertainFileOperationBeforeUnlock
    pure ⟨.audited ⟨newPath, kind, 0, .uncertain⟩, clean⟩
  | .ready staged => do
    let staged := staged.beginDatabaseCommit
    let db ← databaseCall readDatabase
    let (db', updatedShares, events) := renameSharePathsInTransaction staged.originalPath
      staged.newPath (staged.kind = .directory) false db
    match ← Action.attempt (commitTransaction (insertRequiredAudits events db')) with
    | .ok () => finishRename staged updatedShares
    | .error (_ : IoError) =>
      Action.mapError mapIo staged.drop
      let clean ← recoverUncertainFileOperationBeforeUnlock
      pure ⟨.uncertain ⟨staged.newPath, staged.kind, 0, .uncertain⟩, clean⟩

def rename (request : RenameRequest) : OpM (Guarded RenameResult) := do
  let (path, newName) ← Action.ofExcept (validatedRenamePaths request.path request.newName)
  databaseCall beginTransaction
  if request.sessionLive then
    let outcome ← Action.mapError mapIo (stageRenameWithOutcome path newName)
    commitRename outcome
  else pure ⟨.sessionUnavailable, true⟩

end Rename

end VaultLink
