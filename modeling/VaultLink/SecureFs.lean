import VaultLink.FaultyAction
import VaultLink.Namespace

/-!
# System calls, identities and journals

The calls `secure_fs` makes into the kernel and into SQLite, and the journal and manifest
files it builds from them. An environment decides for every call whether it proceeds, fails
without effect, takes effect but reports an error, or whether the machine loses power before
it. What a power loss does to the files is up to the write-back log; a committed transaction
survives. Only the failures an environment injects are arbitrary: that a name exists, is
missing or is the wrong kind of entry is read from the namespace.

Tokens for private names come from a counter, so they are never drawn twice.
-/
namespace VaultLink

section Kernel

inductive ErrorKind
  | notFound
  | notADirectory
  | alreadyExists
  | invalidInput
  | invalidData
  | permissionDenied
  | directoryNotEmpty
  | other
deriving DecidableEq

/-- `io::Error`. -/
structure IoError where
  kind : ErrorKind
  message : String
deriving DecidableEq

inductive Syscall
  | duplicate
  | bindDirectory (path : List Text)
  | openPath (location : Location)
  | scan (location : Location)
  | list
  | read (name : StagingName)
  | create (name : StagingName)
  | write (name : StagingName)
  | syncFile (name : StagingName)
  | syncDirectory (target : SyncTarget)
  | rename (source destination : Location)
  | renameReplace (source destination : Location)
  | unlink (name : StagingName)
  | rmdir (name : StagingName)
  | beginTransaction
  | commitTransaction

inductive Fault
  | proceeds
  | fails
  | loses (kind : ErrorKind)
  | crashes (mask : List Bool)

/-- What happens to each call, by the time it is made, and whether the storage root was opened to
refuse links. -/
structure Environment where
  fault : ℕ → Syscall → Fault
  forbidSymlinks : Bool

structure World where
  files : WriteBack Namespace Mutation SyncTarget
  db : Store
  clock : ℕ
  tokens : ℕ

def World.view (w : World) : Namespace := w.files.view Mutation.apply

def World.mutate (w : World) (mutation : Mutation) : World :=
  { w with files := w.files.record mutation mutation.targets }

def World.powerLoss (w : World) (mask : List Bool) : World :=
  { w with files := w.files.crash Mutation.apply mask }

abbrev FsM := Action Environment World IoError

/-- The error of a call that the environment lets fail: `EIO`. -/
def IoError.injected : IoError := ⟨.other, "Input/output error"⟩

def call {α : Type} (syscall : Syscall) (effect : World → Outcome World IoError α) : FsM α :=
  fun env w =>
    let w' := { w with clock := w.clock + 1 }
    match env.fault w.clock syscall with
    | .proceeds => effect w'
    | .fails => .err .injected w'
    | .loses kind =>
      match effect w' with
      | .ok _ w'' => .err { IoError.injected with kind } w''
      | outcome => outcome
    | .crashes mask => .crash (w'.powerLoss mask)

/-- `File::try_clone`. -/
def duplicate : FsM Unit := call .duplicate fun w => .ok () w

/-- `SecureDirectory::bind_directory`, on the components of a validated path. -/
def bindDirectory (path : List Text) : FsM Directory := fun env =>
  call (.bindDirectory path) (fun w =>
    match resolve env.forbidSymlinks w.view.map path with
    | some directory => .ok directory w
    | none => .err ⟨.notFound, "No such file or directory"⟩ w) env

/-- `openat2` with `O_PATH | O_NOFOLLOW`, and the metadata of what it opened. -/
def openPath (location : Location) : FsM Entry := call (.openPath location) fun w =>
  match w.view.lookup location with
  | some entry => .ok entry w
  | none => .err ⟨.notFound, "No such file or directory"⟩ w

def Location.isIn (identity : FileIdentity) : Location → Bool
  | .visible (.node parent) _ => parent = identity
  | _ => false

/-- Some entry of the namespace lies in the directory. -/
def Namespace.hasChild (ns : Namespace) (identity : FileIdentity) : Bool :=
  ns.keys.any (Location.isIn identity)

/-- `openat2` with `O_DIRECTORY` and the first step of `read_dir`. -/
def scanNonEmpty (location : Location) : FsM Bool := call (.scan location) fun w =>
  match w.view.lookup location with
  | some (.object identity .directory) => .ok (w.view.hasChild identity) w
  | some _ => .err ⟨.notADirectory, "Not a directory"⟩ w
  | none => .err ⟨.notFound, "No such file or directory"⟩ w

def Location.stagingName : Location → Option StagingName
  | .staged name => some name
  | _ => none

/-- `snapshot_directory_names` of the private staging directory. -/
def snapshotDirectoryNames : FsM (List StagingName) := call .list fun w =>
  .ok (w.view.keys.filterMap Location.stagingName) w

/-- Opens and reads a record file; what the server did not write cannot be parsed. -/
def readRecord (name : StagingName) (what : String) : FsM Content := call (.read name) fun w =>
  match w.view.lookup (.staged name) with
  | some (.record content) => .ok content w
  | some (.object _ .file) => .ok .incomplete w
  | some (.object _ _) => .err ⟨.invalidData, what ++ " is not a small regular file"⟩ w
  | none => .err ⟨.notFound, "No such file or directory"⟩ w

/-- `openat2` with `O_CREAT | O_EXCL`. -/
def createRecord (name : StagingName) : FsM Unit := call (.create name) fun w =>
  match w.view.lookup (.staged name) with
  | some _ => .err ⟨.alreadyExists, "File exists"⟩ w
  | none => .ok () (w.mutate (.create name))

/-- `serde_json::to_writer` and `write_all`. -/
def writeRecord (name : StagingName) (content : Content) : FsM Unit := call (.write name) fun w =>
  .ok () (w.mutate (.write name content))

def World.sync (w : World) (target : SyncTarget) : World :=
  { w with files := w.files.sync Mutation.apply target }

/-- `File::sync_all` on a record file. -/
def syncFile (name : StagingName) : FsM Unit := call (.syncFile name) fun w =>
  .ok () (w.sync (.contents name))

/-- `File::sync_all` on a directory. -/
def syncDirectory (target : SyncTarget) : FsM Unit := call (.syncDirectory target) fun w =>
  .ok () (w.sync target)

/-- `renameat2` with `RENAME_NOREPLACE`. -/
def renameNoreplace (source destination : Location) : FsM Unit :=
  call (.rename source destination) fun w =>
    match w.view.lookup source, w.view.lookup destination with
    | none, _ => .err ⟨.notFound, "No such file or directory"⟩ w
    | some _, some _ => .err ⟨.alreadyExists, "File exists"⟩ w
    | some _, none => .ok () (w.mutate (.move source destination))

/-- `renameat`: replaces what is not a directory. -/
def renameReplace (source destination : Location) : FsM Unit :=
  call (.renameReplace source destination) fun w =>
    match w.view.lookup source, w.view.lookup destination with
    | none, _ => .err ⟨.notFound, "No such file or directory"⟩ w
    | some _, some (.object _ .directory) => .err ⟨.other, "Is a directory"⟩ w
    | some _, _ => .ok () (w.mutate (.move source destination))

/-- `unlinkat` in the staging directory. -/
def unlink (name : StagingName) : FsM Unit := call (.unlink name) fun w =>
  match w.view.lookup (.staged name) with
  | none => .err ⟨.notFound, "No such file or directory"⟩ w
  | some (.object _ .directory) => .err ⟨.other, "Is a directory"⟩ w
  | some _ => .ok () (w.mutate (.remove (.staged name)))

/-- `unlinkat` with `AT_REMOVEDIR`. -/
def rmdir (name : StagingName) : FsM Unit := call (.rmdir name) fun w =>
  match w.view.lookup (.staged name) with
  | none => .err ⟨.notFound, "No such file or directory"⟩ w
  | some (.object identity .directory) =>
    if w.view.hasChild identity then .err ⟨.directoryNotEmpty, "Directory not empty"⟩ w
    else .ok () (w.mutate (.remove (.staged name)))
  | some _ => .err ⟨.notADirectory, "Not a directory"⟩ w

/-- `BEGIN IMMEDIATE` and what is read before the operation. -/
def beginTransaction : FsM Unit := call .beginTransaction fun w => .ok () w

/-- The audit rows and `COMMIT`. -/
def commitTransaction (db : Store) : FsM Unit := call .commitTransaction fun w =>
  .ok () { w with db }

def randomToken : FsM ℕ := fun _ w => .ok w.tokens { w with tokens := w.tokens + 1 }

end Kernel

section Identity

inductive EntryIdentityState
  | expected
  | missing
  | replaced
deriving DecidableEq

/-- The entry is the object with this device, inode and kind. The files the server writes for
itself exist beside the object, so they never are. -/
def Entry.is (identity : ℕ × ℕ) (kind : EntryKind) : Entry → Bool
  | .object found type => (found.device, found.inode) = identity && type = kind.type
  | .record _ => false

def entryIdentityState (location : Location) (identity : ℕ × ℕ) (kind : EntryKind) :
    FsM EntryIdentityState := do
  match ← Action.attempt (openPath location) with
  | .ok entry => pure (if entry.is identity kind then .expected else .replaced)
  | .error error =>
    match error.kind with
    | .notFound | .notADirectory => pure .missing
    | _ => Action.fail error

def entryMatchesIdentity (location : Location) (identity : ℕ × ℕ) (kind : EntryKind) :
    FsM Bool := do
  match ← Action.attempt (entryIdentityState location identity kind) with
  | .ok state => pure (state = .expected)
  | .error _ => pure false

def entryExists (location : Location) : FsM Bool := do
  match ← Action.attempt (openPath location) with
  | .ok _ => pure true
  | .error error =>
    match error.kind with
    | .notFound | .notADirectory => pure false
    | _ => Action.fail error

end Identity

section Journal

/-- Runs a cleanup whose own failure is ignored. -/
def bestEffort (m : FsM Unit) : FsM Unit := do
  let _ : Except IoError Unit ← Action.attempt m
  pure ()

def writePendingManifest (pendingName : StagingName) (originalPath : Text) :
    FsM StagingName := do
  let manifestName := deletionManifestName pendingName
  createRecord manifestName
  let result ← Action.attempt do
    writeRecord manifestName (.manifest originalPath)
    syncFile manifestName
    syncDirectory .staging
  match result with
  | .ok () => pure manifestName
  | .error error =>
    bestEffort (unlink manifestName)
    bestEffort (syncDirectory .staging)
    Action.fail error

/-- `FileOperationWriteError`: the published name is there when only the last `fsync` failed. -/
structure FileOperationWriteError where
  error : IoError
  publishedName : Option StagingName

/-- Writes a journal under its temporary name and publishes it with `publish`; the flag of an
error says whether publication had happened. -/
def publishOperation (temporary : StagingName) (operation : DurableFileOperation)
    (publish : FsM Unit) : Action Environment World (IoError × Bool) Unit := do
  Action.mapError (·, false) do
    writeRecord temporary (.operation operation)
    syncFile temporary
    publish
  Action.mapError (·, true) (syncDirectory .staging)

/-- Removes the temporary of a journal that was not published. -/
def discardTemporary (temporary : StagingName) : FsM Unit := do
  bestEffort (unlink temporary)
  bestEffort (syncDirectory .staging)

/-- The attempts of `write_file_operation`, each with a new name. -/
def writeFileOperationAttempts (operation : DurableFileOperation) :
    ℕ → Action Environment World FileOperationWriteError StagingName
  | 0 => Action.fail ⟨⟨.alreadyExists, "could not allocate durable file-operation journal"⟩, none⟩
  | attempts + 1 => do
    let token ← Action.mapError (⟨·, none⟩) randomToken
    let operationName := StagingName.operation token
    let temporary := temporaryName operationName
    match ← Action.attempt (createRecord temporary) with
    | .error error =>
      if error.kind = .alreadyExists then writeFileOperationAttempts operation attempts
      else Action.fail ⟨error, none⟩
    | .ok () =>
      match ← Action.attempt (publishOperation temporary operation
          (renameNoreplace (.staged temporary) (.staged operationName))) with
      | .ok () => pure operationName
      | .error (error, true) => Action.fail ⟨error, some operationName⟩
      | .error (error, false) =>
        Action.mapError (⟨·, none⟩) (discardTemporary temporary)
        if error.kind = .alreadyExists then writeFileOperationAttempts operation attempts
        else Action.fail ⟨error, none⟩

def writeFileOperation (operation : DurableFileOperation) :
    Action Environment World FileOperationWriteError StagingName :=
  writeFileOperationAttempts operation 16

def replaceFileOperation (operationName : StagingName) (operation : DurableFileOperation) :
    FsM Unit := do
  if !isFileOperationName operationName then
    Action.fail ⟨.invalidInput, "invalid file-operation journal name"⟩
  else
    let temporary := temporaryName operationName
    createRecord temporary
    match ← Action.attempt (publishOperation temporary operation
        (renameReplace (.staged temporary) (.staged operationName))) with
    | .ok () => pure ()
    | .error (error, true) => Action.fail error
    | .error (error, false) => do
      discardTemporary temporary
      Action.fail error

def readFileOperation (operationName : StagingName) : FsM DurableFileOperation := do
  match ← readRecord operationName "file-operation journal" with
  | .operation operation => pure operation
  | _ => Action.fail ⟨.other, "invalid file-operation journal"⟩

def replaceDeleteOperationPhase (operationName : StagingName) (phase : DurableDeletePhase) :
    FsM Unit := do
  match ← readFileOperation operationName with
  | .delete operation => replaceFileOperation operationName (.delete { operation with phase })
  | .rename _ =>
    Action.fail ⟨.invalidData, "delete transaction references a rename journal"⟩

/-- Unlinks a record and makes the removal durable; a missing record is fine. -/
def removeRecord (name : StagingName) : FsM Unit := do
  match ← Action.attempt (unlink name) with
  | .ok () => syncDirectory .staging
  | .error error => if error.kind = .notFound then pure () else Action.fail error

def removeFileOperation (operationName : StagingName) : FsM Unit := removeRecord operationName

def readPendingManifest (manifestName : StagingName) : FsM Text := do
  match ← readRecord manifestName "deletion recovery manifest" with
  | .manifest originalPath => pure originalPath
  | _ => Action.fail ⟨.other, "invalid deletion recovery manifest"⟩

def removePendingManifest (manifestName : StagingName) : FsM Unit := removeRecord manifestName

end Journal

section Paths

/-- `split_parent_name`: the components of the parent, and the last one. -/
def splitParentName (relative : Text) : Except IoError (List Text × Text) :=
  match validateRelative relative with
  | none => .error ⟨.permissionDenied, "invalid relative path"⟩
  | some components =>
    match components.getLast? with
    | none => .error ⟨.invalidInput, "storage root cannot be mutated"⟩
    | some name =>
      if safeAdminFilename name then .ok (components.dropLast, name)
      else .error ⟨.permissionDenied, "invalid relative path"⟩

end Paths

end VaultLink
