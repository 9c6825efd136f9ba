import Mathlib.Data.Nat.Log
import VaultLink.FaultyAction
import VaultLink.PathSecurity
import VaultLink.TransferServer
import VaultLink.UploadOperations

/-!
# Public uploads

`public_upload_transport`: one upload from the lookup of its share to its visible file. A
step of the upload is a system call or a database transaction. Before each step other
requests commit whatever transactions they like, and while this upload does not hold the
storage authority they also change the tree. A step may fail, take effect and report a
failure all the same, or be the one before which the process stops.

The trace collects what the upload does to the outside: the shares it looks up, the quota
transaction it commits, the directories it makes and the file it publishes.
-/
namespace VaultLink

section Storage

inductive StorageNode
  | directory (inode : ℕ)
  | file (inode bytes : ℕ)

/-- What is visible at a path, given by its components. -/
abbrev StorageTree := List Text → Option StorageNode

/-- `io::ErrorKind`. -/
inductive StorageError
  | notFound
  | alreadyExists
  | invalidInput
  | permissionDenied
  | notADirectory
  | storageFull
  | other
deriving DecidableEq

/-- `SecureDirectory`: the path under which the directory was bound, and its inode. -/
structure SecureDirectory where
  path : List Text
  inode : ℕ

/-- `bind_directory`, component by component. -/
def StorageTree.bind (tree : StorageTree) : SecureDirectory → List Text →
    Except StorageError SecureDirectory
  | directory, [] => .ok directory
  | directory, name :: rest =>
    match tree (directory.path ++ [name]) with
    | some (.directory inode) => tree.bind ⟨directory.path ++ [name], inode⟩ rest
    | some (.file _ _) => .error .notADirectory
    | none => .error .notFound

def StorageTree.set (tree : StorageTree) (path : List Text) (node : StorageNode) : StorageTree :=
  Function.update tree path (some node)

end Storage

section Steps

inductive UploadTrace
  | lookedUp (token : String) (shareId : ℕ)
  | charged (before after : Store)
  | created (path : List Text)
  | published (path : List Text) (bytes : ℕ)

/-- The staged file: its inode and its length. -/
structure UploadFragment where
  inode : ℕ
  bytes : ℕ

/-- A call of `extend_upload_reservation_up_to`, with the store it meets. -/
structure ExtendCall where
  token : String
  minimum : ℕ
  preferred : ℕ
  store : Store

structure UploadWorld where
  store : Store
  tree : StorageTree
  fragment : Option UploadFragment
  locked : Bool
  clock : ℕ
  trace : List UploadTrace
  extendCalls : List ExtendCall

inductive StepFault
  | proceeds
  | fails (error : StorageError)
  | loses (error : StorageError)
  | stops

/-- What the clock, the kernel and the session table answer during a step. -/
structure Moment where
  now : Instant
  inode : ℕ
  heartbeatDue : Bool
  sessionLive : Bool

/-- What happens around each step, by its time. -/
structure UploadEnvironment where
  fault : ℕ → StepFault
  moment : ℕ → Moment
  transactions : ℕ → List Execution
  operations : ℕ → KeyedTable UploadOperation.idHash → KeyedTable UploadOperation.idHash
  reshape : ℕ → StorageTree → StorageTree

/-- What the other requests do before a step. -/
def UploadWorld.elapse (env : UploadEnvironment) (w : UploadWorld) : UploadWorld :=
  let store := History.state Execution.after w.store (env.transactions w.clock)
  { w with
    store := { store with uploadOperations := env.operations w.clock store.uploadOperations }
    tree := if w.locked then w.tree else env.reshape w.clock w.tree
    clock := w.clock + 1 }

def UploadWorld.note (w : UploadWorld) (event : UploadTrace) : UploadWorld :=
  { w with trace := w.trace ++ [event] }

/-- `PublicUploadTransportError`. -/
structure AppError where
  status : ℕ
  message : String
deriving DecidableEq

def AppError.internal : AppError := ⟨500, "Internal error"⟩

abbrev UploadM (ε : Type) := Action UploadEnvironment UploadWorld ε

def uploadStep {ε α : Type} (inject : StorageError → ε)
    (effect : Moment → UploadWorld → Outcome UploadWorld ε α) : UploadM ε α :=
  fun env w =>
    match env.fault w.clock with
    | .proceeds => effect (env.moment w.clock) (w.elapse env)
    | .fails error => .err (inject error) (w.elapse env)
    | .loses error =>
      match effect (env.moment w.clock) (w.elapse env) with
      | .ok _ w' => .err (inject error) w'
      | outcome => outcome
    | .stops => .crash (w.elapse env)

/-- A step on the storage. -/
def storageStep {α : Type} (effect : Moment → UploadWorld → Outcome UploadWorld StorageError α) :
    UploadM StorageError α := uploadStep id effect

/-- A step that changes nothing that is modelled. -/
def quietStep : UploadM StorageError Unit := storageStep fun _ w => .ok () w

/-- A transaction of this upload. -/
def database {α : Type} (transaction : Instant → Store → Except DbError (Store × α)) :
    UploadM AppError α :=
  uploadStep (fun _ => .internal) fun moment w =>
    match transaction moment.now w.store with
    | .ok (store, value) => .ok value { w with store }
    | .error _ => .err .internal w

def SecureDirectory.bindDirectory (directory : SecureDirectory) (relative : Text) :
    UploadM StorageError SecureDirectory :=
  storageStep fun _ w =>
    match validateRelative relative with
    | none => .err .permissionDenied w
    | some components =>
      match w.tree.bind directory components with
      | .ok bound => .ok bound w
      | .error error => .err error w

/-- `same_directory`, on the inodes. -/
def SecureDirectory.sameDirectory (directory other : SecureDirectory) :
    UploadM StorageError Bool :=
  storageStep fun _ w => .ok (directory.inode = other.inode) w

def SecureDirectory.entryExists (directory : SecureDirectory) (name : Text) :
    UploadM StorageError Bool := do
  match ← Action.attempt (storageStep fun _ w =>
      match w.tree (directory.path ++ [name]) with
      | some _ => .ok () w
      | none => .err .notFound w) with
  | .ok () => pure true
  | .error .notFound | .error .notADirectory => pure false
  | .error error => Action.fail error

end Steps

section Directories

/-- `PublishOutcome`, without the texts of its errors. -/
inductive PublishOutcome
  | durable
  | publishedSyncUncertain
  | publishedUncertain
deriving DecidableEq

/-- `mkdirat`. -/
def SecureDirectory.mkdir (directory : SecureDirectory) (name : Text) :
    UploadM StorageError Unit :=
  storageStep fun moment w =>
    let path := directory.path ++ [name]
    match w.tree path with
    | some _ => .err .alreadyExists w
    | none => .ok () ({ w with tree := w.tree.set path (.directory moment.inode) }.note
        (.created path))

def SecureDirectory.createDirectoryWithOutcome (directory : SecureDirectory) (name : Text) :
    UploadM StorageError PublishOutcome := do
  if !safeAdminFilename name then Action.fail .invalidInput
  else if ← directory.entryExists name then Action.fail .alreadyExists
  else
    match ← Action.attempt (directory.mkdir name) with
    | .ok () =>
      match ← Action.attempt quietStep with -- sync_created_directory_parent
      | .ok () => pure .durable
      | .error (_ : StorageError) => pure .publishedSyncUncertain
    | .error error =>
      match ← Action.attempt (directory.entryExists name) with
      | .ok false => Action.fail error
      | .ok true | .error (_ : StorageError) =>
        let _ : Except StorageError Unit ← Action.attempt quietStep
        pure .publishedUncertain

structure DirectoryTreeOutcome where
  created : List (List Text)
  syncError : Bool
  terminalError : Option StorageError

/-- An error after the first directory ends the tree, one before it is returned. -/
def endTree (created : List (List Text)) (syncError : Bool) (error : StorageError) :
    UploadM StorageError DirectoryTreeOutcome :=
  if created.isEmpty then Action.fail error else pure ⟨created, syncError, some error⟩

/-- The loop of `ensure_directory_tree_with_outcome` over the components. -/
def ensureComponents : List Text → SecureDirectory → List Text → List (List Text) → Bool →
    UploadM StorageError DirectoryTreeOutcome
  | [], _, _, created, syncError => pure ⟨created, syncError, none⟩
  | component :: rest, current, currentPath, created, syncError => do
    let path := currentPath ++ [component]
    let descend := fun (created : List (List Text)) (syncError : Bool) => do
      match ← Action.attempt (current.bindDirectory component) with
      | .ok child => ensureComponents rest child path created syncError
      | .error error => endTree created syncError error
    match ← Action.attempt (current.createDirectoryWithOutcome component) with
    | .ok outcome => descend (created ++ [path]) (syncError || outcome ≠ .durable)
    | .error .alreadyExists => descend created syncError
    | .error error => endTree created syncError error

def SecureDirectory.ensureDirectoryTreeWithOutcome (directory : SecureDirectory)
    (relative : Text) : UploadM StorageError DirectoryTreeOutcome :=
  match validateRelative relative with
  | none => Action.fail .invalidInput
  | some components =>
    if components.all safeAdminFilename then ensureComponents components directory [] [] false
    else Action.fail .invalidInput

end Directories

section Staging

/-- The multipart fields of the request, and what was drawn or claimed for it. -/
structure UploadRequest where
  token : String
  path : Text
  folderPath : Option Text
  fileName : Text
  overwriteRequested : Bool
  chunks : List ℕ
  operationHash : String
  reservationToken : String
  fingerprint : String
  fragmentName : String

/-- `RuntimeSettings` and the storage configuration. -/
structure UploadSettings where
  maxUploadSize : ℕ
  replacementsAllowed : Bool
  extensionIsBlocked : Text → Bool

/-- `config::MAX_UPLOAD_SIZE`. -/
def maximumUploadSize : ℕ := 128 * 1024 ^ 3 - 1024 * 1024

structure PublicUploadTarget where
  shareId : ℕ
  uploadPolicyEpoch : ℕ
  uploadBaseScope : SecureDirectory
  expectedDestination : Option SecureDirectory
  uploadBase : Text
  folderPath : Text
  uploadSubdir : Text
  fileName : Text

structure UploadQuotaReservation where
  token : String
  reservedBytes : ℕ

structure StagedUpload where
  total : ℕ
  reservation : UploadQuotaReservation
  target : PublicUploadTarget

structure PreparedUpload where
  reservation : UploadQuotaReservation
  target : PublicUploadTarget
  overwriteRequested : Bool
  total : ℕ

inductive UploadDisposition
  | created
  | replaced
  | createdUncertain
  | replacedUncertain
  | directoryUncertain
deriving DecidableEq

inductive PublicUploadOutcome
  | success (file uploadSubdir : Text) (disposition : UploadDisposition) (auditUncertain : Bool)
  | rejected (uploadSubdir : Text) (status : ℕ) (message : String)

/-- `PublicUploadPhaseError`: a rejection, or an error of the application. -/
inductive UploadPhaseError
  | rejection (uploadSubdir : Text) (status : ℕ) (message : String)
  | app (error : AppError)

inductive ShareAvailability
  | available
  | inactive
  | expired
  | limitReached
deriving DecidableEq

/-- `share_availability`. -/
def Share.availability (share : Share) (now : Instant) : ShareAvailability :=
  if !share.active then .inactive
  else if !share.unexpired now then .expired
  else if share.maxDownloads.any fun maximum => maximum.value ≤ share.downloadCount
  then .limitReached
  else .available

def getShare (token : String) : UploadM AppError Share :=
  uploadStep (fun _ => .internal) fun moment w =>
    match w.store.shares.rows.find? fun share => share.tokenHash = token with
    | none => .err ⟨404, "Link not found"⟩ w
    | some share =>
      if share.availability moment.now = .available then
        .ok share (w.note (.lookedUp token share.id))
      else .err ⟨410, "This link is no longer active"⟩ w

def normalizePublicUploadSubdir (permission : Permission) (value : Text) : Option Text :=
  if !permission.canUpload then none
  else if permission = .uploadOnly then some []
  else (validateRelative value).map ['/'].intercalate

def setFolderPath (value : Text) : Option Text :=
  match validateRelative value with
  | none => none
  | some components =>
    if 16 < components.length || components.any (fun component => !safeAdminFilename component)
    then none
    else some (['/'].intercalate components)

/-- `PublicUploadTargetBinding::run`. -/
def bindTarget (share : Share) (shareScope : SecureDirectory)
    (uploadBase folderPath uploadSubdir fileName : Text) :
    UploadM UploadPhaseError PublicUploadTarget := do
  match ← Action.attempt (shareScope.bindDirectory uploadBase) with
  | .error _ => Action.fail (.rejection uploadBase 404 "Target folder unavailable")
  | .ok uploadBaseScope =>
    let bound := fun expectedDestination : Option SecureDirectory =>
      (⟨share.id, share.uploadPolicyEpoch, uploadBaseScope, expectedDestination, uploadBase,
        folderPath, uploadSubdir, fileName⟩ : PublicUploadTarget)
    if folderPath.isEmpty then pure (bound (some uploadBaseScope))
    else
      match ← Action.attempt (uploadBaseScope.bindDirectory folderPath) with
      | .ok directory => pure (bound (some directory))
      | .error .notFound => pure (bound none)
      | .error _ => Action.fail (.rejection uploadBase 409 "Upload target unavailable")

def StagedUpload.begin (reservationToken : String) (target : PublicUploadTarget) :
    UploadM UploadPhaseError StagedUpload := do
  let outcome ← Action.mapError .app (database fun now s =>
    beginUploadReservation now reservationToken target.shareId target.uploadPolicyEpoch s)
  match outcome with
  | .byteQuotaReached =>
    Action.fail (.rejection target.uploadSubdir 507 "Cumulative upload limit reached")
  | .fileQuotaReached =>
    Action.fail (.rejection target.uploadSubdir 507 "Maximum number of uploaded files reached")
  | .shareUnavailable => Action.fail (.rejection target.uploadSubdir 410 "Share unavailable")
  | .reserved =>
    let created ← Action.attempt (storageStep fun moment w =>
      .ok () { w with fragment := some ⟨moment.inode, 0⟩ })
    match created with
    | .error _ => Action.fail (.rejection target.uploadSubdir 404 "Target folder unavailable")
    | .ok () => pure ⟨0, ⟨reservationToken, 0⟩, target⟩

def addUploadBytes (total chunk maximum : ℕ) : Option ℕ :=
  if total + chunk < 2 ^ 64 ∧ total + chunk ≤ maximum then some (total + chunk) else none

def nextPowerOfTwo (n : ℕ) : ℕ := 2 ^ Nat.clog 2 n

def preferredReservationTarget (received required reserved maximum : ℕ) : ℕ :=
  if required ≤ reserved then reserved
  else
    let step := nextPowerOfTwo (max (1024 * 1024) (min received (8 * 1024 * 1024)))
    min (if required + (step - 1) < 2 ^ 64 then (required + (step - 1)) / step * step else required)
      maximum

def storageRejection (uploadSubdir : Text) : StorageError → UploadPhaseError
  | .storageFull => .rejection uploadSubdir 507 "Not enough free storage"
  | _ => .app .internal

def UploadWorld.calling (w : UploadWorld) (call : ExtendCall) : UploadWorld :=
  { w with extendCalls := w.extendCalls ++ [call] }

/-- The call of `extend_upload_reservation_up_to`; the world remembers it however it ends. -/
def extendReservation (token : String) (minimum preferred : ℕ) :
    UploadM AppError (UploadReservationExtendOutcome × ℕ) := fun env w =>
  database (fun now s => extendUploadReservationUpTo now token minimum preferred s) env
    (w.calling ⟨token, minimum, preferred, (w.elapse env).store⟩)

/-- The extension of the reservation in `write_chunk`. -/
def StagedUpload.extend (upload : StagedUpload) (newTotal maximum : ℕ) :
    UploadM UploadPhaseError StagedUpload := do
  let minimum := max newTotal upload.reservation.reservedBytes
  let preferred := preferredReservationTarget upload.total newTotal
    upload.reservation.reservedBytes maximum
  let (outcome, accepted) ← Action.mapError .app
    (extendReservation upload.reservation.token minimum preferred)
  match outcome with
  | .extended =>
    pure { upload with reservation := { upload.reservation with reservedBytes := accepted } }
  | .byteQuotaReached =>
    Action.fail (.rejection upload.target.uploadSubdir 507 "Cumulative upload limit reached")
  | .notFound =>
    Action.fail (.rejection upload.target.uploadSubdir 408 "Upload reservation has expired")
  | .shareUnavailable =>
    Action.fail (.rejection upload.target.uploadSubdir 410 "Share was disabled during upload")

/-- A chunk needs more reserved bytes, or the reservation a sign of life. -/
def StagedUpload.extendWhen (due : Bool) (upload : StagedUpload) (newTotal maximum : ℕ) :
    UploadM UploadPhaseError StagedUpload :=
  if upload.reservation.reservedBytes < newTotal || due then upload.extend newTotal maximum
  else pure upload

/-- `last_heartbeat.elapsed()` against the interval. -/
def heartbeatDue : UploadM UploadPhaseError Bool :=
  fun env w => .ok (env.moment w.clock).heartbeatDue w

/-- `write_all` on the staged file. -/
def appendFragment (bytes : ℕ) : UploadM StorageError Unit := storageStep fun _ w =>
  .ok () { w with fragment := w.fragment.map fun f => { f with bytes := f.bytes + bytes } }

def StagedUpload.writeChunk (upload : StagedUpload) (maximum chunk : ℕ) :
    UploadM UploadPhaseError StagedUpload := do
  match addUploadBytes upload.total chunk maximum with
  | none => Action.fail (.rejection upload.target.uploadSubdir 413 "Upload is too large")
  | some newTotal =>
    let due ← heartbeatDue
    let upload ← upload.extendWhen due newTotal maximum
    Action.mapError (storageRejection upload.target.uploadSubdir) do
      quietStep -- UploadChunkReservation::acquire
      appendFragment chunk
    pure { upload with total := newTotal }

def StagedUpload.writeChunks (maximum : ℕ) : List ℕ → StagedUpload →
    UploadM UploadPhaseError StagedUpload
  | [], upload => pure upload
  | chunk :: rest, upload => do
    Action.mapError (fun _ => .rejection upload.target.uploadSubdir 400 "Upload aborted")
      quietStep -- the next chunk of the body
    let upload ← upload.writeChunk maximum chunk
    upload.writeChunks maximum rest

/-- The staging of the file field: `handle_file` once the target is bound, and `finish`. -/
def stageFile (request : UploadRequest) (maximum : ℕ) (target : PublicUploadTarget) :
    UploadM UploadPhaseError PreparedUpload := do
  let upload ← StagedUpload.begin request.reservationToken target
  let upload ← upload.writeChunks maximum request.chunks
  Action.mapError (storageRejection target.uploadSubdir) do
    quietStep -- flush
    quietStep -- sync_and_close
  pure ⟨upload.reservation, upload.target, request.overwriteRequested, upload.total⟩

/-- `PublicUploadFormPhase::run`, on the fields of a well-formed body. -/
def formPhase (settings : UploadSettings) (request : UploadRequest) (share : Share)
    (shareScope : SecureDirectory) : UploadM UploadPhaseError PreparedUpload :=
  match normalizePublicUploadSubdir share.permission request.path,
      setFolderPath (request.folderPath.getD []) with
  | none, _ => Action.fail (.rejection [] 400 "Invalid upload path")
  | some uploadBase, none => Action.fail (.rejection uploadBase 400 "Invalid folder path")
  | some uploadBase, some folderPath =>
    let uploadSubdir := joinDisplay uploadBase folderPath
    let targetPath := joinDisplay (joinDisplay share.relativePath uploadSubdir) request.fileName
    if request.overwriteRequested && !settings.replacementsAllowed then
      Action.fail (.rejection uploadBase 400
        "Overwriting is disabled with external storage writers")
    else if !safeAdminFilename request.fileName then
      Action.fail (.rejection uploadBase 400 "Invalid file name")
    else if settings.extensionIsBlocked request.fileName then
      Action.fail (.rejection uploadBase 415 "File type blocked")
    else if 4095 < (String.ofList targetPath).utf8ByteSize then
      Action.fail (.rejection uploadBase 400 "Upload path is too long")
    else do
      let target ← bindTarget share shareScope uploadBase folderPath uploadSubdir request.fileName
      stageFile request
        (min ((share.maxUploadSize.map Limit.value).getD settings.maxUploadSize) maximumUploadSize)
        target

/-- `reauthorize_claimed_public_upload` and the form phase. -/
def stageUpload (settings : UploadSettings) (request : UploadRequest) :
    UploadM UploadPhaseError PreparedUpload := do
  let share ← Action.mapError .app (getShare request.token)
  if !share.acceptsUploads then Action.fail (.app ⟨403, "Upload not allowed"⟩)
  else
    match ← Action.attempt (SecureDirectory.bindDirectory ⟨[], 0⟩ share.relativePath) with
    | .error _ => Action.fail (.app ⟨404, "Target folder unavailable"⟩)
    | .ok shareScope => formPhase settings request share shareScope

end Staging

section Finalizer

inductive FinalizerStep (α : Type)
  | proceed (context : α)
  | complete (outcome : PublicUploadOutcome)

structure StoragePreflight where
  currentBase : SecureDirectory
  currentDestination : Option SecureDirectory
  directoriesToCreate : ℕ
  existed : Bool

inductive PublicUploadStoragePreflightError
  | changed
  | internal
deriving DecidableEq

structure PreflightUpload where
  upload : PreparedUpload
  storage : StoragePreflight
  allowReplace : Bool
  replaced : Bool

structure CommittedUpload where
  target : PublicUploadTarget
  total : ℕ
  replace : Bool
  replaced : Bool

structure CommittedContext where
  upload : CommittedUpload
  currentBase : SecureDirectory
  currentDestination : Option SecureDirectory

structure PublicationReady where
  upload : CommittedUpload
  destination : SecureDirectory
  directoryDurabilityUncertain : Bool
  directoryAuditUncertain : Bool

/-- `acquire_storage_mutation`, with the recovery it runs. -/
def acquireStorageMutation : UploadM AppError Unit :=
  uploadStep (fun _ => ⟨503, "Storage state is being recovered"⟩) fun _ w =>
    .ok () { w with locked := true }

def finishClean {ε : Type} : UploadM ε Unit := fun _ w => .ok () { w with locked := false }

def PreparedUpload.cancel (upload : PreparedUpload) : UploadM AppError Unit := do
  let _ ← database fun _ s => .ok (cancelUploadReservation upload.reservation.token s)

/-- The loop of `bind_current_destination` from a component on. -/
def bindComponents : SecureDirectory → List Text →
    UploadM PublicUploadStoragePreflightError (Option SecureDirectory × ℕ)
  | directory, [] => pure (some directory, 0)
  | directory, component :: rest => do
    match ← Action.attempt (directory.bindDirectory component) with
    | .ok child => bindComponents child rest
    | .error .notFound => pure (none, rest.length + 1)
    | .error _ => Action.fail .changed

def bindCurrentDestination (target : PublicUploadTarget) (currentBase : SecureDirectory) :
    UploadM PublicUploadStoragePreflightError (Option SecureDirectory × ℕ) :=
  if target.folderPath.isEmpty then pure (some currentBase, 0)
  else bindComponents currentBase (target.folderPath.splitOn '/')

def PublicUploadTarget.expectedDestinationMatches (target : PublicUploadTarget)
    (current : Option SecureDirectory) : UploadM StorageError Bool :=
  match target.expectedDestination, current with
  | some expected, some current => expected.sameDirectory current
  | some _, none => pure false
  | none, _ => pure true

def PublicUploadTarget.destinationExists (target : PublicUploadTarget)
    (directory : SecureDirectory) : UploadM StorageError Bool := do
  match ← Action.attempt (storageStep fun _ w =>
      match w.tree (directory.path ++ [target.fileName]) with
      | some _ => .ok () w
      | none => .err .notFound w) with
  | .ok () => pure true
  | .error .notFound => pure false
  | .error error => Action.fail error

/-- Whether the current destination has the file; one that is missing has not. -/
def PublicUploadTarget.existsIn (target : PublicUploadTarget) :
    Option SecureDirectory → UploadM StorageError Bool
  | some destination => target.destinationExists destination
  | none => pure false

/-- `inspect_storage_target_blocking`. -/
def inspectStorageTarget (sharePath : Text) (target : PublicUploadTarget) :
    UploadM PublicUploadStoragePreflightError StoragePreflight := do
  let currentBase ← Action.mapError (fun _ => .changed) do
    let scope ← SecureDirectory.bindDirectory ⟨[], 0⟩ sharePath
    scope.bindDirectory target.uploadBase
  if !(← Action.mapError (fun _ => .internal) (target.uploadBaseScope.sameDirectory currentBase))
  then Action.fail .changed
  else
    let (currentDestination, directoriesToCreate) ← bindCurrentDestination target currentBase
    if !(← Action.mapError (fun _ => .internal)
        (target.expectedDestinationMatches currentDestination))
    then Action.fail .changed
    else
      let existed ← Action.mapError (fun _ => .internal) (target.existsIn currentDestination)
      pure ⟨currentBase, currentDestination, directoriesToCreate, existed⟩

/-- `preflight_upload` and `finish_preflight`. -/
def preflightUpload (settings : UploadSettings) (token : String) (upload : PreparedUpload) :
    UploadM AppError (FinalizerStep PreflightUpload) := do
  acquireStorageMutation
  let rejected := fun (status : ℕ) (message : String) =>
    (.complete (.rejected upload.target.uploadSubdir status message) :
      FinalizerStep PreflightUpload)
  match ← Action.attempt (getShare token) with
  | .error error =>
    finishClean
    upload.cancel
    Action.fail error
  | .ok share =>
    if share.id ≠ upload.target.shareId || !share.acceptsUploads then
      finishClean
      upload.cancel
      pure (rejected 410 "Share changed during upload")
    else
      let allowReplace := settings.replacementsAllowed &&
        share.uploadConflictStrategy = .overwriteAllowed && upload.overwriteRequested
      match ← Action.attempt (inspectStorageTarget share.relativePath upload.target) with
      | .error .changed =>
        finishClean
        upload.cancel
        pure (rejected 409 "Upload target changed during upload")
      | .error .internal =>
        finishClean
        upload.cancel
        Action.fail .internal
      | .ok storage =>
        if storage.existed && !allowReplace then
          finishClean
          upload.cancel
          pure (rejected 409 "File already exists.")
        else pure (.proceed ⟨upload, storage, allowReplace, allowReplace && storage.existed⟩)

/-- `commit_upload_reservation_and_audit_audited`, with the transaction on the trace. -/
def commitReservation (upload : PreparedUpload) (directories : ℕ) (operationHash : String) :
    UploadM AppError UploadReservationCommitOutcome :=
  uploadStep (fun _ => .internal) fun moment w =>
    match commitUploadReservation moment.now upload.reservation.token upload.total directories
        true (some operationHash) w.store with
    | .ok (store, .committed) => .ok .committed ({ w with store }.note (.charged w.store store))
    | .ok (store, outcome) => .ok outcome { w with store }
    | .error _ => .err .internal w

def commitUpload (operationHash : String) (context : PreflightUpload) :
    UploadM AppError (FinalizerStep CommittedContext) := do
  let rejected := fun (status : ℕ) (message : String) =>
    (.complete (.rejected context.upload.target.uploadSubdir status message) :
      FinalizerStep CommittedContext)
  match ← commitReservation context.upload context.storage.directoriesToCreate operationHash with
  | .committed =>
    let upload := ⟨context.upload.target, context.upload.total, context.allowReplace,
      context.replaced⟩
    pure (.proceed ⟨upload, context.storage.currentBase, context.storage.currentDestination⟩)
  | .notFound =>
    finishClean
    pure (rejected 408 "Upload reservation has expired")
  | .shareUnavailable =>
    finishClean
    pure (rejected 410 "Share was disabled during upload")
  | .directoryQuotaReached =>
    finishClean
    pure (rejected 507 "Maximum number of upload folders reached")

structure PublicUploadDirectoryOutcome where
  destination : Option SecureDirectory
  created : List (List Text)
  durabilityUncertain : Bool
  complete : Bool

/-- The error of a directory that could not be created, as the client sees it. -/
def directoryError : StorageError → AppError
  | .invalidInput => ⟨400, "Invalid folder path"⟩
  | .notFound | .permissionDenied => ⟨409, "Upload folder could not be created"⟩
  | _ => .internal

def ensurePublicUploadDirectory (baseScope : SecureDirectory) (relative : Text) :
    UploadM AppError PublicUploadDirectoryOutcome :=
  match validateRelative relative with
  | none => Action.fail ⟨400, "Invalid folder path"⟩
  | some [] => pure ⟨some baseScope, [], false, true⟩
  | some _ => Action.mapError directoryError do
    let outcome ← baseScope.ensureDirectoryTreeWithOutcome relative
    match outcome.terminalError with
    | some error =>
      if outcome.created.isEmpty then Action.fail error
      else pure ⟨none, outcome.created, true, false⟩
    | none =>
      match ← Action.attempt (baseScope.bindDirectory relative) with
      | .ok destination => pure ⟨some destination, outcome.created, outcome.syncError, true⟩
      | .error error =>
        if outcome.created.isEmpty then Action.fail error
        else pure ⟨none, outcome.created, true, false⟩

/-- An audit row that is only reported on: `persist_required_file_audit`. -/
def persistRequiredFileAudit : UploadM AppError Bool := do
  match ← Action.attempt quietStep with
  | .ok () => pure false
  | .error (_ : StorageError) => pure true

/-- The destination directory, created where it was missing. -/
def destinationDirectory (context : CommittedContext) :
    UploadM AppError PublicUploadDirectoryOutcome :=
  match context.currentDestination with
  | some destination => pure ⟨some destination, [], false, true⟩
  | none => ensurePublicUploadDirectory context.currentBase context.upload.target.folderPath

def auditDirectoryOutcome (directory : PublicUploadDirectoryOutcome) : UploadM AppError Bool :=
  if directory.created.isEmpty then pure false else persistRequiredFileAudit

def preparePublication (context : CommittedContext) :
    UploadM AppError (FinalizerStep PublicationReady) := do
  let target := context.upload.target
  let directory ← destinationDirectory context
  let auditUncertain ← auditDirectoryOutcome directory
  match directory.complete, directory.destination with
  | true, some destination =>
    if context.currentDestination.isNone then
      match ← Action.attempt (target.destinationExists destination) with
      | .error _ => Action.fail .internal
      | .ok true => pure (.complete (.rejected target.uploadSubdir 409 "File already exists."))
      | .ok false =>
        pure (.proceed ⟨context.upload, destination, directory.durabilityUncertain, auditUncertain⟩)
    else
      pure (.proceed ⟨context.upload, destination, directory.durabilityUncertain, auditUncertain⟩)
  | _, _ =>
    pure (.complete (.success target.fileName target.uploadSubdir .directoryUncertain
      auditUncertain))

/-- `renameat2` from the staging directory to the destination. -/
def renameFragment (replace : Bool) (path : List Text) : UploadM StorageError Unit :=
  storageStep fun _ w =>
    match w.fragment, w.tree path with
    | none, _ => .err .notFound w
    | some _, some (.directory _) => .err (if replace then .other else .alreadyExists) w
    | some fragment, some (.file _ _) =>
      if replace then
        .ok () ({ w with tree := w.tree.set path (.file fragment.inode fragment.bytes)
                         fragment := none }.note (.published path fragment.bytes))
      else .err .alreadyExists w
    | some fragment, none =>
      .ok () ({ w with tree := w.tree.set path (.file fragment.inode fragment.bytes)
                       fragment := none }.note (.published path fragment.bytes))

/-- `finish_publication` and `finish_uncertain_publication`. -/
def finishPublication (uncertain : Bool) : UploadM StorageError PublishOutcome := do
  match ← Action.attempt quietStep with -- sync_directory
  | .ok () => pure (if uncertain then .publishedUncertain else .durable)
  | .error (_ : StorageError) =>
    pure (if uncertain then .publishedUncertain else .publishedSyncUncertain)

/-- Whether the entry is the staged file: `entry_identity_state` is `Expected`. -/
def fragmentIsAt (inode : ℕ) (path : Option (List Text)) : UploadM StorageError Bool :=
  storageStep fun _ w =>
    match path with
    | some path =>
      match w.tree path with
      | some (.file found _) => .ok (found = inode) w
      | _ => .ok false w
    | none => .ok w.fragment.isSome w

/-- `publish` and `publish_replace`, with `reconcile_publication_error`. -/
def publishFragment (replace : Bool) (directory : SecureDirectory) (name : Text) :
    UploadM StorageError PublishOutcome := do
  if !safeAdminFilename name then Action.fail .invalidInput
  else
    quietStep -- validate_staging_identity
    let inode ← storageStep fun _ w => .ok ((w.fragment.map UploadFragment.inode).getD 0) w
    let path := directory.path ++ [name]
    match ← Action.attempt (renameFragment replace path) with
    | .ok () => finishPublication false
    | .error error =>
      match ← Action.attempt (fragmentIsAt inode (some path)) with
      | .ok true => finishPublication false
      | .ok false | .error (_ : StorageError) =>
        match ← Action.attempt (fragmentIsAt inode none) with
        | .ok true => Action.fail error
        | .ok false | .error (_ : StorageError) => finishPublication true

def publishError (uploadSubdir : Text) : StorageError → UploadM AppError PublicUploadOutcome
  | .alreadyExists => pure (.rejected uploadSubdir 409 "File already exists.")
  | .storageFull => pure (.rejected uploadSubdir 507 "Not enough free storage")
  | _ => Action.fail .internal

/-- `publish_and_audit` and `record_publication`. -/
def publishAndAudit (context : PublicationReady) : UploadM AppError PublicUploadOutcome := do
  let upload := context.upload
  Action.mapError (fun _ => .internal) quietStep -- bind_destination
  match ← Action.attempt
      (publishFragment upload.replace context.destination upload.target.fileName) with
  | .error error => publishError upload.target.uploadSubdir error
  | .ok outcome =>
    let uncertain := context.directoryDurabilityUncertain || outcome ≠ .durable
    let auditUncertain ← persistRequiredFileAudit
    let disposition := match upload.replaced, uncertain with
      | true, true => UploadDisposition.replacedUncertain
      | false, true => .createdUncertain
      | true, false => .replaced
      | false, false => .created
    pure (.success upload.target.fileName upload.target.uploadSubdir disposition
      (context.directoryAuditUncertain || auditUncertain))

/-- The end of `PublicUploadFinalizer::run`, once the upload is charged. -/
def publishCommitted (committed : CommittedContext) : UploadM AppError PublicUploadOutcome := do
  match ← preparePublication committed with
  | .complete outcome => pure outcome
  | .proceed publication => publishAndAudit publication

/-- `PublicUploadFinalizer::run`. -/
def runFinalizer (settings : UploadSettings) (request : UploadRequest) (upload : PreparedUpload) :
    UploadM AppError PublicUploadOutcome := do
  match ← preflightUpload settings request.token upload with
  | .complete outcome => pure outcome
  | .proceed preflight =>
    match ← commitUpload request.operationHash preflight with
    | .complete outcome => pure outcome
    | .proceed committed => publishCommitted committed

/-- The state in which the operation is finished. -/
def finishState : Except AppError PublicUploadOutcome → FinishState
  | .ok (.success ..) => .completed
  | .ok (.rejected ..) => .rejected
  | .error _ => .outcomeUnknown

def runPublicUploadFinalizer (settings : UploadSettings) (request : UploadRequest)
    (upload : PreparedUpload) : UploadM AppError PublicUploadOutcome := do
  let marked ← database fun _ s => .ok (markUploadCommitting request.operationHash s)
  if !marked then Action.fail ⟨409, "Upload operation changed"⟩
  else
    let result : Except AppError PublicUploadOutcome ←
      Action.attempt (runFinalizer settings request upload)
    let persisted ← database fun now s =>
      .ok (finishUploadOperation now request.operationHash (finishState result) none s)
    if !persisted then Action.fail ⟨409, "Upload operation changed"⟩
    else
      finishClean -- the guard goes, clean or with a request for recovery
      Action.ofExcept result

def executeClaimedPublicUpload (settings : UploadSettings) (request : UploadRequest) :
    UploadM AppError PublicUploadOutcome := do
  match ← Action.attempt (stageUpload settings request) with
  | .error (.app error) => Action.fail error
  | .error (.rejection uploadSubdir status message) =>
    let _ ← database fun now s =>
      .ok (finishUploadOperation now request.operationHash .rejected none s)
    pure (.rejected uploadSubdir status message)
  | .ok upload =>
    let bound ← database fun _ s => .ok (bindUploadFingerprint request.operationHash
      request.fingerprint request.fragmentName s)
    if !bound then Action.fail ⟨409, "Upload operation content differs"⟩
    else runPublicUploadFinalizer settings request upload

end Finalizer

end VaultLink
