import VaultLink.UploadCharging
import VaultLink.UploadForms

/-!
# Administrator uploads

`finalize_admin_upload`: the finalizer of an upload by an administrator, in the world of the
public ones. Making the folder and publishing the file each run inside a transaction that
holds the session: they do nothing unless the session is alive. A failure after they have
taken effect is reported as an uncertain audit and not as an error. So the one error that
allows a retry, the end of the session, comes back only where nothing was published.
-/
namespace VaultLink

open SecureDirectory
open VaultLink.Action (Maintains Meets)

section Errors

/-- `FileOperationError`, as far as an upload meets it. -/
inductive UploadOperationError
  | database
  | databaseCapacity
  | io (error : StorageError)

/-- `ADMIN_UPLOAD_SESSION_REVOKED`. -/
def sessionRevoked : AppError := ⟨401, "session_revoked"⟩

def fileOperationAppError : UploadOperationError → AppError
  | .databaseCapacity => ⟨503, "Database temporarily unavailable"⟩
  | .database | .io _ => .internal

def uploadDirectoryError : UploadOperationError → AppError
  | .io .invalidInput => ⟨400, "Invalid folder path"⟩
  | .io .notFound | .io .permissionDenied => ⟨409, "Upload folder could not be created"⟩
  | other => fileOperationAppError other

def uploadIoError : StorageError → AppError
  | .storageFull => ⟨507, "Not enough free storage"⟩
  | _ => .internal

def adminUploadPublishError : UploadOperationError → AppError
  | .io .alreadyExists =>
    ⟨409, "File already exists; replacement must be confirmed for this file"⟩
  | .io error => uploadIoError error
  | other => fileOperationAppError other

theorem fileOperationAppError_ne (error : UploadOperationError) :
    fileOperationAppError error ≠ sessionRevoked := by
  cases error <;> simp [fileOperationAppError, sessionRevoked, AppError.internal]

theorem adminUploadPublishError_ne (error : UploadOperationError) :
    adminUploadPublishError error ≠ sessionRevoked := by
  unfold adminUploadPublishError
  split
  · simp [sessionRevoked]
  · unfold uploadIoError
    split <;> simp [sessionRevoked, AppError.internal]
  · exact fileOperationAppError_ne _

end Errors

section Fence

inductive SessionBound (α : Type)
  | authorized (value : α)
  | sessionUnavailable

/-- A statement of the transaction, on tables that are not modelled here. -/
def statement {α : Type} (answer : Moment → α) : UploadM UploadOperationError α :=
  uploadStep (fun _ => .database) fun moment w => .ok (answer moment) w

/-- `required_transaction_for_mfa_session_audited`. The closure captures what it has done, and
the caller reads that when a later statement fails: it is the second component. -/
def requiredTransactionForMfaSession {ε α : Type} (operation : UploadM UploadOperationError α) :
    UploadM ε (Except UploadOperationError (SessionBound α) × Option α) := do
  match ← Action.attempt (statement Moment.sessionLive) with
  | .error error => pure (.error error, none)
  | .ok false =>
    let rollback ← Action.attempt (statement fun _ => ())
    pure (rollback.map fun _ => .sessionUnavailable, none)
  | .ok true =>
    match ← Action.attempt operation with
    | .error error => pure (.error error, none)
    | .ok outcome =>
      let commit ← Action.attempt (statement fun _ => ()) -- the audit rows and `COMMIT`
      pure (commit.map fun _ => .authorized outcome, some outcome)

def acquireDatabasePermit : UploadM UploadOperationError Unit :=
  uploadStep (fun _ => .databaseCapacity) fun _ w => .ok () w

/-- `spawn_blocking`: the task may be lost whatever it has done. -/
def spawnBlocking {ε α : Type} (task : UploadM ε α) : UploadM AppError (Except ε α) := do
  let result ← Action.attempt task
  Action.mapError (fun _ => .internal) quietStep
  pure result

end Fence

section Directory

structure UploadWarnings where
  storage : Bool
  audit : Bool

def UploadWarnings.any (warnings : UploadWarnings) : Bool := warnings.storage || warnings.audit

structure AdminDirectoryOutcome where
  created : List (List Text)
  storageUncertain : Bool
  auditUncertain : Bool
  complete : Bool

def createAdminDirectoryTree (base tree : Text) :
    UploadM UploadOperationError AdminDirectoryOutcome := do
  if !auditFits (joinDisplay base tree) "" then Action.fail .database
  else
    let outcome ← Action.mapError .io do
      let directory ← bindDirectory ⟨[], 0⟩ base
      directory.ensureDirectoryTreeWithOutcome tree
    let complete := outcome.terminalError.isNone
    pure ⟨outcome.created, outcome.syncError || !complete, false, complete⟩

def createAdminUploadDirectoryBlocking (base tree : Text) :
    UploadM UploadOperationError (SessionBound AdminDirectoryOutcome) := do
  match ← requiredTransactionForMfaSession (createAdminDirectoryTree base tree) with
  | (.error .database, some snapshot) =>
    if snapshot.created.isEmpty then Action.fail .database
    else pure (.authorized { snapshot with auditUncertain := true })
  | (result, _) => Action.ofExcept result

/-- What `ensure_admin_upload_directory` returns beside the permits. -/
structure EnsuredDirectory where
  directory : Text
  warnings : UploadWarnings
  complete : Bool
  created : Bool

def ensureAdminUploadDirectory (base relative : Text) : UploadM AppError EnsuredDirectory := do
  match normalizedPath relative with
  | none => Action.fail ⟨400, "Invalid folder path"⟩
  | some [] => pure ⟨base, ⟨false, false⟩, true, false⟩
  | some tree =>
    acquireStorageMutation
    Action.mapError fileOperationAppError acquireDatabasePermit
    let result ← spawnBlocking (createAdminUploadDirectoryBlocking base tree)
    match ← Action.ofExcept (result.mapError uploadDirectoryError) with
    | .sessionUnavailable => Action.fail sessionRevoked
    | .authorized outcome =>
      pure ⟨joinDisplay base tree, ⟨outcome.storageUncertain, outcome.auditUncertain⟩,
        outcome.complete, !outcome.created.isEmpty⟩

end Directory

section Publication

structure CommittedAdminUpload where
  upload : PreparedAdminUpload
  destination : SecureDirectory
  existed : Bool

def targetChanged : AppError := ⟨409, "Upload target changed in the meantime"⟩

/-- `SecureRoot::metadata`, as far as the path is there. -/
def metadata (path : Text) : UploadM StorageError Unit :=
  storageStep fun _ w =>
    match validateRelative path with
    | none => .err .permissionDenied w
    | some components =>
      match w.tree components with
      | some _ => .ok () w
      | none => .err .notFound w

def inspectAdminUploadTarget (destination : SecureDirectory) (upload : PreparedAdminUpload) :
    UploadM AppError Bool := do
  let current ← Action.mapError (fun _ => targetChanged) (bindDirectory ⟨[], 0⟩ upload.directory)
  if !(← Action.mapError (fun _ => .internal) (destination.sameDirectory current)) then
    Action.fail targetChanged
  else
    match ← Action.attempt (metadata (joinDisplay upload.directory upload.name)) with
    | .ok () => pure true
    | .error .notFound => pure false
    | .error _ => Action.fail .internal

def storageGuardIsHeld {ε : Type} : UploadM ε Bool := fun _ w => .ok w.locked w

/-- The task of `commit_admin_upload`. -/
def bindAdminUploadTarget (upload : PreparedAdminUpload) :
    UploadM AppError CommittedAdminUpload := do
  let destination ← Action.mapError (fun _ => targetChanged)
    (bindDirectory ⟨[], 0⟩ upload.directory)
  Action.mapError (fun _ => .internal) quietStep -- bind_destination
  let existed ← inspectAdminUploadTarget destination upload
  pure ⟨upload, destination, existed⟩

def commitAdminUpload (upload : PreparedAdminUpload) : UploadM AppError CommittedAdminUpload := do
  if !(← storageGuardIsHeld) then acquireStorageMutation
  let result ← spawnBlocking (bindAdminUploadTarget upload)
  Action.ofExcept result

structure PublishedAdminUpload where
  name : Text
  directory : Text
  replaced : Bool
  durabilityUncertain : Bool
  auditUncertain : Bool
  directoryWarnings : UploadWarnings

/-- `publish_admin_file`: the durability of the published file is uncertain. -/
def publishAdminFile (committed : CommittedAdminUpload) : UploadM UploadOperationError Bool := do
  let upload := committed.upload
  let path := joinDisplay upload.directory upload.name
  let detail := s!"file={String.ofList upload.name};bytes={upload.total};path={String.ofList path}"
  if !auditFits path detail then Action.fail .database
  else
    let outcome ← Action.mapError .io
      (publishFragment upload.overwriteExisting committed.destination upload.name)
    pure (outcome ≠ .durable)

def recoverAdminUploadAuditUncertainty :
    Except UploadOperationError (SessionBound Bool) → Option Bool →
      Except UploadOperationError (SessionBound (Bool × Bool))
  | .ok (.authorized durabilityUncertain), _ => .ok (.authorized (durabilityUncertain, false))
  | .ok .sessionUnavailable, _ => .ok .sessionUnavailable
  | .error .database, some durabilityUncertain => .ok (.authorized (durabilityUncertain, true))
  | .error error, _ => .error error

def publishAdminUploadBlocking (directoryWarnings : UploadWarnings)
    (committed : CommittedAdminUpload) :
    UploadM UploadOperationError (SessionBound PublishedAdminUpload) := do
  let upload := committed.upload
  let (result, snapshot) ← requiredTransactionForMfaSession (publishAdminFile committed)
  match ← Action.ofExcept (recoverAdminUploadAuditUncertainty result snapshot) with
  | .sessionUnavailable => pure .sessionUnavailable
  | .authorized (durabilityUncertain, auditUncertain) =>
    pure (.authorized ⟨upload.name, upload.directory, upload.overwriteExisting && committed.existed,
      durabilityUncertain, auditUncertain, directoryWarnings⟩)

def publishAdminUpload (directoryWarnings : UploadWarnings) (committed : CommittedAdminUpload) :
    UploadM AppError PublishedAdminUpload := do
  Action.mapError fileOperationAppError acquireDatabasePermit
  let result ← spawnBlocking (publishAdminUploadBlocking directoryWarnings committed)
  match ← Action.ofExcept (result.mapError adminUploadPublishError) with
  | .authorized outcome => pure outcome
  | .sessionUnavailable => Action.fail sessionRevoked

end Publication

section Finalizer

structure AdminUploadSuccess where
  file : Text
  disposition : UploadDisposition
  directory : Text
  auditDurabilityUncertain : Bool
  warnings : UploadWarnings

def finishAdminUpload (publication : PublishedAdminUpload) : AdminUploadSuccess :=
  let disposition := match publication.replaced, publication.durabilityUncertain with
    | true, true => .replacedUncertain
    | false, true => .createdUncertain
    | true, false => .replaced
    | false, false => .created
  let warnings := publication.directoryWarnings
  ⟨publication.name, disposition, publication.directory,
    warnings.any || publication.durabilityUncertain || publication.auditUncertain,
    ⟨warnings.storage || publication.durabilityUncertain,
      warnings.audit || publication.auditUncertain⟩⟩

/-- `finalize_admin_upload`: the result, and whether it is safe to retry. -/
def finalizeAdminUpload (upload : PreparedAdminUpload) :
    UploadM Empty (Except AppError AdminUploadSuccess × Bool) := do
  match ← Action.attempt (ensureAdminUploadDirectory upload.base upload.folderPath) with
  | .error error => pure (.error error, error = sessionRevoked)
  | .ok ensured =>
    let upload := { upload with directory := ensured.directory }
    if !ensured.complete then
      pure (.ok ⟨upload.name, .directoryUncertain, upload.directory, ensured.warnings.audit,
        ensured.warnings⟩, false)
    else
      match ← Action.attempt (commitAdminUpload upload) with
      | .error error => pure (.error error, false)
      | .ok committed =>
        match ← Action.attempt (publishAdminUpload ensured.warnings committed) with
        | .error error => pure (.error error, !ensured.created && error = sessionRevoked)
        | .ok publication => pure (.ok (finishAdminUpload publication), false)

/-- The state in which `process_admin_upload` finishes the operation. -/
def adminFinishState : Except AppError AdminUploadSuccess × Bool → FinishState
  | (.ok _, _) => .completed
  | (.error _, true) => .retryable
  | (.error _, false) => .outcomeUnknown

/-- What is left to do for a finalizer on the storage. -/
inductive Finalizer
  | share (committed : CommittedContext)
  | admin (upload : PreparedAdminUpload)

/-- Up to the state in which the operation is to be finished. -/
def Finalizer.run : Finalizer → UploadM Empty FinishState
  | .share committed => do
    let result ← Action.attempt (publishCommitted committed)
    pure (finishState result)
  | .admin upload => do
    let result ← finalizeAdminUpload upload
    pure (adminFinishState result)

end Finalizer

section Publications

variable {env : UploadEnvironment} {w : UploadWorld} {I J : UploadWorld → Prop} {ε α : Type}

/-- How many files have been published. -/
def UploadWorld.publications (t : UploadWorld) : ℕ := t.trace.countP UploadTrace.isPublished

/-- Other requests do not disturb `I`, nor do the storage authority and new directories. -/
structure UploadEnvironment.Respects (env : UploadEnvironment) (I : UploadWorld → Prop) :
    Prop where
  endures : env.Endures I
  locked : ∀ t locked, I t → I { t with locked }
  created : ∀ t tree path, I t → I ({ t with tree }.note (.created path))

theorem publications_created (t : UploadWorld) (tree : StorageTree) (path : List Text) :
    ({ t with tree }.note (.created path)).publications = t.publications := by
  simp [UploadWorld.publications, UploadWorld.note, UploadTrace.isPublished]

/-- As many files are published and staged as before. -/
def Unpublished (w t : UploadWorld) : Prop := t.publications = w.publications ∧ t.staged = w.staged

/-- What is published was staged before. -/
def FilesKept (w t : UploadWorld) : Prop :=
  t.publications + t.staged = w.publications + w.staged

theorem respects_unpublished : env.Respects (Unpublished w) where
  endures _ h := h
  locked _ _ h := h
  created t tree path h := ⟨(publications_created t tree path).trans h.1, h.2⟩

theorem respects_filesKept : env.Respects (FilesKept w) where
  endures _ h := h
  locked _ _ h := h
  created t tree path h := (congrArg (· + t.staged) (publications_created t tree path)).trans h

theorem Unpublished.filesKept {t : UploadWorld} (h : Unpublished w t) : FilesKept w t :=
  congrArg₂ (· + ·) h.1 h.2

theorem FilesKept.publications_le {t : UploadWorld} (h : FilesKept w t) :
    t.publications ≤ w.publications + 1 := by
  have hone : w.staged ≤ 1 := by
    unfold UploadWorld.staged
    split <;> omega
  unfold FilesKept at h
  omega

theorem FilesKept.renameFragment {t : UploadWorld} (h : FilesKept w t) (replace : Bool)
    (path : List Text) :
    Maintains (FilesKept w) (renameFragment replace path) env t fun _ _ => True := by
  have hpub : ∀ (fragment : UploadFragment) (tree : StorageTree),
      t.fragment = some fragment →
      FilesKept w ({ t.elapse env with tree, fragment := none }.note
        (.published path fragment.bytes)) := by
    intro fragment tree hfra
    simpa [FilesKept, UploadWorld.publications, UploadWorld.staged, UploadWorld.note,
      UploadTrace.isPublished, UploadWorld.elapse, hfra] using h
  unfold VaultLink.renameFragment storageStep
  refine maintains_uploadStep h fun _ => ?_
  split
  · exact h
  · exact h
  · rename_i fragment _ _ hfra _
    split
    · exact ⟨hpub fragment _ hfra, trivial⟩
    · exact h
  · rename_i fragment hfra _
    exact ⟨hpub fragment _ hfra, trivial⟩

theorem meets_spawnBlocking {task : UploadM ε α} {Q : Except ε α → UploadWorld → Prop}
    (hJ : env.Respects J) (hQ : ∀ result t, Q result t → Q result (t.elapse env) ∧ J t)
    (h : Meets task env w (fun a => Q (.ok a)) (fun e => Q (.error e)) J) :
    Meets (spawnBlocking task) env w Q (fun error t => error = .internal ∧ J t) J := by
  have hjoin : ∀ result t, Q result t → Meets (do
      Action.mapError (fun _ => .internal) quietStep
      pure result : UploadM AppError (Except ε α)) env t Q
      (fun error u => error = .internal ∧ J u) J := by
    intro result t ht
    refine Meets.mapBind (maintains_quietStep (hJ.endures t (hQ result t ht).2)) ?_
      fun _ _ hu => ⟨rfl, hu⟩
    rintro _ _ ⟨-, rfl⟩
    exact (hQ result t ht).1
  exact Meets.attempt h (fun a t ht => hjoin (.ok a) t ht) fun e t ht => hjoin (.error e) t ht

namespace UploadEnvironment.Respects

section Steps

variable (hI : env.Respects I) (hw : I w)

include hI hw

theorem ensureDirectoryTree {directory : SecureDirectory} {relative : Text} :
    Maintains I (directory.ensureDirectoryTreeWithOutcome relative) env w fun _ _ => True := by
  refine maintains_ensureDirectoryTreeWithOutcome hI.endures hw (P := fun _ _ => True) ?_
    (fun _ _ _ _ _ _ _ _ _ _ => trivial) fun _ _ => trivial
  intro current name rest t _ ht
  unfold mkdir storageStep
  refine maintains_uploadStep (hI.endures t ht) fun moment => ?_
  dsimp only
  split
  · exact hI.endures t ht
  · exact ⟨hI.created _ _ _ (hI.endures t ht), trivial⟩

theorem acquireStorageMutation : Maintains I acquireStorageMutation env w fun _ _ => True :=
  maintains_uploadStep (hI.endures w hw) fun _ => ⟨hI.locked _ _ (hI.endures w hw), trivial⟩

theorem acquireDatabasePermit : Maintains I acquireDatabasePermit env w fun _ _ => True :=
  maintains_uploadStep (hI.endures w hw) fun _ => ⟨hI.endures w hw, trivial⟩

theorem statement (answer : Moment → α) :
    Maintains I (statement answer) env w fun _ _ => True :=
  maintains_uploadStep (hI.endures w hw) fun _ => ⟨hI.endures w hw, trivial⟩

theorem inspectAdminUploadTarget {destination : SecureDirectory} {upload : PreparedAdminUpload} :
    Maintains I (inspectAdminUploadTarget destination upload) env w fun _ _ => True := by
  refine (maintains_bindDirectory (hI.endures w hw)).mapError.bind fun current t ht _ => ?_
  refine (maintains_sameDirectory hI.endures ht).mapError.bind fun same u hu _ => ?_
  split
  · exact hu
  have hmetadata : Maintains I (metadata (joinDisplay upload.directory upload.name)) env u
      fun _ _ => True := by
    unfold metadata storageStep
    refine maintains_uploadStep (hI.endures u hu) fun _ => ?_
    split
    · exact hI.endures u hu
    · split
      · exact ⟨hI.endures u hu, trivial⟩
      · exact hI.endures u hu
  refine hmetadata.attempt.bind fun result v hv _ => ?_
  split
  · exact ⟨hv, trivial⟩
  · exact ⟨hv, trivial⟩
  · exact hv

theorem commitAdminUpload {upload : PreparedAdminUpload} :
    Maintains I (commitAdminUpload upload) env w fun _ _ => True := by
  have hbind : ∀ t, I t → Maintains I (bindAdminUploadTarget upload) env t fun _ _ => True := by
    intro t ht
    refine (maintains_bindDirectory (hI.endures t ht)).mapError.bind fun destination u hu _ => ?_
    refine (maintains_quietStep (hI.endures u hu)).mapError.bind fun _ v hv _ => ?_
    exact (hI.inspectAdminUploadTarget hv).bind fun _ x hx _ => ⟨hx, trivial⟩
  have htask : ∀ t, I t → Maintains I (do
      let result ← spawnBlocking (bindAdminUploadTarget upload)
      Action.ofExcept result) env t fun _ _ => True := fun t ht => by
    refine Meets.bind (meets_spawnBlocking hI (Q := fun _ => I)
      (fun _ u hu => ⟨hI.endures u hu, hu⟩) ((hbind t ht).meets fun _ h => h))
      (fun result u hu => ?_) fun _ _ h => h.2
    exact (Maintains.ofExcept hu).mono fun _ _ _ _ => trivial
  have hheld : Maintains I (storageGuardIsHeld : UploadM AppError Bool) env w
      fun _ _ => True := ⟨hw, trivial⟩
  unfold VaultLink.commitAdminUpload
  refine hheld.bind fun held t ht _ => ?_
  split
  · exact (hI.acquireStorageMutation ht).bind fun _ u hu _ => htask u hu
  · exact htask t ht

end Steps

variable (hI : env.Respects I) (hJ : env.Respects J) (hIJ : ∀ t, I t → J t)

include hI hJ hIJ

/-- Without its session the operation does not run. -/
theorem requiredTransaction {operation : UploadM UploadOperationError α}
    (hoperation : ∀ t, I t → Maintains J operation env t fun _ _ => True) (hw : I w) :
    Meets (requiredTransactionForMfaSession operation : UploadM ε _) env w
      (fun result t => J t ∧ (result.1 = .ok .sessionUnavailable → I t)) (fun _ _ => False) J := by
  have hstatement : ∀ {β : Type} (answer : Moment → β) (t : UploadWorld), I t →
      Meets (VaultLink.statement answer) env t (fun _ => I) (fun _ => I) J :=
    fun answer t ht => (hI.statement ht answer).meets hIJ
  refine Meets.attempt (hstatement _ w hw) ?_ fun error t ht => ⟨hIJ t ht, nofun⟩
  rintro (_ | _) t ht
  · exact Meets.attempt (hstatement _ t ht) (fun _ u hu => ⟨hIJ u hu, fun _ => hu⟩)
      fun error u hu => ⟨hIJ u hu, nofun⟩
  · refine Meets.attempt (hoperation t ht) (fun outcome u hu => ?_) fun error u hu => ⟨hu, nofun⟩
    exact Meets.attempt (hJ.statement hu.1 _) (fun _ v hv => ⟨hv.1, nofun⟩)
      fun error v hv => ⟨hv, nofun⟩

/-- Publication reports the end of the session only where nothing was published. -/
theorem publishAdminUpload {warnings : UploadWarnings} {committed : CommittedAdminUpload}
    (hrename : ∀ replace path t, J t →
      Maintains J (renameFragment replace path) env t fun _ _ => True) (hw : I w) :
    Meets (publishAdminUpload warnings committed) env w (fun _ => J)
      (fun error t => J t ∧ (error = sessionRevoked → I t)) J := by
  have hfile : ∀ t, I t → Maintains J (publishAdminFile committed) env t fun _ _ => True := by
    intro t ht
    unfold publishAdminFile
    dsimp only
    split
    · exact hIJ t ht
    exact (maintains_publishFragment hJ.endures (hIJ t ht) hrename).mapError.bind
      fun _ u hu _ => ⟨hu, trivial⟩
  have hblocking : ∀ t, I t → Meets (publishAdminUploadBlocking warnings committed) env t
      (fun outcome u => J u ∧ (outcome = .sessionUnavailable → I u)) (fun _ => J) J := by
    intro t ht
    refine Meets.andThen (hI.requiredTransaction hJ hIJ hfile ht) ?_
    rintro ⟨result, snapshot⟩ u ⟨hu, hrevoked⟩
    refine Meets.ofExcept (fun outcome hout => ?_) fun _ => hu
    split
    · refine ⟨hu, fun _ => hrevoked ?_⟩
      unfold recoverAdminUploadAuditUncertainty at hout
      split at hout <;> first | rfl | cases hout
    · exact ⟨hu, nofun⟩
  refine Meets.mapBind ((hI.acquireDatabasePermit hw).meets hIJ) (fun _ t ht => ?_)
    fun error t ht => ⟨hIJ t ht, fun heq => absurd heq (fileOperationAppError_ne error)⟩
  refine Meets.bind (meets_spawnBlocking hJ
    (Q := fun (result : Except _ (SessionBound _)) u =>
      J u ∧ (result = .ok .sessionUnavailable → I u))
    (fun _ u hu => ⟨⟨hJ.endures u hu.1, fun heq => hI.endures u (hu.2 heq)⟩, hu.1⟩)
    (Meets.weaken (hblocking t ht) (fun _ _ h => ⟨h.1, fun heq => h.2 (Except.ok.inj heq)⟩)
      fun _ _ h => ⟨h, nofun⟩)) (fun result u hu => ?_) ?_
  · cases result with
    | error error => exact ⟨hu.1, fun heq => absurd heq (adminUploadPublishError_ne error)⟩
    | ok outcome =>
      cases outcome with
      | authorized => exact hu.1
      | sessionUnavailable => exact ⟨hu.1, fun _ => hu.2 rfl⟩
  · rintro error u ⟨rfl, hu⟩
    exact ⟨hu, fun heq => absurd heq (by simp [AppError.internal, sessionRevoked])⟩

omit hJ hIJ in
theorem ensureAdminUploadDirectory {base relative : Text} (hw : I w) :
    Maintains I (ensureAdminUploadDirectory base relative) env w fun _ _ => True := by
  have htree : ∀ tree t, I t → Maintains I (createAdminDirectoryTree base tree) env t
      fun _ _ => True := by
    intro tree t ht
    unfold createAdminDirectoryTree
    split
    · exact ht
    have hmake : Maintains I (do
        let directory ← bindDirectory ⟨[], 0⟩ base
        directory.ensureDirectoryTreeWithOutcome tree) env t fun _ _ => True :=
      (maintains_bindDirectory (hI.endures t ht)).bind fun _ u hu _ => hI.ensureDirectoryTree hu
    exact hmake.mapError.bind fun _ u hu _ => ⟨hu, trivial⟩
  have hblocking : ∀ tree t, I t → Meets (createAdminUploadDirectoryBlocking base tree)
      env t (fun _ => I) (fun _ => I) I := by
    intro tree t ht
    refine Meets.andThen (hI.requiredTransaction hI (fun _ h => h) (htree tree) ht)
      fun result u hu => ?_
    split
    · split
      · exact hu.1
      · exact hu.1
    · exact (Maintains.ofExcept hu.1).meets fun _ h => h
  unfold VaultLink.ensureAdminUploadDirectory
  split
  · exact hw
  · exact ⟨hw, trivial⟩
  refine (hI.acquireStorageMutation hw).bind fun _ t ht _ => ?_
  refine (hI.acquireDatabasePermit ht).mapError.bind fun _ u hu _ => ?_
  refine Meets.bind (meets_spawnBlocking hI (Q := fun _ => I)
    (fun _ u hu => ⟨hI.endures u hu, hu⟩) (hblocking _ u hu)) (fun result v hv => ?_)
    fun _ _ h => h.2
  refine (Maintains.ofExcept hv).bind fun outcome x hx _ => ?_
  split
  · exact hx
  · exact ⟨hx, trivial⟩

end UploadEnvironment.Respects

/-- However a finalizer ends, at most one file was published; when it allows a retry it is an
administrator's, and none was. -/
theorem Finalizer.run_publishes (finalizer : Finalizer) (env : UploadEnvironment)
    (w : UploadWorld) :
    Meets finalizer.run env w
      (fun state t => FilesKept w t ∧
        (state = .retryable → Unpublished w t ∧ ∃ upload, finalizer = .admin upload))
      (fun _ _ => False) (FilesKept w) := by
  have hkept := @respects_filesKept env w
  cases finalizer with
  | share committed =>
    refine Meets.attempt (maintains_publishCommitted hkept.endures rfl
      (fun _ t ht => hkept.ensureDirectoryTree ht) fun replace path t ht =>
      ht.renameFragment replace path) (fun outcome t ht => ⟨ht.1, ?_⟩) fun error t ht => ⟨ht, nofun⟩
    cases outcome <;> exact nofun
  | admin upload =>
    have hI := @respects_unpublished env w
    refine Meets.andThen (Q := fun result t => FilesKept w t ∧
      (adminFinishState result = .retryable → Unpublished w t)) ?_
      fun _ t ht => ⟨ht.1, fun heq => ⟨ht.2 heq, upload, rfl⟩⟩
    have hcrash : ∀ t, Unpublished w t → FilesKept w t := fun t ht => ht.filesKept
    refine Meets.attempt ((hI.ensureAdminUploadDirectory ⟨rfl, rfl⟩).meets hcrash)
      (fun ensured t ht => ?_)
      fun error t ht => ⟨ht.filesKept, fun _ => ht⟩
    dsimp only
    split
    · exact ⟨ht.filesKept, nofun⟩
    refine Meets.attempt ((hI.commitAdminUpload ht).meets hcrash) (fun committed u hu => ?_)
      fun error u hu => ⟨hu.filesKept, nofun⟩
    refine Meets.attempt (hI.publishAdminUpload hkept hcrash
      (fun replace path t ht => ht.renameFragment replace path) hu)
      (fun _ v hv => ⟨hv, nofun⟩) fun error v hv => ⟨hv.1, fun hretry => hv.2 ?_⟩
    by_contra hne
    simp [adminFinishState, hne] at hretry

end Publications

end VaultLink
