import VaultLink.Schema
import VaultLink.SqliteGlob

/-!
# Share rows and their administrative mutations

The transactions that create, change and delete share rows. Each is a function on the
store that returns the committed store with its result, or the error that rolls it
back. The path mutations select rows with two `GLOB` patterns assembled from an
escaped path; `pathMatches_iff` says which rows these are. Every mutation that can
change what an upload is allowed to do advances the row's policy epoch.
-/
namespace VaultLink

/-- The store left behind by a transaction: an error rolls it back. -/
def committed {α : Type} (s : Store) : Except DbError (Store × α) → Store
  | .ok (s', _) => s'
  | .error _ => s

/-- A rolled back transaction keeps what held before it. -/
theorem committed_inv {α : Type} {P : Store → Prop} {s : Store}
    {result : Except DbError (Store × α)} (hs : P s)
    (h : ∀ s' a, result = .ok (s', a) → P s') : P (committed s result) := by
  match result, h with
  | .ok (s', a), h => exact h s' a rfl
  | .error _, _ => exact hs

section PathPatterns

/-- `glob_literal`: the wildcard characters become one-element sets. -/
def globLiteral (value : Text) : Text := value.flatMap Glob.literal

/-- `path_globs`: the pattern of the path itself and the one of everything below it. -/
def pathGlobs (path : Text) : Text × Text :=
  (globLiteral path, globLiteral path ++ ['/', '*'])

/-- `relative_path GLOB exact OR (is_directory AND relative_path GLOB subtree)`. -/
def pathMatches (path : Text) (isDirectory : Bool) (share : Share) : Bool :=
  Glob.glob (pathGlobs path).1 share.relativePath ||
    (isDirectory && Glob.glob (pathGlobs path).2 share.relativePath)

/-- The patterns select the share at the path and, for a directory, those below it. -/
theorem pathMatches_iff (path : Text) (isDirectory : Bool) (share : Share) :
    pathMatches path isDirectory share = true ↔
      share.relativePath = path ∨
        isDirectory = true ∧ ∃ rest, share.relativePath = path ++ '/' :: rest := by
  have hslash : Glob.literal '/' = ['/'] := by decide
  simp only [pathMatches, pathGlobs, globLiteral, Bool.or_eq_true, Bool.and_eq_true,
    Glob.glob_literals, Glob.glob_literals_star _ '/' hslash]

end PathPatterns

section PathMutations

/-- The row assignment of a path rename. -/
def Share.renamed (oldPath newPath : Text) (share : Share) : Share :=
  { share with
    relativePath := newPath ++ share.relativePath.drop oldPath.length
    uploadPolicyEpoch := share.uploadPolicyEpoch + 1 }

/-- `rename_share_paths_in_transaction`: the number of rewritten shares and its audit event. -/
def renameSharePathsInTransaction (oldPath newPath : Text) (isDirectory recovery : Bool)
    (s : Store) : Store × ℕ × List AuditRow :=
  let updated := s.shares.count (pathMatches oldPath isDirectory)
  ({ s with
      shares := s.shares.updateWhere (pathMatches oldPath isDirectory)
        (Share.renamed oldPath newPath) },
    updated,
    [⟨.pathRenamed, some (String.ofList newPath),
      some s!"old_path={String.ofList oldPath};updated_shares={updated};recovery={recovery}"⟩])

/-- `rename_share_paths_and_audit`, the transaction recovery runs. -/
def renameSharePathsAndAudit (oldPath newPath : Text) (isDirectory recovery : Bool)
    (s : Store) : Store × ℕ :=
  let (s', updated, events) := renameSharePathsInTransaction oldPath newPath isDirectory recovery s
  (insertRequiredAudits events s', updated)

/-- The row assignment of a path deletion. -/
def Share.deactivated (share : Share) : Share :=
  { share with active := false, uploadPolicyEpoch := share.uploadPolicyEpoch + 1 }

def deactivateSharesForPathInTransaction (path : Text) (isDirectory recovery cleanupPending : Bool)
    (s : Store) : Store × ℕ × List AuditRow :=
  let selected := fun share : Share => share.active && pathMatches path isDirectory share
  let deactivated := s.shares.count selected
  let kind := if isDirectory then "directory" else "file"
  let cleanup := if cleanupPending then "pending" else "complete"
  ({ s with shares := s.shares.updateWhere selected Share.deactivated },
    deactivated,
    [⟨.pathDeleted, some (String.ofList path),
      some s!"kind={kind};deactivated_shares={deactivated};cleanup={cleanup};recovery={recovery}"⟩])

def deactivateSharesForPathAndAudit (path : Text) (isDirectory recovery cleanupPending : Bool)
    (s : Store) : Store × ℕ :=
  let (s', deactivated, events) :=
    deactivateSharesForPathInTransaction path isDirectory recovery cleanupPending s
  (insertRequiredAudits events s', deactivated)

end PathMutations

section RowMutations

/-- `set_share_active_for_mfa_session`. -/
def setShareActive (id : ℕ) (active : Bool) (action : AuditAction) (s : Store) : Store × Bool :=
  let changed := s.shares.count (fun share => share.id = id) = 1
  let s' := { s with
    shares := s.shares.updateWhere (fun share => share.id = id) fun share =>
      { share with
        uploadPolicyEpoch := share.uploadPolicyEpoch + if share.active ≠ active then 1 else 0
        active := active } }
  (insertRequiredAudits (if changed then [⟨action, some (toString id), none⟩] else []) s', changed)

/-- `set_share_password_for_mfa_session`: every unlock session of the share ends. -/
def setSharePassword (id : ℕ) (hash : Option String) (action : AuditAction) (s : Store) :
    Store × Bool :=
  let changed := s.shares.count (fun share => share.id = id) = 1
  let s' := { s with
    shares := s.shares.updateWhere (fun share => share.id = id) fun share =>
      { share with
        uploadPolicyEpoch := share.uploadPolicyEpoch + 1
        passwordHash := hash }
    unlockSessions := s.unlockSessions.deleteWhere fun session => session.shareId = id }
  (insertRequiredAudits (if changed then [⟨action, some (toString id), none⟩] else []) s', changed)

/-- `DELETE FROM public_transfer_grants` with its cascade to the leases. -/
def deleteGrantsWhere (p : Grant → Bool) (s : Store) : Store :=
  { s with
    grants := s.grants.deleteWhere p
    leases := s.leases.deleteWhere fun lease =>
      s.grants.any fun grant => grant.id = lease.grantId && p grant }

/-- `delete_share_for_mfa_session` with the cascades of its foreign keys. -/
def deleteShare (id : ℕ) (s : Store) : Store × Bool :=
  let deleted := s.shares.count (fun share => share.id = id) = 1
  let s' := deleteGrantsWhere (fun grant => grant.shareId = id) s
  let s' := { s' with
    shares := s'.shares.deleteWhere fun share => share.id = id
    unlockSessions := s'.unlockSessions.deleteWhere fun session => session.shareId = id
    usage := s'.usage.deleteWhere fun row => row.shareId = id
    reservations := s'.reservations.deleteWhere fun row => row.shareId = id }
  (insertRequiredAudits
    (if deleted then [⟨.shareDeleted, some (toString id), none⟩] else []) s', deleted)

end RowMutations

section UnlockSessions

/-- `create_unlock_session_for_verified_password_internal`. The password was verified outside
the transaction, so the insert selects the share only if it still has the verified hash and
the policy epoch read with it. -/
def createUnlockSession (now : Instant) (token : String) (shareId : ℕ) (verifiedHash : String)
    (expectedEpoch : ℕ) (csrfToken : String) (expires : Instant) (s : Store) :
    Except DbError (Store × Bool) :=
  let s₁ := { s with
    unlockSessions := s.unlockSessions.deleteWhere fun session => session.expiresAt ≤ now }
  if s₁.shares.any fun share => share.id = shareId && share.passwordHash = some verifiedHash &&
      share.uploadPolicyEpoch = expectedEpoch && share.active && share.unexpired now then
    match s₁.unlockSessions.insert? ⟨token, shareId, expires, csrfToken⟩ with
    | none => .error .constraint
    | some unlockSessions =>
      .ok (insertRequiredAudits [⟨.shareUnlocked, some (toString shareId), none⟩]
        { s₁ with unlockSessions }, true)
  else .ok (s₁, false)

/-- Only the unlock sessions and the audit log change. -/
theorem createUnlockSession_inv {now : Instant} {token : String} {shareId : ℕ}
    {verifiedHash : String} {expectedEpoch : ℕ} {csrfToken : String} {expires : Instant}
    {s : Store} {P : Store → Prop}
    (h : ∀ unlockSessions audit, P { s with unlockSessions, audit }) :
    P (committed s (createUnlockSession now token shareId verifiedHash expectedEpoch csrfToken
      expires s)) := by
  simp only [createUnlockSession]
  split
  · split <;> exact h _ _
  · exact h _ _

end UnlockSessions

section UploadControls

/-- `COALESCE((SELECT uploaded_bytes …), 0)`. -/
def Store.uploadedBytes (s : Store) (shareId : ℕ) : ℕ :=
  ((s.usage.find? shareId).map UploadUsage.uploadedBytes).getD 0

def Store.uploadedFiles (s : Store) (shareId : ℕ) : ℕ :=
  ((s.usage.find? shareId).map UploadUsage.uploadedFiles).getD 0

def Store.createdDirectories (s : Store) (shareId : ℕ) : ℕ :=
  ((s.usage.find? shareId).map UploadUsage.createdDirectories).getD 0

/-- The reservations of a share made under one policy epoch. -/
def ofEpoch (shareId epoch : ℕ) (row : Reservation) : Bool :=
  row.shareId = shareId && row.uploadPolicyEpoch = epoch

def Store.reservedBytes (s : Store) (shareId epoch : ℕ) : ℕ :=
  s.reservations.sum (ofEpoch shareId epoch) Reservation.reservedBytes

def Store.reservedFiles (s : Store) (shareId epoch : ℕ) : ℕ :=
  s.reservations.count (ofEpoch shareId epoch)

/-- `DELETE FROM public_upload_reservations WHERE expires_at<=now`. -/
def deleteExpiredReservations (now : Instant) (s : Store) : Store :=
  { s with reservations := s.reservations.deleteWhere fun row => row.expiresAt ≤ now }

inductive ShareControlsUpdateOutcome
  | updated
  | notFound
  | quotaConflict
deriving DecidableEq

/-- The row assignment of `update_share_controls`. A `NULL` argument keeps its column, and
the epoch advances when some column really changes. -/
def Share.controlled (active : Option Bool) (strategy : Option UploadConflictStrategy)
    (limits : Option (Limit × Limit)) (share : Share) : Share :=
  let changes := active.any (· ≠ share.active) ||
    strategy.any (· ≠ share.uploadConflictStrategy) ||
    limits.any (fun l => some l.1 ≠ share.maxUploadTotalSize) ||
    limits.any (fun l => some l.2 ≠ share.maxUploadFiles)
  { share with
    uploadPolicyEpoch := share.uploadPolicyEpoch + if changes then 1 else 0
    active := active.getD share.active
    uploadConflictStrategy := strategy.getD share.uploadConflictStrategy
    maxUploadTotalSize := (limits.map Prod.fst).orElse fun _ => share.maxUploadTotalSize
    maxUploadFiles := (limits.map Prod.snd).orElse fun _ => share.maxUploadFiles }

/-- `update_share_controls_for_mfa_session`. The limits are admitted only for a share that
accepts uploads and only when they cover what is stored and reserved. -/
def updateShareControls (now : Instant) (id : ℕ) (active : Option Bool)
    (strategy : Option UploadConflictStrategy) (uploadLimits : Option (ℕ × ℕ))
    (events : List AuditRow) (s : Store) :
    Except DbError (Store × ShareControlsUpdateOutcome × Option Share) :=
  let s₁ := deleteExpiredReservations now s
  match s₁.shares.find? id with
  | none => .ok (s₁, .notFound, none)
  | some share =>
    let update (limits : Option (Limit × Limit)) :=
      let s₂ := { s₁ with
        shares := s₁.shares.updateWhere (fun row => row.id = id)
          (Share.controlled active strategy limits) }
      .ok (insertRequiredAudits events s₂, .updated, s₂.shares.find? id)
    match uploadLimits with
    | none => update none
    | some (total, files) =>
      match Limit.ofNat? total, Limit.ofNat? files with
      | some totalLimit, some fileLimit =>
        if !share.isDirectory || !share.permission.canUpload then .error .invalidQuery
        else if total < s₁.uploadedBytes id + s₁.reservedBytes id share.uploadPolicyEpoch ||
            files < s₁.uploadedFiles id + s₁.reservedFiles id share.uploadPolicyEpoch then
          .ok (s₁, .quotaConflict, none)
        else update (some (totalLimit, fileLimit))
      | _, _ => .error .invalidQuery

/-- A committed update has rewritten the row, or nothing but the expired reservations. -/
theorem updateShareControls_inv {now : Instant} {id : ℕ} {active : Option Bool}
    {strategy : Option UploadConflictStrategy} {uploadLimits : Option (ℕ × ℕ)}
    {events : List AuditRow} {s : Store} {P : Store → Prop} (hs : P s)
    (hexpired : P (deleteExpiredReservations now s))
    (hupdated : ∀ limits, P (insertRequiredAudits events
      { deleteExpiredReservations now s with
        shares := s.shares.updateWhere (fun row => row.id = id)
          (Share.controlled active strategy limits) })) :
    P (committed s (updateShareControls now id active strategy uploadLimits events s)) := by
  simp only [updateShareControls]
  split
  · exact hexpired
  · split
    · exact hupdated none
    · split
      · split_ifs
        · exact hs
        · exact hexpired
        · exact hupdated _
      · exact hs

end UploadControls

section Creation

/-- The arguments of a share creation. -/
structure NewShare where
  tokenHash : String
  linkAlias : Option String
  path : Text
  isDirectory : Bool
  permission : Permission
  expires : Option Instant
  maxDownloads : Option ℕ
  maxUploadSize : Option ℕ
  uploadTotal : Option ℕ
  uploadFiles : Option ℕ
  passwordHash : Option String
  uploadConflictStrategy : UploadConflictStrategy
  createdBy : ℕ

/-- Binding a nullable limit column; the outer `none` is a refused value. -/
def bindLimit : Option ℕ → Option (Option Limit)
  | none => some none
  | some n => (Limit.ofNat? n).map some

/-- The argument check that precedes the insert: a share has upload limits exactly when it
accepts uploads, and its total covers a single file. -/
def NewShare.invalid (new : NewShare) : Bool :=
  let expectsUploadLimits := new.isDirectory && new.permission.canUpload
  let outOfRange := fun value : ℕ => value = 0 || maxSqliteUnsigned < value
  expectsUploadLimits != (new.uploadTotal.isSome && new.uploadFiles.isSome) ||
    new.uploadTotal.any outOfRange || new.uploadFiles.any outOfRange ||
    match new.uploadTotal, new.maxUploadSize with
    | some total, some single => total < single
    | _, _ => false

/-- `create_share_with_upload_limits_for_mfa_session`. -/
def createShare (now : Instant) (new : NewShare) (detail : Option String) (s : Store) :
    Except DbError (Store × ℕ) :=
  if new.invalid then .error .invalidQuery
  else match bindLimit new.maxDownloads, bindLimit new.maxUploadSize,
      bindLimit new.uploadTotal, bindLimit new.uploadFiles with
  | some maxDownloads, some maxUploadSize, some total, some files =>
    let conflict := s.shares.any fun row =>
      row.tokenHash = new.tokenHash || (new.linkAlias.isSome && row.linkAlias = new.linkAlias)
    if conflict then .error .constraint
    else
      let id := nextRowid (s.shares.rows.map Share.id)
      let row : Share :=
        { id, tokenHash := new.tokenHash, linkAlias := new.linkAlias, relativePath := new.path
          isDirectory := new.isDirectory, permission := new.permission, expiresAt := new.expires
          maxDownloads, maxUploadSize, maxUploadTotalSize := total, maxUploadFiles := files
          downloadCount := 0, active := true, createdBy := new.createdBy, createdAt := now
          passwordHash := new.passwordHash
          uploadConflictStrategy := new.uploadConflictStrategy, uploadPolicyEpoch := 0 }
      match s.shares.insert? row with
      | none => .error .constraint
      | some shares =>
        .ok (insertRequiredAudits [⟨.shareCreated, some (toString id), detail⟩]
          { s with shares }, id)
  | _, _, _, _ => .error .constraint

theorem bindLimit_isSome {value : Option ℕ} {limit : Option Limit}
    (h : bindLimit value = some limit) : limit.isSome = value.isSome := by
  cases value with
  | none =>
    cases h
    rfl
  | some =>
    obtain ⟨l, _, rfl⟩ := Option.map_eq_some_iff.mp h
    rfl

/-- A share that accepts uploads is created with both limits. -/
theorem NewShare.limits_of_valid {new : NewShare} (h : new.invalid = false)
    (hacpt : (new.isDirectory && new.permission.canUpload) = true) :
    new.uploadTotal.isSome = true ∧ new.uploadFiles.isSome = true := by
  simp only [NewShare.invalid, Bool.or_eq_false_iff, hacpt] at h
  have hboth : (new.uploadTotal.isSome && new.uploadFiles.isSome) = true := by
    simpa using h.1.1.1
  simpa using hboth

/-- A created share is one more row with the next id and an unused counter. -/
theorem createShare_inserts {now : Instant} {new : NewShare} {detail : Option String}
    {s s' : Store} {id : ℕ} (h : createShare now new detail s = .ok (s', id)) :
    ∃ row shares audit, s.shares.insert? row = some shares ∧ s' = { s with shares, audit } ∧
      row.id = id ∧ id = nextRowid (s.shares.rows.map Share.id) ∧ row.downloadCount = 0 ∧
      (row.acceptsUploads = true →
        row.maxUploadTotalSize.isSome = true ∧ row.maxUploadFiles.isSome = true) := by
  simp only [createShare] at h
  split at h
  · cases h
  · rename_i hvalid
    split at h
    · rename_i htot hfiles
      split at h
      · cases h
      · split at h
        · cases h
        · rename_i hins
          cases h
          refine ⟨_, _, _, hins, rfl, rfl, rfl, rfl, fun hacpt => ?_⟩
          have hlims := NewShare.limits_of_valid (by simpa using hvalid) hacpt
          exact ⟨(bindLimit_isSome htot).trans hlims.1,
            (bindLimit_isSome hfiles).trans hlims.2⟩
    · cases h

end Creation

end VaultLink
