import VaultLink.Schema

/-!
# Administrator authentication

The tables behind administrator logins and the transactions on them: password-verified
session creation, MFA completion, the live-session fence that guards every privileged
mutation, and the account operations that replace credentials. Each operation that
replaces a credential or deactivates an account deletes the administrator's sessions
and pending enrollments in the same transaction. Secrets are stored encrypted under a
per-row associated data; the model stores the plaintext. Usernames are unique up to
ASCII case and never change, and administrators are never deleted.
-/
namespace VaultLink

open KeyedTable

structure Admin where
  id : ℕ
  username : String
  passwordHash : String
  totpSecret : String
  totpGeneration : ℕ
  totpEnabled : Bool
  active : Bool
deriving DecidableEq

structure Session where
  tokenHash : String
  adminId : ℕ
  csrfToken : String
  mfaVerified : Bool
  expiresAt : Instant
  lastActivityAt : Instant
deriving DecidableEq

/-- `admin_mfa_enrollments`: at most one pending TOTP secret per administrator. -/
structure MfaEnrollment where
  adminId : ℕ
  tokenHash : String
  totpSecret : String
  createdAt : Instant
  expiresAt : Instant
deriving DecidableEq

structure WebauthnCredential where
  id : ℕ
  adminId : ℕ
  label : String
  credentialId : String
  credentialBlob : List UInt8
deriving DecidableEq

/-- `admin_totp_replay`: the highest accepted time step of the installed secret. -/
structure TotpReplay where
  adminId : ℕ
  lastStep : ℕ
deriving DecidableEq

structure AuthStore where
  admins : KeyedTable Admin.id
  sessions : KeyedTable Session.tokenHash
  enrollments : KeyedTable MfaEnrollment.adminId
  credentials : KeyedTable WebauthnCredential.id
  replay : KeyedTable TotpReplay.adminId
deriving DecidableEq

def AuthStore.empty : AuthStore := ⟨∅, ∅, ∅, ∅, ∅⟩

structure SessionTimes where
  now : Instant
  idleCutoff : Instant
  touchCutoff : Instant

def sessionTimes (idleMinutes : ℤ) (now : Instant) : SessionTimes :=
  ⟨now, now - seconds (60 * idleMinutes), now - seconds 60⟩

/-- Neither expired nor idle. -/
def Session.liveAt (session : Session) (times : SessionTimes) : Bool :=
  times.now < session.expiresAt && times.idleCutoff < session.lastActivityAt

def AuthStore.activeAdmin (s : AuthStore) (id : ℕ) : Option Admin :=
  (s.admins.find? id).filter Admin.active

section Steps

def revokeAdminAuthState (adminId : ℕ) (s : AuthStore) : AuthStore :=
  { s with
    sessions := s.sessions.deleteWhere fun session => session.adminId = adminId
    enrollments := s.enrollments.deleteWhere fun row => row.adminId = adminId }

def adminTotpStepIsFresh (adminId step : ℕ) (s : AuthStore) : Bool :=
  step ≤ maxSqliteUnsigned && (s.activeAdmin adminId).isSome &&
    !s.replay.any fun row => row.adminId = adminId && step ≤ row.lastStep

/-- `consume_admin_totp_step`: a step is consumed only when it is above the stored one. -/
def consumeAdminTotpStep (adminId step : ℕ) (s : AuthStore) : Option AuthStore :=
  if adminTotpStepIsFresh adminId step s then
    some { s with replay := s.replay.upsert ⟨adminId, step⟩ }
  else none

def cleanupAdminMfaEnrollments (now : Instant) (s : AuthStore) : AuthStore :=
  { s with enrollments := s.enrollments.deleteWhere fun row => row.expiresAt ≤ now }

structure MfaSessionProof where
  tokenHash : String
  adminId : ℕ
deriving DecidableEq

def liveMfaSession (proof : MfaSessionProof) (times : SessionTimes) (s : AuthStore) : Bool :=
  (s.sessions.find? proof.tokenHash).any fun session =>
    session.adminId = proof.adminId && session.mfaVerified && session.liveAt times &&
      (s.activeAdmin session.adminId).isSome

end Steps

section Sessions

inductive PasswordSessionCreationOutcome
  | created
  | adminNotFound
  | adminInactive
  | stalePassword
deriving DecidableEq

/-- `create_session_for_verified_password_and_audit`: the hash the caller verified must still
be the stored one of an active administrator. -/
def createSessionForVerifiedPassword (times : SessionTimes) (tokenHash : String) (adminId : ℕ)
    (expectedPasswordHash csrf : String) (expires : Instant) (s : AuthStore) :
    Except DbError (AuthStore × PasswordSessionCreationOutcome) :=
  let s₁ := { s with
    sessions := s.sessions.deleteWhere fun session =>
      session.expiresAt ≤ times.now || session.lastActivityAt ≤ times.idleCutoff }
  match s₁.admins.find? adminId with
  | none => .ok (s₁, .adminNotFound)
  | some admin =>
    if !admin.active then .ok (s₁, .adminInactive)
    else if admin.passwordHash ≠ expectedPasswordHash then .ok (s₁, .stalePassword)
    else match s₁.sessions.insert? ⟨tokenHash, adminId, csrf, false, expires, times.now⟩ with
      | none => .error .constraint
      | some sessions => .ok ({ s₁ with sessions }, .created)

/-- What `session_at` returns of a session. -/
structure SessionView where
  adminId : ℕ
  username : String
  csrfToken : String
  mfaVerified : Bool

/-- The `SELECT` of `session_at`. -/
def sessionAt (times : SessionTimes) (tokenHash : String) (s : AuthStore) : Option SessionView :=
  ((s.sessions.find? tokenHash).filter fun session => session.liveAt times).bind fun session =>
    (s.activeAdmin session.adminId).map fun admin =>
      ⟨admin.id, admin.username, session.csrfToken, session.mfaVerified⟩

/-- The guarded `UPDATE` with which `session_at` touches a session it has read. -/
def touchSession (times : SessionTimes) (tokenHash : String) (s : AuthStore) : AuthStore :=
  { s with
    sessions := s.sessions.updateWhere (fun session => session.tokenHash = tokenHash &&
        session.lastActivityAt ≤ times.touchCutoff && session.liveAt times) fun session =>
      { session with lastActivityAt := times.now } }

/-- The `DELETE` with which `session_at` removes a session it found expired or idle. -/
def deleteExpiredSession (times : SessionTimes) (tokenHash : String) (s : AuthStore) : AuthStore :=
  { s with
    sessions := s.sessions.deleteWhere fun session =>
      session.tokenHash = tokenHash && !session.liveAt times }

/-- `delete_session_and_audit`. -/
def deleteSession (tokenHash : String) (s : AuthStore) : AuthStore :=
  { s with sessions := s.sessions.deleteWhere fun session => session.tokenHash = tokenHash }

/-- An unverified session of the administrator that is still usable. -/
def AuthStore.preMfaSession (s : AuthStore) (times : SessionTimes) (tokenHash : String)
    (adminId : ℕ) : Option Session :=
  (s.sessions.find? tokenHash).filter fun session =>
    session.adminId = adminId && session.liveAt times && !session.mfaVerified

/-- The session rotation that ends both MFA paths. -/
def rotateSession (times : SessionTimes) (oldTokenHash newTokenHash newCsrf : String)
    (s : AuthStore) : Except DbError AuthStore :=
  match s.sessions.rekey? oldTokenHash fun session =>
      { session with
        tokenHash := newTokenHash, csrfToken := newCsrf, mfaVerified := true
        lastActivityAt := times.now } with
  | none => .error .constraint
  | some sessions => .ok { s with sessions }

/-- `verify_mfa_with_totp_step_and_audit`. -/
def verifyMfaWithTotpStep (times : SessionTimes) (oldTokenHash newTokenHash newCsrf : String)
    (adminId step : ℕ) (s : AuthStore) : Except DbError (AuthStore × Bool) :=
  let validSession := (s.preMfaSession times oldTokenHash adminId).isSome &&
    (s.activeAdmin adminId).any Admin.totpEnabled
  if !validSession then .ok (s, false)
  else match consumeAdminTotpStep adminId step s with
    | none => .ok (s, false)
    | some s₁ =>
      match rotateSession times oldTokenHash newTokenHash newCsrf s₁ with
      | .error e => .error e
      | .ok s₂ => .ok (s₂, true)

/-- `complete_webauthn_mfa_and_audit`: the stored credential must be the one the assertion was
checked against. -/
def completeWebauthnMfa (times : SessionTimes) (oldTokenHash newTokenHash newCsrf : String)
    (credentialId adminId : ℕ) (expectedBlob updatedBlob : List UInt8) (s : AuthStore) :
    Except DbError (AuthStore × Bool) :=
  let matching := fun row : WebauthnCredential => row.id = credentialId &&
    row.adminId = adminId && row.credentialBlob = expectedBlob
  if !(s.credentials.any matching && (s.preMfaSession times oldTokenHash adminId).isSome) then
    .ok (s, false)
  else
    let s₁ := { s with
      credentials := s.credentials.updateWhere matching fun row =>
        { row with credentialBlob := updatedBlob } }
    match rotateSession times oldTokenHash newTokenHash newCsrf s₁ with
    | .error e => .error e
    | .ok s₂ => .ok (s₂, true)

variable {times : SessionTimes} {s s' : AuthStore} {oldTokenHash newTokenHash csrf : String}
  {adminId : ℕ}

theorem consumeAdminTotpStep_some {step : ℕ} (h : consumeAdminTotpStep adminId step s = some s') :
    adminTotpStepIsFresh adminId step s = true ∧
      s' = { s with replay := s.replay.upsert ⟨adminId, step⟩ } := by
  rw [consumeAdminTotpStep] at h
  split at h
  · exact ⟨‹_›, (Option.some.inj h).symm⟩
  · cases h

theorem createSessionForVerifiedPassword_ok {tokenHash hash : String} {expires : Instant}
    {outcome : PasswordSessionCreationOutcome}
    (h : createSessionForVerifiedPassword times tokenHash adminId hash csrf expires s =
      .ok (s', outcome)) :
    (∃ sessions, s' = { s with sessions }) ∧
    (∀ x ∈ s'.sessions, x ∈ s.sessions ∨
      outcome = .created ∧ x.tokenHash = tokenHash ∧ x.adminId = adminId) ∧
    (outcome = .created → ∃ a ∈ s.admins, a.id = adminId ∧ a.active ∧ a.passwordHash = hash) := by
  simp only [createSessionForVerifiedPassword] at h
  cases hfound : s.admins.find? adminId with
  | none =>
    simp only [hfound] at h
    cases h
    exact ⟨⟨_, rfl⟩, fun x hx => .inl (mem_deleteWhere.mp hx).1, nofun⟩
  | some admin =>
    obtain ⟨hmem, hid⟩ := find?_eq_some_iff.mp hfound
    simp only [hfound] at h
    split_ifs at h with hinactive hstale
    · cases h
      exact ⟨⟨_, rfl⟩, fun x hx => .inl (mem_deleteWhere.mp hx).1, nofun⟩
    · cases h
      exact ⟨⟨_, rfl⟩, fun x hx => .inl (mem_deleteWhere.mp hx).1, nofun⟩
    · split at h <;> cases h
      rename_i sessions hins
      refine ⟨⟨_, rfl⟩, fun x hx => ?_, fun _ => ⟨admin, hmem, hid, ?_, not_not.mp hstale⟩⟩
      · rcases (mem_insert? hins).mp hx with rfl | hx
        · exact .inr ⟨rfl, rfl, rfl⟩
        · exact .inl (mem_deleteWhere.mp hx).1
      · simpa using hinactive

theorem sessionAt_some {tokenHash : String} {view : SessionView}
    (h : sessionAt times tokenHash s = some view) :
    ∃ x ∈ s.sessions, x.tokenHash = tokenHash ∧ x.adminId = view.adminId ∧
      ∃ a ∈ s.admins, a.id = view.adminId ∧ a.username = view.username := by
  obtain ⟨x, hx, hview⟩ := Option.bind_eq_some_iff.mp h
  obtain ⟨a, ha, rfl⟩ := Option.map_eq_some_iff.mp hview
  obtain ⟨hx, htok⟩ := find?_eq_some_iff.mp (Option.filter_eq_some_iff.mp hx).1
  obtain ⟨ha, hid⟩ := find?_eq_some_iff.mp (Option.filter_eq_some_iff.mp ha).1
  exact ⟨x, hx, htok, hid.symm, a, ha, rfl, rfl⟩

theorem rotateSession_ok {x : Session} (hx : x ∈ s.sessions)
    (h : rotateSession times x.tokenHash newTokenHash csrf s = .ok s') :
    (∃ sessions, s' = { s with sessions }) ∧
    ∀ y ∈ s'.sessions, y ∈ s.sessions ∨ y.tokenHash = newTokenHash ∧ y.adminId = x.adminId := by
  rw [rotateSession] at h
  split at h <;> cases h
  rename_i sessions hrekey
  refine ⟨⟨_, rfl⟩, fun y hy => ?_⟩
  rcases (mem_rekey? hx hrekey).mp hy with rfl | ⟨hy, -⟩
  · exact .inr ⟨rfl, rfl⟩
  · exact .inl hy

theorem AuthStore.preMfaSession_isSome (h : (s.preMfaSession times oldTokenHash adminId).isSome) :
    ∃ x ∈ s.sessions, x.tokenHash = oldTokenHash ∧ x.adminId = adminId := by
  obtain ⟨x, hx⟩ := Option.isSome_iff_exists.mp h
  obtain ⟨hx, hprops⟩ := Option.filter_eq_some_iff.mp hx
  obtain ⟨hx, htok⟩ := find?_eq_some_iff.mp hx
  exact ⟨x, hx, htok, by simp_all⟩

/-- An accepted TOTP login consumed its step and rotated the session it belongs to. -/
theorem verifyMfaWithTotpStep_accepted {step : ℕ}
    (h : verifyMfaWithTotpStep times oldTokenHash newTokenHash csrf adminId step s =
      .ok (s', true)) :
    ∃ x ∈ s.sessions, x.tokenHash = oldTokenHash ∧ x.adminId = adminId ∧
      (∀ y ∈ s'.sessions, y ∈ s.sessions ∨ y.tokenHash = newTokenHash ∧ y.adminId = x.adminId) ∧
      ∃ s₁ sessions, consumeAdminTotpStep adminId step s = some s₁ ∧ s' = { s₁ with sessions } := by
  simp only [verifyMfaWithTotpStep] at h
  split_ifs at h with hvalid
  · cases h
  cases hcons : consumeAdminTotpStep adminId step s with
  | none => simp [hcons] at h
  | some s₁ =>
    simp only [Bool.not_eq_true', Bool.not_eq_false, Bool.and_eq_true] at hvalid
    obtain ⟨x, hx, rfl, hadm⟩ := AuthStore.preMfaSession_isSome hvalid.1
    simp only [hcons] at h
    cases hrot : rotateSession times x.tokenHash newTokenHash csrf s₁ with
    | error e => simp [hrot] at h
    | ok s₂ =>
      simp only [hrot] at h
      cases h
      obtain ⟨-, rfl⟩ := consumeAdminTotpStep_some hcons
      obtain ⟨⟨sessions, hs⟩, hses⟩ := rotateSession_ok (by exact hx) hrot
      exact ⟨x, hx, rfl, hadm, hses, _, sessions, rfl, hs⟩

theorem verifyMfaWithTotpStep_rejected {step : ℕ}
    (h : verifyMfaWithTotpStep times oldTokenHash newTokenHash csrf adminId step s =
      .ok (s', false)) : s' = s := by
  simp only [verifyMfaWithTotpStep] at h
  split_ifs at h
  · cases h
    rfl
  · split at h
    · cases h
      rfl
    · split at h <;> cases h

theorem completeWebauthnMfa_accepted {credentialId : ℕ} {expected updated : List UInt8}
    (h : completeWebauthnMfa times oldTokenHash newTokenHash csrf credentialId adminId expected
      updated s = .ok (s', true)) :
    ∃ x ∈ s.sessions, x.tokenHash = oldTokenHash ∧
      (∀ y ∈ s'.sessions, y ∈ s.sessions ∨ y.tokenHash = newTokenHash ∧ y.adminId = x.adminId) ∧
      ∃ sessions credentials, s' = { s with sessions, credentials } := by
  simp only [completeWebauthnMfa] at h
  split_ifs at h with hvalid
  · cases h
  simp only [Bool.not_eq_true', Bool.not_eq_false, Bool.and_eq_true] at hvalid
  obtain ⟨x, hx, rfl, -⟩ := AuthStore.preMfaSession_isSome hvalid.2
  split at h <;> cases h
  rename_i hrot
  obtain ⟨⟨sessions, hs⟩, hses⟩ := rotateSession_ok (by exact hx) hrot
  exact ⟨x, hx, rfl, hses, sessions, _, hs⟩

theorem completeWebauthnMfa_rejected {credentialId : ℕ} {expected updated : List UInt8}
    (h : completeWebauthnMfa times oldTokenHash newTokenHash csrf credentialId adminId expected
      updated s = .ok (s', false)) : s' = s := by
  simp only [completeWebauthnMfa] at h
  split_ifs at h
  · cases h
    rfl
  · split at h <;> cases h

end Sessions

section Enrollment

/-- `ADMIN_MFA_ENROLLMENT_TTL_SECONDS`. -/
def adminMfaEnrollmentTtl : Instant := seconds (10 * 60)

inductive EnrollmentStartOutcome
  | started (expiresAt : Instant)
  | totpRejected

/-- `start_admin_mfa_enrollment_and_audit_for_session`, inside the fence. -/
def startAdminMfaEnrollment (now : Instant) (adminId : ℕ) (tokenHash totpSecret : String)
    (verifiedTotpStep : ℕ) (s : AuthStore) :
    Except DbError (AuthStore × EnrollmentStartOutcome) :=
  let s₁ := cleanupAdminMfaEnrollments now s
  match consumeAdminTotpStep adminId verifiedTotpStep s₁ with
  | none => .ok (s₁, .totpRejected)
  | some s₂ =>
    let expiresAt := now + adminMfaEnrollmentTtl
    -- the token hash is unique too, and only a conflict on the administrator is an update
    if s₂.enrollments.any fun row => row.adminId ≠ adminId && row.tokenHash = tokenHash then
      .error .constraint
    else
      .ok ({ s₂ with
        enrollments := s₂.enrollments.upsert ⟨adminId, tokenHash, totpSecret, now, expiresAt⟩ },
        .started expiresAt)

/-- A pending enrollment that the token opens. -/
def AuthStore.pendingEnrollment (s : AuthStore) (now : Instant) (adminId : ℕ)
    (tokenHash : String) : Option MfaEnrollment :=
  ((s.enrollments.find? adminId).filter fun row =>
      row.tokenHash = tokenHash && now < row.expiresAt).filter fun row =>
    (s.activeAdmin row.adminId).isSome

/-- `admin_mfa_enrollment`: the secret the confirmation code is checked against. -/
def adminMfaEnrollment (now : Instant) (adminId : ℕ) (tokenHash : String) (s : AuthStore) :
    AuthStore × Option String :=
  let s₁ := cleanupAdminMfaEnrollments now s
  (s₁, (s₁.pendingEnrollment now adminId tokenHash).map MfaEnrollment.totpSecret)

/-- Installs a TOTP secret: a new generation, enabled. -/
def Admin.withTotpSecret (totpSecret : String) (admin : Admin) : Admin :=
  { admin with totpSecret, totpGeneration := admin.totpGeneration + 1, totpEnabled := true }

def AuthStore.updateAdmin (s : AuthStore) (id : ℕ) (f : Admin → Admin)
    (hf : ∀ admin, (f admin).id = admin.id := by intros; rfl) : AuthStore :=
  { s with admins := s.admins.updateWhere (fun admin => admin.id = id) f hf }

/-- Installs a secret whose code at `step` has been confirmed: the replay row starts at that
step whatever it held for the previous secret. -/
def AuthStore.installConfirmed (s : AuthStore) (adminId : ℕ) (totpSecret : String) (step : ℕ) :
    AuthStore :=
  let s₁ := s.updateAdmin adminId (Admin.withTotpSecret totpSecret)
  { s₁ with replay := s₁.replay.upsert ⟨adminId, step⟩ }

inductive EnrollmentActivationOutcome
  | activated
  | notFoundOrExpired
deriving DecidableEq

/-- `activate_admin_mfa_enrollment_for_session`, inside the fence. -/
def activateAdminMfaEnrollment (now : Instant) (adminId : ℕ) (tokenHash : String)
    (verifiedTotpStep : ℕ) (s : AuthStore) : AuthStore × EnrollmentActivationOutcome :=
  let s₁ := cleanupAdminMfaEnrollments now s
  match s₁.pendingEnrollment now adminId tokenHash with
  | none => (s₁, .notFoundOrExpired)
  | some enrollment =>
    let s₂ := s₁.installConfirmed adminId enrollment.totpSecret verifiedTotpStep
    (revokeAdminAuthState adminId s₂, .activated)

end Enrollment

section Accounts

/-- SQLite's `NOCASE`: only ASCII letters are folded. -/
def noCase (username : String) : List Char :=
  username.toList.map fun c => if 'A' ≤ c ∧ c ≤ 'Z' then Char.ofNat (c.toNat + 32) else c

/-- `admin`: the active administrator with this username. -/
def AuthStore.admin (s : AuthStore) (username : String) : Option Admin :=
  s.admins.rows.find? fun admin => noCase admin.username = noCase username && admin.active

def insertAdmin (username passwordHash totpSecret : String) (s : AuthStore) :
    Except DbError (AuthStore × ℕ) :=
  if s.admins.any fun admin => noCase admin.username = noCase username then .error .constraint
  else
    let id := nextRowid (s.admins.rows.map Admin.id)
    match s.admins.insert? ⟨id, username, passwordHash, totpSecret, 1, true, true⟩ with
    | none => .error .constraint
    | some admins => .ok ({ s with admins }, id)

/-- `create_admin_and_audit_for_session`, inside the fence. -/
def createAdmin (username passwordHash totpSecret : String) (s : AuthStore) :
    Except DbError (AuthStore × ℕ) :=
  insertAdmin username passwordHash totpSecret s

/-- `create_initial_admin_and_audit`: `none` when the database is already initialized. -/
def createInitialAdmin (username passwordHash totpSecret : String) (s : AuthStore) :
    Except DbError (AuthStore × Option ℕ) :=
  if s.admins.any fun _ => true then .ok (s, none)
  else (insertAdmin username passwordHash totpSecret s).map fun (s', id) => (s', some id)

/-- `activate_admin_and_audit_for_session`, inside the fence. -/
def activateAdmin (id : ℕ) (s : AuthStore) : AuthStore × Bool :=
  (s.updateAdmin id fun admin => { admin with active := true }, (s.admins.find? id).isSome)

inductive AdminDeactivationOutcome
  | deactivated
  | alreadyInactive
  | lastActive
  | notFound
deriving DecidableEq

/-- `deactivate_admin_and_audit_for_session`, inside the fence. -/
def deactivateAdmin (id : ℕ) (s : AuthStore) : AuthStore × AdminDeactivationOutcome :=
  match s.admins.find? id with
  | none => (s, .notFound)
  | some admin =>
    if !admin.active then (revokeAdminAuthState id s, .alreadyInactive)
    else if s.admins.any fun other => other.active && other.id ≠ id then
      (revokeAdminAuthState id (s.updateAdmin id fun admin => { admin with active := false }),
        .deactivated)
    else (s, .lastActive)

inductive AdminPasswordChangeOutcome
  | changed
  | notFound
  | inactive
  | stalePassword
deriving DecidableEq

/-- `change_admin_password_cas_for_session`, inside the fence. -/
def changeAdminPasswordCas (id : ℕ) (expectedPasswordHash newPasswordHash : String)
    (s : AuthStore) : AuthStore × AdminPasswordChangeOutcome :=
  match s.admins.find? id with
  | none => (s, .notFound)
  | some admin =>
    if !admin.active then (s, .inactive)
    else if admin.passwordHash ≠ expectedPasswordHash then (s, .stalePassword)
    else
      (revokeAdminAuthState id
        (s.updateAdmin id fun admin => { admin with passwordHash := newPasswordHash }), .changed)

/-- `reset_admin_password_and_audit_for_session`, inside the fence. -/
def resetAdminPassword (id : ℕ) (passwordHash : String) (s : AuthStore) : AuthStore × Bool :=
  if (s.admins.find? id).isSome then
    (revokeAdminAuthState id (s.updateAdmin id fun admin => { admin with passwordHash }), true)
  else (s, false)

/-- Replaces the TOTP secret and forgets every other factor of the administrator. -/
def replaceTotpSecret (id : ℕ) (totpSecret : String) (s : AuthStore) : AuthStore :=
  let s₁ := s.updateAdmin id (Admin.withTotpSecret totpSecret)
  { s₁ with
    credentials := s₁.credentials.deleteWhere fun row => row.adminId = id
    replay := s₁.replay.deleteWhere fun row => row.adminId = id }

/-- `reset_admin_totp_and_audit_for_session`, inside the fence; `username` was read before. -/
def resetAdminTotp (id : ℕ) (username : Option String) (totpSecret : String) (s : AuthStore) :
    AuthStore × Option String :=
  match username with
  | none => (s, none)
  | some username => (revokeAdminAuthState id (replaceTotpSecret id totpSecret s), some username)

inductive AdminRecoveryOutcome
  | recovered (adminId : ℕ) (username : String) (active : Bool)
  | notFound

/-- The column updates of `recover_admin`; a missing value keeps the stored one. -/
def recoverCredentials (id : ℕ) (passwordHash totpSecret : Option String) (s : AuthStore) :
    AuthStore :=
  let s₁ := s.updateAdmin id fun admin =>
    { admin with passwordHash := passwordHash.getD admin.passwordHash }
  match totpSecret with
  | none => s₁
  | some totpSecret => replaceTotpSecret id totpSecret s₁

/-- `recover_admin`, run by a local operator without a session. -/
def recoverAdmin (username : String) (passwordHash totpSecret : Option String) (s : AuthStore) :
    Except DbError (AuthStore × AdminRecoveryOutcome) :=
  if passwordHash.isNone && totpSecret.isNone then .error .invalidParameterName
  else match s.admins.rows.find? fun admin => noCase admin.username = noCase username with
    | none => .ok (s, .notFound)
    | some admin =>
      let s₁ := recoverCredentials admin.id passwordHash totpSecret s
      .ok (revokeAdminAuthState admin.id s₁, .recovered admin.id admin.username admin.active)

theorem recoverAdmin_ok {username : String} {passwordHash totpSecret : Option String}
    {s s' : AuthStore} {outcome : AdminRecoveryOutcome}
    (h : recoverAdmin username passwordHash totpSecret s = .ok (s', outcome)) :
    s' = s ∧ outcome = .notFound ∨ ∃ admin ∈ s.admins,
      s' = revokeAdminAuthState admin.id (recoverCredentials admin.id passwordHash totpSecret s) ∧
        outcome = .recovered admin.id admin.username admin.active := by
  simp only [recoverAdmin] at h
  split_ifs at h
  split at h <;> cases h
  · exact .inl ⟨rfl, rfl⟩
  · rename_i admin hfind
    exact .inr ⟨admin, List.mem_of_find?_eq_some hfind, rfl, rfl⟩

end Accounts

section SecurityKeys

/-- `insert_admin_webauthn_credential_in_transaction`. -/
def insertAdminWebauthnCredential (adminId : ℕ) (label credentialId : String)
    (credentialBlob : List UInt8) (s : AuthStore) : Except DbError (AuthStore × ℕ) :=
  let id := nextRowid (s.credentials.rows.map WebauthnCredential.id)
  if label.length < 1 || 80 < label.length ||
      s.credentials.any fun row => row.credentialId = credentialId then .error .constraint
  else match s.credentials.insert? ⟨id, adminId, label, credentialId, credentialBlob⟩ with
    | none => .error .constraint
    | some credentials => .ok ({ s with credentials }, id)

def AuthStore.keyCount (s : AuthStore) (adminId : ℕ) : ℕ :=
  s.credentials.count fun row => row.adminId = adminId

def deleteCredential (id adminId : ℕ) (s : AuthStore) : AuthStore :=
  { s with
    credentials := s.credentials.deleteWhere fun row => row.id = id && row.adminId = adminId }

inductive CredentialDeletionOutcome
  | deleted
  | reauthenticationRejected
  | totpRejected
  | notDeleted
deriving DecidableEq

/-- `delete_admin_webauthn_credential_with_totp_for_mfa_session`, inside the fence. -/
def deleteAdminWebauthnCredentialWithTotp (id adminId : ℕ) (expectedPasswordHash : String)
    (expectedTotpGeneration totpStep : ℕ) (s : AuthStore) :
    AuthStore × CredentialDeletionOutcome :=
  let reauthenticationMatches := (s.activeAdmin adminId).any fun admin =>
    admin.passwordHash = expectedPasswordHash && admin.totpGeneration = expectedTotpGeneration
  if !reauthenticationMatches then (s, .reauthenticationRejected)
  -- a replayed code is reported before the credential policy is
  else if !adminTotpStepIsFresh adminId totpStep s then (s, .totpRejected)
  else if !(s.credentials.any (fun row => row.id = id && row.adminId = adminId) &&
      s.keyCount adminId ≠ 2) then (s, .notDeleted)
  else match consumeAdminTotpStep adminId totpStep s with
    | none => (s, .totpRejected)
    | some s₁ => (revokeAdminAuthState adminId (deleteCredential id adminId s₁), .deleted)

/-- `delete_admin_webauthn_credential_without_totp_for_mfa_session`, inside the fence. -/
def deleteAdminWebauthnCredentialWithoutTotp (id adminId : ℕ) (expectedPasswordHash : String)
    (s : AuthStore) : AuthStore × CredentialDeletionOutcome :=
  let reauthenticationMatches := (s.activeAdmin adminId).any fun admin =>
    admin.passwordHash = expectedPasswordHash && !admin.totpEnabled
  if !reauthenticationMatches then (s, .reauthenticationRejected)
  else if !(s.credentials.any (fun row => row.id = id && row.adminId = adminId) &&
      2 < s.keyCount adminId) then (s, .notDeleted)
  else (revokeAdminAuthState adminId (deleteCredential id adminId s), .deleted)

inductive TotpSettingOutcome
  | updated
  | unchanged
  | insufficientSecurityKeys
  | reauthenticationRejected
  | totpRejected
deriving DecidableEq

def AuthStore.setTotpEnabled (adminId : ℕ) (enabled : Bool) (s : AuthStore) : AuthStore :=
  s.updateAdmin adminId fun admin => { admin with totpEnabled := enabled }

/-- `set_admin_totp_enabled_with_reauthentication_for_mfa_session`, inside the fence. -/
def setAdminTotpEnabled (adminId : ℕ) (expectedPasswordHash : String)
    (expectedTotpGeneration : ℕ) (enabled : Bool) (totpStep : Option ℕ) (s : AuthStore) :
    AuthStore × TotpSettingOutcome :=
  match (s.activeAdmin adminId).filter fun admin =>
      admin.passwordHash = expectedPasswordHash &&
        admin.totpGeneration = expectedTotpGeneration with
  | none => (s, .reauthenticationRejected)
  | some admin =>
    if admin.totpEnabled = enabled then (s, .unchanged)
    else if enabled then (s.setTotpEnabled adminId true, .updated)
    else if s.keyCount adminId < 2 then (s, .insufficientSecurityKeys)
    else match totpStep with
      | none => (s, .totpRejected)
      | some step =>
        match consumeAdminTotpStep adminId step s with
        | none => (s, .totpRejected)
        | some s₁ => (s₁.setTotpEnabled adminId false, .updated)

end SecurityKeys

end VaultLink
