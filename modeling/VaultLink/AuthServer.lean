import VaultLink.AdminAuth

/-!
# Interleavings of administrator requests

Processes sharing one database handle administrator requests. A request first presents a
session token, later reads the administrator or enrollment row it checks a password or a
TOTP code against, and only then runs its transaction; every other request and the local
recovery command may commit in between. The state carries, next to the committed store,
the requests in flight and a history that the code does not keep: who logged in with which
password hash, which transactions revoked whose authentication state, which closures ran
behind the live-session fence, and which TOTP secrets were installed and steps accepted.
-/
namespace VaultLink

/-- The random values the processes draw: hashes of session and enrollment tokens, and TOTP
secrets. -/
structure Entropy where
  tokenHash : ℕ → String
  totpSecret : ℕ → String

/-- No drawn value repeats an earlier one. -/
structure Entropy.NeverRepeats (rng : Entropy) : Prop where
  tokens : Function.Injective rng.tokenHash
  secrets : Function.Injective rng.totpSecret

/-- Values of growing length, as an instance of `NeverRepeats`. -/
def unaryEntropy : Entropy where
  tokenHash n := String.ofList (List.replicate n 't')
  totpSecret n := String.ofList (List.replicate n 's')

theorem unaryEntropy_neverRepeats : unaryEntropy.NeverRepeats where
  tokens m n h := by simpa using congrArg List.length (String.ofList_inj.mp h)
  secrets m n h := by simpa using congrArg List.length (String.ofList_inj.mp h)

/-- One clock reading together with the idle timeout configured at that moment. -/
structure ClockReading where
  now : Instant
  idleMinutes : ℤ

def ClockReading.times (clock : ClockReading) : SessionTimes :=
  sessionTimes clock.idleMinutes clock.now

/-- The password login behind a session token; a rotated token keeps the login of the token
it replaces. -/
structure LoginRecord where
  tokenHash : String
  adminId : ℕ
  verifiedHash : String
  createdAt : ℕ
deriving DecidableEq

structure EnrollmentRecord where
  tokenHash : String
  adminId : ℕ
  totpSecret : String
  createdAt : ℕ

/-- A committed transaction that revoked an administrator's authentication state. -/
structure Revocation where
  adminId : ℕ
  time : ℕ
deriving DecidableEq

/-- A closure that ran behind the live-session fence. -/
structure FencedRun where
  proof : MfaSessionProof
  time : ℕ

inductive TotpEvent
  | installed (adminId : ℕ) (totpSecret : String)
  /-- A transaction accepted `step` for a code that had been checked against `totpSecret`. -/
  | accepted (adminId : ℕ) (totpSecret : String) (step : ℕ)
deriving DecidableEq

/-- A request in flight: what `session_at` returned for its token, and the rows it has read
since. -/
structure Request where
  tokenHash : String
  view : SessionView
  presentedAt : ℕ
  admin : Option Admin
  enrollment : Option (String × String)

def Request.proof (request : Request) : MfaSessionProof := ⟨request.tokenHash, request.view.adminId⟩

structure AuthServer where
  store : AuthStore
  time : ℕ
  tokensDrawn : ℕ
  secretsDrawn : ℕ
  requests : List Request
  logins : List LoginRecord
  enrolled : List EnrollmentRecord
  revocations : List Revocation
  runs : List FencedRun
  /-- Newest first. -/
  totp : List TotpEvent

def AuthServer.initial : AuthServer := ⟨AuthStore.empty, 0, 0, 0, [], [], [], [], [], []⟩

/-- What a committed transaction did: the new store, whose authentication state it revoked,
the enrollment it started, and its TOTP installations and acceptances, newest first. -/
structure AccountEffect where
  store : AuthStore
  revoked : Option ℕ
  started : Option MfaEnrollment
  totp : List TotpEvent

def AccountEffect.plain (s : AuthStore) : AccountEffect := ⟨s, none, none, []⟩

/-- The closures that requests pass to the live-session fence. Arguments are what the request
itself supplies; passwords and codes are checked against the rows the request has read. -/
inductive FencedOp
  | changePassword (newPasswordHash : String)
  | resetPassword (id : ℕ) (passwordHash : String)
  | resetTotp (id : ℕ) (username : Option String)
  | startEnrollment (now : Instant) (step : ℕ)
  | activateEnrollment (now : Instant) (step : ℕ)
  | deleteKeyWithTotp (id step : ℕ)
  | deleteKeyWithoutTotp (id : ℕ)
  | setTotpEnabled (enabled : Bool) (step : Option ℕ)
  | deactivate (id : ℕ)
  | activate (id : ℕ)
  | createAdmin (username passwordHash : String)
  | addKey (label credentialId : String) (blob : List UInt8)
  /-- A mutation of other tables, or a commit outside the database. -/
  | other

section Effects

variable (tokenHash totpSecret : String) (adminId : ℕ) (admin : Admin) (s : AuthStore)

def changePasswordEffect (newPasswordHash : String) : AccountEffect :=
  match changeAdminPasswordCas adminId admin.passwordHash newPasswordHash s with
  | (s', .changed) => ⟨s', some adminId, none, []⟩
  | (s', _) => .plain s'

def resetPasswordEffect (id : ℕ) (passwordHash : String) : AccountEffect :=
  match resetAdminPassword id passwordHash s with
  | (s', true) => ⟨s', some id, none, []⟩
  | (s', false) => .plain s'

def resetTotpEffect (id : ℕ) (username : Option String) : AccountEffect :=
  match resetAdminTotp id username totpSecret s with
  | (s', some _) => ⟨s', some id, none, [.installed id totpSecret]⟩
  | (s', none) => .plain s'

def startEnrollmentEffect (now : Instant) (step : ℕ) : Except DbError AccountEffect :=
  match startAdminMfaEnrollment now adminId tokenHash totpSecret step s with
  | .error e => .error e
  | .ok (s', .started expiresAt) =>
    .ok ⟨s', none, some ⟨adminId, tokenHash, totpSecret, now, expiresAt⟩,
      [.accepted adminId admin.totpSecret step]⟩
  | .ok (s', .totpRejected) => .ok (.plain s')

/-- The stored secret is installed; the confirmed code was checked against the secret the
request has read. -/
def activateEnrollmentEffect (token checkedSecret : String) (now : Instant) (step : ℕ) :
    AccountEffect :=
  match activateAdminMfaEnrollment now adminId token step s with
  | (s', .activated) =>
    let installed := ((s'.admins.find? adminId).map Admin.totpSecret).getD checkedSecret
    ⟨s', some adminId, none, [.accepted adminId checkedSecret step, .installed adminId installed]⟩
  | (s', .notFoundOrExpired) => .plain s'

def deleteKeyWithTotpEffect (id step : ℕ) : AccountEffect :=
  match deleteAdminWebauthnCredentialWithTotp id adminId admin.passwordHash
      admin.totpGeneration step s with
  | (s', .deleted) =>
    ⟨s', some adminId, none, [.accepted adminId admin.totpSecret step]⟩
  | (s', _) => .plain s'

def deleteKeyWithoutTotpEffect (id : ℕ) : AccountEffect :=
  match deleteAdminWebauthnCredentialWithoutTotp id adminId admin.passwordHash s with
  | (s', .deleted) => ⟨s', some adminId, none, []⟩
  | (s', _) => .plain s'

def enableTotpEffect : AccountEffect :=
  .plain (setAdminTotpEnabled adminId admin.passwordHash admin.totpGeneration true none s).1

def disableTotpEffect (step : ℕ) : AccountEffect :=
  match setAdminTotpEnabled adminId admin.passwordHash admin.totpGeneration false (some step) s with
  | (s', .updated) => ⟨s', none, none, [.accepted adminId admin.totpSecret step]⟩
  | (s', _) => .plain s'

def deactivateEffect (id : ℕ) : AccountEffect :=
  match deactivateAdmin id s with
  | (s', .deactivated) | (s', .alreadyInactive) => ⟨s', some id, none, []⟩
  | (s', _) => .plain s'

def createAdminEffect (username passwordHash : String) : Except DbError AccountEffect :=
  (createAdmin username passwordHash totpSecret s).map fun (s', id) =>
    ⟨s', none, none, [.installed id totpSecret]⟩

def addKeyEffect (label credentialId : String) (blob : List UInt8) :
    Except DbError AccountEffect :=
  (insertAdminWebauthnCredential adminId label credentialId blob s).map fun (s', _) => .plain s'

def recoverAdminEffect (username : String) (passwordHash : Option String) (resetMfa : Bool) :
    Except DbError AccountEffect :=
  let secret := if resetMfa then some totpSecret else none
  (recoverAdmin username passwordHash secret s).map fun
    | (s', .recovered id _ _) =>
      ⟨s', some id, none, secret.toList.map (TotpEvent.installed id)⟩
    | (s', .notFound) => .plain s'

def createInitialAdminEffect (username passwordHash : String) : Except DbError AccountEffect :=
  (createInitialAdmin username passwordHash totpSecret s).map fun
    | (s', some id) => ⟨s', none, none, [.installed id totpSecret]⟩
    | (s', none) => .plain s'

end Effects

section EffectCases

variable {totpSecret : String} {s : AuthStore} {effect : AccountEffect}

theorem createAdminEffect_cases {username passwordHash : String}
    (h : createAdminEffect totpSecret s username passwordHash = .ok effect) :
    ∃ s₁ id, insertAdmin username passwordHash totpSecret s = .ok (s₁, id) ∧
      effect = ⟨s₁, none, none, [.installed id totpSecret]⟩ := by
  simp only [createAdminEffect, createAdmin] at h
  cases hins : insertAdmin username passwordHash totpSecret s with
  | error => simp [hins, Except.map] at h
  | ok pair =>
    simp only [hins, Except.map] at h
    cases h
    exact ⟨pair.1, pair.2, rfl, rfl⟩

theorem createInitialAdminEffect_cases {username passwordHash : String}
    (h : createInitialAdminEffect totpSecret s username passwordHash = .ok effect) :
    effect = .plain s ∨
    ∃ s₁ id, insertAdmin username passwordHash totpSecret s = .ok (s₁, id) ∧
      effect = ⟨s₁, none, none, [.installed id totpSecret]⟩ := by
  simp only [createInitialAdminEffect, createInitialAdmin] at h
  split_ifs at h
  · cases h
    exact .inl rfl
  cases hins : insertAdmin username passwordHash totpSecret s with
  | error => simp [hins, Except.map] at h
  | ok pair =>
    simp only [hins, Except.map] at h
    cases h
    exact .inr ⟨pair.1, pair.2, rfl, rfl⟩

theorem recoverAdminEffect_cases {username : String} {passwordHash : Option String}
    {resetMfa : Bool}
    (h : recoverAdminEffect totpSecret s username passwordHash resetMfa = .ok effect) :
    effect = .plain s ∨ ∃ id,
      effect = ⟨revokeAdminAuthState id (recoverCredentials id passwordHash
        (if resetMfa then some totpSecret else none) s), some id, none,
        if resetMfa then [.installed id totpSecret] else []⟩ := by
  rw [recoverAdminEffect] at h
  cases hrecover : recoverAdmin username passwordHash
      (if resetMfa then some totpSecret else none) s with
  | error e => simp [hrecover, Except.map] at h
  | ok pair =>
    obtain ⟨s', outcome⟩ := pair
    simp only [hrecover, Except.map] at h
    obtain ⟨rfl, rfl⟩ | ⟨admin, -, rfl, rfl⟩ := recoverAdmin_ok hrecover <;> cases h
    · exact .inl rfl
    · exact .inr ⟨admin.id, by cases resetMfa <;> rfl⟩

end EffectCases

/-- The closure of an operation, or `none` when the request is answered before the fence:
the row it needs was not found, the step is missing, or it is out of range. -/
def FencedOp.closure (tokenHash totpSecret : String) (request : Request) :
    FencedOp → Option (AuthStore → Except DbError AccountEffect)
  | .changePassword newPasswordHash => request.admin.map fun admin s =>
    .ok (changePasswordEffect request.view.adminId admin s newPasswordHash)
  | .resetPassword id passwordHash => some fun s => .ok (resetPasswordEffect s id passwordHash)
  | .resetTotp id username => some fun s => .ok (resetTotpEffect totpSecret s id username)
  | .startEnrollment now step => request.admin.map fun admin s =>
    startEnrollmentEffect tokenHash totpSecret request.view.adminId admin s now step
  | .activateEnrollment now step =>
    (request.enrollment.filter fun _ => step ≤ maxSqliteUnsigned).map fun checked s =>
      .ok (activateEnrollmentEffect request.view.adminId s checked.1 checked.2 now step)
  | .deleteKeyWithTotp id step => (request.admin.filter Admin.totpEnabled).map fun admin s =>
    .ok (deleteKeyWithTotpEffect request.view.adminId admin s id step)
  | .deleteKeyWithoutTotp id => (request.admin.filter fun admin => !admin.totpEnabled).map
    fun admin s => .ok (deleteKeyWithoutTotpEffect request.view.adminId admin s id)
  | .setTotpEnabled true _ => request.admin.map fun admin s =>
    .ok (enableTotpEffect request.view.adminId admin s)
  | .setTotpEnabled false step => request.admin.bind fun admin => step.map fun step s =>
    .ok (disableTotpEffect request.view.adminId admin s step)
  | .deactivate id => some fun s => .ok (deactivateEffect s id)
  | .activate id => some fun s => .ok (.plain (activateAdmin id s).1)
  | .createAdmin username passwordHash => some fun s =>
    createAdminEffect totpSecret s username passwordHash
  | .addKey label credentialId blob => some fun s =>
    addKeyEffect request.view.adminId s label credentialId blob
  | .other => some fun s => .ok (.plain s)

section Changes

variable (tokenHash totpSecret : String) (request : Request) (s : AuthStore)

/-- What a closure that ran has done, with the checks it has passed. -/
inductive AccountChange : AccountEffect → Prop
  | nothing : AccountChange (.plain s)
  | cleaned (now : Instant) :
      AccountChange (.plain (cleanupAdminMfaEnrollments now s))
  | password (id : ℕ) (passwordHash : String) : AccountChange
      ⟨revokeAdminAuthState id (s.updateAdmin id fun admin => { admin with passwordHash }),
        some id, none, []⟩
  | secret (id : ℕ) : AccountChange
      ⟨revokeAdminAuthState id (replaceTotpSecret id totpSecret s), some id, none,
        [.installed id totpSecret]⟩
  | started {admin : Admin} {now : Instant} {step : ℕ} {s₁ : AuthStore} {row : MfaEnrollment}
      (hloa : request.admin = some admin)
      (hcons : consumeAdminTotpStep request.view.adminId step
        (cleanupAdminMfaEnrollments now s) = some s₁)
      (htok : row.tokenHash = tokenHash) (hsec : row.totpSecret = totpSecret) :
      AccountChange
        ⟨{ s₁ with enrollments := s₁.enrollments.upsert row }, none, some row,
          [.accepted request.view.adminId admin.totpSecret step]⟩
  | confirmed {checked : String × String} {row : MfaEnrollment} (now : Instant) (step : ℕ)
      (hloa : request.enrollment = some checked) (hrow : row ∈ s.enrollments)
      (hid : row.adminId = request.view.adminId) (htok : row.tokenHash = checked.1) :
      AccountChange
        ⟨revokeAdminAuthState request.view.adminId ((cleanupAdminMfaEnrollments now
          s).installConfirmed request.view.adminId row.totpSecret step),
          some request.view.adminId, none, [.accepted request.view.adminId checked.2 step,
            .installed request.view.adminId row.totpSecret]⟩
  | keyDeletedWithTotp {admin : Admin} {step : ℕ} {s₁ : AuthStore} (id : ℕ)
      (hloa : request.admin = some admin)
      (hcons : consumeAdminTotpStep request.view.adminId step s = some s₁)
      (hspare : s.keyCount request.view.adminId ≠ 2) :
      AccountChange
        ⟨revokeAdminAuthState request.view.adminId (deleteCredential id request.view.adminId s₁),
          some request.view.adminId, none, [.accepted request.view.adminId admin.totpSecret step]⟩
  | keyDeleted (id : ℕ) (hspare : 2 < s.keyCount request.view.adminId) :
      AccountChange
        ⟨revokeAdminAuthState request.view.adminId (deleteCredential id request.view.adminId s),
          some request.view.adminId, none, []⟩
  | totpEnabled : AccountChange
      (.plain (s.setTotpEnabled request.view.adminId true))
  | totpDisabled {admin : Admin} {step : ℕ} {s₁ : AuthStore} (hloa : request.admin = some admin)
      (hcons : consumeAdminTotpStep request.view.adminId step s = some s₁)
      (hkeys : 2 ≤ s.keyCount request.view.adminId) :
      AccountChange
        ⟨s₁.setTotpEnabled request.view.adminId false, none, none,
          [.accepted request.view.adminId admin.totpSecret step]⟩
  | revoked (id : ℕ) : AccountChange
      ⟨revokeAdminAuthState id s, some id, none, []⟩
  | deactivated (id : ℕ)
      (hoth : (s.admins.any fun other => other.active && other.id ≠ id) = true) :
      AccountChange
        ⟨revokeAdminAuthState id (s.updateAdmin id fun admin => { admin with active := false }),
          some id, none, []⟩
  | activated (id : ℕ) :
      AccountChange (.plain (activateAdmin id s).1)
  | created {username passwordHash : String} {s₁ : AuthStore} {id : ℕ}
      (hinse : insertAdmin username passwordHash totpSecret s = .ok (s₁, id)) :
      AccountChange
        ⟨s₁, none, none, [.installed id totpSecret]⟩
  | keyAdded {row : WebauthnCredential} {credentials : KeyedTable WebauthnCredential.id}
      (hinse : s.credentials.insert? row = some credentials) :
      AccountChange (.plain { s with credentials })

variable {tokenHash totpSecret request s} {admin : Admin} {effect : AccountEffect}

theorem changePasswordEffect_change (newPasswordHash : String) :
    AccountChange tokenHash totpSecret request s
      (changePasswordEffect request.view.adminId admin s newPasswordHash) := by
  simp only [changePasswordEffect, changeAdminPasswordCas]
  cases s.admins.find? request.view.adminId with
  | none => exact .nothing
  | some =>
    dsimp only
    split_ifs
    · exact .nothing
    · exact .nothing
    · exact .password _ _

theorem startEnrollmentEffect_change {now : Instant} {step : ℕ}
    (hloa : request.admin = some admin)
    (h : startEnrollmentEffect tokenHash totpSecret request.view.adminId admin s now step =
      .ok effect) : AccountChange tokenHash totpSecret request s effect := by
  simp only [startEnrollmentEffect, startAdminMfaEnrollment] at h
  cases hcons : consumeAdminTotpStep request.view.adminId step
      (cleanupAdminMfaEnrollments now s) with
  | none =>
    simp only [hcons] at h
    cases h
    exact .cleaned now
  | some s₁ =>
    simp only [hcons] at h
    by_cases htaken : (s₁.enrollments.any fun row =>
        row.adminId ≠ request.view.adminId && row.tokenHash = tokenHash) = true
    · simp only [htaken, if_true] at h
      cases h
    · simp only [htaken] at h
      cases h
      exact .started hloa hcons rfl rfl

theorem activateEnrollmentEffect_change {checked : String × String} (now : Instant) (step : ℕ)
    (hloa : request.enrollment = some checked) :
    AccountChange tokenHash totpSecret request s
      (activateEnrollmentEffect request.view.adminId s checked.1 checked.2 now step) := by
  simp only [activateEnrollmentEffect, activateAdminMfaEnrollment]
  cases hpend : (cleanupAdminMfaEnrollments now s).pendingEnrollment now request.view.adminId
      checked.1 with
  | none => exact .cleaned now
  | some row =>
    obtain ⟨hrow, hadm⟩ := Option.filter_eq_some_iff.mp hpend
    obtain ⟨hrow, hmatches⟩ := Option.filter_eq_some_iff.mp hrow
    obtain ⟨hrow, hid⟩ := KeyedTable.find?_eq_some_iff.mp hrow
    have htok : row.tokenHash = checked.1 := by simp_all
    obtain ⟨current, hcur⟩ := Option.isSome_iff_exists.mp hadm
    obtain ⟨hcur, -⟩ := Option.filter_eq_some_iff.mp hcur
    obtain ⟨hcur, hcid⟩ := KeyedTable.find?_eq_some_iff.mp hcur
    have hinstalled : ((cleanupAdminMfaEnrollments now s).installConfirmed request.view.adminId
        row.totpSecret step).admins.find? request.view.adminId =
          some (current.withTotpSecret row.totpSecret) := by
      refine KeyedTable.find?_eq_some_iff.mpr
        ⟨(KeyedTable.mem_updateWhere).mpr ⟨current, hcur, ?_⟩, hcid.trans hid⟩
      simp [hcid.trans hid]
    simp only [revokeAdminAuthState, hinstalled]
    exact .confirmed now step hloa (KeyedTable.mem_deleteWhere.mp hrow).1 hid htok

theorem deleteKeyWithTotpEffect_change (id step : ℕ) (hloa : request.admin = some admin) :
    AccountChange tokenHash totpSecret request s
      (deleteKeyWithTotpEffect request.view.adminId admin s id step) := by
  simp only [deleteKeyWithTotpEffect, deleteAdminWebauthnCredentialWithTotp]
  split_ifs with _ _ hdeletable
  · exact .nothing
  · exact .nothing
  · exact .nothing
  · cases hcons : consumeAdminTotpStep request.view.adminId step s with
    | none => exact .nothing
    | some => exact .keyDeletedWithTotp id hloa hcons (by simp_all)

theorem deleteKeyWithoutTotpEffect_change (id : ℕ) : AccountChange tokenHash totpSecret request s
    (deleteKeyWithoutTotpEffect request.view.adminId admin s id) := by
  simp only [deleteKeyWithoutTotpEffect, deleteAdminWebauthnCredentialWithoutTotp]
  split_ifs with _ hdeletable
  · exact .nothing
  · exact .nothing
  · exact .keyDeleted id (by simp_all)

theorem enableTotpEffect_change : AccountChange tokenHash totpSecret request s
    (enableTotpEffect request.view.adminId admin s) := by
  simp only [enableTotpEffect, setAdminTotpEnabled]
  split
  · exact .nothing
  · split_ifs
    · exact .nothing
    · exact .totpEnabled

theorem disableTotpEffect_change (step : ℕ) (hloa : request.admin = some admin) :
    AccountChange tokenHash totpSecret request s
      (disableTotpEffect request.view.adminId admin s step) := by
  simp only [disableTotpEffect, setAdminTotpEnabled, Bool.false_eq_true, if_false]
  cases (s.activeAdmin request.view.adminId).filter _ with
  | none => exact .nothing
  | some =>
    dsimp only
    split_ifs with _ hkeys
    · exact .nothing
    · exact .nothing
    · cases hcons : consumeAdminTotpStep request.view.adminId step s with
      | none => exact .nothing
      | some => exact .totpDisabled hloa hcons (not_lt.mp hkeys)

theorem deactivateEffect_change (id : ℕ) :
    AccountChange tokenHash totpSecret request s (deactivateEffect s id) := by
  simp only [deactivateEffect, deactivateAdmin]
  cases s.admins.find? id with
  | none => exact .nothing
  | some =>
    dsimp only
    split_ifs with _ hoth
    · exact .revoked id
    · exact .deactivated id hoth
    · exact .nothing

theorem addKeyEffect_change {label credentialId : String} {blob : List UInt8}
    (h : addKeyEffect request.view.adminId s label credentialId blob = .ok effect) :
    AccountChange tokenHash totpSecret request s effect := by
  simp only [addKeyEffect, insertAdminWebauthnCredential] at h
  split_ifs at h
  · cases h
  split at h <;> cases h
  exact .keyAdded (by assumption)

theorem FencedOp.closure_change {op : FencedOp}
    {closure : AuthStore → Except DbError AccountEffect}
    (hclos : op.closure tokenHash totpSecret request = some closure)
    (h : closure s = .ok effect) : AccountChange tokenHash totpSecret request s effect := by
  cases op with
  | changePassword newPasswordHash =>
    obtain ⟨admin, -, rfl⟩ := Option.map_eq_some_iff.mp hclos
    cases h
    exact changePasswordEffect_change newPasswordHash
  | resetPassword id passwordHash =>
    cases hclos
    cases h
    simp only [resetPasswordEffect, resetAdminPassword]
    split_ifs
    · exact .password id passwordHash
    · exact .nothing
  | resetTotp id username =>
    cases hclos
    cases h
    cases username with
    | none => exact .nothing
    | some => exact .secret id
  | startEnrollment =>
    obtain ⟨admin, hloa, rfl⟩ := Option.map_eq_some_iff.mp hclos
    exact startEnrollmentEffect_change hloa h
  | activateEnrollment now step =>
    obtain ⟨checked, hloa, rfl⟩ := Option.map_eq_some_iff.mp hclos
    cases h
    exact activateEnrollmentEffect_change now step (Option.filter_eq_some_iff.mp hloa).1
  | deleteKeyWithTotp id step =>
    obtain ⟨admin, hloa, rfl⟩ := Option.map_eq_some_iff.mp hclos
    cases h
    exact deleteKeyWithTotpEffect_change id step (Option.filter_eq_some_iff.mp hloa).1
  | deleteKeyWithoutTotp id =>
    obtain ⟨admin, -, rfl⟩ := Option.map_eq_some_iff.mp hclos
    cases h
    exact deleteKeyWithoutTotpEffect_change id
  | setTotpEnabled enabled step =>
    cases enabled with
    | true =>
      obtain ⟨admin, -, rfl⟩ := Option.map_eq_some_iff.mp hclos
      cases h
      exact enableTotpEffect_change
    | false =>
      obtain ⟨admin, hloa, hstep⟩ := Option.bind_eq_some_iff.mp hclos
      obtain ⟨step, -, rfl⟩ := Option.map_eq_some_iff.mp hstep
      cases h
      exact disableTotpEffect_change step hloa
  | deactivate id =>
    cases hclos
    cases h
    exact deactivateEffect_change id
  | activate id =>
    cases hclos
    cases h
    exact .activated id
  | createAdmin =>
    cases hclos
    obtain ⟨s₁, id, hinse, rfl⟩ := createAdminEffect_cases h
    exact .created hinse
  | addKey =>
    cases hclos
    exact addKeyEffect_change h
  | other =>
    cases hclos
    cases h
    exact .nothing

end Changes

inductive AuthEvent
  | createInitialAdmin (username passwordHash : String)
  | recoverAdmin (username : String) (passwordHash : Option String) (resetMfa : Bool)
  /-- A password login whose caller verified the password against `verifiedHash`. -/
  | login (adminId : ℕ) (verifiedHash csrf : String) (expires : Instant) (clock : ClockReading)
  | present (tokenHash : String) (clock : ClockReading)
  | touch (tokenHash : String) (clock : ClockReading)
  | expire (tokenHash : String) (clock : ClockReading)
  | logout (tokenHash : String)
  | loadAdmin (request : ℕ)
  | loadEnrollment (request : ℕ) (tokenHash : String) (now : Instant)
  | submitTotp (request step : ℕ) (csrf : String) (clock : ClockReading)
  | submitWebauthn (request credentialId : ℕ) (expectedBlob updatedBlob : List UInt8)
      (csrf : String) (clock : ClockReading)
  | fenced (request : ℕ) (op : FencedOp) (clock : ClockReading)

namespace AuthServer

variable (rng : Entropy)

/-- Commits an effect. -/
def commit (σ : AuthServer) (effect : AccountEffect) : AuthServer :=
  { σ with
    store := effect.store
    revocations := effect.revoked.toList.map (⟨·, σ.time⟩) ++ σ.revocations
    enrolled := effect.started.toList.map
      (fun row => ⟨row.tokenHash, row.adminId, row.totpSecret, σ.time⟩) ++ σ.enrolled
    totp := effect.totp ++ σ.totp }

/-- A transaction that fails is rolled back. -/
def commitResult (σ : AuthServer) : Except DbError AccountEffect → AuthServer
  | .error _ => σ
  | .ok effect => σ.commit effect

/-- The history of a session token replaced by `newTokenHash`. -/
def rotateLogins (logins : List LoginRecord) (oldTokenHash newTokenHash : String) :
    List LoginRecord :=
  match logins.find? fun record => record.tokenHash = oldTokenHash with
  | none => logins
  | some record => { record with tokenHash := newTokenHash } :: logins

def nextToken (σ : AuthServer) : String := rng.tokenHash σ.tokensDrawn

def nextSecret (σ : AuthServer) : String := rng.totpSecret σ.secretsDrawn

/-- What an event does, before the values it drew and the time it took are accounted for. -/
def perform (σ : AuthServer) : AuthEvent → AuthServer
  | .createInitialAdmin username passwordHash =>
    σ.commitResult (createInitialAdminEffect (σ.nextSecret rng) σ.store username passwordHash)
  | .recoverAdmin username passwordHash resetMfa =>
    σ.commitResult (recoverAdminEffect (σ.nextSecret rng) σ.store username passwordHash resetMfa)
  | .login adminId verifiedHash csrf expires clock =>
    match createSessionForVerifiedPassword clock.times (σ.nextToken rng) adminId verifiedHash csrf
        expires σ.store with
    | .error _ => σ
    | .ok (s', .created) =>
      { σ with
        store := s'
        logins := ⟨σ.nextToken rng, adminId, verifiedHash, σ.time⟩ :: σ.logins }
    | .ok (s', _) => { σ with store := s' }
  | .present tokenHash clock =>
    match sessionAt clock.times tokenHash σ.store with
    | none => σ
    | some view => { σ with requests := σ.requests ++ [⟨tokenHash, view, σ.time, none, none⟩] }
  | .touch tokenHash clock => { σ with store := touchSession clock.times tokenHash σ.store }
  | .expire tokenHash clock =>
    { σ with store := deleteExpiredSession clock.times tokenHash σ.store }
  | .logout tokenHash => { σ with store := deleteSession tokenHash σ.store }
  | .loadAdmin i =>
    { σ with
      requests := σ.requests.modify i fun request =>
        { request with admin := σ.store.admin request.view.username } }
  | .loadEnrollment i tokenHash now =>
    match σ.requests[i]? with
    | none => σ
    | some request =>
      let (s', secret) := adminMfaEnrollment now request.view.adminId tokenHash σ.store
      { σ with
        store := s'
        requests := σ.requests.modify i fun request =>
          { request with enrollment := secret.map (tokenHash, ·) } }
  | .submitTotp i step csrf clock =>
    match σ.requests[i]? with
    | none => σ
    | some request =>
      match request.admin.filter fun admin =>
          admin.id = request.view.adminId && admin.totpEnabled with
      | none => σ
      | some admin =>
        match verifyMfaWithTotpStep clock.times request.tokenHash (σ.nextToken rng) csrf
            request.view.adminId step σ.store with
        | .ok (s', true) =>
          { σ with
            store := s'
            logins := rotateLogins σ.logins request.tokenHash (σ.nextToken rng)
            totp := .accepted request.view.adminId admin.totpSecret step :: σ.totp }
        | .ok (s', false) => { σ with store := s' }
        | .error _ => σ
  | .submitWebauthn i credentialId expectedBlob updatedBlob csrf clock =>
    match σ.requests[i]? with
    | none => σ
    | some request =>
      match completeWebauthnMfa clock.times request.tokenHash (σ.nextToken rng) csrf credentialId
          request.view.adminId expectedBlob updatedBlob σ.store with
      | .ok (s', true) =>
        { σ with
          store := s'
          logins := rotateLogins σ.logins request.tokenHash (σ.nextToken rng) }
      | .ok (s', false) => { σ with store := s' }
      | .error _ => σ
  | .fenced i op clock =>
    match σ.requests[i]? with
    | none => σ
    | some request =>
      if !request.view.mfaVerified then σ
      else match op.closure (σ.nextToken rng) (σ.nextSecret rng) request with
        | none => σ
        | some closure =>
          if liveMfaSession request.proof clock.times σ.store then
            let σ' := σ.commitResult (closure σ.store)
            { σ' with runs := ⟨request.proof, σ.time⟩ :: σ'.runs }
          else σ

/-- Every event takes its own moment and draws its own random values. -/
def step (σ : AuthServer) (event : AuthEvent) : AuthServer :=
  { σ.perform rng event with
    time := σ.time + 1
    tokensDrawn := σ.tokensDrawn + 1
    secretsDrawn := σ.secretsDrawn + 1 }

def run (σ : AuthServer) (events : List AuthEvent) : AuthServer := events.foldl (step rng) σ

theorem run_invariant {P : AuthServer → Prop} {σ : AuthServer} (h₀ : P σ)
    (hstep : ∀ σ event, P σ → P (σ.step rng event)) (events : List AuthEvent) :
    P (σ.run rng events) := by
  induction events generalizing σ with
  | nil => exact h₀
  | cons event events ih => exact ih (hstep σ event h₀)

end AuthServer

end VaultLink
