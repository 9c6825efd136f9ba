import VaultLink.AdminAuth
import VaultLink.RuntimeSettings
import VaultLink.SharedLocks

/-!
# Settings commits and the snapshots they publish

`commit_runtime_settings` replaces the stored settings and the two snapshots that requests
read, the settings and the WebAuthn service. It holds the settings mutation lock throughout,
takes the write locks of the snapshots and then the writer slot of SQLite, publishes the new
values, writes the audit row and only then commits; a failure drops the publication, which
puts the old values back before the locks are given up.

Commits and readers run through the stages of their functions in any order that the locks
permit. A failing path is the list of the locks still to be dropped, in the order in which
the source drops them. A request may be cancelled where it awaits something; once its
blocking operation runs, only the answer is lost. Next to the state of the process there is
the value of the last settings transaction that SQLite committed.
-/
namespace VaultLink

section Audit

/-- A row of `audit`, without its time and priority. -/
structure AuditEvent where
  actor : String
  action : String
  objectId : Option String
  detail : Option String
  clientIp : Option String
deriving DecidableEq

structure AuditContext where
  actor : String
  clientIp : Option String

/-- What the settings need of `url`, `webauthn_rp` and the IP parser of the standard library. -/
structure SettingsLibraries where
  urls : UrlLibrary
  isIpAddr : String → Bool

variable (lib : SettingsLibraries)

def validateAuditFields (row : AuditEvent) : Bool :=
  !(64 < row.actor.utf8ByteSize || 64 < row.action.utf8ByteSize ||
    row.objectId.any (4096 < ·.utf8ByteSize) || row.detail.any (16384 < ·.utf8ByteSize) ||
    row.clientIp.any fun ip => 45 < ip.utf8ByteSize || !lib.isIpAddr ip)

def AuditContext.validate (context : AuditContext) : Bool :=
  validateAuditFields lib ⟨context.actor, "", none, none, context.clientIp⟩

/-- The tables that a settings commit reads or writes; a settings row has a key and a value. -/
structure SettingsTables where
  settings : KeyedTable (Prod.fst : String × String → String)
  audit : List AuditEvent
  auth : AuthStore
deriving DecidableEq

namespace SettingsTables

variable (tables : SettingsTables)

def persistedAuditClientIpEnabled (fallback : Bool) : Bool :=
  match tables.settings.find? "audit_client_ip_enabled" with
  | some (_, value) => toAsciiLowercase (trimText value) ∈ ["true", "1", "yes", "on"]
  | none => fallback

/-- `insert_audit_event`: the stored setting decides whether the address is kept. -/
def insertAuditEvent (row : AuditEvent) : Option SettingsTables :=
  if validateAuditFields lib row then
    let clientIp :=
      if tables.persistedAuditClientIpEnabled row.clientIp.isSome then row.clientIp else none
    some { tables with audit := { row with clientIp } :: tables.audit }
  else none

/-- The `DELETE` and the `INSERT`s of `replace_runtime_settings_for_mfa_session`. -/
def replaceSettings (pairs : List (String × String)) : Option SettingsTables :=
  (KeyedTable.insertAll? ∅ pairs).map fun settings => { tables with settings }

end SettingsTables

end Audit

section Publication

/-- The values behind the two snapshot locks. -/
structure RuntimeSnapshots where
  runtime : RuntimeSettings
  webauthn : WebAuthnService

/-- The values that `RuntimeSettingsPublication` restores unless it is told to keep the new
ones. -/
structure RuntimeSettingsPublication where
  previousRuntime : Option RuntimeSettings
  previousWebauthn : Option WebAuthnService
deriving DecidableEq

namespace RuntimeSettingsPublication

def publish (memory : RuntimeSnapshots) (next : RuntimeSettings)
    (replacement : Option WebAuthnService) : RuntimeSnapshots × RuntimeSettingsPublication :=
  (⟨next, replacement.getD memory.webauthn⟩,
    ⟨some memory.runtime, replacement.map fun _ => memory.webauthn⟩)

def acceptCommit (_ : RuntimeSettingsPublication) : RuntimeSettingsPublication := ⟨none, none⟩

def drop (publication : RuntimeSettingsPublication) (memory : RuntimeSnapshots) :
    RuntimeSnapshots :=
  ⟨publication.previousRuntime.getD memory.runtime,
    publication.previousWebauthn.getD memory.webauthn⟩

end RuntimeSettingsPublication

/-- The arguments of `commit_runtime_settings`, with the client address of the request. -/
structure SettingsCommit where
  proof : MfaSessionProof
  next : RuntimeSettings
  actor : String
  detail : String
  clientIp : Option String
deriving DecidableEq

namespace SettingsCommit

variable (call : SettingsCommit)

def context : AuditContext :=
  ⟨call.actor, if call.next.auditClientIpEnabled then call.clientIp else none⟩

/-- The required audit event, `AuditAction::SettingsUpdated`. -/
def auditEvent : AuditEvent :=
  ⟨call.actor, "settings_updated", none, some call.detail, call.context.clientIp⟩

end SettingsCommit

end Publication

section Stages

inductive SettingsLock
  /-- `security_settings_mutation`. -/
  | mutation
  | runtime
  | webauthn
  /-- The writer slot of SQLite, held by an immediate transaction. -/
  | writer
deriving DecidableEq

inductive HttpAuthError
  | status (code : ℕ) (message : String)
  | capacityUnavailable
  | auditUnavailable
  | database
deriving DecidableEq

inductive CommitOutcome
  | authorized
  | sessionUnavailable
  | failed (error : HttpAuthError)
  | cancelled
deriving DecidableEq

/-- How far a party has come in reading a snapshot or in `commit_runtime_settings`. -/
inductive SettingsStage
  | idle
  | wantsRuntime
  | readsRuntime
  | gotRuntime (settings : RuntimeSettings)
  | wantsWebauthn
  | readsWebauthn
  | gotWebauthn (service : WebAuthnService)
  -- `commit_runtime_settings` waits for the mutation lock.
  | waiting (call : SettingsCommit)
  | validating (call : SettingsCommit)
  -- It waits to read the settings, for `public_url_changed`.
  | comparing (call : SettingsCommit)
  | deciding (call : SettingsCommit)
  | counting (call : SettingsCommit) (service : WebAuthnService)
  -- The blocking operation waits for admission.
  | dispatching (call : SettingsCommit) (replacement : Option WebAuthnService)
  | lockingRuntime (call : SettingsCommit) (replacement : Option WebAuthnService)
  | lockingWebauthn (call : SettingsCommit) (replacement : Option WebAuthnService)
  -- It waits for the writer slot.
  | beginning (call : SettingsCommit) (replacement : Option WebAuthnService)
  | fenced (call : SettingsCommit) (replacement : Option WebAuthnService)
  | replacing (call : SettingsCommit) (replacement : Option WebAuthnService)
  | publishing (call : SettingsCommit) (replacement : Option WebAuthnService)
      (tables : SettingsTables)
  | auditing (call : SettingsCommit) (replacement : Option WebAuthnService)
      (publication : RuntimeSettingsPublication) (tables : SettingsTables)
  | committing (call : SettingsCommit) (replacement : Option WebAuthnService)
      (publication : RuntimeSettingsPublication) (tables : SettingsTables)
  -- The publication is dropped, and then the locks in this order.
  | restoring (publication : RuntimeSettingsPublication) (locks : List SettingsLock)
      (outcome : CommitOutcome)
  | accepting (replacement : Option WebAuthnService) (publication : RuntimeSettingsPublication)
  | unwinding (locks : List SettingsLock) (outcome : CommitOutcome)
  | finished (outcome : CommitOutcome)
deriving DecidableEq

namespace SettingsStage

/-- `RuntimePublicationGuards`: the WebAuthn lock is only taken for a replacement. -/
def guards (replacement : Option WebAuthnService) : List SettingsLock :=
  if replacement.isSome then [.runtime, .webauthn] else [.runtime]

def exclusively (locks : List SettingsLock) (lock : SettingsLock) : Option LockMode :=
  if lock ∈ locks then some .exclusive else none

def holds (lock : SettingsLock) : SettingsStage → Option LockMode
  | readsRuntime => if lock = .runtime then some .shared else none
  | readsWebauthn => if lock = .webauthn then some .shared else none
  | deciding _ => if lock = .runtime then some .shared else exclusively [.mutation] lock
  | validating _ | comparing _ | counting _ _ | dispatching _ _ | lockingRuntime _ _ =>
    exclusively [.mutation] lock
  | lockingWebauthn _ _ => exclusively [.runtime, .mutation] lock
  | beginning _ replacement => exclusively (guards replacement ++ [.mutation]) lock
  | fenced _ replacement | replacing _ replacement | publishing _ replacement _
  | auditing _ replacement _ _ | committing _ replacement _ _ =>
    exclusively (guards replacement ++ [.writer, .mutation]) lock
  | accepting replacement _ => exclusively (guards replacement ++ [.mutation]) lock
  | restoring _ locks _ | unwinding locks _ => exclusively locks lock
  | idle | wantsRuntime | gotRuntime _ | wantsWebauthn | gotWebauthn _ | waiting _
  | finished _ => none

/-- The lock a party waits for and the stage that it then enters. -/
def request : SettingsStage → Option (SettingsLock × LockMode × SettingsStage)
  | wantsRuntime => some (.runtime, .shared, readsRuntime)
  | wantsWebauthn => some (.webauthn, .shared, readsWebauthn)
  | waiting call => some (.mutation, .exclusive, validating call)
  | comparing call => some (.runtime, .shared, deciding call)
  | lockingRuntime call replacement =>
    some (.runtime, .exclusive,
      if replacement.isSome then lockingWebauthn call replacement
      else beginning call replacement)
  | lockingWebauthn call (some service) =>
    some (.webauthn, .exclusive, beginning call (some service))
  | beginning call replacement => some (.writer, .exclusive, fenced call replacement)
  | _ => none

/-- A request that is dropped where it awaits something. The mutation lock is then owned by
the request or by the operation that it has queued. -/
def cancel : SettingsStage → SettingsStage
  | waiting _ => finished .cancelled
  | counting _ _ | dispatching _ _ => unwinding [.mutation] .cancelled
  | stage => stage

def running : SettingsStage → Bool
  | idle | gotRuntime _ | gotWebauthn _ | finished _ => false
  | _ => true

end SettingsStage

/-- How the next statement of an operation ends. A failed `COMMIT` may have left the
transaction open, or SQLite may have rolled it back. -/
inductive StatementResult
  | succeeds
  | fails
  | rollsBack
deriving DecidableEq

/-- What the last settings transaction that SQLite committed made of the tables, of the
settings and of the WebAuthn service. Other transactions change other tables. -/
structure CommittedSettings where
  tables : SettingsTables
  settings : RuntimeSettings
  webauthn : WebAuthnService

def CommittedSettings.snapshots (committed : CommittedSettings) : RuntimeSnapshots :=
  ⟨committed.settings, committed.webauthn⟩

structure SettingsServer (ι : Type) where
  memory : RuntimeSnapshots
  /-- The number of WebAuthn service instances created so far. -/
  services : ℕ
  committed : CommittedSettings
  stage : ι → SettingsStage

inductive SettingsEvent (ι : Type)
  | readRuntime (p : ι)
  | readWebauthn (p : ι)
  | commit (p : ι) (call : SettingsCommit)
  | grant (p : ι)
  | work (p : ι) (result : StatementResult) (times : SessionTimes)
  | cancel (p : ι)
  /-- Another writer, such as a session revocation, leaves these tables. -/
  | transact (auth : AuthStore) (audit : List AuditEvent)

/-- Whose stage an event changes. -/
def SettingsEvent.party {ι : Type} : SettingsEvent ι → Option ι
  | readRuntime p | readWebauthn p | commit p _ | grant p | work p _ _ | cancel p => some p
  | transact _ _ => none

namespace SettingsServer

open SettingsStage

variable {ι : Type} [DecidableEq ι] (config : ServerConfig) (lib : SettingsLibraries)
  (s : SettingsServer ι)

def held (lock : SettingsLock) (p : ι) : Option LockMode := (s.stage p).holds lock

def set (p : ι) (stage : SettingsStage) : SettingsServer ι :=
  { s with stage := Function.update s.stage p stage }

/-- The decision of `commit_runtime_settings` on the public base URL. -/
def decideReplacement (p : ι) (call : SettingsCommit) : SettingsServer ι :=
  if s.memory.runtime.publicBaseUrl ≠ call.next.publicBaseUrl then
    match WebAuthnService.fromPublicBaseUrl lib.urls call.next.publicBaseUrl s.services with
    | none =>
      s.set p (unwinding [.mutation] (.failed (.status 400 "Invalid WebAuthn configuration")))
    | some service => { s.set p (counting call service) with services := s.services + 1 }
  else s.set p (dispatching call none)

/-- The beginning of `required_transaction_for_mfa_session_with_commit_audited`. -/
def fence (p : ι) (call : SettingsCommit) (replacement : Option WebAuthnService)
    (result : StatementResult) (times : SessionTimes) : SettingsServer ι :=
  let locks := .writer :: guards replacement ++ [.mutation]
  if result ≠ .succeeds then s.set p (unwinding locks (.failed .database))
  else if !liveMfaSession call.proof times s.committed.tables.auth then
    s.set p (unwinding locks .sessionUnavailable)
  else if !call.context.validate lib then s.set p (unwinding locks (.failed .auditUnavailable))
  else s.set p (replacing call replacement)

/-- `COMMIT`. -/
def commitTransaction (p : ι) (call : SettingsCommit) (replacement : Option WebAuthnService)
    (publication : RuntimeSettingsPublication) (tables : SettingsTables) :
    StatementResult → SettingsServer ι
  | .succeeds =>
    { s.set p (accepting replacement publication) with
      committed := ⟨tables, call.next, replacement.getD s.committed.webauthn⟩ }
  | .fails =>
    s.set p (restoring publication (guards replacement ++ [.writer, .mutation])
      (.failed .database))
  | .rollsBack =>
    s.set p (restoring publication (guards replacement ++ [.mutation]) (.failed .database))

def work (p : ι) (result : StatementResult) (times : SessionTimes) : SettingsServer ι :=
  match s.stage p with
  | readsRuntime => s.set p (gotRuntime s.memory.runtime)
  | readsWebauthn => s.set p (gotWebauthn s.memory.webauthn)
  | validating call =>
    match call.next.validateForConfig lib.urls config with
    | .error _ => s.set p (unwinding [.mutation] (.failed (.status 400 "Invalid setting")))
    | .ok _ => s.set p (comparing call)
  | deciding call => s.decideReplacement lib p call
  | counting call service =>
    if result ≠ .succeeds then s.set p (unwinding [.mutation] (.failed .database))
    else if 0 < s.committed.tables.auth.credentials.count fun _ => true then
      s.set p (unwinding [.mutation] (.failed (.status 409
        "Public base URL cannot be changed while security keys are registered")))
    else s.set p (dispatching call (some service))
  | dispatching call replacement =>
    if result ≠ .succeeds then s.set p (unwinding [.mutation] (.failed .capacityUnavailable))
    else s.set p (lockingRuntime call replacement)
  | beginning _ replacement =>
    if result ≠ .succeeds then
      s.set p (unwinding (guards replacement ++ [.mutation]) (.failed .database))
    else s
  | fenced call replacement => s.fence lib p call replacement result times
  | replacing call replacement =>
    match if result = .succeeds then s.committed.tables.replaceSettings call.next.pairs
        else none with
    | none =>
      s.set p (unwinding (guards replacement ++ [.writer, .mutation]) (.failed .database))
    | some tables => s.set p (publishing call replacement tables)
  | publishing call replacement tables =>
    let (memory, publication) :=
      RuntimeSettingsPublication.publish s.memory call.next replacement
    { s.set p (auditing call replacement publication tables) with memory }
  | auditing call replacement publication tables =>
    match if result = .succeeds then tables.insertAuditEvent lib call.auditEvent else none with
    | none =>
      s.set p (restoring publication (guards replacement ++ [.writer, .mutation])
        (.failed .auditUnavailable))
    | some tables => s.set p (committing call replacement publication tables)
  | committing call replacement publication tables =>
    s.commitTransaction p call replacement publication tables result
  | restoring publication locks outcome =>
    { s.set p (unwinding locks outcome) with memory := publication.drop s.memory }
  | accepting replacement publication =>
    { s.set p (unwinding (guards replacement ++ [.mutation]) .authorized) with
      memory := publication.acceptCommit.drop s.memory }
  | unwinding [] outcome => s.set p (finished outcome)
  | unwinding (_ :: locks) outcome => s.set p (unwinding locks outcome)
  | _ => s

variable [Fintype ι]

def next (s : SettingsServer ι) : SettingsEvent ι → SettingsServer ι
  | .readRuntime p => if (s.stage p).running then s else s.set p wantsRuntime
  | .readWebauthn p => if (s.stage p).running then s else s.set p wantsWebauthn
  | .commit p call => if (s.stage p).running then s else s.set p (waiting call)
  | .grant p =>
    match (s.stage p).request with
    | some (lock, mode, stage) => if mode.Grantable (s.held lock) p then s.set p stage else s
    | none => s
  | .work p result times => s.work config lib p result times
  | .cancel p => s.set p (s.stage p).cancel
  | .transact auth audit =>
    if ∀ q, s.held .writer q = none then
      { s with
        committed := { s.committed with tables := { s.committed.tables with auth, audit } } }
    else s

end SettingsServer

/-- What `AppState::new` has loaded: the stored rows, the settings that they amount to, and
the service for their URL. -/
structure SettingsStartup (lib : SettingsLibraries) where
  committed : CommittedSettings
  belongs : committed.webauthn.BelongsTo lib.urls committed.settings.publicBaseUrl

def SettingsStartup.server {lib : SettingsLibraries} (startup : SettingsStartup lib) (ι : Type) :
    SettingsServer ι :=
  ⟨startup.committed.snapshots, startup.committed.webauthn.identity + 1, startup.committed,
    fun _ => .idle⟩

end Stages

end VaultLink
