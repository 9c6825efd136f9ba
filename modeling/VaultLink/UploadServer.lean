import VaultLink.AdminUpload

/-!
# Interleavings of upload requests

Requests claim an upload operation, construct a guard that registers the claim in memory,
and hand the guard to a finalizer task that enters the commit, may charge the quota of the
share, publishes the file and stores the outcome. Dropping a guard removes the registration
at once and leaves the release of the row to a task that runs later. Recovery copies the
registrations and settles the other rows in a later transaction. A crash loses everything
but the database. Every statement on the tables is one step, so any number of requests,
finalizers and recoveries interleave freely; transactions on other tables may do anything to
them. What a finalizer does on the storage is one step too, since nothing else here looks at
the storage: it runs in whatever world it meets.
-/
namespace VaultLink

/-- How far a finalizer has come since `mark_upload_committing` succeeded. -/
inductive FinalizerStage
  | entered
  /-- The quota of the share is charged. -/
  | charged
  /-- The finalizer knows in which state to finish the operation. -/
  | returned (state : FinishState)
deriving DecidableEq

def FinalizerStage.running : FinalizerStage → Bool
  | .entered | .charged => true
  | .returned _ => false

inductive ClaimPhase
  /-- The row is claimed and the guard is not constructed yet. -/
  | claimed
  | working
  | committing (stage : FinalizerStage)
  /-- The outcome is stored, or storing it failed; the guard still lives. -/
  | answered
  /-- The guard is dropped and its release is pending. -/
  | dropped
  | released
deriving DecidableEq

def ClaimPhase.guardLives : ClaimPhase → Bool
  | .working | .committing _ | .answered => true
  | _ => false

structure ClaimHolder where
  idHash : String
  scope : UploadScope
  phase : ClaimPhase
deriving DecidableEq

/-- The database, the memory of the process, and the history of charges and publications. -/
structure UploadServer where
  store : Store
  idsDrawn : ℕ
  active : Finset String
  holders : List ClaimHolder
  recoveries : List (Finset String)
  charges : List String
  publications : List String

inductive UploadEvent
  | create (scope : UploadScope) (now : Instant)
  | claim (scope : UploadScope) (idHash : String) (now : Instant)
  | register (holder : ℕ)
  | bind (holder : ℕ) (fingerprint fragmentName : String)
  /-- The form of a public upload is rejected before its finalizer starts. -/
  | rejectForm (holder : ℕ) (result : Option String) (now : Instant)
  | mark (holder : ℕ)
  | charge (holder : ℕ) (token : String) (bytes directories : ℕ) (audited : Bool) (now : Instant)
  /-- A public finalizer returns before it comes to publish. -/
  | turnAway (holder : ℕ) (result : Except AppError PublicUploadOutcome)
  | finalize (holder : ℕ) (finalizer : Finalizer) (env : UploadEnvironment) (w : UploadWorld)
  | finish (holder : ℕ) (result : Option String) (now : Instant)
  | giveUp (holder : ℕ)
  | drop (holder : ℕ)
  | release (holder : ℕ)
  /-- Recovery copies the registrations, before it waits for the write lock. -/
  | copyRegistrations
  | recover (copy : ℕ) (now : Instant)
  | crash
  /-- Any transaction that leaves `upload_operations` alone. -/
  | otherTables (others : Store)

namespace UploadServer

variable (rng : ℕ → String)

def initial (s : Store) : UploadServer := ⟨{ s with uploadOperations := ∅ }, 0, ∅, [], [], [], []⟩

def setPhase (σ : UploadServer) (i : ℕ) (phase : ClaimPhase) : UploadServer :=
  { σ with holders := σ.holders.modify i fun holder => { holder with phase } }

def crashed (σ : UploadServer) : UploadServer :=
  { σ with active := ∅, holders := [], recoveries := [] }

def published (σ : UploadServer) (idHash : String) (files : ℕ) : UploadServer :=
  { σ with publications := List.replicate files idHash ++ σ.publications }

/-- What becomes of a claim whose finalizer has met the world `w`. -/
def finalized (σ : UploadServer) (i : ℕ) (idHash : String) (w : UploadWorld) :
    Outcome UploadWorld Empty FinishState → UploadServer
  | .ok state t =>
    (σ.setPhase i (.committing (.returned state))).published idHash
      (t.publications - w.publications)
  | .err error _ => error.elim
  | .crash t => (σ.published idHash (t.publications - w.publications)).crashed

def perform (σ : UploadServer) : UploadEvent → UploadServer
  | .create scope now =>
    { σ with
      store := committed σ.store (createUploadOperation now scope (rng σ.idsDrawn) σ.store)
      idsDrawn := σ.idsDrawn + 1 }
  | .claim scope idHash now =>
    match claimUploadOperation now scope idHash σ.store with
    | (s', true) => { σ with store := s', holders := σ.holders ++ [⟨idHash, scope, .claimed⟩] }
    | (s', false) => { σ with store := s' }
  | .register i =>
    match σ.holders[i]? with
    | some ⟨idHash, _, .claimed⟩ =>
      { σ.setPhase i .working with active := insert idHash σ.active }
    | _ => σ
  | .bind i fingerprint fragmentName =>
    match σ.holders[i]? with
    | some ⟨idHash, _, .working⟩ =>
      { σ with store := (bindUploadFingerprint idHash fingerprint fragmentName σ.store).1 }
    | _ => σ
  | .rejectForm i result now =>
    match σ.holders[i]? with
    | some ⟨idHash, .share _, .working⟩ =>
      { σ.setPhase i .answered with
        store := (finishUploadOperation now idHash .rejected result σ.store).1 }
    | _ => σ
  | .mark i =>
    match σ.holders[i]? with
    | some ⟨idHash, _, .working⟩ =>
      match markUploadCommitting idHash σ.store with
      | (s', true) => { σ.setPhase i (.committing .entered) with store := s' }
      | (s', false) => { σ.setPhase i .answered with store := s' }
    | _ => σ
  | .charge i token bytes directories audited now =>
    match σ.holders[i]? with
    | some ⟨idHash, .share _, .committing .entered⟩ =>
      match commitUploadReservation now token bytes directories audited (some idHash) σ.store with
      | .ok (s', .committed) =>
        { σ.setPhase i (.committing .charged) with store := s', charges := idHash :: σ.charges }
      | .ok (s', _) => { σ with store := s' }
      | .error _ => σ
    | _ => σ
  | .turnAway i result =>
    match σ.holders[i]? with
    | some ⟨_, .share _, .committing stage⟩ =>
      if stage.running then σ.setPhase i (.committing (.returned (finishState result))) else σ
    | _ => σ
  | .finalize i finalizer env w =>
    match σ.holders[i]?, finalizer with
    | some ⟨idHash, .share _, .committing .charged⟩, .share committed =>
      σ.finalized i idHash w ((Finalizer.share committed).run env w)
    | some ⟨idHash, .admin _, .committing .entered⟩, .admin upload =>
      σ.finalized i idHash w ((Finalizer.admin upload).run env w)
    | _, _ => σ
  | .finish i result now =>
    match σ.holders[i]? with
    | some ⟨idHash, _, .committing (.returned state)⟩ =>
      { σ.setPhase i .answered with
        store := (finishUploadOperation now idHash state result σ.store).1 }
    | _ => σ
  | .giveUp i =>
    match σ.holders[i]? with
    | some holder => if holder.phase.guardLives then σ.setPhase i .answered else σ
    | none => σ
  | .drop i =>
    match σ.holders[i]? with
    | some holder =>
      if holder.phase.guardLives then
        { σ.setPhase i .dropped with active := σ.active.erase holder.idHash }
      else σ
    | none => σ
  | .release i =>
    match σ.holders[i]? with
    | some ⟨idHash, _, .dropped⟩ =>
      { σ.setPhase i .released with store := releaseUploadOperation idHash σ.store }
    | _ => σ
  | .copyRegistrations => { σ with recoveries := σ.recoveries ++ [σ.active] }
  | .recover j now =>
    match σ.recoveries[j]? with
    | some copy =>
      { σ with
        store := recoverUploadOperations now copy σ.store
        recoveries := σ.recoveries.eraseIdx j }
    | none => σ
  | .crash => σ.crashed
  | .otherTables others =>
    { σ with store := { others with uploadOperations := σ.store.uploadOperations } }

def run (σ : UploadServer) (events : List UploadEvent) : UploadServer :=
  events.foldl (perform rng) σ

/-- The row of an operation. -/
def row? (σ : UploadServer) (idHash : String) : Option UploadOperation :=
  σ.store.uploadOperations.find? idHash

/-- What an event can do, once for all invariants. -/
inductive Acts (σ : UploadServer) : UploadEvent → UploadServer → Prop
  | skip (event : UploadEvent) : Acts σ event σ
  | create (scope : UploadScope) (now : Instant) : Acts σ (.create scope now)
      { σ with
        store := committed σ.store (createUploadOperation now scope (rng σ.idsDrawn) σ.store)
        idsDrawn := σ.idsDrawn + 1 }
  | claim (scope : UploadScope) (idHash : String) (now : Instant)
      (hclaim : (claimUploadOperation now scope idHash σ.store).2 = true) :
      Acts σ (.claim scope idHash now)
        { σ with
          store := (claimUploadOperation now scope idHash σ.store).1
          holders := σ.holders ++ [⟨idHash, scope, .claimed⟩] }
  | refuse (scope : UploadScope) (idHash : String) (now : Instant)
      (hclaim : (claimUploadOperation now scope idHash σ.store).2 = false) :
      Acts σ (.claim scope idHash now)
        { σ with store := (claimUploadOperation now scope idHash σ.store).1 }
  | register {i : ℕ} {holder : ClaimHolder} (hhol : σ.holders[i]? = some holder)
      (hph : holder.phase = .claimed) :
      Acts σ (.register i) { σ.setPhase i .working with active := insert holder.idHash σ.active }
  | bind {i : ℕ} {holder : ClaimHolder} (hhol : σ.holders[i]? = some holder)
      (fingerprint fragmentName : String) :
      Acts σ (.bind i fingerprint fragmentName)
        { σ with
          store := (bindUploadFingerprint holder.idHash fingerprint fragmentName σ.store).1 }
  | rejectForm {i : ℕ} {holder : ClaimHolder} (hhol : σ.holders[i]? = some holder)
      (hph : holder.phase = .working) (result : Option String) (now : Instant) :
      Acts σ (.rejectForm i result now)
        { σ.setPhase i .answered with
          store := (finishUploadOperation now holder.idHash .rejected result σ.store).1 }
  | mark {i : ℕ} {holder : ClaimHolder} (hhol : σ.holders[i]? = some holder)
      (hph : holder.phase = .working)
      (hmark : (markUploadCommitting holder.idHash σ.store).2 = true) :
      Acts σ (.mark i)
        { σ.setPhase i (.committing .entered) with
          store := (markUploadCommitting holder.idHash σ.store).1 }
  | markFails {i : ℕ} {holder : ClaimHolder} (hhol : σ.holders[i]? = some holder)
      (hph : holder.phase = .working)
      (hmark : (markUploadCommitting holder.idHash σ.store).2 = false) :
      Acts σ (.mark i)
        { σ.setPhase i .answered with store := (markUploadCommitting holder.idHash σ.store).1 }
  | charge {i : ℕ} {holder : ClaimHolder} {token : String} {bytes directories : ℕ}
      {audited : Bool} {now : Instant} {s : Store} (hhol : σ.holders[i]? = some holder)
      (hph : holder.phase = .committing .entered)
      (hcommit : commitUploadReservation now token bytes directories audited
        (some holder.idHash) σ.store = .ok (s, .committed)) :
      Acts σ (.charge i token bytes directories audited now)
        { σ.setPhase i (.committing .charged) with
          store := s, charges := holder.idHash :: σ.charges }
  | chargeFails {i : ℕ} {holder : ClaimHolder} {token : String} {bytes directories : ℕ}
      {audited : Bool} {now : Instant} {s : Store} {outcome : UploadReservationCommitOutcome}
      (hhol : σ.holders[i]? = some holder) (hout : outcome ≠ .committed)
      (hcommit : commitUploadReservation now token bytes directories audited
        (some holder.idHash) σ.store = .ok (s, outcome)) :
      Acts σ (.charge i token bytes directories audited now) { σ with store := s }
  | finalize (event : UploadEvent) (files : ℕ) {i : ℕ} {holder : ClaimHolder}
      {stage : FinalizerStage} {state : FinishState} (hhol : σ.holders[i]? = some holder)
      (hph : holder.phase = .committing stage) (hrun : stage.running = true) (hone : files ≤ 1)
      (hretry : state = .retryable → files = 0 ∧ ∃ adminId, holder.scope = .admin adminId) :
      Acts σ event ((σ.setPhase i (.committing (.returned state))).published holder.idHash files)
  | finalizeCrash (event : UploadEvent) (files : ℕ) {i : ℕ} {holder : ClaimHolder}
      {stage : FinalizerStage} (hhol : σ.holders[i]? = some holder)
      (hph : holder.phase = .committing stage) (hrun : stage.running = true) (hone : files ≤ 1) :
      Acts σ event (σ.published holder.idHash files).crashed
  | finish {i : ℕ} {holder : ClaimHolder} {state : FinishState}
      (hhol : σ.holders[i]? = some holder) (hph : holder.phase = .committing (.returned state))
      (result : Option String) (now : Instant) :
      Acts σ (.finish i result now)
        { σ.setPhase i .answered with
          store := (finishUploadOperation now holder.idHash state result σ.store).1 }
  | giveUp {i : ℕ} {holder : ClaimHolder} (hhol : σ.holders[i]? = some holder)
      (hliv : holder.phase.guardLives = true) : Acts σ (.giveUp i) (σ.setPhase i .answered)
  | drop {i : ℕ} {holder : ClaimHolder} (hhol : σ.holders[i]? = some holder)
      (hliv : holder.phase.guardLives = true) :
      Acts σ (.drop i) { σ.setPhase i .dropped with active := σ.active.erase holder.idHash }
  | release {i : ℕ} {holder : ClaimHolder} (hhol : σ.holders[i]? = some holder)
      (hph : holder.phase = .dropped) :
      Acts σ (.release i)
        { σ.setPhase i .released with store := releaseUploadOperation holder.idHash σ.store }
  | copyRegistrations :
      Acts σ .copyRegistrations { σ with recoveries := σ.recoveries ++ [σ.active] }
  | recover {j : ℕ} {copy : Finset String} (hcopy : σ.recoveries[j]? = some copy)
      (now : Instant) :
      Acts σ (.recover j now)
        { σ with
          store := recoverUploadOperations now copy σ.store
          recoveries := σ.recoveries.eraseIdx j }
  | crash : Acts σ .crash σ.crashed
  | otherTables (others : Store) :
      Acts σ (.otherTables others)
        { σ with store := { others with uploadOperations := σ.store.uploadOperations } }

/-- The step of a finalizer, from what its run publishes. -/
theorem Acts.finalized {σ : UploadServer} {event : UploadEvent} {i : ℕ} {holder : ClaimHolder}
    {stage : FinalizerStage} (hhol : σ.holders[i]? = some holder)
    (hph : holder.phase = .committing stage) (hrun : stage.running = true)
    (finalizer : Finalizer) (env : UploadEnvironment) (w : UploadWorld)
    (hadmin : ∀ upload, finalizer = .admin upload → ∃ adminId, holder.scope = .admin adminId) :
    Acts rng σ event (σ.finalized i holder.idHash w (finalizer.run env w)) := by
  have hpublishes := finalizer.run_publishes env w
  unfold Action.Meets at hpublishes
  generalize finalizer.run env w = outcome at hpublishes
  cases outcome with
  | ok state t =>
    have hone := hpublishes.1.publications_le
    refine .finalize event _ hhol hph hrun (by omega) fun hretry => ?_
    obtain ⟨⟨hnone, -⟩, upload, hupload⟩ := hpublishes.2 hretry
    exact ⟨by omega, hadmin upload hupload⟩
  | err error => exact error.elim
  | crash t =>
    have hone := FilesKept.publications_le hpublishes
    exact .finalizeCrash event _ hhol hph hrun (by omega)

theorem acts (σ : UploadServer) (event : UploadEvent) : Acts rng σ event (σ.perform rng event) := by
  cases event with simp only [perform]
  | create scope now => exact .create scope now
  | claim scope idHash now =>
    cases hclaim : claimUploadOperation now scope idHash σ.store with
    | mk s' started =>
      cases started with
      | true =>
        have h := @Acts.claim rng σ scope idHash now (by rw [hclaim])
        rwa [hclaim] at h
      | false =>
        have h := @Acts.refuse rng σ scope idHash now (by rw [hclaim])
        rwa [hclaim] at h
  | register i =>
    split
    · rename_i hhol
      exact .register hhol rfl
    · exact .skip _
  | bind i fingerprint fragmentName =>
    split
    · rename_i hhol
      exact .bind hhol fingerprint fragmentName
    · exact .skip _
  | rejectForm i result now =>
    split
    · rename_i hhol
      exact .rejectForm hhol rfl result now
    · exact .skip _
  | mark i =>
    split
    · rename_i idHash scope hhol
      cases hmark : markUploadCommitting idHash σ.store with
      | mk s' marked =>
        cases marked with
        | true =>
          have h := @Acts.mark rng σ i _ hhol rfl (by rw [hmark])
          rwa [hmark] at h
        | false =>
          have h := @Acts.markFails rng σ i _ hhol rfl (by rw [hmark])
          rwa [hmark] at h
    · exact .skip _
  | charge i token bytes directories audited now =>
    split
    · rename_i hhol
      split
      · rename_i hcommit
        exact .charge hhol rfl hcommit
      · rename_i hne hcommit
        exact .chargeFails hhol (fun heq => hne heq) hcommit
      · exact .skip _
    · exact .skip _
  | turnAway i result =>
    split
    · rename_i stage hhol
      split_ifs with hrun
      · refine .finalize _ 0 hhol rfl hrun (Nat.zero_le 1) fun hretry => ?_
        obtain ⟨error⟩ | ⟨outcome⟩ := result
        · cases hretry
        · cases outcome <;> cases hretry
      · exact .skip _
    · exact .skip _
  | finalize i finalizer env w =>
    split
    · rename_i hhol
      exact .finalized rng hhol rfl rfl _ env w nofun
    · rename_i hhol
      exact .finalized rng hhol rfl rfl _ env w fun _ _ => ⟨_, rfl⟩
    · exact .skip _
  | finish i result now =>
    split
    · rename_i hhol
      exact .finish hhol rfl result now
    · exact .skip _
  | giveUp i =>
    split
    · rename_i hhol
      split_ifs with hliv
      · exact .giveUp hhol hliv
      · exact .skip _
    · exact .skip _
  | drop i =>
    split
    · rename_i hhol
      split_ifs with hliv
      · exact .drop hhol hliv
      · exact .skip _
    · exact .skip _
  | release i =>
    split
    · rename_i hhol
      exact .release hhol rfl
    · exact .skip _
  | copyRegistrations => exact .copyRegistrations
  | recover j now =>
    split
    · rename_i hcopy
      exact .recover hcopy now
    · exact .skip _
  | crash => exact .crash
  | otherTables others => exact .otherTables others

end UploadServer

end VaultLink
