import VaultLink.Histories
import VaultLink.TransferService

/-!
# Who owns a lease

Whoever holds a lease when the request, the guard or the stream goes away has to cancel it: the
worker, before the request has claimed the lease; the guard; the stream, while it holds the lease
token or the handle of the completion task. A stream that is dropped or times out while the task
is running leaves the lease to the task alone, and when the task then fails nobody cancels it.
The same holds of a response without a body. Everywhere else the obligations are passed on, in
every interleaving.
-/
namespace VaultLink

open CompletionTask

variable {stream : PublicTransferStream}

section Obligations

namespace Transfer

/-- The transfer was counted, or a cancellation was run or queued. -/
def settled (t : Transfer) : Bool := t.completed || t.cancelled.contains t.request.leaseToken

/-- The worker has a committed lease that the request has not claimed. -/
def workerOwes (t : Transfer) : Bool :=
  match t.worker with
  | .publishing _ => true
  | .awaitingOwnership => !t.claimed
  | _ => false

/-- The guard, or a stream that holds the lease token or the handle of the completion task. -/
def ownerOwes (t : Transfer) : Bool :=
  match t.owner with
  | .guarded _ => true
  | .streaming stream _ => stream.leaseToken.isSome || stream.finalize
  | _ => false

/-- The lease is settled, or somebody still has to complete or cancel it. -/
def Tended (t : Transfer) : Prop :=
  t.settled = true ∨ t.workerOwes = true ∨ t.ownerOwes = true ∨ t.task = .running

/-- The tokens of a stream are the transfer's own, and its fields agree with the completion task. -/
structure StreamOf (own : String) (task : CompletionTask) (stream : PublicTransferStream) :
    Prop where
  leaseToken_eq : ∀ token, stream.leaseToken = some token → token = own
  finalizingToken_eq : ∀ token, stream.finalizingLeaseToken = some token → token = own
  unspawned : stream.leaseToken.isSome = true → task = .notSpawned ∧ stream.finalize = false
  spawned : stream.finalize = true →
    task ≠ .notSpawned ∧ stream.finalizingLeaseToken = some own

structure Consistent (t : Transfer) : Prop where
  leased_transacted : t.leased = true → t.worker ≠ .queued ∧ t.worker ≠ .transacting
  publishing_reserved : ∀ outcome, t.worker = .publishing outcome → reserved outcome = t.leased
  outcome_reserved : ∀ outcome, t.outcome = some outcome → reserved outcome = t.leased
  outcome_worker : t.outcome.isSome = true → t.worker = .awaitingOwnership ∨ t.worker = .finished
  unclaimed : t.claimed = false → t.owner = .nobody
  claimed_worker : t.claimed = true → t.worker = .awaitingOwnership ∨ t.worker = .finished
  claimed_future : t.claimed = true → t.future.pending = false
  nobody_task : t.owner = .nobody → t.task = .notSpawned
  guarded : ∀ lease, t.owner = .guarded lease →
    lease = t.newLease ∧ t.task = .notSpawned
  streaming : ∀ stream failed, t.owner = .streaming stream failed →
    StreamOf t.request.leaseToken t.task stream
  completed_task : t.task = .finished .completed → t.completed = true
  cancelled_eq : ∀ token ∈ t.cancelled, token = t.request.leaseToken

variable {t : Transfer} {accepted : Bool}

theorem Consistent.begin (request : TransferRequest) : (Transfer.begin request).Consistent := by
  constructor <;> simp [Transfer.begin]

namespace Consistent

variable (h : t.Consistent)

include h

/-- Cancellations of the transfer's own lease. -/
theorem cancel {tokens : List String} (htoks : ∀ token ∈ tokens, token = t.request.leaseToken) :
    (t.cancel tokens).Consistent :=
  { h with
    cancelled_eq := by
      intro token hmem
      rcases List.mem_append.mp hmem with hold | hnew
      · exact h.cancelled_eq token hold
      · exact htoks token hnew }

/-- The worker moves on without a word to the request. -/
theorem setWorker {worker : HandoffWorker}
    (hstarted : t.leased = true → worker ≠ .queued ∧ worker ≠ .transacting)
    (hpubg : ∀ outcome, worker = .publishing outcome → reserved outcome = t.leased)
    (hlate : t.outcome.isSome = true ∨ t.claimed = true →
      worker = .awaitingOwnership ∨ worker = .finished) : { t with worker := worker }.Consistent :=
  { h with
    leased_transacted := hstarted
    publishing_reserved := hpubg
    outcome_worker := fun hsome => hlate (Or.inl hsome)
    claimed_worker := fun hclaimed => hlate (Or.inr hclaimed) }

theorem finishWorker : { t with worker := .finished }.Consistent :=
  h.setWorker (fun _ => ⟨by nofun, by nofun⟩) (by nofun) fun _ => Or.inr rfl

/-- The request ends. -/
theorem setFuture {future : BeginFuture} (hfuture : t.claimed = true → future.pending = false) :
    { t with future := future, outcome := none }.Consistent :=
  { h with
    outcome_reserved := by nofun
    outcome_worker := by nofun
    claimed_future := hfuture }

/-- The lease is let go. -/
theorem release (howne : t.owner ≠ .nobody) : { t with owner := .released }.Consistent :=
  { h with
    unclaimed := fun hclaimed => absurd (h.unclaimed hclaimed) howne
    nobody_task := by nofun
    guarded := by nofun
    streaming := fun _ _ => nofun }

/-- The tokens of a dropped guard. -/
theorem dropLease_tokens {lease : PublicTransferLease} (howne : t.owner = .guarded lease)
    (accepted : Bool) :
    ∀ token ∈ enqueued accepted lease.dropLease, token = t.request.leaseToken := by
  intro token hmem
  obtain ⟨-, hmem⟩ := mem_enqueued.mp hmem
  rw [(h.guarded lease howne).1] at hmem
  simpa [PublicTransferLease.dropLease, newLease, PublicTransferLease.new] using hmem

end Consistent

variable {own : String} {task : CompletionTask}

/-- A stream without lease token and handle. -/
theorem StreamOf.of_idle (htok : stream.leaseToken = none) (hidle : stream.finalize = false)
    (hfin : ∀ token, stream.finalizingLeaseToken = some token → token = own) :
    StreamOf own task stream :=
  ⟨by simp [htok], hfin, by simp [htok], by simp [hidle]⟩

theorem afterPoll_spawned {early : Option TaskResult} {effect : StreamEffect}
    {effects : List StreamEffect} (h : spawnedBy effect = true) :
    notSpawned.afterPoll early (effect :: effects) =
      early.elim .running .finished := by
  simp [afterPoll, h]

/-- A poll keeps the tokens of a stream and its relation to the task. -/
theorem StreamOf.polled (h : StreamOf own task stream) {early : Option TaskResult}
    {answers : PollAnswers} {result : PollResult} (hpol : TokenPolled answers stream result) :
    StreamOf own (task.afterPoll early result.effects) result.stream := by
  have hunch : task.afterPoll early [] = task := by
    cases task <;> rfl
  cases hpol with
  | kept _ htok hhandle hfin heffs =>
    exact ⟨by rw [htok]; exact h.leaseToken_eq, by rw [hfin]; exact h.finalizingToken_eq,
      by rw [htok, hhandle, heffs, hunch]; exact h.unspawned,
      by rw [hhandle, hfin, heffs, hunch]; exact h.spawned⟩
  | givenUp _ htok hidle hfin =>
    exact .of_idle htok hidle (by rw [hfin]; exact h.finalizingToken_eq)
  | observed _ hheld hres =>
    have hnone : stream.leaseToken = none := by
      by_contra hsome
      have hidle := (h.unspawned (Option.isSome_iff_ne_none.mpr hsome)).2
      rw [hheld] at hidle
      cases hidle
    cases hres with
    | pending =>
      rw [hunch]
      exact { h with }
    | completed hans _ htok hidle hfin
    | failed taskResult hfai hans _ htok hidle hfin =>
      exact .of_idle (htok.trans hnone) hidle (by simp [hfin])
  | spawned token htok hidle started hstarted hheld hfin inner _ hobs effect hspawn
      hstream heffs hval =>
    have hown := h.leaseToken_eq token htok
    have hbef := (h.unspawned (by simp [htok])).1
    rw [hstream]
    cases hobs with
    | pending =>
      refine ⟨by simp [hstarted], ?_, by simp [hstarted], fun _ => ⟨?_, ?_⟩⟩
      · intro other hoth
        rw [← hown]
        exact Option.some.inj (hoth.symm.trans hfin)
      · rw [hbef, heffs, afterPoll_spawned hspawn]
        cases early <;> simp
      · rw [hfin, hown]
    | completed hans _ htok' hidle' hfin'
    | failed taskResult hfai hans _ htok' hidle' hfin' =>
      exact .of_idle (htok'.trans hstarted) hidle' (by simp [hfin'])

/-- A task that has completed the lease has committed an outcome that settles it. -/
theorem afterPoll_completed {early : Option CompletionAttempt} {effects : List StreamEffect}
    (h : task.afterPoll (early.map transferCompleteFuture) effects = .finished .completed) :
    task = .finished .completed ∨
      (task = .notSpawned && effects.any spawnedBy) = true ∧
        early.any CompletionAttempt.settles = true := by
  cases task with
  | notSpawned =>
    simp only [afterPoll] at h
    split at h
    · rename_i hspawned
      cases early with
      | none => cases h
      | some =>
        refine Or.inr ⟨by simpa using hspawned, settles_of_completed ?_⟩
        simpa using h
    · cases h
  | running => cases h
  | finished => exact Or.inl h

theorem Consistent.poll (h : t.Consistent) {failed : Bool}
    (howne : t.owner = .streaming stream failed) (deadlineReady : Bool)
    (early : Option CompletionAttempt) (inner : Poll (Option StreamItem)) :
    (t.pollStream accepted stream failed deadlineReady early inner).Consistent := by
  have hstream := h.streaming stream failed howne
  have hpol := pollNext_tokenPolled
    ⟨deadlineReady, t.task.answer (early.map transferCompleteFuture), inner⟩ stream
  simp only [pollStream]
  generalize stream.pollNext
    ⟨deadlineReady, t.task.answer (early.map transferCompleteFuture), inner⟩ = result at hpol ⊢
  exact { h with
    unclaimed := fun hclaimed => by
      have hnobody := h.unclaimed hclaimed
      rw [howne] at hnobody
      cases hnobody
    nobody_task := by nofun
    guarded := by nofun
    streaming := by
      rintro _ _ ⟨⟩
      exact hstream.polled hpol
    completed_task := fun hcompleted => by
      rcases afterPoll_completed hcompleted with hold | ⟨hspawned, hsettles⟩
      · simp [h.completed_task hold]
      · simp [hspawned, hsettles]
    cancelled_eq := by
      intro token hmem
      rcases List.mem_append.mp hmem with hold | hnew
      · exact h.cancelled_eq token hold
      · obtain ⟨-, htok⟩ := tokenPolled_cancels hpol (mem_enqueued.mp hnew).2
        exact htok.elim (hstream.leaseToken_eq token) (hstream.finalizingToken_eq token) }

theorem Consistent.launch (h : t.Consistent) (hqueued : t.worker = .queued)
    {worker : HandoffWorker} (hwor : worker = .transacting ∨ worker = .finished)
    (future : BeginFuture) : { t with worker := worker, future := future }.Consistent := by
  have huncl : ¬t.claimed = true := fun hclaimed => by
    simpa [hqueued] using h.claimed_worker hclaimed
  have hnone : ¬t.outcome.isSome = true := fun hsome => by
    simpa [hqueued] using h.outcome_worker hsome
  have hmoved : { t with worker := worker }.Consistent := by
    refine h.setWorker (fun hleased => absurd hqueued (h.leased_transacted hleased).1) ?_ ?_
    · rcases hwor with rfl | rfl <;> nofun
    · exact fun hlate => (hlate.elim hnone huncl).elim
  exact { hmoved with claimed_future := fun hclaimed => absurd hclaimed huncl }

theorem Consistent.transact (h : t.Consistent) (htransacting : t.worker = .transacting)
    (outcome : Except DbError TransferLeaseBeginOutcome) :
    { t with worker := .publishing outcome, leased := reserved outcome }.Consistent := by
  have huncl : ¬t.claimed = true := fun hclaimed => by
    simpa [htransacting] using h.claimed_worker hclaimed
  have hnone : ¬t.outcome.isSome = true := fun hsome => by
    simpa [htransacting] using h.outcome_worker hsome
  exact { h with
    leased_transacted := fun _ => ⟨by nofun, by nofun⟩
    publishing_reserved := by
      rintro _ ⟨⟩
      rfl
    outcome_reserved := fun outcome hsome =>
      absurd (Option.isSome_iff_exists.mpr ⟨outcome, hsome⟩) hnone
    outcome_worker := fun hsome => absurd hsome hnone
    claimed_worker := fun hclaimed => absurd hclaimed huncl }

theorem Consistent.publish (h : t.Consistent) {outcome : Except DbError TransferLeaseBeginOutcome}
    (hpubg : t.worker = .publishing outcome) :
    { t with
      outcome := some outcome
      worker := if reserved outcome then .awaitingOwnership else .finished }.Consistent := by
  have hlate : (if reserved outcome then HandoffWorker.awaitingOwnership else .finished) =
      .awaitingOwnership ∨
      (if reserved outcome then HandoffWorker.awaitingOwnership else .finished) = .finished := by
    split
    · exact Or.inl rfl
    · exact Or.inr rfl
  have hmoved : { t with
      worker := if reserved outcome then .awaitingOwnership else .finished }.Consistent := by
    refine h.setWorker (fun _ => ?_) (fun other hoth => ?_) fun _ => hlate
    · rcases hlate with hlate | hlate <;> rw [hlate] <;> exact ⟨by nofun, by nofun⟩
    · rcases hlate with hlate | hlate <;> rw [hlate] at hoth <;> cases hoth
  exact { hmoved with
    outcome_reserved := by
      rintro _ ⟨⟩
      exact h.publishing_reserved outcome hpubg
    outcome_worker := fun _ => hlate }

/-- The request claims the lease. -/
theorem Consistent.claim (h : t.Consistent) (hout : t.outcome.isSome = true)
    (hpend : t.future.pending = true) :
    { t with
      future := .returned
      outcome := none
      claimed := true
      owner := .guarded t.newLease }.Consistent := by
  have huncl : t.claimed = false := by
    by_contra hclaimed
    rw [h.claimed_future ((Bool.not_eq_false _).mp hclaimed)] at hpend
    cases hpend
  have hended : { t with future := .returned, outcome := none }.Consistent :=
    h.setFuture fun _ => rfl
  exact { hended with
    unclaimed := by nofun
    claimed_worker := fun _ => h.outcome_worker hout
    claimed_future := fun _ => rfl
    nobody_task := by nofun
    guarded := by
      rintro _ ⟨⟩
      exact ⟨rfl, h.nobody_task (h.unclaimed huncl)⟩
    streaming := fun _ _ => nofun }

theorem Consistent.cancelLease (h : t.Consistent) {lease : PublicTransferLease}
    (howne : t.owner = .guarded lease) (ran : Bool) :
    ({ t with owner := .released }.cancel ((if ran then [lease.leaseToken] else []) ++
      enqueued accepted lease.dropLease)).Consistent := by
  have htok : lease.leaseToken = t.request.leaseToken := by
    rw [(h.guarded lease howne).1]
    rfl
  refine (h.release (by simp [howne])).cancel fun token hmem => ?_
  rcases List.mem_append.mp hmem with hran | hdropped
  · split at hran
    · exact (List.mem_singleton.mp hran).trans htok
    · cases hran
  · exact h.dropLease_tokens howne accepted token hdropped

theorem Consistent.startStream (h : t.Consistent) {lease : PublicTransferLease}
    (howne : t.owner = .guarded lease) (expectedBytes : Option ℕ) :
    { t with
      owner := .streaming (lease.transferStream t.request.action t.request.shareId expectedBytes)
        false }.Consistent := by
  obtain ⟨rfl, htask⟩ := h.guarded lease howne
  exact { h with
    unclaimed := fun hclaimed => absurd (h.unclaimed hclaimed) (by simp [howne])
    nobody_task := by nofun
    guarded := by nofun
    streaming := by
      rintro _ _ ⟨⟩
      refine ⟨?_, by nofun, fun _ => ⟨htask, rfl⟩, by nofun⟩
      rintro _ ⟨⟩
      rfl }

theorem Consistent.completeWithoutBody (h : t.Consistent) {lease : PublicTransferLease}
    (howne : t.owner = .guarded lease) :
    { t with owner := .completing, task := .running }.Consistent :=
  { h with
    unclaimed := fun hclaimed => absurd (h.unclaimed hclaimed) (by simp [howne])
    nobody_task := by nofun
    guarded := by nofun
    streaming := fun _ _ => nofun
    completed_task := by nofun }

theorem Consistent.finishTask (h : t.Consistent) (hrun : t.task = .running)
    (attempt : CompletionAttempt) :
    { t with
      task := .finished (transferCompleteFuture attempt)
      completed := t.completed || attempt.settles }.Consistent :=
  { h with
    nobody_task := fun hnobody => by simp [h.nobody_task hnobody] at hrun
    guarded := fun lease howne => by simp [(h.guarded lease howne).2] at hrun
    streaming := fun stream failed howne => by
      have hstream := h.streaming stream failed howne
      refine { hstream with
        unspawned := fun htok => ?_
        spawned := fun hheld => ⟨by nofun, (hstream.spawned hheld).2⟩ }
      simp [(hstream.unspawned htok).1] at hrun
    completed_task := fun hcompleted => by
      simp [settles_of_completed (finished.inj hcompleted)] }

theorem Consistent.unclaimed_of_publishing (h : t.Consistent)
    {outcome : Except DbError TransferLeaseBeginOutcome} (hpubg : t.worker = .publishing outcome) :
    t.claimed = false := by
  by_contra hclaimed
  simpa [hpubg] using h.claimed_worker ((Bool.not_eq_false _).mp hclaimed)

theorem mem_own {token : String} {own : Bool}
    (h : token ∈ if own then [t.request.leaseToken] else []) : token = t.request.leaseToken := by
  split at h
  · exact List.mem_singleton.mp h
  · cases h

theorem Consistent.step (h : t.Consistent) (event : TransferEvent) :
    (t.step accepted event).Consistent := by
  cases event with simp only [Transfer.step]
  | launch =>
    split
    · exact h.launch (by assumption) (Or.inl rfl) _
    · exact h
  | refuse =>
    split
    · exact h.launch (by assumption) (Or.inr rfl) _
    · exact h
  | transact outcome =>
    split
    · exact h.transact (by assumption) outcome
    · exact h
  | publish =>
    split
    · split
      · exact h.publish (by assumption)
      · exact h.finishWorker.cancel fun _ => mem_own
    · exact h
  | receive =>
    split
    · rename_i outcome hout
      split
      · split
        · exact h.claim (by simp [hout]) (by assumption)
        · exact h.setFuture fun _ => rfl
      · exact h
    · exact h
  | dropFuture =>
    split
    · exact h.setFuture fun _ => rfl
    · exact h
  | finishHandoff =>
    split
    · split
      · exact h.finishWorker
      · split
        · exact h
        · exact h.finishWorker.cancel fun _ => mem_own
    · exact h
  | dropLease =>
    split
    · exact h.cancelLease (by assumption) false
    · exact h
  | cancelLease call =>
    split
    · rename_i lease howne
      split
      · refine (h.release (by simp [howne])).cancel fun token hmem => ?_
        rw [List.mem_singleton.mp hmem, (h.guarded lease howne).1]
        rfl
      · exact h.cancelLease howne _
    · exact h
  | startStream expectedBytes =>
    split
    · exact h.startStream (by assumption) expectedBytes
    · exact h
  | completeWithoutBody =>
    split
    · exact h.completeWithoutBody (by assumption)
    · exact h
  | poll deadlineReady early inner =>
    split
    · exact h.poll (by assumption) deadlineReady early inner
    · exact h
  | dropStream =>
    split
    · rename_i stream failed howne
      refine (h.release (by simp [howne])).cancel fun token hmem => ?_
      exact (h.streaming stream failed howne).leaseToken_eq token
        (mem_dropStream.mp (mem_enqueued.mp hmem).2)
    · exact h
  | finishTask attempt =>
    split
    · exact h.finishTask (by assumption) attempt
    · exact h
  | returnWithoutBody =>
    split
    · rename_i howne
      exact h.release (by simp [howne])
    · exact h

/-- Whether the lease has an owner that is alive and has neither failed nor timed out; before
the request has claimed it, the owner is the request. -/
def ownerHealthy (t : Transfer) : Bool :=
  match t.owner with
  | .nobody => t.future.pending
  | .guarded _ | .completing => true
  | .streaming _ failed => !failed
  | .released => false

/-- The events that may issue a cancellation. -/
def mayCancel : TransferEvent → Bool
  | .publish | .finishHandoff _ | .dropLease | .cancelLease _ | .poll .. | .dropStream => true
  | _ => false

theorem step_cancelled_eq {event : TransferEvent} (h : mayCancel event = false) :
    (t.step accepted event).cancelled = t.cancelled := by
  cases event with
  | publish | finishHandoff | dropLease | cancelLease | poll | dropStream => cases h
  | _ =>
    simp only [step]
    repeat' split
    all_goals rfl

/-- A cancellation is issued only when nobody healthy owns the lease any more. -/
theorem Consistent.cancels_justly (h : t.Consistent) {event : TransferEvent}
    (hiss : (t.step accepted event).cancelled ≠ t.cancelled) :
    (t.step accepted event).ownerHealthy = false := by
  cases hmay : mayCancel event with
  | false => exact absurd (step_cancelled_eq hmay) hiss
  | true =>
    cases event with simp only [Transfer.step] at hiss ⊢
    | publish =>
      split at hiss
      · rename_i outcome hpubg
        split at hiss
        · exact absurd rfl hiss
        · rename_i hgone
          simp [hgone, ownerHealthy, Transfer.cancel,
            h.unclaimed (h.unclaimed_of_publishing hpubg)]
      · exact absurd rfl hiss
    | finishHandoff admitted =>
      split at hiss
      · split at hiss
        · exact absurd rfl hiss
        · rename_i huncl
          split at hiss
          · exact absurd rfl hiss
          · rename_i hwor hgone
            have hnobody := h.unclaimed ((Bool.not_eq_true _).mp huncl)
            simp [hwor, huncl, hgone, ownerHealthy, Transfer.cancel, hnobody]
      · exact absurd rfl hiss
    | dropLease | dropStream =>
      split at hiss
      · rfl
      · exact absurd rfl hiss
    | cancelLease call =>
      split at hiss
      · cases call <;> rfl
      · exact absurd rfl hiss
    | poll deadlineReady early inner =>
      split at hiss
      · rename_i stream failed howne
        have hpol := pollNext_tokenPolled
          ⟨deadlineReady, t.task.answer (early.map transferCompleteFuture), inner⟩ stream
        simp only [pollStream] at hiss ⊢
        generalize stream.pollNext ⟨deadlineReady,
          t.task.answer (early.map transferCompleteFuture), inner⟩ = result at hpol hiss ⊢
        have hne : enqueued accepted result.effects ≠ [] := fun hnil =>
          hiss (by rw [hnil, List.append_nil])
        obtain ⟨token, hmem⟩ := List.exists_mem_of_ne_nil _ hne
        obtain ⟨hval, -⟩ := tokenPolled_cancels hpol (mem_enqueued.mp hmem).2
        simp [ownerHealthy, hval]
      · exact absurd rfl hiss
    | _ => cases hmay

/-- Whether the stream holds the handle of the completion task. -/
def holdsHandle (t : Transfer) : Bool :=
  match t.owner with
  | .streaming stream _ => stream.finalize
  | _ => false

/-- The completion task has ended without settling the lease, and the stream has not asked its
handle since. -/
def unheard (t : Transfer) : Bool :=
  t.holdsHandle && t.task ≠ .running && !t.completed

/-- The cleanup queue takes the cancellations, the worker of an abandoned request is admitted to
cancel its lease, and the stream is there to hear of a failed completion. -/
def Attended (accepted : Bool) (t : Transfer) (event : TransferEvent) : Prop :=
  accepted = true ∧ match event with
    | .finishHandoff admitted => t.claimed = false → admitted = true
    | .finishTask attempt => t.task = .running → attempt.settles = false → t.holdsHandle = true
    | .dropStream => t.unheard = false
    | .poll deadlineReady _ _ => deadlineReady = true → t.unheard = false
    | _ => True

instance (accepted : Bool) (t : Transfer) : (event : TransferEvent) →
    Decidable (t.Attended accepted event)
  | .finishHandoff _ => inferInstanceAs (Decidable (_ ∧ (_ → _)))
  | .finishTask _ => inferInstanceAs (Decidable (_ ∧ (_ → _ → _)))
  | .dropStream => inferInstanceAs (Decidable (_ ∧ _))
  | .poll _ _ _ => inferInstanceAs (Decidable (_ ∧ (_ → _)))
  | .launch | .refuse | .transact _ | .publish | .receive | .dropFuture | .dropLease
  | .cancelLease _ | .startStream _ | .completeWithoutBody | .returnWithoutBody =>
    inferInstanceAs (Decidable (_ ∧ True))

theorem running_or_completed {failed : Bool} (howne : t.owner = .streaming stream failed)
    (hheld : stream.finalize = true) (hheard : t.unheard = false) :
    t.task = .running ∨ t.completed = true := by
  simpa [unheard, holdsHandle, howne, hheld, Classical.or_iff_not_imp_left] using hheard

theorem settled_cancel_of_mem {tokens : List String} (hmem : t.request.leaseToken ∈ tokens) :
    (t.cancel tokens).settled = true := by
  simp [settled, cancel, hmem]

/-- The worker ends after the request has claimed the lease or without a lease. -/
theorem Tended.finishWorker (h : t.Tended) (hwor : t.workerOwes = false) :
    { t with worker := .finished }.Tended :=
  h.imp_right fun h => Or.inr (h.resolve_left (by simp [hwor]))

/-- The owner changes; a new owner owes nothing unless the old one has settled the lease. -/
theorem Tended.setOwner (h : t.Tended) {owner : LeaseOwner} (howne : t.ownerOwes = false) :
    { t with owner := owner }.Tended := by
  rcases h with hset | hwor | howes | hrun
  · exact Or.inl hset
  · exact Or.inr (Or.inl hwor)
  · rw [howne] at howes
    cases howes
  · exact Or.inr (Or.inr (Or.inr hrun))

section Polls

variable {stream : PublicTransferStream} {failed deadlineReady : Bool}
  {early : Option CompletionAttempt} {inner : Poll (Option StreamItem)}

/-- A cancellation that a poll puts into the cleanup queue settles the lease. -/
theorem settled_of_cancel
    (hcan : .cancel t.request.leaseToken ∈ (stream.pollNext
      ⟨deadlineReady, t.task.answer (early.map transferCompleteFuture), inner⟩).effects) :
    (t.pollStream true stream failed deadlineReady early inner).settled = true := by
  have hmem := mem_enqueued.mpr ⟨rfl, hcan⟩
  simp [settled, pollStream, hmem]

/-- A poll of a stream that holds the lease token cancels the lease, spawns the completion task or
keeps the token. -/
theorem poll_token (h : StreamOf t.request.leaseToken t.task stream)
    (htok : stream.leaseToken.isSome = true) :
    (t.pollStream true stream failed deadlineReady early inner).Tended := by
  obtain ⟨hunspawned, hidle⟩ := h.unspawned htok
  obtain ⟨token, htok⟩ := Option.isSome_iff_exists.mp htok
  have hown := h.leaseToken_eq token htok
  have hset := @settled_of_cancel t stream failed deadlineReady early inner
  have hpol := pollNext_tokenPolled
    ⟨deadlineReady, t.task.answer (early.map transferCompleteFuture), inner⟩ stream
  unfold Tended ownerOwes
  simp only [pollStream] at hset ⊢
  generalize stream.pollNext
    ⟨deadlineReady, t.task.answer (early.map transferCompleteFuture), inner⟩ = result at hpol hset ⊢
  cases hpol with
  | kept _ hsame =>
    exact Or.inr (Or.inr (Or.inl (by simp [hsame, htok])))
  | givenUp _ hnone hidle' hfin heffs =>
    refine Or.inl (hset ?_)
    rw [heffs, mem_dropStream, htok, hown]
  | observed _ hheld =>
    rw [hidle] at hheld
    cases hheld
  | spawned first hfirst _ started hstarted hheld hfin inner _ hobs effect hspawn
      hstream heffs hval =>
    cases hobs with
    | pending => exact Or.inr (Or.inr (Or.inl (by simp [hstream, hheld])))
    | completed hans =>
      -- the task has ended before its handle was asked for the first time
      rw [hunspawned] at hans
      cases early with
      | none => cases hans
      | some =>
        have hsettles := settles_of_completed (Poll.ready.inj hans)
        refine Or.inl ?_
        simp [settled, hunspawned, heffs, hspawn, hsettles]
    | failed taskResult hfai hans _ htok' hidle' hfin' heffs' =>
      refine Or.inl (hset ?_)
      cases hfirst.symm.trans htok
      simp [heffs, heffs', hfin, hown]

/-- A poll of a stream that holds the handle hears of the end of the task, unless the deadline has
passed. -/
theorem poll_handle (h : t.Consistent) (howne : t.owner = .streaming stream failed)
    (hheld : stream.finalize = true) (hheard : deadlineReady = true → t.unheard = false) :
    (t.pollStream true stream failed deadlineReady early inner).Tended := by
  have hstream := h.streaming stream failed howne
  obtain ⟨hspawned, hown⟩ := hstream.spawned hheld
  have hset := @settled_of_cancel t stream failed deadlineReady early inner
  have hpol := pollNext_tokenPolled
    ⟨deadlineReady, t.task.answer (early.map transferCompleteFuture), inner⟩ stream
  unfold Tended ownerOwes
  simp only [pollStream] at hset ⊢
  generalize stream.pollNext
    ⟨deadlineReady, t.task.answer (early.map transferCompleteFuture), inner⟩ = result at hpol hset ⊢
  cases hpol with
  | kept _ hsame hhandle =>
    exact Or.inr (Or.inr (Or.inl (by simp [hhandle, hheld])))
  | givenUp _ hnone hidle hfin heffs hwhy =>
    have hpas := hheard (hwhy.resolve_right (by simp [hheld]))
    rcases running_or_completed howne hheld hpas with hrun | hcompleted
    · exact Or.inr (Or.inr (Or.inr (by simp [hrun, afterPoll])))
    · exact Or.inl (by simp [settled, hcompleted])
  | observed _ _ hres =>
    cases hres with
    | pending => exact Or.inr (Or.inr (Or.inl (by simp [hheld])))
    | completed hans =>
      have hfinished : t.task = .finished .completed := by
        cases htask : t.task with
        | notSpawned => exact absurd htask hspawned
        | running =>
          rw [htask] at hans
          cases hans
        | finished =>
          rw [htask] at hans
          cases hans
          rfl
      exact Or.inl (by simp [settled, h.completed_task hfinished])
    | failed taskResult hfai hans _ htok' hidle' hfin' heffs' =>
      refine Or.inl (hset ?_)
      simp [heffs', hown]
  | spawned first hfirst hidle started hstarted _ hfin inner _ hobs effect hspawn
      hstream heffs hval =>
    rw [hheld] at hidle
    cases hidle

theorem Tended.poll (ht : t.Tended) (h : t.Consistent) (howne : t.owner = .streaming stream failed)
    (hheard : deadlineReady = true → t.unheard = false) :
    (t.pollStream true stream failed deadlineReady early inner).Tended := by
  rcases ht with hset | hwor | howes | hrun
  · refine Or.inl ?_
    simp only [settled, Bool.or_eq_true, List.contains_iff_mem] at hset ⊢
    rcases hset with hcompleted | hcancelled
    · exact Or.inl (by simp [pollStream, hcompleted])
    · exact Or.inr (List.mem_append_left _ hcancelled)
  · exact Or.inr (Or.inl hwor)
  · simp only [ownerOwes, howne, Bool.or_eq_true] at howes
    rcases howes with htok | hheld
    · exact poll_token (h.streaming stream failed howne) htok
    · exact poll_handle h howne hheld hheard
  · exact Or.inr (Or.inr (Or.inr (by simp [pollStream, hrun, afterPoll])))

end Polls

theorem ownerOwes_of_holdsHandle (h : t.holdsHandle = true) : t.ownerOwes = true := by
  unfold holdsHandle at h
  split at h
  · rename_i stream failed howne
    simp [ownerOwes, howne, h]
  · cases h

/-- A dropped stream cancels the lease or leaves it to the task. -/
theorem Tended.dropStream (ht : t.Tended) (h : t.Consistent) {failed : Bool}
    (howne : t.owner = .streaming stream failed) (hheard : t.unheard = false) :
    ({ t with owner := .released }.cancel (enqueued true stream.dropStream)).Tended := by
  cases htok : stream.leaseToken with
  | some token =>
    have hown := (h.streaming stream failed howne).leaseToken_eq token htok
    refine Or.inl (settled_cancel_of_mem (mem_enqueued.mpr ⟨rfl, mem_dropStream.mpr ?_⟩))
    rw [htok, hown]
  | none =>
    have hnothing : enqueued true stream.dropStream = [] := by
      simp [enqueued, PublicTransferStream.dropStream, htok]
    rw [hnothing, Transfer.cancel, List.append_nil]
    cases hheld : stream.finalize with
    | false => exact ht.setOwner (by simp [ownerOwes, howne, htok, hheld])
    | true =>
      rcases running_or_completed howne hheld hheard with hrun | hcompleted
      · exact Or.inr (Or.inr (Or.inr hrun))
      · exact Or.inl (by simp [settled, hcompleted])

theorem step_leased {event : TransferEvent} (h : ∀ outcome, event ≠ .transact outcome) :
    (t.step accepted event).leased = t.leased := by
  cases event with
  | transact outcome => exact absurd rfl (h outcome)
  | _ =>
    simp only [step]
    repeat' split
    all_goals rfl

/-- The guard of a dropped lease cancels it. -/
theorem settled_dropLease (h : t.Consistent) {lease : PublicTransferLease}
    (howne : t.owner = .guarded lease) :
    t.request.leaseToken ∈ enqueued true lease.dropLease := by
  rw [(h.guarded lease howne).1]
  exact List.mem_singleton_self _

theorem Tended.step (h : t.Consistent) (htended : t.leased = true → t.Tended)
    {event : TransferEvent} (hatt : t.Attended accepted event)
    (hleased : (t.step accepted event).leased = true) : (t.step accepted event).Tended := by
  obtain ⟨rfl, hatt⟩ := hatt
  by_cases htransact : ∃ outcome, event = .transact outcome
  · obtain ⟨outcome, rfl⟩ := htransact
    simp only [Transfer.step] at hleased ⊢
    split
    · exact Or.inr (Or.inl rfl)
    · rename_i hnot
      rw [if_neg hnot] at hleased
      exact htended hleased
  · rw [step_leased (not_exists.mp htransact)] at hleased
    have ht := htended hleased
    have hstarted := h.leased_transacted hleased
    cases event with simp only [Transfer.step]
    | transact outcome => exact absurd ⟨outcome, rfl⟩ htransact
    | launch | refuse =>
      rwa [if_neg hstarted.1]
    | publish =>
      split
      · rename_i outcome hpubg
        have hreserved := (h.publishing_reserved outcome hpubg).trans hleased
        rw [hreserved]
        split
        · exact Or.inr (Or.inl (by simp [workerOwes, h.unclaimed_of_publishing hpubg]))
        · exact Or.inl (settled_cancel_of_mem (List.mem_singleton_self _))
      · exact ht
    | receive =>
      split
      · rename_i outcome hout
        rw [h.outcome_reserved outcome hout, hleased]
        split
        · exact Or.inr (Or.inr (Or.inl rfl))
        · exact ht
      · exact ht
    | dropFuture =>
      split <;> exact ht
    | finishHandoff admitted =>
      split
      · rename_i hwor
        split
        · rename_i hclaimed
          exact ht.finishWorker (by simp [workerOwes, hwor, hclaimed])
        · rename_i huncl
          split
          · exact ht
          · rw [hatt (by simpa using huncl)]
            exact Or.inl (settled_cancel_of_mem (List.mem_singleton_self _))
      · exact ht
    | dropLease =>
      split
      · rename_i lease howne
        exact Or.inl (settled_cancel_of_mem (settled_dropLease h howne))
      · exact ht
    | cancelLease call =>
      split
      · rename_i lease howne
        have htok : lease.leaseToken = t.request.leaseToken := by
          rw [(h.guarded lease howne).1]
          rfl
        split
        · rw [htok]
          exact Or.inl (settled_cancel_of_mem (List.mem_singleton_self _))
        · exact Or.inl (settled_cancel_of_mem
            (List.mem_append_right _ (settled_dropLease h howne)))
      · exact ht
    | startStream =>
      split
      · exact Or.inr (Or.inr (Or.inl rfl))
      · exact ht
    | completeWithoutBody =>
      split
      · exact Or.inr (Or.inr (Or.inr rfl))
      · exact ht
    | poll deadlineReady early inner =>
      split
      · rename_i stream failed howne
        exact ht.poll h howne hatt
      · exact ht
    | dropStream =>
      split
      · rename_i stream failed howne
        exact ht.dropStream h howne hatt
      · exact ht
    | finishTask attempt =>
      split
      · rename_i hrun
        cases hsettles : attempt.settles with
        | true => exact Or.inl (by simp [settled])
        | false =>
          exact Or.inr (Or.inr (Or.inl (ownerOwes_of_holdsHandle (hatt hrun hsettles))))
      · exact ht
    | returnWithoutBody =>
      split
      · rename_i howne
        exact ht.setOwner (by simp [ownerOwes, howne])
      · exact ht

end Transfer

end Obligations

section Runs

namespace Transfer

/-- The request is over, the worker and the completion task have ended, and nobody owns the lease
any more. -/
def Quiescent (t : Transfer) : Prop :=
  t.future.pending = false ∧ t.worker = .finished ∧ t.task ≠ .running ∧
    (t.owner = .nobody ∨ t.owner = .released)

instance (t : Transfer) : Decidable t.Quiescent := inferInstanceAs (Decidable (_ ∧ _))

theorem Tended.settled_of_quiescent {t : Transfer} (ht : t.Tended) (hqui : t.Quiescent) :
    t.settled = true := by
  obtain ⟨-, hwor, htask, howne⟩ := hqui
  rcases ht with hset | hworkerOwes | hownerOwes | hrun
  · exact hset
  · simp [workerOwes, hwor] at hworkerOwes
  · rcases howne with howne | howne <;> simp [ownerOwes, howne] at hownerOwes
  · exact absurd hrun htask

end Transfer

namespace Service

def Attended (service : Service) : ServiceEvent → Prop
  | .request _ => True
  | .transfer index event accepted =>
    ∀ t : Transfer, service[index]? = some t → t.Attended accepted event

instance (service : Service) : (event : ServiceEvent) → Decidable (service.Attended event)
  | .request _ => isTrue trivial
  | .transfer index event accepted =>
    match h : service[index]? with
    | none => isTrue fun t ht => by simp [h] at ht
    | some t => decidable_of_iff (t.Attended accepted event)
      ⟨fun hatt t' ht' => Option.some.inj (h.symm.trans ht') ▸ hatt, fun hall => hall t h⟩

/-- Whatever cancellation the event issues is for the transfer's own lease, which has no healthy
owner any more. -/
def CancelsJustly (service : Service) (event : ServiceEvent) : Prop :=
  ∀ (index : ℕ) (t t' : Transfer), service[index]? = some t →
    (service.step event)[index]? = some t' →
    t'.cancelled ≠ t.cancelled →
      t'.ownerHealthy = false ∧ ∀ token ∈ t'.cancelled, token = t'.request.leaseToken

/-- An event leaves a transfer as it is, makes its step, or adds it. -/
theorem getElem?_step {service : Service} {event : ServiceEvent} {index : ℕ} {t' : Transfer}
    (h : (service.step event)[index]? = some t') :
    service[index]? = some t' ∨
      (∃ t transferEvent accepted, event = .transfer index transferEvent accepted ∧
        service[index]? = some t ∧ t' = t.step accepted transferEvent) ∨
      service[index]? = none ∧ ∃ request, t' = Transfer.begin request := by
  cases event with
  | request request =>
    simp only [step] at h
    by_cases hlt : index < service.length
    · rw [List.getElem?_append_left hlt] at h
      exact Or.inl h
    · have hge := not_lt.mp hlt
      rw [List.getElem?_append_right hge] at h
      refine Or.inr (Or.inr ⟨List.getElem?_eq_none hge, request, ?_⟩)
      exact List.mem_singleton.mp (List.mem_of_getElem? h)
  | transfer target event accepted =>
    simp only [step, List.getElem?_modify] at h
    split at h
    · rename_i htarget
      subst htarget
      obtain ⟨t, hbef, rfl⟩ := Option.map_eq_some_iff.mp h
      exact Or.inr (Or.inl ⟨t, event, accepted, rfl, hbef, rfl⟩)
    · exact Or.inl (by simpa using h)

theorem consistent_step {service : Service} (h : ∀ t ∈ service, t.Consistent)
    (event : ServiceEvent) : ∀ t ∈ service.step event, t.Consistent := by
  intro t' hmem
  obtain ⟨index, hget⟩ := List.mem_iff_getElem?.mp hmem
  rcases getElem?_step hget with
    hold | ⟨t, transferEvent, accepted, -, hbef, rfl⟩ | ⟨-, request, rfl⟩
  · exact h t' (List.mem_of_getElem? hold)
  · exact (h t (List.mem_of_getElem? hbef)).step transferEvent
  · exact .begin request

theorem tended_step {service : Service} {event : ServiceEvent}
    (h : ∀ t ∈ service, t.Consistent ∧ (t.leased = true → t.Tended))
    (hatt : service.Attended event) :
    ∀ t ∈ service.step event, t.Consistent ∧ (t.leased = true → t.Tended) := by
  intro t' hmem
  refine ⟨consistent_step (fun t ht => (h t ht).1) event t' hmem, fun hleased => ?_⟩
  obtain ⟨index, hget⟩ := List.mem_iff_getElem?.mp hmem
  rcases getElem?_step hget with
    hold | ⟨t, transferEvent, accepted, rfl, hbef, rfl⟩ | ⟨-, request, rfl⟩
  · exact (h t' (List.mem_of_getElem? hold)).2 hleased
  · obtain ⟨hconsistent, htended⟩ := h t (List.mem_of_getElem? hbef)
    exact Transfer.Tended.step hconsistent htended (hatt t hbef) hleased
  · cases hleased

theorem cancelsJustly_of_consistent {service : Service} (h : ∀ t ∈ service, t.Consistent)
    (event : ServiceEvent) : service.CancelsJustly event := by
  intro index t t' hbef haft hiss
  have hconsistent := h t (List.mem_of_getElem? hbef)
  rcases getElem?_step haft with hold | ⟨_, transferEvent, accepted, -, hbef', rfl⟩ | ⟨hnone, -⟩
  · cases hbef.symm.trans hold
    exact absurd rfl hiss
  · cases hbef.symm.trans hbef'
    exact ⟨hconsistent.cancels_justly hiss, (hconsistent.step transferEvent).cancelled_eq⟩
  · rw [hnone] at hbef
    cases hbef

/-- In every run no cancellation is issued for a lease with a healthy owner. In every run whose
steps are attended, each lease that was begun and whose request, worker, task and owner are all
gone was counted, found counted, or had a cancellation run or queued. -/
theorem leases_settled_or_cancelled (events : List ServiceEvent) :
    History.Throughout Service.step Service.CancelsJustly [] events ∧
    (History.Throughout Service.step Service.Attended [] events →
      ∀ t ∈ History.state Service.step [] events, t.leased = true → t.Quiescent →
        t.completed = true ∨ t.request.leaseToken ∈ t.cancelled) := by
  constructor
  · refine (History.throughout_of_invariant (P := fun service : Service =>
      ∀ t ∈ service, t.Consistent) (fun _ event h => consistent_step h event)
      (fun t ht => absurd ht List.not_mem_nil) events).mono ?_
    exact fun service event h => cancelsJustly_of_consistent h event
  · intro hatt t hmem hleased hqui
    have hinv := hatt.invariant (P := fun service : Service =>
      ∀ t ∈ service, t.Consistent ∧ (t.leased = true → t.Tended))
      (fun _ _ hstep h => tended_step h hstep) fun t ht => absurd ht List.not_mem_nil
    have hset := ((hinv t hmem).2 hleased).settled_of_quiescent hqui
    simpa [Transfer.settled] using hset

/-- A request that gets its lease and starts to stream a file of three bytes. -/
def streamedRequest : List ServiceEvent :=
  [.request ⟨"lease", "session", none, "download", 1⟩, .transfer 0 .launch true,
    .transfer 0 (.transact (.ok .newLease)) true, .transfer 0 .publish true,
    .transfer 0 .receive true, .transfer 0 (.finishHandoff true) true,
    .transfer 0 (.startStream (some 3)) true,
    .transfer 0 (.poll false none (.ready (some (.ok [1, 2, 3])))) true]

/-- The client reads the whole file. -/
def readToTheEnd : List ServiceEvent :=
  streamedRequest ++ [.transfer 0 (.finishTask (.finished (.ok .counted))) true,
    .transfer 0 (.poll false none .pending) true, .transfer 0 .dropStream true]

theorem leases_settled_or_cancelled_readToTheEnd :
    (History.state Service.step [] readToTheEnd).map
      (fun t => (t.leased, decide t.Quiescent)) = [(true, true)] ∧
    ∀ t ∈ History.state Service.step [] readToTheEnd,
      t.completed = true ∨ t.request.leaseToken ∈ t.cancelled := by
  have hst : (History.state Service.step [] readToTheEnd).map
      (fun t => (t.leased, decide t.Quiescent)) = [(true, true)] := by
    decide +kernel
  refine ⟨hst, fun t hmem => ?_⟩
  have hboth : (t.leased, decide t.Quiescent) = (true, true) := by
    have himage := List.mem_map_of_mem
      (f := fun t : Transfer => (t.leased, decide t.Quiescent)) hmem
    rw [hst] at himage
    exact List.mem_singleton.mp himage
  obtain ⟨hleased, hqui⟩ := Prod.mk.inj hboth
  exact (leases_settled_or_cancelled readToTheEnd).2 (by decide +kernel) t hmem hleased
    (of_decide_eq_true hqui)

/-- The client goes away while the completion task is running, and the task fails. -/
def droppedBeforeFailure : List ServiceEvent :=
  streamedRequest ++ [.transfer 0 .dropStream true,
    .transfer 0 (.finishTask (.finished (.error .constraint))) true]

/-- Nobody hears of the failure, and the lease is neither completed nor cancelled. -/
theorem dropped_stream_leaks_lease :
    (History.state Service.step [] droppedBeforeFailure).map
      (fun t => (t.leased, decide t.Quiescent, t.completed, t.cancelled)) =
        [(true, true, false, [])] := by
  decide +kernel

end Service

end Runs

end VaultLink
