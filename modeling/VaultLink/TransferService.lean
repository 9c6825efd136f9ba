import VaultLink.TransferStream

/-!
# The public transfer service

A lease is begun on a blocking worker, while the request that asked for it may go away at any
time. The worker publishes the outcome and then waits until the request has claimed the lease or
is gone; a claimed lease belongs to a guard, then to the response stream, and last to the
completion task. The service is the list of all transfers. Every part of a transfer moves on its
own, so an event is one step of one part, and events interleave freely.
-/
namespace VaultLink

section Model

/-- The parameters of one `begin` call, with the token it draws. -/
structure TransferRequest where
  leaseToken : String
  sessionToken : String
  clientIp : Option String
  action : String
  shareId : ℕ

/-- The future of `PublicTransferService::begin`. While it is pending it holds the receiver of
the outcome and the sender of the ownership. -/
inductive BeginFuture
  | dispatching
  | awaitingOutcome
  | returned
  | dropped
deriving DecidableEq

def BeginFuture.pending : BeginFuture → Bool
  | .dispatching | .awaitingOutcome => true
  | .returned | .dropped => false

/-- The blocking worker of `begin_transfer_lease_cancellation_safe`. -/
inductive HandoffWorker
  | queued
  | transacting
  | publishing (outcome : Except DbError TransferLeaseBeginOutcome)
  | awaitingOwnership
  | finished
deriving DecidableEq

/-- Whether the begin transaction has committed a lease. -/
def reserved : Except DbError TransferLeaseBeginOutcome → Bool
  | .ok outcome => outcome.leased
  | .error _ => false

inductive LeaseOwner
  | nobody
  | guarded (lease : PublicTransferLease)
  | streaming (stream : PublicTransferStream) (failed : Bool)
  | completing
  | released
deriving DecidableEq

/-- One transfer. `leased`, `completed` and `cancelled` record what has happened to its lease:
begun, counted or found counted, and the tokens of the cancellations run or queued. -/
structure Transfer where
  request : TransferRequest
  future : BeginFuture
  worker : HandoffWorker
  outcome : Option (Except DbError TransferLeaseBeginOutcome)
  claimed : Bool
  owner : LeaseOwner
  task : CompletionTask
  leased : Bool
  completed : Bool
  cancelled : List String

def Transfer.begin (request : TransferRequest) : Transfer where
  request := request
  future := .dispatching
  worker := .queued
  outcome := none
  claimed := false
  owner := .nobody
  task := .notSpawned
  leased := false
  completed := false
  cancelled := []

/-- How the database call of `PublicTransferLease::cancel` ended. A call that failed or was
abandoned may have run the cancellation all the same. -/
inductive CancelCall
  | succeeded
  | failed (ran : Bool)

inductive TransferEvent
  | launch
  | refuse
  | transact (outcome : Except DbError TransferLeaseBeginOutcome)
  | publish
  | receive
  | dropFuture
  | finishHandoff (admitted : Bool)
  | dropLease
  | cancelLease (call : CancelCall)
  | startStream (expectedBytes : Option ℕ)
  | completeWithoutBody
  | poll (deadlineReady : Bool) (early : Option CompletionAttempt)
      (inner : Poll (Option StreamItem))
  | dropStream
  | finishTask (attempt : CompletionAttempt)
  | returnWithoutBody

/-- The tokens that the effects put into the cleanup queue, if it accepts them. -/
def enqueued (accepted : Bool) (effects : List StreamEffect) : List String :=
  if accepted then effects.filterMap fun
    | .cancel token => some token
    | .complete .. => none
  else []

namespace Transfer

def cancel (t : Transfer) (tokens : List String) : Transfer :=
  { t with cancelled := t.cancelled ++ tokens }

/-- The guard `begin` returns for a committed lease. -/
def newLease (t : Transfer) : PublicTransferLease :=
  .new t.request.leaseToken t.request.sessionToken true t.request.clientIp

/-- A poll of the response stream. -/
def pollStream (accepted : Bool) (stream : PublicTransferStream) (failed deadlineReady : Bool)
    (early : Option CompletionAttempt) (inner : Poll (Option StreamItem)) (t : Transfer) :
    Transfer :=
  let earlyResult := early.map transferCompleteFuture
  let result := stream.pollNext ⟨deadlineReady, t.task.answer earlyResult, inner⟩
  let spawned := t.task = .notSpawned && result.effects.any CompletionTask.spawnedBy
  { t with
    owner := .streaming result.stream (failed || result.value.values.any StreamItem.isErr)
    task := t.task.afterPoll earlyResult result.effects
    completed := t.completed || spawned && early.any CompletionAttempt.settles
    cancelled := t.cancelled ++ enqueued accepted result.effects }

/-- What an event does to a transfer; `accepted` says whether the cleanup queue takes a job.
An event that does not apply leaves the transfer as it is. -/
def step (accepted : Bool) (t : Transfer) : TransferEvent → Transfer
  | .launch =>
    if t.worker = .queued then
      { t with
        worker := .transacting
        future := if t.future = .dispatching then .awaitingOutcome else t.future }
    else t
  | .refuse =>
    if t.worker = .queued then
      { t with
        worker := .finished
        future := if t.future = .dispatching then .returned else t.future }
    else t
  | .transact outcome =>
    if t.worker = .transacting then
      { t with worker := .publishing outcome, leased := reserved outcome }
    else t
  | .publish =>
    match t.worker with
    | .publishing outcome =>
      if t.future.pending then
        { t with
          outcome := some outcome
          worker := if reserved outcome then .awaitingOwnership else .finished }
      else
        { t with worker := .finished }.cancel
          (if reserved outcome then [t.request.leaseToken] else [])
    | _ => t
  | .receive =>
    match t.outcome with
    | some outcome =>
      if t.future.pending then
        if reserved outcome then
          { t with
            future := .returned, outcome := none, claimed := true, owner := .guarded t.newLease }
        else { t with future := .returned, outcome := none }
      else t
    | none => t
  | .dropFuture =>
    if t.future.pending then { t with future := .dropped, outcome := none } else t
  | .finishHandoff admitted =>
    if t.worker = .awaitingOwnership then
      if t.claimed then { t with worker := .finished }
      else if t.future.pending then t
      else { t with worker := .finished }.cancel (if admitted then [t.request.leaseToken] else [])
    else t
  | .dropLease =>
    match t.owner with
    | .guarded lease => { t with owner := .released }.cancel (enqueued accepted lease.dropLease)
    | _ => t
  | .cancelLease call =>
    match t.owner with
    | .guarded lease =>
      match call with
      | .succeeded => { t with owner := .released }.cancel [lease.leaseToken]
      | .failed ran =>
        { t with owner := .released }.cancel
          ((if ran then [lease.leaseToken] else []) ++ enqueued accepted lease.dropLease)
    | _ => t
  | .startStream expectedBytes =>
    match t.owner with
    | .guarded lease =>
      { t with
        owner := .streaming
          (lease.transferStream t.request.action t.request.shareId expectedBytes) false }
    | _ => t
  | .completeWithoutBody =>
    match t.owner with
    | .guarded _ => { t with owner := .completing, task := .running }
    | _ => t
  | .poll deadlineReady early inner =>
    match t.owner with
    | .streaming stream failed => t.pollStream accepted stream failed deadlineReady early inner
    | _ => t
  | .dropStream =>
    match t.owner with
    | .streaming stream _ =>
      { t with owner := .released }.cancel (enqueued accepted stream.dropStream)
    | _ => t
  | .finishTask attempt =>
    if t.task = .running then
      { t with
        task := .finished (transferCompleteFuture attempt)
        completed := t.completed || attempt.settles }
    else t
  | .returnWithoutBody => if t.owner = .completing then { t with owner := .released } else t

end Transfer

/-- The service: all transfers, in the order in which they were asked for. -/
abbrev Service := List Transfer

inductive ServiceEvent
  | request (request : TransferRequest)
  | transfer (index : ℕ) (event : TransferEvent) (accepted : Bool)

def Service.step (service : Service) : ServiceEvent → Service
  | .request request => service ++ [Transfer.begin request]
  | .transfer index event accepted => service.modify index fun t => t.step accepted event

end Model

section Polls

open PublicTransferStream

variable {stream : PublicTransferStream} {answers : PollAnswers} {result : PollResult}

theorem mem_enqueued {accepted : Bool} {effects : List StreamEffect} {token : String} :
    token ∈ enqueued accepted effects ↔ accepted = true ∧ .cancel token ∈ effects := by
  unfold enqueued
  cases accepted with
  | false => simp
  | true =>
    simp only [if_true, List.mem_filterMap, true_and]
    constructor
    · rintro ⟨effect, hmem, heq⟩
      cases effect with
      | complete => cases heq
      | cancel =>
        cases heq
        exact hmem
    · exact fun hmem => ⟨_, hmem, rfl⟩

theorem mem_dropStream {token : String} :
    .cancel token ∈ stream.dropStream ↔ stream.leaseToken = some token := by
  unfold dropStream
  cases stream.leaseToken with
  | none => simp
  | some => simp [eq_comm]

/-- What a poll does with the lease token, the handle of the completion task and the second
owner of the token. -/
inductive TokenPolled (answers : PollAnswers) (stream : PublicTransferStream) :
    PollResult → Prop
  | kept (result : PollResult) (htok : result.stream.leaseToken = stream.leaseToken)
      (hhandle : result.stream.finalize = stream.finalize)
      (hfin : result.stream.finalizingLeaseToken = stream.finalizingLeaseToken)
      (heffs : result.effects = []) : TokenPolled answers stream result
  | givenUp (result : PollResult) (htok : result.stream.leaseToken = none)
      (hidle : result.stream.finalize = false)
      (hfin : result.stream.finalizingLeaseToken = stream.finalizingLeaseToken)
      (heffs : result.effects = stream.dropStream)
      (hwhy : answers.deadlineReady = true ∨ stream.finalize = false)
      (hval : result.value.values.any StreamItem.isErr = true) : TokenPolled answers stream result
  | observed (result : PollResult) (hheld : stream.finalize = true)
      (hres : Observed answers.finalize stream result) : TokenPolled answers stream result
  | spawned (token : String) (htok : stream.leaseToken = some token)
      (hidle : stream.finalize = false) (started : PublicTransferStream)
      (hstarted : started.leaseToken = none) (hheld : started.finalize = true)
      (hfin : started.finalizingLeaseToken = some token) (inner result : PollResult)
      (hobs : Observed answers.finalize started inner) (effect : StreamEffect)
      (hspawn : CompletionTask.spawnedBy effect = true) (hstream : result.stream = inner.stream)
      (heffs : result.effects = effect :: inner.effects) (hval : result.value = inner.value) :
      TokenPolled answers stream result

theorem pollNext_tokenPolled (answers : PollAnswers) (stream : PublicTransferStream) :
    TokenPolled answers stream (stream.pollNext answers) := by
  have hpol := stream.pollNext_polled answers
  generalize stream.pollNext answers = result at hpol
  cases hpol with
  | closed | waiting | ended | passed => exact .kept _ rfl rfl rfl rfl
  | expired hopen hdea => exact .givenUp _ rfl rfl rfl rfl (Or.inl hdea) rfl
  | observed hopen hdea hheld =>
    exact .observed _ hheld (observeFinalize_observed answers.finalize stream)
  | finalized hopen hidle token htok s₀ innerPolled hhands =>
    rw [hhands.startFinalize_eq htok]
    exact .spawned token htok hidle _ rfl rfl rfl _ _ (observeFinalize_observed answers.finalize _)
      _ rfl rfl rfl rfl
  | failed hopen hidle => exact .givenUp _ rfl hidle rfl rfl (Or.inr hidle) rfl

/-- A handle that answers with a failure cancels the token of the second owner. -/
theorem observed_cancels {answer : Poll TaskResult} {token : String}
    (h : Observed answer stream result) (hcan : .cancel token ∈ result.effects) :
    result.value.values.any StreamItem.isErr = true ∧
      stream.finalizingLeaseToken = some token := by
  cases h with
  | pending => cases hcan
  | completed hans _ htok hidle hfin heffs =>
    rw [heffs] at hcan
    cases hcan
  | failed taskResult hfai hans _ htok hidle hfin heffs hval =>
    refine ⟨hval, ?_⟩
    rw [heffs] at hcan
    simpa using hcan

/-- A poll cancels only with an error, and only a token that the stream held. -/
theorem tokenPolled_cancels {token : String} (h : TokenPolled answers stream result)
    (hcan : .cancel token ∈ result.effects) :
    result.value.values.any StreamItem.isErr = true ∧
      (stream.leaseToken = some token ∨ stream.finalizingLeaseToken = some token) := by
  cases h with
  | kept _ htok hhandle hfin heffs =>
    rw [heffs] at hcan
    cases hcan
  | givenUp _ htok hidle hfin heffs hwhy hval =>
    rw [heffs] at hcan
    exact ⟨hval, Or.inl (mem_dropStream.mp hcan)⟩
  | observed _ hheld hres =>
    obtain ⟨hval, htok⟩ := observed_cancels hres hcan
    exact ⟨hval, Or.inr htok⟩
  | spawned first htok hidle started hstarted hheld hfin inner _ hobs effect hspawn
      hstream heffs hval =>
    rw [heffs, List.mem_cons] at hcan
    rcases hcan with rfl | hcan
    · cases hspawn
    · obtain ⟨herr, hsecond⟩ := observed_cancels hobs hcan
      rw [hval]
      exact ⟨herr, Or.inl (htok.trans (hfin.symm.trans hsecond))⟩

end Polls

end VaultLink
