import VaultLink.TransferLeases

/-!
# The response stream of a public transfer

`PublicTransferStream` wraps the stream that reads a file or an archive. It holds back the first
nonempty chunk until a spawned task has completed the lease, and it cancels the lease when the
transfer fails before that. Everything outside the state machine answers its polls: the lifetime
deadline, the handle of the completion task and the inner stream. A poll is therefore a function
of the machine's fields and three answers, and returns the spawned work as a list of effects.
-/
namespace VaultLink

section Answers

abbrev Bytes := List UInt8

inductive StreamErrorKind
  | timedOut
  | unexpectedEof
  | invalidData
  | other
deriving DecidableEq

structure StreamError where
  kind : StreamErrorKind
  message : String
deriving DecidableEq

inductive Poll (α : Type)
  | pending
  | ready (value : α)

/-- An item of a byte stream. -/
inductive StreamItem
  | ok (chunk : Bytes)
  | err (error : StreamError)
deriving DecidableEq

namespace StreamItem

def isOk : Option StreamItem → Bool
  | some (.ok _) => true
  | _ => false

def isErr : Option StreamItem → Bool
  | some (.err _) => true
  | _ => false

/-- The bytes of a yielded value. -/
def bytes : Option StreamItem → Bytes
  | some (.ok chunk) => chunk
  | _ => []

end StreamItem

def Poll.values {α : Type} : Poll α → List α
  | .pending => []
  | .ready value => [value]

/-- How one attempt to complete a lease ended. A worker or task whose join fails may or may not
have committed before. -/
inductive CompletionAttempt
  | refused
  | workerJoinFailed (committed : Option TransferLeaseCompleteOutcome)
  | finished (result : Except DbError TransferLeaseCompleteOutcome)
  | taskFailed (committed : Option TransferLeaseCompleteOutcome)

/-- What the join handle of the completion task returns. -/
inductive TaskResult
  | completed
  | failed
  | panicked
deriving DecidableEq

/-- `transfer_complete_future`, run in its own task. -/
def transferCompleteFuture : CompletionAttempt → TaskResult
  | .refused => .failed
  | .workerJoinFailed _ => .failed
  | .finished (.ok .counted) | .finished (.ok .alreadyCounted) => .completed
  | .finished (.ok .notFound) => .failed
  | .finished (.error _) => .failed
  | .taskFailed _ => .panicked

/-- The outcome the attempt has committed, if any. -/
def CompletionAttempt.committed : CompletionAttempt → Option TransferLeaseCompleteOutcome
  | .refused | .finished (.error _) => none
  | .workerJoinFailed outcome | .taskFailed outcome => outcome
  | .finished (.ok outcome) => some outcome

/-- The outcomes that leave the transfer counted. -/
def TransferLeaseCompleteOutcome.settles : TransferLeaseCompleteOutcome → Bool
  | .counted | .alreadyCounted => true
  | .notFound => false

/-- Whether the attempt has counted the transfer or found it counted. -/
def CompletionAttempt.settles (attempt : CompletionAttempt) : Bool :=
  attempt.committed.any TransferLeaseCompleteOutcome.settles

theorem settles_of_completed {attempt : CompletionAttempt}
    (h : transferCompleteFuture attempt = .completed) : attempt.settles = true := by
  match attempt, h with
  | .finished (.ok .counted), _ => rfl
  | .finished (.ok .alreadyCounted), _ => rfl

end Answers

variable {s : PublicTransferStream} {innerPolled : Bool}

section Machine

/-- The fields of the stream. `heartbeatStop` and `finalize` say whether the sender that stops
the heartbeat and the handle of the completion task are held. -/
structure PublicTransferStream where
  leaseToken : Option String
  finalizingLeaseToken : Option String
  clientIp : Option String
  action : String
  shareId : ℕ
  heartbeatStop : Bool
  finalize : Bool
  pendingChunk : Option Bytes
  remainingBytes : Option ℕ
  timedOut : Bool
  complete : Bool
deriving DecidableEq

/-- Work that the stream hands to other tasks. -/
inductive StreamEffect
  | complete (leaseToken action : String) (shareId : ℕ) (clientIp : Option String)
  | cancel (leaseToken : String)

/-- The answers to the polls that a poll of the stream makes. The inner stream is polled at most
once in a poll of the stream, the deadline and the task handle as well. -/
structure PollAnswers where
  deadlineReady : Bool
  finalize : Poll TaskResult
  inner : Poll (Option StreamItem)

/-- The outcome of a poll; `innerPolled` records whether the inner stream was asked. -/
structure PollResult where
  stream : PublicTransferStream
  effects : List StreamEffect
  innerPolled : Bool
  value : Poll (Option StreamItem)

variable {answers : PollAnswers}

namespace PublicTransferStream

def startFinalize (s : PublicTransferStream) : PublicTransferStream × List StreamEffect :=
  match s.leaseToken with
  | none => ({ s with heartbeatStop := false }, [])
  | some token =>
    ({ s with
        heartbeatStop := false
        leaseToken := none
        finalizingLeaseToken := some token
        clientIp := none
        finalize := true },
      [.complete token s.action s.shareId s.clientIp])

def cancelFailedFinalize (s : PublicTransferStream) : PublicTransferStream × List StreamEffect :=
  match s.finalizingLeaseToken with
  | none => (s, [])
  | some token => ({ s with finalizingLeaseToken := none }, [.cancel token])

/-- The two failure branches of `poll_finalize`. -/
def failFinalize (message : String) (s : PublicTransferStream) : PollResult :=
  let (s₁, effects) := cancelFailedFinalize { s with finalize := false }
  ⟨{ s₁ with pendingChunk := none, complete := true }, effects, false,
    .ready (some (.err ⟨.other, message⟩))⟩

/-- The result of a poll of the task handle in `poll_finalize`. -/
def observeFinalize (answer : Poll TaskResult) (s : PublicTransferStream) : PollResult :=
  match answer with
  | .pending => ⟨s, [], false, .pending⟩
  | .ready .completed =>
    let s₁ := { s with finalize := false, finalizingLeaseToken := none }
    match s.pendingChunk with
    | some chunk =>
      ⟨{ s₁ with
          pendingChunk := none
          complete := if s.remainingBytes = some 0 then true else s.complete },
        [], false, .ready (some (.ok chunk))⟩
    | none => ⟨{ s₁ with complete := true }, [], false, .ready none⟩
  | .ready .failed => failFinalize "public transfer completion failed" s
  | .ready .panicked => failFinalize "public transfer completion task failed" s

def pollFinalize (answer : Poll TaskResult) (s : PublicTransferStream) : Option PollResult :=
  if s.finalize then some (s.observeFinalize answer) else none

/-- `Drop`, and the cancellation in `cancel_with_error`: a lease token that is still held goes
to the cleanup queue. -/
def dropStream (s : PublicTransferStream) : List StreamEffect :=
  (s.leaseToken.map StreamEffect.cancel).toList

def cancelWithError (error : StreamError) (s : PublicTransferStream) :
    PublicTransferStream × List StreamEffect × Poll (Option StreamItem) :=
  ({ s with heartbeatStop := false, leaseToken := none },
    s.dropStream, .ready (some (.err error)))

/-- The end of one iteration of the loop in `poll_next`. A `continue` is always preceded by
`start_finalize`. -/
inductive LoopStep
  | returns (result : PollResult)
  | continues (stream : PublicTransferStream) (effects : List StreamEffect) (innerPolled : Bool)

/-- `return self.cancel_with_error(..)` after a poll of the inner stream. -/
def returnError (error : StreamError) (s : PublicTransferStream) : LoopStep :=
  let (s₁, effects, value) := s.cancelWithError error
  .returns ⟨s₁, effects, true, value⟩

/-- `self.start_finalize(); continue`. -/
def finalizeAndContinue (innerPolled : Bool) (s : PublicTransferStream) : LoopStep :=
  .continues s.startFinalize.1 s.startFinalize.2 innerPolled

/-- One iteration of the loop in `poll_next`. -/
def pollOnce (answers : PollAnswers) (s : PublicTransferStream) : LoopStep :=
  match s.pollFinalize answers.finalize with
  | some result => .returns result
  | none =>
    if s.remainingBytes = some 0 && s.leaseToken.isSome then s.finalizeAndContinue false
    else match answers.inner with
      | .ready none =>
        if s.remainingBytes.any fun remaining => 0 < remaining then
          s.returnError ⟨.unexpectedEof, "transfer source ended before Content-Length"⟩
        else if s.leaseToken.isSome then s.finalizeAndContinue true
        else .returns ⟨{ s with complete := true }, [], true, .ready none⟩
      | .ready (some (.err error)) => s.returnError error
      | .ready (some (.ok chunk)) =>
        match s.remainingBytes with
        | some remaining =>
          if remaining < chunk.length then
            s.returnError ⟨.invalidData, "transfer source exceeded Content-Length"⟩
          else
            let left := remaining - chunk.length
            let s₁ := { s with remainingBytes := some left }
            if chunk ≠ [] && s.leaseToken.isSome then
              { s₁ with pendingChunk := some chunk }.finalizeAndContinue true
            else
              .returns ⟨{ s₁ with complete := if left = 0 then true else s.complete }, [], true,
                .ready (some (.ok chunk))⟩
        | none =>
          if chunk ≠ [] && s.leaseToken.isSome then
            { s with pendingChunk := some chunk }.finalizeAndContinue true
          else .returns ⟨s, [], true, .ready (some (.ok chunk))⟩
      | .pending => .returns ⟨s, [], true, .pending⟩

theorem pollOnce_held (answers : PollAnswers) (h : s.finalize = true) :
    s.pollOnce answers = .returns (s.observeFinalize answers.finalize) := by
  rw [pollOnce, pollFinalize, if_pos h]

theorem pollFinalize_idle (answer : Poll TaskResult) (h : s.finalize = false) :
    s.pollFinalize answer = none := by
  rw [pollFinalize, h]
  rfl

/-- The stream that an iteration leaves to `start_finalize` before it continues. -/
inductive HandsOver (answers : PollAnswers) (s : PublicTransferStream) :
    PublicTransferStream → Bool → Prop
  | exhausted (hrem : s.remainingBytes = some 0) : HandsOver answers s s false
  | ended (hinn : answers.inner = .ready none)
      (hrem : s.remainingBytes.any (fun remaining => 0 < remaining) = false) :
      HandsOver answers s s true
  | chunk (chunk : Bytes) (hinn : answers.inner = .ready (some (.ok chunk)))
      (hnonempty : chunk ≠ [])
      (hfits : ∀ remaining, s.remainingBytes = some remaining → chunk.length ≤ remaining) :
      HandsOver answers s { s with
        pendingChunk := some chunk
        remainingBytes := s.remainingBytes.map fun remaining => remaining - chunk.length } true

theorem HandsOver.leaseToken_eq {s₀ : PublicTransferStream}
    (h : HandsOver answers s s₀ innerPolled) : s₀.leaseToken = s.leaseToken := by
  cases h <;> rfl

/-- The hand-over to the completion task. -/
theorem HandsOver.startFinalize_eq {s₀ : PublicTransferStream}
    (h : HandsOver answers s s₀ innerPolled) {token : String} (htok : s.leaseToken = some token) :
    s₀.startFinalize = ({ s₀ with
      heartbeatStop := false
      leaseToken := none
      finalizingLeaseToken := some token
      clientIp := none
      finalize := true }, [.complete token s₀.action s₀.shareId s₀.clientIp]) := by
  rw [startFinalize, h.leaseToken_eq, htok]

theorem pollOnce_continues {s₁ : PublicTransferStream} {effects : List StreamEffect}
    (h : s.pollOnce answers = .continues s₁ effects innerPolled) :
    s.finalize = false ∧ s.leaseToken.isSome = true ∧ ∃ s₀, HandsOver answers s s₀ innerPolled ∧
      s₁ = s₀.startFinalize.1 ∧ effects = s₀.startFinalize.2 := by
  have hidle : s.finalize = false := by
    by_contra hheld
    rw [pollOnce_held answers ((Bool.not_eq_false _).mp hheld)] at h
    cases h
  refine ⟨hidle, ?_⟩
  simp only [pollOnce, pollFinalize_idle answers.finalize hidle] at h
  split at h
  · rename_i hzero
    simp only [Bool.and_eq_true, decide_eq_true_eq] at hzero
    cases h
    exact ⟨hzero.2, s, .exhausted hzero.1, rfl, rfl⟩
  · split at h
    · rename_i hinn
      split at h
      · cases h
      · rename_i hrem
        split at h
        · rename_i htok
          cases h
          exact ⟨htok, s, .ended hinn (by simpa using hrem), rfl, rfl⟩
        · cases h
    · cases h
    · rename_i chunk hinn
      split at h
      · rename_i remaining hrem
        split at h
        · cases h
        · rename_i hfits
          split at h
          · rename_i hchunk
            simp only [Bool.and_eq_true, decide_eq_true_eq] at hchunk
            cases h
            refine ⟨hchunk.2, _, .chunk chunk hinn hchunk.1 ?_, ?_⟩
            · intro bound hbound
              cases hrem.symm.trans hbound
              omega
            · rw [hrem]
              exact ⟨rfl, rfl⟩
          · cases h
      · rename_i hrem
        split at h
        · rename_i hchunk
          simp only [Bool.and_eq_true, decide_eq_true_eq] at hchunk
          cases h
          refine ⟨hchunk.2, _, .chunk chunk hinn hchunk.1 ?_, ?_⟩
          · intro bound hbound
            cases hrem.symm.trans hbound
          · rw [hrem]
            exact ⟨rfl, rfl⟩
        · cases h
    · cases h

theorem startFinalize_leaseToken (s : PublicTransferStream) :
    s.startFinalize.1.leaseToken = none := by
  unfold startFinalize
  split
  · assumption
  · rfl

/-- The loop of `poll_next`. -/
def pollLoop (answers : PollAnswers) (s : PublicTransferStream) : PollResult :=
  match _h : s.pollOnce answers with
  | .returns result => result
  | .continues s₁ effects innerPolled =>
    let result := pollLoop answers s₁
    { result with
      effects := effects ++ result.effects
      innerPolled := innerPolled || result.innerPolled }
termination_by s.leaseToken.isSome.toNat
decreasing_by
  obtain ⟨-, htok, s₀, -, rfl, -⟩ := pollOnce_continues _h
  simp [htok, startFinalize_leaseToken]

def pollNext (answers : PollAnswers) (s : PublicTransferStream) : PollResult :=
  if s.timedOut || s.complete then ⟨s, [], false, .ready none⟩
  else if answers.deadlineReady then
    let (s₁, effects, value) := { s with timedOut := true, finalize := false }.cancelWithError
      ⟨.timedOut, "public transfer lifetime exceeded"⟩
    ⟨s₁, effects, false, value⟩
  else s.pollLoop answers

end PublicTransferStream

/-- The guard that owns a lease until a response takes it over. -/
structure PublicTransferLease where
  leaseToken : String
  armed : Bool
  sessionToken : String
  heartbeatStop : Bool
  clientIp : Option String
deriving DecidableEq

namespace PublicTransferLease

def new (leaseToken sessionToken : String) (heartbeatStop : Bool) (clientIp : Option String) :
    PublicTransferLease :=
  ⟨leaseToken, true, sessionToken, heartbeatStop, clientIp⟩

/-- `Drop`. -/
def dropLease (lease : PublicTransferLease) : List StreamEffect :=
  if lease.armed then [.cancel lease.leaseToken] else []

/-- `into_stream_parts`: the guard is disarmed and its parts move on. -/
def intoStreamParts (lease : PublicTransferLease) : String × Bool × Option String :=
  (lease.leaseToken, lease.heartbeatStop, lease.clientIp)

def transferStream (action : String) (shareId : ℕ) (expectedBytes : Option ℕ)
    (lease : PublicTransferLease) : PublicTransferStream :=
  let (leaseToken, heartbeatStop, clientIp) := lease.intoStreamParts
  { leaseToken := some leaseToken
    finalizingLeaseToken := none
    clientIp
    action
    shareId
    heartbeatStop
    finalize := false
    pendingChunk := none
    remainingBytes := expectedBytes
    timedOut := false
    complete := false }

end PublicTransferLease

/-- The completion task of a lease. -/
inductive CompletionTask
  | notSpawned
  | running
  | finished (result : TaskResult)
deriving DecidableEq

namespace CompletionTask

/-- What the handle of the task answers. A task spawned by a poll may finish before that poll
asks its handle for the first time: `early` is its result then. -/
def answer (early : Option TaskResult) : CompletionTask → Poll TaskResult
  | .notSpawned => early.elim .pending .ready
  | .running => .pending
  | .finished result => .ready result

/-- Whether an effect spawns the task. -/
def spawnedBy : StreamEffect → Bool
  | .complete .. => true
  | .cancel _ => false

/-- The task after a poll with these effects. -/
def afterPoll (early : Option TaskResult) (effects : List StreamEffect) :
    CompletionTask → CompletionTask
  | .notSpawned =>
    if effects.any spawnedBy then early.elim .running .finished else .notSpawned
  | task => task

/-- The task returns. -/
def finish (result : TaskResult) : CompletionTask → CompletionTask
  | .running => .finished result
  | task => task

end CompletionTask

end Machine

section Inversion

namespace PublicTransferStream

variable {answers : PollAnswers} {s : PublicTransferStream}

/-- The stream after a chunk that is passed on as it comes. -/
def afterChunk (s : PublicTransferStream) (chunk : Bytes) : PublicTransferStream :=
  { s with
    remainingBytes := s.remainingBytes.map fun remaining => remaining - chunk.length
    complete := if s.remainingBytes.map (fun remaining => remaining - chunk.length) = some 0
      then true else s.complete }

/-- Everything a poll can do. -/
inductive Polled (answers : PollAnswers) (s : PublicTransferStream) : PollResult → Prop
  | closed (hclosed : (s.timedOut || s.complete) = true) :
      Polled answers s ⟨s, [], false, .ready none⟩
  | expired (hopen : (s.timedOut || s.complete) = false) (hdea : answers.deadlineReady = true) :
      Polled answers s
        ⟨{ s with timedOut := true, finalize := false, heartbeatStop := false, leaseToken := none },
          s.dropStream, false,
          .ready (some (.err ⟨.timedOut, "public transfer lifetime exceeded"⟩))⟩
  | observed (hopen : (s.timedOut || s.complete) = false)
      (hdea : answers.deadlineReady = false) (hheld : s.finalize = true) :
      Polled answers s (s.observeFinalize answers.finalize)
  | finalized (hopen : (s.timedOut || s.complete) = false) (hidle : s.finalize = false)
      (token : String) (htok : s.leaseToken = some token) (s₀ : PublicTransferStream)
      (innerPolled : Bool) (hhands : HandsOver answers s s₀ innerPolled) :
      Polled answers s
        ⟨(s₀.startFinalize.1.observeFinalize answers.finalize).stream,
          s₀.startFinalize.2 ++ (s₀.startFinalize.1.observeFinalize answers.finalize).effects,
          innerPolled, (s₀.startFinalize.1.observeFinalize answers.finalize).value⟩
  | failed (hopen : (s.timedOut || s.complete) = false) (hidle : s.finalize = false)
      (error : StreamError) :
      Polled answers s ⟨{ s with heartbeatStop := false, leaseToken := none }, s.dropStream, true,
        .ready (some (.err error))⟩
  | waiting (hopen : (s.timedOut || s.complete) = false) (hidle : s.finalize = false)
      (hinn : answers.inner = .pending) : Polled answers s ⟨s, [], true, .pending⟩
  | ended (hopen : (s.timedOut || s.complete) = false) (hidle : s.finalize = false)
      (hinn : answers.inner = .ready none)
      (hrem : s.remainingBytes.any (fun remaining => 0 < remaining) = false)
      (htok : s.leaseToken = none) :
      Polled answers s ⟨{ s with complete := true }, [], true, .ready none⟩
  | passed (hopen : (s.timedOut || s.complete) = false) (hidle : s.finalize = false)
      (chunk : Bytes) (hinn : answers.inner = .ready (some (.ok chunk)))
      (hchunk : chunk = [] ∨ s.leaseToken = none)
      (hleft : s.remainingBytes = some 0 → s.leaseToken = none)
      (hfits : ∀ remaining, s.remainingBytes = some remaining → chunk.length ≤ remaining)
      (hdea : answers.deadlineReady = false) :
      Polled answers s ⟨s.afterChunk chunk, [], true, .ready (some (.ok chunk))⟩

theorem observeFinalize_innerPolled (answer : Poll TaskResult) (s : PublicTransferStream) :
    (s.observeFinalize answer).innerPolled = false := by
  unfold observeFinalize
  split
  · rfl
  · split <;> rfl
  · rfl
  · rfl

/-- What `poll_finalize` does with the tokens and the handle. -/
inductive Observed (answer : Poll TaskResult) (s : PublicTransferStream) : PollResult → Prop
  | pending (hans : answer = .pending) : Observed answer s ⟨s, [], false, .pending⟩
  | completed (hans : answer = .ready .completed) (result : PollResult)
      (htok : result.stream.leaseToken = s.leaseToken)
      (hidle : result.stream.finalize = false)
      (hfin : result.stream.finalizingLeaseToken = none) (heffs : result.effects = [])
      (hval : result.value.values.any StreamItem.isErr = false) : Observed answer s result
  | failed (taskResult : TaskResult) (hfai : taskResult ≠ .completed)
      (hans : answer = .ready taskResult) (result : PollResult)
      (htok : result.stream.leaseToken = s.leaseToken)
      (hidle : result.stream.finalize = false)
      (hfin : result.stream.finalizingLeaseToken = none)
      (heffs : result.effects = (s.finalizingLeaseToken.map StreamEffect.cancel).toList)
      (hval : result.value.values.any StreamItem.isErr = true) : Observed answer s result

theorem failFinalize_observed {taskResult : TaskResult} (hfai : taskResult ≠ .completed)
    (message : String) (s : PublicTransferStream) :
    Observed (.ready taskResult) s (s.failFinalize message) := by
  unfold failFinalize cancelFailedFinalize
  dsimp only
  split
  · rename_i hnone
    exact .failed taskResult hfai rfl _ rfl rfl hnone (by simp [hnone]) rfl
  · rename_i token hsome
    exact .failed taskResult hfai rfl _ rfl rfl rfl (by simp [hsome]) rfl

theorem observeFinalize_observed (answer : Poll TaskResult) (s : PublicTransferStream) :
    Observed answer s (s.observeFinalize answer) := by
  rcases answer with - | result
  · exact .pending rfl
  · cases result with
    | completed =>
      simp only [observeFinalize]
      split <;> exact .completed rfl _ rfl rfl rfl rfl rfl
    | failed | panicked => exact failFinalize_observed (by nofun) _ s

theorem pollLoop_returns {result : PollResult} (h : s.pollOnce answers = .returns result) :
    s.pollLoop answers = result := by
  rw [pollLoop]
  split
  · rename_i hreturns
    cases h.symm.trans hreturns
    rfl
  · rename_i hcon
    cases h.symm.trans hcon

/-- After a `continue` the handle is held, so that the second iteration returns. -/
theorem pollLoop_continues {s₁ : PublicTransferStream} {effects : List StreamEffect}
    (h : s.pollOnce answers = .continues s₁ effects innerPolled) :
    s.pollLoop answers = ⟨(s₁.observeFinalize answers.finalize).stream,
      effects ++ (s₁.observeFinalize answers.finalize).effects, innerPolled,
      (s₁.observeFinalize answers.finalize).value⟩ := by
  have hheld : s₁.finalize = true := by
    obtain ⟨-, htok, s₀, hhands, rfl, -⟩ := pollOnce_continues h
    obtain ⟨token, htok⟩ := Option.isSome_iff_exists.mp htok
    rw [hhands.startFinalize_eq htok]
  rw [pollLoop]
  split
  · rename_i hreturns
    cases h.symm.trans hreturns
  · rename_i hcon
    cases h.symm.trans hcon
    dsimp only
    rw [pollLoop_returns (pollOnce_held answers hheld), observeFinalize_innerPolled, Bool.or_false]

/-- An iteration that returns without a completion task. -/
theorem polled_of_returns (hopen : (s.timedOut || s.complete) = false) (hidle : s.finalize = false)
    (hdea : answers.deadlineReady = false) {result : PollResult}
    (h : s.pollOnce answers = .returns result) : Polled answers s result := by
  simp only [pollOnce, pollFinalize_idle answers.finalize hidle] at h
  split at h
  · cases h
  · rename_i hzero
    have hleft : s.remainingBytes = some 0 → s.leaseToken = none := by simpa using hzero
    split at h
    · rename_i hinn
      split at h
      · cases h
        exact .failed hopen hidle _
      · rename_i hrem
        split at h
        · cases h
        · rename_i htok
          cases h
          exact .ended hopen hidle hinn (by simpa using hrem) (by simpa using htok)
    · cases h
      exact .failed hopen hidle _
    · rename_i chunk hinn
      split at h
      · rename_i remaining hrem
        split at h
        · cases h
          exact .failed hopen hidle _
        · rename_i hfits
          split at h
          · cases h
          · rename_i hchunk
            cases h
            have hpas := Polled.passed hopen hidle chunk hinn ?_ hleft ?_ hdea
            · simpa [afterChunk, hrem] using hpas
            · simpa [Classical.or_iff_not_imp_left] using hchunk
            · intro bound hbound
              cases hrem.symm.trans hbound
              omega
      · rename_i hrem
        split at h
        · cases h
        · rename_i hchunk
          cases h
          have hpas := Polled.passed hopen hidle chunk hinn ?_ hleft ?_ hdea
          · cases s
            cases hrem
            exact hpas
          · simpa [Classical.or_iff_not_imp_left] using hchunk
          · intro bound hbound
            cases hrem.symm.trans hbound
    · rename_i hinn
      cases h
      exact .waiting hopen hidle hinn

theorem pollNext_polled (answers : PollAnswers) (s : PublicTransferStream) :
    Polled answers s (s.pollNext answers) := by
  unfold pollNext
  split
  · rename_i hclosed
    exact .closed hclosed
  · rename_i hnotClosed
    have hopen : (s.timedOut || s.complete) = false := by simpa using hnotClosed
    split
    · rename_i hdea
      exact .expired hopen hdea
    · rename_i hnotReady
      have hdea : answers.deadlineReady = false := by simpa using hnotReady
      by_cases hheld : s.finalize = true
      · rw [pollLoop_returns (pollOnce_held answers hheld)]
        exact .observed hopen hdea hheld
      · have hidle : s.finalize = false := by simpa using hheld
        cases hstep : s.pollOnce answers with
        | returns result =>
          rw [pollLoop_returns hstep]
          exact polled_of_returns hopen hidle hdea hstep
        | continues s₁ effects innerPolled =>
          rw [pollLoop_continues hstep]
          obtain ⟨-, htok, s₀, hhands, rfl, rfl⟩ := pollOnce_continues hstep
          obtain ⟨token, htok⟩ := Option.isSome_iff_exists.mp htok
          exact .finalized hopen hidle token htok s₀ innerPolled hhands

end PublicTransferStream

end Inversion

end VaultLink
