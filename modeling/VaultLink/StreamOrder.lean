import VaultLink.Histories
import VaultLink.TransferStream

/-!
# What a transfer stream yields

Polls of the stream interleave with the completion task in any way, and the inner stream may
answer anything, also after it has failed or ended. A poll never looks at what the stream has
yielded before, and `cancel_with_error` leaves the stream open: polled again after an error, it
passes on what the inner stream still has, without a lease. The results below are about the
schedules in which the inner stream has nothing more to give then.
-/
namespace VaultLink

open Poll

section Runs

/-- A stream with its completion task, the bytes the inner stream has delivered and the values
the stream has yielded. -/
structure StreamRun where
  stream : PublicTransferStream
  task : CompletionTask
  delivered : Bytes
  yielded : List (Option StreamItem)

inductive StreamEvent
  | poll (deadlineReady : Bool) (early : Option TaskResult) (inner : Poll (Option StreamItem))
  | finishTask (result : TaskResult)

namespace StreamRun

def initial (stream : PublicTransferStream) : StreamRun := ⟨stream, .notSpawned, [], []⟩

def bytes (r : StreamRun) : Bytes := r.yielded.flatMap StreamItem.bytes

def erred (r : StreamRun) : Bool := r.yielded.any StreamItem.isErr

/-- The run after a poll of the stream. -/
def polled (r : StreamRun) (early : Option TaskResult) (inner : Poll (Option StreamItem))
    (result : PollResult) : StreamRun where
  stream := result.stream
  task := r.task.afterPoll early result.effects
  delivered := r.delivered ++
    if result.innerPolled then inner.values.flatMap StreamItem.bytes else []
  yielded := r.yielded ++ result.value.values

def step (r : StreamRun) : StreamEvent → StreamRun
  | .poll deadlineReady early inner =>
    r.polled early inner (r.stream.pollNext ⟨deadlineReady, r.task.answer early, inner⟩)
  | .finishTask result => { r with task := r.task.finish result }

end StreamRun

/-- After the stream has yielded an error, and while it is open and its deadline has not passed, the
inner stream delivers no chunk that fits in what is left. -/
def Fused (r : StreamRun) : StreamEvent → Prop
  | .poll deadlineReady _ (.ready (some (.ok chunk))) => r.erred = true →
    (deadlineReady || (r.stream.timedOut || r.stream.complete) ||
      r.stream.remainingBytes.any fun remaining => remaining < chunk.length) = true
  | _ => True

instance (r : StreamRun) : (event : StreamEvent) → Decidable (Fused r event)
  | .poll _ _ (.ready (some (.ok _))) => inferInstanceAs (Decidable (_ → _))
  | .poll _ _ (.ready (some (.err _))) | .poll _ _ (.ready none) | .poll _ _ .pending
  | .finishTask _ => isTrue trivial

end Runs

section Invariant

/-- The four phases of a transfer. -/
inductive StreamPhase (r : StreamRun) : Prop
  | waiting (token : String) (htok : r.stream.leaseToken = some token)
      (hidle : r.stream.finalize = false) (htask : r.task = .notSpawned) (herd : r.erred = false)
      (hopen : (r.stream.timedOut || r.stream.complete) = false)
      (hpend : r.stream.pendingChunk = none)
  | finalizing (htok : r.stream.leaseToken = none) (hheld : r.stream.finalize = true)
      (htask : r.task ≠ .notSpawned) (herd : r.erred = false)
      (hopen : (r.stream.timedOut || r.stream.complete) = false)
      (hlast : r.stream.pendingChunk = none →
        ∀ left, r.stream.remainingBytes = some left → left = 0)
  | counted (htok : r.stream.leaseToken = none) (hidle : r.stream.finalize = false)
      (htask : r.task = .finished .completed) (herd : r.erred = false)
      (hinti : r.stream.timedOut = false) (hpend : r.stream.pendingChunk = none)
      (hlast : r.stream.complete = true → ∀ left, r.stream.remainingBytes = some left → left = 0)
  | failed (htok : r.stream.leaseToken = none) (hidle : r.stream.finalize = false)
      (herd : r.erred = true)

structure StreamInv (expected : Option ℕ) (r : StreamRun) : Prop where
  phase : StreamPhase r
  bytes_prefix : r.bytes <+: r.delivered
  delivered_eq : r.erred = false → r.bytes ++ r.stream.pendingChunk.getD [] = r.delivered
  remaining_eq : r.erred = false →
    expected = r.stream.remainingBytes.map fun left => left + r.delivered.length
  counted : r.bytes ≠ [] → r.task = .finished .completed
  ordered : r.yielded.Pairwise fun earlier later =>
    StreamItem.isErr earlier = true → StreamItem.isOk later = false
  ended : none ∈ r.yielded → r.erred = false → r.stream.complete = true

variable {expected : Option ℕ} {r : StreamRun} {early : Option TaskResult}
  {inner : Poll (Option StreamItem)} {result : PollResult}

theorem StreamInv.initial (lease : PublicTransferLease) (action : String) (shareId : ℕ)
    (expected : Option ℕ) :
    StreamInv expected (.initial (lease.transferStream action shareId expected)) where
  phase := .waiting lease.leaseToken rfl rfl rfl rfl rfl rfl
  bytes_prefix := List.prefix_rfl
  delivered_eq := fun _ => rfl
  remaining_eq := fun _ => by simp [StreamRun.initial, PublicTransferLease.transferStream]
  counted := fun h => absurd rfl h
  ordered := List.Pairwise.nil
  ended := fun h => absurd h List.not_mem_nil

namespace StreamRun

theorem bytes_polled : (r.polled early inner result).bytes =
    r.bytes ++ result.value.values.flatMap StreamItem.bytes :=
  List.flatMap_append

theorem erred_polled : (r.polled early inner result).erred =
    (r.erred || result.value.values.any StreamItem.isErr) :=
  List.any_append

/-- A poll that finds nothing to do. -/
theorem polled_nothing (hinn : result.innerPolled = false ∨ inner = .pending)
    (hstream : result.stream = r.stream) (heffs : result.effects = [])
    (hval : result.value = .pending) : r.polled early inner result = r := by
  rcases r with ⟨stream, task, delivered, yielded⟩
  have hdel : (if result.innerPolled then inner.values.flatMap StreamItem.bytes else []) = [] := by
    rcases hinn with hskipped | rfl
    · rw [hskipped]
      rfl
    · split <;> rfl
  rw [polled, hdel, hstream, heffs, hval, List.append_nil, values, List.append_nil]
  cases task <;> rfl

end StreamRun

theorem CompletionTask.afterPoll_of_ne {task : CompletionTask} (h : task ≠ .notSpawned)
    (effects : List StreamEffect) : task.afterPoll early effects = task := by
  cases task with
  | notSpawned => exact absurd rfl h
  | running => rfl
  | finished => rfl

namespace StreamInv

variable (h : StreamInv expected r)

include h

/-- New values keep the order when no chunk follows an error. -/
theorem ordered_polled
    (hval : r.erred = true → ∀ value ∈ result.value.values, StreamItem.isOk value = false) :
    (r.polled early inner result).yielded.Pairwise fun earlier later =>
      StreamItem.isErr earlier = true → StreamItem.isOk later = false := by
  refine List.pairwise_append.mpr ⟨h.ordered, ?_, ?_⟩
  · cases result.value with
    | pending => exact List.Pairwise.nil
    | ready => exact List.pairwise_singleton _ _
  · intro earlier hear later hlat herr
    exact hval (List.any_eq_true.mpr ⟨earlier, hear, herr⟩) later hlat

/-- What was counted stays so. -/
theorem counted_polled (hbytes : r.bytes ≠ []) (effects : List StreamEffect) :
    r.task.afterPoll early effects = .finished .completed := by
  rw [h.counted hbytes]
  rfl

/-- A run with an error, in which no chunk is yielded any more. -/
theorem dead (herd : (r.polled early inner result).erred = true)
    (hval : ∀ value ∈ result.value.values, StreamItem.isOk value = false)
    (htok : result.stream.leaseToken = none) (hidle : result.stream.finalize = false) :
    StreamInv expected (r.polled early inner result) := by
  have hbytes : (r.polled early inner result).bytes = r.bytes := by
    rw [StreamRun.bytes_polled, List.flatMap_eq_nil_iff.mpr, List.append_nil]
    intro value hmem
    have hnot := hval value hmem
    rcases value with - | chunk | error
    · rfl
    · cases hnot
    · rfl
  have hnot : ¬(r.polled early inner result).erred = false := by simp [herd]
  exact {
    phase := .failed htok hidle herd
    bytes_prefix := hbytes ▸ h.bytes_prefix.trans (List.prefix_append _ _)
    delivered_eq := fun hfine => absurd hfine hnot
    remaining_eq := fun hfine => absurd hfine hnot
    counted := fun hne => h.counted_polled (hbytes ▸ hne) _
    ordered := h.ordered_polled fun _ => hval
    ended := fun _ hfine => absurd hfine hnot }

/-- A poll that yields an error and gives the lease up. -/
theorem fail {error : StreamError} (hval : result.value = .ready (some (.err error)))
    (htok : result.stream.leaseToken = none) (hidle : result.stream.finalize = false) :
    StreamInv expected (r.polled early inner result) := by
  refine h.dead ?_ ?_ htok hidle
  · rw [StreamRun.erred_polled, hval]
    exact Bool.or_true _
  · simp [hval, values, StreamItem.isOk]

/-- A poll of a run without errors that yields none either. What is yielded, held back and
delivered must add up. -/
theorem proceed (herd : r.erred = false) (hph : StreamPhase (r.polled early inner result))
    (hbytes : result.value.values.flatMap StreamItem.bytes ++ result.stream.pendingChunk.getD [] =
      r.stream.pendingChunk.getD [] ++
        if result.innerPolled then inner.values.flatMap StreamItem.bytes else [])
    (hrem : r.stream.remainingBytes.map (fun left => left + r.delivered.length) =
      result.stream.remainingBytes.map
        (fun left => left + (r.polled early inner result).delivered.length))
    (hcounted : result.value.values.flatMap StreamItem.bytes ≠ [] →
      r.task.afterPoll early result.effects = .finished .completed)
    (hended : none ∈ result.value.values → result.stream.complete = true)
    (hcomplete : r.stream.complete = true → result.stream.complete = true) :
    StreamInv expected (r.polled early inner result) := by
  have hdel : (r.polled early inner result).bytes ++ result.stream.pendingChunk.getD [] =
      (r.polled early inner result).delivered := by
    rw [StreamRun.bytes_polled, List.append_assoc, hbytes, ← List.append_assoc,
      h.delivered_eq herd]
    rfl
  refine ⟨hph, hdel ▸ List.prefix_append _ _, fun _ => hdel,
    fun _ => (h.remaining_eq herd).trans hrem, fun hne => ?_,
    h.ordered_polled fun hnot => ?_, fun hmem _ => ?_⟩
  · rw [StreamRun.bytes_polled] at hne
    by_cases hnew : result.value.values.flatMap StreamItem.bytes = []
    · rw [hnew, List.append_nil] at hne
      exact h.counted_polled hne _
    · exact hcounted hnew
  · rw [herd] at hnot
    cases hnot
  · rcases List.mem_append.mp hmem with hold | hnew
    · exact hcomplete (h.ended hold herd)
    · exact hended hnew

/-- A failed completion task. -/
theorem failFinalize (htok : r.stream.leaseToken = none) (message : String) :
    StreamInv expected (r.polled early inner (r.stream.failFinalize message)) := by
  unfold PublicTransferStream.failFinalize PublicTransferStream.cancelFailedFinalize
  dsimp only
  split <;> exact h.fail rfl htok rfl

/-- The task handle answers. -/
theorem observe (htok : r.stream.leaseToken = none) (htask : r.task ≠ .notSpawned)
    (herd : r.erred = false) (hopen : (r.stream.timedOut || r.stream.complete) = false)
    (hlast : r.stream.pendingChunk = none → ∀ left, r.stream.remainingBytes = some left → left = 0)
    :
    StreamInv expected (r.polled early inner (r.stream.observeFinalize (r.task.answer early))) := by
  simp only [Bool.or_eq_false_iff] at hopen
  cases hst : r.task with
  | notSpawned => exact absurd hst htask
  | running => rwa [StreamRun.polled_nothing (Or.inl rfl) rfl rfl rfl]
  | finished result =>
    have haft : ∀ effects, r.task.afterPoll early effects = .finished result := by
      intro effects
      rw [hst]
      rfl
    cases result with
    | failed | panicked => exact h.failFinalize htok _
    | completed =>
      simp only [CompletionTask.answer, PublicTransferStream.observeFinalize]
      cases hpend : r.stream.pendingChunk with
      | some chunk =>
        dsimp only
        refine h.proceed herd (.counted htok rfl (haft _) ?_ hopen.1 rfl ?_) ?_ ?_
          (fun _ => haft _) ?_ ?_
        · rw [StreamRun.erred_polled, herd]
          rfl
        · simp only [StreamRun.polled, hopen.2]
          split
          · rename_i hzero
            intro _ left hleft
            exact (Option.some.inj (hzero.symm.trans hleft)).symm
          · simp
        · simp [hpend, values, StreamItem.bytes]
        · simp [StreamRun.polled]
        · simp [values]
        · simp [hopen.2]
      | none =>
        dsimp only
        refine h.proceed herd (.counted htok rfl (haft _) ?_ hopen.1 rfl ?_) ?_ ?_
          (fun _ => haft _) (fun _ => rfl) fun _ => rfl
        · rw [StreamRun.erred_polled, herd]
          rfl
        · exact fun _ => hlast hpend
        · simp [hpend, values, StreamItem.bytes]
        · simp [StreamRun.polled]

/-- A poll that spawns the completion task and asks its handle. -/
theorem handOver {answers : PollAnswers} (hfinalize : answers.finalize = r.task.answer early)
    {token : String} (htok : r.stream.leaseToken = some token) (htask : r.task = .notSpawned)
    (herd : r.erred = false) (hopen : (r.stream.timedOut || r.stream.complete) = false)
    (hpend : r.stream.pendingChunk = none) {s₀ : PublicTransferStream} {innerPolled : Bool}
    (hhands : r.stream.HandsOver answers s₀ innerPolled) :
    StreamInv expected (r.polled early answers.inner
      ⟨(s₀.startFinalize.1.observeFinalize answers.finalize).stream,
        s₀.startFinalize.2 ++ (s₀.startFinalize.1.observeFinalize answers.finalize).effects,
        innerPolled, (s₀.startFinalize.1.observeFinalize answers.finalize).value⟩) := by
  -- the run right after the task was spawned
  let r₀ : StreamRun := ⟨s₀.startFinalize.1, early.elim .running .finished,
    r.delivered ++ if innerPolled then answers.inner.values.flatMap StreamItem.bytes else [],
    r.yielded⟩
  have hsta := hhands.startFinalize_eq htok
  have htask₀ : r₀.task ≠ .notSpawned := by
    cases early <;> simp [r₀]
  have hans : answers.finalize = r₀.task.answer early := by
    rw [hfinalize, htask]
    cases early <;> rfl
  have hbytes : r.bytes = [] := by
    by_contra hne
    have hcounted := h.counted hne
    rw [htask] at hcounted
    cases hcounted
  have hdel := h.delivered_eq herd
  have hrem := h.remaining_eq herd
  rw [hpend, hbytes] at hdel
  have hlast : r₀.stream.pendingChunk = none →
      ∀ left, r₀.stream.remainingBytes = some left → left = 0 := by
    simp only [r₀, hsta]
    cases hhands with
    | exhausted hzero =>
      intro _ left hleft
      exact (Option.some.inj (hzero.symm.trans hleft)).symm
    | ended hinn hzero =>
      intro _ left hleft
      rw [hleft] at hzero
      simpa using hzero
    | chunk => nofun
  have hopen₀ : (r₀.stream.timedOut || r₀.stream.complete) = false := by
    simp only [r₀, hsta]
    cases hhands <;> exact hopen
  have hinv : StreamInv expected r₀ := by
    refine ⟨.finalizing (by simp [r₀, hsta]) (by simp [r₀, hsta]) htask₀ herd hopen₀ hlast, ?_,
      fun _ => ?_, fun _ => ?_, fun hne => absurd hbytes hne, h.ordered, fun hmem _ => ?_⟩
    · exact h.bytes_prefix.trans (List.prefix_append _ _)
    · change r.bytes ++ _ = _
      simp only [r₀, hsta, ← hdel, hbytes]
      cases hhands with
      | exhausted => simp [hpend]
      | ended hinn => simp [hpend, hinn, values, StreamItem.bytes]
      | chunk chunk hinn => simp [hinn, values, StreamItem.bytes]
    · simp only [r₀, hsta, hrem]
      cases hhands with
      | exhausted => simp
      | ended hinn => simp [hinn, values, StreamItem.bytes]
      | chunk chunk hinn hnonempty hfits =>
        cases hleft : r.stream.remainingBytes with
        | none => rfl
        | some left =>
          have hle := hfits left hleft
          simp [hinn, values, StreamItem.bytes]
          omega
    · have hcomplete := h.ended hmem herd
      rw [hcomplete, Bool.or_true] at hopen
      cases hopen
  have hsame : r.polled early answers.inner
      ⟨(s₀.startFinalize.1.observeFinalize answers.finalize).stream,
        s₀.startFinalize.2 ++ (s₀.startFinalize.1.observeFinalize answers.finalize).effects,
        innerPolled, (s₀.startFinalize.1.observeFinalize answers.finalize).value⟩ =
      r₀.polled early answers.inner (r₀.stream.observeFinalize (r₀.task.answer early)) := by
    rw [← hans, StreamRun.polled, StreamRun.polled, CompletionTask.afterPoll_of_ne htask₀,
      PublicTransferStream.observeFinalize_innerPolled, htask]
    simp [r₀, hsta, CompletionTask.afterPoll, CompletionTask.spawnedBy]
  rw [hsame]
  exact hinv.observe (by simp [r₀, hsta]) htask₀ herd hopen₀ hlast

/-- The end of a counted transfer. -/
theorem finish (htok : r.stream.leaseToken = none) (hidle : r.stream.finalize = false)
    (htask : r.task = .finished .completed) (herd : r.erred = false)
    (hinti : r.stream.timedOut = false) (hpend : r.stream.pendingChunk = none)
    (hlast : ∀ left, r.stream.remainingBytes = some left → left = 0) {innerPolled : Bool}
    (hinn : innerPolled = true → inner = .ready none) :
    StreamInv expected (r.polled early inner
      ⟨{ r.stream with complete := true }, [], innerPolled, .ready none⟩) := by
  have hnothing : (if innerPolled then inner.values.flatMap StreamItem.bytes else []) = [] := by
    cases innerPolled with
    | false => rfl
    | true =>
      rw [hinn rfl]
      rfl
  refine h.proceed herd (.counted htok hidle ?_ ?_ hinti hpend fun _ => hlast) ?_ ?_ ?_
    (fun _ => rfl) fun _ => rfl
  · rw [StreamRun.polled, htask]
    rfl
  · rw [StreamRun.erred_polled, herd]
    rfl
  · rw [hnothing, hpend]
    rfl
  · simp [StreamRun.polled, hnothing]
  · simp [values, StreamItem.bytes]

/-- A poll of a stream that has timed out or is complete. -/
theorem closed (hclosed : (r.stream.timedOut || r.stream.complete) = true) :
    StreamInv expected (r.polled early inner ⟨r.stream, [], false, .ready none⟩) := by
  cases h.phase with
  | waiting _ _ _ _ _ hopen | finalizing _ _ _ _ hopen =>
    rw [hopen] at hclosed
    cases hclosed
  | failed htok hidle herd =>
    refine h.dead ?_ ?_ htok hidle
    · rw [StreamRun.erred_polled, herd, Bool.true_or]
    · simp [values, StreamItem.isOk]
  | counted htok hidle htask herd hinti hpend hlast =>
    rw [hinti, Bool.false_or] at hclosed
    suffices hfinish : StreamInv expected
        (r.polled early inner ⟨{ r.stream with complete := true }, [], false, .ready none⟩) by
      rwa [← hclosed] at hfinish
    exact h.finish htok hidle htask herd hinti hpend (hlast hclosed) (by nofun)

/-- A chunk that is passed on as it comes. -/
theorem passed {chunk : Bytes} (herd : r.erred = false)
    (hopen : (r.stream.timedOut || r.stream.complete) = false) (hidle : r.stream.finalize = false)
    (hchunk : chunk = [] ∨ r.stream.leaseToken = none)
    (hleft : r.stream.remainingBytes = some 0 → r.stream.leaseToken = none)
    (hfits : ∀ left, r.stream.remainingBytes = some left → chunk.length ≤ left) :
    StreamInv expected (r.polled early (.ready (some (.ok chunk)))
      ⟨r.stream.afterChunk chunk, [], true, .ready (some (.ok chunk))⟩) := by
  have hnotErred : (r.polled early (.ready (some (.ok chunk)))
      ⟨r.stream.afterChunk chunk, [], true, .ready (some (.ok chunk))⟩).erred = false := by
    rw [StreamRun.erred_polled, herd]
    rfl
  have hrem : r.stream.remainingBytes.map (fun left => left + r.delivered.length) =
      (r.stream.remainingBytes.map fun left => left - chunk.length).map
        fun left => left + (r.delivered ++ ([chunk].flatten)).length := by
    cases hleft : r.stream.remainingBytes with
    | none => rfl
    | some left =>
      have hle := hfits left hleft
      simp only [Option.map_some, Option.some.injEq, List.length_append, List.flatten_singleton]
      omega
  simp only [Bool.or_eq_false_iff] at hopen
  have hcomplete : r.stream.complete = true → (r.stream.afterChunk chunk).complete = true := by
    simp [hopen.2]
  cases h.phase with
  | waiting token htok _ htask _ _ hpend =>
    have hemp : chunk = [] := hchunk.resolve_right (by simp [htok])
    have hsome : r.stream.remainingBytes ≠ some 0 := fun hzero => by simp [hleft hzero] at htok
    subst hemp
    refine h.proceed herd (.waiting token htok hidle ?_ hnotErred ?_ hpend) ?_ hrem
      (fun hne => absurd rfl hne) ?_ hcomplete
    · rw [StreamRun.polled, htask]
      rfl
    · simp [StreamRun.polled, PublicTransferStream.afterChunk, hopen, hsome]
    · simp [PublicTransferStream.afterChunk, hpend, values, StreamItem.bytes]
    · simp [values]
  | finalizing _ hheld =>
    rw [hidle] at hheld
    cases hheld
  | failed _ _ hfai =>
    rw [herd] at hfai
    cases hfai
  | counted htok _ htask _ hinti hpend _ =>
    have haft : r.task.afterPoll early [] = .finished .completed := by
      rw [htask]
      rfl
    refine h.proceed herd (.counted htok hidle haft hnotErred hinti hpend ?_) ?_ hrem
      (fun _ => haft) ?_ hcomplete
    · simp only [StreamRun.polled, PublicTransferStream.afterChunk, hopen.2]
      split
      · rename_i hzero
        intro _ left hleft
        exact (Option.some.inj (hzero.symm.trans hleft)).symm
      · simp
    · simp [PublicTransferStream.afterChunk, hpend, values, StreamItem.bytes]
    · simp [values]

theorem step {event : StreamEvent} (hfused : Fused r event) :
    StreamInv expected (r.step event) := by
  cases event with
  | finishTask result =>
    have hfinished : r.task = .finished .completed →
        r.task.finish result = .finished .completed := by
      intro htask
      rw [htask]
      rfl
    have hspawned : r.task ≠ .notSpawned → r.task.finish result ≠ .notSpawned := by
      cases r.task <;> simp [CompletionTask.finish]
    refine { h with phase := ?_, counted := fun hne => hfinished (h.counted hne) }
    cases h.phase with
    | waiting token htok hidle htask herd hopen hpend =>
      exact .waiting token htok hidle (by simp [StreamRun.step, htask, CompletionTask.finish]) herd
        hopen hpend
    | finalizing htok hheld htask herd hopen hlast =>
      exact .finalizing htok hheld (hspawned htask) herd hopen hlast
    | counted htok hidle htask herd hinti hpend hlast =>
      exact .counted htok hidle (hfinished htask) herd hinti hpend hlast
    | failed htok hidle herd => exact .failed htok hidle herd
  | poll deadlineReady early inner =>
    rw [StreamRun.step]
    have hpol := r.stream.pollNext_polled ⟨deadlineReady, r.task.answer early, inner⟩
    generalize r.stream.pollNext ⟨deadlineReady, r.task.answer early, inner⟩ = result at hpol
    cases hpol with
    | closed hclosed => exact h.closed hclosed
    | expired => exact h.fail rfl rfl rfl
    | observed hopen hdea hheld =>
      cases h.phase with
      | finalizing htok _ htask herd hopen hlast => exact h.observe htok htask herd hopen hlast
      | waiting token htok hidle | counted htok hidle | failed htok hidle =>
        rw [hheld] at hidle
        cases hidle
    | finalized hopen hidle token htok s₀ innerPolled hhands =>
      cases h.phase with
      | waiting _ _ _ htask herd hopen hpend =>
        exact h.handOver rfl htok htask herd hopen hpend hhands
      | finalizing hnone | counted hnone | failed hnone =>
        rw [hnone] at htok
        cases htok
    | failed hopen hidle => exact h.fail rfl rfl hidle
    | waiting hopen hidle hinn => rwa [StreamRun.polled_nothing (Or.inr hinn) rfl rfl rfl]
    | ended hopen hidle hinn hrem htok =>
      cases h.phase with
      | waiting token hsome =>
        rw [htok] at hsome
        cases hsome
      | finalizing _ hheld =>
        rw [hidle] at hheld
        cases hheld
      | failed _ _ herd =>
        refine h.dead ?_ ?_ htok hidle
        · rw [StreamRun.erred_polled, herd, Bool.true_or]
        · simp [values, StreamItem.isOk]
      | counted _ _ htask herd hinti hpend =>
        refine h.finish htok hidle htask herd hinti hpend ?_ fun _ => hinn
        intro left hleft
        rw [hleft] at hrem
        simpa using hrem
    | passed hopen hidle chunk hinn hchunk hleft hfits hdea =>
      dsimp only at hinn hdea
      subst hinn
      have herd : r.erred = false := by
        by_contra hnot
        have hexceeds := hfused (Bool.not_eq_false _ ▸ hnot)
        rw [hdea, hopen, Bool.false_or, Bool.false_or, Option.any_eq_true] at hexceeds
        obtain ⟨remaining, hrem, hlt⟩ := hexceeds
        exact absurd (hfits remaining hrem) (by simpa using hlt)
      exact h.passed herd hopen hidle hchunk hleft hfits

end StreamInv

end Invariant

section Order

theorem StreamInv.run {expected : Option ℕ} {r : StreamRun} {events : List StreamEvent}
    (h : StreamInv expected r) (hfused : History.Throughout StreamRun.step Fused r events) :
    StreamInv expected (History.state StreamRun.step r events) :=
  hfused.invariant (fun _ _ hstep hr => hr.step hstep) h

/-- In every schedule in which the inner stream delivers no chunk that could be passed on once the
stream has yielded an error: no nonempty chunk is yielded before the completion task has returned
`Ok`; the yielded bytes are a prefix of the delivered ones; no chunk follows an error; and a
stream that ends without an error has yielded exactly the expected number of bytes. -/
theorem stream_yields_in_order (lease : PublicTransferLease) (action : String) (shareId : ℕ)
    (expected : Option ℕ) (events : List StreamEvent)
    (hfused : History.Throughout StreamRun.step Fused
      (.initial (lease.transferStream action shareId expected)) events) :
    let r := History.state StreamRun.step (.initial (lease.transferStream action shareId expected))
      events
    (∀ chunk, some (.ok chunk) ∈ r.yielded → chunk ≠ [] → r.task = .finished .completed) ∧
    r.bytes <+: r.delivered ∧
    (r.yielded.Pairwise fun earlier later =>
      StreamItem.isErr earlier = true → StreamItem.isOk later = false) ∧
    (none ∈ r.yielded → r.erred = false → ∀ n, expected = some n → r.bytes.length = n) := by
  intro r
  have h : StreamInv expected r := (StreamInv.initial lease action shareId expected).run hfused
  refine ⟨?_, h.bytes_prefix, h.ordered, ?_⟩
  · intro chunk hmem hne
    refine h.counted fun hnone => hne ?_
    exact List.flatMap_eq_nil_iff.mp hnone _ hmem
  · intro hmem herd n hexp
    have hcomplete := h.ended hmem herd
    have hdel := h.delivered_eq herd
    have hrem := h.remaining_eq herd
    cases h.phase with
    | waiting _ _ _ _ _ hopen | finalizing _ _ _ _ hopen =>
      rw [hcomplete, Bool.or_true] at hopen
      cases hopen
    | failed _ _ hfai =>
      rw [herd] at hfai
      cases hfai
    | counted _ _ _ _ _ hpend hlast =>
      rw [hpend, Option.getD_none, List.append_nil] at hdel
      rw [hexp] at hrem
      obtain ⟨left, hleft, hsum⟩ := Option.map_eq_some_iff.mp hrem.symm
      have hzero := hlast hcomplete left hleft
      rw [hdel]
      omega

/-- A lease for the examples. -/
def sampleLease : PublicTransferLease := .new "lease" "session" true none

/-- A file of three bytes, in two chunks. -/
def threeBytes : List StreamEvent :=
  [.poll false none (.ready (some (.ok [1, 2]))), .finishTask .completed,
    .poll false none .pending, .poll false none (.ready (some (.ok [3]))),
    .poll false none (.ready none)]

theorem stream_yields_in_order_threeBytes :
    let r := History.state StreamRun.step
      (.initial (sampleLease.transferStream "download" 1 (some 3))) threeBytes
    r.yielded = [some (.ok [1, 2]), some (.ok [3]), none] ∧ r.task = .finished .completed ∧
      r.bytes.length = 3 := by
  obtain ⟨hcounted, -, -, hlen⟩ :=
    stream_yields_in_order sampleLease "download" 1 (some 3) threeBytes (by decide +kernel)
  refine ⟨by decide +kernel, hcounted [3] (by decide +kernel) (by decide), ?_⟩
  exact hlen (by decide +kernel) (by decide +kernel) 3 rfl

/-- An inner stream that goes on after an error. -/
def resumedAfterError : List StreamEvent :=
  [.poll false none (.ready (some (.err ⟨.other, "read failed"⟩))),
    .poll false none (.ready (some (.ok [1])))]

theorem resumed_stream_yields_uncounted_data :
    let r := History.state StreamRun.step (.initial (sampleLease.transferStream "download" 1 none))
      resumedAfterError
    r.yielded = [some (.err ⟨.other, "read failed"⟩), some (.ok [1])] ∧ r.task = .notSpawned := by
  decide +kernel

end Order

end VaultLink
