import Mathlib.Data.List.Induction
import VaultLink.Schema

/-!
# The admission budget of transfer jobs

A queued transfer job waits for a worker as long as the workers make progress. Of the completions
only the first and the last one of the current streak are remembered, and a job looks at them when
it is polled. The verdict at a poll is the one of a rule that looks at every completion: a streak
that was replaced unseen ended a second before the next one began, so the ideal deadline has
passed by then.
-/
namespace VaultLink

section Model

def transferStallTimeout : ℤ := seconds 1

def transferMaxQueueTime : ℤ := seconds 10

structure CompletionStreak where
  first : ℤ
  last : ℤ

/-- `TransferProgress::completed_at`, on the value of the mutex. -/
def completedAt (streak : Option CompletionStreak) (now : ℤ) : Option CompletionStreak :=
  match streak with
  | some current =>
    if now < current.last + transferStallTimeout then some { current with last := now }
    else some ⟨now, now⟩
  | none => some ⟨now, now⟩

structure TransferAdmissionBudget where
  deadline : ℤ
  hardDeadline : ℤ

def TransferAdmissionBudget.new (started : ℤ) : TransferAdmissionBudget :=
  ⟨started + transferStallTimeout, started + transferMaxQueueTime⟩

def TransferAdmissionBudget.refresh (budget : TransferAdmissionBudget)
    (progress : Option CompletionStreak) : TransferAdmissionBudget :=
  match progress with
  | some streak =>
    if streak.first < budget.deadline then
      { budget with
        deadline :=
          min (max budget.deadline (streak.last + transferStallTimeout)) budget.hardDeadline }
    else budget
  | none => budget

/-- What happens to the progress record and to one budget, at the instant it happens. -/
inductive ProgressEvent
  | completed (now : ℤ)
  | refresh (now : ℤ)

def ProgressEvent.instant : ProgressEvent → ℤ
  | completed now | refresh now => now

structure AdmissionState where
  progress : Option CompletionStreak
  budget : TransferAdmissionBudget

def AdmissionState.step (s : AdmissionState) : ProgressEvent → AdmissionState
  | .completed now => { s with progress := completedAt s.progress now }
  | .refresh _ => { s with budget := s.budget.refresh s.progress }

/-- The completions may begin before the job does. -/
def AdmissionState.run (started : ℤ) (events : List ProgressEvent) : AdmissionState :=
  events.foldl AdmissionState.step ⟨none, .new started⟩

end Model

section Ideal

/-- One completion moves the deadline when it comes before it. -/
def idealStep (started deadline : ℤ) : ProgressEvent → ℤ
  | .completed c =>
    if started ≤ c ∧ c < deadline then
      min (c + transferStallTimeout) (started + transferMaxQueueTime)
    else deadline
  | .refresh _ => deadline

/-- The deadline of the rule that looks at every completion. -/
def idealDeadline (started : ℤ) (events : List ProgressEvent) : ℤ :=
  events.foldl (idealStep started) (started + transferStallTimeout)

end Ideal

section Agreement

/-- How the ideal deadline is told from the budget's and the streak: as long as the streak began
before the budget's deadline it determines it, and otherwise it had passed when the streak
began. -/
def Tracks (started now ideal deadline : ℤ) : Option CompletionStreak → Prop
  | none => deadline = started + transferStallTimeout ∧ ideal = deadline
  | some streak => streak.first ≤ streak.last ∧ streak.last ≤ now ∧
    deadline ≤ max started streak.last + transferStallTimeout ∧
    if streak.first < deadline then
      ideal = min (max deadline (streak.last + transferStallTimeout))
        (started + transferMaxQueueTime)
    else ideal ≤ streak.first

structure AdmissionInv (started now ideal : ℤ) (s : AdmissionState) : Prop where
  hard : s.budget.hardDeadline = started + transferMaxQueueTime
  least : started + transferStallTimeout ≤ s.budget.deadline
  most : s.budget.deadline ≤ started + transferMaxQueueTime
  tracks : Tracks started now ideal s.budget.deadline s.progress

variable {started now later ideal deadline : ℤ} {s : AdmissionState}

theorem AdmissionInv.new :
    AdmissionInv started now (started + transferStallTimeout) ⟨none, .new started⟩ where
  hard := rfl
  least := le_rfl
  most := by simp [TransferAdmissionBudget.new, transferStallTimeout, transferMaxQueueTime, seconds]
  tracks := ⟨rfl, rfl⟩

/-- A completion extends the streak or begins one; in both cases the ideal rule sees the same
completion. -/
theorem Tracks.completed {progress : Option CompletionStreak}
    (h : Tracks started now ideal deadline progress)
    (hleast : started + transferStallTimeout ≤ deadline)
    (hmost : deadline ≤ started + transferMaxQueueTime) (hlat : now ≤ later) :
    Tracks started later (idealStep started ideal (.completed later)) deadline
      (completedAt progress later) := by
  simp only [transferStallTimeout, transferMaxQueueTime, seconds] at hleast hmost
  cases progress with
  | none =>
    simp only [Tracks, transferStallTimeout, seconds] at h
    simp only [Tracks, completedAt, idealStep, transferStallTimeout, transferMaxQueueTime, seconds]
    split_ifs <;> omega
  | some streak =>
    simp only [Tracks, transferStallTimeout, transferMaxQueueTime, seconds] at h
    rw [completedAt]
    by_cases hstreak : later < streak.last + transferStallTimeout
    · rw [if_pos hstreak]
      simp only [Tracks, idealStep, transferStallTimeout, transferMaxQueueTime, seconds]
        at hstreak ⊢
      split_ifs at h ⊢ <;> omega
    · rw [if_neg hstreak]
      simp only [Tracks, idealStep, transferStallTimeout, transferMaxQueueTime, seconds]
        at hstreak ⊢
      split_ifs at h ⊢ <;> omega

theorem AdmissionInv.completed (h : AdmissionInv started now ideal s) (hlat : now ≤ later) :
    AdmissionInv started later (idealStep started ideal (.completed later))
      (s.step (.completed later)) :=
  { h with tracks := h.tracks.completed h.least h.most hlat }

/-- What a look at the streak changes, and what it decides. -/
theorem AdmissionInv.refreshed (h : AdmissionInv started now ideal s) (hlat : now ≤ later) :
    AdmissionInv started later ideal (s.step (.refresh later)) ∧
      s.budget.deadline ≤ (s.budget.refresh s.progress).deadline ∧
      ((s.budget.refresh s.progress).deadline ≤ later ↔ ideal ≤ later) := by
  obtain ⟨progress, deadline, hardDeadline⟩ := s
  obtain ⟨rfl, hleast, hmost, htra⟩ := h
  cases progress with
  | none =>
    obtain ⟨hdea, hideal⟩ := htra
    refine ⟨⟨rfl, hleast, hmost, hdea, hideal⟩, le_rfl, ?_⟩
    rw [hideal]
    rfl
  | some streak =>
    obtain ⟨hodd, hlast, hsrc, hideal⟩ := htra
    simp only [AdmissionState.step, TransferAdmissionBudget.refresh]
    by_cases hfirst : streak.first < deadline
    · -- the budget catches up with the ideal deadline
      rw [if_pos hfirst] at hideal ⊢
      dsimp only at hleast hmost hsrc
      rw [← hideal]
      have hreached : deadline ≤ ideal := by
        rw [hideal]
        exact le_min (le_max_left _ _) hmost
      have hcap : ideal ≤ started + transferMaxQueueTime := hideal.trans_le (min_le_right _ _)
      refine ⟨⟨rfl, hleast.trans hreached, hcap, hodd, hlast.trans hlat, ?_, ?_⟩,
        hreached, Iff.rfl⟩
      · simp only [transferStallTimeout, transferMaxQueueTime, seconds] at *
        omega
      · rw [if_pos (hfirst.trans_le hreached)]
        simp only [transferStallTimeout, transferMaxQueueTime, seconds] at *
        omega
    · -- both deadlines had passed when the streak began
      rw [if_neg hfirst] at hideal ⊢
      dsimp only at hleast hmost hsrc
      refine ⟨⟨rfl, hleast, hmost, hodd, hlast.trans hlat, hsrc, ?_⟩, le_rfl, ?_⟩
      · rwa [if_neg hfirst]
      · simp only
        omega

theorem AdmissionInv.mono (h : AdmissionInv started now ideal s) (hlat : now ≤ later) :
    AdmissionInv started later ideal s := by
  refine { h with tracks := ?_ }
  have htra := h.tracks
  cases hprogress : s.progress with
  | none => rwa [hprogress] at htra
  | some streak =>
    rw [hprogress] at htra
    obtain ⟨hodd, hlast, hrest⟩ := htra
    exact ⟨hodd, hlast.trans hlat, hrest⟩

/-- The invariant at the end of a run, at any instant that is not before its events. -/
theorem admissionInv_run {events : List ProgressEvent}
    (hodd : (events.map ProgressEvent.instant).Pairwise (· ≤ ·))
    (hlat : ∀ event ∈ events, event.instant ≤ later) :
    AdmissionInv started later (idealDeadline started events)
      (AdmissionState.run started events) := by
  induction events using List.reverseRecOn generalizing later with
  | nil => exact .new
  | append_singleton events event ih =>
    rw [List.map_append, List.pairwise_append] at hodd
    have hbef : ∀ e ∈ events, e.instant ≤ event.instant := fun e he =>
      hodd.2.2 _ (List.mem_map_of_mem he) _ (by simp)
    have hinv := ih hodd.1 hbef
    rw [idealDeadline, AdmissionState.run, List.foldl_concat, List.foldl_concat]
    refine AdmissionInv.mono ?_ (hlat event (by simp))
    cases event with
    | completed now => exact hinv.completed le_rfl
    | refresh now => exact (hinv.refreshed le_rfl).1

end Agreement

section Result

/-- At each look at the progress record the budget's deadline has passed exactly when the deadline
of the rule that looks at every completion has, for completions and looks at nondecreasing
instants, some of them maybe before the job started. The deadline never goes back and never
exceeds ten seconds after the start. -/
theorem admission_verdict_is_ideal (started now : ℤ) (earlier later : List ProgressEvent)
    (hordered : ((earlier ++ .refresh now :: later).map ProgressEvent.instant).Pairwise (· ≤ ·)) :
    let s := AdmissionState.run started earlier
    let refreshed := s.budget.refresh s.progress
    (refreshed.deadline ≤ now ↔ idealDeadline started earlier ≤ now) ∧
      s.budget.deadline ≤ refreshed.deadline ∧ refreshed.deadline ≤ started + seconds 10 := by
  intro s refreshed
  rw [List.map_append, List.pairwise_append] at hordered
  have hbef : ∀ event ∈ earlier, event.instant ≤ now := fun event hev =>
    hordered.2.2 _ (List.mem_map_of_mem hev) _ (by simp [ProgressEvent.instant])
  have hinv : AdmissionInv started now _ s := admissionInv_run hordered.1 hbef
  obtain ⟨hnext, hmonotone, hverdict⟩ := hinv.refreshed (le_refl now)
  exact ⟨hverdict, hmonotone, hnext.most⟩

/-- A streak from before the start, a job that is polled late in it, and a completion after the
workers have stalled. -/
theorem admission_verdict_is_ideal_stalled :
    let earlier : List ProgressEvent := [.completed (-500), .completed (seconds 1 - 600),
      .refresh (seconds 1), .completed (seconds 3)]
    (AdmissionState.run 0 earlier).budget.deadline = seconds 2 - 600 ∧
      (((AdmissionState.run 0 earlier).budget.refresh
        (AdmissionState.run 0 earlier).progress).deadline ≤ seconds 4 ↔
          idealDeadline 0 earlier ≤ seconds 4) :=
  ⟨by decide, (admission_verdict_is_ideal 0 (seconds 4) _ [] (by decide)).1⟩

end Result

end VaultLink
