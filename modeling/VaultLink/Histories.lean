import Mathlib.Data.List.Induction

/-!
# Histories

A history is the list of steps a system has taken. A claim about the past of a state (what
has put a row where it is, what cannot have happened since) is a claim about the way the
history splits, and its proof looks at one step at a time: `Throughout` says what every step
of a stretch does in the state it finds, and `exists_origin` finds the step that made a
property of the final state true.
-/
namespace VaultLink

namespace History

variable {S E : Type} (next : S → E → S)

/-- The state a history leads to. -/
def state (s : S) (history : List E) : S := history.foldl next s

@[simp] theorem state_cons (s : S) (e : E) (history : List E) :
    state next s (e :: history) = state next (next s e) history := rfl

@[simp] theorem state_append (s : S) (earlier later : List E) :
    state next s (earlier ++ later) = state next (state next s earlier) later :=
  List.foldl_append

variable {next} in
theorem state_invariant {P : S → Prop} (hstep : ∀ s e, P s → P (next s e)) {s : S} (hs : P s)
    (history : List E) : P (state next s history) := by
  induction history generalizing s with
  | nil => exact hs
  | cons e history ih => exact ih (hstep s e hs)

/-- Every step of the history satisfies `Q` in the state it finds. -/
def Throughout (Q : S → E → Prop) : S → List E → Prop
  | _, [] => True
  | s, e :: history => Q s e ∧ Throughout Q (next s e) history

instance decidableThroughout (Q : S → E → Prop) [∀ s e, Decidable (Q s e)] :
    (s : S) → (history : List E) → Decidable (Throughout next Q s history)
  | _, [] => isTrue trivial
  | s, e :: history =>
    have := decidableThroughout Q (next s e) history
    inferInstanceAs (Decidable (_ ∧ _))

variable {next} {Q R : S → E → Prop}

theorem throughout_append {s : S} {earlier later : List E} :
    Throughout next Q s (earlier ++ later) ↔
      Throughout next Q s earlier ∧ Throughout next Q (state next s earlier) later := by
  induction earlier generalizing s with
  | nil => simp [Throughout, state]
  | cons e earlier ih => simp [Throughout, ih, and_assoc]

theorem Throughout.mono (h : ∀ s e, Q s e → R s e) {s : S} {history : List E}
    (hQ : Throughout next Q s history) : Throughout next R s history := by
  induction history generalizing s with
  | nil => trivial
  | cons e history ih => exact ⟨h s e hQ.1, ih hQ.2⟩

/-- What holds at first and is kept by every step that satisfies `Q` holds in the end. -/
theorem Throughout.invariant {P : S → Prop} (hstep : ∀ s e, Q s e → P s → P (next s e)) {s : S}
    {history : List E} (hQ : Throughout next Q s history) (hs : P s) :
    P (state next s history) := by
  induction history generalizing s with
  | nil => exact hs
  | cons e history ih => exact ih hQ.2 (hstep s e hQ.1 hs)

/-- An invariant holds at every step. -/
theorem throughout_of_invariant {P : S → Prop} (hstep : ∀ s e, P s → P (next s e)) {s : S}
    (hs : P s) (history : List E) : Throughout next (fun s _ => P s) s history := by
  induction history generalizing s with
  | nil => trivial
  | cons e history ih => exact ⟨hs, ih (hstep s e hs)⟩

/-- What holds before every step and in the end holds at first. -/
theorem Throughout.first {P : S → Prop} {s : S} {history : List E}
    (h : Throughout next (fun s e => P s ∧ Q s e) s history)
    (hend : P (state next s history)) : P s := by
  cases history with
  | nil => exact hend
  | cons e history => exact h.1.1

/-- A property that only steps of the class `C` can make true was made true by the last of
them, and has held ever since. -/
theorem exists_origin {P : S → Prop} {C : S → E → Prop}
    (hcreate : ∀ s e, P (next s e) → ¬C s e → P s) {s : S} (hinit : ¬P s) {history : List E}
    (hend : P (state next s history)) :
    ∃ earlier start between, history = earlier ++ start :: between ∧
      C (state next s earlier) start ∧ P (state next s (earlier ++ [start])) ∧
      Throughout next (fun s e => P s ∧ ¬C s e) (state next s (earlier ++ [start])) between := by
  induction history using List.reverseRecOn with
  | nil => exact absurd hend hinit
  | append_singleton history e ih =>
    rw [state_append] at hend
    by_cases hC : C (state next s history) e
    · exact ⟨history, e, [], rfl, hC, by rwa [state_append], trivial⟩
    · have hP := hcreate _ e hend hC
      obtain ⟨earlier, start, between, rfl, hsta, hmade, hsince⟩ := ih hP
      refine ⟨earlier, start, between ++ [e], by simp, hsta, hmade, ?_⟩
      refine throughout_append.mpr ⟨hsince, ⟨?_, ?_⟩, trivial⟩
      · simpa [state] using hP
      · simpa [state] using hC

end History

end VaultLink
