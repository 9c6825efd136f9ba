import Mathlib.Data.List.Basic

/-!
# Sliding windows

A system that admits events and records when it did, and that forgets a record only once it
has a certain age. If it admits an event only where fewer than `max` records are younger than
that, then no stretch of time that is shorter sees more than `max` admissions. What has to be
known of the system is one thing about each of its steps, and where its records are kept does
not matter: they may move from one place to another as long as the young ones move along.
-/
namespace VaultLink

namespace SlidingWindow

/-- The instants that are younger than `window`. -/
def fresh (window now : ℕ) (instants : List ℕ) : List ℕ :=
  instants.filter fun instant => now - instant < window

theorem fresh_sublist (window now : ℕ) (instants : List ℕ) :
    (fresh window now instants).Sublist instants :=
  List.filter_sublist

theorem fresh_fresh (window now : ℕ) (instants : List ℕ) :
    fresh window now (fresh window now instants) = fresh window now instants := by
  simp [fresh]

theorem fresh_eq_self {window now : ℕ} {instants : List ℕ}
    (h : ∀ instant ∈ instants, now - instant < window) : fresh window now instants = instants :=
  List.filter_eq_self.mpr fun instant hins => decide_eq_true (h instant hins)

end SlidingWindow

open SlidingWindow

/-- A system with records and what its steps do to them. -/
structure WindowedLog (S E : Type) where
  next : S → E → S
  time : E → ℕ
  recorded : S → List ℕ
  admits : S → E → Bool
  forgets : E → Bool
  valid : S → Prop
  window : ℕ
  max : ℕ
  valid_next : ∀ s e, valid s → valid (next s e)
  keeps : ∀ s e, valid s → forgets e = false →
    (fresh window (time e) (recorded s)).Sublist (recorded (next s e))
  records : ∀ s e, valid s → admits s e = true →
    (fresh window (time e) (recorded s)).length < max ∧
      (fresh window (time e) (recorded s) ++ [time e]).Sublist (recorded (next s e))

namespace WindowedLog

variable {S E : Type} (log : WindowedLog S E)

/-- The instants of a stretch at which a run admits something. -/
def admitted (stretch : ℕ → Bool) : S → List E → List ℕ
  | _, [] => []
  | s, e :: rest =>
    if stretch (log.time e) && log.admits s e then
      log.time e :: admitted stretch (log.next s e) rest
    else admitted stretch (log.next s e) rest

variable {log} {stretch : ℕ → Bool}

/-- One step: the admissions of the stretch are on record before it and after it. -/
theorem records_step {s : S} {e : E} {earlier : List ℕ} (hs : log.valid s)
    (hfor : log.forgets e = false) (hear : earlier.Sublist (log.recorded s))
    (hfr : ∀ instant ∈ earlier, log.time e - instant < log.window) :
    earlier.Sublist (log.recorded (log.next s e)) ∧
      (log.admits s e = true → earlier.length < log.max ∧
        (earlier ++ [log.time e]).Sublist (log.recorded (log.next s e))) := by
  have hsublist : earlier.Sublist (fresh log.window (log.time e) (log.recorded s)) := by
    rw [← fresh_eq_self hfr]
    exact hear.filter _
  refine ⟨hsublist.trans (log.keeps s e hs hfor), fun hadm => ?_⟩
  obtain ⟨hlen, hrecd⟩ := log.records s e hs hadm
  exact ⟨Nat.lt_of_le_of_lt hsublist.length_le hlen,
    (hsublist.append (List.Sublist.refl _)).trans hrecd⟩

/-- The induction goes along the run and carries the admissions so far. They are on record as
long as the stretch is not over, since none of them has reached the age of the window. -/
theorem length_admitted_from (hconvex : ∀ a b c, a ≤ b → b ≤ c → stretch a = true →
      stretch c = true → stretch b = true)
    (hspan : ∀ a b, a ≤ b → stretch a = true → stretch b = true → b - a < log.window)
    {events : List E} (hodd : events.Pairwise fun e e' => log.time e ≤ log.time e')
    (hfor : ∀ e ∈ events, stretch (log.time e) = true → log.forgets e = false)
    {s : S} (hs : log.valid s) {earlier : List ℕ} (hmax : earlier.length ≤ log.max)
    (hear : ∀ instant ∈ earlier, stretch instant = true ∧
      ∀ e ∈ events, instant ≤ log.time e)
    (hrecd : ∀ e ∈ events, stretch (log.time e) = true →
      earlier.Sublist (log.recorded s)) :
    (earlier ++ log.admitted stretch s events).length ≤ log.max := by
  induction events generalizing s earlier with
  | nil => simpa [admitted] using hmax
  | cons e rest ih =>
    obtain ⟨hfirst, hodd⟩ := List.pairwise_cons.mp hodd
    have hfor' : ∀ e' ∈ rest, stretch (log.time e') = true → log.forgets e' = false :=
      fun e' he' => hfor e' (List.mem_cons_of_mem e he')
    have hear' : ∀ instant ∈ earlier, stretch instant = true ∧
        ∀ e' ∈ rest, instant ≤ log.time e' := fun instant hins =>
      ⟨(hear instant hins).1, fun e' he' =>
        (hear instant hins).2 e' (List.mem_cons_of_mem e he')⟩
    have hs' := log.valid_next s e hs
    rw [admitted]
    by_cases hstretch : stretch (log.time e) = true
    · have hfr : ∀ instant ∈ earlier, log.time e - instant < log.window := by
        intro instant hins
        obtain ⟨hin, hle⟩ := hear instant hins
        exact hspan instant (log.time e) (hle e List.mem_cons_self) hin hstretch
      obtain ⟨hkept, hadmitted⟩ := records_step hs (hfor e List.mem_cons_self hstretch)
        (hrecd e List.mem_cons_self hstretch) hfr
      by_cases hadm : log.admits s e = true
      · obtain ⟨hlt, hrecd'⟩ := hadmitted hadm
        rw [hstretch, hadm, Bool.and_self, if_pos rfl, List.append_cons]
        refine ih hodd hfor' hs' ?_ ?_ fun _ _ _ => hrecd'
        · rw [List.length_append, List.length_singleton]
          omega
        · intro instant hins
          obtain hins | hins := List.mem_append.mp hins
          · exact hear' instant hins
          · rw [List.mem_singleton.mp hins]
            exact ⟨hstretch, hfirst⟩
      · rw [if_neg (by simp [hadm])]
        exact ih hodd hfor' hs' hmax hear' fun _ _ _ => hkept
    · rw [if_neg (by simp [hstretch])]
      refine ih hodd hfor' hs' hmax hear' fun e' he' hstretch' => ?_
      -- A stretch that this step interrupts has not begun yet.
      cases earlier with
      | nil => exact List.nil_sublist _
      | cons instant earlier =>
        obtain ⟨hin, hle⟩ := hear instant List.mem_cons_self
        exact absurd (hconvex _ _ _ (hle e List.mem_cons_self) (hfirst e' he') hin hstretch')
          hstretch

/-- No stretch that is shorter than the window sees more than `max` admissions. -/
theorem length_admitted_le (hconvex : ∀ a b c, a ≤ b → b ≤ c → stretch a = true →
      stretch c = true → stretch b = true)
    (hspan : ∀ a b, a ≤ b → stretch a = true → stretch b = true → b - a < log.window)
    {events : List E} (hodd : events.Pairwise fun e e' => log.time e ≤ log.time e')
    (hfor : ∀ e ∈ events, stretch (log.time e) = true → log.forgets e = false)
    {s : S} (hs : log.valid s) : (log.admitted stretch s events).length ≤ log.max := by
  have hmax : ([] : List ℕ).length ≤ log.max := Nat.zero_le log.max
  exact length_admitted_from hconvex hspan hodd hfor hs hmax
    (fun _ h => absurd h List.not_mem_nil) fun _ _ _ => List.nil_sublist _

end WindowedLog

end VaultLink
