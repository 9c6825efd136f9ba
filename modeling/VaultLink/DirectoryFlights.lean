import VaultLink.Histories

/-!
# Loads of directory snapshots

A call that misses the cache takes the flight registered for its key, or registers a new one,
and loads while it holds the flight's lock. The registry keeps only a weak reference. It is
cleared by the call that has loaded, and by the last owner of a flight when it leaves. Whoever
still waits for the flight then loads under a lock that later calls do not know.
-/
namespace VaultLink

open History

section Model

/-- Where a call of `get_or_try_load` stands after its first lookup has missed. -/
inductive FlightPhase
  | waiting
  /-- It holds the lock and looks up again. -/
  | checking
  | loading
  /-- The loader has ended; `remove_flight` comes next. -/
  | loaded
  /-- The guard of the lock is dropped next. -/
  | leaving
  /-- `FlightRegistration::drop` reads the strong count. -/
  | dropping
  /-- It has seen no other owner. -/
  | unregistering
  /-- Only its reference to the flight is left. -/
  | closing
  | gone
deriving DecidableEq

inductive FlightStep
  | lock
  | hit
  | miss
  /-- The loader succeeds, and what it has loaded is stored, or it fails. -/
  | finish
  | remove
  | cancel
  | release
  /-- The strong count is above one. -/
  | seeOthers
  | seeNone
  | unregister
  | free
deriving DecidableEq

def FlightPhase.after : FlightPhase → FlightStep → Option FlightPhase
  | .waiting, .lock => some .checking
  | .waiting, .cancel => some .dropping
  | .checking, .hit => some .leaving
  | .checking, .miss => some .loading
  | .loading, .finish => some .loaded
  | .loading, .cancel => some .leaving
  | .loaded, .remove => some .leaving
  | .leaving, .release => some .dropping
  | .dropping, .seeOthers => some .closing
  | .dropping, .seeNone => some .unregistering
  | .unregistering, .unregister => some .closing
  | .closing, .free => some .gone
  | _, _ => none

def FlightPhase.locks : FlightPhase → Bool
  | .checking | .loading | .loaded | .leaving => true
  | _ => false

/-- `remove_flight` and the end of `FlightRegistration::drop`. -/
def FlightStep.unregisters : FlightStep → Bool
  | .remove | .unregister => true
  | _ => false

structure FlightCall (κ : Type) where
  key : κ
  flight : ℕ
  phase : FlightPhase

/-- The registered flights, how many have been made, and the calls in the order they came. -/
structure FlightState (κ : Type) where
  flights : κ → Option ℕ
  made : ℕ
  calls : List (FlightCall κ)

def FlightState.initial {κ : Type} : FlightState κ := ⟨fun _ => none, 0, []⟩

inductive FlightEvent (κ : Type)
  | join (key : κ)
  | move (i : ℕ) (step : FlightStep)

namespace FlightState

variable {κ : Type} [DecidableEq κ] (s : FlightState κ)

/-- `flight`: a registered flight can be upgraded while a call owns it. -/
def flight (key : κ) : Option ℕ :=
  (s.flights key).filter fun flight =>
    s.calls.any fun call => call.flight = flight && call.phase ≠ .gone

/-- Another call than `i` that satisfies `p` has the flight. -/
def shared (i flight : ℕ) (p : FlightPhase → Bool) : Bool :=
  s.calls.zipIdx.any fun (call, j) => j ≠ i && call.flight = flight && p call.phase

/-- A lock is taken when it is free. The strong count is above one when another call owns the
flight, and for a moment also because of an upgrade. -/
def allows (i : ℕ) (call : FlightCall κ) : FlightStep → Bool
  | .lock => !s.shared i call.flight FlightPhase.locks
  | .seeNone => !s.shared i call.flight (· ≠ .gone)
  | _ => true

def step : FlightEvent κ → FlightState κ
  | .join key =>
    match s.flight key with
    | some flight => { s with calls := s.calls ++ [⟨key, flight, .waiting⟩] }
    | none =>
      { flights := Function.update s.flights key (some s.made)
        made := s.made + 1
        calls := s.calls ++ [⟨key, s.made, .waiting⟩] }
  | .move i m =>
    match s.calls[i]? with
    | none => s
    | some call =>
      match call.phase.after m with
      | none => s
      | some phase =>
        if s.allows i call m then
          { s with
            flights := if m.unregisters && s.flights call.key = some call.flight
              then Function.update s.flights call.key none else s.flights
            calls := s.calls.set i { call with phase } }
        else s

/-- A call loads under the flight that is registered, and none is unregistered while another call
loads under it. -/
def Undisturbed (s : FlightState κ) : FlightEvent κ → Prop
  | .join _ => True
  | .move i m => ∀ call ∈ s.calls[i]?,
    (m = .miss → s.flights call.key = some call.flight) ∧
      (m.unregisters = true → s.shared i call.flight (· = .loading) = false)

instance (e : FlightEvent κ) : Decidable (s.Undisturbed e) := by
  cases e <;> unfold Undisturbed <;> infer_instance

/-- At most one loader runs for a key. -/
def OneLoader (s : FlightState κ) : Prop :=
  ∀ (i j : ℕ) (c d : FlightCall κ), s.calls[i]? = some c → s.calls[j]? = some d →
    c.phase = .loading → d.phase = .loading → c.key = d.key → i = j

end FlightState

end Model

section Safety

variable {κ : Type} {s : FlightState κ}

theorem FlightPhase.miss_of_after {p : FlightPhase} {m : FlightStep}
    (h : p.after m = some .loading) : m = .miss := by
  cases p <;> cases m <;> cases h
  rfl

theorem FlightPhase.locks_of_after {p q : FlightPhase} {m : FlightStep} (h : p.after m = some q)
    (hq : q.locks = true) : p.locks = true ∨ m = .lock := by
  cases p <;> cases m <;> cases h <;> simp_all [locks]

namespace FlightState

theorem shared_eq_false {i flight : ℕ} {p : FlightPhase → Bool} :
    s.shared i flight p = false ↔ ∀ (j : ℕ) d, s.calls[j]? = some d → j ≠ i → d.flight = flight →
      p d.phase = false := by
  simp only [shared, List.any_eq_false, Prod.forall, List.mem_zipIdx_iff_getElem?,
    Bool.and_eq_true, decide_eq_true_eq, not_and, Bool.not_eq_true, and_imp]
  exact ⟨fun h j d => h d j, fun h d j => h j d⟩

/-- A call that loads has the flight that is registered, and a lock has one holder. -/
structure Orderly (s : FlightState κ) : Prop where
  registered : ∀ (i : ℕ) (c : FlightCall κ), s.calls[i]? = some c → c.phase = .loading →
    s.flights c.key = some c.flight
  exclusive : ∀ (i j : ℕ) (c d : FlightCall κ), s.calls[i]? = some c → s.calls[j]? = some d →
    c.flight = d.flight → c.phase.locks = true → d.phase.locks = true → i = j

theorem Orderly.oneLoader (h : s.Orderly) : s.OneLoader := by
  intro i j c d hc hd hp hq hk
  have hf := h.registered i c hc hp
  have hg := h.registered j d hd hq
  rw [hk, hg] at hf
  exact h.exclusive i j c d hc hd (Option.some.inj hf).symm (by simp [hp, FlightPhase.locks])
    (by simp [hq, FlightPhase.locks])

variable [DecidableEq κ]

theorem Orderly.join (h : s.Orderly) (key : κ) : (s.step (.join key)).Orderly := by
  -- Every call is an earlier one or the new one, which waits.
  have hcall : ∀ (flight i : ℕ) c, (s.calls ++ [⟨key, flight, .waiting⟩])[i]? = some c →
      s.calls[i]? = some c ∨ c = ⟨key, flight, .waiting⟩ := by
    intro flight i c hc
    rw [List.getElem?_append] at hc
    split at hc
    · exact .inl hc
    · exact .inr (List.mem_singleton.mp (List.mem_of_getElem? hc))
  have hexclusive : ∀ (flight i j : ℕ) c d, (s.calls ++ [⟨key, flight, .waiting⟩])[i]? = some c →
      (s.calls ++ [⟨key, flight, .waiting⟩])[j]? = some d → c.flight = d.flight →
      c.phase.locks = true → d.phase.locks = true → i = j := by
    intro flight i j c d hc hd hf hl hl'
    obtain hc | rfl := hcall flight i c hc
    · obtain hd | rfl := hcall flight j d hd
      · exact h.exclusive i j c d hc hd hf hl hl'
      · cases hl'
    · cases hl
  rw [step]
  split
  · rename_i flight _
    refine ⟨fun i c hc hp => ?_, hexclusive flight⟩
    obtain hc | rfl := hcall flight i c hc
    · exact h.registered i c hc hp
    · cases hp
  · rename_i hnone
    refine ⟨fun i c hc hp => ?_, hexclusive s.made⟩
    obtain hc | rfl := hcall s.made i c hc
    · have hr := h.registered i c hc hp
      -- A call of that key that loads keeps its flight alive.
      have hkey : c.key ≠ key := by
        intro hk
        simp only [flight, ← hk, hr, Option.filter_eq_none_iff] at hnone
        exact hnone _ rfl (List.any_eq_true.mpr ⟨c, List.mem_of_getElem? hc, by simp [hp]⟩)
      exact (Function.update_of_ne hkey _ _).trans hr
    · cases hp

theorem Orderly.move (h : s.Orderly) {i : ℕ} {m : FlightStep} (hu : s.Undisturbed (.move i m)) :
    (s.step (.move i m)).Orderly := by
  rw [step]
  split
  · exact h
  rename_i call hcall
  split
  · exact h
  rename_i phase hphase
  split
  swap
  · exact h
  rename_i hallows
  have hset : ∀ (j : ℕ) c, (s.calls.set i { call with phase })[j]? = some c →
      j = i ∧ c = { call with phase } ∨ j ≠ i ∧ s.calls[j]? = some c := by
    intro j c hc
    rw [List.getElem?_set] at hc
    split_ifs at hc with hij hlt
    · exact .inl ⟨hij.symm, (Option.some.inj hc).symm⟩
    · exact .inr ⟨fun h => hij h.symm, hc⟩
  -- The lock was free, or its holder is the call itself.
  have hother : phase.locks = true → ∀ (j : ℕ) d, s.calls[j]? = some d → j ≠ i →
      d.flight = call.flight → d.phase.locks = false := by
    intro hl j d hd hj hf
    obtain hl | rfl := FlightPhase.locks_of_after hphase hl
    · by_contra hd'
      exact hj (h.exclusive j i d call hd hcall hf (by simpa using hd') hl)
    · exact shared_eq_false.mp (by simpa [allows] using hallows) j d hd hj hf
  constructor
  · intro j c hc hp
    obtain ⟨rfl, rfl⟩ | ⟨hj, hc⟩ := hset j c hc
    · dsimp only at hp
      subst hp
      obtain rfl := FlightPhase.miss_of_after hphase
      exact (hu call hcall).1 rfl
    · have hr := h.registered j c hc hp
      dsimp only
      split
      · rename_i hm
        simp only [Bool.and_eq_true, decide_eq_true_eq] at hm
        have hkey : c.key ≠ call.key := by
          intro hk
          have hf : c.flight = call.flight := Option.some.inj (hr.symm.trans (hk ▸ hm.2))
          have hfree := shared_eq_false.mp ((hu call hcall).2 hm.1) j c hc hj hf
          simp [hp] at hfree
        exact (Function.update_of_ne hkey _ _).trans hr
      · exact hr
  · intro j k c d hc hd hf hl hl'
    obtain ⟨rfl, rfl⟩ | ⟨hj, hc'⟩ := hset j c hc <;> obtain ⟨rfl, rfl⟩ | ⟨hk, hd'⟩ := hset k d hd
    · rfl
    · simp [hother hl k d hd' hk hf.symm] at hl'
    · simp [hother hl' j c hc' hj hf] at hl
    · exact h.exclusive j k c d hc' hd' hf hl hl'

end FlightState

/-- In a run in which calls load under the registered flight, and no flight is unregistered while
another call loads under it, at most one loader runs for a key at any moment. -/
theorem flights_load_once {κ : Type} [DecidableEq κ] (events : List (FlightEvent κ))
    (h : Throughout FlightState.step FlightState.Undisturbed .initial events) :
    (state FlightState.step .initial events).OneLoader := by
  have hinit : (FlightState.initial : FlightState κ).Orderly :=
    ⟨by simp [FlightState.initial], by simp [FlightState.initial]⟩
  refine (h.invariant (P := FlightState.Orderly) (fun s e he hs => ?_) hinit).oneLoader
  cases e with
  | join key => exact hs.join key
  | move i m => exact hs.move he

/-- Two calls share a flight; the second waits for the first to load, and then finds what it has
loaded. -/
theorem flights_load_once_coalesced : (state FlightState.step (FlightState.initial : FlightState ℕ)
      [.join 7, .join 7, .move 0 .lock, .move 0 .miss, .move 0 .finish, .move 0 .remove,
        .move 0 .release, .move 1 .lock, .move 1 .hit]).OneLoader :=
  flights_load_once _ (by decide)

/-- The loader of the first call fails while the second waits; the second then loads under the
flight that the first has unregistered, and a third call under a new one. -/
theorem unregistered_flight_loads_twice :
    let s := state FlightState.step (FlightState.initial : FlightState ℕ)
      [.join 7, .join 7, .move 0 .lock, .move 0 .miss, .move 0 .finish, .move 0 .remove,
        .move 0 .release, .move 1 .lock, .move 1 .miss, .join 7, .move 2 .lock, .move 2 .miss]
    s.calls[1]? = some ⟨7, 0, .loading⟩ ∧ s.calls[2]? = some ⟨7, 1, .loading⟩ ∧ ¬s.OneLoader := by
  intro s
  have h1 : s.calls[1]? = some ⟨7, 0, .loading⟩ := rfl
  have h2 : s.calls[2]? = some ⟨7, 1, .loading⟩ := rfl
  exact ⟨h1, h2, fun h => absurd (h 1 2 _ _ h1 h2 rfl rfl rfl) (by decide)⟩

end Safety

end VaultLink
