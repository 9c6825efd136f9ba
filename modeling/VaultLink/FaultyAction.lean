import Mathlib.Data.List.Forall2
import Mathlib.Logic.Function.Basic

/-!
# Actions that may fail or crash

An action reads an environment, changes a state and ends with a value, with an error or in
a crash. Errors can be caught, crashes cannot: they end whatever was going on. `Meets` is
the weakest precondition for three postconditions, one for each way to end; its rules follow
the combinators, so that a proof about an action walks along its text. Code without effects is
written in `Except`; its rules stand at the end.
-/
namespace VaultLink

/-- How an action ends, with the state it leaves behind. -/
inductive Outcome (σ ε α : Type)
  | ok (value : α) (state : σ)
  | err (error : ε) (state : σ)
  | crash (state : σ)

/-- The way it ended satisfies its postcondition. -/
def Outcome.Ends {σ ε α : Type} (Q : α → σ → Prop) (E : ε → σ → Prop) (C : σ → Prop) :
    Outcome σ ε α → Prop
  | .ok value state => Q value state
  | .err error state => E error state
  | .crash state => C state

/-- The state that is left behind. -/
def Outcome.state {σ ε α : Type} : Outcome σ ε α → σ
  | .ok _ state | .err _ state | .crash state => state

def Outcome.isOk {σ ε α : Type} : Outcome σ ε α → Bool
  | .ok _ _ => true
  | _ => false

def Action (ρ σ ε α : Type) : Type := ρ → σ → Outcome σ ε α

namespace Action

variable {ρ σ ε ε' α β : Type}

protected def pure (value : α) : Action ρ σ ε α := fun _ s => .ok value s

protected def bind (m : Action ρ σ ε α) (next : α → Action ρ σ ε β) : Action ρ σ ε β :=
  fun env s =>
    match m env s with
    | .ok value s' => next value env s'
    | .err error s' => .err error s'
    | .crash s' => .crash s'

instance : Monad (Action ρ σ ε) where
  pure := Action.pure
  bind := Action.bind

def fail (error : ε) : Action ρ σ ε α := fun _ s => .err error s

/-- Turns an error into a value. -/
def attempt (m : Action ρ σ ε α) : Action ρ σ ε' (Except ε α) := fun env s =>
  match m env s with
  | .ok value s' => .ok (.ok value) s'
  | .err error s' => .ok (.error error) s'
  | .crash s' => .crash s'

def mapError (f : ε → ε') (m : Action ρ σ ε α) : Action ρ σ ε' α := fun env s =>
  match m env s with
  | .ok value s' => .ok value s'
  | .err error s' => .err (f error) s'
  | .crash s' => .crash s'

/-- The value of a result, or its error. -/
def ofExcept : Except ε α → Action ρ σ ε α
  | .ok value => pure value
  | .error error => fail error

/-- Runs the body on each element in turn. -/
def each {ι : Type} (body : ι → Action ρ σ ε Unit) : List ι → Action ρ σ ε Unit
  | [] => pure ()
  | i :: rest => do
    body i
    each body rest

section Meets

/-- From the state `s` the action ends in `Q` with a value, in `E` with an error, in `C`
with a crash. -/
def Meets (m : Action ρ σ ε α) (env : ρ) (s : σ) (Q : α → σ → Prop) (E : ε → σ → Prop)
    (C : σ → Prop) : Prop :=
  (m env s).Ends Q E C

variable {m : Action ρ σ ε α} {env : ρ} {s : σ} {Q Q' : α → σ → Prop} {E E' : ε → σ → Prop}
  {C C' : σ → Prop}

theorem Meets.mono (h : Meets m env s Q E C) (hQ : ∀ a t, Q a t → Q' a t)
    (hE : ∀ e t, E e t → E' e t) (hC : ∀ t, C t → C' t) : Meets m env s Q' E' C' := by
  unfold Meets at h ⊢
  cases hout : m env s <;> rw [hout] at h
  · exact hQ _ _ h
  · exact hE _ _ h
  · exact hC _ h

theorem Meets.weaken (h : Meets m env s Q E C) (hQ : ∀ a t, Q a t → Q' a t)
    (hE : ∀ e t, E e t → E' e t) : Meets m env s Q' E' C :=
  h.mono hQ hE fun _ h => h

/-- What holds however the action ends, holds of the state it leaves. -/
theorem Meets.state (h : Meets m env s Q E C) {P : σ → Prop} (hQ : ∀ a t, Q a t → P t)
    (hE : ∀ e t, E e t → P t) (hC : ∀ t, C t → P t) : P (m env s).state := by
  unfold Meets at h
  cases hout : m env s <;> rw [hout] at h
  · exact hQ _ _ h
  · exact hE _ _ h
  · exact hC _ h

theorem Meets.ok (h : Meets m env s Q E C) {a : α} {t : σ} (hok : m env s = .ok a t) : Q a t := by
  unfold Meets at h
  rwa [hok] at h

@[simp] theorem meets_bind {next : α → Action ρ σ ε β} {R : β → σ → Prop} :
    Meets (m >>= next) env s R E C ↔
      Meets m env s (fun a t => Meets (next a) env t R E C) E C := by
  show Meets (Action.bind m next) env s R E C ↔ _
  unfold Meets Action.bind
  cases m env s <;> rfl

@[simp] theorem meets_attempt {R : Except ε α → σ → Prop} {F : ε' → σ → Prop} :
    Meets (attempt m : Action ρ σ ε' _) env s R F C ↔
      Meets m env s (fun a => R (.ok a)) (fun e => R (.error e)) C := by
  unfold Meets attempt
  cases m env s <;> rfl

@[simp] theorem meets_mapError {f : ε → ε'} {F : ε' → σ → Prop} :
    Meets (mapError f m) env s Q F C ↔ Meets m env s Q (fun e => F (f e)) C := by
  unfold Meets mapError
  cases m env s <;> rfl

/-- One action after the other. -/
theorem Meets.bind {next : α → Action ρ σ ε β} {R : β → σ → Prop} (h : Meets m env s Q E C)
    (hQ : ∀ a t, Q a t → Meets (next a) env t R E' C) (hE : ∀ e t, E e t → E' e t) :
    Meets (m >>= next) env s R E' C :=
  meets_bind.mpr (h.weaken hQ hE)

/-- After an action that cannot fail. -/
theorem Meets.andThen {next : α → Action ρ σ ε β} {R : β → σ → Prop}
    (h : Meets m env s Q (fun _ _ => False) C)
    (hQ : ∀ a t, Q a t → Meets (next a) env t R E C) : Meets (m >>= next) env s R E C :=
  h.bind hQ fun _ _ h => h.elim

theorem Meets.attempt {next : Except ε α → Action ρ σ ε' β} {R : β → σ → Prop}
    {F : ε' → σ → Prop} (h : Meets m env s Q E C)
    (hQ : ∀ a t, Q a t → Meets (next (.ok a)) env t R F C)
    (hE : ∀ e t, E e t → Meets (next (.error e)) env t R F C) :
    Meets (Action.attempt m >>= next) env s R F C :=
  meets_bind.mpr (meets_attempt.mpr (h.weaken hQ hE))

theorem Meets.mapError {f : ε → ε'} {F : ε' → σ → Prop} (h : Meets m env s Q E C)
    (hE : ∀ e t, E e t → F (f e) t) : Meets (Action.mapError f m) env s Q F C :=
  meets_mapError.mpr (h.weaken (fun _ _ h => h) hE)

theorem Meets.mapBind {f : ε → ε'} {next : α → Action ρ σ ε' β} {R : β → σ → Prop}
    {F : ε' → σ → Prop} (h : Meets m env s Q E C)
    (hQ : ∀ a t, Q a t → Meets (next a) env t R F C) (hE : ∀ e t, E e t → F (f e) t) :
    Meets (Action.mapError f m >>= next) env s R F C :=
  (h.mapError hE).bind hQ fun _ _ h => h

/-- A check changes nothing, and what follows has passed it. -/
theorem Meets.ofExcept {result : Except ε α} {next : α → Action ρ σ ε β} {R : β → σ → Prop}
    (hok : ∀ a, result = .ok a → Meets (next a) env s R E C) (herr : ∀ e, E e s) :
    Meets (Action.ofExcept result >>= next) env s R E C := by
  cases result with
  | ok a => exact hok a rfl
  | error e => exact herr e

theorem Meets.ofOk {result : Except ε α} {a : α} {next : α → Action ρ σ ε β} {R : β → σ → Prop}
    (hres : result = .ok a) (h : Meets (next a) env s R E C) :
    Meets (Action.ofExcept result >>= next) env s R E C := by
  subst hres
  exact h

end Meets

section Maintains

/-- However the action ends, `I` holds; where it succeeds, `Q` holds as well. -/
def Maintains (I : σ → Prop) (m : Action ρ σ ε α) (env : ρ) (s : σ) (Q : α → σ → Prop) : Prop :=
  Meets m env s (fun a t => I t ∧ Q a t) (fun _ => I) I

variable {I J : σ → Prop} {m : Action ρ σ ε α} {env : ρ} {s : σ} {Q Q' : α → σ → Prop}
  {next : α → Action ρ σ ε β} {R : β → σ → Prop}

namespace Maintains

theorem bind (h : Maintains I m env s Q)
    (hnext : ∀ a t, I t → Q a t → Maintains I (next a) env t R) :
    Maintains I (m >>= next) env s R :=
  meets_bind.mpr (Meets.mono h (fun a t ht => hnext a t ht.1 ht.2) (fun _ _ h => h) fun _ h => h)

theorem mono (h : Maintains I m env s Q) (hQ : ∀ a t, I t → Q a t → Q' a t) :
    Maintains I m env s Q' :=
  Meets.mono h (fun a t ht => ⟨ht.1, hQ a t ht.1 ht.2⟩) (fun _ _ h => h) fun _ h => h

/-- A stronger invariant on the way gives the weaker one, and holds in the end. -/
theorem weaken (h : Maintains I m env s Q) (hI : ∀ t, I t → J t) :
    Maintains J m env s fun a t => I t ∧ Q a t :=
  Meets.mono h (fun _ t ht => ⟨hI t ht.1, ht⟩) (fun _ t ht => hI t ht) fun t ht => hI t ht

theorem ofExcept {result : Except ε α} (hI : I s) :
    Maintains I (Action.ofExcept result : Action ρ σ ε α) env s
      fun a t => t = s ∧ result = .ok a := by
  cases result with
  | error e => exact hI
  | ok a => exact ⟨hI, rfl, rfl⟩

theorem attempt (h : Maintains I m env s Q) :
    Maintains I (Action.attempt m : Action ρ σ ε' (Except ε α)) env s
      fun result t => ∀ a, result = .ok a → Q a t := by
  refine meets_attempt.mpr (Meets.mono h ?_ (fun e t ht => ⟨ht, ?_⟩) fun _ h => h)
  · rintro a t ⟨ht, hQ⟩
    refine ⟨ht, ?_⟩
    rintro _ ⟨⟩
    exact hQ
  · rintro a ⟨⟩

theorem mapError {f : ε → ε'} (h : Maintains I m env s Q) :
    Maintains I (Action.mapError f m) env s Q :=
  meets_mapError.mpr h

/-- What `I` says holds however the action ends. -/
theorem meets (h : Maintains I m env s Q) (hI : ∀ t, I t → J t) :
    Meets m env s (fun _ => I) (fun _ => I) J :=
  Meets.mono h (fun _ _ h => h.1) (fun _ _ h => h) hI

theorem state (h : Maintains I m env s Q) : I (m env s).state :=
  Meets.state h (fun _ _ h => h.1) (fun _ _ h => h) fun _ h => h

end Maintains

end Maintains

end Action

section Passes

variable {α β σ τ ε δ : Type}

theorem except_bind_eq_ok {x : Except ε α} {f : α → Except ε β} {b : β} :
    (x >>= f) = .ok b ↔ ∃ a, x = .ok a ∧ f a = .ok b := by
  cases x <;> simp [bind, Except.bind]

theorem mapError_eq_ok {x : Except ε α} {f : ε → δ} {a : α} :
    x.mapError f = .ok a ↔ x = .ok a := by
  cases x <;> simp [Except.mapError]

/-- A pass over some inputs is followed, step by step, by another over similar ones. -/
theorem foldlM_follows {R : σ → τ → Prop} {S : α → β → Prop} {f : σ → α → Except ε σ}
    {g : τ → β → Except δ τ} {as : List α} {bs : List β} (hsame : List.Forall₂ S as bs)
    (hstep : ∀ s t a b s', a ∈ as → S a b → R s t → f s a = .ok s' →
      ∃ t', g t b = .ok t' ∧ R s' t')
    {s s' : σ} {t : τ} (hR : R s t) (h : as.foldlM f s = .ok s') :
    ∃ t', bs.foldlM g t = .ok t' ∧ R s' t' := by
  induction hsame generalizing s t with
  | nil =>
    cases h
    exact ⟨t, rfl, hR⟩
  | cons hab hrest ih =>
    rw [List.foldlM_cons, except_bind_eq_ok] at h
    obtain ⟨s₁, hs₁, h⟩ := h
    obtain ⟨t₁, ht₁, hR₁⟩ := hstep s t _ _ s₁ List.mem_cons_self hab hR hs₁
    obtain ⟨t', ht', hR'⟩ := ih
      (fun s t a b s' hmem => hstep s t a b s' (List.mem_cons_of_mem _ hmem)) hR₁ h
    refine ⟨t', ?_, hR'⟩
    rw [List.foldlM_cons, except_bind_eq_ok]
    exact ⟨t₁, ht₁, ht'⟩

/-- What a step makes of its element and no step takes back, holds in the end. -/
theorem foldlM_establishes {ι : Type} {P : ι → σ → Prop} {S : α → ι → Prop}
    {f : σ → α → Except ε σ} (hstep : ∀ s a i s', f s a = .ok s' → S a i → P i s')
    (hkeep : ∀ s a i s', f s a = .ok s' → P i s → P i s') {as : List α} {s s' : σ}
    (h : as.foldlM f s = .ok s') {i : ι} (hi : P i s ∨ ∃ a ∈ as, S a i) : P i s' := by
  induction as generalizing s with
  | nil =>
    cases h
    simpa using hi
  | cons a as ih =>
    rw [List.foldlM_cons, except_bind_eq_ok] at h
    obtain ⟨s₁, hs₁, h⟩ := h
    refine ih h ?_
    obtain hi | ⟨b, hb, hi⟩ := hi
    · exact .inl (hkeep s a i s₁ hs₁ hi)
    · obtain rfl | hb := List.mem_cons.mp hb
      · exact .inl (hstep s b i s₁ hs₁ hi)
      · exact .inr ⟨b, hb, hi⟩

end Passes

end VaultLink
