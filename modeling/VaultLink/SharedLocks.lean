import Mathlib.Data.Fintype.Basic
import Mathlib.Logic.Function.Basic

/-!
# Locks held shared or exclusively

A lock that any number of parties may hold in shared mode, or one party alone in exclusive
mode. What each party holds is a function, so that a system derives it from the states of
its parties. A request that is granted only where nobody is in its way keeps exclusive
holders alone, and giving a lock up never hurts; nothing is assumed about the order in which
waiting requests are granted.
-/
namespace VaultLink

open Function

inductive LockMode
  | shared
  | exclusive
deriving DecidableEq

namespace LockMode

variable {ι : Type} {held : ι → Option LockMode} {p : ι} {mode : LockMode}

/-- Whoever holds the lock exclusively holds it alone. -/
def Exclusion (held : ι → Option LockMode) : Prop :=
  ∀ p, held p = some exclusive → ∀ q, q ≠ p → held q = none

/-- Nobody else is in the way of the request of `p`. -/
def Grantable (held : ι → Option LockMode) (p : ι) : LockMode → Prop
  | shared => ∀ q, q ≠ p → held q ≠ some exclusive
  | exclusive => ∀ q, q ≠ p → held q = none

instance [Fintype ι] [DecidableEq ι] : Decidable (Grantable held p mode) :=
  match mode with
  | shared => inferInstanceAs (Decidable (∀ q, q ≠ p → held q ≠ some exclusive))
  | exclusive => inferInstanceAs (Decidable (∀ q, q ≠ p → held q = none))

variable [DecidableEq ι]

theorem Exclusion.release (h : Exclusion held) (p : ι) :
    Exclusion (update held p none) := by
  intro r hr q hq
  by_cases hqp : q = p
  · rw [hqp, update_self]
  · have hrp : r ≠ p := by
      rintro rfl
      rw [update_self] at hr
      cases hr
    rw [update_of_ne hrp] at hr
    rw [update_of_ne hqp]
    exact h r hr q hq

theorem Exclusion.grant (h : Exclusion held) (hgr : Grantable held p mode) :
    Exclusion (update held p (some mode)) := by
  intro r hr q hq
  by_cases hrp : r = p
  · subst hrp
    rw [update_self, Option.some.injEq] at hr
    subst hr
    rw [update_of_ne hq]
    exact hgr q hq
  · rw [update_of_ne hrp] at hr
    have hfree : p = q → False := by
      rintro rfl
      -- An exclusive holder other than `p` is in the way of both kinds of request.
      cases mode with
      | shared => exact hgr r hrp hr
      | exclusive =>
        have hnone := hgr r hrp
        rw [hr] at hnone
        cases hnone
    rw [update_of_ne (Ne.symm hfree)]
    exact h r hr q hq

end LockMode

end VaultLink
