import Mathlib.Data.List.Basic
import Mathlib.Data.List.TakeWhile

/-!
# Self-delimiting codes

A code is unambiguous when what follows a code word never matters for reading it. Texts that
are put together from such code words can be taken apart again, so that different values give
different texts.
-/
namespace VaultLink

namespace Code

variable {α β : Type} {code : α → List β} {stop : β}

/-- A code word is determined by any text that begins with it. -/
def Unambiguous (code : α → List β) : Prop :=
  ∀ ⦃a b x y⦄, code a ++ x = code b ++ y → a = b ∧ x = y

theorem Unambiguous.of_decoder (decode : List β → Option (α × List β))
    (h : ∀ a x, decode (code a ++ x) = some (a, x)) : Unambiguous code := by
  intro a b x y heq
  have hdecoded : some (a, x) = some (b, y) := by rw [← h, heq, h]
  simpa using hdecoded

/-- Code words one after another, up to an element that begins none of them. -/
theorem Unambiguous.flatMap_concat (h : Unambiguous code)
    (hstop : ∀ a x y, code a ++ x ≠ stop :: y) :
    Unambiguous fun word : List α => word.flatMap code ++ [stop] := by
  intro first
  induction first with
  | nil =>
    intro second x y heq
    cases second with
    | nil => simpa using heq
    | cons b second =>
      simp only [List.flatMap_nil, List.flatMap_cons, List.append_assoc, List.nil_append,
        List.singleton_append] at heq
      exact absurd heq.symm (hstop b _ _)
  | cons a first ih =>
    intro second x y heq
    cases second with
    | nil =>
      simp only [List.flatMap_nil, List.flatMap_cons, List.append_assoc, List.nil_append,
        List.singleton_append] at heq
      exact absurd heq (hstop a _ _)
    | cons b second =>
      simp only [List.flatMap_cons, List.append_assoc] at heq
      obtain ⟨rfl, hrest⟩ := h heq
      obtain ⟨rfl, haft⟩ := ih (by simpa using hrest)
      exact ⟨rfl, haft⟩

/-- Code words of elements of one sort, up to an element of another. -/
theorem unambiguous_concat (p : β → Bool) (hcode : ∀ a, ∀ b ∈ code a, p b) (hstop : ¬p stop)
    (hinjective : Function.Injective code) : Unambiguous fun a => code a ++ [stop] := by
  have hword : ∀ a x, (code a ++ [stop] ++ x).takeWhile p = code a := by
    intro a x
    rw [List.append_assoc, List.takeWhile_append_of_pos (hcode a), List.singleton_append,
      List.takeWhile_cons_of_neg hstop, List.append_nil]
  intro a b x y heq
  have hab : a = b := hinjective (by rw [← hword a x, heq, hword])
  subst hab
  exact ⟨rfl, List.append_cancel_left heq⟩

end Code

end VaultLink
