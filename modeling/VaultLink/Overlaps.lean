import Mathlib.Data.List.Infix

/-!
# Overlaps of a pattern with the end of a text

A search that reads its text once keeps the length of the longest prefix of the pattern that
ends the text read so far. This module says how that length changes with the next element,
in terms of the overlaps of the pattern with itself, and what the first occurrence of a
pattern in a text is.
-/
namespace VaultLink

namespace Overlap

variable {α : Type} {P T : List α} {k m r b bound : ℕ} {c : α}

section Ends

theorem take_succ_suffix_concat (hk : k < P.length) :
    P.take (k + 1) <:+ T ++ [c] ↔ P.take k <:+ T ∧ P[k]? = some c := by
  rw [List.take_add_one, List.getElem?_eq_getElem hk, Option.toList_some,
    List.suffix_concat_iff]
  constructor
  · rintro (hnil | ⟨t, ht, hsuf⟩)
    · cases (List.append_eq_nil_iff.mp hnil).2
    · obtain ⟨rfl, hc⟩ := List.append_inj' ht rfl
      exact ⟨hsuf, by simpa using hc⟩
  · rintro ⟨hsuf, hc⟩
    have hlast : P[k] = c := by simpa using hc
    exact .inr ⟨P.take k, by rw [hlast], hsuf⟩

/-- Shorter overlaps with the text are overlaps with a longer one. -/
theorem take_suffix_iff (hm : P.take m <:+ T) (hkm : k ≤ m) :
    P.take k <:+ T ↔ P.take k <:+ P.take m := by
  constructor
  · intro hk
    refine List.suffix_of_suffix_length_le hk hm ?_
    rw [List.length_take, List.length_take]
    omega
  · exact fun hk => hk.trans hm

end Ends

/-- The longest prefix of the pattern, among those of length at most `bound`, that ends the
text. -/
structure Longest (P T : List α) (bound m : ℕ) : Prop where
  le : m ≤ bound
  ends : P.take m <:+ T
  max : ∀ k ≤ bound, P.take k <:+ T → k ≤ m

/-- `r` is the longest overlap up to `m` that `c` continues, or zero. -/
structure Falls (P T : List α) (c : α) (m r : ℕ) : Prop where
  le : r ≤ m
  ends : P.take r <:+ T
  stop : r = 0 ∨ P[r]? = some c
  skipped : ∀ k, r < k → k ≤ m → P.take k <:+ T → P[k]? ≠ some c

section Search

theorem Falls.here (hends : P.take m <:+ T) (hstop : m = 0 ∨ P[m]? = some c) :
    Falls P T c m m where
  le := le_rfl
  ends := hends
  stop := hstop
  skipped k hlt hle := absurd hle (by omega)

/-- An overlap that is not continued is given up for the next shorter one. -/
theorem Falls.back (hends : P.take m <:+ T) (hm : 0 < m) (hne : P[m]? ≠ some c)
    (hb : Longest P (P.take m) (m - 1) b) (h : Falls P T c b r) : Falls P T c m r where
  le := by
    have := h.le
    have := hb.le
    omega
  ends := h.ends
  stop := h.stop
  skipped k hlt hle hk := by
    by_cases hkm : k = m
    · rwa [hkm]
    · have hborder : P.take k <:+ P.take m := (take_suffix_iff hends hle).mp hk
      exact h.skipped k hlt (hb.max k (by omega) hborder) hk

/-- Reading one more element. -/
theorem Longest.extend [DecidableEq α] (h : Longest P T bound m) (hbound : bound < P.length)
    (hfalls : Falls P T c m r) :
    Longest P (T ++ [c]) (bound + 1) (if P[r]? = some c then r + 1 else r) := by
  have hr : r ≤ bound := hfalls.le.trans h.le
  -- A nonempty overlap with the longer text continues one with the shorter.
  have hshorter : ∀ j ≤ bound, P.take (j + 1) <:+ T ++ [c] →
      j ≤ r ∧ P[j]? = some c := by
    intro j hj hends
    obtain ⟨hends, hc⟩ := (take_succ_suffix_concat (by omega)).mp hends
    refine ⟨?_, hc⟩
    by_contra hlt
    exact hfalls.skipped j (by omega) (h.max j hj hends) hends hc
  split_ifs with hc
  · refine ⟨by omega, (take_succ_suffix_concat (by omega)).mpr ⟨hfalls.ends, hc⟩, ?_⟩
    intro k hk hends
    cases k with
    | zero => omega
    | succ j =>
      have := (hshorter j (by omega) hends).1
      omega
  · have hzero : r = 0 := hfalls.stop.resolve_right hc
    subst hzero
    refine ⟨by omega, by simp, ?_⟩
    intro k hk hends
    cases k with
    | zero => omega
    | succ j =>
      obtain ⟨hle, hj⟩ := hshorter j (by omega) hends
      have hjzero : j = 0 := by omega
      exact absurd (hjzero ▸ hj) hc

theorem Longest.shrink (h : Longest P T (bound + 1) m) (hm : m ≤ bound) :
    Longest P T bound m :=
  ⟨hm, h.ends, fun k hk => h.max k (by omega)⟩

/-- At an occurrence the next overlap is the longest one of the pattern with itself. -/
theorem Longest.ofOccurrence (hends : P <:+ T) (h : Longest P P bound b)
    (hbound : bound ≤ P.length) : Longest P T bound b where
  le := h.le
  ends := h.ends.trans hends
  max k hk hsuf := by
    have hfull : P.take P.length <:+ T := by rwa [List.take_length]
    refine h.max k hk ?_
    have hself := (take_suffix_iff hfull (hk.trans hbound)).mp hsuf
    rwa [List.take_length] at hself

end Search

section Occurrences

/-- The text up to the first occurrence of the pattern, and what follows it. -/
structure Leftmost (P T before after : List α) : Prop where
  occurs : T = before ++ P ++ after
  first : ∀ before' after', T = before' ++ P ++ after' → before.length ≤ before'.length

/-- The first occurrence has been read completely. -/
theorem leftmost_iff_of_suffix {w before after : List α} (hclear : ¬P <:+: T)
    (hends : P <:+ T ++ [c]) :
    Leftmost P (T ++ c :: w) before after ↔ before ++ P = T ++ [c] ∧ after = w := by
  have hsplit : T ++ c :: w = T ++ [c] ++ w := by simp
  -- An occurrence does not end before `c`.
  have hlate : ∀ {before' after' : List α}, T ++ c :: w = before' ++ P ++ after' →
      (T ++ [c]).length ≤ (before' ++ P).length := by
    intro before' after' hoccurs
    by_contra hsho
    have hlen : (before' ++ P).length ≤ T.length := by
      rw [List.length_append, List.length_singleton] at hsho
      omega
    have hbef : before' ++ P <+: T :=
      List.prefix_of_prefix_length_le ⟨after', hoccurs.symm⟩ (List.prefix_append T (c :: w))
        hlen
    obtain ⟨rest, hrest⟩ := hbef
    exact hclear ⟨before', rest, hrest⟩
  obtain ⟨start, hsta⟩ := hends
  constructor
  · rintro ⟨hoccurs, hfirst⟩
    have hle := hfirst start w (by rw [hsplit, ← hsta])
    have hge := hlate hoccurs
    rw [← hsta, List.length_append, List.length_append] at hge
    rw [hsplit, ← hsta] at hoccurs
    have hlen : (start ++ P).length = (before ++ P).length := by
      rw [List.length_append, List.length_append]
      omega
    obtain ⟨hbef, haft⟩ := List.append_inj hoccurs hlen
    exact ⟨by rw [← hbef, hsta], haft.symm⟩
  · rintro ⟨hbef, rfl⟩
    refine ⟨by rw [hsplit, hbef], fun before' after' hoccurs => ?_⟩
    have hge := hlate hoccurs
    rw [← hbef, List.length_append, List.length_append] at hge
    omega

/-- Reading on without an occurrence. -/
theorem not_infix_concat (hclear : ¬P <:+: T) (hends : ¬P <:+ T ++ [c]) : ¬P <:+: T ++ [c] := by
  rw [List.infix_concat_iff]
  rintro (h | h)
  · exact hends h
  · exact hclear h

theorem Leftmost.length_lt {w before after : List α} (hclear : ¬P <:+: T)
    (h : Leftmost P (T ++ w) before after) : T.length < before.length + P.length := by
  by_contra hsho
  have hbef : before ++ P <+: T := by
    refine List.prefix_of_prefix_length_le ⟨after, h.occurs.symm⟩ (List.prefix_append T w) ?_
    rw [List.length_append]
    omega
  obtain ⟨rest, hrest⟩ := hbef
  exact hclear ⟨before, rest, hrest⟩

end Occurrences

section Scanning

variable {σ : Type} {Accepts : σ → List α → Prop} {text : List α}

/-- A machine looks for the pattern in a text. It does not accept while it looks; where the
pattern ends it goes on as `Follows` says, which may depend on how much came before; and as
long as the pattern has not ended it keeps looking, or gives up because too much has come. -/
theorem accepts_iff_leftmost (Reads : σ → List α → Prop) (Follows : ℕ → List α → Prop)
    (hP : P ≠ [])
    (hend : ∀ s T, Reads s T → ¬Accepts s [])
    (hfound : ∀ s T c w, Reads s T → T ++ c :: w = text → P <:+ T ++ [c] →
      (Accepts s (c :: w) ↔ Follows (T.length + 1 - P.length) w))
    (hmiss : ∀ s T c w, Reads s T → T ++ c :: w = text → ¬P <:+ T ++ [c] →
      (∃ s', Reads s' (T ++ [c]) ∧ (Accepts s (c :: w) ↔ Accepts s' w)) ∨
      ¬Accepts s (c :: w) ∧ ∀ n rest, T.length + 1 < n + P.length → ¬Follows n rest)
    {s : σ} (hs : Reads s []) :
    Accepts s text ↔ ∃ before after, Leftmost P text before after ∧
      Follows before.length after := by
  suffices h : ∀ w s T, T ++ w = text → Reads s T → ¬P <:+: T →
      (Accepts s w ↔ ∃ before after, Leftmost P text before after ∧
        Follows before.length after) from
    h text s [] rfl hs (by rwa [List.infix_nil])
  intro w
  induction w with
  | nil =>
    intro s T htext hreads hclear
    rw [List.append_nil] at htext
    refine iff_of_false (hend s T hreads) ?_
    rintro ⟨before, after, hlef, -⟩
    exact hclear ⟨before, after, (htext ▸ hlef.occurs).symm⟩
  | cons c w ih =>
    intro s T htext hreads hclear
    by_cases hends : P <:+ T ++ [c]
    · rw [hfound s T c w hreads htext hends]
      constructor
      · intro hfol
        obtain ⟨before, hbef⟩ := hends
        have hlen := congrArg List.length hbef
        rw [List.length_append, List.length_append, List.length_singleton] at hlen
        have hcount : T.length + 1 - P.length = before.length := by omega
        refine ⟨before, w, ?_, hcount ▸ hfol⟩
        rw [← htext]
        exact (leftmost_iff_of_suffix hclear ⟨before, hbef⟩).mpr ⟨hbef, rfl⟩
      · rintro ⟨before, after, hlef, hfol⟩
        rw [← htext] at hlef
        obtain ⟨hbef, rfl⟩ := (leftmost_iff_of_suffix hclear hends).mp hlef
        have hlen := congrArg List.length hbef
        rw [List.length_append, List.length_append, List.length_singleton] at hlen
        have hcount : T.length + 1 - P.length = before.length := by omega
        rwa [hcount]
    · have htext' : T ++ [c] ++ w = text := by rw [← htext, List.append_assoc]; rfl
      have hclear' := not_infix_concat hclear hends
      obtain ⟨s', hreads', hacpt⟩ | ⟨hreject, hlim⟩ := hmiss s T c w hreads htext hends
      · rw [hacpt]
        exact ih s' (T ++ [c]) htext' hreads' hclear'
      · refine iff_of_false hreject ?_
        rintro ⟨before, after, hlef, hfol⟩
        rw [← htext'] at hlef
        have hlate := hlef.length_lt hclear'
        rw [List.length_append, List.length_singleton] at hlate
        exact hlim _ _ hlate hfol

end Scanning

end Overlap

end VaultLink
