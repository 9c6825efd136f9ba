import VaultLink.MultipartGuard
import VaultLink.Overlaps

/-!
# The byte matcher finds every occurrence

The table of a matcher holds, for each prefix of the pattern, the longest proper prefix that
ends it. The loop of `new` fills it with the search that `feed` makes, run over the pattern
itself. A matcher then always knows the longest proper prefix of the pattern that ends the
bytes fed to it, and `feed` answers whether the whole pattern ends them.
-/
namespace VaultLink

open Overlap

section Table

variable {pattern text : List UInt8} {byte : UInt8}

theorem continues_iff {i : Fin pattern.length} :
    pattern[i.val]? = some byte ↔ byte = pattern.get i := by
  rw [List.getElem?_eq_getElem i.isLt, Option.some.injEq]
  exact eq_comm

namespace PrefixTable

/-- The first `n` entries are the longest overlaps. -/
def CorrectBelow (table : PrefixTable pattern) (n : ℕ) : Prop :=
  ∀ i : Fin pattern.length, i.val < n →
    Longest pattern (pattern.take (i + 1)) i (table.entry i)

theorem CorrectBelow.shorter {table : PrefixTable pattern} {matched : Fin pattern.length}
    (h : table.CorrectBelow matched) (hpos : 0 < matched.val) :
    Longest pattern (pattern.take matched) (matched - 1) (table.shorter matched) := by
  have hprevious := h ⟨matched - 1, by have := matched.isLt; omega⟩ (by dsimp; omega)
  have hidx : matched.val - 1 + 1 = matched.val := by omega
  dsimp only at hprevious
  rwa [hidx] at hprevious

theorem CorrectBelow.falls {table : PrefixTable pattern} {matched : Fin pattern.length}
    (h : table.CorrectBelow matched) (hends : pattern.take matched <:+ text) :
    Falls pattern text byte matched (table.fallBack byte matched) := by
  fun_induction fallBack table byte matched with
  | case1 matched hback ih =>
    have hshorter := h.shorter hback.1
    have hlt := table.shorter_lt hback.1
    refine .back hends hback.1 ?_ hshorter (ih (fun i hi => h i (by omega)) ?_)
    · exact fun hcon => hback.2 (continues_iff.mp hcon)
    · exact hshorter.ends.trans hends
  | case2 matched hstop =>
    refine .here hends ?_
    by_cases hzero : matched.val = 0
    · exact .inl hzero
    · have hbyte : byte = pattern[matched] := by
        by_contra hne
        exact hstop ⟨by omega, hne⟩
      exact .inr (continues_iff.mpr hbyte)

end PrefixTable

namespace TableLoop

variable {index : ℕ}

/-- The rounds before `index` have filled their entries, and the others are still zero. -/
structure Correct (loop : TableLoop pattern index) : Prop where
  filled : loop.table.CorrectBelow index
  empty : ∀ i : Fin pattern.length, index ≤ i → loop.table.entry i = 0
  longest : Longest pattern (pattern.take index) (index - 1) loop.matched

theorem Correct.round {loop : TableLoop pattern index} (hloop : loop.Correct)
    (h : index < pattern.length) : (loop.round h).Correct := by
  have hpos : 0 < index := (Nat.zero_le _).trans_lt loop.matched_lt
  have hfalls : Falls pattern (pattern.take index) pattern[index] loop.matched
      (loop.table.fallBack pattern[index] loop.matched) :=
    PrefixTable.CorrectBelow.falls (fun i hi => hloop.filled i (hi.trans loop.matched_lt))
      hloop.longest.ends
  have hext := hloop.longest.extend (by omega) hfalls
  have hidx : index - 1 + 1 = index := by omega
  rw [hidx, List.take_concat_get' pattern index h] at hext
  -- The entry of this round is what has been matched after it.
  have hfilled : ∀ {table : PrefixTable pattern} {matched : ℕ},
      (∀ i : Fin pattern.length, i.val < index → table.entry i = loop.table.entry i) →
      table.entry ⟨index, h⟩ = matched →
      Longest pattern (pattern.take (index + 1)) index matched →
      table.CorrectBelow (index + 1) := by
    intro table matched hsame hent hlon i hi
    by_cases hnew : i.val = index
    · have hi' : i = ⟨index, h⟩ := Fin.ext hnew
      rw [hi', hent]
      exact hlon
    · rw [hsame i (by omega)]
      exact hloop.filled i (by omega)
  simp only [TableLoop.round]
  split_ifs with heq
  · rw [if_pos (continues_iff.mpr heq)] at hext
    refine ⟨hfilled (fun i hi => ?_) ?_ hext, fun i hi => ?_, hext⟩
    · exact Function.update_of_ne (Fin.ne_of_val_ne (by dsimp; omega)) _ _
    · exact Function.update_self _ _ _
    · have hne : i ≠ ⟨index, h⟩ := Fin.ne_of_val_ne (by dsimp; omega)
      exact (Function.update_of_ne hne _ _).trans (hloop.empty i (by omega))
  · rw [if_neg (mt continues_iff.mp heq)] at hext
    have hzero : (loop.table.fallBack pattern[index] loop.matched).val = 0 :=
      hfalls.stop.resolve_right (mt continues_iff.mp heq)
    refine ⟨hfilled (fun _ _ => rfl) ?_ hext, fun i hi => hloop.empty i (by omega),
      hext⟩
    rw [hloop.empty ⟨index, h⟩ le_rfl, hzero]

theorem Correct.finish {loop : TableLoop pattern index} (hloop : loop.Correct) :
    loop.finish.CorrectBelow pattern.length := by
  fun_induction TableLoop.finish loop with
  | case1 index loop h ih => exact ih (hloop.round h)
  | case2 index loop h => exact fun i _ => hloop.filled i (by have := i.isLt; omega)

end TableLoop

end Table

namespace ByteMatcher

variable {matcher : ByteMatcher} {pattern text : List UInt8}

/-- The matcher looks for the pattern, and has been fed the text since it was new or reset. -/
structure Tracks (matcher : ByteMatcher) (pattern text : List UInt8) : Prop where
  pattern_eq : matcher.pattern = pattern
  table : matcher.table.CorrectBelow matcher.pattern.length
  longest : Longest matcher.pattern text (matcher.pattern.length - 1) matcher.matched

theorem longest_nil (hpos : 0 < pattern.length) : Longest pattern [] (pattern.length - 1) 0 where
  le := Nat.zero_le _
  ends := List.nil_suffix
  max k hk hends := by
    have hnil : pattern.take k = [] := List.suffix_nil.mp hends
    have hlen := congrArg List.length hnil
    rw [List.length_take, List.length_nil] at hlen
    omega

theorem tracks_new (pattern : List UInt8) (h : 0 < pattern.length) :
    (new pattern h).Tracks pattern [] where
  pattern_eq := rfl
  table := by
    refine TableLoop.Correct.finish ⟨fun i hi => ?_, fun _ _ => rfl, ?_⟩
    · have hzero : i.val = 0 := by omega
      exact ⟨Nat.zero_le _, List.nil_suffix, fun k hk _ => by rwa [hzero] at hk⟩
    · exact ⟨le_rfl, List.nil_suffix, fun k hk _ => hk⟩
  longest := longest_nil h

theorem Tracks.reset (h : matcher.Tracks pattern text) : matcher.reset.Tracks pattern [] where
  pattern_eq := h.pattern_eq
  table := h.table
  longest := longest_nil matcher.matched.pos

theorem Tracks.patternLen (h : matcher.Tracks pattern text) :
    matcher.patternLen = pattern.length := by
  rw [ByteMatcher.patternLen, h.pattern_eq]

/-- `feed` tells whether the pattern ends what has been fed. -/
theorem Tracks.feed (h : matcher.Tracks pattern text) (byte : UInt8) :
    (matcher.feed byte).1.Tracks pattern (text ++ [byte]) ∧
      ((matcher.feed byte).2 = true ↔ pattern <:+ text ++ [byte]) := by
  obtain ⟨rfl, htable, hlon⟩ := h
  have hpos := matcher.matched.pos
  have hfalls : Falls matcher.pattern text byte matcher.matched
      (matcher.table.fallBack byte matcher.matched) :=
    PrefixTable.CorrectBelow.falls (fun i _ => htable i i.isLt) hlon.ends
  have hext := hlon.extend (by omega) hfalls
  have hbound : matcher.pattern.length - 1 + 1 = matcher.pattern.length := by omega
  rw [hbound] at hext
  -- The whole pattern ends the text when the longest overlap is that long.
  have hwhole : ∀ {m : ℕ}, Longest matcher.pattern (text ++ [byte]) matcher.pattern.length m →
      m ≠ matcher.pattern.length → ¬matcher.pattern <:+ text ++ [byte] := by
    intro m hm hne hends
    have hmax := hm.max matcher.pattern.length le_rfl (by rwa [List.take_length])
    have hle := hm.le
    omega
  have hshrink : ∀ {m : ℕ}, Longest matcher.pattern (text ++ [byte]) matcher.pattern.length m →
      m ≠ matcher.pattern.length →
      Longest matcher.pattern (text ++ [byte]) (matcher.pattern.length - 1) m := by
    intro m hm hne
    have hle := hm.le
    rw [← hbound] at hm
    exact hm.shrink (by omega)
  have hlt := (matcher.table.fallBack byte matcher.matched).isLt
  simp only [ByteMatcher.feed]
  split_ifs with hbyte hend
  · rw [if_pos (continues_iff.mpr hbyte), hend] at hext
    have hends : matcher.pattern <:+ text ++ [byte] := by
      have hfull := hext.ends
      rwa [List.take_length] at hfull
    have hself := htable (matcher.table.fallBack byte matcher.matched) hlt
    have hval : (matcher.table.fallBack byte matcher.matched).val =
        matcher.pattern.length - 1 := by omega
    rw [hend, List.take_length, hval] at hself
    exact ⟨⟨rfl, htable, .ofOccurrence hends hself (by omega)⟩, by simpa using hends⟩
  · rw [if_pos (continues_iff.mpr hbyte)] at hext
    exact ⟨⟨rfl, htable, hshrink hext hend⟩, by simpa using hwhole hext hend⟩
  · rw [if_neg (mt continues_iff.mp hbyte)] at hext
    have hne := hlt.ne
    exact ⟨⟨rfl, htable, hshrink hext hne⟩, by simpa using hwhole hext hne⟩

end ByteMatcher

section Calls

inductive MatcherCall
  | feed (byte : UInt8)
  | reset

def ByteMatcher.serve (matcher : ByteMatcher) : MatcherCall → ByteMatcher
  | .feed byte => (matcher.feed byte).1
  | .reset => matcher.reset

/-- The bytes fed since the matcher was new or reset. -/
def fedSinceReset (text : List UInt8) : MatcherCall → List UInt8
  | .feed byte => text ++ [byte]
  | .reset => []

theorem ByteMatcher.Tracks.serve {matcher : ByteMatcher} {pattern text : List UInt8}
    (h : matcher.Tracks pattern text) (call : MatcherCall) :
    (matcher.serve call).Tracks pattern (fedSinceReset text call) := by
  cases call with
  | feed byte => exact (h.feed byte).1
  | reset => exact h.reset

theorem ByteMatcher.Tracks.run {matcher : ByteMatcher} {pattern text : List UInt8}
    (h : matcher.Tracks pattern text) (calls : List MatcherCall) :
    (calls.foldl ByteMatcher.serve matcher).Tracks pattern (calls.foldl fedSinceReset text) := by
  induction calls generalizing matcher text with
  | nil => exact h
  | cons call calls ih => exact ih (h.serve call)

/-- After any calls, a matcher holds the longest proper prefix of its pattern that ends what
has been fed, and reports the next byte exactly where the whole pattern ends there. Table
entries are read at indices below the length of the pattern, as their type says, and each is
at most its index, so that falling back always comes to an end. -/
theorem matcher_reports_pattern_ends (pattern : List UInt8) (h : 0 < pattern.length)
    (calls : List MatcherCall) :
    let matcher := calls.foldl ByteMatcher.serve (ByteMatcher.new pattern h)
    let text := calls.foldl fedSinceReset []
    matcher.pattern = pattern ∧
      (∀ byte, (matcher.feed byte).2 = true ↔ pattern <:+ text ++ [byte]) ∧
      matcher.matched.val < pattern.length ∧ pattern.take matcher.matched <:+ text ∧
      (∀ k < pattern.length, pattern.take k <:+ text → k ≤ matcher.matched) ∧
      ∀ i, matcher.table.entry i ≤ i := by
  intro matcher text
  have htra : matcher.Tracks pattern text := (ByteMatcher.tracks_new pattern h).run calls
  refine ⟨htra.pattern_eq, fun byte => (htra.feed byte).2, ?_⟩
  have hlon := htra.longest
  have hents := matcher.table.entry_le
  generalize matcher.matched.val = matched at hlon ⊢
  rw [htra.pattern_eq] at hlon
  refine ⟨?_, hlon.ends, ?_, hents⟩
  · have hle := hlon.le
    omega
  · intro k hk hends
    exact hlon.max k (by omega) hends

theorem matcher_reports_second_dash :
    (((ByteMatcher.new [45, 45] (by decide)).feed 45).1.feed 45).2 = true :=
  ((matcher_reports_pattern_ends [45, 45] (by decide) [.feed 45]).2.1 45).mpr (by decide)

end Calls

end VaultLink
