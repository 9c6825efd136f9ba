import Mathlib.Data.List.Infix

/-!
# SQLite `GLOB`

The pattern language of the SQLite `GLOB` operator over code points: `*` matches any
text, `?` one character, and `[…]` one character of a set, where a leading `^` inverts
the set, a `]` right after the opening (or after the `^`) is a member, and `a-b` is a
range. A pattern is scanned once into tokens; an unterminated set matches nothing.

The lemmas at the end let a caller reason about a pattern that was assembled from
escaped literals: scanning distributes over the pieces, and matching the tokens of a
literal strips exactly that literal.
-/
namespace VaultLink.Glob

inductive Token
  | any
  | one
  | lit (c : Char)
  | set (invert : Bool) (members : List (Char × Char))

/-- Where a left-to-right scan of a pattern stands. -/
inductive Scan
  | outside
  | opened
  | negated
  | inside (invert : Bool) (members : List (Char × Char)) (prior : Option Char)

/-- The tokens of a pattern, or `none` when a set is not closed. -/
def tokens : List Char → Scan → Option (List Token)
  | [], .outside => some []
  | [], _ => none
  | c :: p, .outside =>
    if c = '*' then (tokens p .outside).map (Token.any :: ·)
    else if c = '?' then (tokens p .outside).map (Token.one :: ·)
    else if c = '[' then tokens p .opened
    else (tokens p .outside).map (Token.lit c :: ·)
  | c :: p, .opened =>
    if c = '^' then tokens p .negated
    else if c = ']' then tokens p (.inside false [(c, c)] none)
    else tokens p (.inside false [(c, c)] (some c))
  | c :: p, .negated =>
    if c = ']' then tokens p (.inside true [(c, c)] none)
    else tokens p (.inside true [(c, c)] (some c))
  | [c], .inside invert members _ =>
    if c = ']' then some [.set invert members] else none
  | c :: d :: p, .inside invert members prior =>
    if c = ']' then (tokens (d :: p) .outside).map (Token.set invert members :: ·)
    else match prior with
      | some a =>
        if c = '-' ∧ d ≠ ']' then tokens p (.inside invert ((a, d) :: members) none)
        else tokens (d :: p) (.inside invert ((c, c) :: members) (some c))
      | none => tokens (d :: p) (.inside invert ((c, c) :: members) (some c))

/-- Whether a token list matches a whole text. -/
def matchTokens : List Token → List Char → Bool
  | [], text => text.isEmpty
  | .any :: ts, text => text.tails.any (matchTokens ts)
  | .one :: ts, _ :: text => matchTokens ts text
  | .lit c :: ts, d :: text => c = d && matchTokens ts text
  | .set invert members :: ts, d :: text =>
    (members.any (fun m => m.1 ≤ d && d ≤ m.2)) != invert && matchTokens ts text
  | _ :: _, [] => false

/-- `text GLOB pattern`. -/
def glob (pattern text : List Char) : Bool :=
  ((tokens pattern .outside).map (matchTokens · text)).getD false

/-- A pattern that matches exactly one character: the character itself, or a set holding it
when it is special. -/
def literal (c : Char) : List Char :=
  if c = '*' ∨ c = '?' ∨ c = '[' ∨ c = ']' then ['[', c, ']'] else [c]

/-- The token a `literal` scans to. -/
def literalToken (c : Char) : Token :=
  if c = '*' ∨ c = '?' ∨ c = '[' ∨ c = ']' then .set false [(c, c)] else .lit c

theorem tokens_inside_close (invert : Bool) (members : List (Char × Char)) (prior : Option Char)
    (p : List Char) :
    tokens (']' :: p) (.inside invert members prior) =
      (tokens p .outside).map (Token.set invert members :: ·) := by
  cases p with
  | nil => simp [tokens]
  | cons d p => simp [tokens]

/-- Scanning a literal followed by more pattern yields its token and the rest's. -/
theorem tokens_literal_append (c : Char) (p : List Char) :
    tokens (literal c ++ p) .outside = (tokens p .outside).map (literalToken c :: ·) := by
  unfold literal literalToken
  by_cases hspecial : c = '*' ∨ c = '?' ∨ c = '[' ∨ c = ']'
  · rw [if_pos hspecial, if_pos hspecial]
    rcases hspecial with rfl | rfl | rfl | rfl <;>
      simp [tokens, tokens_inside_close]
  · rw [if_neg hspecial, if_neg hspecial]
    push Not at hspecial
    simp [tokens, hspecial]

theorem tokens_literals_append (text p : List Char) :
    tokens (text.flatMap literal ++ p) .outside =
      (tokens p .outside).map (text.map literalToken ++ ·) := by
  induction text with
  | nil => simp
  | cons c text ih =>
    simp [List.append_assoc, tokens_literal_append, ih, Function.comp_def]

theorem matchTokens_literalToken (c : Char) (ts : List Token) (d : Char) (text : List Char) :
    matchTokens (literalToken c :: ts) (d :: text) = (c = d && matchTokens ts text) := by
  unfold literalToken
  split
  · have hrange : (c ≤ d && d ≤ c) = decide (c = d) := by
      rw [Bool.eq_iff_iff]
      simpa using Std.le_antisymm_iff
    simp [matchTokens, hrange]
  · simp [matchTokens]

@[simp] theorem matchTokens_literalToken_nil (c : Char) (ts : List Token) :
    matchTokens (literalToken c :: ts) [] = false := by
  unfold literalToken
  split <;> simp [matchTokens]

/-- Literal tokens strip exactly their text from the front. -/
theorem matchTokens_literals (text : List Char) (ts : List Token) (subject : List Char) :
    matchTokens (text.map literalToken ++ ts) subject = true ↔
      ∃ rest, subject = text ++ rest ∧ matchTokens ts rest = true := by
  induction text generalizing subject with
  | nil => simp
  | cons c text ih =>
    cases subject with
    | nil => simp
    | cons d subject =>
      simp only [List.map_cons, List.cons_append, matchTokens_literalToken, Bool.and_eq_true,
        decide_eq_true_eq, ih, List.cons.injEq]
      constructor
      · rintro ⟨rfl, rest, rfl, hrest⟩
        exact ⟨rest, ⟨rfl, rfl⟩, hrest⟩
      · rintro ⟨rest, ⟨rfl, rfl⟩, hrest⟩
        exact ⟨rfl, rest, rfl, hrest⟩

theorem matchTokens_any (text : List Char) : matchTokens [.any] text = true := by
  simp only [matchTokens, List.any_eq_true, List.isEmpty_iff]
  exact ⟨[], by simp, rfl⟩

/-- An escaped text matches itself only. -/
theorem glob_literals (text subject : List Char) :
    glob (text.flatMap literal) subject = true ↔ subject = text := by
  have htoks := tokens_literals_append text []
  simp only [List.append_nil, tokens, Option.map_some] at htoks
  have hmat := matchTokens_literals text [] subject
  simp only [List.append_nil] at hmat
  rw [glob, htoks, Option.map_some, Option.getD_some, hmat]
  simp [matchTokens]

/-- An escaped text, a plain character and a trailing `*` match the texts that extend the
escaped one by that character and anything. -/
theorem glob_literals_star (text : List Char) (c : Char) (hc : literal c = [c])
    (subject : List Char) :
    glob (text.flatMap literal ++ [c, '*']) subject = true ↔
      ∃ rest, subject = text ++ c :: rest := by
  have hpattern : text.flatMap literal ++ [c, '*'] = (text ++ [c]).flatMap literal ++ ['*'] := by
    simp [hc]
  have htoks := tokens_literals_append (text ++ [c]) ['*']
  have hstar : tokens ['*'] .outside = some [.any] := by simp [tokens]
  rw [hstar, Option.map_some] at htoks
  rw [glob, hpattern, htoks, Option.map_some, Option.getD_some, matchTokens_literals]
  simp [matchTokens_any]

end VaultLink.Glob
