import TickLabels.Pattern.Lexer

/-!
# Sections of a format

Semicolons cut a format into sections: one for positive numbers, one for
negative numbers, one for zero. A semicolon in quotes or behind a backslash
is text, so the cut is made between tokens and not between characters.
`joinWith_sectionTexts` says that the cut loses nothing.
-/

namespace TickLabels

namespace Token

/-- Tokens cut at their semicolons: the run before the first one, and the
runs behind each. -/
def cut : List Token → List Token × List (List Token)
  | [] => ([], [])
  | t :: ts =>
    if t = .semicolon then ([], (cut ts).1 :: (cut ts).2)
    else (t :: (cut ts).1, (cut ts).2)

end Token

/-- The tokens of each section. There is at least one section. -/
def sectionTokens (format : Text) : List (List Token) :=
  (Token.cut (lex format)).1 :: (Token.cut (lex format)).2

/-- The sections of a format, at least one, any of them possibly empty. -/
def sectionTexts (format : Text) : List Text :=
  (sectionTokens format).map Token.sources

theorem sectionTexts_ne_nil (format : Text) : sectionTexts format ≠ [] := by
  simp [sectionTexts, sectionTokens]

theorem joinWith_cut (tokens : List Token) :
    joinWith [';'] (((Token.cut tokens).1 :: (Token.cut tokens).2).map Token.sources) =
      Token.sources tokens := by
  induction tokens with
  | nil => rfl
  | cons t ts ih =>
    by_cases h : t = .semicolon
    · subst h
      simp [joinWith, Token.cut, Token.source] at ih ⊢
      exact ih
    · simp only [Token.cut, h, if_false, List.map_cons, Token.sources_cons] at ih ⊢
      cases hrest : (Token.cut ts).2 with
      | nil => simp [joinWith, hrest] at ih ⊢; exact ih
      | cons run runs => simp [joinWith, hrest] at ih ⊢; exact ih

/-- **Splitting is exact**: the sections, joined by semicolons, are the
format. -/
theorem joinWith_sectionTexts (format : Text) :
    joinWith [';'] (sectionTexts format) = format := by
  rw [sectionTexts, sectionTokens, joinWith_cut, sources_lex]

/-- The texts that format positive numbers, negative numbers and zero. -/
structure SignTexts where
  positive : Text
  negative : Text
  zero : Text
  /-- The format has a second section. -/
  hasNegative : Bool
deriving DecidableEq, Repr

namespace SignTexts

/-- A section that is missing or empty is served by the first one. Sections
behind the third are not used. -/
def ofFormat (format : Text) : SignTexts :=
  let sections := sectionTexts format
  let positive := sections.headD []
  let pick (index : Nat) := (sections[index]?.filter (· ≠ [])).getD positive
  { positive
    negative := pick 1
    zero := pick 2
    hasNegative := 2 ≤ sections.length }

/-- The text for a number, by its sign. What is neither positive nor
negative goes with zero. -/
def select (texts : SignTexts) (value : Float) : Text :=
  if 0.0 < value then texts.positive
  else if value < 0.0 then texts.negative
  else texts.zero

end SignTexts

end TickLabels
