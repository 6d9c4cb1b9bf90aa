import TickLabels.Text

/-!
# Standard formats

A standard format is a letter with up to two digits of precision. The
letter names a notation; its case chooses the case of an exponent or of
hexadecimal digits.
-/

namespace TickLabels

/-- The notation a standard letter names. -/
inductive StandardStyle where
  | currency
  /-- A whole number, padded with zeros to the precision. -/
  | decimal
  | exponential
  /-- Fixed decimals without grouping. -/
  | fixedPoint
  /-- The shorter of plain and exponent notation. -/
  | general
  /-- Fixed decimals with grouping. -/
  | number
  | percent
  /-- All digits that are needed to read the number back. -/
  | roundTrip
  | hexadecimal
deriving DecidableEq, Repr

namespace StandardStyle

/-- The capital letter of a style. -/
def letter : StandardStyle → Char
  | currency => 'C'
  | decimal => 'D'
  | exponential => 'E'
  | fixedPoint => 'F'
  | general => 'G'
  | number => 'N'
  | percent => 'P'
  | roundTrip => 'R'
  | hexadecimal => 'X'

/-- The style of a letter of either case. -/
def ofLetter? (c : Char) : Option StandardStyle :=
  match c.toUpper with
  | 'C' => some currency
  | 'D' => some decimal
  | 'E' => some exponential
  | 'F' => some fixedPoint
  | 'G' => some general
  | 'N' => some number
  | 'P' => some percent
  | 'R' => some roundTrip
  | 'X' => some hexadecimal
  | _ => none

/-- Every style is the style of its own letter. -/
theorem ofLetter?_letter (style : StandardStyle) : ofLetter? style.letter = some style := by
  cases style <;> decide

end StandardStyle

/-- A standard format: a style, the case of its letter, and the precision if
one is given. -/
structure StandardFormat where
  style : StandardStyle
  lowercase : Bool
  precision : Option Nat
deriving DecidableEq, Repr

namespace StandardFormat

/-- The letter as written. -/
def letter (f : StandardFormat) : Char :=
  if f.lowercase then f.style.letter.toLower else f.style.letter

/-- The general format without a precision, which stands for the empty
format. -/
def general : StandardFormat :=
  ⟨.general, false, none⟩

end StandardFormat

/-- A letter and at most two digits are read as a standard format, whether
or not the letter names one. -/
def readsAsStandard : Text → Bool
  | [] => false
  | letter :: digits => letter.isAlpha && digits.length ≤ 2 && digits.all Char.isDigit

end TickLabels
