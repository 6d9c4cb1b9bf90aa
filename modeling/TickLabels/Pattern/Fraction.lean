import TickLabels.Decimal.Numeral
import TickLabels.Pattern.Sections
import TickLabels.Pattern.Metadata
import TickLabels.Pattern.Standard

/-!
# The fraction of a format

A format can be asked for other decimals than it was written with. In each
section the point and the fraction placeholders are taken out, and the new
fraction is put behind the integer placeholders and their scaling commas;
all other tokens stay where they are.
-/

namespace TickLabels

/-- The tokens of a section around its decimal point: those before it,
those from it to the exponent marker, and those from the marker on. -/
structure Anatomy where
  integer : List Token
  /-- The tokens behind the point, if the section has one. -/
  fraction? : Option (List Token)
  tail : List Token
deriving DecidableEq, Repr

namespace Anatomy

/-- The anatomy of a run of tokens. -/
def ofTokens (tokens : List Token) : Anatomy :=
  let mantissa := tokens.takeWhile (!·.isExponent)
  { integer := mantissa.takeWhile (· ≠ .point)
    fraction? :=
      match mantissa.dropWhile (· ≠ .point) with
      | [] => none
      | _ :: fraction => some fraction
    tail := tokens.dropWhile (!·.isExponent) }

/-- The text of the fraction placeholders. -/
def placeholders (a : Anatomy) : Text :=
  Token.sources ((a.fraction?.getD []).filter Token.isDigit)

/-- What stays of the fraction when its placeholders are taken out. -/
def remainder (a : Anatomy) : Text :=
  Token.sources ((a.fraction?.getD []).filter (!·.isDigit))

/-- The integer tokens cut where a fraction belongs: behind the last
placeholder and its commas, or else where the point stands. A section with
neither has no such place. -/
def insertion? (a : Anatomy) : Option (List Token × List Token) :=
  match splitAfterLast Token.isDigit a.integer with
  | some (front, back) =>
    some (front ++ back.takeWhile (· = .comma), back.dropWhile (· = .comma))
  | none => a.fraction?.map fun _ => (a.integer, [])

end Anatomy

/-- The section with the text `fraction old` for its fraction, where `old`
is the text of the placeholders it had. A section without a number is left
alone. -/
def replaceFraction (fraction : Text → Text) (source : Text) : Text :=
  let a := Anatomy.ofTokens (lex source)
  match a.insertion? with
  | none => source
  | some (front, back) =>
    Token.sources front ++ fraction a.placeholders ++ Token.sources back ++
      a.remainder ++ Token.sources a.tail

/-- Every section of a format, changed by `change`. -/
def changeSections (change : Text → Text) (format : Text) : Text :=
  joinWith [';'] ((sectionTexts format).map change)

/-- A fraction of `count` placeholders, with its point. None is nothing at
all. -/
def fractionText (placeholder : Char) (count : Nat) : Text :=
  if count = 0 then [] else '.' :: List.replicate count placeholder

/-- The most decimals a standard format can be given. -/
def maxStandardPrecision : Nat := 99

/-- The format with `count` decimals, forced or optional. A standard format
gets the count as its precision, except that round-trip notation and
unknown letters take none. -/
def withDecimals (count : Nat) (trailingZeros : Bool) (format : Text) : Text :=
  let format := if format = [] then ['0'] else format
  match readsAsStandard format, format with
  | true, letter :: _ =>
    match StandardStyle.ofLetter? letter with
    | some .roundTrip | none => format
    | some _ => letter :: numeral (min count maxStandardPrecision)
  | _, _ =>
    changeSections
      (replaceFraction fun _ => fractionText (if trailingZeros then '0' else '#') count) format

/-- The format with the decimals asked for, if any are. Their sign does not
matter. -/
def withDecimals? (decimals : Option Int) (trailingZeros : Bool) (format : Text) : Text :=
  match decimals with
  | none => format
  | some n => withDecimals n.natAbs trailingZeros format

/-- A custom format with `extra` more optional decimals. -/
def withExtraDecimals (extra : Nat) (format : Text) : Text :=
  if extra = 0 ∨ format = [] ∨ readsAsStandard format then format
  else changeSections (replaceFraction fun old => '.' :: (old ++ List.replicate extra '#')) format

/-- The placeholders, commas and points that the format uses for a number,
up to an exponent marker. Standard formats and sections without placeholders
have none. -/
def numericSkeleton? (format : Text) (value : Float) : Option Text :=
  if format = [] ∨ readsAsStandard format then none
  else
    let mantissa := (lex ((SignTexts.ofFormat format).select value)).takeWhile (!·.isExponent)
    if mantissa.any Token.isDigit then
      some (Token.sources (mantissa.filter fun t => t.isDigit || t = .point || t = .comma))
    else none

end TickLabels
