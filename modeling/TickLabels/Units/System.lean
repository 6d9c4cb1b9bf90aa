import TickLabels.Pattern.Fraction
import TickLabels.Render.Number
import TickLabels.Units.Table

/-!
# Systems of display units

A system picks the unit for the magnitude of an axis or of a single number,
and formats numbers in it. Numbers that are far too large or too small to be
read are shown with an exponent instead, never in a unit.

The decimals of such a number lose their sign as words, and the least word has
no opposite. A program that checks its words for overflow stops there
(`formatChecked?`), and any other goes on with the least word itself
(`format`).
-/

namespace TickLabels

/-- A table of units and the unit in use. -/
structure UnitSystem where
  kind : UnitSystemKind
  units : List DisplayUnit
  /-- The unit in use. -/
  unit? : Option DisplayUnit
  /-- The number for which it was picked. -/
  baseValue? : Option Float

/-- The decimals asked for, if any: how many, and whether they are forced.
The count may come with a sign, which does not matter. -/
structure Decimals where
  count? : Option Int32
  trailingZeros : Bool
deriving DecidableEq

namespace Decimals

/-- The format with the decimals asked for. -/
def apply (d : Decimals) (format : Text) : Text :=
  withDecimals? (d.count?.map Int32.toInt) d.trailingZeros format

/-- The decimals without the sign of their count. The least word has no
opposite and is left as it is. -/
def abs (d : Decimals) : Decimals :=
  { d with count? := d.count?.map Int32.abs }

/-- The decimals without the sign of their count, unless it overflows. -/
def absChecked? (d : Decimals) : Option Decimals :=
  if d.count? = some Int32.minValue then none else some d.abs

end Decimals

/-- The notation that a standard format names. -/
def standardStyle? (format : Text) : Option StandardStyle :=
  match readsAsStandard format, format with
  | true, letter :: _ => StandardStyle.ofLetter? letter
  | _, _ => none

namespace UnitSystem

/-- A system before any unit is picked. -/
def ofTable (kind : UnitSystemKind) (units : List DisplayUnit) : UnitSystem :=
  ⟨kind, units, none, none⟩

/-- A new system of the kind, with the table that is in use for it. -/
def make (tables : UnitTables) (kind : UnitSystemKind) : UnitSystem × UnitTables :=
  let (units, tables) := tables.get kind
  (ofTable kind units, tables)

/-- The system with the unit for a number: the first whose range it is
in. -/
def pickFor (s : UnitSystem) (value : Float) : UnitSystem :=
  { s with
    unit? := s.units.find? (·.appliesTo value)
    baseValue? := some value }

/-- The title of the unit in use. -/
def title (s : UnitSystem) : Text :=
  match s.unit? with
  | some unit => unit.name.title
  | none => []

/-- The unit in use, if it changes numbers. -/
def scalingUnit? (s : UnitSystem) : Option DisplayUnit :=
  s.unit?.filter DisplayUnit.scales

/-- Numbers in this format can be shown in a unit. Exponents and units do
not go together, and percentages do so in data labels only. -/
def supports (s : UnitSystem) (format : Text) : Bool :=
  match s.kind, standardStyle? format with
  | .dataLabels, style? => style? ≠ some .exponential
  | _, some style => style ≠ .percent && style ≠ .exponential
  | _, none => !(Metadata.ofFormat format .all).hasPercent

/-- The format has an exponent of its own. -/
def hasExponent (format : Text) : Bool :=
  match standardStyle? format with
  | some style => style = .exponential
  | none => !readsAsStandard format && (Metadata.ofFormat format .all).hasE

/-- Numbers from here on are shown with an exponent. -/
def scientificAbove : Float := 1e15

/-- Numbers below this, but not zero, are shown with an exponent. -/
def scientificBelow : Float := 1e-4

/-- The magnitude is out of the readable range. -/
def outOfRange (value : Float) : Bool :=
  scientificAbove ≤ value.abs || value != 0.0 && value.abs < scientificBelow

/-- The number is shown with an exponent although the format has none. -/
def needsExponent (s : UnitSystem) (value : Float) (format : Text) : Bool :=
  s.kind ≠ .verbose && s.supports format && !hasExponent format && outOfRange value

/-- The placeholders that the format has for a number, with the decimals asked
for and an exponent marker. -/
def withExponent (value : Float) (format : Text) (decimals : Decimals) : Text :=
  let skeleton? := (numericSkeleton? format value).map (·.filter (· ≠ ','))
  let mantissa :=
    match skeleton?, decimals.count? with
    | some skeleton, _ => decimals.apply skeleton
    | none, some _ => decimals.apply ['0']
    | none, none => ['0', '.', '#', '#']
  mantissa ++ ['E', '+', '0']

/-- The format in which a number is shown: as it is, or, for a number that
needs an exponent, its placeholders with an exponent marker. -/
def shownFormat (s : UnitSystem) (value : Float) (format : Text) (decimals : Decimals) :
    Text :=
  if s.needsExponent value format then withExponent value format decimals.abs else format

/-- The same where words are checked for overflow. -/
def shownFormatChecked? (s : UnitSystem) (value : Float) (format : Text) (decimals : Decimals) :
    Option Text :=
  if s.needsExponent value format then decimals.absChecked?.map (withExponent value format)
  else some format

/-- Formats a number with the decimals asked for. The general format cannot
take decimals, so a grouped number does in its place. -/
def formatPlain (c : Culture) (template? : Option Text) (format : Text) (decimals : Decimals)
    (value : Float) : Except FormatError Text :=
  let format :=
    if decimals.count?.isSome ∧ (format = ['G'] ∨ format = ['g']) then
      ['#', ',', '0', '.', '0', '0']
    else format
  (NumberFormat.parse (decimals.apply format)).map fun f => f.format c template? value

/-- Shows a number in the unit in use. Where no decimals are asked for, the
format gets as many optional ones as the unit takes integer digits away. -/
def showIn (s : UnitSystem) (options : FormatOptions) (format : Text) (decimals : Decimals)
    (value : Float) : Except FormatError Text :=
  match s.scalingUnit? with
  | some unit =>
    if s.supports format && !hasExponent format then
      let format :=
        if decimals.count?.isSome then format else withExtraDecimals unit.exponent.toNat format
      let label? := if unit.name.template = [] then none else some unit.name.template
      formatPlain options.culture label? format decimals (unit.measure value)
    else formatPlain options.culture none format decimals value
  | none => formatPlain options.culture none format decimals value

/-- Formats a number in the unit in use, or with an exponent. -/
def format (s : UnitSystem) (options : FormatOptions) (format : Text) (decimals : Decimals)
    (value : Float) : Except FormatError Text :=
  s.showIn options (s.shownFormat value (options.formatInUse format) decimals) decimals value

/-- Formats a number where words are checked for overflow. There is no answer
if one overflows. -/
def formatChecked? (s : UnitSystem) (options : FormatOptions) (format : Text)
    (decimals : Decimals) (value : Float) : Option (Except FormatError Text) :=
  (s.shownFormatChecked? value (options.formatInUse format) decimals).map fun shown =>
    s.showIn options shown decimals value

/-- The significant digits that a number keeps when it picks its own
unit. -/
def pickingDigits : Int := 8

/-- The system with the unit for a single number. -/
def pickForSingle (s : UnitSystem) (value : Float) : UnitSystem :=
  s.pickFor (roundToDigits pickingDigits value)

/-- The system with the unit for a single number, and the number formatted
in it. -/
def formatSingle (s : UnitSystem) (options : FormatOptions) (format : Text)
    (decimals : Decimals) (value : Float) : Except FormatError Text × UnitSystem :=
  let s := s.pickForSingle value
  (s.format options format decimals value, s)

/-- The same where words are checked for overflow. -/
def formatSingleChecked? (s : UnitSystem) (options : FormatOptions) (format : Text)
    (decimals : Decimals) (value : Float) : Option (Except FormatError Text) × UnitSystem :=
  let s := s.pickForSingle value
  (s.formatChecked? options format decimals value, s)

end UnitSystem

end TickLabels
