import TickLabels.Calendar.Weekday
import TickLabels.Text

/-!
# Cultures

What a culture decides about numbers and dates: separators, signs, symbols,
the patterns that combine them, and the names of days and months. In a
pattern `n` stands for the number, `$` for the currency symbol, `%` for the
percent symbol and `-` for the negative sign.
-/

namespace TickLabels

/-- The conventions of a culture. -/
structure Culture where
  name : Text
  decimalSeparator : Char
  groupSeparator : Char
  /-- The sizes of digit groups from the decimal point outwards. The last
  size repeats; a size of zero ends grouping. -/
  groupSizes : List Nat
  negativeSign : Text
  percentSymbol : Text
  permilleSymbol : Text
  currencySymbol : Text
  currencyPositivePattern : Text
  currencyNegativePattern : Text
  percentPositivePattern : Text
  percentNegativePattern : Text
  numberNegativePattern : Text
  nanSymbol : Text
  positiveInfinitySymbol : Text
  negativeInfinitySymbol : Text
  firstDayOfWeek : Weekday
  /-- From Sunday on. -/
  dayNames : List Text
  abbreviatedDayNames : List Text
  /-- From January on. -/
  monthNames : List Text
  abbreviatedMonthNames : List Text
deriving DecidableEq, Repr

namespace Culture

/-- The name of a weekday, if the culture has one for it. -/
def dayName? (c : Culture) (day : Weekday) : Option Text :=
  c.dayNames[day.daysFromSunday]?

def abbreviatedDayName? (c : Culture) (day : Weekday) : Option Text :=
  c.abbreviatedDayNames[day.daysFromSunday]?

/-- The entry of a month, counted from one. -/
def monthEntry? (names : List Text) (month : Nat) : Option Text :=
  if month = 0 then none else names[month - 1]?

def monthName? (c : Culture) (month : Nat) : Option Text :=
  monthEntry? c.monthNames month

def abbreviatedMonthName? (c : Culture) (month : Nat) : Option Text :=
  monthEntry? c.abbreviatedMonthNames month

/-- What is shown for a number that is not finite. -/
def symbolFor? (c : Culture) (value : Float) : Option Text :=
  if value.isNaN then some c.nanSymbol
  else if value.isInf then
    some (if 0.0 < value then c.positiveInfinitySymbol else c.negativeInfinitySymbol)
  else none

/-- A pattern with its letters filled in around `number`. -/
def fillPattern (c : Culture) (pattern number : Text) : Text :=
  pattern.flatMap fun letter =>
    match letter with
    | 'n' => number
    | '$' => c.currencySymbol
    | '%' => c.percentSymbol
    | '-' => c.negativeSign
    | other => [other]

end Culture

end TickLabels
