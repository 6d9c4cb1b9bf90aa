import TickLabels.Binary64.Tolerance
import TickLabels.Text

/-!
# Display units

A display unit stands for a power of ten, as thousands and millions do. A
number is shown in a unit as a multiple of it, with the label of the unit
around. Each unit has a range of magnitudes for which it is used.
-/

namespace TickLabels

/-- What a unit is called: the title of an axis in this unit, and the
template around a number. -/
structure UnitName where
  title : Text
  template : Text
deriving DecidableEq, Repr

/-- The names of units by their power of ten. -/
abbrev NameLookup := Int → Option UnitName

namespace NameLookup

/-- The power under which tables of data labels look up the unit that is
found by itself. -/
def autoKey : Int := -1

/-- The power under which tables of data labels look up the unit that leaves
numbers as they are. -/
def plainKey : Int := 0

/-- The English names of thousands, millions, billions and trillions. -/
def english : NameLookup := fun exponent =>
  if exponent = autoKey then some ⟨"Auto".toList, []⟩
  else if exponent = plainKey then some ⟨"None".toList, []⟩
  else if exponent = 3 then some ⟨"Thousands".toList, ['{', '0', '}', 'K']⟩
  else if exponent = 6 then some ⟨"Millions".toList, ['{', '0', '}', 'M']⟩
  else if exponent = 9 then some ⟨"Billions".toList, ['{', '0', '}', 'b', 'n']⟩
  else if exponent = 12 then some ⟨"Trillions".toList, ['{', '0', '}', 'T']⟩
  else none

end NameLookup

/-- A unit and the magnitudes it is used for, from `rangeMin` up to
`rangeMax`. -/
structure DisplayUnit where
  value : Float
  name : UnitName
  rangeMin : Float
  rangeMax : Float
deriving DecidableEq

namespace DisplayUnit

/-- A number as a multiple of the unit. -/
def measure (u : DisplayUnit) (x : Float) : Float :=
  if u.value == 0.0 then x else removeNoise (x / u.value)

/-- The digits behind the leading one that count in comparing a magnitude
with a range. -/
def rangeDigits : Int := 3

/-- The tolerance of the range comparison. -/
def tolerance (x : Float) : Float :=
  (gridStep? x rangeDigits).getD absoluteTolerance

/-- The magnitude of `x` lies in the range of the unit, but for noise. -/
def appliesTo (u : DisplayUnit) (x : Float) : Bool :=
  let magnitude := x.abs
  let precision := tolerance magnitude
  atLeastWithin precision magnitude u.rangeMin && lessWithin precision magnitude u.rangeMax

/-- A unit above one changes numbers. -/
def scales (u : DisplayUnit) : Bool :=
  1.0 < u.value

/-- The power of ten of the unit. -/
def exponent (u : DisplayUnit) : Int :=
  if u.scales then orderOfMagnitude u.value else 0

end DisplayUnit

end TickLabels
