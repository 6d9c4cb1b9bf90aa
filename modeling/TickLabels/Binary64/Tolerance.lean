import TickLabels.Binary64.Power
import TickLabels.Binary64.Rounding

/-!
# Comparing and rounding with a tolerance

A double carries noise in its last digits, so magnitudes are compared and
rounded relative to their power of ten.
-/

namespace TickLabels

namespace Magnitude

/-- The power of ten of a magnitude that is not zero, read off a logarithm
in binary. Next to the least doubles the logarithm has steps of `2 ^ -44`,
so a number that falls short of a power of ten by no more than that part has
the logarithm of that power. -/
def logarithmFloor (m : Magnitude) : Int :=
  let e := m.decimalExponent
  let (n, d) := m.overPowerOfTen (e + 1)
  let steps := Nat.pow 2 44
  if (steps - 1) * d ≤ steps * n then e + 1 else e

end Magnitude

/-- The power of ten of `x`: the exponent `e` for which `powerOfTen e` is the
last that does not exceed it. It is zero for zero and for what is not
finite. -/
def orderOfMagnitude (x : Float) : Int :=
  match Magnitude.ofFloat? x with
  | none => 0
  | some m =>
    if m.mantissa = 0 then 0
    else
      let e := m.logarithmFloor
      if x.abs < powerOfTen e then e - 1
      else if powerOfTen (e + 1) ≤ x.abs then e + 1
      else e

/-- The tolerance that goes with numbers of no magnitude. -/
def absoluteTolerance : Float := 0.0001

/-- The step at which `x` has `digits` digits behind its leading one. Zero
and what is not finite have none. -/
def gridStep? (x : Float) (digits : Int) : Option Float :=
  if x == 0.0 || !x.isFinite then none else some (powerOfTen (orderOfMagnitude x - digits))

/-- Equal, or closer than `precision`. -/
def equalWithin (precision x y : Float) : Bool :=
  x == y || (x - y).abs < precision

/-- Greater, or equal within `precision`. -/
def atLeastWithin (precision x y : Float) : Bool :=
  y < x || equalWithin precision x y

/-- Less, and not equal within `precision`. -/
def lessWithin (precision x y : Float) : Bool :=
  x < y && !equalWithin precision x y

/-- The largest number of decimals that are cleaned of noise. -/
def maxCleanDecimals : Int := 15

/-- `x` rounded to a multiple of `precision`. A precision below one is a
power of ten with so many decimals, and the result is rounded to these. -/
def roundToMultiple (precision x : Float) : Float :=
  if precision == 0.0 || !precision.isFinite || !x.isFinite then x
  else
    let result := roundHalfAway (x / precision) * precision
    let decimals := -orderOfMagnitude precision
    if 0 < decimals ∧ decimals ≤ maxCleanDecimals then roundDecimals decimals.toNat result
    else result

/-- `x` rounded to `digits` significant digits. -/
def roundToDigits (digits : Int) (x : Float) : Float :=
  match gridStep? x (digits - 1) with
  | some precision => roundToMultiple precision x
  | none => x

/-- The significant digits of a double that are free of noise. -/
def reliableDigits : Int := 15

/-- `x` without the noise in its last digits. -/
def removeNoise (x : Float) : Float :=
  roundToDigits reliableDigits x

end TickLabels
