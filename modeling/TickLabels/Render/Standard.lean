import TickLabels.Binary64.Rounding
import TickLabels.Culture
import TickLabels.Decimal.Shortest
import TickLabels.Pattern.Standard
import TickLabels.Render.Grouping

/-!
# Rendering standard formats

Each style writes the digits of the number in its notation and adds the sign
or the symbols of the culture. A number that is rounded to zero has no
sign.
-/

namespace TickLabels

/-- The text with the negative sign of the culture in front, if asked. -/
def withSign (c : Culture) (negative : Bool) (text : Text) : Text :=
  if negative then c.negativeSign ++ text else text

/-- The fraction with its separator. An empty fraction has none. -/
def fractionPart (c : Culture) (fraction : List Digit) : Text :=
  if fraction = [] then [] else c.decimalSeparator :: digitText fraction

/-- A number in plain notation. An empty integer part is shown as zero. -/
def fixedText (c : Culture) (grouping : Bool) (d : PlainDigits) : Text :=
  let integer :=
    if d.integer = [] then ['0']
    else if grouping then groupedText c.groupSizes c.groupSeparator d.integer
    else digitText d.integer
  integer ++ fractionPart c d.fraction

/-- An exponent: the letter, a sign in any case, and at least `width`
digits. -/
def exponentText (c : Culture) (upper : Bool) (width : Nat) (exponent : Int) : Text :=
  (if upper then 'E' else 'e') ::
    ((if exponent < 0 then c.negativeSign else ['+']) ++ padZeros width (numeral exponent.natAbs))

/-- All digits of a magnitude: in plain notation from `10 ^ -4` up to
`10 ^ limit`, and with an exponent otherwise. -/
def generalText (c : Culture) (upper : Bool) (limit : Int) (d : Digits) : Text :=
  match d.digits with
  | [] => ['0']
  | lead :: rest =>
    if -4 ≤ d.exponent ∧ d.exponent < limit then
      if d.point ≤ 0 then
        '0' :: c.decimalSeparator :: (List.replicate d.point.natAbs '0' ++ digitText d.digits)
      else
        let places := d.point.toNat
        digitText (d.digits.take places) ++ List.replicate (places - d.digits.length) '0' ++
          fractionPart c (d.digits.drop places)
    else lead.char :: (fractionPart c rest ++ exponentText c upper 2 d.exponent)

/-- The character of a hexadecimal digit. -/
def hexDigit (upper : Bool) (n : Nat) : Char :=
  if n < 10 then Char.ofNat ('0'.toNat + n)
  else Char.ofNat ((if upper then 'A' else 'a').toNat + (n - 10))

/-- The hexadecimal digits of `n` in front of `tail`. -/
def prependHex (upper : Bool) (n : Nat) (tail : Text) : Text :=
  if n = 0 then tail else prependHex upper (n / 16) (hexDigit upper (n % 16) :: tail)
termination_by n
decreasing_by omega

/-- A number in hexadecimal. -/
def hexNumeral (upper : Bool) (n : Nat) : Text :=
  if n = 0 then ['0'] else prependHex upper n []

namespace StandardFormat

/-- The precision of fixed notations where none is given. -/
def fixedPlaces : Nat := 2

/-- The decimals of scientific notation where none are given. -/
def exponentialPlaces : Nat := 6

/-- The significant digits of general notation where none are given. -/
def generalDigits : Nat := 15

/-- The power of ten from which round-trip notation has an exponent. -/
def roundTripLimit : Int := 15

/-- The text of a finite number. -/
def render (f : StandardFormat) (c : Culture) (value : Float) : Text :=
  let negative : Bool := value < 0.0
  let upper := !f.lowercase
  let fixedPrecision := f.precision.getD fixedPlaces
  match f.style with
  | .currency =>
    let d := (Digits.ofFloat value).plain fixedPrecision
    c.fillPattern
      (if negative && !d.isZero then c.currencyNegativePattern else c.currencyPositivePattern)
      (fixedText c true d)
  | .decimal =>
    let d := (Digits.ofFloat value).plain 0
    withSign c (negative && !d.isZero) (padZeros (f.precision.getD 0) (fixedText c false d))
  | .exponential =>
    let d := (Digits.ofFloat value).scientific (f.precision.getD exponentialPlaces)
    withSign c negative
      (d.lead.char :: (fractionPart c d.fraction ++ exponentText c upper 3 d.exponent))
  | .fixedPoint =>
    let d := (Digits.ofFloat value).plain fixedPrecision
    withSign c (negative && !d.isZero) (fixedText c false d)
  | .number =>
    let d := (Digits.ofFloat value).plain fixedPrecision
    if negative && !d.isZero then c.fillPattern c.numberNegativePattern (fixedText c true d)
    else fixedText c true d
  | .percent =>
    let d := (Digits.ofFloat (value * 100.0)).plain fixedPrecision
    c.fillPattern
      (if negative && !d.isZero then c.percentNegativePattern else c.percentPositivePattern)
      (fixedText c true d)
  | .general =>
    let precision :=
      match f.precision with
      | none | some 0 => generalDigits
      | some p => p
    let d := (Digits.ofFloat value).roundDigits precision
    withSign c (negative && !d.isZero) (generalText c upper precision d)
  | .roundTrip =>
    let d := Digits.shortest value
    withSign c (negative && !d.isZero) (generalText c upper roundTripLimit d)
  | .hexadecimal =>
    let n := (roundHalfAway value.abs).toUInt64.toNat
    withSign c (negative && n ≠ 0) (padZeros (f.precision.getD 0) (hexNumeral upper n))

end StandardFormat

end TickLabels
