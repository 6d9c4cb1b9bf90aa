import TickLabels.Decimal.Numeral

/-!
# Decimal digits of a magnitude

A magnitude that is not negative is held as `0.d₁d₂…dₙ · 10 ^ point`. The
digits of a value that comes out of this file neither end in a zero nor are
padded, and zero has none, wherever its point stands. Rounding drops digits and
rounds half away from zero, which on a magnitude is up.
-/

namespace TickLabels

/-- The magnitude `0.d₁d₂…dₙ · 10 ^ point`. -/
structure Digits where
  digits : List Digit
  point : Int
deriving DecidableEq, Repr

/-- The integer and the fraction digits of a number in plain notation. -/
structure PlainDigits where
  /-- Without leading zeros. -/
  integer : List Digit
  fraction : List Digit
deriving DecidableEq, Repr

/-- The digits of a number in scientific notation. -/
structure ScientificDigits where
  /-- The digit before the point. -/
  lead : Digit
  fraction : List Digit
  exponent : Int
deriving DecidableEq, Repr

/-- Digits without the zeros at their end. -/
def dropTrailingZeros (digits : List Digit) : List Digit :=
  (digits.reverse.dropWhile (· = 0)).reverse

/-- Only zeros are dropped. -/
theorem dropTrailingZeros_append (digits : List Digit) :
    ∃ count, digits = dropTrailingZeros digits ++ List.replicate count 0 := by
  refine ⟨(digits.reverse.takeWhile (· = 0)).length, ?_⟩
  have hzeros : digits.reverse.takeWhile (· = 0) =
      List.replicate (digits.reverse.takeWhile (· = 0)).length 0 := by
    refine List.eq_replicate_iff.2 ⟨rfl, fun d hd => ?_⟩
    have hall := List.all_takeWhile (p := (· = (0 : Digit))) (l := digits.reverse)
    simpa using List.all_eq_true.1 hall d hd
  have := congrArg List.reverse (digits.reverse.takeWhile_append_dropWhile (p := (· = 0)))
  rw [List.reverse_append, List.reverse_reverse, hzeros, List.reverse_replicate] at this
  exact this.symm

/-- And all of them. -/
theorem getLast?_dropTrailingZeros (digits : List Digit) :
    (dropTrailingZeros digits).getLast? ≠ some 0 := by
  unfold dropTrailingZeros
  rw [List.getLast?_reverse]
  intro h
  have := List.head?_dropWhile_not (· = (0 : Digit)) digits.reverse
  rw [h] at this
  simp at this

/-- The fraction without the zeros at its end, but not shorter than
`least`. -/
def shortenFraction (least : Nat) (fraction : List Digit) : List Digit :=
  fraction.take (max (dropTrailingZeros fraction).length least)

/-- The integer digits without leading zeros, filled up to `least`. -/
def padInteger (least : Nat) (integer : List Digit) : List Digit :=
  let digits := integer.dropWhile (· = 0)
  List.replicate (least - digits.length) 0 ++ digits

/-- One more in the last place: whether the sum carries over the first
digit, and its digits. Without digits the one is carried at once. -/
def increment : List Digit → Bool × List Digit
  | [] => (true, [])
  | d :: ds =>
    match increment ds with
    | (false, ds) => (false, d :: ds)
    | (true, ds) => if d = 9 then (true, 0 :: ds) else (false, (d + 1) :: ds)

theorem length_increment (digits : List Digit) : (increment digits).2.length = digits.length := by
  fun_induction increment digits <;> simp_all

namespace PlainDigits

/-- Nothing but zeros. -/
def isZero (d : PlainDigits) : Bool :=
  d.integer.all (· = 0) && d.fraction.all (· = 0)

end PlainDigits

namespace ScientificDigits

/-- Nothing but zeros. -/
def isZero (d : ScientificDigits) : Bool :=
  d.lead = 0 && d.fraction.all (· = 0)

end ScientificDigits

namespace Digits

/-- Zero has no digits. -/
def zero : Digits := ⟨[], 0⟩

def isZero (d : Digits) : Bool :=
  d.digits = []

/-- The magnitude of digits that may end in zeros. -/
def ofList (digits : List Digit) (point : Int) : Digits :=
  match dropTrailingZeros digits with
  | [] => zero
  | digits => ⟨digits, point⟩

/-- The magnitude `n · 10 ^ exponent`. -/
def ofScaled (n : Nat) (exponent : Int) : Digits :=
  let digits := digitsOf n
  ofList digits (digits.length + exponent)

/-- The power of ten of the leading digit. -/
def exponent (d : Digits) : Int :=
  d.point - 1

/-- The first `keep` digits, rounded half up on the digit behind them. A
carry over the first digit puts a one in front. Where the place of rounding is
in front of the first digit, all digits go and the point stays. -/
def keepDigits (keep : Int) (d : Digits) : Digits :=
  if keep < 0 then { d with digits := [] }
  else
    match d.digits.drop keep.toNat with
    | [] => d
    | next :: _ =>
      let front := d.digits.take keep.toNat
      if 5 ≤ next then
        match increment front with
        | (true, digits) => ofList (1 :: digits) (d.point + 1)
        | (false, digits) => ofList digits d.point
      else ofList front d.point

/-- Rounded to `places` decimals. -/
def roundPlaces (places : Nat) (d : Digits) : Digits :=
  d.keepDigits (d.point + places)

/-- Rounded to `count` significant digits. -/
def roundDigits (count : Nat) (d : Digits) : Digits :=
  d.keepDigits count

/-- The digit at an index. All digits outside are zero. -/
def nthDigit (d : Digits) (index : Int) : Digit :=
  if index < 0 then 0 else d.digits.getD index.toNat 0

/-- The plain notation with `places` decimals. Digits further to the right
are cut off. -/
def plainParts (places : Nat) (d : Digits) : PlainDigits where
  integer := (List.range d.point.toNat).map fun (i : Nat) => d.nthDigit i
  fraction := (List.range places).map fun (i : Nat) => d.nthDigit (d.point + i)

/-- The plain notation, rounded to `places` decimals. -/
def plain (places : Nat) (d : Digits) : PlainDigits :=
  (d.roundPlaces places).plainParts places

/-- The scientific notation, rounded to `places` decimals. Zero has the
exponent zero. -/
def scientific (places : Nat) (d : Digits) : ScientificDigits :=
  let rounded := d.roundDigits (places + 1)
  match rounded.digits with
  | [] => ⟨0, List.replicate places 0, 0⟩
  | lead :: rest => ⟨lead, rest ++ List.replicate (places - rest.length) 0, rounded.exponent⟩

end Digits

end TickLabels
