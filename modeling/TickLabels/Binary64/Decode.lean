import TickLabels.Decimal.Numeral

/-!
# Doubles as exact numbers

A finite double is `mantissa · 2 ^ exponent` up to its sign. Rounding and
decimal notation work on these two integers, where nothing is lost. The
mantissa of a normal number has 53 binary digits; subnormal numbers have
the least exponent and a shorter mantissa.
-/

namespace TickLabels

/-- The magnitude `mantissa · 2 ^ exponent`. -/
structure Magnitude where
  mantissa : Nat
  exponent : Int
deriving DecidableEq, Repr

namespace Magnitude

/-- The exponent of subnormal numbers, the least of all. -/
def minExponent : Int := -1074

/-- The mantissa of a power of two, a one and 52 zeros in binary. -/
def leastNormalMantissa : Nat := 0x10000000000000

/-- The magnitude of a finite double. -/
def ofFloat? (x : Float) : Option Magnitude :=
  match x.toModel.unpack with
  | .finite _ mantissa exponent _ => some ⟨mantissa, exponent⟩
  | .zero _ => some ⟨0, 0⟩
  | .infinity _ | .notANumber => none

/-- The whole part. -/
def whole (m : Magnitude) : Nat :=
  if 0 ≤ m.exponent then m.mantissa * Nat.pow 2 m.exponent.toNat
  else m.mantissa / Nat.pow 2 (-m.exponent).toNat

/-- `m` as a whole number of powers of ten: `n · 10 ^ k` with `k` at most
zero. A half is five tenths, so this is always possible. -/
def toDecimal (m : Magnitude) : Nat × Int :=
  if 0 ≤ m.exponent then (m.mantissa * Nat.pow 2 m.exponent.toNat, 0)
  else (m.mantissa * Nat.pow 5 (-m.exponent).toNat, m.exponent)

/-- The power of ten of the leading decimal digit. -/
def decimalExponent (m : Magnitude) : Int :=
  let (n, k) := m.toDecimal
  (digitsOf n).length - 1 + k

/-- `m` divided by `10 ^ k` as a fraction of two natural numbers. -/
def overPowerOfTen (m : Magnitude) (k : Int) : Nat × Nat :=
  let (n, j) := m.toDecimal
  if k ≤ j then (n * Nat.pow 10 (j - k).toNat, 1) else (n, Nat.pow 10 (k - j).toNat)

end Magnitude

end TickLabels
