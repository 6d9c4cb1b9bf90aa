/-!
# Powers of doubles

A power with a whole exponent is computed by repeated squaring, with one
rounding for each product. From `10 ^ 23` on the result is not always the
double nearest to the exact power, so the order of the products is part of
the definition.
-/

namespace TickLabels

/-- `result` times the `n`-th power of `base`: the lowest binary digit of
the exponent decides whether `base` is multiplied in, and the next digit
goes with the square. -/
def powerLoop (result base : Float) (n : Nat) : Float :=
  let result := if n % 2 = 1 then result * base else result
  if n / 2 = 0 then result else powerLoop result (base * base) (n / 2)
termination_by n
decreasing_by omega

/-- The `n`-th power of a double. -/
def power (base : Float) (n : Nat) : Float :=
  powerLoop 1.0 base n

/-- The double that serves as `10 ^ e`. For a negative exponent it is the
inverse of the power with the positive one. -/
def powerOfTen (e : Int) : Float :=
  if 0 ≤ e then power 10.0 e.toNat else 1.0 / power 10.0 (-e).toNat

end TickLabels
