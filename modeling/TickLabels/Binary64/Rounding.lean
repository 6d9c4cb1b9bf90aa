import TickLabels.Binary64.Decode

/-!
# Rounding doubles

Rounding to whole numbers and to decimals, on the exact value of a double.
What is not finite stays as it is.
-/

namespace TickLabels

/-- The double of a natural number with the sign of `x`. A negative number
that rounds to zero gives the negative zero. -/
def withSignOf (x : Float) (n : Float) : Float :=
  match x.toModel.unpack with
  | .finite .negative .. | .zero .negative => -n
  | _ => n

/-- The nearest whole number; a half is rounded away from zero. -/
def roundHalfAway (x : Float) : Float :=
  match Magnitude.ofFloat? x with
  | none => x
  | some m =>
    if 0 ≤ m.exponent then x
    else
      let half := Nat.pow 2 ((-m.exponent).toNat - 1)
      withSignOf x (Float.ofNat ((m.mantissa + half) / (2 * half)))

/-- The largest whole number that is not above `x`. -/
def floor (x : Float) : Float :=
  match Magnitude.ofFloat? x with
  | none => x
  | some m =>
    if 0 ≤ m.exponent then x
    else
      let unit := Nat.pow 2 (-m.exponent).toNat
      if x < 0.0 then -Float.ofNat ((m.mantissa + unit - 1) / unit)
      else withSignOf x (Float.ofNat (m.mantissa / unit))

/-- `n / d` to the nearest natural number; a half goes to the even one. -/
def divHalfEven (n d : Nat) : Nat :=
  let q := n / d
  let twice := 2 * (n % d)
  if twice < d then q
  else if d < twice then q + 1
  else q + q % 2

/-- The rounded quotient is within half a unit of the exact one. -/
theorem divHalfEven_le {n d : Nat} (h : 0 < d) :
    2 * n ≤ 2 * (divHalfEven n d * d) + d ∧ 2 * (divHalfEven n d * d) ≤ 2 * n + d := by
  have hdiv := Nat.div_add_mod' n d
  have hmod := Nat.mod_lt n h
  unfold divHalfEven
  dsimp only
  generalize n / d = q at *
  generalize n % d = r at *
  split
  · omega
  · split
    · rw [Nat.add_mul]; omega
    · have : q % 2 = 0 ∨ q % 2 = 1 := by omega
      rcases this with h' | h' <;> rw [h', Nat.add_mul] <;> omega

/-- The nearest double to `x` rounded to `places` decimals. The exact value
of `x` is rounded, a half to the even neighbour. -/
def roundDecimals (places : Nat) (x : Float) : Float :=
  match Magnitude.ofFloat? x with
  | none => x
  | some m =>
    let (n, d) := m.overPowerOfTen (-(places : Int))
    withSignOf x (Float.ofScientific (divHalfEven n d) true places)

/-- An integer moved to the nearest one of 64 bits. -/
def clampInt64 (n : Int) : Int :=
  max (-0x8000000000000000) (min n 0x7fffffffffffffff)

/-- The whole part of `x`, within 64 bits. What is not a number counts as
zero. -/
def toInt64 (x : Float) : Int :=
  match x.toModel.unpack with
  | .finite sign mantissa exponent _ =>
    clampInt64 (sign.apply (Magnitude.mk mantissa exponent).whole)
  | .infinity .positive => 0x7fffffffffffffff
  | .infinity .negative => -0x8000000000000000
  | .zero _ | .notANumber => 0

end TickLabels
