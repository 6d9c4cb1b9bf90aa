import TickLabels.Binary64.Decode
import TickLabels.Decimal.Digits

/-!
# The shortest decimal of a double

Every double is the nearest one to all reals of an interval around it. Its
decimal notation is the number with the fewest digits in that interval, and
of those the nearest to the double itself; of two that are equally near it
is the larger. The ends of the interval belong to it when the mantissa is
even, as ties go to the even neighbour.

The search runs over ever finer decimal grids. If a grid has a point in the
interval, one of the two grid points next to the double is in it.
-/

namespace TickLabels

/-- An interval of natural numbers around a value, with or without its
ends. -/
structure Around where
  low : Nat
  value : Nat
  high : Nat
  ends : Bool
deriving DecidableEq, Repr

namespace Around

/-- Membership in the interval. -/
def contains (a : Around) (n : Nat) : Bool :=
  if a.ends then a.low ≤ n && n ≤ a.high else a.low < n && n < a.high

/-- The multiple of `unit` next to the value that lies in the interval, as
its factor. -/
def nearest? (a : Around) (unit : Nat) : Option Nat :=
  let below := a.value / unit
  let above := below + 1
  match a.contains (below * unit), a.contains (above * unit) with
  | false, false => none
  | true, false => some below
  | false, true => some above
  | true, true =>
    if a.value - below * unit < above * unit - a.value then some below else some above

/-- The coarsest grid with a point in the interval, from `10 ^ places` down:
the factor of the point and the exponent of its grid. The value itself is on
the finest grid. -/
def shortest (a : Around) : Nat → Nat × Nat
  | 0 => (a.value, 0)
  | places + 1 =>
    match a.nearest? (Nat.pow 10 (places + 1)) with
    | some factor => (factor, places + 1)
    | none => a.shortest places

/-! ## What the search finds -/

/-- What is found lies in the interval. -/
theorem contains_of_nearest? {a : Around} {unit factor : Nat} (h : a.nearest? unit = some factor) :
    a.contains (factor * unit) := by
  unfold nearest? at h
  dsimp only at h
  split at h
  · simp at h
  · simp only [Option.some.injEq] at h; simp_all
  · simp only [Option.some.injEq] at h; simp_all
  · split at h <;> simp only [Option.some.injEq] at h <;> simp_all

/-- The interval has no gaps. -/
theorem contains_of_between {a : Around} {m n p : Nat} (hm : a.contains m) (hp : a.contains p)
    (hmn : m ≤ n) (hnp : n ≤ p) : a.contains n := by
  unfold contains at *
  split <;> simp_all <;> omega

/-- **Nothing is missed**: if any multiple of the unit lies in the interval,
one next to the value does. -/
theorem isSome_nearest? {a : Around} {unit n : Nat} (hunit : 0 < unit)
    (hvalue : a.contains a.value) (hn : a.contains (n * unit)) : (a.nearest? unit).isSome := by
  have hdiv := Nat.div_add_mod' a.value unit
  have hmod := Nat.mod_lt a.value hunit
  have hnext : a.contains (a.value / unit * unit) ∨ a.contains ((a.value / unit + 1) * unit) := by
    rcases Nat.lt_or_ge (a.value / unit) n with h | h
    · right
      refine contains_of_between hvalue hn ?_ (Nat.mul_le_mul_right unit h)
      rw [Nat.add_mul]; omega
    · left
      exact contains_of_between hn hvalue (Nat.mul_le_mul_right unit h) (by omega)
  unfold nearest?
  dsimp only
  split
  · simp_all
  · rfl
  · rfl
  · split <;> rfl

end Around

namespace Magnitude

/-- A quarter of the step to the next larger double, as `n · 10 ^ k`. -/
def quarter (m : Magnitude) : Nat × Int :=
  toDecimal ⟨1, m.exponent - 2⟩

/-- The step down from a power of two is half the step up, unless the
numbers below are subnormal. -/
def narrowBelow (m : Magnitude) : Bool :=
  m.mantissa = leastNormalMantissa && minExponent < m.exponent

/-- The numbers that round to this one, in quarters of its step. -/
def around (m : Magnitude) : Around :=
  let unit := m.quarter.1
  { low := (4 * m.mantissa - if m.narrowBelow then 1 else 2) * unit
    value := 4 * m.mantissa * unit
    high := (4 * m.mantissa + 2) * unit
    ends := m.mantissa % 2 = 0 }

/-- The shortest decimal. -/
def shortest (m : Magnitude) : Digits :=
  if m.mantissa = 0 then .zero
  else
    let (factor, places) := m.around.shortest (digitsOf m.around.value).length
    .ofScaled factor (places + m.quarter.2)

end Magnitude

namespace Digits

/-- The shortest digits of the magnitude of a finite double. What is not
finite has none, and the point stands where it does for numbers from one to
ten. -/
def shortest (x : Float) : Digits :=
  match Magnitude.ofFloat? x with
  | some m => m.shortest
  | none => ⟨[], 1⟩

/-- The significant digits that are trusted in a double. -/
def maxSignificant : Nat := 16

/-- The shortest digits, rounded to those that are trusted. -/
def ofFloat (x : Float) : Digits :=
  (shortest x).roundDigits maxSignificant

end Digits

end TickLabels
