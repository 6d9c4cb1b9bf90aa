import TickLabels.Binary64.Rounding

/-!
# Numeric ticks

Ticks that cover a range of integers at an even distance, each a multiple of
it. The distance is the first of a list of steps with which few enough
intervals cover the range. Beyond the list the steps continue with one, two
and five times the powers of ten.
-/

namespace TickLabels

/-- The largest integer of 64 bits. -/
def maxInt64 : Int := 0x7fffffffffffffff

/-- An unsigned count of 64 bits read as a signed one. -/
def signedCount (count : Nat) : Int :=
  (count : Int).bmod 0x10000000000000000

/-- The least integer not below `value / step`. -/
def ceilDiv (value step : Int) : Int :=
  -(-value / step)

theorem ceilDiv_le_iff {value step bound : Int} (h : 0 < step) :
    ceilDiv value step ≤ bound ↔ value ≤ bound * step := by
  have := Int.le_ediv_iff_mul_le (a := -bound) (b := -value) h
  unfold ceilDiv
  rw [Int.neg_mul] at this
  omega

/-- The intervals of aligned ticks that cover a range. -/
def intervalsNeeded (min max step : Int) : Int :=
  ceilDiv max step - min / step

/-- The steps `1`, `2` and `5` times the powers of ten, in ascending
order. -/
def decimalSteps : List Int :=
  (List.range 19).flatMap fun power => [1, 2, 5].map fun (n : Nat) => (n * Nat.pow 10 power : Nat)

/-- The steps that are tried: the given ones, and then the decimal steps
beyond the largest of them. -/
def stepsTried (steps : List Int) : List Int :=
  let given := steps.filter (0 < ·)
  given ++ decimalSteps.filter (given.foldl max 0 < ·)

/-- The step for a range, or the largest there is if none is large
enough. -/
def chooseStep (min max maxCount : Int) (steps : List Int) : Int :=
  ((stepsTried steps).find? fun step => intervalsNeeded min max step ≤ maxCount).getD maxInt64

/-- Ticks and their distance. -/
structure NumericTicks where
  interval : Int
  /-- The first tick minus the least number of the range. -/
  offset : Int
  first : Int
  /-- The ticks behind the first. -/
  rest : List Int
deriving DecidableEq, Repr

namespace NumericTicks

/-- All ticks. -/
def toList (t : NumericTicks) : List Int :=
  t.first :: t.rest

/-- The last tick. -/
def last (t : NumericTicks) : Int :=
  t.rest.getLastD t.first

/-- The steps from `start` until `max` is reached, as long as the ticks stay
within 64 bits. -/
def stepsUntil (start max step : Int) : Nat :=
  (min (ceilDiv (max - start) step) ((maxInt64 - start) / step)).toNat

/-- Ticks at multiples of `step` that cover a range. -/
def withStep (min max step : Int) : NumericTicks :=
  let start := clampInt64 (min / step * step)
  { interval := step
    offset := start - min
    first := start
    rest := (List.range (stepsUntil start max step)).map fun (i : Nat) => start + (i + 1) * step }

theorem length_withStep (min max step : Int) :
    (withStep min max step).toList.length =
      stepsUntil (withStep min max step).first max step + 1 := by
  simp [withStep, toList]

/-- The last tick is all steps away from the first. -/
theorem last_withStep (min max step : Int) :
    (withStep min max step).last = (withStep min max step).first +
      stepsUntil (withStep min max step).first max step * step := by
  simp only [withStep, last]
  generalize stepsUntil _ max step = n
  cases n with
  | zero => simp
  | succ n => simp [List.range_succ]

/-- Ticks that cover the range between two numbers with at most `count`
intervals, and at least one. An empty range is widened by one. -/
def cover (a b : Int) (count : Nat) (steps : List Int) : NumericTicks :=
  let low := min a b
  let high := if a = b then clampInt64 (a + 1) else max a b
  withStep low high (chooseStep low high (signedCount (max count 1)) steps)

end NumericTicks

end TickLabels
