import TickLabels.Calendar.TimeUnit

/-!
# The unit for a range of time

Which unit reads best depends on the length of the range and on the number
of ticks that are wanted.
-/

namespace TickLabels

namespace TimeUnit

/-- The least number of ticks that is reckoned with. -/
def leastCount : Float := 2.0

/-- The number of ticks that is reckoned with. -/
def effectiveCount (count : Float) : Float :=
  let whole := floor count
  if leastCount < whole then whole else leastCount

/-- The unit for a range of so many milliseconds. Each unit has a least
length and a least length for each tick. A range without any length has
none. -/
def ofLength? (millis count : Float) : Option TimeUnit :=
  let seconds := millis / 1000.0
  let minutes := seconds / 60.0
  let hours := minutes / 60.0
  let days := hours / 24.0
  if 356.0 < days ∧ 180.0 * count ≤ days then some year
  else if 60.0 < days ∧ 7.0 * count < days then some month
  else if 14.0 < days ∧ 2.0 * count < days then some week
  else if 2.0 < days ∧ 12.0 * count < hours then some day
  else if 24.0 ≤ hours ∧ count ≤ hours then some hour
  else if 2.0 < minutes ∧ count ≤ minutes then some minute
  else if 2.0 < seconds ∧ 0.8 * count ≤ seconds then some second
  else if 0.0 < millis then some millisecond
  else none

/-- The finest field of an instant that differs from the start of a year. -/
def finestOf {cal : Calendar} (i : Instant cal) : TimeUnit :=
  if i.millisecond ≠ 0 then millisecond
  else if i.second ≠ 0 then second
  else if i.minute ≠ 0 then minute
  else if i.hour ≠ 0 then hour
  else if i.date.day ≠ 1 then day
  else if i.date.month ≠ 1 then month
  else year

/-- The unit in which a range reads best with about `count` ticks. -/
def infer {cal : Calendar} (min max : Instant cal) (count : Float) : TimeUnit :=
  let millis := Float.ofNat (min.millisUntil max).natAbs
  (ofLength? millis (effectiveCount count)).getD (finestOf min)

end TimeUnit

end TickLabels
