import TickLabels.Ticks.Inference
import TickLabels.Ticks.Numeric

/-!
# Ticks on a time axis

A range of time is measured in whole units from the start of the coarser
period that its first instant lies in: months from the year, hours from the
day, and so on. The ticks that cover it as a range of integers are then
counted off from there.
-/

namespace TickLabels

/-- Ticks on a time axis, on the civil calendar unless another is meant. -/
structure DateTicks (cal : Calendar := civil) where
  /-- The first tick. -/
  min : Instant cal
  /-- The last tick. -/
  max : Instant cal
  unit : TimeUnit
  /-- The units between two ticks. -/
  interval : Int
  /-- The units from the start of the range to the first tick, which is
  never positive. -/
  offset : Int
  ticks : List (Instant cal)
deriving DecidableEq

/-- A list without elements that repeat the one before them. -/
def dropRepeats {α : Type} [DecidableEq α] : List α → List α
  | [] => []
  | [a] => [a]
  | a :: b :: as => if a = b then dropRepeats (b :: as) else a :: dropRepeats (b :: as)

namespace DateTicks

variable {cal : Calendar}

/-- Ticks at the instants of numeric ticks. Ticks beyond the calendar fall
together at its ends and are kept once. -/
def ofNumeric (unit : TimeUnit) (numeric : NumericTicks) (toInstant : Int → Instant cal) :
    DateTicks cal :=
  let first := toInstant numeric.first
  let ticks := dropRepeats (numeric.toList.map toInstant)
  { min := ticks.headD first
    max := ticks.getLastD first
    unit
    interval := numeric.interval
    offset := numeric.offset
    ticks }

/-- One if `i` is later than `start`. -/
def beyond (i start : Instant cal) : Int :=
  if start < i then 1 else 0

/-- Ticks at the start of years, at multiples of the interval. -/
def years (min max : Instant cal) (count : Nat) : DateTicks cal :=
  let first := min.date.year
  let last := max.date.year + beyond max max.startOfYear
  ofNumeric .year (.cover first last count TimeUnit.year.spacings) fun year =>
    min.startOfYear.addYears (year - first)

/-- Ticks at the start of months, counted from January of the first year. -/
def months (min max : Instant cal) (count : Nat) : DateTicks cal :=
  let first := (min.date.month : Int) - 1
  let last := (max.date.year - min.date.year) * 12 + (max.date.month - 1) +
    beyond max max.startOfMonth
  ofNumeric .month (.cover first last count TimeUnit.month.spacings) min.startOfYear.addMonths

/-- Ticks of a unit of fixed length, counted from `epoch`, for a range that
starts `first` units after it. -/
def fixed (unit : TimeUnit) (epoch : Instant cal) (first : Int) (max : Instant cal) (count : Nat) :
    DateTicks cal :=
  let last := ceilDiv (epoch.millisUntil max) unit.millis
  ofNumeric unit (.cover first last count unit.spacings) fun n => epoch.shift n unit

/-- Ticks at midnight on the first day of weeks. -/
def weeks (min max : Instant cal) (count : Nat) (firstDay : Weekday) : DateTicks cal :=
  let intoWeek := (7 + min.weekday - firstDay.daysFromSunday) % 7
  fixed .week (min.midnight.addDays (-(intoWeek : Int))) 0 max count

/-- Ticks at midnight. -/
def days (min max : Instant cal) (count : Nat) : DateTicks cal :=
  fixed .day min.midnight 0 max count

/-- Ticks at full hours, counted from midnight. -/
def hours (min max : Instant cal) (count : Nat) : DateTicks cal :=
  fixed .hour min.midnight min.hour max count

/-- Ticks at full minutes, counted from the hour. -/
def minutes (min max : Instant cal) (count : Nat) : DateTicks cal :=
  fixed .minute (min.truncate (cal.hour min) 0 0) min.minute max count

/-- Ticks at full seconds, counted from the minute. -/
def seconds (min max : Instant cal) (count : Nat) : DateTicks cal :=
  fixed .second (min.truncate (cal.hour min) (cal.minute min) 0) min.second max count

/-- Ticks at full milliseconds, counted from the second. -/
def milliseconds (min max : Instant cal) (count : Nat) : DateTicks cal :=
  fixed .millisecond (min.truncate (cal.hour min) (cal.minute min) (cal.second min))
    min.millisecond max count

/-- Ticks that cover the time between two instants with about `count`
intervals. The unit is inferred unless it is given. -/
def cover (a b : Instant cal) (count : Nat) (unit? : Option TimeUnit) (firstDay : Weekday) :
    DateTicks cal :=
  let (min, max) := if a ≤ b then (a, b) else (b, a)
  match unit?.getD (.infer min max (Float.ofNat count)) with
  | .year => years min max count
  | .month => months min max count
  | .week => weeks min max count firstDay
  | .day => days min max count
  | .hour => hours min max count
  | .minute => minutes min max count
  | .second => seconds min max count
  | .millisecond => milliseconds min max count

end DateTicks

end TickLabels
