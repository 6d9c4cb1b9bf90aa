import TickLabels.Calendar.Arithmetic

/-!
# Units of time

The units in which ticks on a time axis are spaced. From the week down they
have a fixed length; months and years follow the calendar.
-/

namespace TickLabels

/-- A unit of time. -/
inductive TimeUnit where
  | year
  | month
  | week
  | day
  | hour
  | minute
  | second
  | millisecond
deriving DecidableEq, Repr

namespace TimeUnit

/-- The spacings that read well, in ascending order. -/
def spacings : TimeUnit → List Int
  | year => [1, 2, 5, 10, 20, 50, 100, 200, 500, 1000]
  | month => [1, 2, 3, 6, 12]
  | week => [1, 2, 4, 8]
  | day => [1, 2, 3, 7, 14]
  | hour => [1, 2, 3, 6, 12, 24]
  | minute => [1, 2, 5, 10, 15, 30, 60, 120, 180, 360, 720, 1440]
  | second => [1, 2, 5, 10, 15, 30, 60, 120, 300, 600, 900, 1800, 3600]
  | millisecond => [1, 2, 5, 10, 20, 50, 100, 200, 500, 1000]

/-- The length of a unit in milliseconds. Months and years have no length
of their own and count as one. -/
def millis : TimeUnit → Int
  | week => 7 * 24 * 60 * 60 * 1000
  | day => 24 * 60 * 60 * 1000
  | hour => 60 * 60 * 1000
  | minute => 60 * 1000
  | second => 1000
  | year | month | millisecond => 1

end TimeUnit

namespace Instant

variable {cal : Calendar}

/-- The instant so many units away. -/
def shift (i : Instant cal) (n : Int) : TimeUnit → Instant cal
  | .year => i.addYears n
  | .month => i.addMonths n
  | .week => i.addWeeks n
  | .day => i.addDays n
  | .hour => i.addHours n
  | .minute => i.addMinutes n
  | .second => i.addSeconds n
  | .millisecond => i.addMillis n

/-- The instant `amount` units away, with `amount` rounded to a whole
number. -/
def addRounded (i : Instant cal) (amount : Float) (unit : TimeUnit) : Instant cal :=
  i.shift (toInt64 (roundHalfAway amount)) unit

end Instant

end TickLabels
