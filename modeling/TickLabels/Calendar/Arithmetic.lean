import TickLabels.Binary64.Rounding
import TickLabels.Calendar.Instant

/-!
# Moving instants

Instants are moved by amounts of 64 bits. Amounts of a fixed length come down
to milliseconds, and years to months. A product beyond its word, a span that
is too long and a result beyond the calendar all end alike: at the end of the
calendar in the direction of the amount. Beside the calendar that is moved on
stands a table of the lengths of months.
-/

namespace TickLabels

/-! ## Lengths of months -/

/-- Every fourth year is a leap year, but of the full centuries only every
fourth. -/
def isLeapYear (year : Int) : Bool :=
  year % 4 = 0 && year % 100 ≠ 0 || year % 400 = 0

/-- The lengths of the months in common years. -/
def commonMonthLengths : List Nat :=
  [31, 28, 31, 30, 31, 30, 31, 31, 30, 31, 30, 31]

/-- The number of days of a month. Months are counted from one; numbers
beyond the year count as its first or last month. -/
def daysInMonth (year : Int) (month : Nat) : Nat :=
  if month = 2 ∧ isLeapYear year then 29
  else commonMonthLengths.getD (max 1 (min month 12) - 1) 31

/-! ## Words -/

/-- The product, unless it is beyond 64 bits. -/
def checkedMul? (m n : Int) : Option Int :=
  if clampInt64 (m * n) = m * n then some (m * n) else none

/-- The product, or the number of 64 bits nearest to it. -/
def saturatingMul (m n : Int) : Int :=
  clampInt64 (m * n)

/-- The number, unless it is beyond 32 bits. -/
def checkedWord? (n : Nat) : Option Nat :=
  if n ≤ 0xffffffff then some n else none

def millisPerSecond : Int := 1000

def millisPerMinute : Int := 60 * millisPerSecond

def millisPerHour : Int := 60 * millisPerMinute

def millisPerDay : Int := 24 * millisPerHour

namespace Instant

variable {cal : Calendar}

/-- The end of the calendar in the direction of an amount. -/
def limit (amount : Int) : Instant cal :=
  if amount < 0 then earliest else latest

/-! ## Fixed lengths -/

/-- The instant `amount` times `scale` milliseconds away. -/
def addScaled (i : Instant cal) (amount scale : Int) : Instant cal :=
  let shifted? := (checkedMul? amount scale).bind fun millis =>
    (cal.spanOfMillis? millis).bind (cal.add? i)
  shifted?.getD (limit amount)

def addMillis (i : Instant cal) (n : Int) : Instant cal :=
  i.addScaled n 1

def addSeconds (i : Instant cal) (n : Int) : Instant cal :=
  i.addScaled n millisPerSecond

def addMinutes (i : Instant cal) (n : Int) : Instant cal :=
  i.addScaled n millisPerMinute

def addHours (i : Instant cal) (n : Int) : Instant cal :=
  i.addScaled n millisPerHour

def addDays (i : Instant cal) (n : Int) : Instant cal :=
  i.addScaled n millisPerDay

def addWeeks (i : Instant cal) (n : Int) : Instant cal :=
  i.addDays (saturatingMul n 7)

/-! ## Months and years -/

/-- The same time of day on the same day of the month so many months away. The
months are counted as a word without a sign, forwards or backwards. -/
def addMonths (i : Instant cal) (n : Int) : Instant cal :=
  let shifted? := (checkedWord? n.natAbs).bind fun months =>
    if n < 0 then cal.subMonths? i months else cal.addMonths? i months
  shifted?.getD (limit n)

def addYears (i : Instant cal) (n : Int) : Instant cal :=
  i.addMonths (saturatingMul n 12)

end Instant

end TickLabels
