import TickLabels.Calendar.Reading

/-!
# The calendar behind the ticks

Ticks are laid out on a calendar that comes from elsewhere. `CalendarOperations`
are the operations that are used of it, and a `Calendar` keeps to what is
documented of them. All of that is told by readings: moments are what the
calendar and the clock show of them, each reading of the calendar's years is
shown once, and an operation that has no result to show gives none.
-/

namespace TickLabels

/-- **The operations of a calendar** that ticks are built on. -/
structure CalendarOperations where
  /-- Days of the calendar. -/
  Day : Type
  /-- Points in time, each a day with a time of day. -/
  Moment : Type
  /-- Lengths of time. -/
  Span : Type
  decEq : DecidableEq Moment
  year : Day → Int
  month : Day → Nat
  day : Day → Nat
  weekday : Day → Weekday
  /-- The day of a year, a month and a day of the month. -/
  dayOf? : Int → Nat → Nat → Option Day
  date : Moment → Day
  hour : Moment → Nat
  minute : Moment → Nat
  second : Moment → Nat
  nanosecond : Moment → Nat
  cmp : Moment → Moment → Ordering
  /-- The start of a day. -/
  midnight : Day → Moment
  /-- A full second of a day, by its hour, minute and second. -/
  atClock? : Day → Nat → Nat → Nat → Option Moment
  earliest : Moment
  latest : Moment
  /-- A span of so many milliseconds. -/
  spanOfMillis? : Int → Option Span
  /-- The nanoseconds of a span. -/
  nanosOf : Span → Int
  /-- The whole milliseconds of a span. -/
  wholeMillis : Span → Int
  add? : Moment → Span → Option Moment
  /-- The span to the first moment from the second. -/
  since : Moment → Moment → Span
  addMonths? : Moment → Nat → Option Moment
  subMonths? : Moment → Nat → Option Moment

namespace CalendarOperations

variable (ops : CalendarOperations)

/-- The date of a day. -/
def dateOf (d : ops.Day) : Date :=
  ⟨ops.year d, ops.month d, ops.day d⟩

/-- What is shown of a moment. -/
def reading (i : ops.Moment) : Reading :=
  ⟨ops.dateOf (ops.date i), ops.hour i, ops.minute i, ops.second i, ops.nanosecond i⟩

end CalendarOperations

/-- **A calendar**: operations with what is known of their results. -/
structure Calendar extends CalendarOperations where
  isValid_reading (i : Moment) : (toCalendarOperations.reading i).IsValid
  /-- Different moments differ in what is shown of them. -/
  reading_inj (i j : Moment) :
    toCalendarOperations.reading i = toCalendarOperations.reading j → i = j
  /-- No reading is left out, and leap seconds may follow any second. -/
  exists_reading (t : Reading) : t.IsValid → ∃ i, toCalendarOperations.reading i = t
  weekday_eq (d : Day) :
    (weekday d).daysFromSunday = daysFromSunday (toCalendarOperations.dateOf d).toDays
  dayOf?_eq_some (y : Int) (m n : Nat) (d : Day) :
    dayOf? y m n = some d ↔ toCalendarOperations.dateOf d = ⟨y, m, n⟩
  reading_midnight (d : Day) :
    toCalendarOperations.reading (midnight d) = ⟨toCalendarOperations.dateOf d, 0, 0, 0, 0⟩
  atClock?_eq_some (d : Day) (h m s : Nat) (i : Moment) :
    atClock? d h m s = some i ↔
      toCalendarOperations.reading i = ⟨toCalendarOperations.dateOf d, h, m, s, 0⟩
  reading_earliest :
    toCalendarOperations.reading earliest = ⟨⟨firstYear, 1, 1⟩, 0, 0, 0, 0⟩
  /-- There is only a leap second behind it. -/
  reading_latest :
    toCalendarOperations.reading latest = ⟨⟨lastYear, 12, 31⟩, 23, 59, 59, 999999999⟩
  cmp_eq_lt (i j : Moment) : cmp i j = .lt ↔
    (toCalendarOperations.reading i).Before (toCalendarOperations.reading j)
  cmp_eq_gt (i j : Moment) : cmp i j = .gt ↔
    (toCalendarOperations.reading j).Before (toCalendarOperations.reading i)
  nanosOf_of_spanOfMillis? (n : Int) (s : Span) :
    spanOfMillis? n = some s → nanosOf s = n * nanosPerMilli
  /-- Of the numbers of 64 bits, only the least has no span, since spans can be
  turned around. -/
  exists_spanOfMillis? (n : Int) : n.natAbs ≤ 0x7fffffffffffffff → ∃ s, spanOfMillis? n = some s
  /-- Parts of a millisecond are dropped, on either side of zero. -/
  wholeMillis_eq (s : Span) : wholeMillis s = (nanosOf s).tdiv nanosPerMilli
  add?_eq_some (i : Moment) (s : Span) (j : Moment) : add? i s = some j ↔
    (toCalendarOperations.reading i).IsAfter (toCalendarOperations.reading j) (nanosOf s)
  nanosOf_since (i j : Moment) : nanosOf (since j i) =
    (toCalendarOperations.reading i).nanosUntil (toCalendarOperations.reading j)
  /-- Months are counted as words of 32 bits. -/
  addMonths?_eq_some (i : Moment) (n : Nat) (j : Moment) : n ≤ 0xffffffff →
    (addMonths? i n = some j ↔
      (toCalendarOperations.reading i).IsMonthsAfter (toCalendarOperations.reading j) n)
  subMonths?_eq_some (i : Moment) (n : Nat) (j : Moment) : n ≤ 0xffffffff →
    (subMonths? i n = some j ↔
      (toCalendarOperations.reading i).IsMonthsAfter (toCalendarOperations.reading j) (-n))

end TickLabels
