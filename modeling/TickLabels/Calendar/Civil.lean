import TickLabels.Calendar.Interface

/-!
# The civil calendar

A calendar that runs. Days are kept as their numbers, and times of day as
seconds and nanoseconds, so a leap second is any second whose nanoseconds go
on. A date is found from its number by the year from March on and then by the
month, of which five have 153 days.
-/

namespace TickLabels

/-! ## Dates by their numbers -/

/-- The year from March on in which a day lies. Four hundred years have 146097
days, and the year found by their proportion is at most one off. -/
def marchYear (day : Int) : Int :=
  let year := (day - 60) * 400 / 146097
  if day < monthStart (year * 12 + 2) then year - 1
  else if monthStart ((year + 1) * 12 + 2) ≤ day then year + 1
  else year

/-- The month in which a day lies. Five months from March on have 153 days. -/
def monthOfDay (day : Int) : Int :=
  let march := marchYear day * 12 + 2
  march + (5 * (day - monthStart march) + 2) / 153

/-- The date of a number. -/
def Date.ofDays (day : Int) : Date :=
  let index := monthOfDay day
  ⟨index / 12, (index % 12).toNat + 1, (day - monthStart index).toNat + 1⟩

/-- Years from March on start by the rule of leap years. -/
theorem monthStart_march (year : Int) :
    monthStart (year * 12 + 2) = 365 * year + year / 4 - year / 100 + year / 400 + 60 := by
  unfold monthStart
  dsimp only
  rw [show (year * 12 + 2 - 2) / 12 = year by omega, show (year * 12 + 2 - 2) % 12 = 0 by omega]
  omega

theorem marchYear_spec (day : Int) :
    monthStart (marchYear day * 12 + 2) ≤ day ∧
      day < monthStart ((marchYear day + 1) * 12 + 2) := by
  unfold marchYear
  dsimp only
  split
  · next h =>
    rw [monthStart_march] at h
    rw [monthStart_march, monthStart_march]
    omega
  · split
    · next h =>
      rw [monthStart_march] at h
      rw [monthStart_march, monthStart_march]
      omega
    · omega

theorem monthStart_march_add (year : Int) {month : Int} (hlow : 0 ≤ month) (hhigh : month < 12) :
    monthStart (year * 12 + 2 + month) = monthStart (year * 12 + 2) + (153 * month + 2) / 5 := by
  rw [monthStart_march]
  unfold monthStart
  dsimp only
  rw [show (year * 12 + 2 + month - 2) / 12 = year by omega,
    show (year * 12 + 2 + month - 2) % 12 = month by omega]
  omega

/-- **A day lies in the month that is found for it.** -/
theorem monthOfDay_spec (day : Int) :
    monthStart (monthOfDay day) ≤ day ∧ day < monthStart (monthOfDay day + 1) := by
  obtain ⟨hlow, hhigh⟩ := marchYear_spec day
  have hlength : monthStart ((marchYear day + 1) * 12 + 2) ≤
      monthStart (marchYear day * 12 + 2) + 366 := by
    rw [monthStart_march, monthStart_march]
    omega
  unfold monthOfDay
  dsimp only
  generalize marchYear day = year at *
  have hmonth : 0 ≤ (5 * (day - monthStart (year * 12 + 2)) + 2) / 153 ∧
      (5 * (day - monthStart (year * 12 + 2)) + 2) / 153 < 12 := by omega
  rw [monthStart_march_add year hmonth.1 hmonth.2]
  refine ⟨by omega, ?_⟩
  by_cases hlast : (5 * (day - monthStart (year * 12 + 2)) + 2) / 153 = 11
  · rw [hlast, show year * 12 + 2 + 11 + 1 = (year + 1) * 12 + 2 by omega]
    exact hhigh
  · rw [Int.add_assoc, monthStart_march_add year (by omega) (by omega)]
    omega

namespace Date

theorem monthIndex_ofDays (day : Int) : (ofDays day).monthIndex = monthOfDay day := by
  unfold monthIndex ofDays
  dsimp only
  omega

/-- **The date found for a day has the number of that day.** -/
theorem toDays_ofDays (day : Int) : (ofDays day).toDays = day := by
  have hmonth := (monthOfDay_spec day).1
  rw [toDays, monthIndex_ofDays]
  unfold ofDays
  dsimp only
  omega

/-- Every day has a date. -/
theorem isGregorian_ofDays (day : Int) : (ofDays day).IsGregorian where
  one_le_month := Nat.le_add_left _ _
  month_le := by
    unfold ofDays
    dsimp only
    omega
  one_le_day := Nat.le_add_left _ _
  toDays_lt := by
    rw [toDays_ofDays, monthIndex_ofDays]
    exact (monthOfDay_spec day).2

theorem ofDays_toDays {d : Date} (h : d.IsGregorian) : ofDays d.toDays = d :=
  (isGregorian_ofDays _).ext h (toDays_ofDays _)

/-- The days of the calendar are those of its years. -/
theorem year_ofDays {day : Int} (hfirst : daysBeforeYear firstYear ≤ day)
    (hlast : day < daysBeforeYear (lastYear + 1)) :
    firstYear ≤ (ofDays day).year ∧ (ofDays day).year ≤ lastYear := by
  obtain ⟨hlow, hhigh⟩ := (isGregorian_ofDays day).toDays_bounds
  rw [toDays_ofDays] at hlow hhigh
  have hfrom := le_of_monthStart_lt (Int.lt_of_le_of_lt hfirst hhigh)
  have hto := le_of_monthStart_lt (Int.lt_of_le_of_lt hlow hlast)
  omega

end Date

/-- The day of the week so many days after a Sunday. -/
def Weekday.ofDaysFromSunday : Nat → Weekday
  | 0 => sunday
  | 1 => monday
  | 2 => tuesday
  | 3 => wednesday
  | 4 => thursday
  | 5 => friday
  | _ => saturday

theorem Weekday.daysFromSunday_ofDaysFromSunday {n : Nat} (h : n < 7) :
    (ofDaysFromSunday n).daysFromSunday = n := by
  revert n
  decide

namespace Civil

/-- A day of the calendar. -/
structure Day where
  number : Int
  first_le : daysBeforeYear firstYear ≤ number
  lt_end : number < daysBeforeYear (lastYear + 1)
deriving DecidableEq

/-- A time of a day. -/
structure Moment where
  day : Day
  /-- The seconds since midnight, without leap seconds. -/
  second : Nat
  nanosecond : Nat
  second_lt : second < 86400
  nanosecond_lt : nanosecond < 2000000000
deriving DecidableEq

/-- A day by its number, if the calendar has it. -/
def Day.ofNumber? (number : Int) : Option Day :=
  if h : daysBeforeYear firstYear ≤ number ∧ number < daysBeforeYear (lastYear + 1) then
    some ⟨number, h.1, h.2⟩
  else none

/-- The day of a date, if there is such a date in the calendar. -/
def Day.ofDate? (d : Date) : Option Day :=
  if d.IsGregorian then ofNumber? d.toDays else none

namespace Moment

def reading (i : Moment) : Reading :=
  ⟨.ofDays i.day.number, i.second / 3600, i.second / 60 % 60, i.second % 60, i.nanosecond⟩

def midnight (d : Day) : Moment :=
  ⟨d, 0, 0, by decide, by decide⟩

def atClock? (d : Day) (hour minute second : Nat) : Option Moment :=
  if h : hour < 24 ∧ minute < 60 ∧ second < 60 then
    some ⟨d, hour * 3600 + minute * 60 + second, 0, by omega, by decide⟩
  else none

/-- The moment at a number of nanoseconds, or in the leap second behind it. -/
def ofNanos? (nanos : Int) (leap : Bool) : Option Moment :=
  (Day.ofNumber? (nanos / nanosPerDay)).map fun day =>
    { day
      second := (nanos / nanosPerSecond % 86400).toNat
      nanosecond := (nanos % nanosPerSecond + if leap then nanosPerSecond else 0).toNat
      second_lt := by omega
      nanosecond_lt := by
        simp only [show nanosPerSecond = 1000000000 from rfl]
        split <;> omega }

def cmp (i j : Moment) : Ordering :=
  (compare i.day.number j.day.number).then
    ((compare i.second j.second).then (compare i.nanosecond j.nanosecond))

/-- The moment so many nanoseconds away. -/
def add? (i : Moment) (n : Int) : Option Moment :=
  ofNanos? (i.reading.target n) (decide (i.reading.StaysInLeap n))

/-- The moment so many months away, on the last day of a month that is too
short. -/
def addMonths? (i : Moment) (n : Int) : Option Moment :=
  let date := Date.ofDays i.day.number
  let index := date.monthIndex + n
  let last := monthStart (index + 1) - 1
  if firstYear ≤ index / 12 ∧ index / 12 ≤ lastYear then
    (Day.ofNumber? (min (monthStart index + (date.day - 1)) last)).map fun day => { i with day }
  else none

end Moment

/-- The first day of the calendar. -/
def firstDay : Day :=
  ⟨daysBeforeYear firstYear, by decide, by decide⟩

/-- The last day of the calendar. -/
def lastDay : Day :=
  ⟨daysBeforeYear (lastYear + 1) - 1, by decide, by decide⟩

/-- The operations of the civil calendar. A span is its nanoseconds. -/
def operations : CalendarOperations where
  Day := Day
  Moment := Moment
  Span := Int
  decEq := inferInstance
  year d := (Date.ofDays d.number).year
  month d := (Date.ofDays d.number).month
  day d := (Date.ofDays d.number).day
  weekday d := .ofDaysFromSunday (daysFromSunday d.number)
  dayOf? year month day := Day.ofDate? ⟨year, month, day⟩
  date := Moment.day
  hour i := i.second / 3600
  minute i := i.second / 60 % 60
  second i := i.second % 60
  nanosecond := Moment.nanosecond
  cmp := Moment.cmp
  midnight := Moment.midnight
  atClock? := Moment.atClock?
  earliest := ⟨firstDay, 0, 0, by decide, by decide⟩
  latest := ⟨lastDay, 86399, 999999999, by decide, by decide⟩
  spanOfMillis? n := if n.natAbs ≤ 0x7fffffffffffffff then some (n * nanosPerMilli) else none
  nanosOf n := n
  wholeMillis n := n.tdiv nanosPerMilli
  add? := Moment.add?
  since j i := i.reading.nanosUntil j.reading
  addMonths? i n := i.addMonths? n
  subMonths? i n := i.addMonths? (-n)

/-! ## What is known of the operations -/

namespace Day

theorem ext {d e : Day} (h : d.number = e.number) : d = e := by
  cases d
  cases e
  subst h
  rfl

theorem ofNumber?_eq_some {number : Int} {d : Day} :
    ofNumber? number = some d ↔ d.number = number := by
  unfold ofNumber?
  constructor
  · intro h
    split at h
    · rw [← Option.some.inj h]
    · exact absurd h (Option.some_ne_none _).symm
  · intro h
    subst h
    rw [dif_pos ⟨d.first_le, d.lt_end⟩]

theorem ofDate?_eq_some {date : Date} {d : Day} :
    ofDate? date = some d ↔ Date.ofDays d.number = date := by
  unfold ofDate?
  constructor
  · intro h
    split at h
    · next hdate => rw [ofNumber?_eq_some.1 h, Date.ofDays_toDays hdate]
    · exact absurd h (Option.some_ne_none _).symm
  · intro h
    subst h
    rw [if_pos (Date.isGregorian_ofDays _), ofNumber?_eq_some, Date.toDays_ofDays]

end Day

namespace Moment

variable {i j : Moment} {t : Reading}

theorem toDays_reading (i : Moment) : i.reading.date.toDays = i.day.number :=
  Date.toDays_ofDays _

theorem secondOfDay_reading (i : Moment) : i.reading.secondOfDay = i.second := by
  simp only [Reading.secondOfDay, reading]
  omega

theorem isValid_reading (i : Moment) : i.reading.IsValid where
  date := Date.isGregorian_ofDays _
  firstYear_le := (Date.year_ofDays i.day.first_le i.day.lt_end).1
  le_lastYear := (Date.year_ofDays i.day.first_le i.day.lt_end).2
  hour_lt := by
    have := i.second_lt
    simp only [reading]
    omega
  minute_lt := Nat.mod_lt _ (by decide)
  second_lt := Nat.mod_lt _ (by decide)
  nanosecond_lt := i.nanosecond_lt

theorem ext (hday : i.day = j.day) (hsecond : i.second = j.second)
    (hnanosecond : i.nanosecond = j.nanosecond) : i = j := by
  cases i
  cases j
  simp_all

theorem reading_inj (h : i.reading = j.reading) : i = j := by
  have hday := i.toDays_reading
  have hsecond := i.secondOfDay_reading
  rw [h, toDays_reading] at hday
  rw [h, secondOfDay_reading] at hsecond
  exact ext (Day.ext hday.symm) (Int.ofNat.inj hsecond.symm) (congrArg Reading.nanosecond h)

/-- **Every reading is shown.** -/
theorem exists_reading (h : t.IsValid) : ∃ i : Moment, i.reading = t := by
  obtain ⟨hfirst, hlast⟩ := h.toDays_bounds
  obtain ⟨hlow, hhigh⟩ := h.secondOfDay_bounds
  have hminute := h.minute_lt
  have hsecond := h.second_lt
  refine ⟨⟨⟨t.date.toDays, hfirst, hlast⟩, t.secondOfDay.toNat, t.nanosecond, by omega,
    h.nanosecond_lt⟩, ?_⟩
  obtain ⟨date, hour, minute, second, nanosecond⟩ := t
  simp only [reading, Reading.mk.injEq, Date.ofDays_toDays h.date, Reading.secondOfDay, and_true,
    true_and] at *
  omega

theorem atClock?_eq_some {d : Day} {hour minute second : Nat} :
    atClock? d hour minute second = some i ↔
      i.reading = ⟨.ofDays d.number, hour, minute, second, 0⟩ := by
  unfold atClock?
  constructor
  · intro h
    split at h
    · rw [← Option.some.inj h]
      simp only [reading, Reading.mk.injEq, true_and, and_true]
      omega
    · exact absurd h (Option.some_ne_none _).symm
  · intro h
    obtain ⟨hday, hhour, hminute, hsecond, hnanosecond⟩ :
        Date.ofDays i.day.number = .ofDays d.number ∧ i.second / 3600 = hour ∧
          i.second / 60 % 60 = minute ∧ i.second % 60 = second ∧ i.nanosecond = 0 := by
      simpa only [reading, Reading.mk.injEq] using h
    have hlt := i.second_lt
    have hnumber := congrArg Date.toDays hday
    rw [Date.toDays_ofDays, Date.toDays_ofDays] at hnumber
    rw [dif_pos (by omega), Option.some.injEq]
    exact ext (Day.ext hnumber.symm) (by dsimp only; omega) hnanosecond.symm

theorem ofNanos?_eq_some {nanos : Int} {leap : Bool} :
    ofNanos? nanos leap = some i ↔ i.reading.nanos = nanos ∧ i.reading.leap = leap := by
  have hsecond := i.second_lt
  have hnanosecond := i.nanosecond_lt
  have hnanos : i.reading.nanos = i.day.number * nanosPerDay + i.second * nanosPerSecond +
      i.nanosecond % nanosPerSecond := by
    rw [Reading.nanos, toDays_reading, secondOfDay_reading]
    rfl
  have hleap : i.reading.leap = decide (nanosPerSecond ≤ (i.nanosecond : Int)) := rfl
  unfold ofNanos?
  rw [Option.map_eq_some_iff, hnanos, hleap]
  simp only [show nanosPerDay = 86400000000000 from rfl, show nanosPerSecond = 1000000000 from rfl,
    Day.ofNumber?_eq_some]
  constructor
  · rintro ⟨day, hday, rfl⟩
    dsimp only
    cases leap with
    | false => simp only [Bool.false_eq_true, if_false, decide_eq_false_iff_not]; omega
    | true => simp only [if_true, decide_eq_true_eq]; omega
  · rintro ⟨rfl, rfl⟩
    refine ⟨i.day, by omega, ext rfl ?_ ?_⟩
    · dsimp only
      omega
    · dsimp only
      split <;> simp_all <;> omega

theorem add?_eq_some {n : Int} : i.add? n = some j ↔ i.reading.IsAfter j.reading n := by
  rw [add?, ofNanos?_eq_some]
  exact ⟨fun ⟨hnanos, hleap⟩ => ⟨hnanos, hleap⟩, fun ⟨hnanos, hleap⟩ => ⟨hnanos, hleap⟩⟩

theorem cmp_eq_lt : cmp i j = .lt ↔ i.reading.Before j.reading := by
  simp only [cmp, Reading.Before, toDays_reading, secondOfDay_reading, Ordering.then_eq_lt,
    Int.compare_eq_lt, Int.compare_eq_eq, Nat.compare_eq_lt, Nat.compare_eq_eq, Int.ofNat_lt,
    Int.ofNat_inj]
  rfl

theorem cmp_eq_gt : cmp i j = .gt ↔ j.reading.Before i.reading := by
  have hswap : cmp i j = (cmp j i).swap := by
    unfold cmp
    rw [Ordering.swap_then, Ordering.swap_then, Int.compare_swap, Nat.compare_swap,
      Nat.compare_swap]
  rw [← cmp_eq_lt, hswap, Ordering.swap_eq_gt]

/-- A month of the date of a moment. -/
theorem toDays_of_monthIndex {date : Date} {index : Int} (h : date.monthIndex = index) :
    date.toDays = monthStart index + (date.day - 1) := by
  rw [Date.toDays, h]

/-- The day to which months lead, for a day of the month it sets out from. -/
theorem isMonthsAfter_of_day {n : Int} {d : Day}
    (hd : d.number = min (monthStart (i.reading.date.monthIndex + n) + (i.reading.date.day - 1))
      (monthStart (i.reading.date.monthIndex + n + 1) - 1)) :
    i.reading.IsMonthsAfter { i with day := d }.reading n := by
  generalize hindex : i.reading.date.monthIndex + n = index at hd
  have hlength := (monthStart_succ_bounds index).1
  have hday := i.isValid_reading.date.one_le_day
  have hdate : ({ i with day := d } : Moment).reading.date = .ofDays d.number := rfl
  have hmonth : (Date.ofDays d.number).monthIndex = index :=
    (Date.isGregorian_ofDays d.number).monthIndex_eq (by rw [Date.toDays_ofDays]; omega)
      (by rw [Date.toDays_ofDays]; omega)
  have hnumber := toDays_of_monthIndex hmonth
  rw [Date.toDays_ofDays] at hnumber
  refine ⟨by rw [hdate, hmonth, hindex], ?_, ?_, rfl, rfl, rfl, rfl⟩
  · rw [hdate]
    omega
  · rw [hdate]
    intro day hle hgregorian
    have hmonth' : (⟨(Date.ofDays d.number).year, (Date.ofDays d.number).month, day⟩ :
        Date).monthIndex = index := hmonth
    have hlt := hgregorian.toDays_lt
    rw [toDays_of_monthIndex hmonth', hmonth'] at hlt
    dsimp only at hlt
    omega

/-- The days of a month are those from its first day to the next month's. -/
theorem isGregorian_of_le {date : Date} {day : Nat} (h : date.IsGregorian) (hone : 1 ≤ day)
    (hle : day ≤ monthStart (date.monthIndex + 1) - monthStart date.monthIndex) :
    (⟨date.year, date.month, day⟩ : Date).IsGregorian where
  one_le_month := h.one_le_month
  month_le := h.month_le
  one_le_day := hone
  toDays_lt := by
    change monthStart date.monthIndex + ((day : Int) - 1) < monthStart (date.monthIndex + 1)
    omega

theorem addMonths?_eq_some {n : Int} :
    i.addMonths? n = some j ↔ i.reading.IsMonthsAfter j.reading n := by
  have hdate : Date.ofDays i.day.number = i.reading.date := rfl
  unfold addMonths?
  dsimp only
  rw [hdate]
  constructor
  · intro h
    split at h
    · obtain ⟨day, hday, rfl⟩ := Option.map_eq_some_iff.1 h
      exact isMonthsAfter_of_day (Day.ofNumber?_eq_some.1 hday)
    · exact absurd h (Option.some_ne_none _).symm
  · intro h
    have hindex := h.monthIndex_eq
    have hvalid := j.isValid_reading
    have hyear := hvalid.date.year_month.1
    have hfirst := hvalid.firstYear_le
    have hlast := hvalid.le_lastYear
    have hlength := (monthStart_succ_bounds j.reading.date.monthIndex).1
    rw [← hindex, hyear, if_pos ⟨hfirst, hlast⟩, Option.map_eq_some_iff]
    refine ⟨j.day, ?_, ?_⟩
    · rw [Day.ofNumber?_eq_some, ← toDays_reading]
      have hday := i.isValid_reading.date.one_le_day
      have hle := h.day_le
      have hlt := hvalid.date.toDays_lt
      -- The day looked for, or the last one of the month if there are too few.
      have hmost := h.le_day (min i.reading.date.day
        (monthStart (j.reading.date.monthIndex + 1) - monthStart j.reading.date.monthIndex).toNat)
        (Nat.min_le_left _ _) (isGregorian_of_le hvalid.date (by omega) (by omega))
      rw [toDays_of_monthIndex rfl] at hlt ⊢
      omega
    · have hhour := h.hour_eq
      have hminute := h.minute_eq
      have hsecond := h.second_eq
      simp only [reading] at hhour hminute hsecond
      exact ext rfl (by dsimp only; omega) h.nanosecond_eq.symm

end Moment

end Civil

/-- **The civil calendar.** -/
def civil : Calendar where
  toCalendarOperations := Civil.operations
  isValid_reading := Civil.Moment.isValid_reading
  reading_inj _ _ := Civil.Moment.reading_inj
  exists_reading _ := Civil.Moment.exists_reading
  weekday_eq d := by
    change (Weekday.ofDaysFromSunday (daysFromSunday d.number)).daysFromSunday =
      daysFromSunday (Date.ofDays d.number).toDays
    rw [Date.toDays_ofDays]
    refine Weekday.daysFromSunday_ofDaysFromSunday ?_
    unfold daysFromSunday
    omega
  dayOf?_eq_some _ _ _ _ := Civil.Day.ofDate?_eq_some
  reading_midnight _ := by
    simp only [CalendarOperations.reading, Civil.operations, Civil.Moment.midnight, Nat.zero_div,
      Nat.zero_mod]
  atClock?_eq_some _ _ _ _ _ := Civil.Moment.atClock?_eq_some
  reading_earliest := by decide
  reading_latest := by decide
  cmp_eq_lt _ _ := Civil.Moment.cmp_eq_lt
  cmp_eq_gt _ _ := Civil.Moment.cmp_eq_gt
  nanosOf_of_spanOfMillis? n s h := by
    change (if n.natAbs ≤ _ then some (n * nanosPerMilli) else none) = some s at h
    split at h
    · exact (Option.some.inj h).symm
    · exact absurd h (Option.some_ne_none _).symm
  exists_spanOfMillis? n h := ⟨n * nanosPerMilli, if_pos h⟩
  wholeMillis_eq _ := rfl
  add?_eq_some _ _ _ := Civil.Moment.add?_eq_some
  nanosOf_since _ _ := rfl
  addMonths?_eq_some _ _ _ _ := Civil.Moment.addMonths?_eq_some
  subMonths?_eq_some _ _ _ _ := Civil.Moment.addMonths?_eq_some

end TickLabels
