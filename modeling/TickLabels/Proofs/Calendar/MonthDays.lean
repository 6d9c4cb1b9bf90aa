import Mathlib.Algebra.BigOperators.Intervals
import TickLabels.Proofs.Calendar.Spans
/-!
# Months and their days

A month is as many days as it is long, so moves by months and moves by days are moves in one
calendar: from the first of a month both lead to the first of another
(`Instant.addMonths_eq_addDays`), and the months of a year make up its days
(`Instant.addMonths_addYears_eq_addDays`).

From other days a month may be too short for the day. What is lost then is not found again by a
second move, so two moves by months may end before the one by their sum, but in its month and by
no more than three days (`Instant.addMonths_addMonths_and_mono`). The order of instants at one
time of day is kept, unless the earlier one is in the leap second behind the calendar after its
move, where the later one, held back, is not.
-/

namespace TickLabels

open Instant

/-! ## Lengths -/

/-- The months of a year follow one another. -/
theorem monthStart_add (year : Int) {months : Nat} (h : months ≤ 12) :
    monthStart (year * 12 + months) = monthStart (year * 12) +
      ((∑ month ∈ Finset.Icc 1 months, daysInMonth year month : Nat) : Int) := by
  induction months with
  | zero => simp
  | succ months ih =>
    have hindex : (year * 12 + months) / 12 = year ∧
        ((year * 12 + months) % 12).toNat = months := by omega
    rw [Finset.sum_Icc_succ_top (by omega), Int.natCast_succ, ← Int.add_assoc,
      monthStart_succ, hindex.1, hindex.2, ih (by omega), Int.natCast_add, Int.add_assoc]

/-- **The months of a year** make up its days. -/
theorem sum_daysInMonth (year : Int) :
    ∑ month ∈ Finset.Icc 1 12, daysInMonth year month = if isLeapYear year then 366 else 365 := by
  have hmonths := monthStart_add year (Nat.le_refl 12)
  have hyear := daysBeforeYear_succ year
  unfold daysBeforeYear at hyear
  rw [show year * 12 + (12 : Nat) = (year + 1) * 12 by omega] at hmonths
  have hdays := Int.add_left_cancel (hmonths.symm.trans hyear)
  by_cases hleap : isLeapYear year
  · rw [if_pos hleap] at hdays ⊢
    exact Int.ofNat.inj hdays
  · rw [if_neg hleap] at hdays ⊢
    exact Int.ofNat.inj hdays

namespace Instant

variable {cal : Calendar} {i j : Instant cal} {m n : Int}

theorem dayNumber_eq (i : Instant cal) :
    i.dayNumber = monthStart i.date.monthIndex + (i.date.day - 1) := by
  rw [← toDays_date, Date.toDays]

theorem nanos_eq (i : Instant cal) : i.nanos = i.dayNumber * nanosPerDay + i.timeOfDay := by
  unfold dayNumber timeOfDay
  rw [nanosPerDay_eq]
  omega

/-! ## Firsts of months -/

/-- A month before the calendar starts before it. -/
theorem monthStart_lt_of_lt {index : Int} (h : index / 12 < firstYear) :
    monthStart index < daysBeforeYear firstYear :=
  Int.lt_of_lt_of_le (daysBeforeYear_le_monthStart index).2 (daysBeforeYear_mono h)

/-- A month behind the calendar starts behind it. -/
theorem le_monthStart_of_lt {index : Int} (h : lastYear < index / 12) :
    daysBeforeYear (lastYear + 1) ≤ monthStart index :=
  Int.le_trans (daysBeforeYear_mono h) (daysBeforeYear_le_monthStart index).1

/-- **From the first of a month** so many months are the days up to the first of the other
month, also where they lead beyond the calendar. -/
theorem addMonths_eq_addDays (hleap : i.leap = false) (hday : i.date.day = 1) (n : Int) :
    i.addMonths n =
      i.addDays (monthStart (i.date.monthIndex + n) - monthStart i.date.monthIndex) := by
  have hfollows := followsMonths_addMonths i n
  have hnumber := i.dayNumber_eq
  have hnanos := i.nanos_eq
  have htime := i.timeOfDay_bounds
  have hyear := i.year_bounds
  rw [year_eq_monthIndex_ediv] at hyear
  rw [addDays_eq, addNanos_of_not_leap hleap]
  by_cases h : i.HasShift n .month
  · have hafter := hfollows.isMonthsAfter h
    have hlength := one_le_daysInMonth (i.addMonths n).date.year (i.addMonths n).date.month
    have hnumber' := (i.addMonths n).dayNumber_eq
    have hnanos' := (i.addMonths n).nanos_eq
    rw [hafter.monthIndex_eq, hafter.day_eq, hday, Nat.min_eq_left hlength] at hnumber'
    rw [hafter.timeOfDay_eq] at hnanos'
    rw [← ofNanos_nanos (hafter.leap_eq.trans hleap)]
    congr 1
    rw [nanosPerDay_eq] at *
    omega
  · rcases Int.lt_or_le ((i.date.monthIndex + n) / 12) firstYear with hbefore | hfirst
    · have hstart := monthStart_lt_of_lt hbefore
      rw [hfollows.eq_earliest h (by omega), ofNanos_of_lt]
      unfold earliestNanos
      rw [nanosPerDay_eq] at *
      omega
    · have hbehind : lastYear < (i.date.monthIndex + n) / 12 :=
        Int.not_le.1 fun hlast => h ⟨hfirst, hlast⟩
      have hstart := le_monthStart_of_lt hbehind
      rw [hfollows.eq_latest h (by omega), ofNanos_of_gt]
      unfold latestNanos
      rw [nanosPerDay_eq] at *
      omega

/-- Where the calendar has the first of the other month, the months lead there. -/
theorem date_addMonths (hday : i.date.day = 1) {n : Int} (h : i.HasShift n .month) :
    (i.addMonths n).date = .firstOf (i.date.monthIndex + n) := by
  have hafter := (followsMonths_addMonths i n).isMonthsAfter h
  have hone : (i.addMonths n).date.day = 1 := by
    rw [hafter.day_eq, hday, Nat.min_eq_left (one_le_daysInMonth _ _)]
  rw [(i.addMonths n).isGregorian_date.eq_firstOf hone, hafter.monthIndex_eq]

/-- A month from its first day on. -/
theorem addMonth_of_first {year : Int} {month : Nat} (hdate : i.date = ⟨year, month, 1⟩)
    (hleap : i.leap = false) :
    i.addMonths 1 = i.addDays (daysInMonth year month) := by
  obtain ⟨hyear, hmonth⟩ := i.isGregorian_date.year_month
  rw [addMonths_eq_addDays hleap (by rw [hdate]), monthStart_succ, hyear, hmonth, hdate,
    add_sub_cancel_left]

/-- A year from its first day on. -/
theorem addYear_of_first {year : Int} (hdate : i.date = ⟨year, 1, 1⟩) (hleap : i.leap = false) :
    i.addYears 1 = i.addDays ((∑ month ∈ Finset.Icc 1 12, daysInMonth year month : Nat) : Int) := by
  have hindex : i.date.monthIndex = year * 12 := by simp [hdate, Date.monthIndex]
  have hyear := daysBeforeYear_succ year
  unfold daysBeforeYear at hyear
  rw [addYears_eq, addMonths_eq_addDays hleap (by rw [hdate]), hindex,
    show year * 12 + 1 * 12 = (year + 1) * 12 by omega, hyear, add_sub_cancel_left, sum_daysInMonth]
  congr 1
  split <;> rfl

/-- **One calendar.** In every year, from the first of each month: a month is as many days as the
table says, and a year from January 1 on as many as its months are together. Where the calendar
has them, both lead to the first of another month. The months of a year are 366 days in leap
years and 365 in all others. -/
theorem addMonths_addYears_eq_addDays (year : Int) :
    (∀ (i : Instant cal) (month : Nat), i.date = ⟨year, month, 1⟩ → i.leap = false →
      i.addMonths 1 = i.addDays (daysInMonth year month) ∧
        (i.HasShift 1 .month → (i.addMonths 1).date = .firstOf (i.date.monthIndex + 1))) ∧
    (∀ i : Instant cal, i.date = ⟨year, 1, 1⟩ → i.leap = false →
      i.addYears 1 = i.addDays ((∑ month ∈ Finset.Icc 1 12, daysInMonth year month : Nat) : Int) ∧
        (i.HasShift 1 .year → (i.addYears 1).date = ⟨year + 1, 1, 1⟩)) ∧
    (∑ month ∈ Finset.Icc 1 12, daysInMonth year month = 366 ↔ isLeapYear year = true) ∧
      (∑ month ∈ Finset.Icc 1 12, daysInMonth year month = 365 ↔ isLeapYear year = false) := by
  refine ⟨fun i month hdate hleap => ⟨addMonth_of_first hdate hleap,
    date_addMonths (by rw [hdate])⟩, fun i hdate hleap => ⟨addYear_of_first hdate hleap,
    fun h => ?_⟩, ?_⟩
  · have hindex : i.date.monthIndex = year * 12 := by simp [hdate, Date.monthIndex]
    rw [addYears_eq, date_addMonths (by rw [hdate]) h, hindex, Date.firstOf]
    simp only [Date.mk.injEq, and_true]
    omega
  · rw [sum_daysInMonth]
    cases isLeapYear year <;> simp

/-- From the first of February to the first of March, and on to the next year. -/
theorem addMonths_addYears_2024 :
    (ofClock ⟨2024, 2, 1⟩ 1 0 0 0).date = ⟨2024, 2, 1⟩ ∧
      (ofClock ⟨2024, 2, 1⟩ 1 0 0 0).leap = false ∧
      (ofClock ⟨2024, 2, 1⟩ 1 0 0 0).addMonths 1 =
        (ofClock ⟨2024, 2, 1⟩ 1 0 0 0).addDays (daysInMonth 2024 2) ∧
      (ofClock ⟨2024, 1, 1⟩ 1 0 0 0).addYears 1 =
        (ofClock ⟨2024, 1, 1⟩ 1 0 0 0).addDays
          ((∑ month ∈ Finset.Icc 1 12, daysInMonth 2024 month : Nat) : Int) ∧
      ∑ month ∈ Finset.Icc 1 12, daysInMonth 2024 month = 366 := by
  have hdate : (ofClock ⟨2024, 2, 1⟩ 1 0 0 0).date = ⟨2024, 2, 1⟩ := by decide
  have hleap : (ofClock ⟨2024, 2, 1⟩ 1 0 0 0).leap = false := by decide
  obtain ⟨hmonth, hyear, hdays, -⟩ := @addMonths_addYears_eq_addDays civil 2024
  exact ⟨hdate, hleap, (hmonth _ 2 hdate hleap).1, (hyear _ (by decide) (by decide)).1,
    hdays.2 (by decide)⟩

/-! ## Two moves -/

/-- `j` lies in the month of `i` at its time of day, on its day or at most three days before. -/
structure FallsShort (i j : Instant cal) : Prop where
  year_eq : j.date.year = i.date.year
  month_eq : j.date.month = i.date.month
  timeOfDay_eq : j.timeOfDay = i.timeOfDay
  leap_eq : j.leap = i.leap
  le : j ≤ i
  dayNumber_le : i.dayNumber ≤ j.dayNumber + 3

/-- Instants at one time of day are in the order of their days. -/
theorem le_iff_dayNumber (htime : i.timeOfDay = j.timeOfDay) (hleap : i.leap = j.leap) :
    i ≤ j ↔ i.dayNumber ≤ j.dayNumber := by
  have hi := i.nanos_eq
  have hj := j.nanos_eq
  rw [le_iff, rank, rank, nanosecond_eq, nanosecond_eq, hleap]
  rw [nanosPerDay_eq] at *
  rw [nanosPerSecond_eq]
  split <;> omega

/-- In one month, the numbers of days are in the order of the days. -/
theorem dayNumber_sub (h : i.date.monthIndex = j.date.monthIndex) :
    i.dayNumber - j.dayNumber = i.date.day - j.date.day := by
  rw [dayNumber_eq, dayNumber_eq, h]
  omega

/-- What is left of the way after a first move that the calendar has. -/
theorem hasShift_add (hm : i.HasShift m .month) :
    (i.addMonths m).HasShift n .month ↔ i.HasShift (m + n) .month := by
  have hmonth := ((followsMonths_addMonths i m).isMonthsAfter hm).monthIndex_eq
  simp only [HasShift]
  rw [hmonth, Int.add_assoc]

/-- Two moves lose the days that one of their months is too short for, one move only those that
the last month is. -/
theorem fallsShort_addMonths (hm : i.HasShift m .month) (hmn : i.HasShift (m + n) .month) :
    FallsShort (i.addMonths (m + n)) ((i.addMonths m).addMonths n) ∧
      (i.date.day ≤ 28 → (i.addMonths m).addMonths n = i.addMonths (m + n)) := by
  have hfirst := (followsMonths_addMonths i m).isMonthsAfter hm
  have hwhole := (followsMonths_addMonths i (m + n)).isMonthsAfter hmn
  have hsecond := (followsMonths_addMonths (i.addMonths m) n).isMonthsAfter
    ((hasShift_add hm).2 hmn)
  have hmonth : ((i.addMonths m).addMonths n).date.monthIndex =
      (i.addMonths (m + n)).date.monthIndex := by
    rw [hsecond.monthIndex_eq, hfirst.monthIndex_eq, hwhole.monthIndex_eq, Int.add_assoc]
  obtain ⟨hyear, hmonthOf⟩ := year_month_of_monthIndex_eq hmonth
  have htime := hsecond.timeOfDay_eq.trans (hfirst.timeOfDay_eq.trans hwhole.timeOfDay_eq.symm)
  have hleap := hsecond.leap_eq.trans (hfirst.leap_eq.trans hwhole.leap_eq.symm)
  have hbetween := daysInMonth_bounds (i.addMonths m).date.year (i.addMonths m).date.month
  have hlast := daysInMonth_bounds (i.addMonths (m + n)).date.year (i.addMonths (m + n)).date.month
  have hday := hsecond.day_eq
  rw [hyear, hmonthOf, hfirst.day_eq] at hday
  have hday' := hwhole.day_eq
  have hnumber := dayNumber_sub hmonth
  refine ⟨⟨hyear, hmonthOf, htime, hleap, ?_, by omega⟩, fun hsmall => ?_⟩
  · rw [le_iff_dayNumber htime hleap]
    omega
  · have hequal : ((i.addMonths m).addMonths n).date.day = (i.addMonths (m + n)).date.day := by
      omega
    exact eq_of_monthIndex hmonth hequal htime hleap

/-! ## Order -/

/-- Within the calendar, months keep the order of instants at one time of day. -/
theorem addMonths_le_addMonths (hle : i ≤ j) (htime : i.timeOfDay = j.timeOfDay)
    (hleap : i.leap = j.leap) (hi : i.HasShift n .month) (hj : j.HasShift n .month) :
    i.addMonths n ≤ j.addMonths n := by
  have hiafter := (followsMonths_addMonths i n).isMonthsAfter hi
  have hjafter := (followsMonths_addMonths j n).isMonthsAfter hj
  rcases Int.lt_or_eq_of_le (monthIndex_le_of_le hle) with hlt | hsame
  · refine Std.le_of_lt (lt_of_monthIndex_lt ?_)
    rw [hiafter.monthIndex_eq, hjafter.monthIndex_eq]
    exact Int.add_lt_add_right hlt n
  · -- In one month the days are in order, also where they are the last one.
    have hmonth : (i.addMonths n).date.monthIndex = (j.addMonths n).date.monthIndex := by
      rw [hiafter.monthIndex_eq, hjafter.monthIndex_eq, hsame]
    obtain ⟨hyear, hmonthOf⟩ := year_month_of_monthIndex_eq hmonth
    have hbefore := (le_iff_dayNumber htime hleap).1 hle
    have hday := hiafter.day_eq
    have hday' := hjafter.day_eq
    have hnumber := dayNumber_sub hmonth
    have hnumber' := dayNumber_sub hsame
    rw [hyear, hmonthOf] at hday
    rw [le_iff_dayNumber (by rw [hiafter.timeOfDay_eq, hjafter.timeOfDay_eq, htime])
      (by rw [hiafter.leap_eq, hjafter.leap_eq, hleap])]
    omega

/-- So many months after two instants at one time of day, the later one is not before the other,
unless it is held back and the other one is behind the last instant. -/
theorem addMonths_le_addMonths_iff (hle : i ≤ j) (htime : i.timeOfDay = j.timeOfDay)
    (hleap : i.leap = j.leap) (n : Int) :
    i.addMonths n ≤ j.addMonths n ↔ ¬ (latest < i.addMonths n ∧ ¬ j.HasShift n .month) := by
  have hifollows := followsMonths_addMonths i n
  have hjfollows := followsMonths_addMonths j n
  have hiyear := i.year_bounds
  have hjyear := j.year_bounds
  have hmonths := monthIndex_le_of_le hle
  rw [year_eq_monthIndex_ediv] at hiyear hjyear
  by_cases hj : j.HasShift n .month
  · refine iff_of_true ?_ fun h => h.2 hj
    by_cases hi : i.HasShift n .month
    · exact addMonths_le_addMonths hle htime hleap hi hj
    · have hneg : n < 0 := by
        simp only [HasShift] at hi hj
        omega
      rw [hifollows.eq_earliest hi hneg]
      exact (j.addMonths n).earliest_le_self
  · rcases Int.lt_trichotomy n 0 with hneg | hzero | hpos
    · -- The earlier one is before the calendar as well.
      have hi : ¬ i.HasShift n .month := by
        simp only [HasShift] at hj ⊢
        omega
      rw [hifollows.eq_earliest hi hneg, hjfollows.eq_earliest hj hneg]
      exact iff_of_true (Std.le_refl _) fun h => Std.not_le.2 h.1 latest.earliest_le_self
    · exact absurd hzero (hjfollows.ne_zero hj)
    · rw [hjfollows.eq_latest hj hpos, ← Std.not_lt]
      exact not_congr (and_iff_left hj).symm

/-- **Moves by months in sequence, and in order.** Where the calendar has the instants after the
first move and after the whole way, two moves lead to the month, the time of day and the leap
second of the one move, no later and at most three days before; from a day up to the 28th both
lead to the same instant. Of two instants at one time of day, the later one is not before the
other after a move by any months, unless it is held back at the end of the calendar and the other
one gets into the leap second behind that. -/
theorem addMonths_addMonths_and_mono :
    (∀ (i : Instant cal) (m n : Int), i.HasShift m .month → i.HasShift (m + n) .month →
      FallsShort (i.addMonths (m + n)) ((i.addMonths m).addMonths n) ∧
        (i.date.day ≤ 28 → (i.addMonths m).addMonths n = i.addMonths (m + n))) ∧
    ∀ (i j : Instant cal) (n : Int), i ≤ j → i.timeOfDay = j.timeOfDay → i.leap = j.leap →
      (i.addMonths n ≤ j.addMonths n ↔ ¬ (latest < i.addMonths n ∧ ¬ j.HasShift n .month)) :=
  ⟨fun _ _ _ hm hmn => fallsShort_addMonths hm hmn,
    fun _ _ n hle htime hleap => addMonths_le_addMonths_iff hle htime hleap n⟩

/-- From January 31 to March by way of February three days are lost, from January 28 none. A year
after it, February 29 is not before February 28. -/
theorem addMonths_addMonths_february :
    FallsShort ((ofDate ⟨2023, 1, 31⟩).addMonths (1 + 1))
        (((ofDate ⟨2023, 1, 31⟩).addMonths 1).addMonths 1) ∧
      (((ofDate ⟨2023, 1, 31⟩).addMonths 1).addMonths 1).date = ⟨2023, 3, 28⟩ ∧
      ((ofDate ⟨2023, 1, 28⟩).addMonths 1).addMonths 1 =
        (ofDate ⟨2023, 1, 28⟩).addMonths (1 + 1) ∧
      (ofDate ⟨2024, 2, 28⟩).addMonths 12 ≤ (ofDate ⟨2024, 2, 29⟩).addMonths 12 :=
  ⟨(addMonths_addMonths_and_mono.1 _ 1 1 (by decide) (by decide)).1, by decide,
    (addMonths_addMonths_and_mono.1 _ 1 1 (by decide) (by decide)).2 (by decide),
    (addMonths_addMonths_and_mono.2 _ _ 12 (by decide) (by decide) (by decide)).2 (by decide)⟩

/-- From the end of October of the last year two months lead into the leap second behind the
calendar. From that leap second itself they lead back to the last instant. -/
theorem not_mono_in_last_leap_second :
    ofClock ⟨lastYear, 10, 31⟩ 23 59 59 1500000000 ≤ endOfCalendar 1500000000 ∧
      (ofClock ⟨lastYear, 10, 31⟩ 23 59 59 1500000000).timeOfDay =
        (endOfCalendar 1500000000).timeOfDay ∧
      (ofClock ⟨lastYear, 10, 31⟩ 23 59 59 1500000000).leap =
        (endOfCalendar 1500000000).leap ∧
      ¬ (ofClock ⟨lastYear, 10, 31⟩ 23 59 59 1500000000).addMonths 2 ≤
        (endOfCalendar 1500000000).addMonths 2 := by
  decide +kernel

end Instant

end TickLabels
