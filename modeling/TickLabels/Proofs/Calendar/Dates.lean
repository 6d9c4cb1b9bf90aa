import TickLabels.Calendar.Arithmetic
/-!
# The table of months and the calendar

The calendar knows no lengths of months, only their first days (`monthStart`). The table of
lengths and the rule of leap years agree with it: each month is as long as the table says
(`monthStart_succ`), and each year as the rule says (`daysBeforeYear_succ`). So the dates that
there are are those that the table has days for (`Date.isGregorian_iff`).
-/

namespace TickLabels

/-! ## Lengths -/

theorem daysInMonth_bounds (year : Int) (month : Nat) :
    28 ≤ daysInMonth year month ∧ daysInMonth year month ≤ 31 := by
  have hcommon : ∀ i < 12,
      28 ≤ commonMonthLengths.getD i 31 ∧ commonMonthLengths.getD i 31 ≤ 31 := by
    decide
  unfold daysInMonth
  split
  · omega
  · exact hcommon _ (by omega)

theorem one_le_daysInMonth (year : Int) (month : Nat) : 1 ≤ daysInMonth year month := by
  have := (daysInMonth_bounds year month).1
  omega

/-- From March on, the lengths come from the five months of 153 days. -/
theorem daysInMonth_march_add (year : Int) {month : Nat} (h : month < 11) :
    (daysInMonth year ((month + 2) % 12 + 1) : Int) =
      (153 * (month + 1) + 2) / 5 - (153 * month + 2) / 5 := by
  have hcommon : ∀ m < 11, (commonMonthLengths.getD ((m + 2) % 12) 31 : Int) =
      (153 * (m + 1) + 2) / 5 - (153 * m + 2) / 5 := by
    decide
  rw [daysInMonth, if_neg (by omega),
    show max 1 (min ((month + 2) % 12 + 1) 12) - 1 = (month + 2) % 12 by omega]
  exact hcommon month h

theorem daysInMonth_february (year : Int) :
    daysInMonth year 2 = if isLeapYear year then 29 else 28 := by
  unfold daysInMonth
  simp only [true_and]
  rfl

theorem isLeapYear_iff (year : Int) :
    isLeapYear year = true ↔ year % 4 = 0 ∧ year % 100 ≠ 0 ∨ year % 400 = 0 := by
  simp [isLeapYear]

/-- **A month after another** starts as many days later as the first is long. -/
theorem monthStart_succ (index : Int) :
    monthStart (index + 1) =
      monthStart index + daysInMonth (index / 12) ((index % 12).toNat + 1) := by
  obtain ⟨month, hmonth⟩ : ∃ month : Nat, (index - 2) % 12 = month :=
    ⟨_, (Int.toNat_of_nonneg (Int.emod_nonneg _ (by decide))).symm⟩
  have hindex : (index % 12).toNat = (month + 2) % 12 := by omega
  unfold monthStart
  dsimp only
  rw [hindex, hmonth]
  by_cases hfebruary : month = 11
  · -- After February, a year from March on starts, by the rule of leap years.
    have hleap := isLeapYear_iff (index / 12)
    rw [hfebruary, daysInMonth_february, show (index + 1 - 2) / 12 = index / 12 by omega,
      show (index + 1 - 2) % 12 = 0 by omega, show (index - 2) / 12 = index / 12 - 1 by omega]
    split <;> simp_all <;> omega
  · rw [daysInMonth_march_add _ (by omega), show (index + 1 - 2) / 12 = (index - 2) / 12 by omega,
      show (index + 1 - 2) % 12 = month + 1 by omega]
    omega

/-- **A year is as long as the rule of leap years says.** -/
theorem daysBeforeYear_succ (year : Int) :
    daysBeforeYear (year + 1) = daysBeforeYear year + if isLeapYear year then 366 else 365 := by
  have hleap := isLeapYear_iff year
  unfold daysBeforeYear monthStart
  dsimp only
  rw [show ((year + 1) * 12 - 2) / 12 = year by omega,
    show (year * 12 - 2) / 12 = year - 1 by omega,
    show ((year + 1) * 12 - 2) % 12 = 10 by omega, show (year * 12 - 2) % 12 = 10 by omega]
  split <;> simp_all <;> omega

/-! ## Dates -/

namespace Date

variable {d : Date}

/-- A month has the days that the table says. -/
theorem toDays_lt_iff (hmonth : 1 ≤ d.month) (hmonth' : d.month ≤ 12) :
    d.toDays < monthStart (d.monthIndex + 1) ↔ d.day ≤ daysInMonth d.year d.month := by
  have hindex : d.monthIndex / 12 = d.year ∧ (d.monthIndex % 12).toNat + 1 = d.month := by
    unfold monthIndex
    omega
  rw [monthStart_succ, hindex.1, hindex.2, toDays]
  omega

/-- **There are the dates that the table has days for.** -/
theorem isGregorian_iff :
    d.IsGregorian ↔
      1 ≤ d.month ∧ d.month ≤ 12 ∧ 1 ≤ d.day ∧ d.day ≤ daysInMonth d.year d.month := by
  constructor
  · rintro ⟨hmonth, hmonth', hday, hlt⟩
    exact ⟨hmonth, hmonth', hday, (toDays_lt_iff hmonth hmonth').1 hlt⟩
  · rintro ⟨hmonth, hmonth', hday, hle⟩
    exact ⟨hmonth, hmonth', hday, (toDays_lt_iff hmonth hmonth').2 hle⟩

theorem IsGregorian.day_le (h : d.IsGregorian) : d.day ≤ daysInMonth d.year d.month :=
  (isGregorian_iff.1 h).2.2.2

/-- The first day of the month of an index. -/
def firstOf (index : Int) : Date :=
  ⟨index / 12, (index % 12).toNat + 1, 1⟩

theorem monthIndex_firstOf (index : Int) : (firstOf index).monthIndex = index := by
  unfold monthIndex firstOf
  dsimp only
  omega

theorem toDays_firstOf (index : Int) : (firstOf index).toDays = monthStart index := by
  rw [toDays, monthIndex_firstOf]
  unfold firstOf
  dsimp only
  omega

theorem isGregorian_firstOf (index : Int) : (firstOf index).IsGregorian :=
  isGregorian_iff.2 ⟨Nat.le_add_left _ _, by unfold firstOf; dsimp only; omega, Nat.le_refl 1,
    one_le_daysInMonth _ _⟩

/-- A first of a month is the first of the month of its index. -/
theorem IsGregorian.eq_firstOf (h : d.IsGregorian) (hday : d.day = 1) :
    d = firstOf d.monthIndex := by
  obtain ⟨hyear, hmonth⟩ := h.year_month
  obtain ⟨year, month, day⟩ := d
  simp_all [firstOf]

end Date

end TickLabels
