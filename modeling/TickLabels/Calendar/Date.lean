import TickLabels.Calendar.Weekday

/-!
# Dates

The Gregorian calendar, extended to all years before and after, with a year
zero. Months are counted from January of that year, and days from its first
day on. Seen from March, a leap day is the last day of its year and the months
are 153 days in every five, so the first day of a month has a number that needs
no table of lengths.
-/

namespace TickLabels

/-- The number of the first day of a month. -/
def monthStart (index : Int) : Int :=
  let year := (index - 2) / 12
  let month := (index - 2) % 12
  365 * year + year / 4 - year / 100 + year / 400 + (153 * month + 2) / 5 + 60

/-- The number of January 1. -/
def daysBeforeYear (year : Int) : Int :=
  monthStart (year * 12)

/-- A day by its year, its month and its place in the month. -/
structure Date where
  year : Int
  /-- From one to twelve. -/
  month : Nat
  /-- From one on. -/
  day : Nat
deriving DecidableEq, Repr

namespace Date

/-- The months from January of year zero to the month of a date. -/
def monthIndex (d : Date) : Int :=
  d.year * 12 + (d.month - 1)

/-- The number of a day. -/
def toDays (d : Date) : Int :=
  monthStart d.monthIndex + (d.day - 1)

/-- The dates that there are: a month ends where the next one starts. -/
structure IsGregorian (d : Date) : Prop where
  one_le_month : 1 ≤ d.month
  month_le : d.month ≤ 12
  one_le_day : 1 ≤ d.day
  toDays_lt : d.toDays < monthStart (d.monthIndex + 1)

instance (d : Date) : Decidable d.IsGregorian :=
  decidable_of_iff
    (1 ≤ d.month ∧ d.month ≤ 12 ∧ 1 ≤ d.day ∧ d.toDays < monthStart (d.monthIndex + 1))
    ⟨fun ⟨h₁, h₂, h₃, h₄⟩ => ⟨h₁, h₂, h₃, h₄⟩, fun ⟨h₁, h₂, h₃, h₄⟩ => ⟨h₁, h₂, h₃, h₄⟩⟩

end Date

/-- The days from the last Sunday to a day. Day zero is a Saturday. -/
def daysFromSunday (day : Int) : Nat :=
  ((day + 6) % 7).toNat

/-! ## Months -/

/-- **A month has 28 to 31 days.** -/
theorem monthStart_succ_bounds (index : Int) :
    monthStart index + 28 ≤ monthStart (index + 1) ∧
      monthStart (index + 1) ≤ monthStart index + 31 := by
  unfold monthStart
  dsimp only
  by_cases hlast : (index - 2) % 12 = 11
  · -- After February, a year from March on starts, by the rule of leap years.
    rw [show (index + 1 - 2) / 12 = (index - 2) / 12 + 1 by omega,
      show (index + 1 - 2) % 12 = 0 by omega, hlast]
    omega
  · rw [show (index + 1 - 2) / 12 = (index - 2) / 12 by omega,
      show (index + 1 - 2) % 12 = (index - 2) % 12 + 1 by omega]
    omega

theorem monthStart_strictMono {m n : Int} (h : m < n) : monthStart m < monthStart n := by
  obtain ⟨k, rfl⟩ : ∃ k : Nat, n = m + 1 + k := ⟨(n - m - 1).toNat, by omega⟩
  have hnext := (monthStart_succ_bounds m).1
  induction k with
  | zero => rw [Int.natCast_zero, Int.add_zero]; omega
  | succ k ih =>
    have hlonger := (monthStart_succ_bounds (m + 1 + k)).1
    have := ih (by omega)
    rw [Int.natCast_succ, ← Int.add_assoc]
    omega

theorem le_of_monthStart_lt {m n : Int} (h : monthStart m < monthStart n) : m < n := by
  refine Int.not_le.1 fun hle => ?_
  rcases Int.lt_or_eq_of_le hle with hlt | rfl
  · have := monthStart_strictMono hlt
    omega
  · omega

theorem monthStart_mono {m n : Int} (h : m ≤ n) : monthStart m ≤ monthStart n :=
  Int.not_lt.1 fun hlt => Int.not_le.2 (le_of_monthStart_lt hlt) h

/-! ## Dates and their numbers -/

namespace Date

variable {d e : Date}

/-- A date lies in the month of its index. -/
theorem IsGregorian.monthStart_le (h : d.IsGregorian) : monthStart d.monthIndex ≤ d.toDays := by
  have := h.one_le_day
  unfold toDays
  omega

/-- The index of a month tells the year and the month. -/
theorem IsGregorian.year_month (h : d.IsGregorian) :
    d.monthIndex / 12 = d.year ∧ (d.monthIndex % 12).toNat + 1 = d.month := by
  obtain ⟨hmonth, hmonth', -, -⟩ := h
  unfold monthIndex
  omega

/-- A day lies in one month only. -/
theorem IsGregorian.monthIndex_eq (hd : d.IsGregorian) {index : Int}
    (hlow : monthStart index ≤ d.toDays) (hhigh : d.toDays < monthStart (index + 1)) :
    d.monthIndex = index := by
  have hafter := le_of_monthStart_lt (Int.lt_of_le_of_lt hlow hd.toDays_lt)
  have hbefore := le_of_monthStart_lt (Int.lt_of_le_of_lt hd.monthStart_le hhigh)
  omega

/-- **A date is known by its number.** -/
theorem IsGregorian.ext (hd : d.IsGregorian) (he : e.IsGregorian) (h : d.toDays = e.toDays) :
    d = e := by
  have hindex : d.monthIndex = e.monthIndex :=
    hd.monthIndex_eq (h ▸ he.monthStart_le) (h ▸ he.toDays_lt)
  obtain ⟨hyear, hmonth⟩ := hd.year_month
  obtain ⟨hyear', hmonth'⟩ := he.year_month
  have hday := hd.one_le_day
  have hday' := he.one_le_day
  unfold toDays at h
  rw [hindex] at h hyear hmonth
  obtain ⟨year, month, day⟩ := d
  obtain ⟨year', month', day'⟩ := e
  dsimp only at *
  obtain rfl : year = year' := hyear.symm.trans hyear'
  obtain rfl : month = month' := hmonth.symm.trans hmonth'
  obtain rfl : day = day' := by omega
  rfl

/-- A date lies within its year. -/
theorem IsGregorian.toDays_bounds (h : d.IsGregorian) :
    daysBeforeYear d.year ≤ d.toDays ∧ d.toDays < daysBeforeYear (d.year + 1) := by
  have hmonth := h.one_le_month
  have hmonth' := h.month_le
  have hfirst : d.year * 12 ≤ d.monthIndex := by
    unfold monthIndex
    omega
  have hlast : d.monthIndex + 1 ≤ (d.year + 1) * 12 := by
    unfold monthIndex
    omega
  exact ⟨Int.le_trans (monthStart_mono hfirst) h.monthStart_le,
    Int.lt_of_lt_of_le h.toDays_lt (monthStart_mono hlast)⟩

end Date

theorem daysBeforeYear_mono {y z : Int} (h : y ≤ z) : daysBeforeYear y ≤ daysBeforeYear z :=
  monthStart_mono (by omega)

end TickLabels
