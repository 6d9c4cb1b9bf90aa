import TickLabels.Proofs.Ticks.Frame
/-!
# Ticks at the start of years and months

Years and months are told by their first days. The number of the year or month in which
an instant lies is the last whose first day is not after it (`TickRange.place_le_iff`), and
the end of a range is counted up to the next first day (`TickRange.le_place_iff`). So the
ticks reach from the first day of a year or month in which the range starts, or earlier, to
the first one that is not before its end (`DateTicks.onCalendar_years_months`).
-/

namespace TickLabels

variable {cal : Calendar}

/-- Midnight of the first day of a month. -/
def Instant.IsMonthStart (i : Instant cal) : Prop :=
  i.timeOfDay = 0 ∧ i.date.day = 1

/-- Midnight of January 1. -/
def Instant.IsYearStart (i : Instant cal) : Prop :=
  i.IsMonthStart ∧ i.date.month = 1

namespace DateTicks

/-- The last tick is at the end of the range or behind it. If the range is more than an
instant, no other tick is. -/
def EndsAround (t : DateTicks cal) (min max : Instant cal) : Prop :=
  (∃ last ∈ t.ticks.getLast?, max ≤ last) ∧ (min ≠ max → ∀ i ∈ t.ticks.dropLast, i < max)

/-- Ticks that frame a range, at the start of every so many periods of the calendar. -/
structure OnCalendar (t : DateTicks cal) (min max : Instant cal) (IsStart : Instant cal → Prop)
    (number : Instant cal → ℤ) : Prop where
  isStart : ∀ i ∈ t.ticks, IsStart i
  interval_dvd : ∀ i ∈ t.ticks, t.interval ∣ number i
  startsAround : t.StartsAround min
  endsAround : t.EndsAround min max

end DateTicks

namespace TickRange

variable {r : TickRange cal}

/-! ## The number of an instant -/

/-- Years and months follow the calendar. -/
def IsCalendar (r : TickRange cal) : Prop :=
  r.unit = .year ∨ r.unit = .month

/-- The number of the year or the month in which an instant lies. -/
def numberOf (r : TickRange cal) (i : Instant cal) : ℤ :=
  match r.unit with
  | .year => i.date.year
  | _ => i.date.monthIndex - r.min.date.year * 12

theorem numberOf_of_year (hunit : r.unit = .year) (i : Instant cal) :
    r.numberOf i = i.date.year := by
  rw [numberOf, hunit]

theorem numberOf_of_month (hunit : r.unit = .month) (i : Instant cal) :
    r.numberOf i = i.date.monthIndex - r.min.date.year * 12 := by
  rw [numberOf, hunit]

/-- **The number of an instant** is the last whose place is not after it. -/
theorem place_le_iff (hunit : r.IsCalendar) {n : ℤ} (hn : Representable (r.place n))
    (i : Instant cal) : .ofNanos (r.place n) ≤ i ↔ n ≤ r.numberOf i := by
  rcases hunit with hunit | hunit
  · rw [place_of_year hunit] at hn ⊢
    rw [Instant.monthStart_le_iff hn, numberOf_of_year hunit,
      Instant.year_eq_monthIndex_ediv]
    omega
  · rw [place_of_month hunit] at hn ⊢
    rw [Instant.monthStart_le_iff hn, numberOf_of_month hunit]
    omega

theorem lt_place_iff (hunit : r.IsCalendar) {n : ℤ} (hn : Representable (r.place n))
    (i : Instant cal) : i < .ofNanos (r.place n) ↔ r.numberOf i < n := by
  rw [← Int.not_le, ← place_le_iff hunit hn]
  exact Std.not_le.symm

/-- Its place is the start of the year or the month. -/
theorem representable_numberOf (hunit : r.IsCalendar) (i : Instant cal) :
    Representable (r.place (r.numberOf i)) := by
  have hyear := i.year_bounds
  rcases hunit with hunit | hunit
  · rw [place_of_year hunit, numberOf_of_year hunit]
    exact i.representable_startOfYear
  · rw [Instant.year_eq_monthIndex_ediv] at hyear
    rw [place_of_month hunit, numberOf_of_month hunit, add_sub_cancel]
    exact Instant.representable_monthStart_iff.2 hyear

/-! ## The ends of the range -/

theorem first_of_calendar (hunit : r.IsCalendar) : r.first = r.numberOf r.min := by
  rcases hunit with hunit | hunit
  · rw [first, numberOf_of_year hunit, hunit]
  · rw [first, numberOf_of_month hunit, hunit]
    unfold Date.monthIndex
    dsimp only
    omega

/-- The end of the range is counted up to the next start of a year or a month. -/
theorem last_of_calendar (hunit : r.IsCalendar) : r.last =
    r.numberOf r.max + DateTicks.beyond r.max (.ofNanos (r.place (r.numberOf r.max))) := by
  rcases hunit with hunit | hunit
  · rw [last, place_of_year hunit, numberOf_of_year hunit, ← Instant.startOfYear_eq, hunit]
  · rw [last, place_of_month hunit, numberOf_of_month hunit, add_sub_cancel,
      ← Instant.startOfMonth_eq, hunit]
    unfold Date.monthIndex
    dsimp only
    omega

/-- **The range ends at a place or before it** exactly if its last number does. -/
theorem le_place_iff (hunit : r.IsCalendar) {n : ℤ} (hn : Representable (r.place n)) :
    r.max ≤ .ofNanos (r.place n) ↔ r.last ≤ n := by
  have hnumber := representable_numberOf hunit r.max
  rw [last_of_calendar hunit, DateTicks.beyond]
  -- The number of the end is counted one further, unless the end is at its place.
  split
  · next hbeyond =>
    constructor
    · intro hle
      by_contra hlt
      have hbefore : (.ofNanos (r.place n) : Instant cal) ≤ .ofNanos (r.place (r.numberOf r.max)) :=
        Instant.ofNanos_mono (place_mono (by omega))
      exact Std.not_le.2 (Std.lt_of_le_of_lt hbefore hbeyond) hle
    · intro hle
      exact Std.le_of_lt ((lt_place_iff hunit hn r.max).2 (by omega))
  · next hstart =>
    rw [add_zero]
    constructor
    · intro hle
      by_contra hlt
      have hbefore : (.ofNanos (r.place n) : Instant cal) < .ofNanos (r.place (r.numberOf r.max)) :=
        (Instant.ofNanos_lt_ofNanos hn hnumber).2 (place_strictMono (by omega))
      have hnumber' := (place_le_iff hunit hnumber r.max).2 (Int.le_refl _)
      exact Std.not_le.2 (Std.lt_of_lt_of_le hbefore hnumber') hle
    · intro hle
      exact Std.le_trans (Std.not_lt.1 hstart) (Instant.ofNanos_mono (place_mono hle))

/-- The numbers of a range are in the order of its ends. -/
theorem numberOf_mono (hunit : r.IsCalendar) {i j : Instant cal} (h : i ≤ j) :
    r.numberOf i ≤ r.numberOf j := by
  have hnumber := representable_numberOf hunit i
  exact (place_le_iff hunit hnumber j).1
    (Std.le_trans ((place_le_iff hunit hnumber i).2 (Int.le_refl _)) h)

theorem first_le_last_of_calendar (hunit : r.IsCalendar) (hle : r.min ≤ r.max) :
    r.first ≤ r.last := by
  have hnumber := numberOf_mono hunit hle
  rw [first_of_calendar hunit, last_of_calendar hunit, DateTicks.beyond]
  split <;> omega

/-- Only a single instant has the same first and last number. -/
theorem min_eq_max_of_calendar (hunit : r.IsCalendar) (hle : r.min ≤ r.max)
    (h : r.first = r.last) : r.min = r.max := by
  have hnumber := representable_numberOf hunit r.min
  have hmax : r.max ≤ .ofNanos (r.place (r.numberOf r.min)) :=
    (le_place_iff hunit hnumber).2 (by rw [← first_of_calendar hunit, h])
  have hmin := (place_le_iff hunit hnumber r.min).2 (Int.le_refl _)
  exact Std.le_antisymm hle (Std.le_trans hmax hmin)

/-! ## The ticks around the range -/

theorem startsAround_of_calendar (hunit : r.IsCalendar) (h : r.Unsaturated)
    (hle : r.min ≤ r.max) : r.ticks.StartsAround r.min := by
  have hfirst := first_of_calendar hunit
  have hsecond := lt_second h hle (first_le_last_of_calendar hunit hle)
  rw [startsAround_iff h hle, place_le_iff hunit (h _ r.numeric.first_mem_toList),
    lt_place_iff hunit (exists_ticks_eq h hle).2, ← hfirst]
  exact ⟨first_numeric_le h, hsecond⟩

theorem endsAround_of_calendar (hunit : r.IsCalendar) (h : r.Unsaturated)
    (hle : r.min ≤ r.max) : r.ticks.EndsAround r.min r.max := by
  have henclosed := encloses_numeric h hle
  have horder := first_le_last_of_calendar hunit hle
  unfold DateTicks.EndsAround
  rw [getLast?_ticks h, ticks_ticks h, ← List.map_dropLast]
  constructor
  · have hupper := NumericTicks.max_le_upper r.first_lt_maxInt64 r.last
    have hlast := henclosed.le_last
    refine ⟨_, rfl, (le_place_iff hunit (h _ r.numeric.last_mem_toList)).2 ?_⟩
    omega
  · intro hne i hi
    obtain ⟨n, hn, rfl⟩ := List.mem_map.1 hi
    have hlt := henclosed.lt_of_mem_dropLast n hn
    -- More than an instant is not widened, so only the last tick is at its end or behind it.
    have hdistinct : r.first ≠ r.last := fun heq => hne (min_eq_max_of_calendar hunit hle heq)
    rw [NumericTicks.upper, if_neg hdistinct] at hlt
    refine Std.not_le.1 fun hmax => ?_
    have := (le_place_iff hunit (h n (List.dropLast_subset _ hn))).1 hmax
    omega

/-- Places of the calendar are at midnight. -/
theorem timeOfDay_place (hunit : r.IsCalendar) {n : ℤ} (hn : Representable (r.place n)) :
    (.ofNanos (r.place n) : Instant cal).timeOfDay = 0 := by
  rw [Instant.timeOfDay, Instant.nanos_ofNanos hn.1 hn.2]
  rcases hunit with hunit | hunit
  · rw [place_of_year hunit, Int.mul_emod_left]
  · rw [place_of_month hunit, Int.mul_emod_left]

theorem date_place_of_year (hunit : r.unit = .year) {n : ℤ} (hn : Representable (r.place n)) :
    (.ofNanos (r.place n) : Instant cal).date = ⟨n, 1, 1⟩ := by
  rw [place_of_year hunit] at hn ⊢
  rw [Instant.date_monthStart hn, Date.firstOf, Int.mul_ediv_cancel _ (by decide),
    Int.mul_emod_left]
  rfl

theorem date_place_of_month (hunit : r.unit = .month) {n : ℤ} (hn : Representable (r.place n)) :
    (.ofNanos (r.place n) : Instant cal).date = .firstOf (r.min.date.year * 12 + n) := by
  rw [place_of_month hunit] at hn ⊢
  exact Instant.date_monthStart hn

theorem onCalendar_of_year (hunit : r.unit = .year) (h : r.Unsaturated) (hle : r.min ≤ r.max) :
    r.ticks.OnCalendar r.min r.max Instant.IsYearStart fun i => i.date.year where
  isStart := by
    intro i hi
    obtain ⟨n, -, hn, rfl⟩ := exists_of_mem_ticks h hi
    unfold Instant.IsYearStart Instant.IsMonthStart
    rw [timeOfDay_place (.inl hunit) hn, date_place_of_year hunit hn]
    exact ⟨⟨rfl, rfl⟩, rfl⟩
  interval_dvd := by
    intro i hi
    obtain ⟨n, hdvd, hn, rfl⟩ := exists_of_mem_ticks h hi
    rwa [date_place_of_year hunit hn]
  startsAround := startsAround_of_calendar (.inl hunit) h hle
  endsAround := endsAround_of_calendar (.inl hunit) h hle

theorem onCalendar_of_month (hunit : r.unit = .month) (h : r.Unsaturated)
    (hle : r.min ≤ r.max) :
    r.ticks.OnCalendar r.min r.max Instant.IsMonthStart
      fun i => i.date.monthIndex - r.min.date.year * 12 where
  isStart := by
    intro i hi
    obtain ⟨n, -, hn, rfl⟩ := exists_of_mem_ticks h hi
    unfold Instant.IsMonthStart
    rw [timeOfDay_place (.inr hunit) hn, date_place_of_month hunit hn]
    exact ⟨rfl, rfl⟩
  interval_dvd := by
    intro i hi
    obtain ⟨n, hdvd, hn, rfl⟩ := exists_of_mem_ticks h hi
    rwa [date_place_of_month hunit hn, Date.monthIndex_firstOf, add_sub_cancel_left]
  startsAround := startsAround_of_calendar (.inr hunit) h hle
  endsAround := endsAround_of_calendar (.inr hunit) h hle

end TickRange

/-- **Years and months frame a range.** The ticks are at midnight of January 1 in years that
are multiples of the interval, or of the first of months whose distance from January of the
first year is one. The range starts from the first tick on and before the second, and ends at
the last tick or between it and the one before. -/
theorem DateTicks.onCalendar_years_months {min max : Instant cal} (hle : min ≤ max) (count : ℕ)
    (firstDay : Weekday) :
    ((⟨min, max, count, .year, firstDay⟩ : TickRange cal).Unsaturated →
        (years min max count).OnCalendar min max Instant.IsYearStart fun i => i.date.year) ∧
      ((⟨min, max, count, .month, firstDay⟩ : TickRange cal).Unsaturated →
        (months min max count).OnCalendar min max Instant.IsMonthStart
          fun i => i.date.monthIndex - min.date.year * 12) :=
  ⟨fun h => TickRange.onCalendar_of_year rfl h hle,
    fun h => TickRange.onCalendar_of_month rfl h hle⟩

/-- A time in March of the year -7. -/
def DateTicks.marchMorning : Instant :=
  .ofClock ⟨-7, 3, 10⟩ 5 0 0 1

/-- From there on, twenty years take intervals of five years, or of fifty months. -/
theorem DateTicks.onCalendar_march :
    marchMorning ≤ .ofDate ⟨13, 1, 1⟩ ∧
      (⟨marchMorning, .ofDate ⟨13, 1, 1⟩, 5, .year, .sunday⟩ : TickRange civil).Unsaturated ∧
      (⟨marchMorning, .ofDate ⟨13, 1, 1⟩, 5, .month, .sunday⟩ : TickRange civil).Unsaturated ∧
      (years marchMorning (.ofDate ⟨13, 1, 1⟩) 5).interval = 5 ∧
      (months marchMorning (.ofDate ⟨13, 1, 1⟩) 5).interval = 50 ∧
      ((years marchMorning (.ofDate ⟨13, 1, 1⟩) 5).OnCalendar marchMorning
        (.ofDate ⟨13, 1, 1⟩) Instant.IsYearStart fun i => i.date.year) ∧
      (months marchMorning (.ofDate ⟨13, 1, 1⟩) 5).OnCalendar marchMorning
        (.ofDate ⟨13, 1, 1⟩) Instant.IsMonthStart
        fun i => i.date.monthIndex - marchMorning.date.year * 12 := by
  have hle : marchMorning ≤ .ofDate ⟨13, 1, 1⟩ := by decide +kernel
  have hyears :
      (⟨marchMorning, .ofDate ⟨13, 1, 1⟩, 5, .year, .sunday⟩ : TickRange civil).Unsaturated := by
    unfold TickRange.Unsaturated
    decide +kernel
  have hmonths :
      (⟨marchMorning, .ofDate ⟨13, 1, 1⟩, 5, .month, .sunday⟩ : TickRange civil).Unsaturated := by
    unfold TickRange.Unsaturated
    decide +kernel
  obtain ⟨hyearly, hmonthly⟩ := onCalendar_years_months hle 5 .sunday
  exact ⟨hle, hyears, hmonths, by decide +kernel, by decide +kernel, hyearly hyears,
    hmonthly hmonths⟩

end TickLabels
