import TickLabels.Proofs.Calendar.Arithmetic
/-!
# Moving by months and years

To move an instant by months is to add them to the number of its month
(`Instant.isMonthsAfter_of_hasShift`). The time of day stays, also in a leap second,
and so does the day, unless the month is shorter. Beyond the calendar an instant is moved
to the end that it was heading for. Years are twelve months, whatever their number
(`Instant.followsMonths_addMonths_addYears`).

Instants are in the order of their months, so months ahead lead ahead
(`Instant.lt_addMonths_or`) and months back lead back (`Instant.addMonths_lt_or`).
-/

namespace TickLabels

namespace Instant

variable {cal : Calendar} {i j k : Instant cal} {m n : Int}

/-! ## Instants by their dates -/

theorem timeOfDay_bounds (i : Instant cal) : 0 ≤ i.timeOfDay ∧ i.timeOfDay < nanosPerDay := by
  unfold timeOfDay
  rw [nanosPerDay_eq]
  omega

/-- An instant is known by its date and its time of day, and by whether it lies in a leap
second. -/
theorem eq_of_date (hdate : i.date = j.date) (htime : i.timeOfDay = j.timeOfDay)
    (hleap : i.leap = j.leap) : i = j := by
  have hday : i.dayNumber = j.dayNumber := by rw [← toDays_date, ← toDays_date, hdate]
  refine eq_iff.2 ⟨?_, hleap⟩
  unfold dayNumber at hday
  unfold timeOfDay at htime
  rw [nanosPerDay_eq] at *
  omega

/-! ## Months away -/

/-- `j` lies `n` months after `i`, on the same day of the month or on the last one, at the
same time of day. -/
structure IsMonthsAfter (i j : Instant cal) (n : Int) : Prop where
  monthIndex_eq : j.date.monthIndex = i.date.monthIndex + n
  day_eq : j.date.day = min i.date.day (daysInMonth j.date.year j.date.month)
  timeOfDay_eq : j.timeOfDay = i.timeOfDay
  leap_eq : j.leap = i.leap

/-- In the month of an index there is one year and one month. -/
theorem year_month_of_monthIndex_eq (h : i.date.monthIndex = j.date.monthIndex) :
    i.date.year = j.date.year ∧ i.date.month = j.date.month := by
  obtain ⟨hyear, hmonth⟩ := i.isGregorian_date.year_month
  obtain ⟨hyear', hmonth'⟩ := j.isGregorian_date.year_month
  rw [← hyear, ← hmonth, h]
  exact ⟨hyear', hmonth'⟩

/-- An instant is known by its month, its day and its time of day, and by whether it lies in a
leap second. -/
theorem eq_of_monthIndex (hmonth : i.date.monthIndex = j.date.monthIndex)
    (hday : i.date.day = j.date.day) (htime : i.timeOfDay = j.timeOfDay)
    (hleap : i.leap = j.leap) : i = j := by
  obtain ⟨hyear, hmonth'⟩ := year_month_of_monthIndex_eq hmonth
  have hdate : i.date = j.date := by
    cases hid : i.date
    cases hjd : j.date
    simp_all
  exact eq_of_date hdate htime hleap

/-- The months tell where to go. -/
theorem IsMonthsAfter.unique (hj : IsMonthsAfter i j n) (hk : IsMonthsAfter i k n) : j = k := by
  have hmonth : j.date.monthIndex = k.date.monthIndex :=
    hj.monthIndex_eq.trans hk.monthIndex_eq.symm
  obtain ⟨hyear', hmonth'⟩ := year_month_of_monthIndex_eq hmonth
  have hday : j.date.day = k.date.day := by
    rw [hj.day_eq, hk.day_eq, hyear', hmonth']
  exact eq_of_monthIndex hmonth hday (hj.timeOfDay_eq.trans hk.timeOfDay_eq.symm)
    (hj.leap_eq.trans hk.leap_eq.symm)

/-- No months lead nowhere. -/
theorem isMonthsAfter_zero (i : Instant cal) : IsMonthsAfter i i 0 where
  monthIndex_eq := (Int.add_zero _).symm
  day_eq := (Nat.min_eq_left i.isGregorian_date.day_le).symm
  timeOfDay_eq := rfl
  leap_eq := rfl

/-- The clock shows the same at the same time of day, in a leap second or in none. -/
theorem clock_eq_iff :
    j.reading.hour = i.reading.hour ∧ j.reading.minute = i.reading.minute ∧
        j.reading.second = i.reading.second ∧ j.reading.nanosecond = i.reading.nanosecond ↔
      j.timeOfDay = i.timeOfDay ∧ j.leap = i.leap := by
  have hi := i.nanosecond_eq
  have hj := j.nanosecond_eq
  have htime (k : Instant cal) : k.timeOfDay =
      k.timeOfDay / nanosPerSecond * nanosPerSecond + k.nanos % nanosPerSecond := by
    unfold timeOfDay
    rw [nanosPerDay_eq, nanosPerSecond_eq]
    omega
  constructor
  · rintro ⟨hhour, hminute, hsecond, hnanosecond⟩
    have hleap : j.leap = i.leap := by
      change decide _ = decide _
      rw [hnanosecond]
    have hclock : j.reading.secondOfDay = i.reading.secondOfDay := by
      unfold Reading.secondOfDay
      rw [hhour, hminute, hsecond]
    have hplace : j.nanosecond = i.nanosecond := congrArg Int.ofNat hnanosecond
    rw [secondOfDay_reading, secondOfDay_reading] at hclock
    rw [hi, hj, hleap] at hplace
    refine ⟨?_, hleap⟩
    rw [htime j, htime i, hclock]
    omega
  · rintro ⟨heq, hleap⟩
    obtain ⟨hhour, hminute, hsecond⟩ := i.clock_eq
    obtain ⟨hhour', hminute', hsecond'⟩ := j.clock_eq
    rw [heq] at hhour' hminute' hsecond'
    have hfraction : j.nanos % nanosPerSecond = i.nanos % nanosPerSecond := by
      have hto := htime j
      rw [heq] at hto
      have hfrom := htime i
      omega
    rw [hfraction, hleap] at hj
    exact ⟨Int.ofNat.inj (hhour'.trans hhour.symm), Int.ofNat.inj (hminute'.trans hminute.symm),
      Int.ofNat.inj (hsecond'.trans hsecond.symm), Int.ofNat.inj (hj.trans hi.symm)⟩

/-- **The last day of a month** is the one that the table of lengths tells. -/
theorem isMonthsAfter_iff : i.reading.IsMonthsAfter j.reading n ↔ IsMonthsAfter i j n := by
  constructor
  · intro h
    obtain ⟨htime, hleap⟩ := clock_eq_iff.1 ⟨h.hour_eq, h.minute_eq, h.second_eq, h.nanosecond_eq⟩
    refine ⟨h.monthIndex_eq, ?_, htime, hleap⟩
    obtain ⟨hmonth, hmonth', hday, hlast⟩ := Date.isGregorian_iff.1 j.isGregorian_date
    have hlength := one_le_daysInMonth j.date.year j.date.month
    have hone := i.isGregorian_date.one_le_day
    have hle : j.date.day ≤ i.date.day := h.day_le
    have hmost := h.le_day (min i.date.day (daysInMonth j.date.year j.date.month))
      (Nat.min_le_left _ _) (Date.isGregorian_iff.2 ⟨hmonth, hmonth', by dsimp only; omega,
        Nat.min_le_right _ _⟩)
    exact Nat.le_antisymm (Nat.le_min.2 ⟨hle, hlast⟩) hmost
  · intro h
    obtain ⟨hhour, hminute, hsecond, hnanosecond⟩ := clock_eq_iff.2 ⟨h.timeOfDay_eq, h.leap_eq⟩
    refine ⟨h.monthIndex_eq, ?_, fun day hle hday => ?_, hhour, hminute, hsecond, hnanosecond⟩
    · exact h.day_eq ▸ Nat.min_le_left _ _
    · exact h.day_eq ▸ Nat.le_min.2 ⟨hle, hday.day_le⟩

/-- **Where the calendar has the month**, it has the instant. -/
theorem isMonthsAfter_of_hasShift (h : i.HasShift n .month) : ∃ j, IsMonthsAfter i j n := by
  let first := Date.firstOf (i.date.monthIndex + n)
  let date : Date := { first with day := min i.date.day (daysInMonth first.year first.month) }
  have hi := i.isValid_reading
  have hone := i.isGregorian_date.one_le_day
  have hlength := one_le_daysInMonth first.year first.month
  obtain ⟨hmonth, hmonth', -, -⟩ := Date.isGregorian_iff.1
    (Date.isGregorian_firstOf (i.date.monthIndex + n))
  have hdate : date.IsGregorian := Date.isGregorian_iff.2
    ⟨hmonth, hmonth', Nat.le_min.2 ⟨hone, hlength⟩, Nat.min_le_right _ _⟩
  obtain ⟨j, hj⟩ : ∃ j : Instant cal, j.reading = { i.reading with date } :=
    cal.exists_reading _ { hi with date := hdate, firstYear_le := h.1, le_lastYear := h.2 }
  have hshown : j.date = date := congrArg Reading.date hj
  obtain ⟨htime, hleap⟩ := clock_eq_iff (i := i) (j := j) |>.1 (by simp [hj])
  refine ⟨j, ?_, by rw [hshown], htime, hleap⟩
  rw [hshown]
  exact Date.monthIndex_firstOf _

/-! ## What months and years do -/

/-- Where so many months lead. Beyond the calendar they end at its end. -/
structure FollowsMonths (i j : Instant cal) (n : Int) : Prop where
  isMonthsAfter : i.HasShift n .month → IsMonthsAfter i j n
  eq_earliest : ¬ i.HasShift n .month → n < 0 → j = earliest
  eq_latest : ¬ i.HasShift n .month → 0 < n → j = latest
  /-- The month of the instant itself is never beyond the calendar. -/
  ne_zero : ¬ i.HasShift n .month → n ≠ 0

theorem hasShift_zero (i : Instant cal) : i.HasShift 0 .month := by
  have hyear := i.year_bounds
  rw [year_eq_monthIndex_ediv] at hyear
  unfold HasShift
  rwa [Int.add_zero]

theorem followsMonths_addMonths (i : Instant cal) (n : Int) :
    FollowsMonths i (i.addMonths n) n := by
  have hlimit (h : ¬ i.HasShift n .month) : i.addMonths n = limit n := by
    refine addMonths_of_forall_not fun j hafter => h ?_
    have hmonth : j.date.monthIndex = i.date.monthIndex + n := hafter.monthIndex_eq
    have hyear := j.year_bounds
    rwa [year_eq_monthIndex_ediv, hmonth] at hyear
  refine ⟨?_, ?_, ?_, ?_⟩
  · intro h
    obtain ⟨j, hafter⟩ := isMonthsAfter_of_hasShift h
    rwa [addMonths_of_isMonthsAfter (isMonthsAfter_iff.2 hafter)]
  · intro h hneg
    rw [hlimit h, limit, if_pos hneg]
  · intro h hpos
    rw [hlimit h, limit, if_neg (by omega)]
  · rintro h rfl
    exact h i.hasShift_zero

/-- **Months and years by one rule**, for every instant and every amount. -/
theorem followsMonths_addMonths_addYears (i : Instant cal) (n : Int) :
    FollowsMonths i (i.addMonths n) n ∧ FollowsMonths i (i.addYears n) (12 * n) ∧
      i.addYears n = i.addMonths (12 * n) := by
  have hyears : i.addYears n = i.addMonths (12 * n) := by rw [addYears_eq, Int.mul_comm]
  exact ⟨followsMonths_addMonths i n, hyears ▸ followsMonths_addMonths i (12 * n), hyears⟩

/-- On the civil calendar, a month from January 31 leads to a leap day. -/
theorem followsMonths_january :
    FollowsMonths (.ofDate ⟨2024, 1, 31⟩) (.ofDate ⟨2024, 2, 29⟩) 1 := by
  have hmonth : (ofDate ⟨2024, 1, 31⟩).addMonths 1 = .ofDate ⟨2024, 2, 29⟩ := by decide +kernel
  exact hmonth ▸ (followsMonths_addMonths_addYears (.ofDate ⟨2024, 1, 31⟩) 1).1

/-! ## Directions -/

/-- Instants are in the order of their months. -/
theorem lt_of_monthIndex_lt (h : i.date.monthIndex < j.date.monthIndex) : i < j := by
  have hyear := j.year_bounds
  rw [year_eq_monthIndex_ediv] at hyear
  have hstart := representable_monthStart_iff.2 hyear
  have hj := (monthStart_le_iff hstart j).2 (Int.le_refl _)
  have hi := mt (monthStart_le_iff hstart i).1 (Int.not_le.2 h)
  exact Std.lt_of_lt_of_le (Std.not_le.1 hi) hj

theorem monthIndex_le_of_le (h : i ≤ j) : i.date.monthIndex ≤ j.date.monthIndex :=
  Int.not_lt.1 fun hlt => Std.not_le.2 (lt_of_monthIndex_lt hlt) h

/-- Months ahead lead ahead, or to the end of the calendar. -/
theorem lt_addMonths_or (i : Instant cal) (hn : 0 < n) :
    i < i.addMonths n ∨ i.addMonths n = latest ∧ latest ≤ i := by
  have hfollows := followsMonths_addMonths i n
  by_cases h : i.HasShift n .month
  · have hmonth := (hfollows.isMonthsAfter h).monthIndex_eq
    exact .inl (lt_of_monthIndex_lt (by omega))
  · rw [hfollows.eq_latest h hn]
    exact (i.lt_or_le latest).imp_right fun hge => ⟨rfl, hge⟩

/-- Months back lead back, or to the start of the calendar. -/
theorem addMonths_lt_or (i : Instant cal) (hn : n < 0) :
    i.addMonths n < i ∨ i.addMonths n = earliest ∧ i = earliest := by
  have hfollows := followsMonths_addMonths i n
  by_cases h : i.HasShift n .month
  · have hmonth := (hfollows.isMonthsAfter h).monthIndex_eq
    exact .inl (lt_of_monthIndex_lt (by omega))
  · rw [hfollows.eq_earliest h hn]
    exact i.earliest_lt_or_eq.imp_right fun heq => ⟨rfl, heq⟩

theorem addMonths_zero (i : Instant cal) : i.addMonths 0 = i :=
  ((followsMonths_addMonths i 0).isMonthsAfter i.hasShift_zero).unique i.isMonthsAfter_zero

end Instant

end TickLabels
