import TickLabels.Proofs.Ticks.Frame
/-!
# Ticks at full units

Units of fixed length are counted from the start of a coarser unit, and the ticks are
multiples of the interval from there. The start of the unit in which a range starts can be
read off the clock (`Reading.startOf`), and its number is the one from which the ticks are
offset (`TickRange.reading_first`). Only the milliseconds of a leap second have no such number
(`DateTicks.aligned_iff`).
-/

namespace TickLabels

variable {cal : Calendar}

/-- The unit from the start of which a unit is counted. -/
def TimeUnit.counter : TimeUnit → TimeUnit
  | .year | .month => .year
  | .week => .week
  | .day | .hour => .day
  | .minute => .hour
  | .second => .minute
  | .millisecond => .second

theorem Weekday.daysFromSunday_lt (day : Weekday) : day.daysFromSunday < 7 := by
  cases day <;> decide

/-! ## Starts of units -/

namespace Reading

/-- Midnight of the last day that is a `firstDay` and not after the day of a reading. -/
def startOfWeek (t : Reading) (firstDay : Weekday) : Reading :=
  Instant.midnightOf (.ofDays (t.date.toDays -
    ((daysFromSunday t.date.toDays : ℤ) - firstDay.daysFromSunday) % 7))

/-- What is shown at the start of a unit. What is finer than the unit is left out. -/
def startOf (t : Reading) (firstDay : Weekday) : TimeUnit → Reading
  | .year => Instant.midnightOf ⟨t.date.year, 1, 1⟩
  | .month => Instant.midnightOf ⟨t.date.year, t.date.month, 1⟩
  | .week => t.startOfWeek firstDay
  | .day => Instant.midnightOf t.date
  | .hour => { t with minute := 0, second := 0, nanosecond := 0 }
  | .minute => { t with second := 0, nanosecond := 0 }
  | .second => { t with nanosecond := 0 }
  | .millisecond => { t with nanosecond := t.nanosecond / 1000000 * 1000000 }

variable {t : Reading}

/-- The units of the clock start at a multiple of their nanoseconds. -/
theorem IsValid.startOf (h : t.IsValid) (firstDay : Weekday) {unit : TimeUnit}
    (hfixed : unit.IsFixed) (hweek : unit ≠ .week)
    (hleap : unit = .millisecond → t.leap = false) :
    (t.startOf firstDay unit).IsValid ∧ (t.startOf firstDay unit).leap = false ∧
      (t.startOf firstDay unit).nanos = t.nanos / unit.nanos * unit.nanos := by
  have hparts := h.nanos_parts
  have hminute := h.minute_lt
  have hsecond := h.second_lt
  obtain ⟨hdate, hfirst, hlast, hhour, -, -, hnanosecond⟩ := h
  obtain ⟨hyear, hmonth⟩ := hfixed
  cases unit with
  | year => exact absurd rfl hyear
  | month => exact absurd rfl hmonth
  | week => exact absurd rfl hweek
  | day | hour | minute | second =>
    refine ⟨by constructor <;> first | assumption | exact Nat.zero_lt_succ _, rfl, ?_⟩
    simp only [Reading.nanos, Reading.secondOfDay, Reading.startOf, Instant.midnightOf,
      TimeUnit.nanos, TimeUnit.millis, nanosPerDay_eq, nanosPerSecond_eq,
      nanosPerMilli_eq] at hparts ⊢
    omega
  | millisecond =>
    have hnone := hleap rfl
    rw [Reading.leap, decide_eq_false_iff_not, nanosPerSecond_eq] at hnone
    simp only [Reading.nanos, Reading.secondOfDay, Reading.startOf, Reading.leap,
      TimeUnit.nanos, TimeUnit.millis, nanosPerDay_eq, nanosPerSecond_eq,
      nanosPerMilli_eq, decide_eq_false_iff_not] at hparts ⊢
    exact ⟨⟨hdate, hfirst, hlast, hhour, hminute, hsecond, by dsimp only; omega⟩, by omega,
      by omega⟩

end Reading

namespace Instant

/-- A reading outside leap seconds is shown at its nanoseconds. -/
theorem reading_ofNanos {t : Reading} (h : t.IsValid) (hleap : t.leap = false) :
    (ofNanos t.nanos : Instant cal).reading = t := by
  obtain ⟨hlow, hhigh⟩ := h.nanos_bounds
  exact (isValid_reading _).ext h (nanos_ofNanos hlow hhigh) ((leap_ofNanos _).trans hleap.symm)

theorem reading_startOf (i : Instant cal) (firstDay : Weekday) {unit : TimeUnit}
    (hfixed : unit.IsFixed) (hweek : unit ≠ .week)
    (hleap : unit = .millisecond → i.leap = false) :
    (ofNanos (i.nanos / unit.nanos * unit.nanos) : Instant cal).reading =
      i.reading.startOf firstDay unit := by
  obtain ⟨hvalid, hnone, hnanos⟩ := i.isValid_reading.startOf firstDay hfixed hweek hleap
  rw [← reading_ofNanos hvalid hnone, hnanos]
  rfl

/-- The calendar has the start of a week, if it has its nanoseconds. -/
theorem reading_startOfWeek {i : Instant cal} {firstDay : Weekday} {day : ℤ}
    (hday : day = i.dayNumber - ((i.weekday : ℤ) - firstDay.daysFromSunday) % 7)
    (h : Representable (day * nanosPerDay)) :
    (ofNanos (day * nanosPerDay) : Instant cal).reading = i.reading.startOfWeek firstDay := by
  obtain ⟨hlow, hhigh⟩ := representable_iff.1 h
  obtain ⟨hfirst, hlast⟩ := Date.year_ofDays hlow hhigh
  have hvalid := isValid_midnightOf (Date.isGregorian_ofDays day) hfirst hlast
  have hnanos : (midnightOf (.ofDays day)).nanos = day * nanosPerDay := by
    simp [Reading.nanos, Reading.secondOfDay, midnightOf, Date.toDays_ofDays]
  have hstart : i.reading.startOfWeek firstDay = midnightOf (.ofDays day) := by
    change midnightOf (.ofDays (i.date.toDays -
      ((daysFromSunday i.date.toDays : ℤ) - firstDay.daysFromSunday) % 7)) = _
    rw [toDays_date, ← weekday_eq, ← hday]
  rw [hstart, ← hnanos]
  exact reading_ofNanos hvalid rfl

theorem millisecond_of_leap_eq_false {i : Instant cal} (h : i.leap = false) :
    i.millisecond = i.nanos % nanosPerSecond / nanosPerMilli := by
  rw [millisecond, nanosecond_eq, h, if_neg Bool.false_ne_true, Int.add_zero]

theorem weekday_lt (i : Instant cal) : i.weekday < 7 := by
  rw [weekday_eq]
  unfold daysFromSunday
  omega

end Instant

/-- Ticks at full units, counted from the start of a coarser one. -/
structure DateTicks.Aligned (t : DateTicks cal) (unit : TimeUnit) (min : Instant cal)
    (firstDay : Weekday) : Prop where
  unit_eq : t.unit = unit
  counted : ∃ start : Instant cal, start.reading = min.reading.startOf firstDay unit.counter ∧
    ∀ i ∈ t.ticks, ∃ k : ℤ, start.nanosUntil i = k * (t.interval * unit.nanos)
  midnight : unit = .week ∨ unit = .day → ∀ i ∈ t.ticks, i.timeOfDay = 0
  weekday : unit = .week → ∀ i ∈ t.ticks, i.weekday = firstDay.daysFromSunday
  startsAround : t.StartsAround min
  /-- The offset leads from the first tick to the unit in which the range starts. -/
  shift_offset : ∃ first ∈ t.ticks.head?,
    (first.shift (-t.offset) unit).reading = min.reading.startOf firstDay unit

namespace TickRange

variable {r : TickRange cal}

/-- The range starts in a leap second, of which the milliseconds are counted. -/
def CountsLeap (r : TickRange cal) : Prop :=
  r.min.leap = true ∧ r.unit = .millisecond

theorem leap_eq_false (hleap : ¬ r.CountsLeap) (hunit : r.unit = .millisecond) :
    r.min.leap = false :=
  Bool.eq_false_iff.2 fun h => hleap ⟨h, hunit⟩

theorem reading_origin_of_week (hunit : r.unit = .week) (h : Representable r.origin) :
    (.ofNanos r.origin : Instant cal).reading = r.min.reading.startOf r.firstDay .week := by
  have hweekday := r.min.weekday_lt
  have hfirst := r.firstDay.daysFromSunday_lt
  have horigin : r.origin = (r.min.dayNumber - r.daysIntoWeek) * nanosPerDay := by
    rw [origin, hunit]
  rw [horigin] at h ⊢
  refine Instant.reading_startOfWeek ?_ h
  unfold daysIntoWeek
  omega

/-- **Units are counted from the start of a coarser one.** -/
theorem reading_origin (hfixed : r.unit.IsFixed) (h : Representable r.origin) :
    (.ofNanos r.origin : Instant cal).reading =
      r.min.reading.startOf r.firstDay r.unit.counter := by
  have hclock {unit : TimeUnit} (hunit : unit.IsFixed) (hweek : unit ≠ .week)
      (hmillis : unit ≠ .millisecond)
      (horigin : r.origin = r.min.nanos / unit.nanos * unit.nanos) :
      (.ofNanos r.origin : Instant cal).reading = r.min.reading.startOf r.firstDay unit := by
    rw [horigin]
    exact r.min.reading_startOf r.firstDay hunit hweek fun hcase => absurd hcase hmillis
  obtain ⟨hyear, hmonth⟩ := hfixed
  cases hunit : r.unit with
  | year => exact absurd hunit hyear
  | month => exact absurd hunit hmonth
  | week => exact reading_origin_of_week hunit h
  | day | hour | minute | second | millisecond =>
    exact hclock ⟨by decide, by decide⟩ (by decide) (by decide) (by rw [origin, hunit]; rfl)

/-- The number of the unit in which a range starts. -/
theorem place_first_eq (hfixed : r.unit.IsFixed) (hweek : r.unit ≠ .week)
    (hleap : ¬ r.CountsLeap) : r.place r.first = r.min.nanos / r.unit.nanos * r.unit.nanos := by
  rw [place_of_fixed hfixed]
  obtain ⟨hyear, hmonth⟩ := hfixed
  cases hunit : r.unit with
  | year => exact absurd hunit hyear
  | month => exact absurd hunit hmonth
  | week => exact absurd hunit hweek
  | day | hour | minute | second =>
    simp only [origin, first, hunit, Instant.dayNumber, Instant.hour_eq, Instant.minute_eq,
      Instant.second_eq, Instant.timeOfDay, TimeUnit.nanos, TimeUnit.millis, nanosPerDay_eq,
      nanosPerHour_eq, nanosPerMinute_eq, nanosPerSecond_eq, nanosPerMilli_eq]
    omega
  | millisecond =>
    have hmillis := Instant.millisecond_of_leap_eq_false (leap_eq_false hleap hunit)
    simp only [origin, first, hunit, hmillis, TimeUnit.nanos, TimeUnit.millis, nanosPerSecond_eq,
      nanosPerMilli_eq]
    omega

/-- **The unit in which a range starts** is the first that is counted. -/
theorem reading_first (hfixed : r.unit.IsFixed) (hleap : ¬ r.CountsLeap)
    (h : Representable (r.place r.first)) :
    (.ofNanos (r.place r.first) : Instant cal).reading =
      r.min.reading.startOf r.firstDay r.unit := by
  by_cases hweek : r.unit = .week
  · -- Weeks are counted from their own start.
    have hplace : r.place r.first = r.origin := by
      rw [place_of_fixed hfixed, first, hweek, zero_mul, add_zero]
    rw [hplace] at h ⊢
    rw [hweek]
    exact reading_origin_of_week hweek h
  · rw [place_first_eq hfixed hweek hleap]
    exact r.min.reading_startOf r.firstDay hfixed hweek fun hunit => leap_eq_false hleap hunit

/-! ## The number in which a range starts -/

/-- Apart from the milliseconds of a leap second, the unit in which a range starts does not
start after it. -/
theorem place_first_le_nanos (hfixed : r.unit.IsFixed) (hleap : ¬ r.CountsLeap) :
    r.place r.first ≤ r.min.nanos := by
  by_cases hunit : r.unit = .millisecond
  · have hmillis := Instant.millisecond_of_leap_eq_false (leap_eq_false hleap hunit)
    have hnumber : r.first = r.min.millisecond := by rw [first, hunit]
    rw [place_first_millisecond hunit, hnumber, hmillis, nanosPerMilli_eq, nanosPerSecond_eq]
    omega
  · exact (place_first_le hfixed hunit).trans (Int.ediv_mul_le _ (by decide))

theorem representable_first (hfixed : r.unit.IsFixed) (h : r.Unsaturated)
    (hleap : ¬ r.CountsLeap) : Representable (r.place r.first) :=
  ⟨(h _ r.numeric.first_mem_toList).1.trans (place_mono (first_numeric_le h)),
    (place_first_le_nanos hfixed hleap).trans r.min.le_latest⟩

/-- **The next unit starts after it**, also in leap seconds. -/
theorem lt_place (hfixed : r.unit.IsFixed) {n : ℤ} (hn : Representable (r.place n))
    (hlt : r.first < n) : r.min < .ofNanos (r.place n) := by
  have hnext : r.place (r.first + 1) ≤ r.place n := place_mono hlt
  -- A leap second is before the next second, so it is enough that the unit ends there or
  -- later. Only milliseconds end earlier, and outside leap seconds.
  have hsecond : r.min.nanos / nanosPerSecond * nanosPerSecond + nanosPerSecond ≤
      r.place (r.first + 1) ∨ r.min.leap = false ∧ r.min.nanos < r.place (r.first + 1) := by
    rw [place_of_fixed hfixed]
    obtain ⟨hyear, hmonth⟩ := hfixed
    cases hunit : r.unit with
    | year => exact absurd hunit hyear
    | month => exact absurd hunit hmonth
    | week =>
      have hinto : r.daysIntoWeek < 7 := Nat.mod_lt _ (by decide)
      simp only [origin, first, hunit, Instant.dayNumber, TimeUnit.nanos, TimeUnit.millis,
        nanosPerDay_eq, nanosPerSecond_eq, nanosPerMilli_eq]
      omega
    | day | hour | minute | second =>
      simp only [origin, first, hunit, Instant.dayNumber, Instant.hour_eq, Instant.minute_eq,
        Instant.second_eq, Instant.timeOfDay, TimeUnit.nanos, TimeUnit.millis, nanosPerDay_eq,
        nanosPerHour_eq, nanosPerMinute_eq, nanosPerSecond_eq, nanosPerMilli_eq]
      omega
    | millisecond =>
      simp only [origin, first, hunit, Instant.millisecond, Instant.nanosecond_eq, TimeUnit.nanos,
        TimeUnit.millis, nanosPerSecond_eq, nanosPerMilli_eq]
      cases r.min.leap with
      | false =>
        simp only [Bool.false_eq_true, if_false, true_and]
        omega
      | true =>
        simp only [if_true]
        omega
  refine Std.not_le.1 fun hle => ?_
  have hle' := (Instant.ofNanos_le_iff hn r.min).1 hle
  rw [nanosPerSecond_eq] at *
  rcases hsecond with hsecond | ⟨hnone, hnanos⟩
  · split at hle' <;> omega
  · rw [hnone, if_neg Bool.false_ne_true] at hle'
    omega

/-- What is measured of the range reaches the unit in which it starts. -/
theorem first_le_measured (hfixed : r.unit.IsFixed) (h : r.Unsaturated) (hle : r.min ≤ r.max)
    (hleap : ¬ r.CountsLeap) : r.first * r.unit.millis ≤ r.measured := by
  have hplace : r.place r.first = r.origin + r.first * r.unit.millis * nanosPerMilli := by
    rw [place_of_fixed hfixed, TimeUnit.nanos, ← mul_assoc]
  rw [measured_eq hfixed h hle, Int.le_ediv_iff_mul_le (by decide)]
  by_cases hunit : r.unit = .millisecond
  · have hnone := leap_eq_false hleap hunit
    have hnumber : r.first = r.min.millisecond := by rw [first, hunit]
    have horigin : r.origin = r.min.nanos / nanosPerSecond * nanosPerSecond := by
      rw [origin, hunit]
    rw [hnumber, hunit, Instant.timeOfDay, Instant.timeOfDay, nanos_epoch hfixed h, horigin]
    simp only [Instant.le_iff, Instant.rank, Instant.millisecond, Instant.nanosecond_eq, hnone,
      TimeUnit.millis, nanosPerDay_eq, nanosPerSecond_eq, nanosPerMilli_eq] at hle ⊢
    -- A leap second at the end is measured if the range starts in the second before it.
    cases hmax : r.max.leap with
    | false =>
      simp only [hmax, Bool.false_eq_true, if_false, false_and] at hle ⊢
      omega
    | true =>
      simp only [hmax, Bool.false_eq_true, if_false, if_true, true_and] at hle ⊢
      split <;> omega
  · -- Other units start with a second, and it is no later than that of the end.
    have hfirst := place_first_le hfixed hunit
    have hseconds := Instant.seconds_le_of_le hle
    rw [nanosPerSecond_eq] at *
    split <;> omega

/-- So it does not end before that unit. -/
theorem first_le_last (hfixed : r.unit.IsFixed) (h : r.Unsaturated) (hle : r.min ≤ r.max)
    (hleap : ¬ r.CountsLeap) : r.first ≤ r.last := by
  have hmillis := r.unit.millis_pos
  have hmeasured := (first_le_measured hfixed h hle hleap).trans
    (ceilDiv_mul_bounds hmillis r.measured).1
  rw [last_of_fixed hfixed]
  exact Int.le_of_mul_le_mul_right hmeasured hmillis

/-! ## The ticks -/

/-- Ticks are whole intervals away from where their unit is counted. -/
theorem counted_of_mem_ticks (hfixed : r.unit.IsFixed) (h : r.Unsaturated) {i : Instant cal}
    (hi : i ∈ r.ticks.ticks) : ∃ k : ℤ,
      (.ofNanos r.origin : Instant cal).nanosUntil i = k * (r.ticks.interval * r.unit.nanos) := by
  obtain ⟨n, ⟨k, hk⟩, hn, rfl⟩ := exists_of_mem_ticks h hi
  refine ⟨k, ?_⟩
  rw [Instant.nanosUntil_ofNanos (representable_origin_of_unsaturated h) hn,
    place_of_fixed hfixed, add_sub_cancel_left, hk, mul_comm _ k, mul_assoc]

/-- Days and weeks are counted from midnight. -/
theorem timeOfDay_of_mem_ticks (hunit : r.unit = .week ∨ r.unit = .day) (h : r.Unsaturated)
    {i : Instant cal} (hi : i ∈ r.ticks.ticks) : i.timeOfDay = 0 := by
  obtain ⟨n, -, hn, rfl⟩ := exists_of_mem_ticks h hi
  have hfixed : r.unit.IsFixed := by
    rcases hunit with hunit | hunit <;> rw [hunit] <;> exact ⟨by decide, by decide⟩
  rw [Instant.timeOfDay, Instant.nanos_ofNanos hn.1 hn.2, place_of_fixed hfixed]
  rcases hunit with hunit | hunit <;>
    simp only [origin, hunit, TimeUnit.nanos, TimeUnit.millis, nanosPerDay_eq,
      nanosPerMilli_eq] <;>
    omega

/-- Weeks start on their first day. -/
theorem weekday_of_mem_ticks (hunit : r.unit = .week) (h : r.Unsaturated) {i : Instant cal}
    (hi : i ∈ r.ticks.ticks) : i.weekday = r.firstDay.daysFromSunday := by
  obtain ⟨n, -, hn, rfl⟩ := exists_of_mem_ticks h hi
  have hfirst := r.firstDay.daysFromSunday_lt
  have hweekday := r.min.weekday_lt
  rw [Instant.weekday_eq, Instant.dayNumber, Instant.nanos_ofNanos hn.1 hn.2,
    place_of_fixed (by rw [hunit]; exact ⟨by decide, by decide⟩)]
  simp only [origin, hunit, daysIntoWeek, Instant.weekday_eq, daysFromSunday, TimeUnit.nanos,
    TimeUnit.millis, nanosPerDay_eq, nanosPerMilli_eq] at hweekday ⊢
  omega

theorem startsAround_of_fixed (hfixed : r.unit.IsFixed) (h : r.Unsaturated)
    (hle : r.min ≤ r.max) (hleap : ¬ r.CountsLeap) : r.ticks.StartsAround r.min := by
  have hintime : ¬ r.StartsLate := fun hlate => hleap ⟨hlate.1, hlate.2.1⟩
  have hsecond := lt_second h hle (first_le_last hfixed h hle hleap)
  exact (startsAround_iff h hle).2 ⟨(first_tick_le_iff hfixed h).2 hintime,
    lt_place hfixed (exists_ticks_eq h hle).2 hsecond⟩

/-- **The offset leads back** from the first tick to the unit in which the range starts. -/
theorem shift_neg_offset (hfixed : r.unit.IsFixed) (h : r.Unsaturated) (hle : r.min ≤ r.max)
    (hleap : ¬ r.CountsLeap) :
    ((.ofNanos (r.place r.numeric.first) : Instant cal).shift (-r.numeric.offset)
      r.unit).reading = r.min.reading.startOf r.firstDay r.unit := by
  have hoffset : r.numeric.first + -r.numeric.offset = r.first := by
    have horder := first_le_last hfixed h hle hleap
    have := (encloses_numeric h hle).offset_eq
    omega
  have hfirst := representable_first hfixed h hleap
  rw [← hoffset] at hfirst
  rw [shift_place (h _ r.numeric.first_mem_toList) hfirst, hoffset]
  rw [hoffset] at hfirst
  exact reading_first hfixed hleap hfirst

/-- In a leap second, the millisecond in which the range starts is one of the leap second. -/
theorem leap_startOf (hleap : r.CountsLeap) :
    (r.min.reading.startOf r.firstDay r.unit).leap = true := by
  obtain ⟨hleap, hunit⟩ := hleap
  rw [Instant.leap, Reading.leap, decide_eq_true_eq, nanosPerSecond_eq] at hleap
  rw [hunit, Reading.leap, decide_eq_true_eq, nanosPerSecond_eq, Reading.startOf]
  dsimp only
  omega

theorem aligned_ticks (hfixed : r.unit.IsFixed) (h : r.Unsaturated) (hle : r.min ≤ r.max)
    (hleap : ¬ r.CountsLeap) : r.ticks.Aligned r.unit r.min r.firstDay where
  unit_eq := rfl
  counted := ⟨_, reading_origin hfixed (representable_origin_of_unsaturated h),
    fun _ hi => counted_of_mem_ticks hfixed h hi⟩
  midnight := fun hunit _ hi => timeOfDay_of_mem_ticks hunit h hi
  weekday := fun hunit _ hi => weekday_of_mem_ticks hunit h hi
  startsAround := startsAround_of_fixed hfixed h hle hleap
  shift_offset := ⟨_, head?_ticks h, shift_neg_offset hfixed h hle hleap⟩

/-- To move a tick does not lead into a leap second. -/
theorem not_aligned_ticks (hfixed : r.unit.IsFixed) (h : r.Unsaturated) (hleap : r.CountsLeap) :
    ¬ r.ticks.Aligned r.unit r.min r.firstDay := by
  intro haligned
  obtain ⟨first, hfirst, hshift⟩ := haligned.shift_offset
  rw [head?_ticks h, Option.mem_some] at hfirst
  subst hfirst
  have hmoved : ((.ofNanos (r.place r.numeric.first) : Instant cal).shift (-r.numeric.offset)
      r.unit).reading.leap = false := by
    rw [Instant.shift_of_fixed hfixed,
      Instant.addNanos_ofNanos (h _ r.numeric.first_mem_toList)]
    exact Instant.leap_ofNanos _
  have hstart : (r.min.reading.startOf r.firstDay r.unit).leap = false := by
    rw [← hshift]
    exact hmoved
  exact Bool.false_ne_true (hstart.symm.trans (leap_startOf hleap))

end TickRange

/-- **Ticks of a fixed length of time stand at full units** from the start of a coarser one:
weeks at midnight of their first day, days at midnight. The range starts from the first tick
on and before the second, and the offset leads from there to the unit in which it starts,
unless that is a millisecond of a leap second. -/
theorem DateTicks.aligned_iff {min max : Instant cal} {count : ℕ} {unit? : Option TimeUnit}
    {firstDay : Weekday} (hle : min ≤ max)
    (hfixed : (TickRange.between min max count unit? firstDay).unit.IsFixed)
    (h : (TickRange.between min max count unit? firstDay).Unsaturated) :
    (cover min max count unit? firstDay).Aligned
        (TickRange.between min max count unit? firstDay).unit min firstDay ↔
      ¬ (TickRange.between min max count unit? firstDay).CountsLeap := by
  have hmin : (TickRange.between min max count unit? firstDay).min = min := if_pos hle
  have hmax : (TickRange.between min max count unit? firstDay).max = max := if_pos hle
  have hholds := TickRange.aligned_ticks hfixed h
  have hfails := TickRange.not_aligned_ticks hfixed h
  rw [hmin, hmax, ← TickRange.cover_eq_ticks] at hholds
  rw [hmin, ← TickRange.cover_eq_ticks] at hfails
  exact ⟨fun haligned hleap => hfails hleap haligned, hholds hle⟩

/-- Weeks from Monday, between a Wednesday and a day five weeks later. -/
theorem DateTicks.aligned_weeks :
    Instant.ofClock ⟨2020, 1, 15⟩ 5 0 0 0 ≤ .ofDate ⟨2020, 2, 20⟩ ∧
      (TickRange.between (.ofClock ⟨2020, 1, 15⟩ 5 0 0 0) (.ofDate ⟨2020, 2, 20⟩) 5
        (some .week) .monday).unit.IsFixed ∧
      (TickRange.between (.ofClock ⟨2020, 1, 15⟩ 5 0 0 0) (.ofDate ⟨2020, 2, 20⟩) 5
        (some .week) .monday).Unsaturated ∧
      (cover (.ofClock ⟨2020, 1, 15⟩ 5 0 0 0) (.ofDate ⟨2020, 2, 20⟩) 5
        (some .week) .monday).Aligned .week (.ofClock ⟨2020, 1, 15⟩ 5 0 0 0) .monday := by
  have hle : Instant.ofClock ⟨2020, 1, 15⟩ 5 0 0 0 ≤ .ofDate ⟨2020, 2, 20⟩ := by
    decide +kernel
  have hfixed : (TickRange.between (.ofClock ⟨2020, 1, 15⟩ 5 0 0 0)
      (.ofDate ⟨2020, 2, 20⟩) 5 (some .week) .monday).unit.IsFixed :=
    ⟨by decide, by decide⟩
  have hunsaturated : (TickRange.between (.ofClock ⟨2020, 1, 15⟩ 5 0 0 0)
      (.ofDate ⟨2020, 2, 20⟩) 5 (some .week) .monday).Unsaturated := by
    unfold TickRange.Unsaturated
    decide +kernel
  refine ⟨hle, hfixed, hunsaturated, (aligned_iff hle hfixed hunsaturated).2 ?_⟩
  rintro ⟨hleap, -⟩
  exact absurd hleap (by decide +kernel)

/-- Half a second into the leap second of 2016. -/
def Instant.newYearsLeap : Instant :=
  ofClock ⟨2016, 12, 31⟩ 23 59 59 1500000000

/-- Its milliseconds are counted on behind it. -/
theorem DateTicks.not_aligned_leap :
    Instant.newYearsLeap ≤ .newYearsLeap ∧
      (TickRange.between .newYearsLeap .newYearsLeap 5 (some .millisecond)
        .sunday).unit.IsFixed ∧
      (TickRange.between .newYearsLeap .newYearsLeap 5 (some .millisecond)
        .sunday).Unsaturated ∧
      ¬ (cover .newYearsLeap .newYearsLeap 5 (some .millisecond) .sunday).Aligned .millisecond
        .newYearsLeap .sunday := by
  refine ⟨by decide +kernel, ⟨by decide, by decide⟩, ?_, fun haligned => ?_⟩
  · unfold TickRange.Unsaturated
    decide +kernel
  · have hticks : (cover .newYearsLeap .newYearsLeap 5 (some .millisecond) .sunday).ticks =
        [.ofClock ⟨2017, 1, 1⟩ 0 0 0 500000000, .ofClock ⟨2017, 1, 1⟩ 0 0 0 501000000] := by
      decide +kernel
    obtain ⟨first, second, rest, heq, hle, -⟩ := haligned.startsAround
    rw [hticks] at heq
    obtain ⟨rfl, -⟩ := List.cons.inj heq
    exact absurd hle (by decide +kernel)

end TickLabels
