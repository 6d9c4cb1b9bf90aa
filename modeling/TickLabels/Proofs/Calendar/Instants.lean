import TickLabels.Calendar.TimeUnit
import TickLabels.Proofs.Calendar.Dates
/-!
# Instants and their nanoseconds

Whatever the calendar, an instant is known by its nanoseconds and by whether it lies in a leap
second (`Instant.eq_iff`), and there is one for each of these (`Instant.exists_nanos_leap`). The
fields that are shown, the order and the differences of instants are read off their
nanoseconds.
-/

namespace TickLabels

/-- There is an instant at these nanoseconds. -/
def Representable (nanos : Int) : Prop :=
  earliestNanos ≤ nanos ∧ nanos ≤ latestNanos

instance (nanos : Int) : Decidable (Representable nanos) :=
  inferInstanceAs (Decidable (_ ∧ _))

/-- The length of a unit in nanoseconds. Months and years have none of their
own. -/
def TimeUnit.nanos (unit : TimeUnit) : Int :=
  unit.millis * nanosPerMilli

/-- Units from the week down have a fixed length. -/
def TimeUnit.IsFixed (unit : TimeUnit) : Prop :=
  unit ≠ .year ∧ unit ≠ .month

theorem TimeUnit.eq_of_not_isFixed {unit : TimeUnit} (h : ¬ unit.IsFixed) :
    unit = .year ∨ unit = .month := by
  cases unit with
  | year => exact .inl rfl
  | month => exact .inr rfl
  | week | day | hour | minute | second | millisecond =>
    exact absurd ⟨by decide, by decide⟩ h

theorem earliestNanos_eq : earliestNanos = -8272434009600000000000 := by decide

theorem latestNanos_eq : latestNanos = 8272434095999999999999 := by decide

theorem nanosPerDay_eq : nanosPerDay = 86400000000000 := by decide

theorem nanosPerHour_eq : nanosPerHour = 3600000000000 := by decide

theorem nanosPerMinute_eq : nanosPerMinute = 60000000000 := by decide

theorem nanosPerSecond_eq : nanosPerSecond = 1000000000 := by decide

theorem nanosPerMilli_eq : nanosPerMilli = 1000000 := rfl

theorem TimeUnit.millis_pos (unit : TimeUnit) : 0 < unit.millis := by
  cases unit <;> decide

theorem TimeUnit.nanos_pos (unit : TimeUnit) : 0 < unit.nanos := by
  cases unit <;> decide

/-! ## Days of instants -/

/-- Midnight of a day from the first to the last is an instant. -/
theorem representable_iff {day : Int} :
    Representable (day * nanosPerDay) ↔
      daysBeforeYear firstYear ≤ day ∧ day < daysBeforeYear (lastYear + 1) := by
  unfold Representable earliestNanos latestNanos
  rw [nanosPerDay_eq]
  omega

/-! ## Readings by their nanoseconds -/

namespace Reading

/-- What is shown at a number of nanoseconds, or in the leap second behind it. -/
def ofNanos (nanos : Int) (leap : Bool) : Reading where
  date := .ofDays (nanos / nanosPerDay)
  hour := (nanos / nanosPerHour % 24).toNat
  minute := (nanos / nanosPerMinute % 60).toNat
  second := (nanos / nanosPerSecond % 60).toNat
  nanosecond := (nanos % nanosPerSecond + if leap then nanosPerSecond else 0).toNat

theorem isValid_ofNanos {nanos : Int} (h : Representable nanos) (leap : Bool) :
    (ofNanos nanos leap).IsValid := by
  have hday : daysBeforeYear firstYear ≤ nanos / nanosPerDay ∧
      nanos / nanosPerDay < daysBeforeYear (lastYear + 1) := by
    refine representable_iff.1 ?_
    unfold Representable at *
    rw [earliestNanos_eq, latestNanos_eq] at *
    rw [nanosPerDay_eq]
    omega
  obtain ⟨hfirst, hlast⟩ := Date.year_ofDays hday.1 hday.2
  refine ⟨Date.isGregorian_ofDays _, hfirst, hlast, ?_, ?_, ?_, ?_⟩
  · exact (Int.toNat_lt' (by decide)).2 (Int.emod_lt_of_pos _ (by decide))
  · exact (Int.toNat_lt' (by decide)).2 (Int.emod_lt_of_pos _ (by decide))
  · exact (Int.toNat_lt' (by decide)).2 (Int.emod_lt_of_pos _ (by decide))
  · simp only [ofNanos, nanosPerSecond_eq]
    split <;> omega

theorem nanos_ofNanos (nanos : Int) (leap : Bool) : (ofNanos nanos leap).nanos = nanos := by
  simp only [Reading.nanos, secondOfDay, ofNanos, Date.toDays_ofDays, nanosPerDay_eq,
    nanosPerHour_eq, nanosPerMinute_eq, nanosPerSecond_eq]
  split <;> omega

theorem leap_ofNanos (nanos : Int) (leap : Bool) : (ofNanos nanos leap).leap = leap := by
  simp only [Reading.leap, ofNanos, nanosPerSecond_eq]
  cases leap with
  | false => simp only [Bool.false_eq_true, if_false, decide_eq_false_iff_not]; omega
  | true => simp only [if_true, decide_eq_true_eq]; omega

end Reading

namespace Instant

variable {cal : Calendar}

theorem representable_nanos (i : Instant cal) : Representable i.nanos :=
  ⟨i.earliest_le, i.le_latest⟩

theorem isGregorian_date (i : Instant cal) : i.date.IsGregorian :=
  i.isValid_reading.date

/-- The years of instants. -/
theorem year_bounds (i : Instant cal) : firstYear ≤ i.date.year ∧ i.date.year ≤ lastYear :=
  ⟨i.isValid_reading.firstYear_le, i.isValid_reading.le_lastYear⟩

theorem month_bounds (i : Instant cal) : 1 ≤ i.date.month ∧ i.date.month ≤ 12 :=
  ⟨i.isGregorian_date.one_le_month, i.isGregorian_date.month_le⟩

theorem year_eq_monthIndex_ediv (i : Instant cal) : i.date.year = i.date.monthIndex / 12 :=
  i.isGregorian_date.year_month.1.symm

theorem toDays_date (i : Instant cal) : i.date.toDays = i.dayNumber :=
  i.isValid_reading.nanos_parts.1.symm

/-- The seconds since midnight, as the clock shows them. -/
theorem secondOfDay_reading (i : Instant cal) :
    i.reading.secondOfDay = i.timeOfDay / nanosPerSecond :=
  i.isValid_reading.nanos_parts.2.1.symm

theorem weekday_eq (i : Instant cal) : i.weekday = daysFromSunday i.dayNumber := by
  rw [← toDays_date]
  exact cal.weekday_eq (cal.date i)

/-- The clock shows the parts of the time of day. -/
theorem clock_eq (i : Instant cal) :
    i.hour = i.timeOfDay / nanosPerHour ∧ i.minute = i.timeOfDay / nanosPerMinute % 60 ∧
      i.second = i.timeOfDay / nanosPerSecond % 60 := by
  have hclock := i.secondOfDay_reading
  have hminute := i.isValid_reading.minute_lt
  have hsecond := i.isValid_reading.second_lt
  change (i.reading.hour : Int) = _ ∧ (i.reading.minute : Int) = _ ∧ (i.reading.second : Int) = _
  unfold Reading.secondOfDay at hclock
  rw [nanosPerHour_eq, nanosPerMinute_eq]
  rw [nanosPerSecond_eq] at *
  omega

theorem hour_eq (i : Instant cal) : i.hour = i.timeOfDay / nanosPerHour :=
  i.clock_eq.1

theorem minute_eq (i : Instant cal) : i.minute = i.timeOfDay / nanosPerMinute % 60 :=
  i.clock_eq.2.1

theorem second_eq (i : Instant cal) : i.second = i.timeOfDay / nanosPerSecond % 60 :=
  i.clock_eq.2.2

/-! ## Instants by their nanoseconds -/

/-- **The calendar has an instant** at each of its nanoseconds, and one in each leap second. -/
theorem exists_nanos_leap {nanos : Int} (h : Representable nanos) (leap : Bool) :
    ∃ i : Instant cal, i.nanos = nanos ∧ i.leap = leap := by
  obtain ⟨i, hi⟩ : ∃ i : Instant cal, i.reading = .ofNanos nanos leap :=
    cal.exists_reading _ (Reading.isValid_ofNanos h leap)
  exact ⟨i, by rw [Instant.nanos, hi, Reading.nanos_ofNanos],
    by rw [Instant.leap, hi, Reading.leap_ofNanos]⟩

theorem representable_clamp (nanos : Int) :
    Representable (max earliestNanos (min nanos latestNanos)) := by
  have : earliestNanos ≤ latestNanos := by decide
  unfold Representable
  omega

/-- The instant at a number of nanoseconds, or the nearest there is. -/
noncomputable def ofNanos (nanos : Int) : Instant cal :=
  (exists_nanos_leap (representable_clamp nanos) false).choose

/-- The instant as far into the leap second behind the second of `i`. -/
noncomputable def toLeap (i : Instant cal) : Instant cal :=
  (exists_nanos_leap i.representable_nanos true).choose

theorem nanos_ofNanos_eq (nanos : Int) :
    (ofNanos nanos : Instant cal).nanos = max earliestNanos (min nanos latestNanos) :=
  (exists_nanos_leap (representable_clamp nanos) false).choose_spec.1

theorem leap_ofNanos (nanos : Int) : (ofNanos nanos : Instant cal).leap = false :=
  (exists_nanos_leap (representable_clamp nanos) false).choose_spec.2

theorem nanos_toLeap (i : Instant cal) : i.toLeap.nanos = i.nanos :=
  (exists_nanos_leap i.representable_nanos true).choose_spec.1

theorem leap_toLeap (i : Instant cal) : i.toLeap.leap = true :=
  (exists_nanos_leap i.representable_nanos true).choose_spec.2

theorem nanos_ofNanos {nanos : Int} (hlo : earliestNanos ≤ nanos) (hhi : nanos ≤ latestNanos) :
    (ofNanos nanos : Instant cal).nanos = nanos := by
  rw [nanos_ofNanos_eq]
  omega

theorem ofNanos_nanos {i : Instant cal} (h : i.leap = false) : ofNanos i.nanos = i :=
  eq_iff.2 ⟨nanos_ofNanos i.earliest_le i.le_latest, by rw [leap_ofNanos, h]⟩

theorem toLeap_ofNanos_nanos {i : Instant cal} (h : i.leap = true) :
    (ofNanos i.nanos : Instant cal).toLeap = i :=
  eq_iff.2 ⟨by rw [nanos_toLeap, nanos_ofNanos i.earliest_le i.le_latest], by rw [leap_toLeap, h]⟩

/-- An instant is where its nanoseconds say, if it is not in a leap second. -/
theorem eq_ofNanos {i : Instant cal} {nanos : Int} (hnanos : i.nanos = nanos)
    (hleap : i.leap = false) : i = ofNanos nanos := by
  rw [← hnanos, ofNanos_nanos hleap]

/-- A full second is at the nanoseconds of its reading. -/
theorem eq_ofNanos_of_reading {i : Instant cal} {d : Date} {hour minute second : Nat}
    (h : i.reading = ⟨d, hour, minute, second, 0⟩) :
    i = ofNanos (d.toDays * nanosPerDay +
      ((hour * 3600 + minute * 60 + second : Nat) : Int) * nanosPerSecond) := by
  refine eq_ofNanos ?_ ?_
  · rw [nanos, h, Reading.nanos, Reading.secondOfDay]
    simp
  · rw [leap, h]
    rfl

theorem earliest_eq : (earliest : Instant cal) = ofNanos earliestNanos :=
  eq_ofNanos_of_reading cal.reading_earliest

theorem latest_eq : (latest : Instant cal) = ofNanos latestNanos := by
  refine eq_ofNanos ?_ ?_
  · rw [nanos, show (latest : Instant cal).reading = _ from cal.reading_latest]
    decide
  · rw [leap, show (latest : Instant cal).reading = _ from cal.reading_latest]
    decide

/-! ## The order -/

theorem lt_or_le (i j : Instant cal) : i < j ∨ j ≤ i :=
  (Int.lt_or_le i.rank j.rank).imp lt_iff.2 le_iff.2

/-- Outside leap seconds the order is that of the nanoseconds. -/
theorem lt_iff_nanos {i j : Instant cal} (hi : i.leap = false) (hj : j.leap = false) :
    i < j ↔ i.nanos < j.nanos := by
  rw [lt_iff, rank, rank, nanosecond_eq, nanosecond_eq, hi, hj, nanosPerSecond_eq]
  simp only [Bool.false_eq_true, if_false]
  omega

/-- Instants in the order of their nanoseconds. -/
theorem ofNanos_lt_ofNanos {m n : Int} (hm : Representable m) (hn : Representable n) :
    (ofNanos m : Instant cal) < ofNanos n ↔ m < n := by
  rw [lt_iff_nanos (leap_ofNanos m) (leap_ofNanos n), nanos_ofNanos hm.1 hm.2,
    nanos_ofNanos hn.1 hn.2]

/-- Moving to the nearest instant keeps the order. -/
theorem ofNanos_mono {m n : Int} (h : m ≤ n) : (ofNanos m : Instant cal) ≤ ofNanos n := by
  refine Std.not_lt.1 fun hlt => ?_
  rw [lt_iff_nanos (leap_ofNanos n) (leap_ofNanos m), nanos_ofNanos_eq, nanos_ofNanos_eq] at hlt
  omega

/-- A leap second is behind all of the second before it. -/
theorem ofNanos_le_iff {nanos : Int} (h : Representable nanos) (i : Instant cal) :
    ofNanos nanos ≤ i ↔
      if i.leap then nanos / nanosPerSecond ≤ i.nanos / nanosPerSecond else nanos ≤ i.nanos := by
  rw [le_iff, rank, rank, nanosecond_eq, nanosecond_eq, nanos_ofNanos h.1 h.2, leap_ofNanos,
    nanosPerSecond_eq]
  cases i.leap with
  | false =>
    simp only [Bool.false_eq_true, if_false]
    omega
  | true =>
    simp only [Bool.false_eq_true, if_false, if_true]
    omega

/-- And before the next one. -/
theorem le_ofNanos_iff {nanos : Int} (h : Representable nanos) (i : Instant cal) :
    i ≤ ofNanos nanos ↔
      if i.leap then i.nanos / nanosPerSecond < nanos / nanosPerSecond else i.nanos ≤ nanos := by
  rw [le_iff, rank, rank, nanosecond_eq, nanosecond_eq, nanos_ofNanos h.1 h.2, leap_ofNanos,
    nanosPerSecond_eq]
  cases i.leap with
  | false =>
    simp only [Bool.false_eq_true, if_false]
    omega
  | true =>
    simp only [Bool.false_eq_true, if_false, if_true]
    omega

/-- No instant is before the first. -/
theorem earliest_le_self (i : Instant cal) : earliest ≤ i := by
  have hi := i.representable_nanos
  rw [earliest_eq, ofNanos_le_iff (by decide)]
  unfold Representable at hi
  rw [nanosPerSecond_eq]
  split <;> omega

theorem earliest_lt_or_eq (i : Instant cal) : earliest < i ∨ i = earliest :=
  (Std.le_iff_lt_or_eq.1 i.earliest_le_self).imp_right Eq.symm

/-- Instants in order are in seconds in order. -/
theorem seconds_le_of_le {i j : Instant cal} (h : i ≤ j) :
    i.nanos / nanosPerSecond ≤ j.nanos / nanosPerSecond := by
  rw [le_iff, rank, rank, nanosecond_eq, nanosecond_eq, nanosPerSecond_eq] at h
  rw [nanosPerSecond_eq]
  split at h <;> split at h <;> omega

/-! ## Differences -/

/-- The time between two instants. A leap second at either end is counted where the other end
is not later in its day. -/
theorem nanosUntil_eq (i j : Instant cal) :
    i.nanosUntil j = j.nanos - i.nanos +
      (if j.leap ∧ i.timeOfDay / nanosPerSecond ≤ j.timeOfDay / nanosPerSecond
        then nanosPerSecond else 0) -
      if i.leap ∧ j.timeOfDay / nanosPerSecond ≤ i.timeOfDay / nanosPerSecond
        then nanosPerSecond else 0 := by
  have hi := i.nanosecond_eq
  have hj := j.nanosecond_eq
  have hclock := i.secondOfDay_reading
  have hclock' := j.secondOfDay_reading
  refine (cal.nanosOf_since i j).trans ?_
  change (j.date.toDays - i.date.toDays) * nanosPerDay +
    ((j.reading.secondOfDay - i.reading.secondOfDay) * nanosPerSecond +
      (j.nanosecond - i.nanosecond) +
      (if i.leap ∧ i.reading.secondOfDay < j.reading.secondOfDay then nanosPerSecond else 0) -
      if j.leap ∧ j.reading.secondOfDay < i.reading.secondOfDay then nanosPerSecond else 0) = _
  have hnanos (k : Instant cal) : k.nanos = k.dayNumber * nanosPerDay +
      k.timeOfDay / nanosPerSecond * nanosPerSecond + k.nanos % nanosPerSecond := by
    unfold dayNumber timeOfDay
    rw [nanosPerDay_eq, nanosPerSecond_eq]
    omega
  have hfrom := hnanos i
  have hto := hnanos j
  rw [toDays_date, toDays_date, hclock, hclock', hi, hj]
  generalize i.timeOfDay / nanosPerSecond = start at *
  generalize j.timeOfDay / nanosPerSecond = stop at *
  rw [nanosPerDay_eq, nanosPerSecond_eq] at *
  rcases Int.lt_trichotomy start stop with hlt | heq | hgt
  · rw [if_neg (fun h => by omega : ¬ (j.leap = true ∧ stop < start)),
      if_neg (fun h => by omega : ¬ (i.leap = true ∧ stop ≤ start))]
    simp only [hlt, Int.le_of_lt hlt, and_true]
    split <;> split <;> omega
  · simp only [heq, Int.lt_irrefl, Int.le_refl, and_true, and_false, if_false]
    split <;> split <;> omega
  · rw [if_neg (fun h => by omega : ¬ (i.leap = true ∧ start < stop)),
      if_neg (fun h => by omega : ¬ (j.leap = true ∧ start ≤ stop))]
    simp only [hgt, Int.le_of_lt hgt, and_true]
    split <;> split <;> omega

theorem millisUntil_eq (i j : Instant cal) :
    i.millisUntil j = (i.nanosUntil j).tdiv nanosPerMilli :=
  cal.wholeMillis_eq _

/-- The time between instants outside leap seconds. -/
theorem nanosUntil_ofNanos {m n : Int} (hm : Representable m) (hn : Representable n) :
    (ofNanos m : Instant cal).nanosUntil (ofNanos n) = n - m := by
  rw [nanosUntil_eq, leap_ofNanos, leap_ofNanos, nanos_ofNanos hm.1 hm.2, nanos_ofNanos hn.1 hn.2,
    if_neg (by simp), if_neg (by simp), Int.add_zero, Int.sub_zero]

theorem millisUntil_ofNanos {m n : Int} (hm : Representable m) (hn : Representable n) :
    (ofNanos m : Instant cal).millisUntil (ofNanos n) = (n - m).tdiv nanosPerMilli := by
  rw [millisUntil_eq, nanosUntil_ofNanos hm hn]

/-- Back it is as long. -/
theorem nanosUntil_swap (i j : Instant cal) : j.nanosUntil i = -i.nanosUntil j := by
  rw [nanosUntil_eq, nanosUntil_eq]
  omega

theorem millisUntil_swap (i j : Instant cal) : j.millisUntil i = -i.millisUntil j := by
  rw [millisUntil_eq, nanosUntil_swap, Int.neg_tdiv, millisUntil_eq]

/-- The calendar is shorter than 54 bits of milliseconds. -/
theorem natAbs_millisUntil_lt (i j : Instant cal) :
    (i.millisUntil j).natAbs < 0x40000000000000 := by
  have hnanos : (i.nanosUntil j).natAbs < 1000000 * 0x40000000000000 := by
    have hi := i.representable_nanos
    have hj := j.representable_nanos
    unfold Representable at *
    rw [earliestNanos_eq, latestNanos_eq] at *
    rw [nanosUntil_eq, nanosPerSecond_eq]
    split <;> split <;> omega
  rw [millisUntil_eq, Int.natAbs_tdiv, nanosPerMilli_eq]
  exact Nat.div_lt_of_lt_mul hnanos

end Instant

end TickLabels
