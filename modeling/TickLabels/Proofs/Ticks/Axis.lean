import TickLabels.Proofs.Calendar.Arithmetic
import TickLabels.Proofs.Ticks.Numeric
import TickLabels.Ticks.Dates
/-!
# The axis behind the ticks

Whatever the unit, a range is measured in numbers of units, ticks are set at some
of these numbers, and each number has its place in time (`TickRange.place`). The
places go on beyond the calendar. As long as the ticks stay within it, the ticks
of a range are the instants at their places (`TickRange.ticks_eq`), and to move an
instant by units is to move its number (`TickRange.shift_place`).
-/

namespace TickLabels

/-- A range of time, with the ticks that are asked for. -/
structure TickRange (cal : Calendar) where
  min : Instant cal
  max : Instant cal
  count : Nat
  unit : TimeUnit
  firstDay : Weekday

namespace TickRange

variable {cal : Calendar}

/-- The range between two instants, with the unit that is inferred for it unless
one is given. -/
def between (a b : Instant cal) (count : Nat) (unit? : Option TimeUnit) (firstDay : Weekday) :
    TickRange cal :=
  let min := if a ≤ b then a else b
  let max := if a ≤ b then b else a
  ⟨min, max, count, unit?.getD (.infer min max (Float.ofNat count)), firstDay⟩

variable (r : TickRange cal)

/-- The days from the start of the week to the range. -/
def daysIntoWeek : Nat :=
  (7 + r.min.weekday - r.firstDay.daysFromSunday) % 7

/-- The instant from which the units are counted. Years are counted from year
zero, and this is the start of the first of them. -/
def epoch : Instant cal :=
  match r.unit with
  | .year | .month => r.min.startOfYear
  | .week => r.min.midnight.addDays (-(r.daysIntoWeek : Int))
  | .day | .hour => r.min.midnight
  | .minute => r.min.truncate (cal.hour r.min) 0 0
  | .second => r.min.truncate (cal.hour r.min) (cal.minute r.min) 0
  | .millisecond => r.min.truncate (cal.hour r.min) (cal.minute r.min) (cal.second r.min)

/-- The number of the unit in which the range starts. -/
def first : Int :=
  match r.unit with
  | .year => r.min.date.year
  | .month => r.min.date.month - 1
  | .week | .day => 0
  | .hour => r.min.hour
  | .minute => r.min.minute
  | .second => r.min.second
  | .millisecond => r.min.millisecond

/-- The number of the unit in which the range ends. -/
def last : Int :=
  match r.unit with
  | .year => r.max.date.year + DateTicks.beyond r.max r.max.startOfYear
  | .month =>
    (r.max.date.year - r.min.date.year) * 12 + (r.max.date.month - 1) +
      DateTicks.beyond r.max r.max.startOfMonth
  | unit => ceilDiv (r.epoch.millisUntil r.max) unit.millis

/-- The numbers of the ticks. -/
def numeric : NumericTicks :=
  .cover r.first r.last r.count r.unit.spacings

/-- The instant of a number. -/
def toInstant (n : Int) : Instant cal :=
  match r.unit with
  | .year => r.epoch.addYears (n - r.first)
  | unit => r.epoch.shift n unit

/-- The ticks of a range. -/
def ticks : DateTicks cal :=
  .ofNumeric r.unit r.numeric r.toInstant

/-- **All units are laid out alike.** -/
theorem cover_eq_ticks (a b : Instant cal) (count : Nat) (unit? : Option TimeUnit)
    (firstDay : Weekday) :
    DateTicks.cover a b count unit? firstDay = (between a b count unit? firstDay).ticks := by
  have hranges : (if a ≤ b then (a, b) else (b, a)) =
      ((between a b count unit? firstDay).min, (between a b count unit? firstDay).max) := by
    unfold between
    split <;> rfl
  have hunit : (between a b count unit? firstDay).unit = unit?.getD
      (.infer (between a b count unit? firstDay).min (between a b count unit? firstDay).max
        (Float.ofNat (between a b count unit? firstDay).count)) := rfl
  have hday : (between a b count unit? firstDay).firstDay = firstDay := rfl
  have hcount : (between a b count unit? firstDay).count = count := rfl
  unfold DateTicks.cover
  rw [hranges]
  -- The unit is inferred from the range, so it is only a variable once the range
  -- is one.
  generalize between a b count unit? firstDay = r at *
  obtain ⟨min, max, count', unit, firstDay'⟩ := r
  dsimp only at *
  subst hday hcount
  rw [← hunit]
  cases unit <;> rfl

/-! ## Places in time -/

/-- Where the units of fixed length are counted from, in nanoseconds. -/
def origin : Int :=
  match r.unit with
  | .week => (r.min.dayNumber - r.daysIntoWeek) * nanosPerDay
  | .minute => r.min.nanos / nanosPerHour * nanosPerHour
  | .second => r.min.nanos / nanosPerMinute * nanosPerMinute
  | .millisecond => r.min.nanos / nanosPerSecond * nanosPerSecond
  | _ => r.min.dayNumber * nanosPerDay

/-- The nanoseconds of a number, whether or not there is an instant at them. -/
def place (n : Int) : Int :=
  match r.unit with
  | .year => daysBeforeYear n * nanosPerDay
  | .month => monthStart (r.min.date.year * 12 + n) * nanosPerDay
  | unit => r.origin + n * unit.nanos

/-- The calendar has an instant for every tick. -/
def Unsaturated : Prop :=
  ∀ n ∈ r.numeric.toList, Representable (r.place n)

variable {r}

theorem place_of_fixed (h : r.unit.IsFixed) (n : Int) :
    r.place n = r.origin + n * r.unit.nanos := by
  obtain ⟨hyear, hmonth⟩ := h
  unfold place
  split
  · next hunit => exact absurd hunit hyear
  · next hunit => exact absurd hunit hmonth
  · rfl

theorem place_of_year (h : r.unit = .year) (n : Int) :
    r.place n = monthStart (n * 12) * nanosPerDay := by
  rw [place, h]
  rfl

theorem place_of_month (h : r.unit = .month) (n : Int) :
    r.place n = monthStart (r.min.date.year * 12 + n) * nanosPerDay := by
  rw [place, h]

/-- A unit is a year, a month, or of fixed length. -/
theorem unit_cases (r : TickRange cal) : r.unit = .year ∨ r.unit = .month ∨ r.unit.IsFixed := by
  unfold TimeUnit.IsFixed
  cases r.unit <;> simp

/-- **Later numbers have later places.** -/
theorem place_strictMono {m n : Int} (h : m < n) : r.place m < r.place n := by
  have hday : 0 < nanosPerDay := by decide
  rcases r.unit_cases with hunit | hunit | hunit
  · rw [place_of_year hunit, place_of_year hunit]
    exact Int.mul_lt_mul_of_pos_right (monthStart_strictMono (by omega)) hday
  · rw [place_of_month hunit, place_of_month hunit]
    exact Int.mul_lt_mul_of_pos_right (monthStart_strictMono (by omega)) hday
  · rw [place_of_fixed hunit, place_of_fixed hunit]
    have := Int.mul_lt_mul_of_pos_right h r.unit.nanos_pos
    omega

theorem place_mono {m n : Int} (h : m ≤ n) : r.place m ≤ r.place n := by
  rcases Int.lt_or_eq_of_le h with hlt | rfl
  · exact Int.le_of_lt (place_strictMono hlt)
  · exact Int.le_refl _

/-- **To move an instant by units is to move its number.** -/
theorem shift_place {n k : Int} (hn : Representable (r.place n))
    (hk : Representable (r.place (n + k))) :
    (Instant.ofNanos (r.place n) : Instant cal).shift k r.unit = .ofNanos (r.place (n + k)) := by
  rcases r.unit_cases with hunit | hunit | hunit
  · rw [place_of_year hunit] at hn hk ⊢
    rw [Int.add_mul] at hk
    rw [place_of_year hunit, Int.add_mul, hunit]
    exact (Instant.addYears_eq _ k).trans (Instant.addMonths_monthStart hn hk)
  · rw [place_of_month hunit] at hn hk ⊢
    rw [← Int.add_assoc] at hk
    rw [place_of_month hunit, ← Int.add_assoc, hunit]
    exact Instant.addMonths_monthStart hn hk
  · rw [Instant.shift_of_fixed hunit, Instant.addNanos_ofNanos hn, place_of_fixed hunit,
      place_of_fixed hunit, Int.add_mul, Int.add_assoc]

/-! ## The epoch -/

/-- The units of fixed length are counted from the start of a coarser one, which
lies before the range by a week at most. -/
theorem origin_bounds (r : TickRange cal) :
    r.min.nanos - 7 * nanosPerDay < r.origin ∧ r.origin ≤ r.min.nanos := by
  have hweek : r.daysIntoWeek < 7 := Nat.mod_lt _ (by decide)
  unfold origin Instant.dayNumber
  rw [nanosPerDay_eq, nanosPerHour_eq, nanosPerMinute_eq, nanosPerSecond_eq]
  split <;> omega

/-- The start of the coarser unit is an instant, unless it is the start of a week
that begins before the calendar. -/
theorem representable_origin (h : r.unit = .week → earliestNanos ≤ r.origin) :
    Representable r.origin := by
  have htruncate : ∀ {unit : Int}, 0 < unit → unit ∣ earliestNanos →
      Representable (r.min.nanos / unit * unit) :=
    fun hpos hunit => Instant.representable_truncate hpos hunit r.min
  have hlast := Int.le_trans r.origin_bounds.2 r.min.le_latest
  cases hunit : r.unit with
  | week => exact ⟨h hunit, hlast⟩
  | minute | second | millisecond | day | hour | year | month =>
    simp only [origin, hunit]
    exact htruncate (by decide) (by decide)

theorem epoch_of_fixed (h : r.unit.IsFixed) : r.epoch = .ofNanos r.origin := by
  obtain ⟨hyear, hmonth⟩ := h
  cases hunit : r.unit with
  | year => exact absurd hunit hyear
  | month => exact absurd hunit hmonth
  | day | hour =>
    simp only [epoch, origin, hunit]
    exact r.min.midnight_eq
  | minute =>
    simp only [epoch, origin, hunit]
    exact r.min.truncate_hour
  | second =>
    simp only [epoch, origin, hunit]
    exact r.min.truncate_minute
  | millisecond =>
    simp only [epoch, origin, hunit]
    exact r.min.truncate_second
  | week =>
    have hmidnight : Representable (r.min.dayNumber * nanosPerDay) :=
      Instant.representable_truncate (by decide) (by decide) r.min
    simp only [epoch, origin, hunit]
    rw [Instant.midnight_eq, Instant.addDays_eq, Instant.addNanos_ofNanos hmidnight, ← Int.add_mul]
    rfl

theorem epoch_of_year (hunit : r.unit = .year) : r.epoch = .ofNanos (r.place r.first) := by
  rw [place_of_year hunit, epoch, first, hunit]
  exact Instant.startOfYear_eq r.min

theorem epoch_of_month (hunit : r.unit = .month) : r.epoch = .ofNanos (r.place 0) := by
  rw [place_of_month hunit, epoch, hunit, Int.add_zero]
  exact Instant.startOfYear_eq r.min

/-! ## Numbers of instants -/

/-- The range starts close to the epoch, and years are few. -/
theorem first_bounds (r : TickRange cal) : -1000000 < r.first ∧ r.first < 1000000 := by
  obtain ⟨hlow, hhigh⟩ := r.min.year_bounds
  have hmonth := r.min.month_bounds
  unfold first
  split
  · unfold firstYear lastYear at *
    omega
  · omega
  · omega
  · omega
  · rw [Instant.hour_eq]
    unfold Instant.timeOfDay
    rw [nanosPerDay_eq, nanosPerHour_eq]
    omega
  · rw [Instant.minute_eq]
    omega
  · rw [Instant.second_eq]
    omega
  · rw [Instant.millisecond, Instant.nanosecond_eq, nanosPerMilli_eq, nanosPerSecond_eq]
    split <;> omega

/-- **The numbers of instants** are far from the ends of 64 bits. -/
theorem number_bounds {n : Int} (h : Representable (r.place n)) :
    -100000000000000000 < n ∧ n < 100000000000000000 := by
  obtain ⟨hlow, hhigh⟩ := r.min.year_bounds
  rcases r.unit_cases with hunit | hunit | hunit
  · rw [place_of_year hunit] at h
    have hyear := Instant.representable_monthStart_iff.1 h
    unfold firstYear lastYear at *
    omega
  · rw [place_of_month hunit] at h
    have hyear := Instant.representable_monthStart_iff.1 h
    unfold firstYear lastYear at *
    omega
  · obtain ⟨horigin, horigin'⟩ := r.origin_bounds
    have hmin := r.min.representable_nanos
    -- There are more nanoseconds in the calendar than 64 bits hold, but fewer
    -- milliseconds.
    have hnanos : 1000000 ≤ r.unit.nanos := by
      cases r.unit <;> decide
    rw [place_of_fixed hunit] at h
    unfold Representable at *
    rw [earliestNanos_eq, latestNanos_eq] at *
    rw [nanosPerDay_eq] at horigin
    constructor
    · refine Int.not_le.1 fun hle => ?_
      have := Int.mul_le_mul_of_nonneg_left hnanos (show 0 ≤ -n by omega)
      rw [Int.neg_mul, Int.neg_mul] at this
      omega
    · refine Int.not_le.1 fun hle => ?_
      have := Int.mul_le_mul_of_nonneg_left hnanos (show 0 ≤ n by omega)
      omega

theorem inside_numeric (h : r.Unsaturated) : r.numeric.Inside := by
  intro n hn
  have := number_bounds (h n hn)
  unfold maxInt64
  omega

theorem first_lt_maxInt64 (r : TickRange cal) : r.first < maxInt64 := by
  have := r.first_bounds
  unfold maxInt64
  omega

/-! ## The ticks at their places -/

/-- The numbers of the ticks are not cut off. -/
theorem numeric_spec (h : r.Unsaturated) :
    r.numeric.interval ∈ stepsTried r.unit.spacings ∧
      r.numeric.first = Min.min r.first r.last / r.numeric.interval * r.numeric.interval ∧
      r.numeric.toList.length ≤ Max.max r.count 1 + 1 :=
  NumericTicks.cover_spec r.first_lt_maxInt64 (inside_numeric h)

theorem interval_pos (h : r.Unsaturated) : 0 < r.numeric.interval :=
  pos_of_mem_stepsTried (numeric_spec h).1

/-- The first tick is not behind the start of the range. -/
theorem first_numeric_le (h : r.Unsaturated) : r.numeric.first ≤ r.first := by
  obtain ⟨-, hfirst, -⟩ := numeric_spec h
  have hle := Int.ediv_mul_le (Min.min r.first r.last) (Int.ne_of_gt (interval_pos h))
  rw [hfirst]
  omega

/-- If no tick is beyond the calendar, what the units are counted from is not
either. -/
theorem representable_origin_of_unsaturated (h : r.Unsaturated) : Representable r.origin := by
  refine representable_origin fun hweek => ?_
  have hfixed : r.unit.IsFixed := by
    rw [hweek]
    exact ⟨by simp, by simp⟩
  have hfirst := first_numeric_le h
  have hplace := (h _ r.numeric.first_mem_toList).1
  have hzero : r.first = 0 := by rw [first, hweek]
  have := Int.mul_nonpos_of_nonpos_of_nonneg (show r.numeric.first ≤ 0 by omega)
    (Int.le_of_lt r.unit.nanos_pos)
  rw [place_of_fixed hfixed] at hplace
  omega

/-- The instant of a tick is the one at its place. -/
theorem toInstant_eq (h : r.Unsaturated) {n : Int} (hn : n ∈ r.numeric.toList) :
    r.toInstant n = .ofNanos (r.place n) := by
  have hplace := h n hn
  rcases r.unit_cases with hunit | hunit | hunit
  · have hfirst : Representable (r.place r.first) := by
      rw [place_of_year hunit, first, hunit]
      exact r.min.representable_startOfYear
    have hsum : r.first + (n - r.first) = n := by omega
    have hshift := shift_place hfirst (hsum.symm ▸ hplace)
    rw [← epoch_of_year hunit, hsum, hunit] at hshift
    rw [toInstant, hunit]
    exact hshift
  · have hzero : Representable (r.place 0) := by
      rw [place_of_month hunit, Int.add_zero]
      exact r.min.representable_startOfYear
    have hshift := shift_place hzero ((Int.zero_add n).symm ▸ hplace)
    rw [← epoch_of_month hunit, Int.zero_add, hunit] at hshift
    rw [toInstant, hunit]
    exact hshift
  · have horigin := representable_origin_of_unsaturated h
    have hinstant : r.toInstant n = r.epoch.shift n r.unit := by
      obtain ⟨hyear, -⟩ := hunit
      unfold toInstant
      split
      · next hunit => exact absurd hunit hyear
      · rfl
    rw [hinstant, epoch_of_fixed hunit, Instant.shift_of_fixed hunit,
      Instant.addNanos_ofNanos horigin, place_of_fixed hunit]

end TickRange

variable {cal : Calendar}

/-- Ticks are set at their numbers only. -/
theorem DateTicks.ofNumeric_congr {unit : TimeUnit} {numeric : NumericTicks}
    {f g : Int → Instant cal} (h : ∀ n ∈ numeric.toList, f n = g n) :
    ofNumeric unit numeric f = ofNumeric unit numeric g := by
  have hfirst := h _ numeric.first_mem_toList
  have hall : numeric.toList.map f = numeric.toList.map g := List.map_congr_left h
  unfold ofNumeric
  rw [hfirst, hall]

/-- **The ticks are the instants at their places**, if the calendar has them
all. -/
theorem TickRange.ticks_eq {r : TickRange cal} (h : r.Unsaturated) :
    r.ticks = .ofNumeric r.unit r.numeric fun n => .ofNanos (r.place n) :=
  DateTicks.ofNumeric_congr fun _ hn => toInstant_eq h hn

end TickLabels
