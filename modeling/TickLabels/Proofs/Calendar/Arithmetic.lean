import TickLabels.Proofs.Calendar.Instants
/-!
# Moving instants

Arithmetic on instants is arithmetic on their nanoseconds for as long as the result is an
instant. Months are moved from first day to first day (`Instant.addMonths_monthStart`); all
other units are so many nanoseconds (`Instant.shift_of_fixed`).
-/

namespace TickLabels

namespace Instant

variable {cal : Calendar}

/-! ## Moving by nanoseconds -/

/-- The nanoseconds at which the instant so many nanoseconds away lies, if the
calendar has it. -/
def target (i : Instant cal) (n : Int) : Int :=
  i.reading.target n

/-- So many nanoseconds do not lead out of the leap second in which an instant lies. -/
def StaysInLeap (i : Instant cal) (n : Int) : Prop :=
  i.reading.StaysInLeap n

instance (i : Instant cal) (n : Int) : Decidable (i.StaysInLeap n) :=
  inferInstanceAs (Decidable (i.reading.StaysInLeap n))

/-- Backwards out of a leap second, the target is a second further than the numbers say. -/
theorem target_eq (i : Instant cal) (n : Int) :
    i.target n = if i.leap ∧ i.nanosecond + n < nanosPerSecond then i.nanos + nanosPerSecond + n
      else i.nanos + n := rfl

theorem staysInLeap_iff {i : Instant cal} {n : Int} :
    i.StaysInLeap n ↔ i.leap = true ∧ nanosPerSecond ≤ i.nanosecond + n ∧
      i.nanosecond + n < 2 * nanosPerSecond := Iff.rfl

theorem target_bounds (i : Instant cal) (n : Int) :
    i.nanos + n ≤ i.target n ∧ i.target n ≤ i.nanos + nanosPerSecond + n := by
  rw [target_eq, nanosPerSecond_eq]
  split <;> omega

/-- The instant at the target, or the end of the calendar nearest to it. -/
noncomputable def addNanos (i : Instant cal) (n : Int) : Instant cal :=
  if i.StaysInLeap n then (ofNanos (i.target n)).toLeap else ofNanos (i.target n)

theorem addNanos_ofNanos {nanos : Int} (h : Representable nanos) (n : Int) :
    (ofNanos nanos : Instant cal).addNanos n = ofNanos (nanos + n) := by
  have hleap : (ofNanos nanos : Instant cal).leap = false := leap_ofNanos nanos
  have hstays : ¬ (ofNanos nanos : Instant cal).StaysInLeap n := fun h => by
    have := h.1.symm.trans hleap
    contradiction
  rw [addNanos, if_neg hstays, target_eq, if_neg (by simp [hleap]), nanos_ofNanos h.1 h.2]

/-- The calendar ends with a second, so it has all of a leap second or nothing of it. -/
theorem representable_target_of_stays {i : Instant cal} {n : Int} (h : i.StaysInLeap n) :
    Representable (i.target n) ∧
      i.target n / nanosPerSecond = i.nanos / nanosPerSecond := by
  have hrange := i.representable_nanos
  obtain ⟨hleap, hlow, hhigh⟩ := staysInLeap_iff.1 h
  have htarget : i.target n = i.nanos + n := if_neg fun hbefore => Int.not_lt.2 hlow hbefore.2
  rw [nanosecond_eq, hleap, if_pos rfl] at hlow hhigh
  rw [htarget]
  unfold Representable at *
  rw [earliestNanos_eq, latestNanos_eq, nanosPerSecond_eq] at *
  omega

theorem nanos_addNanos (i : Instant cal) (n : Int) :
    (i.addNanos n).nanos = max earliestNanos (min (i.target n) latestNanos) := by
  unfold addNanos
  split
  · rw [nanos_toLeap, nanos_ofNanos_eq]
  · rw [nanos_ofNanos_eq]

/-- The result is in a leap second only where an instant stays in its own. -/
theorem leap_addNanos (i : Instant cal) (n : Int) :
    (i.addNanos n).leap = decide (i.StaysInLeap n) := by
  unfold addNanos
  split
  · next h => rw [leap_toLeap, decide_eq_true h]
  · next h => rw [leap_ofNanos, decide_eq_false h]

/-- **A target beyond the calendar** is replaced by the end in its direction. -/
theorem addNanos_of_not_representable {i : Instant cal} {n : Int}
    (h : ¬ Representable (i.target n)) : i.addNanos n = limit n := by
  have hrange := i.representable_nanos
  have hends : earliestNanos ≤ latestNanos := by decide
  have hstays : ¬ i.StaysInLeap n := fun hstays => h (representable_target_of_stays hstays).1
  have hside : (n < 0 ∧ i.target n < earliestNanos) ∨ (¬ n < 0 ∧ latestNanos < i.target n) := by
    unfold Representable at *
    by_cases hback : i.leap = true ∧ i.nanosecond + n < nanosPerSecond
    · -- The second before a leap second is not beyond the calendar.
      rw [target_eq, if_pos hback] at *
      obtain ⟨hleap, hback⟩ := hback
      rw [nanosecond_eq, hleap, if_pos rfl] at hback
      rw [earliestNanos_eq, latestNanos_eq, nanosPerSecond_eq] at *
      omega
    · rw [target_eq, if_neg hback] at *
      omega
  rw [eq_iff, nanos_addNanos, leap_addNanos, decide_eq_false hstays, limit]
  rcases hside with ⟨hneg, hlt⟩ | ⟨hnonneg, hlt⟩
  · rw [if_pos hneg, earliest_eq, leap_ofNanos, nanos_ofNanos (Int.le_refl _) hends]
    exact ⟨by omega, rfl⟩
  · rw [if_neg hnonneg, latest_eq, leap_ofNanos, nanos_ofNanos hends (Int.le_refl _)]
    exact ⟨by omega, rfl⟩

/-- **The calendar moves an instant** to its target, if there is an instant. -/
theorem add?_eq (i : Instant cal) (s : cal.Span) :
    cal.add? i s =
      if Representable (i.target (cal.nanosOf s)) then some (i.addNanos (cal.nanosOf s))
      else none := by
  split
  · next h =>
    refine (cal.add?_eq_some i s _).2 ⟨?_, leap_addNanos i _⟩
    have hnanos := nanos_addNanos i (cal.nanosOf s)
    unfold Representable at h
    rw [show max earliestNanos (min (i.target (cal.nanosOf s)) latestNanos) =
      i.target (cal.nanosOf s) by omega] at hnanos
    exact hnanos
  · next h =>
    refine Option.eq_none_iff_forall_ne_some.2 fun j hj => h ?_
    have hnanos := ((cal.add?_eq_some i s j).1 hj).nanos_eq
    rw [target, show i.reading.target (cal.nanosOf s) = _ from hnanos.symm]
    exact representable_nanos j

/-- Amounts in the same direction end at the same end. -/
theorem limit_congr {m n : Int} (h : m < 0 ↔ n < 0) : (limit m : Instant cal) = limit n := by
  unfold limit
  simp only [h]

/-- The calendar is shorter than 64 bits of milliseconds. -/
theorem natAbs_le_of_representable {i : Instant cal} {millis : Int}
    (h : Representable (i.target (millis * nanosPerMilli))) :
    millis.natAbs ≤ 0x7fffffffffffffff := by
  have hrange := i.representable_nanos
  obtain ⟨hlow, hhigh⟩ := i.target_bounds (millis * nanosPerMilli)
  unfold Representable at *
  rw [earliestNanos_eq, latestNanos_eq] at *
  rw [nanosPerSecond_eq] at hhigh
  rw [nanosPerMilli_eq] at *
  omega

/-- **Guarded milliseconds** move an instant by their nanoseconds. Where a guard fails, the
target is beyond the calendar. -/
theorem addScaled_eq (i : Instant cal) (n : Int) {scale : Int} (hscale : 0 < scale) :
    i.addScaled n scale = i.addNanos (n * scale * nanosPerMilli) := by
  unfold addScaled
  dsimp only
  by_cases h : Representable (i.target (n * scale * nanosPerMilli))
  · have hsmall := natAbs_le_of_representable h
    have hfits : clampInt64 (n * scale) = n * scale := by
      unfold clampInt64
      omega
    obtain ⟨s, hs⟩ := cal.exists_spanOfMillis? (n * scale) hsmall
    have hadd := add?_eq i s
    rw [cal.nanosOf_of_spanOfMillis? _ s hs, if_pos h] at hadd
    rw [checkedMul?, if_pos hfits, Option.bind_some, hs, Option.bind_some, hadd, Option.getD_some]
  · have hnone (s : cal.Span) (hs : cal.spanOfMillis? (n * scale) = some s) :
        cal.add? i s = none := by
      rw [add?_eq, cal.nanosOf_of_spanOfMillis? _ s hs, if_neg h]
    have hsign : n * scale * nanosPerMilli < 0 ↔ n < 0 := by
      rw [nanosPerMilli_eq]
      constructor
      · intro hneg
        refine Int.not_le.1 fun hle => ?_
        have := Int.mul_nonneg hle (Int.le_of_lt hscale)
        omega
      · intro hneg
        have := Int.mul_neg_of_neg_of_pos hneg hscale
        omega
    rw [addNanos_of_not_representable h, limit_congr hsign]
    unfold checkedMul?
    split
    · rw [Option.bind_some]
      cases hs : cal.spanOfMillis? (n * scale) with
      | none => rw [Option.bind_none, Option.getD_none]
      | some s => rw [Option.bind_some, hnone s hs, Option.getD_none]
    · rw [Option.bind_none, Option.getD_none]

theorem addDays_eq (i : Instant cal) (n : Int) : i.addDays n = i.addNanos (n * nanosPerDay) := by
  rw [addDays, addScaled_eq i n (by decide), Int.mul_assoc]
  rfl

/-- Days beyond 64 bits lead as far beyond the calendar as the nearest number that fits. -/
theorem addDays_clampInt64 (i : Instant cal) (n : Int) :
    i.addDays (clampInt64 n) = i.addDays n := by
  by_cases hfits : clampInt64 n = n
  · rw [hfits]
  · have hbeyond {m : Int} (hm : 1000000000000 ≤ m.natAbs) : i.addDays m = limit m := by
      rw [addDays_eq, addNanos_of_not_representable]
      · exact limit_congr (by rw [nanosPerDay_eq]; omega)
      · intro h
        rw [show m * nanosPerDay = m * millisPerDay * nanosPerMilli by
          rw [Int.mul_assoc]; rfl] at h
        have hsmall := natAbs_le_of_representable h
        rw [show millisPerDay = 86400000 by decide] at hsmall
        omega
    unfold clampInt64 at hfits
    rw [hbeyond (by unfold clampInt64; omega), hbeyond (by omega)]
    exact limit_congr (by unfold clampInt64; omega)

/-- **A unit of fixed length** moves an instant by its nanoseconds. -/
theorem shift_of_fixed {unit : TimeUnit} (h : unit.IsFixed) (i : Instant cal) (n : Int) :
    i.shift n unit = i.addNanos (n * unit.nanos) := by
  have hscaled {scale : Int} (hpos : 0 < scale) (hmillis : scale = unit.millis) :
      i.addScaled n scale = i.addNanos (n * unit.nanos) := by
    rw [addScaled_eq i n hpos, hmillis, Int.mul_assoc, TimeUnit.nanos]
  obtain ⟨hyear, hmonth⟩ := h
  cases unit with
  | year => exact absurd rfl hyear
  | month => exact absurd rfl hmonth
  | week =>
    change i.addDays (clampInt64 (n * 7)) = _
    rw [addDays_clampInt64, addDays_eq, Int.mul_assoc]
    rfl
  | day | hour | minute | second | millisecond => exact hscaled (by decide) (by decide)

/-! ## Moving by months -/

/-- The instant so many months away, forwards or backwards, if the calendar has it. -/
def monthsAway? (i : Instant cal) (n : Int) : Option (Instant cal) :=
  if n < 0 then cal.subMonths? i n.natAbs else cal.addMonths? i n.natAbs

theorem monthsAway?_eq_some {i j : Instant cal} {n : Int} (h : n.natAbs ≤ 0xffffffff) :
    i.monthsAway? n = some j ↔ i.reading.IsMonthsAfter j.reading n := by
  unfold monthsAway?
  split
  · have hback := cal.subMonths?_eq_some i n.natAbs j h
    rwa [show -(n.natAbs : Int) = n by omega] at hback
  · have hahead := cal.addMonths?_eq_some i n.natAbs j h
    rwa [show (n.natAbs : Int) = n by omega] at hahead

theorem addMonths_of_word {i : Instant cal} {n : Int} (h : n.natAbs ≤ 0xffffffff) :
    i.addMonths n = (i.monthsAway? n).getD (limit n) := by
  unfold addMonths checkedWord?
  rw [if_pos h]
  rfl

/-- Months beyond 32 bits lead beyond the calendar. -/
theorem addMonths_of_large {i : Instant cal} {n : Int} (h : 0xffffffff < n.natAbs) :
    i.addMonths n = limit n := by
  unfold addMonths checkedWord?
  rw [if_neg (by omega)]
  rfl

/-- The calendar is shorter than 32 bits of months. -/
theorem natAbs_le_of_isMonthsAfter {i j : Instant cal} {n : Int}
    (h : i.reading.IsMonthsAfter j.reading n) : n.natAbs ≤ 0xffffffff := by
  have hmonth : j.date.monthIndex = i.date.monthIndex + n := h.monthIndex_eq
  have hyear := i.year_bounds
  have hyear' := j.year_bounds
  rw [year_eq_monthIndex_ediv] at hyear hyear'
  unfold firstYear lastYear at *
  omega

/-- **Months lead to the instant** that is so many months away. -/
theorem addMonths_of_isMonthsAfter {i j : Instant cal} {n : Int}
    (h : i.reading.IsMonthsAfter j.reading n) : i.addMonths n = j := by
  have hword := natAbs_le_of_isMonthsAfter h
  rw [addMonths_of_word hword, (monthsAway?_eq_some hword).2 h, Option.getD_some]

/-- If there is none, they lead to the end of the calendar. -/
theorem addMonths_of_forall_not {i : Instant cal} {n : Int}
    (h : ∀ j : Instant cal, ¬ i.reading.IsMonthsAfter j.reading n) : i.addMonths n = limit n := by
  by_cases hword : n.natAbs ≤ 0xffffffff
  · rw [addMonths_of_word hword, Option.eq_none_iff_forall_ne_some.2 fun j hj =>
      h j ((monthsAway?_eq_some hword).1 hj), Option.getD_none]
  · exact addMonths_of_large (by omega)

/-- **Years are twelve months**, also where these are beyond 64 bits. -/
theorem addYears_eq (i : Instant cal) (n : Int) : i.addYears n = i.addMonths (n * 12) := by
  by_cases hfits : clampInt64 (n * 12) = n * 12
  · rw [addYears, saturatingMul, hfits]
  · unfold clampInt64 at hfits
    rw [addYears, saturatingMul, addMonths_of_large (by unfold clampInt64; omega),
      addMonths_of_large (by omega)]
    exact limit_congr (by unfold clampInt64; omega)

theorem daysBeforeYear_le_monthStart (index : Int) :
    daysBeforeYear (index / 12) ≤ monthStart index ∧
      monthStart index < daysBeforeYear (index / 12 + 1) := by
  have hbounds := (Date.isGregorian_firstOf index).toDays_bounds
  rwa [Date.toDays_firstOf] at hbounds

/-- A month of the calendar is one of its years. -/
theorem representable_monthStart_iff {index : Int} :
    Representable (monthStart index * nanosPerDay) ↔
      firstYear ≤ index / 12 ∧ index / 12 ≤ lastYear := by
  obtain ⟨hlow, hhigh⟩ := daysBeforeYear_le_monthStart index
  rw [representable_iff]
  constructor
  · rintro ⟨hfirst, hlast⟩
    have hfrom := le_of_monthStart_lt (Int.lt_of_le_of_lt hfirst hhigh)
    have hto := le_of_monthStart_lt (Int.lt_of_le_of_lt hlow hlast)
    omega
  · rintro ⟨hfirst, hlast⟩
    exact ⟨Int.le_trans (daysBeforeYear_mono hfirst) hlow,
      Int.lt_of_lt_of_le hhigh (daysBeforeYear_mono (by omega))⟩

/-- The midnight of a date. -/
def midnightOf (d : Date) : Reading :=
  ⟨d, 0, 0, 0, 0⟩

theorem isValid_midnightOf {d : Date} (h : d.IsGregorian) (hfirst : firstYear ≤ d.year)
    (hlast : d.year ≤ lastYear) : (midnightOf d).IsValid :=
  ⟨h, hfirst, hlast, Nat.zero_lt_succ _, Nat.zero_lt_succ _, Nat.zero_lt_succ _,
    Nat.zero_lt_succ _⟩

theorem eq_ofNanos_of_midnightOf {i : Instant cal} {d : Date} (h : i.reading = midnightOf d) :
    i = ofNanos (d.toDays * nanosPerDay) := by
  have hi := eq_ofNanos_of_reading h
  rwa [show ((0 * 3600 + 0 * 60 + 0 : Nat) : Int) * nanosPerSecond = 0 by decide,
    Int.add_zero] at hi

/-- At the start of a month its first day is shown. -/
theorem reading_monthStart {index : Int} (h : Representable (monthStart index * nanosPerDay)) :
    (ofNanos (monthStart index * nanosPerDay) : Instant cal).reading =
      midnightOf (.firstOf index) := by
  obtain ⟨hfirst, hlast⟩ := representable_monthStart_iff.1 h
  obtain ⟨i, hi⟩ : ∃ i : Instant cal, i.reading = midnightOf (.firstOf index) :=
    cal.exists_reading _ (isValid_midnightOf (Date.isGregorian_firstOf index) hfirst hlast)
  have heq := eq_ofNanos_of_midnightOf hi
  rw [Date.toDays_firstOf] at heq
  rw [← heq, hi]

theorem date_monthStart {index : Int} (h : Representable (monthStart index * nanosPerDay)) :
    (ofNanos (monthStart index * nanosPerDay) : Instant cal).date = .firstOf index :=
  congrArg Reading.date (reading_monthStart h)

/-- **From the first day of a month** so many months lead to the first day of
another. -/
theorem addMonths_monthStart {index n : Int} (h : Representable (monthStart index * nanosPerDay))
    (hn : Representable (monthStart (index + n) * nanosPerDay)) :
    (ofNanos (monthStart index * nanosPerDay) : Instant cal).addMonths n =
      ofNanos (monthStart (index + n) * nanosPerDay) := by
  refine addMonths_of_isMonthsAfter ?_
  rw [reading_monthStart h, reading_monthStart hn]
  refine ⟨?_, Nat.le_refl _, fun day hday _ => hday, rfl, rfl, rfl, rfl⟩
  rw [midnightOf, midnightOf, Date.monthIndex_firstOf, Date.monthIndex_firstOf]

/-! ## Starts of periods -/

theorem midnight_eq (i : Instant cal) : i.midnight = ofNanos (i.dayNumber * nanosPerDay) := by
  have hi : i.midnight = ofNanos (i.date.toDays * nanosPerDay) :=
    eq_ofNanos_of_midnightOf (cal.reading_midnight (cal.date i))
  rwa [toDays_date] at hi

/-- A full second of the day. -/
theorem truncate_eq (i : Instant cal) {hour minute second : Nat} (hhour : hour < 24)
    (hminute : minute < 60) (hsecond : second < 60) :
    i.truncate hour minute second = ofNanos (i.dayNumber * nanosPerDay +
      ((hour * 3600 + minute * 60 + second : Nat) : Int) * nanosPerSecond) := by
  have hi := i.isValid_reading
  obtain ⟨j, hj⟩ : ∃ j : Instant cal, j.reading = ⟨i.date, hour, minute, second, 0⟩ :=
    cal.exists_reading _ ⟨hi.date, hi.firstYear_le, hi.le_lastYear, hhour, hminute, hsecond,
      show 0 < 2000000000 by decide⟩
  have hclock : cal.atClock? (cal.date i) hour minute second = some j :=
    (cal.atClock?_eq_some _ hour minute second j).2 hj
  rw [truncate, hclock, Option.getD_some, eq_ofNanos_of_reading hj, toDays_date]

/-- The start of the hour. -/
theorem truncate_hour (i : Instant cal) :
    i.truncate (cal.hour i) 0 0 = ofNanos (i.nanos / nanosPerHour * nanosPerHour) := by
  have hi := i.isValid_reading
  have hhour : (cal.hour i : Int) = i.timeOfDay / nanosPerHour := i.hour_eq
  refine (truncate_eq i hi.hour_lt (by decide) (by decide)).trans ?_
  change ofNanos (i.dayNumber * nanosPerDay +
    ((cal.hour i * 3600 + 0 * 60 + 0 : Nat) : Int) * nanosPerSecond) = _
  congr 1
  unfold dayNumber
  unfold timeOfDay at hhour
  rw [nanosPerDay_eq, nanosPerHour_eq] at *
  rw [nanosPerSecond_eq]
  omega

/-- The start of the minute. -/
theorem truncate_minute (i : Instant cal) :
    i.truncate (cal.hour i) (cal.minute i) 0 =
      ofNanos (i.nanos / nanosPerMinute * nanosPerMinute) := by
  have hi := i.isValid_reading
  have hhour : (cal.hour i : Int) = i.timeOfDay / nanosPerHour := i.hour_eq
  have hminute : (cal.minute i : Int) = i.timeOfDay / nanosPerMinute % 60 := i.minute_eq
  refine (truncate_eq i hi.hour_lt hi.minute_lt (by decide)).trans ?_
  change ofNanos (i.dayNumber * nanosPerDay +
    ((cal.hour i * 3600 + cal.minute i * 60 + 0 : Nat) : Int) * nanosPerSecond) = _
  congr 1
  unfold dayNumber
  unfold timeOfDay at hhour hminute
  rw [nanosPerDay_eq, nanosPerMinute_eq] at *
  rw [nanosPerHour_eq] at hhour
  rw [nanosPerSecond_eq]
  omega

/-- The start of the second. -/
theorem truncate_second (i : Instant cal) :
    i.truncate (cal.hour i) (cal.minute i) (cal.second i) =
      ofNanos (i.nanos / nanosPerSecond * nanosPerSecond) := by
  have hi := i.isValid_reading
  have hclock : (cal.hour i * 3600 + cal.minute i * 60 + cal.second i : Int) =
      i.timeOfDay / nanosPerSecond := i.secondOfDay_reading
  refine (truncate_eq i hi.hour_lt hi.minute_lt hi.second_lt).trans ?_
  change ofNanos (i.dayNumber * nanosPerDay +
    ((cal.hour i * 3600 + cal.minute i * 60 + cal.second i : Nat) : Int) * nanosPerSecond) = _
  congr 1
  unfold dayNumber
  unfold timeOfDay at hclock
  rw [nanosPerDay_eq, nanosPerSecond_eq] at *
  omega

/-- The start of a day, an hour and so on is an instant. -/
theorem representable_truncate {unit : Int} (hpos : 0 < unit) (hunit : unit ∣ earliestNanos)
    (i : Instant cal) : Representable (i.nanos / unit * unit) := by
  obtain ⟨q, hq⟩ := hunit
  have hle := Int.ediv_mul_le i.nanos (Int.ne_of_gt hpos)
  have hquotient : q ≤ i.nanos / unit := by
    rw [Int.le_ediv_iff_mul_le hpos, Int.mul_comm, ← hq]
    exact i.earliest_le
  refine ⟨?_, Int.le_trans hle i.le_latest⟩
  rw [hq, Int.mul_comm unit]
  exact Int.mul_le_mul_of_nonneg_right hquotient (Int.le_of_lt hpos)

/-- The midnight of a day that is looked up. -/
theorem getD_dayOf? (i : Instant cal) {d : Date} (h : d.IsGregorian) (hfirst : firstYear ≤ d.year)
    (hlast : d.year ≤ lastYear) :
    ((cal.dayOf? d.year d.month d.day).map cal.midnight).getD i =
      ofNanos (d.toDays * nanosPerDay) := by
  obtain ⟨j, hj⟩ : ∃ j : Instant cal, j.reading = midnightOf d :=
    cal.exists_reading _ (isValid_midnightOf h hfirst hlast)
  have hdate : cal.dateOf (cal.date j) = d := congrArg Reading.date hj
  rw [(cal.dayOf?_eq_some d.year d.month d.day (cal.date j)).2 hdate, Option.map_some,
    Option.getD_some]
  refine eq_ofNanos_of_midnightOf ((cal.reading_midnight (cal.date j)).trans ?_)
  rw [hdate, midnightOf]

/-- The start of a year is the first day of its January. -/
theorem startOfYear_eq (i : Instant cal) :
    i.startOfYear = ofNanos (monthStart (i.date.year * 12) * nanosPerDay) := by
  obtain ⟨hfirst, hlast⟩ := i.year_bounds
  have hjanuary : Date.firstOf (i.date.year * 12) = ⟨i.date.year, 1, 1⟩ := by
    simp [Date.firstOf]
  have hdate := Date.isGregorian_firstOf (i.date.year * 12)
  rw [hjanuary] at hdate
  rw [← Date.toDays_firstOf, hjanuary]
  exact getD_dayOf? i hdate hfirst hlast

/-- The start of a month is its first day. -/
theorem startOfMonth_eq (i : Instant cal) :
    i.startOfMonth = ofNanos (monthStart i.date.monthIndex * nanosPerDay) := by
  obtain ⟨hfirst, hlast⟩ := i.year_bounds
  obtain ⟨hyear, hmonth⟩ := i.isGregorian_date.year_month
  have hdate := Date.isGregorian_firstOf i.date.monthIndex
  have hfirstOf : Date.firstOf i.date.monthIndex = ⟨i.date.year, i.date.month, 1⟩ := by
    rw [Date.firstOf, hyear, hmonth]
  rw [hfirstOf] at hdate
  rw [← Date.toDays_firstOf, hfirstOf]
  exact getD_dayOf? i hdate hfirst hlast

theorem representable_startOfYear (i : Instant cal) :
    Representable (monthStart (i.date.year * 12) * nanosPerDay) := by
  obtain ⟨hfirst, hlast⟩ := i.year_bounds
  exact representable_monthStart_iff.2 ⟨by omega, by omega⟩

/-- **The first day of a month is not after an instant** exactly if the month is not. -/
theorem monthStart_le_iff {index : Int} (h : Representable (monthStart index * nanosPerDay))
    (i : Instant cal) :
    ofNanos (monthStart index * nanosPerDay) ≤ i ↔ index ≤ i.date.monthIndex := by
  have hlow := i.isGregorian_date.monthStart_le
  have hhigh := i.isGregorian_date.toDays_lt
  rw [toDays_date] at hlow hhigh
  have hday : ofNanos (monthStart index * nanosPerDay) ≤ i ↔ monthStart index ≤ i.dayNumber := by
    rw [ofNanos_le_iff h]
    unfold dayNumber
    rw [nanosPerDay_eq, nanosPerSecond_eq]
    split <;> omega
  rw [hday]
  constructor
  · intro hle
    have := le_of_monthStart_lt (Int.lt_of_le_of_lt hle hhigh)
    omega
  · intro hle
    rcases Int.lt_or_eq_of_le hle with hlt | rfl
    · have := monthStart_strictMono hlt
      omega
    · exact hlow

/-- Where an instant stands between the first days of two months, so does its
month. -/
theorem monthIndex_bounds {m n : Int} (hm : Representable (monthStart m * nanosPerDay))
    (hn : Representable (monthStart n * nanosPerDay)) {i : Instant cal}
    (hle : ofNanos (monthStart m * nanosPerDay) ≤ i)
    (hlt : i < ofNanos (monthStart n * nanosPerDay)) :
    m ≤ i.date.monthIndex ∧ i.date.monthIndex < n :=
  ⟨(monthStart_le_iff hm i).1 hle,
    Int.not_le.1 fun h => Std.not_le.2 hlt ((monthStart_le_iff hn i).2 h)⟩

/-! ## The end of the calendar -/

/-- The calendar has the instant so many units after `i`, for an instant outside leap
seconds: its year is one of the calendar, or its nanoseconds are. -/
def HasShift (i : Instant cal) (n : Int) : TimeUnit → Prop
  | .year => firstYear ≤ (i.date.monthIndex + n * 12) / 12 ∧
      (i.date.monthIndex + n * 12) / 12 ≤ lastYear
  | .month => firstYear ≤ (i.date.monthIndex + n) / 12 ∧
      (i.date.monthIndex + n) / 12 ≤ lastYear
  | unit => Representable (i.nanos + n * unit.nanos)

instance (i : Instant cal) (n : Int) : (unit : TimeUnit) → Decidable (i.HasShift n unit)
  | .year | .month => inferInstanceAs (Decidable (_ ∧ _))
  | .week | .day | .hour | .minute | .second | .millisecond =>
    inferInstanceAs (Decidable (Representable _))

theorem hasShift_of_fixed {unit : TimeUnit} (h : unit.IsFixed) (i : Instant cal) (n : Int) :
    i.HasShift n unit ↔ Representable (i.nanos + n * unit.nanos) := by
  obtain ⟨hyear, hmonth⟩ := h
  cases unit with
  | year => exact absurd rfl hyear
  | month => exact absurd rfl hmonth
  | week | day | hour | minute | second | millisecond => exact Iff.rfl

end Instant

end TickLabels
