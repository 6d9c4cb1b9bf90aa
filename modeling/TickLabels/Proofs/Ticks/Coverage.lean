import TickLabels.Proofs.Ticks.Spacing
/-!
# Covering a range

Ticks cover a range if none of it lies outside them. For units of fixed length
this can fail, and `DateTicks.covers_iff` says exactly when. A range is measured in
whole milliseconds, so a rest behind the last of them is missed when a tick stands
on it. And leap seconds have no place among the units: where the range starts in
one, the first tick can come after it, and where it ends in one that is not
measured, the last tick can come before it.
-/

namespace TickLabels

variable {cal : Calendar}

/-- No part of the range lies outside the ticks. -/
def DateTicks.Covers (t : DateTicks cal) (min max : Instant cal) : Prop :=
  (∃ i ∈ t.ticks.head?, i ≤ min) ∧ ∃ i ∈ t.ticks.getLast?, max ≤ i

namespace NumericTicks

/-! ## Whole units of a measured length -/

/-- Numbers are rounded up to whole units, and these to multiples of the step. -/
theorem le_ceil_mul {first unit step : Int} (hstep : 0 < step) (hunit : 0 < unit)
    (hfirst : first < maxInt64) (measured : Int) :
    measured ≤ ceilDiv (upper first (ceilDiv measured unit)) step * step * unit := by
  have hmeasured := (ceilDiv_mul_bounds hunit measured).1
  have hupper : ceilDiv measured unit ≤ upper first (ceilDiv measured unit) := by
    unfold upper clampInt64
    unfold maxInt64 at hfirst
    split <;> omega
  have hceil := (ceilDiv_mul_bounds hstep (upper first (ceilDiv measured unit))).1
  exact Int.le_trans hmeasured (Int.mul_le_mul_of_nonneg_right (Int.le_trans hupper hceil)
    (Int.le_of_lt hunit))

/-- **Nothing is rounded** exactly if the length ends on a tick behind the unit in
which it starts. -/
theorem ceil_mul_eq_iff {first unit step : Int} (hstep : 0 < step) (hunit : 0 < unit)
    (hfirst : -maxInt64 < first ∧ first < maxInt64) (measured : Int) :
    ceilDiv (upper first (ceilDiv measured unit)) step * step * unit = measured ↔
      step * unit ∣ measured ∧ first * unit < measured := by
  generalize hlast : ceilDiv measured unit = last
  have hmeasured : measured ≤ last * unit := hlast ▸ (ceilDiv_mul_bounds hunit measured).1
  have hupper : last ≤ upper first last ∧ (first < last → upper first last = last) ∧
      first ≤ upper first last ∧ (upper first last = last → first < last) := by
    unfold upper clampInt64
    unfold maxInt64 at hfirst
    split <;> omega
  have hceil := (ceilDiv_mul_bounds hstep (upper first last)).1
  constructor
  · -- Of the three roundings none goes down, so none of them goes up.
    intro heq
    have hle : ceilDiv (upper first last) step * step ≤ last := by
      refine Int.le_of_mul_le_mul_right ?_ hunit
      rw [heq]
      exact hmeasured
    have hlt : first < last := hupper.2.2.2 (by omega)
    have hend : ceilDiv (upper first last) step * step = last := by omega
    refine ⟨⟨ceilDiv (upper first last) step, ?_⟩, ?_⟩
    · rw [← heq, Int.mul_comm (ceilDiv _ _), Int.mul_assoc, Int.mul_assoc, Int.mul_comm unit]
    · rw [← heq, hend]
      exact Int.mul_lt_mul_of_pos_right hlt hunit
  · rintro ⟨⟨q, hq⟩, hlt⟩
    have hexact : measured = step * q * unit := by
      rw [hq, Int.mul_assoc, Int.mul_assoc, Int.mul_comm unit]
    have hdiv : last = step * q := by
      rw [← hlast, hexact, ceilDiv, ← Int.neg_mul, Int.mul_ediv_cancel _ (Int.ne_of_gt hunit),
        Int.neg_neg]
    have hbefore : first < last := by
      refine Int.lt_of_mul_lt_mul_right ?_ (Int.le_of_lt hunit)
      rw [hdiv, ← hexact]
      exact hlt
    rw [hupper.2.1 hbefore, hdiv, hexact, ceilDiv, ← Int.mul_neg,
      Int.mul_ediv_cancel_left _ (Int.ne_of_gt hstep), Int.neg_neg, Int.mul_comm q]

end NumericTicks

namespace TickRange

/-! ## Where a range is missed -/

/-- The range starts in a leap second, and the ticks start behind it: of a leap
second, the milliseconds are counted on into the next second. -/
def StartsLate (r : TickRange cal) : Prop :=
  r.min.leap = true ∧ r.unit = .millisecond ∧ 1000 ≤ r.numeric.first

/-- The whole milliseconds up to the end of the range. -/
def measured (r : TickRange cal) : Int :=
  r.epoch.millisUntil r.max

/-- The milliseconds between two ticks. -/
def spacing (r : TickRange cal) : Int :=
  r.numeric.interval * r.unit.millis

/-- The range ends less than a millisecond behind a tick. The milliseconds that
are measured end at this tick, and it is the last unless the range starts there
too. -/
def MissesRest (r : TickRange cal) : Prop :=
  r.max.leap = false ∧ r.max.nanos % nanosPerMilli ≠ 0 ∧ r.spacing ∣ r.measured ∧
    r.first * r.unit.millis < r.measured

/-- The range ends in a leap second that is not measured, because it is early in
its day, and a tick stands in what is left of the second before it. -/
def MissesLeap (r : TickRange cal) : Prop :=
  r.max.leap = true ∧
    r.max.timeOfDay / nanosPerSecond < r.epoch.timeOfDay / nanosPerSecond ∧
    ∃ q : Int, r.measured ≤ q * r.spacing ∧
      r.place (q * r.numeric.interval) / nanosPerSecond = r.max.nanos / nanosPerSecond

variable {r : TickRange cal}

/-! ## The first tick -/

/-- The unit in which the range starts does not start after it. -/
theorem place_first_le (hfixed : r.unit.IsFixed) (hunit : r.unit ≠ .millisecond) :
    r.place r.first ≤ r.min.nanos / nanosPerSecond * nanosPerSecond := by
  obtain ⟨hyear, hmonth⟩ := hfixed
  rw [place_of_fixed ⟨hyear, hmonth⟩]
  cases hcase : r.unit with
  | year => exact absurd hcase hyear
  | month => exact absurd hcase hmonth
  | millisecond => exact absurd hcase hunit
  | week | day | hour | minute | second =>
    simp only [origin, first, hcase, TimeUnit.nanos, TimeUnit.millis, nanosPerMilli,
      Instant.dayNumber, Instant.hour_eq, Instant.minute_eq, Instant.second_eq, Instant.timeOfDay,
      nanosPerDay_eq, nanosPerHour_eq, nanosPerMinute_eq, nanosPerSecond_eq]
    omega

/-- A millisecond in which the range starts. -/
theorem place_first_millisecond (hunit : r.unit = .millisecond) (n : Int) :
    r.place n = r.min.nanos / nanosPerSecond * nanosPerSecond + n * nanosPerMilli := by
  rw [place_of_fixed (by rw [hunit]; exact ⟨by simp, by simp⟩)]
  simp only [origin, hunit]
  rfl

/-- **The first tick is in time**, unless the range starts in a leap second and the
ticks behind it. -/
theorem first_tick_le_iff (hfixed : r.unit.IsFixed) (h : r.Unsaturated) :
    .ofNanos (r.place r.numeric.first) ≤ r.min ↔ ¬ r.StartsLate := by
  have hle := first_numeric_le h
  rw [Instant.ofNanos_le_iff (h _ r.numeric.first_mem_toList)]
  by_cases hunit : r.unit = .millisecond
  · rw [place_first_millisecond hunit]
    have hfirst : r.first = r.min.millisecond := by rw [first, hunit]
    unfold StartsLate
    rw [hfirst, Instant.millisecond, Instant.nanosecond_eq] at hle
    rw [nanosPerMilli_eq, nanosPerSecond_eq] at *
    cases hleap : r.min.leap with
    | false =>
      simp only [hleap, Bool.false_eq_true, if_false, false_and, not_false_iff, iff_true]
        at hle ⊢
      omega
    | true =>
      simp only [hleap, if_true, true_and, hunit] at hle ⊢
      omega
  · have hplace : r.place r.numeric.first ≤ r.place r.first := place_mono hle
    have hbefore := place_first_le hfixed hunit
    have hnone : ¬ r.StartsLate := fun hlate => hunit hlate.2.1
    refine iff_of_true ?_ hnone
    rw [nanosPerSecond_eq] at *
    split <;> omega

/-! ## The measured milliseconds -/

/-- The units are counted from the start of a second. -/
theorem origin_emod (r : TickRange cal) : r.origin % nanosPerSecond = 0 := by
  unfold origin Instant.dayNumber
  rw [nanosPerDay_eq, nanosPerHour_eq, nanosPerMinute_eq, nanosPerSecond_eq]
  split <;> omega

/-- Which is not behind the second in which the range ends. -/
theorem origin_le (hle : r.min ≤ r.max) :
    r.origin / nanosPerSecond ≤ r.max.nanos / nanosPerSecond := by
  have hseconds := Instant.seconds_le_of_le hle
  have horigin := r.origin_bounds.2
  rw [nanosPerSecond_eq] at *
  omega

theorem nanos_epoch (hfixed : r.unit.IsFixed) (h : r.Unsaturated) : r.epoch.nanos = r.origin := by
  obtain ⟨hlow, hhigh⟩ := representable_origin_of_unsaturated h
  rw [epoch_of_fixed hfixed]
  exact Instant.nanos_ofNanos hlow hhigh

/-- **What is measured** is rounded down to whole milliseconds. A leap second at the
end of the range counts if it is not earlier in its day than the epoch. -/
theorem measured_eq (hfixed : r.unit.IsFixed) (h : r.Unsaturated) (hle : r.min ≤ r.max) :
    r.measured = (r.max.nanos - r.origin +
      if r.max.leap ∧ r.epoch.timeOfDay / nanosPerSecond ≤ r.max.timeOfDay / nanosPerSecond
        then nanosPerSecond else 0) / nanosPerMilli := by
  have hnonneg : 0 ≤ r.max.nanos - r.origin := by
    have hmod := r.origin_emod
    have hseconds := origin_le hle
    rw [nanosPerSecond_eq] at *
    omega
  have hleap : r.epoch.leap = false := by
    rw [epoch_of_fixed hfixed]
    exact Instant.leap_ofNanos _
  rw [measured, Instant.millisUntil_eq, Instant.nanosUntil_eq, hleap, nanos_epoch hfixed h,
    if_neg (by simp : ¬(false = true ∧ _)), Int.sub_zero]
  refine Int.tdiv_eq_ediv_of_nonneg ?_
  rw [nanosPerSecond_eq]
  split <;> omega

theorem last_of_fixed (hfixed : r.unit.IsFixed) :
    r.last = ceilDiv r.measured r.unit.millis := by
  obtain ⟨hyear, hmonth⟩ := hfixed
  unfold last
  split
  · next hunit => exact absurd hunit hyear
  · next hunit => exact absurd hunit hmonth
  · rfl

/-- A leap second that is not measured is on a later day. -/
theorem second_before_leap (hfixed : r.unit.IsFixed) (h : r.Unsaturated) (hle : r.min ≤ r.max)
    (hearly : r.max.timeOfDay / nanosPerSecond < r.epoch.timeOfDay / nanosPerSecond) :
    r.min.nanos / nanosPerSecond + 1 ≤ r.max.nanos / nanosPerSecond := by
  have hseconds := Instant.seconds_le_of_le hle
  have horigin := origin_le hle
  -- Only weeks are counted from another day than that on which the range starts.
  have hday : r.origin % nanosPerDay = 0 ∨
      r.origin / nanosPerDay = r.min.nanos / nanosPerDay := by
    unfold origin Instant.dayNumber
    rw [nanosPerDay_eq, nanosPerHour_eq, nanosPerMinute_eq, nanosPerSecond_eq]
    split <;> omega
  unfold Instant.timeOfDay at hearly
  rw [nanos_epoch hfixed h] at hearly
  rw [nanosPerDay_eq, nanosPerSecond_eq] at *
  omega

/-- A spacing of milliseconds fills seconds, or is longer than one. -/
theorem dvd_second_or {step : Int} (h : step ∈ stepsTried TimeUnit.millisecond.spacings) :
    step ∣ 1000 ∨ 2000 ≤ step := by
  revert step
  decide +kernel

/-- The range does not end in the unit in which it starts, if it ends in a leap second that is
missed. From a leap second to the next one, the ticks start late or have no place in between. -/
theorem first_lt_measured (hfixed : r.unit.IsFixed) (h : r.Unsaturated) (hle : r.min ≤ r.max)
    (hstarts : ¬ r.StartsLate) (hmisses : r.MissesLeap) :
    r.first * r.unit.millis < r.measured := by
  obtain ⟨hleap, hearly, q, hq, hsecond⟩ := hmisses
  have hbefore := second_before_leap hfixed h hle hearly
  have hmeasured := measured_eq hfixed h hle
  rw [if_neg (by omega), Int.add_zero] at hmeasured
  by_cases hunit : r.unit = .millisecond
  · have hnumber : r.first = r.min.millisecond := by rw [first, hunit]
    have horigin : r.origin = r.min.nanos / nanosPerSecond * nanosPerSecond := by
      simp only [origin, hunit]
    have hmillis : r.unit.millis = 1 := by rw [hunit]; rfl
    obtain ⟨hmem, hfirst, -⟩ := numeric_spec h
    have hlast := last_of_fixed hfixed
    rw [hunit] at hmem
    rw [place_first_millisecond hunit] at hsecond
    rw [spacing, hmillis, Int.mul_one] at hq
    rw [hmillis, ceilDiv, Int.ediv_one, Int.neg_neg] at hlast
    rw [hmillis, Int.mul_one]
    refine Int.not_le.1 fun hback => ?_
    have hcount : r.min.leap = true ∧ 1000 ≤ Min.min r.first r.last ∧ r.measured < 2000 := by
      rw [Instant.millisecond, Instant.nanosecond_eq] at hnumber
      rw [horigin] at hmeasured
      rw [nanosPerMilli_eq, nanosPerSecond_eq] at *
      split at hnumber
      · next hmin => exact ⟨hmin, by omega, by omega⟩
      · omega
    obtain ⟨hmin, hlow, hhigh⟩ := hcount
    have hstep := interval_pos h
    rcases dvd_second_or hmem with ⟨k, hk⟩ | hlong
    · refine hstarts ⟨hmin, hunit, ?_⟩
      have hk' : k ≤ Min.min r.first r.last / r.numeric.interval := by
        rw [Int.le_ediv_iff_mul_le hstep, Int.mul_comm, ← hk]
        exact hlow
      rw [hfirst, hk, Int.mul_comm]
      exact Int.mul_le_mul_of_nonneg_right hk' (Int.le_of_lt hstep)
    · have hone : 0 < q := by
        refine Int.not_le.1 fun hle => ?_
        have := Int.mul_nonpos_of_nonpos_of_nonneg hle (Int.le_of_lt hstep)
        omega
      have htick := Int.mul_le_mul_of_nonneg_right (show 1 ≤ q by omega) (Int.le_of_lt hstep)
      rw [Int.one_mul] at htick
      generalize q * r.numeric.interval = tick at *
      rw [nanosPerMilli_eq, nanosPerSecond_eq] at *
      omega
  · have := place_first_le hfixed hunit
    rw [place_of_fixed hfixed, TimeUnit.nanos, ← Int.mul_assoc] at this
    rw [nanosPerMilli_eq, nanosPerSecond_eq] at *
    omega

/-! ## The last tick -/

/-- The range ends far from the ends of 64 bits. -/
theorem last_le (h : r.Unsaturated) (hle : r.min ≤ r.max) : r.last ≤ 100000000000000000 := by
  have hmin := r.min.year_bounds
  have hmax := r.max.year_bounds
  have hmonth := r.max.month_bounds
  unfold firstYear lastYear at hmin hmax
  rcases r.unit_cases with hunit | hunit | hfixed
  · simp only [last, hunit, DateTicks.beyond]
    split <;> omega
  · simp only [last, hunit, DateTicks.beyond]
    split <;> omega
  · have hmillis := r.unit.millis_pos
    have horigin := (representable_origin_of_unsaturated h).1
    have hlatest := r.max.le_latest
    rw [last_of_fixed hfixed, ceilDiv_le_iff (by omega), measured_eq hfixed h hle]
    refine Int.le_trans ?_ (Int.mul_le_mul_of_nonneg_left hmillis (by decide))
    rw [earliestNanos_eq] at horigin
    rw [latestNanos_eq] at hlatest
    rw [nanosPerSecond_eq, nanosPerMilli_eq]
    split <;> omega

/-- So there is room for another interval behind it. -/
theorem upper_add_interval_le (h : r.Unsaturated) (hle : r.min ≤ r.max) :
    NumericTicks.upper r.first r.last + r.numeric.interval ≤ maxInt64 := by
  have hinterval := interval_le h
  have hlast := last_le h hle
  have hfirst := r.first_bounds
  unfold NumericTicks.upper clampInt64
  unfold maxInt64 at *
  split <;> omega

/-- **The last tick** stands at the measured milliseconds, rounded up. -/
theorem place_last (hfixed : r.unit.IsFixed) (h : r.Unsaturated) (hle : r.min ≤ r.max) :
    r.place r.numeric.last = r.origin +
      ceilDiv (NumericTicks.upper r.first (ceilDiv r.measured r.unit.millis))
        r.numeric.interval * r.numeric.interval * r.unit.millis * nanosPerMilli := by
  have hlast : r.numeric.last =
      ceilDiv (NumericTicks.upper r.first r.last) r.numeric.interval * r.numeric.interval :=
    NumericTicks.last_cover r.first_lt_maxInt64 (upper_add_interval_le h hle)
      (inside_numeric h)
  rw [place_of_fixed hfixed, hlast, last_of_fixed hfixed, TimeUnit.nanos, ← Int.mul_assoc]

/-- Behind a range that does not end in a leap second, the last tick is in time
unless a rest is missed. -/
theorem last_tick_iff_rest (hfixed : r.unit.IsFixed) (h : r.Unsaturated) (hle : r.min ≤ r.max)
    (hleap : r.max.leap = false) : r.max.nanos ≤ r.place r.numeric.last ↔ ¬ r.MissesRest := by
  have hstep := interval_pos h
  have hmillis := r.unit.millis_pos
  have hfirst : -maxInt64 < r.first ∧ r.first < maxInt64 := by
    have := r.first_bounds
    unfold maxInt64
    omega
  have hmeasured := measured_eq hfixed h hle
  rw [if_neg (by simp [hleap]), Int.add_zero] at hmeasured
  have hceil := NumericTicks.le_ceil_mul hstep hmillis hfirst.2 r.measured
  have hexact := NumericTicks.ceil_mul_eq_iff hstep hmillis hfirst r.measured
  have horigin := r.origin_emod
  have hmisses : r.MissesRest ↔ r.max.nanos % nanosPerMilli ≠ 0 ∧
      r.spacing ∣ r.measured ∧ r.first * r.unit.millis < r.measured := by
    simp only [MissesRest, hleap, true_and]
  rw [hmisses, spacing, ← hexact, place_last hfixed h hle]
  rw [nanosPerMilli_eq] at *
  rw [nanosPerSecond_eq] at horigin
  omega

/-- No tick behind the measured milliseconds comes before the last. -/
theorem place_last_le (hfixed : r.unit.IsFixed) (h : r.Unsaturated) (hle : r.min ≤ r.max)
    (hlt : r.first * r.unit.millis < r.measured) {q : Int} (hq : r.measured ≤ q * r.spacing) :
    r.place r.numeric.last ≤ r.place (q * r.numeric.interval) := by
  have hstep := interval_pos h
  have hmillis := r.unit.millis_pos
  have hunits : ceilDiv r.measured r.unit.millis ≤ q * r.numeric.interval := by
    rw [ceilDiv_le_iff hmillis, Int.mul_assoc]
    exact hq
  have hbefore : r.first < ceilDiv r.measured r.unit.millis := (lt_ceilDiv_iff hmillis).2 hlt
  have hupper : NumericTicks.upper r.first (ceilDiv r.measured r.unit.millis) =
      ceilDiv r.measured r.unit.millis := by
    unfold NumericTicks.upper
    rw [if_neg (by omega)]
    omega
  have hlast : ceilDiv (ceilDiv r.measured r.unit.millis) r.numeric.interval *
      r.numeric.interval ≤ q * r.numeric.interval :=
    Int.mul_le_mul_of_nonneg_right ((ceilDiv_le_iff hstep).2 hunits) (Int.le_of_lt hstep)
  rw [place_last hfixed h hle, hupper, place_of_fixed hfixed, TimeUnit.nanos, ← Int.mul_assoc]
  refine Int.add_le_add_left ?_ _
  exact Int.mul_le_mul_of_nonneg_right
    (Int.mul_le_mul_of_nonneg_right hlast (Int.le_of_lt hmillis)) (by decide)

/-- Behind a range that ends in a leap second, the last tick is in time unless the
leap second is missed. -/
theorem last_tick_iff_leap (hfixed : r.unit.IsFixed) (h : r.Unsaturated) (hle : r.min ≤ r.max)
    (hstarts : ¬ r.StartsLate) (hleap : r.max.leap = true) :
    r.max.nanos / nanosPerSecond < r.place r.numeric.last / nanosPerSecond ↔
      ¬ r.MissesLeap := by
  have hstep := interval_pos h
  have hmillis := r.unit.millis_pos
  have hmeasured := measured_eq hfixed h hle
  have hceil := NumericTicks.le_ceil_mul hstep hmillis r.first_lt_maxInt64 r.measured
  have hplace := place_last hfixed h hle
  have horigin := r.origin_emod
  by_cases hearly : r.max.timeOfDay / nanosPerSecond < r.epoch.timeOfDay / nanosPerSecond
  · -- The leap second is not measured, and the last tick is in the second before it
    -- if any tick is.
    rw [if_neg (by omega), Int.add_zero] at hmeasured
    have hseconds : r.max.nanos / nanosPerSecond ≤ r.place r.numeric.last / nanosPerSecond := by
      rw [hplace]
      rw [nanosPerMilli_eq, nanosPerSecond_eq] at *
      omega
    constructor
    · rintro hlt hmisses
      have hfirst := first_lt_measured hfixed h hle hstarts hmisses
      obtain ⟨-, -, q, hq, hsecond⟩ := hmisses
      have hlast := place_last_le hfixed h hle hfirst hq
      have := Int.ediv_le_ediv (by decide : 0 < nanosPerSecond) hlast
      omega
    · intro hmisses
      refine Int.lt_iff_le_and_ne.2 ⟨hseconds, fun heq => hmisses ⟨hleap, hearly, ?_⟩⟩
      refine ⟨ceilDiv (NumericTicks.upper r.first (ceilDiv r.measured r.unit.millis))
        r.numeric.interval, ?_, ?_⟩
      · rw [spacing, ← Int.mul_assoc]
        exact hceil
      · rw [place_of_fixed hfixed, TimeUnit.nanos, ← Int.mul_assoc, ← hplace]
        exact heq.symm
  · -- It is measured, and the last tick is behind all of it.
    have hcounted : ¬ r.MissesLeap := fun hmisses => hearly hmisses.2.1
    rw [if_pos ⟨hleap, by omega⟩] at hmeasured
    refine iff_of_true ?_ hcounted
    rw [hplace]
    rw [nanosPerMilli_eq, nanosPerSecond_eq] at *
    omega

/-- **The last tick is in time**, unless a rest or a leap second is missed. -/
theorem le_last_tick_iff (hfixed : r.unit.IsFixed) (h : r.Unsaturated) (hle : r.min ≤ r.max)
    (hstarts : ¬ r.StartsLate) :
    r.max ≤ .ofNanos (r.place r.numeric.last) ↔ ¬ r.MissesRest ∧ ¬ r.MissesLeap := by
  rw [Instant.le_ofNanos_iff (h _ r.numeric.last_mem_toList)]
  cases hleap : r.max.leap with
  | false =>
    have hnone : ¬ r.MissesLeap := fun hmisses => by simp [MissesLeap, hleap] at hmisses
    rw [if_neg (by simp), last_tick_iff_rest hfixed h hle hleap, and_iff_left hnone]
  | true =>
    have hnone : ¬ r.MissesRest := fun hmisses => by simp [MissesRest, hleap] at hmisses
    rw [if_pos rfl, last_tick_iff_leap hfixed h hle hstarts hleap, and_iff_right hnone]

/-- **The ticks cover the range** exactly if nothing of it is missed. -/
theorem covers_ticks_iff (hfixed : r.unit.IsFixed) (h : r.Unsaturated) (hle : r.min ≤ r.max) :
    r.ticks.Covers r.min r.max ↔ ¬ r.StartsLate ∧ ¬ r.MissesRest ∧ ¬ r.MissesLeap := by
  rw [DateTicks.Covers, head?_ticks h, getLast?_ticks h, ← first_tick_le_iff hfixed h]
  simp only [Option.mem_def, Option.some.injEq, exists_eq_left']
  exact and_congr_right fun hfirst =>
    le_last_tick_iff hfixed h hle ((first_tick_le_iff hfixed h).1 hfirst)

end TickRange

/-- **Ticks of a fixed length of time cover the range between two instants** exactly
if no part of it is missed: neither a leap second at either end, nor a rest of
less than a millisecond behind the last tick. -/
theorem DateTicks.covers_iff {min max : Instant cal} {count : Nat} {unit? : Option TimeUnit}
    {firstDay : Weekday} (hle : min ≤ max)
    (hfixed : (TickRange.between min max count unit? firstDay).unit.IsFixed)
    (h : (TickRange.between min max count unit? firstDay).Unsaturated) :
    (cover min max count unit? firstDay).Covers min max ↔
      ¬ (TickRange.between min max count unit? firstDay).StartsLate ∧
        ¬ (TickRange.between min max count unit? firstDay).MissesRest ∧
        ¬ (TickRange.between min max count unit? firstDay).MissesLeap := by
  have hmin : (TickRange.between min max count unit? firstDay).min = min := if_pos hle
  have hmax : (TickRange.between min max count unit? firstDay).max = max := if_pos hle
  have hcovers := TickRange.covers_ticks_iff hfixed h
  rw [hmin, hmax, ← TickRange.cover_eq_ticks] at hcovers
  exact hcovers hle

/-- Hours, from one morning to the next. -/
theorem DateTicks.covers_hours :
    (TickRange.between (.ofClock ⟨2020, 1, 15⟩ 5 0 0 0)
        (.ofClock ⟨2020, 1, 16⟩ 9 0 0 1000000) 10 (some .hour)
        .sunday).Unsaturated ∧
      (cover (.ofClock ⟨2020, 1, 15⟩ 5 0 0 0)
        (.ofClock ⟨2020, 1, 16⟩ 9 0 0 1000000) 10 (some .hour) .sunday).Covers
        (.ofClock ⟨2020, 1, 15⟩ 5 0 0 0)
        (.ofClock ⟨2020, 1, 16⟩ 9 0 0 1000000) := by
  have hunsaturated : (TickRange.between (.ofClock ⟨2020, 1, 15⟩ 5 0 0 0)
      (.ofClock ⟨2020, 1, 16⟩ 9 0 0 1000000) 10 (some .hour)
      .sunday).Unsaturated := by
    unfold TickRange.Unsaturated
    decide +kernel
  have hfixed : (TickRange.between (.ofClock ⟨2020, 1, 15⟩ 5 0 0 0)
      (.ofClock ⟨2020, 1, 16⟩ 9 0 0 1000000) 10 (some .hour)
      .sunday).unit.IsFixed := ⟨by decide, by decide⟩
  refine ⟨hunsaturated, (covers_iff (by decide +kernel) hfixed hunsaturated).2 ⟨?_, ?_, ?_⟩⟩
  · rintro ⟨hleap, -⟩
    exact absurd hleap (by decide +kernel)
  · rintro ⟨-, hrest, -⟩
    exact absurd hrest (by decide +kernel)
  · rintro ⟨hleap, -⟩
    exact absurd hleap (by decide +kernel)

/-- Half a microsecond behind the second of two days, where the ticks end. -/
theorem DateTicks.not_covers_rest :
    Instant.ofDate ⟨2020, 1, 1⟩ ≤ .ofClock ⟨2020, 1, 2⟩ 0 0 0 500 ∧
      (TickRange.between (.ofDate ⟨2020, 1, 1⟩) (.ofClock ⟨2020, 1, 2⟩ 0 0 0 500) 5 (some .day)
        .sunday).unit.IsFixed ∧
      (TickRange.between (.ofDate ⟨2020, 1, 1⟩) (.ofClock ⟨2020, 1, 2⟩ 0 0 0 500) 5 (some .day)
        .sunday).Unsaturated ∧
      ¬ (cover (.ofDate ⟨2020, 1, 1⟩) (.ofClock ⟨2020, 1, 2⟩ 0 0 0 500) 5 (some .day)
        .sunday).Covers (.ofDate ⟨2020, 1, 1⟩) (.ofClock ⟨2020, 1, 2⟩ 0 0 0 500) := by
  refine ⟨by decide +kernel, ⟨by decide, by decide⟩, ?_, ?_⟩
  · unfold TickRange.Unsaturated
    decide +kernel
  · rintro ⟨-, i, hlast, hmax⟩
    have hticks : (cover (.ofDate ⟨2020, 1, 1⟩) (.ofClock ⟨2020, 1, 2⟩ 0 0 0 500) 5 (some .day)
        .sunday).ticks = [.ofDate ⟨2020, 1, 1⟩, .ofDate ⟨2020, 1, 2⟩] := by
      decide +kernel
    rw [hticks] at hlast
    have hi : i = .ofDate ⟨2020, 1, 2⟩ := (Option.some.inj hlast).symm
    rw [hi] at hmax
    exact absurd hmax (by decide +kernel)

end TickLabels
