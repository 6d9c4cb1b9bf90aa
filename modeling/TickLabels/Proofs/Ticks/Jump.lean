import Mathlib
import TickLabels.Proofs.Ticks.Grid
/-!
# The jump to another range

To reach another range, the ticks first jump by about the right number of intervals,
and this number is computed with doubles. It need not be right, but it is whole, so
the jump leads to a point of the grid (`TickRange.jump_point`). From the last point
that is not after the start of the range it goes up by one interval at most, or
stays near a leap second (`TickRange.jump_again`).
-/

namespace TickLabels

variable {cal : Calendar}

/-- The units of fixed length are milliseconds or full seconds. -/
theorem TimeUnit.millis_cases {unit : TimeUnit} (h : unit.IsFixed) :
    1000 ≤ unit.millis ∨ unit = .millisecond := by
  obtain ⟨hyear, hmonth⟩ := h
  cases unit with
  | year => exact absurd rfl hyear
  | month => exact absurd rfl hmonth
  | week | day | hour | minute | second => exact .inl (by decide)
  | millisecond => exact .inr rfl

/-- Units of fixed length are told by the time that passes. -/
theorem DateTicks.delta_of_fixed {t : DateTicks cal} (h : t.unit.IsFixed) (a b : Instant cal) :
    t.delta a b = Float.ofInt (a.millisUntil b) / Float.ofInt t.unit.millis := by
  obtain ⟨hyear, hmonth⟩ := h
  unfold DateTicks.delta
  dsimp only
  cases hunit : t.unit with
  | year => exact absurd hunit hyear
  | month => exact absurd hunit hmonth
  | week | day | hour | minute | second | millisecond => rfl

/-- Years are told by the calendar. -/
theorem DateTicks.delta_of_year {t : DateTicks cal} (h : t.unit = .year) (a b : Instant cal) :
    t.delta a b = Float.ofInt (b.date.year - a.date.year) := by
  unfold DateTicks.delta
  rw [h]

/-- So are months. -/
theorem DateTicks.delta_of_month {t : DateTicks cal} (h : t.unit = .month) (a b : Instant cal) :
    t.delta a b = Float.ofInt (b.date.monthIndex - a.date.monthIndex) := by
  unfold DateTicks.delta
  rw [h]
  dsimp only
  congr 1
  unfold Date.monthIndex
  omega

namespace TickRange

variable {r : TickRange cal}

/-- The units by which ticks that start at a point jump to reach `bound`. -/
noncomputable def jump (r : TickRange cal) (j : Int) (bound : Instant cal) : Float :=
  floor (r.ticks.delta (r.point j) bound / Float.ofInt r.numeric.interval) *
    Float.ofInt r.numeric.interval

/-- **The jump leads to a point**, if it leads to an instant and not too far. -/
theorem jump_point (h : r.Unsaturated) {j : Int} (hj : r.HasPoint j) {bound : Instant cal}
    (hshift : (r.point j).HasShift (toInt64 (roundHalfAway (r.jump j bound))) r.unit)
    (hspan : ((r.point j).millisUntil
      ((r.point j).addRounded (r.jump j bound) r.unit)).natAbs < 2 ^ 53) :
    ∃ k, (r.point j).addRounded (r.jump j bound) r.unit = r.point (j + k) ∧
      r.HasPoint (j + k) := by
  have hpos := interval_pos h
  have hnat : ((r.numeric.interval.toNat : ℕ) : ℤ) = r.numeric.interval := by omega
  have htarget := (hasShift_iff hj).1 hshift
  have hnear : (r.point j).addRounded (r.jump j bound) r.unit =
      .ofNanos (r.place (r.number j + toInt64 (roundHalfAway (r.jump j bound)))) :=
    shift_place hj htarget
  rw [hnear] at hspan
  -- The number of units is exact, so it is a multiple of the interval.
  have hsmall := natAbs_lt_of_span hj htarget hspan
  obtain ⟨k, hk⟩ := dvd_toInt64_floor_mul (isValue_interval h) (by omega) hsmall
  change toInt64 (roundHalfAway (r.jump j bound)) = _ at hk
  rw [hnat, Int.mul_comm] at hk
  have hpoint := hasPoint_of_hasShift hj hk hshift
  exact ⟨k, addRounded_point hj hk hpoint, hpoint⟩

/-! ## From the last point before the bound -/

/-- Where the quotient is less than `m + 1`, there are at most `m` intervals. -/
theorem exists_floor_le (h : r.Unsaturated) {x : Float} {f z : ℚ} {m : ℕ}
    (hx : IsValue x.toModel.unpack .positive f) (hz : IsShort z)
    (hle : f / r.numeric.interval ≤ z) (hlt : z < m + 1)
    (hsmall : m * r.numeric.interval < 2 ^ 53) :
    ∃ k : ℕ, k ≤ m ∧ toInt64 (roundHalfAway (floor (x / Float.ofInt r.numeric.interval) *
      Float.ofInt r.numeric.interval)) = k * r.numeric.interval := by
  have hpos := interval_pos h
  have hvalue := isValue_interval h
  generalize r.numeric.interval = step at *
  obtain ⟨n, rfl⟩ := Int.eq_ofNat_of_zero_le hpos.le
  rw [Int.toNat_natCast] at hvalue
  rw [Int.cast_natCast] at hle
  have hn : (n : ℚ) ≠ 0 := by
    have : n ≠ 0 := by omega
    exact_mod_cast this
  have hbound : z < 2 ^ 64 := by
    have hmul : m ≤ m * n := Nat.le_mul_of_pos_right _ (by omega)
    have hmn : m * n < 2 ^ 53 := by exact_mod_cast hsmall
    exact hlt.trans_le (by exact_mod_cast (show m + 1 ≤ 2 ^ 64 by omega))
  obtain ⟨q, hq, hqz⟩ := exists_isValue_div hx hvalue hn hz hle hbound
  obtain ⟨k, hk, hkq⟩ := exists_isValue_floor hq
  have hkm : k ≤ m := by
    have hlt' : (k : ℚ) < m + 1 := ((hkq rfl).trans hqz).trans_lt hlt
    have : k < m + 1 := by exact_mod_cast hlt'
    omega
  have hproduct : k * n < 2 ^ 53 := by
    have hmul : k * n ≤ m * n := Nat.mul_le_mul_right _ hkm
    have : m * n < 2 ^ 53 := by exact_mod_cast hsmall
    omega
  refine ⟨k, hkm, ?_⟩
  rw [toInt64_mul hk hvalue hproduct]
  rfl

/-- At most one interval is always small enough. -/
theorem one_mul_interval_lt {j : Int} (hj : r.HasPoint j) (hnext : r.HasPoint (j + 1))
    (hspan : ((r.point j).millisUntil (r.point (j + 1))).natAbs < 2 ^ 53) :
    ((1 : ℕ) : ℤ) * r.numeric.interval < 2 ^ 53 := by
  have := natAbs_lt_of_span_point hj hnext hspan
  omega

/-- **Years and months** are counted by the calendar, and less than an interval of
them has passed. -/
theorem calendar_delta (hunit : ¬ r.unit.IsFixed) {j : Int} {bound : Instant cal}
    (hj : r.HasPoint j) (hnext : r.HasPoint (j + 1)) (hle : r.point j ≤ bound)
    (hlt : bound < r.point (j + 1)) :
    ∃ d : ℕ, r.ticks.delta (r.point j) bound = Float.ofInt d ∧ d ≤ r.numeric.interval := by
  have hnumber : r.number (j + 1) = r.number j + 1 * r.numeric.interval := number_add j 1
  have hmonth := bound.month_bounds
  unfold HasPoint at hj hnext
  unfold point at hle hlt
  rcases r.unit_cases with hyear | hmonths | hfixed
  · rw [place_of_year hyear] at hj hnext hle hlt
    obtain ⟨hlow, hhigh⟩ := Instant.monthIndex_bounds hj hnext hle hlt
    have hpoint : (r.point j).date.year = r.number j := by
      rw [point, place_of_year hyear, Instant.date_monthStart hj, Date.firstOf]
      dsimp only
      omega
    unfold Date.monthIndex at hlow hhigh
    refine ⟨(bound.date.year - r.number j).toNat, ?_, by omega⟩
    rw [DateTicks.delta_of_year hyear, hpoint, Int.toNat_of_nonneg (by omega)]
  · rw [place_of_month hmonths] at hj hnext hle hlt
    obtain ⟨hlow, hhigh⟩ := Instant.monthIndex_bounds hj hnext hle hlt
    have hpoint : (r.point j).date.monthIndex = r.min.date.year * 12 + r.number j := by
      rw [point, place_of_month hmonths, Instant.date_monthStart hj, Date.monthIndex_firstOf]
    refine ⟨(bound.date.monthIndex - (r.point j).date.monthIndex).toNat, ?_, by omega⟩
    rw [DateTicks.delta_of_month hmonths, Int.toNat_of_nonneg (by omega)]
  · exact absurd hfixed hunit

/-- Units of fixed length are evenly spaced. -/
theorem place_number_add (hfixed : r.unit.IsFixed) (j k : Int) :
    r.place (r.number (j + k)) =
      r.place (r.number j) + k * r.numeric.interval * r.unit.nanos := by
  rw [place_of_fixed hfixed, place_of_fixed hfixed, number_add, Int.add_mul, Int.add_assoc]

/-- The nanoseconds from a point to an instant that is not before it count a leap second at
most. -/
theorem nanosUntil_bounds {j : Int} {bound : Instant cal} (hj : r.HasPoint j)
    (hle : r.point j ≤ bound) :
    0 ≤ (r.point j).nanosUntil bound ∧
      (r.point j).nanosUntil bound ≤ bound.nanos - r.place (r.number j) +
        if bound.leap then nanosPerSecond else 0 := by
  have hle' := (Instant.ofNanos_le_iff hj bound).1 hle
  have hnone : (r.point j).leap = false := Instant.leap_ofNanos _
  rw [Instant.nanosUntil_eq, hnone, if_neg (by simp : ¬(false = true ∧ _)), Int.sub_zero,
    Instant.timeOfDay, Instant.timeOfDay, point, Instant.nanos_ofNanos hj.1 hj.2,
    nanosPerDay_eq]
  rw [nanosPerSecond_eq] at *
  generalize r.place (r.number j) = place at *
  cases hleap : bound.leap with
  | false =>
    simp only [hleap, Bool.false_eq_true, if_false, false_and] at hle' ⊢
    omega
  | true =>
    simp only [hleap, if_true, true_and] at hle' ⊢
    split <;> omega

/-- **The milliseconds to a bound** before the next point fall short of an interval,
but for a leap second in which the bound may lie. -/
theorem millisUntil_bounds (hfixed : r.unit.IsFixed) {j : Int} {bound : Instant cal}
    (hj : r.HasPoint j) (hnext : r.HasPoint (j + 1)) (hle : r.point j ≤ bound)
    (hlt : bound < r.point (j + 1)) :
    0 ≤ (r.point j).millisUntil bound ∧
      (r.point j).millisUntil bound ≤ r.numeric.interval * r.unit.millis +
        if bound.leap then 999 else 0 := by
  obtain ⟨hnonneg, hbound⟩ := nanosUntil_bounds hj hle
  have hlt' := (not_congr (Instant.ofNanos_le_iff hnext bound)).1 (Std.not_le.2 hlt)
  rw [place_number_add hfixed, Int.one_mul, TimeUnit.nanos, ← Int.mul_assoc] at hlt'
  rw [Instant.millisUntil_eq, Int.tdiv_eq_ediv_of_nonneg hnonneg]
  rw [nanosPerMilli_eq, nanosPerSecond_eq] at *
  generalize r.numeric.interval * r.unit.millis = span at *
  generalize r.place (r.number j) = place at *
  cases hleap : bound.leap with
  | false =>
    simp only [hleap, Bool.false_eq_true, if_false] at hbound hlt' ⊢
    omega
  | true =>
    simp only [hleap, if_true] at hbound hlt' ⊢
    omega

/-- No interval is so close to `2 ^ 53` milliseconds that a leap second matters. -/
theorem room_for_leap (unit : TimeUnit) :
    ∀ step ∈ stepsTried unit.spacings, step * unit.millis < 2 ^ 53 →
      step * unit.millis + 999 < 2 ^ 53 ∧ (1000 ≤ unit.millis → 1024 * step + 1023 < 2 ^ 53) := by
  cases unit <;> decide +kernel

/-- The calendar goes on to the end of the second behind a leap second, if there is a point in
it or later. The milliseconds to the bound do not lead further. -/
theorem hasPoint_after_leap (h : r.Unsaturated) (hunit : r.unit = .millisecond) {j : Int}
    {bound : Instant cal} (hleap : bound.leap = true) (hj : r.HasPoint j)
    (hnext : r.HasPoint (j + 1)) (hle : r.point j ≤ bound) (hlt : bound < r.point (j + 1)) {k : ℕ}
    (hk : k * r.numeric.interval ≤ (r.point j).millisUntil bound) : r.HasPoint (j + k) := by
  have hfixed : r.unit.IsFixed := by
    rw [hunit]
    exact ⟨by simp, by simp⟩
  have hle' := (Instant.ofNanos_le_iff hj bound).1 hle
  have hlt' := (not_congr (Instant.ofNanos_le_iff hnext bound)).1 (Std.not_le.2 hlt)
  have hplace := fun m : Int => place_number_add hfixed j m
  simp only [show r.unit.nanos = 1000000 by rw [hunit]; rfl] at hplace
  have hnonneg : 0 ≤ (k : Int) * r.numeric.interval :=
    Int.mul_nonneg (by omega) (Int.le_of_lt (interval_pos h))
  obtain ⟨hpassed, hbound⟩ := nanosUntil_bounds hj hle
  rw [Instant.millisUntil_eq, Int.tdiv_eq_ediv_of_nonneg hpassed, nanosPerMilli_eq] at hk
  rw [if_pos hleap] at hbound
  rw [if_pos hleap, hplace] at hlt'
  rw [if_pos hleap] at hle'
  unfold HasPoint Representable at *
  rw [hplace] at hnext ⊢
  rw [earliestNanos_eq, latestNanos_eq] at *
  rw [nanosPerSecond_eq] at *
  generalize r.place (r.number j) = place at *
  omega

/-- **Two roundings** lead from the milliseconds to the intervals, and each keeps a
bound with few digits. -/
theorem jump_le (h : r.Unsaturated) (hfixed : r.unit.IsFixed) {j : Int} {bound : Instant cal}
    {d : ℕ} (hd : (r.point j).millisUntil bound = d) (hdlt : d < 2 ^ 53) {y z : ℚ} {m : ℕ}
    (hy : IsShort y) (hdy : d ≤ y * r.unit.millis) (hz : IsShort z)
    (hyz : y / r.numeric.interval ≤ z) (hlt : z < m + 1)
    (hsmall : m * r.numeric.interval < 2 ^ 53) :
    ∃ k : ℕ, k ≤ m ∧ toInt64 (roundHalfAway (r.jump j bound)) = k * r.numeric.interval := by
  have hpos := interval_pos h
  have hle := interval_le h
  have hunit := r.unit.millis_pos
  have hmillis := isValue_ofNat (show r.unit.millis.toNat < 2 ^ 53 by cases r.unit <;> decide)
  obtain ⟨n, hn⟩ := Int.eq_ofNat_of_zero_le hunit.le
  rw [hn, Int.toNat_natCast] at hmillis
  have hn' : (0 : ℚ) < n := by
    have : 0 < n := by omega
    exact_mod_cast this
  have hstep : (0 : ℚ) < r.numeric.interval := by exact_mod_cast hpos
  have hbound : y < 2 ^ 64 := by
    have hlt' : y < (m + 1) * r.numeric.interval :=
      (div_lt_iff₀ hstep).1 (hyz.trans_lt hlt)
    have hsum : ((m + 1) * r.numeric.interval : ℚ) < 2 ^ 64 := by
      exact_mod_cast (show (m + 1) * r.numeric.interval < 2 ^ 64 by rw [Int.add_mul]; omega)
    exact hlt'.trans hsum
  have hquotient : (d : ℚ) / n ≤ y := by
    rw [div_le_iff₀ hn']
    rw [hn] at hdy
    exact_mod_cast hdy
  obtain ⟨f, hf, hfy⟩ := exists_isValue_div (isValue_ofNat hdlt) hmillis hn'.ne' hy hquotient hbound
  have hdelta : r.ticks.delta (r.point j) bound = Float.ofNat d / Float.ofNat n := by
    rw [DateTicks.delta_of_fixed hfixed, hd, show r.ticks.unit.millis = n from hn]
    rfl
  have hfz : f / r.numeric.interval ≤ z :=
    (div_le_div_of_nonneg_right hfy hstep.le).trans hyz
  unfold jump
  rw [hdelta]
  exact exists_floor_le h hf hz hfz hlt hsmall

theorem hasPoint_of_le_one (h : r.Unsaturated) {j : Int} (hj : r.HasPoint j)
    (hnext : r.HasPoint (j + 1)) {k : ℕ} (hk : k ≤ 1) : r.HasPoint (j + k) :=
  hj.between h hnext (by omega) (by omega)

/-- Years and months jump by one interval at most. -/
theorem jump_of_calendar (h : r.Unsaturated) (hunit : ¬ r.unit.IsFixed) {j : Int}
    {bound : Instant cal} (hj : r.HasPoint j) (hnext : r.HasPoint (j + 1))
    (hle : r.point j ≤ bound) (hlt : bound < r.point (j + 1))
    (hspan : ((r.point j).millisUntil (r.point (j + 1))).natAbs < 2 ^ 53) :
    ∃ k : ℕ, k ≤ 1 ∧ toInt64 (roundHalfAway (r.jump j bound)) = k * r.numeric.interval := by
  have hone := one_mul_interval_lt hj hnext hspan
  have hstep : (0 : ℚ) < r.numeric.interval := by exact_mod_cast interval_pos h
  have hshort : IsShort 1 := by exact_mod_cast isShort_natCast (show 1 < 2 ^ 53 by norm_num)
  obtain ⟨d, hdelta, hd⟩ := calendar_delta hunit hj hnext hle hlt
  have hquotient : (d : ℚ) / r.numeric.interval ≤ 1 := by
    rw [div_le_one hstep]
    exact_mod_cast hd
  unfold jump
  rw [hdelta]
  exact exists_floor_le h (isValue_ofNat (show d < 2 ^ 53 by omega)) hshort hquotient
    (by norm_num) hone

/-- What falls short of the next number by a part in 1024 has few digits. -/
theorem isShort_add_fraction {n : ℕ} (h : 1024 * n + 1023 < 2 ^ 53) :
    IsShort ((1024 * n + 1023) / 1024) := by
  refine ⟨1024 * n + 1023, -10, by omega, by norm_num, ?_⟩
  push_cast
  norm_num
  ring

section Fixed

variable (h : r.Unsaturated) (hfixed : r.unit.IsFixed) {j : Int} {bound : Instant cal} {d : ℕ}
  (hd : (r.point j).millisUntil bound = d) (hdlt : d < 2 ^ 53)

include h hfixed hd hdlt

/-- **One interval at most is jumped**, if the bound is less than two away. -/
theorem jump_le_one {y : ℚ} (hy : IsShort y) (hdy : d ≤ y * r.unit.millis)
    (hyn : y ≤ 2047 / 1024 * r.numeric.interval) (hstep : r.numeric.interval < 2 ^ 53) :
    ∃ k : ℕ, k ≤ 1 ∧ toInt64 (roundHalfAway (r.jump j bound)) = k * r.numeric.interval := by
  have hpos : (0 : ℚ) < r.numeric.interval := by exact_mod_cast interval_pos h
  have hless : IsShort (2047 / 1024) := ⟨2047, -10, by norm_num, by norm_num, by norm_num⟩
  exact jump_le h hfixed hd hdlt hy hdy hless ((div_le_iff₀ hpos).2 hyn) (by norm_num) (by omega)

/-- **In milliseconds no more is jumped** than there are to the bound. The quotient falls short
of the next integer by the inverse of the interval at least. -/
theorem jump_le_quotient (hmilli : r.unit.millis = 1) (hclose : r.numeric.interval < 1000)
    (hfew : d < 2 ^ 40) :
    ∃ k : ℕ, k * r.numeric.interval ≤ d ∧
      toInt64 (roundHalfAway (r.jump j bound)) = k * r.numeric.interval := by
  have hpos := interval_pos h
  obtain ⟨n, hn⟩ := Int.eq_ofNat_of_zero_le hpos.le
  rw [hn] at hpos hclose
  have hn' : (0 : ℚ) < n := by exact_mod_cast hpos
  have hmul := Nat.div_mul_le_self d n
  have hdiv := Nat.lt_div_mul_add (a := d) (show 0 < n by omega)
  generalize d / n = q at hmul hdiv
  have hq : q ≤ d := (Nat.le_mul_of_pos_right q (by omega)).trans hmul
  have hquotient : (d : ℚ) / n ≤ (1024 * q + 1023) / 1024 := by
    have hscaled : d * 1024 ≤ (1024 * q + 1023) * n := by
      rw [Nat.add_mul, Nat.mul_assoc]
      omega
    rw [div_le_iff₀ hn', div_mul_eq_mul_div, le_div_iff₀ (by norm_num)]
    exact_mod_cast hscaled
  obtain ⟨k, hk, hjump⟩ := jump_le h hfixed hd hdlt (isShort_natCast hdlt)
    (by rw [hmilli, Int.cast_one, mul_one]) (isShort_add_fraction (n := q) (by omega))
    (by rw [hn, Int.cast_natCast]; exact hquotient) (show _ < (q : ℚ) + 1 by linarith)
    (by rw [hn]; exact_mod_cast hmul.trans_lt hdlt)
  rw [hn] at hjump ⊢
  exact ⟨k, by exact_mod_cast (Nat.mul_le_mul_right n hk).trans hmul, hjump⟩

end Fixed

/-- Units of fixed length do as well, unless the bound lies in a leap second and the
points are close together. Then they do not jump beyond the milliseconds to the bound. -/
theorem jump_of_fixed (h : r.Unsaturated) (hfixed : r.unit.IsFixed) {j : Int} {bound : Instant cal}
    (hj : r.HasPoint j) (hnext : r.HasPoint (j + 1)) (hle : r.point j ≤ bound)
    (hlt : bound < r.point (j + 1))
    (hspan : ((r.point j).millisUntil (r.point (j + 1))).natAbs < 2 ^ 53) :
    ∃ k : ℕ, toInt64 (roundHalfAway (r.jump j bound)) = k * r.numeric.interval ∧
      (k ≤ 1 ∨ bound.leap = true ∧ r.unit = .millisecond ∧
        k * r.numeric.interval ≤ (r.point j).millisUntil bound) := by
  have hpos := interval_pos h
  have hmillis := r.unit.millis_pos
  obtain ⟨hnonneg, hbound⟩ := millisUntil_bounds hfixed hj hnext hle hlt
  have hspan' : r.numeric.interval * r.unit.millis < 2 ^ 53 := by
    rw [millisUntil_point hfixed hj hnext, Int.one_mul] at hspan
    omega
  have hstep := natAbs_lt_of_span_point hj hnext hspan
  obtain ⟨hroom, hroom'⟩ := room_for_leap r.unit _ (numeric_spec h).1 hspan'
  obtain ⟨d, hd⟩ := Int.eq_ofNat_of_zero_le hnonneg
  rw [hd] at hbound ⊢
  have hdlt : d < 2 ^ 53 := by split at hbound <;> omega
  have hone {y : ℚ} (hy : IsShort y) (hdy : d ≤ y * r.unit.millis)
      (hyn : y ≤ 2047 / 1024 * r.numeric.interval) := jump_le_one h hfixed hd hdlt hy hdy hyn
    (by omega)
  obtain ⟨n, hn⟩ := Int.eq_ofNat_of_zero_le hpos.le
  rw [hn] at hbound hroom hroom' hspan' hstep hpos hone ⊢
  have hn' : (1 : ℚ) ≤ n := by exact_mod_cast (show 1 ≤ n by omega)
  cases hleap : bound.leap with
  | false =>
    rw [hleap, if_neg (by simp), Int.add_zero] at hbound
    obtain ⟨k, hk, hjump⟩ := hone (isShort_natCast (show n < 2 ^ 53 by omega))
      (by exact_mod_cast hbound) (by rw [Int.cast_natCast]; linarith)
    exact ⟨k, hjump, .inl hk⟩
  | true =>
    rw [hleap, if_pos rfl] at hbound
    have hbound' : (d : ℚ) ≤ n * r.unit.millis + 999 := by exact_mod_cast hbound
    rcases r.unit.millis_cases hfixed with hlong | hunit
    · -- A leap second is less than a unit.
      have hlong' : (1000 : ℚ) ≤ r.unit.millis := by exact_mod_cast hlong
      have hlimit := hroom' hlong
      obtain ⟨k, hk, hjump⟩ := hone (isShort_add_fraction (n := n) (by omega)) (by linarith)
        (by rw [Int.cast_natCast]; linarith)
      exact ⟨k, hjump, .inl hk⟩
    · have hmilli : r.unit.millis = 1 := by
        rw [hunit]
        rfl
      rw [hmilli] at hbound hbound' hroom
      rcases Nat.lt_or_ge n 1000 with hclose | hwide
      · obtain ⟨k, hk, hjump⟩ := jump_le_quotient h hfixed hd hdlt hmilli (by omega)
          (by omega)
        rw [hn] at hk hjump
        exact ⟨k, hjump, .inr ⟨rfl, hunit, hk⟩⟩
      · have hwide' : (1000 : ℚ) ≤ n := by exact_mod_cast hwide
        have hshort : IsShort (n + 999) := by
          exact_mod_cast isShort_natCast (show n + 999 < 2 ^ 53 by omega)
        obtain ⟨k, hk, hjump⟩ := hone hshort
          (by rw [hmilli]; push_cast at hbound' ⊢; linarith)
          (by rw [Int.cast_natCast]; linarith)
        exact ⟨k, hjump, .inl hk⟩

/-- **From the last point that is not after the bound**, the jump leads to a point that
is not before it. -/
theorem jump_again (h : r.Unsaturated) {j : Int} {bound : Instant cal} (hj : r.HasPoint j)
    (hnext : r.HasPoint (j + 1)) (hle : r.point j ≤ bound) (hlt : bound < r.point (j + 1))
    (hspan : ((r.point j).millisUntil (r.point (j + 1))).natAbs < 2 ^ 53) :
    ∃ k : ℕ, (r.point j).addRounded (r.jump j bound) r.unit = r.point (j + k) ∧
      r.HasPoint (j + k) := by
  obtain ⟨k, hjump, hpoint⟩ : ∃ k : ℕ, toInt64 (roundHalfAway (r.jump j bound)) =
      k * r.numeric.interval ∧ r.HasPoint (j + k) := by
    by_cases hfixed : r.unit.IsFixed
    · obtain ⟨k, hjump, hk | ⟨hleap, hunit, hk⟩⟩ := jump_of_fixed h hfixed hj hnext hle hlt hspan
      · exact ⟨k, hjump, hasPoint_of_le_one h hj hnext hk⟩
      · exact ⟨k, hjump, hasPoint_after_leap h hunit hleap hj hnext hle hlt hk⟩
    · obtain ⟨k, hk, hjump⟩ := jump_of_calendar h hfixed hj hnext hle hlt hspan
      exact ⟨k, hjump, hasPoint_of_le_one h hj hnext hk⟩
  exact ⟨k, addRounded_point hj hjump hpoint, hpoint⟩

end TickRange

end TickLabels
