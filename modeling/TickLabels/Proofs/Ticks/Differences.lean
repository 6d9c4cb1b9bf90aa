import TickLabels.Proofs.Binary64.Signed
import TickLabels.Proofs.Calendar.Spans
import TickLabels.Proofs.Ticks.Jump
/-!
# Counting units

The units between two instants are counted from the calendar for years and months, and from the
time that passes for all others. So they are counted back exactly after an instant is moved by
whole units, also where the day has changed with the length of a month.

Only a leap second is in the way. The time that passes from a leap second to an instant in
another second is told by the times of day, and where these are not in the order of the two
(`Instant.HidesLeap`) it is a second off. There, and only there, the count is not the number of
units (`DateTicks.delta_addRounded_iff`).
-/

namespace TickLabels

variable {cal : Calendar}

namespace Instant

variable {i j : Instant cal} {n : Int}

/-- The whole seconds since midnight. -/
def secondOfDay (i : Instant cal) : Int :=
  i.timeOfDay / nanosPerSecond

/-- From a leap second to another second, the times of day are not in the order of the
instants. -/
def HidesLeap (i j : Instant cal) : Prop :=
  i.leap = true ∧ j.leap = false ∧ ¬ (i < j ↔ i.secondOfDay < j.secondOfDay)

instance (i j : Instant cal) : Decidable (i.HidesLeap j) :=
  inferInstanceAs (Decidable (_ ∧ _ ∧ _))

/-- The calendar has the instant so many units after `i`, also in a leap second. -/
def Reaches (i : Instant cal) (n : Int) : TimeUnit → Prop
  | .year => i.HasShift n .year
  | .month => i.HasShift n .month
  | unit => Representable (i.target (n * unit.nanos))

instance (i : Instant cal) (n : Int) : (unit : TimeUnit) → Decidable (i.Reaches n unit)
  | .year => inferInstanceAs (Decidable (i.HasShift n .year))
  | .month => inferInstanceAs (Decidable (i.HasShift n .month))
  | .week | .day | .hour | .minute | .second | .millisecond =>
    inferInstanceAs (Decidable (Representable _))

theorem reaches_of_fixed {unit : TimeUnit} (h : unit.IsFixed) (i : Instant cal) (n : Int) :
    i.Reaches n unit ↔ Representable (i.target (n * unit.nanos)) := by
  obtain ⟨hyear, hmonth⟩ := h
  cases unit with
  | year => exact absurd rfl hyear
  | month => exact absurd rfl hmonth
  | week | day | hour | minute | second | millisecond => exact Iff.rfl

/-! ## The time that passes -/

/-- From a leap second, the time of day tells whether it has passed. -/
theorem nanosUntil_of_leap (hi : i.leap = true) (hj : j.leap = false) :
    i.nanosUntil j =
      j.nanos - i.nanos - if i.secondOfDay < j.secondOfDay then 0 else nanosPerSecond := by
  unfold secondOfDay
  rw [nanosUntil_eq, hi, hj, if_neg (by simp)]
  by_cases hlater : i.timeOfDay / nanosPerSecond < j.timeOfDay / nanosPerSecond
  · rw [if_neg (fun h => Int.not_lt.2 h.2 hlater), if_pos hlater, Int.add_zero]
  · rw [if_pos ⟨rfl, Int.not_lt.1 hlater⟩, if_neg hlater, Int.add_zero]

/-- Within a leap second it is counted at both ends. -/
theorem nanosUntil_of_stays (h : i.StaysInLeap n) : i.nanosUntil (i.addNanos n) = n := by
  obtain ⟨hnanos, hleap, hsecond⟩ := within_spec h
  have hsame : (i.addNanos n).secondOfDay = i.secondOfDay := by
    unfold secondOfDay timeOfDay
    rw [nanosPerDay_eq, nanosPerSecond_eq] at *
    omega
  unfold secondOfDay at hsame
  have hhere : i.leap = true := h.1
  rw [nanosUntil_eq, hleap, hhere, hsame, if_pos ⟨rfl, Int.le_refl _⟩, hnanos]
  omega

/-- Out of a leap second a way leads ahead if it leads to a later second. -/
theorem lt_addNanos_iff (hi : i.leap = true) (hstays : ¬ i.StaysInLeap n)
    (h : Representable (i.target n)) :
    i < i.addNanos n ↔ i.nanos / nanosPerSecond < i.target n / nanosPerSecond := by
  have hback : i.addNanos n ≤ i ↔
      i.target n / nanosPerSecond ≤ i.nanos / nanosPerSecond := by
    rw [addNanos, if_neg hstays, ofNanos_le_iff h, if_pos hi]
  exact Std.not_le.symm.trans ((not_congr hback).trans Int.not_le)

/-- **The time that passes** on a way that stays within the calendar: the length of the way, or a
second off where the leap second is hidden. -/
theorem nanosUntil_addNanos (h : Representable (i.target n)) :
    ¬ i.HidesLeap (i.addNanos n) ∧ i.nanosUntil (i.addNanos n) = n ∨
      i.HidesLeap (i.addNanos n) ∧
        (0 < n ∧ i.nanosUntil (i.addNanos n) = n - nanosPerSecond ∨
          n < 0 ∧ i.nanosUntil (i.addNanos n) = n + nanosPerSecond) := by
  by_cases hstays : i.StaysInLeap n
  · obtain ⟨-, hleap, -⟩ := within_spec hstays
    exact .inl ⟨fun h => Bool.false_ne_true (h.2.1.symm.trans hleap), nanosUntil_of_stays hstays⟩
  have hleap : (i.addNanos n).leap = false := by
    rw [leap_addNanos, decide_eq_false hstays]
  have hmoved : (i.addNanos n).nanos = i.target n := by
    rw [nanos_addNanos, Int.min_eq_left h.2, Int.max_eq_right h.1]
  cases hi : i.leap with
  | false =>
    refine .inl ⟨fun h => Bool.false_ne_true (hi.symm.trans h.1), ?_⟩
    have htarget : i.target n = i.nanos + n := by rw [target_eq, if_neg (by simp [hi])]
    rw [nanosUntil_eq, hleap, hi, if_neg (by simp), if_neg (by simp), hmoved, htarget]
    omega
  | true =>
    have htime := nanosUntil_of_leap hi hleap
    have hahead := lt_addNanos_iff hi hstays h
    have hhides : i.HidesLeap (i.addNanos n) ↔
        ¬ (i < i.addNanos n ↔ i.secondOfDay < (i.addNanos n).secondOfDay) :=
      ⟨fun h => h.2.2, fun h => ⟨hi, hleap, h⟩⟩
    rw [hmoved] at htime
    -- The way back has the length of the leap second in it, and the way ahead has not.
    rcases target_cases hstays with ⟨hcounted, -⟩ | ⟨hcounted, hback, htarget⟩ | ⟨-, hon, htarget⟩
    · rw [counted_of_leap hi] at hcounted
      exact absurd hcounted (by rw [nanosPerSecond_eq]; omega)
    · have hbehind : ¬ i < i.addNanos n := by
        rw [hahead]
        rw [nanosPerSecond_eq] at *
        omega
      rw [iff_false_left hbehind, not_not] at hhides
      rw [hhides]
      by_cases hlater : i.secondOfDay < (i.addNanos n).secondOfDay
      · rw [if_pos hlater] at htime
        exact .inr ⟨hlater, .inr ⟨by rw [nanosPerSecond_eq] at hback; omega, by omega⟩⟩
      · rw [if_neg hlater] at htime
        exact .inl ⟨hlater, by omega⟩
    · have hbefore : i < i.addNanos n := by
        rw [hahead]
        rw [nanosPerSecond_eq] at *
        omega
      rw [iff_true_left hbefore] at hhides
      rw [hhides]
      by_cases hlater : i.secondOfDay < (i.addNanos n).secondOfDay
      · rw [if_pos hlater] at htime
        exact .inl ⟨not_not.2 hlater, by omega⟩
      · rw [if_neg hlater] at htime
        exact .inr ⟨hlater, .inl ⟨by rw [nanosPerSecond_eq] at *; omega, by omega⟩⟩

end Instant

namespace DateTicks

open Instant

variable {t : DateTicks cal} {i : Instant cal} {n : Int}

/-! ## Months and years -/

theorem beq_ofInt {n : Int} (h : n.natAbs < 2 ^ 53) :
    (Float.ofInt n == Float.ofInt n) = true := by
  obtain ⟨s, m, hm, -⟩ := exists_isValue_ofInt h
  exact (beq_iff_signedBy hm hm).2 rfl

/-- Years are counted back, whatever becomes of the day. -/
theorem delta_addYears (h : t.unit = .year) (hn : i.HasShift n .year) :
    t.delta i (i.addYears n) = Float.ofInt n := by
  have hmonths := ((followsMonths_addMonths i (n * 12)).isMonthsAfter hn).monthIndex_eq
  rw [delta_of_year h, addYears_eq, year_eq_monthIndex_ediv, year_eq_monthIndex_ediv, hmonths]
  congr 1
  omega

/-- So are months. -/
theorem delta_addMonths (h : t.unit = .month) (hn : i.HasShift n .month) :
    t.delta i (i.addMonths n) = Float.ofInt n := by
  have hmonths := ((followsMonths_addMonths i n).isMonthsAfter hn).monthIndex_eq
  rw [delta_of_month h, hmonths, add_sub_cancel_left]

/-! ## Units of fixed length -/

/-- **The count of a fixed length**, from the milliseconds that pass. -/
theorem delta_beq_iff (h : t.unit.IsFixed) {j : Instant cal}
    (hn : (n * t.unit.millis).natAbs < 2 ^ 53)
    (hd : (i.millisUntil j).natAbs < 2 ^ 53)
    (hfar : i.millisUntil j ≠ n * t.unit.millis →
      2 ≤ (i.millisUntil j - n * t.unit.millis).natAbs) :
    (t.delta i j == Float.ofInt n) = true ↔ i.millisUntil j = n * t.unit.millis := by
  rw [delta_of_fixed h]
  have hlt : t.unit.millis < 2 ^ 53 := by cases t.unit <;> decide
  exact ofInt_div_beq_iff t.unit.millis_pos hlt hd hn hfar

theorem delta_addNanos_iff (h : t.unit.IsFixed) (hn : (n * t.unit.millis).natAbs < 2 ^ 53)
    (hreach : Representable (i.target (n * t.unit.nanos))) :
    (t.delta i (i.addNanos (n * t.unit.nanos)) == Float.ofInt n) = true ↔
      ¬ i.HidesLeap (i.addNanos (n * t.unit.nanos)) := by
  have hlength : n * t.unit.nanos = n * t.unit.millis * 1000000 := by
    rw [TimeUnit.nanos, nanosPerMilli_eq, Int.mul_assoc]
  have hmillis {j : Instant cal} {d : Int} (hd : i.nanosUntil j = d * 1000000) :
      i.millisUntil j = d := by
    rw [millisUntil_eq, hd, nanosPerMilli_eq, Int.mul_tdiv_cancel _ (by decide)]
  rcases nanosUntil_addNanos hreach with ⟨hhides, htime⟩ | ⟨hhides, htime⟩
  · rw [hlength] at htime
    have hexact := hmillis htime
    rw [← hlength] at hexact
    rw [delta_beq_iff h hn (by rw [hexact]; exact hn) fun hne => absurd hexact hne]
    exact iff_of_true hexact hhides
  · -- A second is more than all units of which the count is rounded.
    have hoff : (0 < n * t.unit.millis ∧ i.millisUntil (i.addNanos (n * t.unit.nanos)) =
          n * t.unit.millis - 1000) ∨
        (n * t.unit.millis < 0 ∧ i.millisUntil (i.addNanos (n * t.unit.nanos)) =
          n * t.unit.millis + 1000) := by
      rw [nanosPerSecond_eq] at htime
      rcases htime with ⟨hpos, htime⟩ | ⟨hneg, htime⟩
      · exact .inl ⟨by omega, hmillis (by omega)⟩
      · exact .inr ⟨by omega, hmillis (by omega)⟩
    have hne : i.millisUntil (i.addNanos (n * t.unit.nanos)) ≠ n * t.unit.millis := by omega
    rw [delta_beq_iff h hn (by omega) fun _ => by omega]
    exact iff_of_false hne (not_not.2 hhides)

/-- **Units that are added are counted back**, unless a leap second is hidden. -/
theorem delta_shift_iff (hn : (n * t.unit.millis).natAbs < 2 ^ 53) (hreach : i.Reaches n t.unit) :
    (t.delta i (i.addRounded (Float.ofInt n) t.unit) == Float.ofInt n) = true ↔
      ¬ (t.unit.IsFixed ∧ i.HidesLeap (i.addRounded (Float.ofInt n) t.unit)) := by
  have hpos := t.unit.millis_pos
  have hnlt : n.natAbs < 2 ^ 53 := by
    rw [Int.natAbs_mul] at hn
    exact (Nat.le_mul_of_pos_right _ (by omega)).trans_lt hn
  rw [addRounded, toInt64_ofInt hnlt]
  by_cases hfixed : t.unit.IsFixed
  · rw [shift_of_fixed hfixed, and_iff_right hfixed]
    exact delta_addNanos_iff hfixed hn ((reaches_of_fixed hfixed i n).1 hreach)
  · refine iff_of_true ?_ fun h => hfixed h.1
    rcases TimeUnit.eq_of_not_isFixed hfixed with hunit | hunit <;> rw [hunit] at hreach ⊢
    · rw [show i.shift n .year = i.addYears n from rfl, delta_addYears hunit hreach]
      exact beq_ofInt hnlt
    · rw [show i.shift n .month = i.addMonths n from rfl, delta_addMonths hunit hreach]
      exact beq_ofInt hnlt

/-! ## Back -/

/-- **Counted back there are as many**, with the opposite sign. -/
theorem delta_swap (t : DateTicks cal) (a b : Instant cal) :
    (t.delta b a == -t.delta a b) = true := by
  by_cases hfixed : t.unit.IsFixed
  · have hmillis := natAbs_millisUntil_lt a b
    rw [delta_of_fixed hfixed, delta_of_fixed hfixed, millisUntil_swap]
    exact ofInt_neg_div_beq (by omega) t.unit.millis_pos (by cases t.unit <;> decide)
  · have ha := a.year_bounds
    have hb := b.year_bounds
    have hamonth := a.month_bounds
    have hbmonth := b.month_bounds
    unfold firstYear lastYear at *
    rcases TimeUnit.eq_of_not_isFixed hfixed with hunit | hunit
    · rw [delta_of_year hunit, delta_of_year hunit, ← Int.neg_sub]
      exact ofInt_neg_beq (by omega)
    · rw [delta_of_month hunit, delta_of_month hunit, ← Int.neg_sub]
      refine ofInt_neg_beq ?_
      unfold Date.monthIndex
      omega

/-- **Units that are added are counted back**, of every unit from every instant and forwards and
backwards, if the calendar has the result and its distance is less than `2 ^ 53` milliseconds;
also where a month or a year has changed the day. The one exception is a leap second that is left
by a unit of fixed length and hidden by the times of day. Between any two instants the counts
there and back are opposite. -/
theorem delta_addRounded_iff :
    (∀ (t : DateTicks cal) (i : Instant cal) (n : Int), (n * t.unit.millis).natAbs < 2 ^ 53 →
      i.Reaches n t.unit →
      ((t.delta i (i.addRounded (Float.ofInt n) t.unit) == Float.ofInt n) = true ↔
        ¬ (t.unit.IsFixed ∧ i.HidesLeap (i.addRounded (Float.ofInt n) t.unit)))) ∧
    ∀ (t : DateTicks cal) (a b : Instant cal), (t.delta b a == -t.delta a b) = true :=
  ⟨fun _ _ _ hn hreach => delta_shift_iff hn hreach, delta_swap⟩

/-- One tick on an axis of a unit. -/
def oneTick (i : Instant) (unit : TimeUnit) : DateTicks :=
  ⟨i, i, unit, 1, 0, [i]⟩

/-- A month from January 31, and three weeks back. -/
theorem delta_addRounded_january :
    ((oneTick (.ofDate ⟨2024, 1, 31⟩) .month).delta (.ofDate ⟨2024, 1, 31⟩)
        ((Instant.ofDate ⟨2024, 1, 31⟩).addRounded (Float.ofInt 1) .month) ==
      Float.ofInt 1) = true ∧
    ((oneTick (.ofDate ⟨2024, 1, 31⟩) .week).delta (.ofDate ⟨2024, 1, 31⟩)
        ((Instant.ofDate ⟨2024, 1, 31⟩).addRounded (Float.ofInt (-3)) .week) ==
      Float.ofInt (-3)) = true :=
  ⟨(delta_addRounded_iff.1 (oneTick (.ofDate ⟨2024, 1, 31⟩) .month) _ 1 (by decide)
      (by decide +kernel)).2 fun h => h.1.2 rfl,
    (delta_addRounded_iff.1 (oneTick (.ofDate ⟨2024, 1, 31⟩) .week) _ (-3) (by decide)
      (by decide +kernel)).2 fun h => absurd h.2.1 (by decide +kernel)⟩

/-- Five seconds from the leap second at the end of 2016 are counted as four. -/
theorem not_counted_from_leap_second :
    (5 * TimeUnit.second.millis).natAbs < 2 ^ 53 ∧
    (endOf2016 1500000000).Reaches 5 .second ∧
    ((oneTick (endOf2016 1500000000) .second).delta (endOf2016 1500000000)
        ((endOf2016 1500000000).addRounded (Float.ofInt 5) .second) == Float.ofInt 5) = false := by
  decide +kernel

end DateTicks

end TickLabels
