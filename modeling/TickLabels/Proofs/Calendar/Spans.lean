import TickLabels.Proofs.Calendar.Months
/-!
# Moving by fixed lengths

Weeks, days and all that is shorter are so many nanoseconds, and to move an instant by them is
exact arithmetic, held back at the ends of the calendar (`Instant.movesExactly_of_fixed`). A
leap second is counted where the way starts in it, and only there. So the way back from
behind a leap second does not lead into it, and an instant in the second before may overtake
one in the leap second. Apart from that, arithmetic is as usual: later instants and greater
amounts lead further (`Instant.addNanos_le_addNanos`), and two steps are one
(`Instant.addNanos_addNanos`).

Of all units, months and years included, it is known which way they lead
(`Instant.lt_shift_or`, `Instant.shift_lt_or`).
-/

namespace TickLabels

namespace Instant

variable {cal : Calendar} {i j : Instant cal} {m n : Int} {unit : TimeUnit}

/-- The nanoseconds of an instant, with the leap second in which it lies counted in. -/
def counted (i : Instant cal) : Int :=
  i.nanos + if i.leap then nanosPerSecond else 0

/-- Two amounts lead out of a leap second on the same side. Outside leap seconds there are
no sides. -/
def LeaveAlike (i : Instant cal) (m n : Int) : Prop :=
  i.leap = true →
    (i.nanosecond + m < nanosPerSecond ∧ i.nanosecond + n < nanosPerSecond) ∨
      (2 * nanosPerSecond ≤ i.nanosecond + m ∧ 2 * nanosPerSecond ≤ i.nanosecond + n)

theorem nanosecond_of_leap (h : i.leap = true) :
    i.nanosecond = i.nanos % nanosPerSecond + nanosPerSecond := by
  rw [nanosecond_eq, if_pos h]

theorem counted_of_leap (h : i.leap = true) : i.counted = i.nanos + nanosPerSecond := by
  rw [counted, if_pos h]

theorem counted_of_not_leap (h : i.leap = false) : i.counted = i.nanos := by
  rw [counted, h, if_neg Bool.false_ne_true, Int.add_zero]

/-! ## Before, within and behind a leap second -/

theorem addNanos_of_not_leap (h : i.leap = false) (n : Int) :
    i.addNanos n = ofNanos (i.nanos + n) := by
  rw [addNanos, if_neg (by simp [staysInLeap_iff, h]), target_eq, if_neg (by simp [h])]

/-- Back out of a leap second, all of the way in it is counted. -/
theorem addNanos_of_before (h : i.leap = true) (hn : i.nanosecond + n < nanosPerSecond) :
    i.addNanos n = ofNanos (i.counted + n) := by
  rw [addNanos, if_neg fun hstays => Int.not_lt.2 hstays.2.1 hn, target_eq, if_pos ⟨h, hn⟩,
    counted_of_leap h]

theorem addNanos_of_within (h : i.leap = true) (hlow : nanosPerSecond ≤ i.nanosecond + n)
    (hhigh : i.nanosecond + n < 2 * nanosPerSecond) :
    i.addNanos n = (ofNanos (i.nanos + n)).toLeap := by
  rw [addNanos, if_pos (staysInLeap_iff.2 ⟨h, hlow, hhigh⟩), target_eq,
    if_neg fun hback => Int.not_lt.2 hlow hback.2]

/-- Ahead out of a leap second, its end is behind the last second before it. -/
theorem addNanos_of_behind (hn : 2 * nanosPerSecond ≤ i.nanosecond + n) :
    i.addNanos n = ofNanos (i.nanos + n) := by
  have hlow : nanosPerSecond ≤ i.nanosecond + n := by
    rw [nanosPerSecond_eq] at *
    omega
  rw [addNanos, if_neg fun hstays => Int.not_lt.2 hn hstays.2.2, target_eq,
    if_neg fun hback => Int.not_lt.2 hlow hback.2]

/-- Within a leap second, the nanoseconds are as usual. -/
theorem within_spec (h : i.StaysInLeap n) :
    (i.addNanos n).nanos = i.nanos + n ∧ (i.addNanos n).leap = true ∧
      (i.addNanos n).nanos / nanosPerSecond = i.nanos / nanosPerSecond := by
  obtain ⟨⟨hearliest, hlatest⟩, hsecond⟩ := representable_target_of_stays h
  obtain ⟨-, hlow, -⟩ := staysInLeap_iff.1 h
  have htarget : i.target n = i.nanos + n := by
    rw [target_eq, if_neg fun hback => Int.not_lt.2 hlow hback.2]
  have hnanos : (i.addNanos n).nanos = i.target n := by
    rw [nanos_addNanos, Int.min_eq_left hlatest, Int.max_eq_right hearliest]
  refine ⟨hnanos.trans htarget, ?_, by rw [hnanos, hsecond]⟩
  rw [leap_addNanos, decide_eq_true h]

theorem rank_of_stays (h : i.StaysInLeap n) : (i.addNanos n).rank = i.rank + n := by
  obtain ⟨hnanos, hleap, hsecond⟩ := within_spec h
  rw [rank, rank, nanosecond_of_leap hleap, nanosecond_of_leap h.1, hsecond, hnanos]
  rw [nanosPerSecond_eq] at *
  omega

/-- What stays in a leap second does not reach either end of it. -/
theorem bounds_of_stays (h : i.StaysInLeap n) :
    i.counted = i.nanos + nanosPerSecond ∧ 0 ≤ i.nanos % nanosPerSecond + n ∧
      i.nanos % nanosPerSecond + n < nanosPerSecond := by
  obtain ⟨hleap, hlow, hhigh⟩ := staysInLeap_iff.1 h
  rw [nanosecond_of_leap hleap] at hlow hhigh
  rw [nanosPerSecond_eq] at *
  exact ⟨counted_of_leap hleap, by omega, by omega⟩

/-- Where a way ends that does not end in a leap second: it starts in none, or it leads back
out of one, or ahead. -/
theorem target_cases (h : ¬ i.StaysInLeap n) :
    (i.counted = i.nanos ∧ i.target n = i.nanos + n) ∨
      (i.counted = i.nanos + nanosPerSecond ∧ i.nanos % nanosPerSecond + n < 0 ∧
        i.target n = i.counted + n) ∨
      (i.counted = i.nanos + nanosPerSecond ∧ nanosPerSecond ≤ i.nanos % nanosPerSecond + n ∧
        i.target n = i.nanos + n) := by
  cases hleap : i.leap with
  | false => exact .inl ⟨counted_of_not_leap hleap, by rw [target_eq, if_neg (by simp [hleap])]⟩
  | true =>
    have hcounted := counted_of_leap hleap
    have hnanosecond := nanosecond_of_leap hleap
    by_cases hback : i.nanosecond + n < nanosPerSecond
    · refine .inr (.inl ⟨hcounted, by omega, ?_⟩)
      rw [target_eq, if_pos ⟨hleap, hback⟩, hcounted]
    · have hhigh : ¬ i.nanosecond + n < 2 * nanosPerSecond := fun hhigh =>
        h (staysInLeap_iff.2 ⟨hleap, Int.not_lt.1 hback, hhigh⟩)
      refine .inr (.inr ⟨hcounted, by omega, ?_⟩)
      rw [target_eq, if_neg fun h => hback h.2]

/-! ## Order -/

theorem ofNanos_of_lt {nanos : Int} (h : nanos < earliestNanos) :
    (ofNanos nanos : Instant cal) = earliest := by
  have hends : earliestNanos ≤ latestNanos := by decide
  rw [earliest_eq, eq_iff, leap_ofNanos, leap_ofNanos, nanos_ofNanos_eq, nanos_ofNanos_eq]
  exact ⟨by omega, rfl⟩

theorem ofNanos_of_gt {nanos : Int} (h : latestNanos < nanos) :
    (ofNanos nanos : Instant cal) = latest := by
  rw [latest_eq, eq_iff, leap_ofNanos, leap_ofNanos, nanos_ofNanos_eq, nanos_ofNanos_eq]
  exact ⟨by omega, rfl⟩

/-- Only the leap second at the end of the calendar is behind the last instant. -/
theorem le_latest_iff (i : Instant cal) :
    i ≤ latest ↔ i.leap = true → i.nanos / nanosPerSecond < latestNanos / nanosPerSecond := by
  have hi := i.representable_nanos
  rw [latest_eq, le_ofNanos_iff (by decide)]
  cases i.leap with
  | false => simpa using hi.2
  | true => simp

/-- What is in the second of a leap second, or before, is before it, also where it is held
back. -/
theorem ofNanos_le_of_leap (h : i.leap = true) {nanos : Int}
    (hsecond : nanos / nanosPerSecond ≤ i.nanos / nanosPerSecond) : ofNanos nanos ≤ i := by
  have hi := i.representable_nanos
  by_cases hnanos : Representable nanos
  · rw [ofNanos_le_iff hnanos, if_pos h]
    exact hsecond
  · have hbefore : nanos < earliestNanos := by
      unfold Representable at *
      rw [earliestNanos_eq, latestNanos_eq] at *
      rw [nanosPerSecond_eq] at hsecond
      omega
    rw [ofNanos_of_lt hbefore]
    exact i.earliest_le_self

/-- What is in a later second is behind a leap second, also where it is held back. -/
theorem le_ofNanos_of_leap (h : i.leap = true) (hlatest : i ≤ latest) {nanos : Int}
    (hsecond : i.nanos / nanosPerSecond < nanos / nanosPerSecond) : i ≤ ofNanos nanos := by
  have hi := i.representable_nanos
  by_cases hnanos : Representable nanos
  · rw [le_ofNanos_iff hnanos, if_pos h]
    exact hsecond
  · have hbehind : latestNanos < nanos := by
      unfold Representable at *
      rw [earliestNanos_eq, latestNanos_eq] at *
      rw [nanosPerSecond_eq] at hsecond
      omega
    rwa [ofNanos_of_gt hbehind]

/-- Two ways, of which the second starts and ends later, with leap seconds and without. -/
structure GoesFurther (i j : Instant cal) (m n : Int) : Prop where
  le : i ≤ j
  nanos_le : i.nanos + m ≤ j.nanos + n
  counted_le : i.counted + m ≤ j.counted + n

namespace GoesFurther

variable (h : GoesFurther i j m n)
include h

/-- Outside leap seconds the targets are in order. -/
theorem target_le (hi : ¬ i.StaysInLeap m) (hj : ¬ j.StaysInLeap n) :
    i.target m ≤ j.target n := by
  have hsecond := seconds_le_of_le h.le
  have hnanos := h.nanos_le
  have hcounted := h.counted_le
  rcases target_cases hi with hi | hi | hi <;> rcases target_cases hj with hj | hj | hj <;>
    rw [nanosPerSecond_eq] at * <;> omega

/-- What does not end in a leap second is behind what stays in it. -/
theorem second_lt_target (hi : i.StaysInLeap m) (hj : ¬ j.StaysInLeap n) :
    i.nanos / nanosPerSecond < j.target n / nanosPerSecond := by
  have hsecond := seconds_le_of_le h.le
  have hnanos := h.nanos_le
  have hcounted := h.counted_le
  have hi := bounds_of_stays hi
  rcases target_cases hj with hj | hj | hj <;> rw [nanosPerSecond_eq] at * <;> omega

/-- Or in its second, or before. -/
theorem target_le_second (hi : ¬ i.StaysInLeap m) (hj : j.StaysInLeap n) :
    i.target m / nanosPerSecond ≤ j.nanos / nanosPerSecond := by
  have hsecond := seconds_le_of_le h.le
  have hnanos := h.nanos_le
  have hcounted := h.counted_le
  have hj := bounds_of_stays hj
  rcases target_cases hi with hi | hi | hi <;> rw [nanosPerSecond_eq] at * <;> omega

end GoesFurther

/-- **Later instants and greater amounts lead further**, as long as they are so with leap
seconds and without. -/
theorem addNanos_le_addNanos (h : GoesFurther i j m n) (hlatest : j ≤ latest) :
    i.addNanos m ≤ j.addNanos n := by
  by_cases hi : i.StaysInLeap m
  · obtain ⟨hinanos, hileap, hisecond⟩ := within_spec hi
    by_cases hj : j.StaysInLeap n
    · obtain ⟨hjnanos, hjleap, hjsecond⟩ := within_spec hj
      have hnanos := h.nanos_le
      rw [le_iff, rank, rank, nanosecond_of_leap hileap, nanosecond_of_leap hjleap, hinanos,
        hjnanos, nanosPerSecond_eq]
      omega
    · have hlatest' : i.addNanos m ≤ latest := by
        have hi' := (le_latest_iff i).1 (Std.le_trans h.le hlatest) hi.1
        exact (le_latest_iff _).2 fun _ => by rwa [hisecond]
      rw [addNanos.eq_1 j, if_neg hj]
      exact le_ofNanos_of_leap hileap hlatest' (by rw [hisecond]; exact h.second_lt_target hi hj)
  · rw [addNanos.eq_1 i, if_neg hi]
    by_cases hj : j.StaysInLeap n
    · obtain ⟨-, hjleap, hjsecond⟩ := within_spec hj
      exact ofNanos_le_of_leap hjleap (by rw [hjsecond]; exact h.target_le_second hi hj)
    · rw [addNanos.eq_1 j, if_neg hj]
      exact ofNanos_mono (h.target_le hi hj)

/-! ## Two steps -/

/-- **Two steps are one**, unless the first is held back at an end of the calendar, or leads
out of a leap second on another side than the whole way. -/
theorem addNanos_addNanos (h : Representable (i.target m))
    (halike : i.LeaveAlike m (m + n) ∨ (i.addNanos m).leap = true) :
    (i.addNanos m).addNanos n = i.addNanos (m + n) := by
  cases hleap : i.leap with
  | false =>
    have htarget : i.target m = i.nanos + m := by rw [target_eq, if_neg (by simp [hleap])]
    rw [htarget] at h
    rw [addNanos_of_not_leap hleap, addNanos_of_not_leap hleap, addNanos_ofNanos h, Int.add_assoc]
  | true =>
    by_cases hstays : i.StaysInLeap m
    · -- What is asked of the second step is asked of the whole way.
      obtain ⟨hnanos, hleap', hsecond⟩ := within_spec hstays
      have hnanosecond : (i.addNanos m).nanosecond + n = i.nanosecond + (m + n) := by
        rw [nanosecond_of_leap hleap', nanosecond_of_leap hleap, hnanos]
        rw [nanosPerSecond_eq, hnanos] at *
        omega
      have htarget : (i.addNanos m).target n = i.target (m + n) := by
        rw [target_eq, target_eq, hleap', hleap, hnanosecond, hnanos]
        split <;> omega
      have hstays' : (i.addNanos m).StaysInLeap n ↔ i.StaysInLeap (m + n) := by
        rw [staysInLeap_iff, staysInLeap_iff, hleap', hleap, hnanosecond]
      rw [addNanos.eq_1 (i.addNanos m), addNanos.eq_1 i (m + n), htarget]
      simp only [hstays']
    · have hmoved : (i.addNanos m).leap ≠ true := by
        rw [leap_addNanos, decide_eq_false hstays]
        exact Bool.false_ne_true
      rcases (halike.resolve_right hmoved) hleap with ⟨hm, hmn⟩ | ⟨hm, hmn⟩
      · have htarget : i.target m = i.counted + m := by
          rw [counted_of_leap hleap, target_eq, if_pos ⟨hleap, hm⟩]
        rw [htarget] at h
        rw [addNanos_of_before hleap hm, addNanos_of_before hleap hmn, addNanos_ofNanos h,
          Int.add_assoc]
      · have htarget : i.target m = i.nanos + m := by
          refine if_neg fun hback => ?_
          have := hback.2
          change i.nanosecond + m < nanosPerSecond at this
          rw [nanosPerSecond_eq] at *
          omega
        rw [htarget] at h
        rw [addNanos_of_behind hm, addNanos_of_behind hmn, addNanos_ofNanos h,
          Int.add_assoc]

/-! ## What a unit of fixed length does -/

/-- Arithmetic by a unit. -/
structure MovesExactly (cal : Calendar) (unit : TimeUnit) : Prop where
  /-- Outside leap seconds it is exact, and held back at the ends of the calendar. -/
  exact (i : Instant cal) (n : Int) (h : i.leap = false) :
    i.shift n unit = ofNanos (i.nanos + n * unit.nanos)
  /-- Back out of a leap second, it is exact with the leap second. -/
  before (i : Instant cal) (n : Int) (h : i.leap = true)
    (hn : i.nanosecond + n * unit.nanos < nanosPerSecond) :
    i.shift n unit = ofNanos (i.counted + n * unit.nanos)
  /-- It may stay in the leap second. -/
  within (i : Instant cal) (n : Int) (h : i.leap = true)
    (hlow : nanosPerSecond ≤ i.nanosecond + n * unit.nanos)
    (hhigh : i.nanosecond + n * unit.nanos < 2 * nanosPerSecond) :
    i.shift n unit = (ofNanos (i.nanos + n * unit.nanos)).toLeap
  /-- Ahead out of a leap second, the leap second has passed. -/
  behind (i : Instant cal) (n : Int) (h : i.leap = true)
    (hn : 2 * nanosPerSecond ≤ i.nanosecond + n * unit.nanos) :
    i.shift n unit = ofNanos (i.nanos + n * unit.nanos)
  /-- Greater amounts lead further. -/
  mono_amount (i : Instant cal) (m n : Int) (hlatest : i ≤ latest) (h : m ≤ n) :
    i.shift m unit ≤ i.shift n unit
  /-- And so do later instants, if they are also later without their leap seconds, and with
  them. -/
  mono_instant (i j : Instant cal) (n : Int) (hlatest : j ≤ latest) (h : i ≤ j)
    (hleap : i.leap = j.leap ∨ i.nanos ≤ j.nanos ∧ i.counted ≤ j.counted) :
    i.shift n unit ≤ j.shift n unit
  /-- Equal amounts agree in all units of fixed length. -/
  same_amount (i : Instant cal) (m n : Int) (other : TimeUnit) (hother : other.IsFixed)
    (h : m * unit.nanos = n * other.nanos) : i.shift m unit = i.shift n other
  /-- Two steps are one. -/
  shift_shift (i : Instant cal) (m n : Int) (h : Representable (i.target (m * unit.nanos)))
    (halike : i.LeaveAlike (m * unit.nanos) ((m + n) * unit.nanos) ∨
      (i.shift m unit).leap = true) :
    (i.shift m unit).shift n unit = i.shift (m + n) unit

/-- Instants in order are so with leap seconds and without, if both or none lie in one. -/
theorem nanos_counted_le (h : i ≤ j) (hleap : i.leap = j.leap) :
    i.nanos ≤ j.nanos ∧ i.counted ≤ j.counted := by
  rw [le_iff, rank, rank, nanosecond_eq, nanosecond_eq] at h
  unfold counted
  rw [hleap] at h ⊢
  rw [nanosPerSecond_eq] at *
  omega

/-- **Arithmetic by units of fixed length**, from the millisecond up to the week. -/
theorem movesExactly_of_fixed (h : unit.IsFixed) : MovesExactly cal unit where
  exact i n hleap := by rw [shift_of_fixed h, addNanos_of_not_leap hleap]
  before i n hleap hn := by rw [shift_of_fixed h, addNanos_of_before hleap hn]
  within i n hleap hlow hhigh := by rw [shift_of_fixed h, addNanos_of_within hleap hlow hhigh]
  behind i n _ hn := by rw [shift_of_fixed h, addNanos_of_behind hn]
  mono_amount i m n hlatest hmn := by
    have hamount := Int.mul_le_mul_of_nonneg_right hmn (Int.le_of_lt unit.nanos_pos)
    rw [shift_of_fixed h, shift_of_fixed h]
    exact addNanos_le_addNanos ⟨Std.le_refl _, by omega, by omega⟩ hlatest
  mono_instant i j n hlatest hij hleap := by
    have hboth : i.nanos ≤ j.nanos ∧ i.counted ≤ j.counted := by
      rcases hleap with hleap | hboth
      · exact nanos_counted_le hij hleap
      · exact hboth
    rw [shift_of_fixed h, shift_of_fixed h]
    exact addNanos_le_addNanos ⟨hij, by omega, by omega⟩ hlatest
  same_amount i m n other hother hamount := by
    rw [shift_of_fixed h, shift_of_fixed hother, hamount]
  shift_shift i m n hrange halike := by
    rw [shift_of_fixed h, shift_of_fixed h, shift_of_fixed h, Int.add_mul] at *
    exact addNanos_addNanos hrange halike

/-- Weeks are the longest. -/
theorem movesExactly_week : TimeUnit.week.IsFixed ∧ MovesExactly civil .week :=
  ⟨⟨by decide, by decide⟩, movesExactly_of_fixed ⟨by decide, by decide⟩⟩

/-- The last second of 2016 and, from `10 ^ 9` nanoseconds on, the leap second behind it. -/
def endOf2016 (nanosecond : Int) : Instant :=
  ofClock ⟨2016, 12, 31⟩ 23 59 59 nanosecond

/-- The last second of the calendar, and the leap second behind it. -/
def endOfCalendar (nanosecond : Int) : Instant :=
  ofClock ⟨lastYear, 12, 31⟩ 23 59 59 nanosecond

/-- The leap second at the end of 2016 is left by a second and not found by a second back, and
half a second leads further from the second before it. From the one at the end of the calendar
a second leads back to the end of the calendar. -/
theorem inexact_in_leap_second :
    (endOf2016 1500000000).shift 1000 .millisecond = ofClock ⟨2017, 1, 1⟩ 0 0 0 500000000 ∧
    (ofClock ⟨2017, 1, 1⟩ 0 0 0 500000000).shift (-1000) .millisecond ≠
      (endOf2016 1500000000).shift (1000 + -1000) .millisecond ∧
    endOf2016 900000000 ≤ endOf2016 1100000000 ∧
    ¬ (endOf2016 900000000).shift 500 .millisecond ≤
      (endOf2016 1100000000).shift 500 .millisecond ∧
    ¬ (endOfCalendar 1500000000).shift 0 .millisecond ≤
      (endOfCalendar 1500000000).shift 1000 .millisecond := by
  decide +kernel

/-! ## Directions -/

/-- An amount ahead leads ahead, or to the end of the calendar. -/
theorem lt_addNanos_or (i : Instant cal) (hn : 0 < n) :
    i < i.addNanos n ∨ i.addNanos n = latest ∧ latest ≤ i := by
  have hi := i.representable_nanos
  by_cases hstays : i.StaysInLeap n
  · have hrank := rank_of_stays hstays
    exact .inl (lt_iff.2 (by omega))
  · rw [addNanos, if_neg hstays]
    have hlow := (i.target_bounds n).1
    by_cases hlast : i.target n ≤ latestNanos
    · refine .inl (Std.not_le.1 fun hback => ?_)
      rw [ofNanos_le_iff ⟨by have := hi.1; omega, hlast⟩] at hback
      have hcases := target_cases hstays
      cases hleap : i.leap with
      | false =>
        rw [hleap, if_neg Bool.false_ne_true] at hback
        omega
      | true =>
        have hcounted := counted_of_leap hleap
        rw [hleap, if_pos rfl] at hback
        rw [nanosPerSecond_eq] at *
        omega
    · rw [ofNanos_of_gt (Int.not_le.1 hlast)]
      exact (i.lt_or_le latest).imp_right fun hge => ⟨rfl, hge⟩

/-- An amount back leads back, or to the start of the calendar. -/
theorem addNanos_lt_or (i : Instant cal) (hn : n < 0) :
    i.addNanos n < i ∨ i.addNanos n = earliest ∧ i = earliest := by
  have hi := i.representable_nanos
  by_cases hstays : i.StaysInLeap n
  · have hrank := rank_of_stays hstays
    exact .inl (lt_iff.2 (by omega))
  · rw [addNanos, if_neg hstays]
    have hcases := target_cases hstays
    by_cases hfirst : earliestNanos ≤ i.target n
    · have hlast : i.target n ≤ latestNanos := by
        have := hi.2
        rw [latestNanos_eq, nanosPerSecond_eq] at *
        omega
      refine .inl (Std.not_le.1 fun hahead => ?_)
      rw [le_ofNanos_iff ⟨hfirst, hlast⟩] at hahead
      cases hleap : i.leap with
      | false =>
        have hcounted := counted_of_not_leap hleap
        rw [hleap, if_neg Bool.false_ne_true] at hahead
        rw [nanosPerSecond_eq] at *
        omega
      | true =>
        have hcounted := counted_of_leap hleap
        rw [hleap, if_pos rfl] at hahead
        rw [nanosPerSecond_eq] at *
        omega
    · rw [ofNanos_of_lt (Int.not_le.1 hfirst)]
      exact i.earliest_lt_or_eq.imp_right fun heq => ⟨rfl, heq⟩

theorem addNanos_zero (i : Instant cal) : i.addNanos 0 = i := by
  have hfrac := Int.emod_nonneg i.nanos (show nanosPerSecond ≠ 0 by decide)
  have hfrac' := Int.emod_lt_of_pos i.nanos (show 0 < nanosPerSecond by decide)
  cases hleap : i.leap with
  | false => rw [addNanos_of_not_leap hleap, Int.add_zero, ofNanos_nanos hleap]
  | true =>
    have hnanosecond := nanosecond_of_leap hleap
    rw [addNanos_of_within hleap (by omega) (by omega), Int.add_zero, toLeap_ofNanos_nanos hleap]

/-- A unit is so many nanoseconds or so many months. -/
theorem shift_cases (unit : TimeUnit) :
    ∃ scale : Int, 0 < scale ∧
      ((∀ (i : Instant cal) (n : Int), i.shift n unit = i.addNanos (n * scale)) ∨
        ∀ (i : Instant cal) (n : Int), i.shift n unit = i.addMonths (n * scale)) := by
  by_cases hfixed : unit.IsFixed
  · exact ⟨unit.nanos, unit.nanos_pos, .inl (shift_of_fixed hfixed)⟩
  · rcases TimeUnit.eq_of_not_isFixed hfixed with rfl | rfl
    · exact ⟨12, by decide, .inr addYears_eq⟩
    · exact ⟨1, by decide, .inr fun i n => by rw [Int.mul_one]; rfl⟩

/-- **A positive amount of any unit** leads ahead, or to the end of the calendar. -/
theorem lt_shift_or (i : Instant cal) (hn : 0 < n) (unit : TimeUnit) :
    i < i.shift n unit ∨ i.shift n unit = latest ∧ latest ≤ i := by
  obtain ⟨scale, hpos, hshift | hshift⟩ := shift_cases unit
  · rw [hshift]
    exact i.lt_addNanos_or (Int.mul_pos hn hpos)
  · rw [hshift]
    exact i.lt_addMonths_or (Int.mul_pos hn hpos)

/-- **A negative amount of any unit** leads back, or to the start of the calendar. -/
theorem shift_lt_or (i : Instant cal) (hn : n < 0) (unit : TimeUnit) :
    i.shift n unit < i ∨ i.shift n unit = earliest ∧ i = earliest := by
  obtain ⟨scale, hpos, hshift | hshift⟩ := shift_cases unit
  · rw [hshift]
    exact i.addNanos_lt_or (Int.mul_neg_of_neg_of_pos hn hpos)
  · rw [hshift]
    exact i.addMonths_lt_or (Int.mul_neg_of_neg_of_pos hn hpos)

theorem shift_zero (i : Instant cal) (unit : TimeUnit) : i.shift 0 unit = i := by
  obtain ⟨scale, hpos, hshift | hshift⟩ := shift_cases unit
  · rw [hshift, Int.zero_mul, addNanos_zero]
  · rw [hshift, Int.zero_mul, addMonths_zero]

/-- What is not positive does not lead ahead. -/
theorem shift_le_self (i : Instant cal) (hn : n ≤ 0) (unit : TimeUnit) : i.shift n unit ≤ i := by
  rcases Int.lt_or_eq_of_le hn with hneg | rfl
  · rcases i.shift_lt_or hneg unit with hlt | ⟨hshift, hearliest⟩
    · exact Std.le_of_lt hlt
    · rw [hshift, ← hearliest]
      exact Std.le_refl _
  · rw [shift_zero]
    exact Std.le_refl _

/-- What is not negative does not lead back, but from behind the last instant to it. -/
theorem self_le_shift (hlatest : i ≤ latest) (hn : 0 ≤ n) (unit : TimeUnit) :
    i ≤ i.shift n unit := by
  rcases Int.lt_or_eq_of_le hn with hpos | rfl
  · rcases i.lt_shift_or hpos unit with hlt | ⟨hshift, -⟩
    · exact Std.le_of_lt hlt
    · rwa [hshift]
  · rw [shift_zero]
    exact Std.le_refl _

end Instant

end TickLabels
