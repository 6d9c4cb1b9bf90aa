import TickLabels.Calendar.Date

/-!
# Readings

What the calendar and the clock show of a point in time. A leap second may
follow any second: the clock goes on showing that second, and the nanoseconds
go on behind its end. It is not counted in the length of its day, so its
nanoseconds share their numbers with those of the second before it.

Arithmetic goes by readings. Time passes as if there were no leap second ever
but the one that an amount starts from, or those at the two ends of a
difference.
-/

namespace TickLabels

def nanosPerMilli : Int := 1000000

def nanosPerSecond : Int := 1000 * nanosPerMilli

def nanosPerMinute : Int := 60 * nanosPerSecond

def nanosPerHour : Int := 60 * nanosPerMinute

def nanosPerDay : Int := 24 * nanosPerHour

/-- The first year of the calendar. -/
def firstYear : Int := -262143

/-- The last year of the calendar. -/
def lastYear : Int := 262142

/-- The start of the first year, in nanoseconds. -/
def earliestNanos : Int := daysBeforeYear firstYear * nanosPerDay

/-- The end of the last year, in nanoseconds. -/
def latestNanos : Int := daysBeforeYear (lastYear + 1) * nanosPerDay - 1

/-- What the calendar and the clock show. -/
structure Reading where
  date : Date
  hour : Nat
  minute : Nat
  second : Nat
  /-- From `10 ^ 9` on in the leap second behind the second. -/
  nanosecond : Nat
deriving DecidableEq, Repr

namespace Reading

/-- What can be shown. -/
structure IsValid (t : Reading) : Prop where
  date : t.date.IsGregorian
  firstYear_le : firstYear ≤ t.date.year
  le_lastYear : t.date.year ≤ lastYear
  hour_lt : t.hour < 24
  minute_lt : t.minute < 60
  second_lt : t.second < 60
  nanosecond_lt : t.nanosecond < 2000000000

/-- The seconds since midnight, without leap seconds. -/
def secondOfDay (t : Reading) : Int :=
  t.hour * 3600 + t.minute * 60 + t.second

/-- The nanoseconds since the start of year zero, without leap seconds. -/
def nanos (t : Reading) : Int :=
  t.date.toDays * nanosPerDay + t.secondOfDay * nanosPerSecond + t.nanosecond % nanosPerSecond

/-- Whether the clock is in a leap second. -/
def leap (t : Reading) : Bool :=
  decide (nanosPerSecond ≤ t.nanosecond)

/-- One reading comes before another: by the day, then by the second, and then
by the nanosecond. -/
def Before (s t : Reading) : Prop :=
  s.date.toDays < t.date.toDays ∨ s.date.toDays = t.date.toDays ∧
    (s.secondOfDay < t.secondOfDay ∨ s.secondOfDay = t.secondOfDay ∧ s.nanosecond < t.nanosecond)

/-- So many nanoseconds do not lead out of a leap second. -/
def StaysInLeap (t : Reading) (n : Int) : Prop :=
  t.leap = true ∧ nanosPerSecond ≤ t.nanosecond + n ∧ t.nanosecond + n < 2 * nanosPerSecond

instance (t : Reading) (n : Int) : Decidable (t.StaysInLeap n) :=
  inferInstanceAs (Decidable (_ ∧ _ ∧ _))

/-- The nanoseconds of the reading so many nanoseconds away. Backwards out of
a leap second they go on from the end of the second before it. -/
def target (t : Reading) (n : Int) : Int :=
  if t.leap ∧ t.nanosecond + n < nanosPerSecond then t.nanos + nanosPerSecond + n
  else t.nanos + n

/-- `t` is shown `n` nanoseconds after `s`. There is no leap second on the way
but the one in which `s` may lie. -/
structure IsAfter (s t : Reading) (n : Int) : Prop where
  nanos_eq : t.nanos = s.target n
  leap_eq : t.leap = decide (s.StaysInLeap n)

/-- The nanoseconds from `s` to `t`: the days between them, and the time from
one time of day to the other. A leap second at one end has passed if the other
end is later in its day. -/
def nanosUntil (s t : Reading) : Int :=
  (t.date.toDays - s.date.toDays) * nanosPerDay +
    ((t.secondOfDay - s.secondOfDay) * nanosPerSecond + (t.nanosecond - s.nanosecond) +
      (if s.leap ∧ s.secondOfDay < t.secondOfDay then nanosPerSecond else 0) -
      if t.leap ∧ t.secondOfDay < s.secondOfDay then nanosPerSecond else 0)

/-- `t` is shown `n` months after `s`: at the same time of day, on the same day
of the month or on the last one that the month has. -/
structure IsMonthsAfter (s t : Reading) (n : Int) : Prop where
  monthIndex_eq : t.date.monthIndex = s.date.monthIndex + n
  day_le : t.date.day ≤ s.date.day
  le_day : ∀ day ≤ s.date.day,
    (⟨t.date.year, t.date.month, day⟩ : Date).IsGregorian → day ≤ t.date.day
  hour_eq : t.hour = s.hour
  minute_eq : t.minute = s.minute
  second_eq : t.second = s.second
  nanosecond_eq : t.nanosecond = s.nanosecond

/-! ## Valid readings -/

variable {s t : Reading}

theorem IsValid.secondOfDay_bounds (h : t.IsValid) :
    0 ≤ t.secondOfDay ∧ t.secondOfDay < 86400 := by
  have hhour := h.hour_lt
  have hminute := h.minute_lt
  have hsecond := h.second_lt
  unfold secondOfDay
  omega

/-- The calendar has the days of its years. -/
theorem IsValid.toDays_bounds (h : t.IsValid) :
    daysBeforeYear firstYear ≤ t.date.toDays ∧
      t.date.toDays < daysBeforeYear (lastYear + 1) := by
  obtain ⟨hlow, hhigh⟩ := h.date.toDays_bounds
  have hlast := h.le_lastYear
  exact ⟨Int.le_trans (daysBeforeYear_mono h.firstYear_le) hlow,
    Int.lt_of_lt_of_le hhigh (daysBeforeYear_mono (by omega))⟩

/-- **The calendar** starts and ends with its years. -/
theorem IsValid.nanos_bounds (h : t.IsValid) :
    earliestNanos ≤ t.nanos ∧ t.nanos ≤ latestNanos := by
  have hday := h.toDays_bounds
  have hsecond := h.secondOfDay_bounds
  simp only [earliestNanos, latestNanos, nanos, show nanosPerDay = 86400000000000 from rfl,
    show nanosPerSecond = 1000000000 from rfl]
  omega

/-- Days, seconds and what is left of them are read off the nanoseconds. -/
theorem IsValid.nanos_parts (h : t.IsValid) :
    t.nanos / nanosPerDay = t.date.toDays ∧
      t.nanos % nanosPerDay / nanosPerSecond = t.secondOfDay ∧
      t.nanos % nanosPerSecond + (if t.leap then nanosPerSecond else 0) = t.nanosecond := by
  have hsecond := h.secondOfDay_bounds
  have hnanosecond := h.nanosecond_lt
  simp only [nanos, leap, decide_eq_true_eq, show nanosPerDay = 86400000000000 from rfl,
    show nanosPerSecond = 1000000000 from rfl]
  refine ⟨by omega, by omega, ?_⟩
  split <;> omega

/-- **A reading is known by its nanoseconds** and by whether it is in a leap second. -/
theorem IsValid.ext (hs : s.IsValid) (ht : t.IsValid) (hnanos : s.nanos = t.nanos)
    (hleap : s.leap = t.leap) : s = t := by
  obtain ⟨hday, hsecond, hnanosecond⟩ := hs.nanos_parts
  obtain ⟨hday', hsecond', hnanosecond'⟩ := ht.nanos_parts
  rw [hnanos] at hday hsecond hnanosecond
  rw [hleap] at hnanosecond
  have hdate := hs.date.ext ht.date (hday.symm.trans hday')
  have hclock := hsecond.symm.trans hsecond'
  have hminute := hs.minute_lt
  have hminute' := ht.minute_lt
  have hsixty := hs.second_lt
  have hsixty' := ht.second_lt
  obtain ⟨date, hour, minute, second, nanosecond⟩ := s
  obtain ⟨date', hour', minute', second', nanosecond'⟩ := t
  simp only [secondOfDay] at *
  obtain rfl : hour = hour' := by omega
  obtain rfl : minute = minute' := by omega
  obtain rfl : second = second' := by omega
  obtain rfl : nanosecond = nanosecond' := by omega
  rw [hdate]

end Reading

end TickLabels
