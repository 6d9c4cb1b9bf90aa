import TickLabels.Calendar.Civil

/-!
# Instants

An instant is a moment of a calendar. What is shown of it is a number of
nanoseconds since the start of year zero, within the years of the calendar, and
a mark: a leap second is not counted, and shares its numbers with the second
before it. The order of instants is that of both.
-/

namespace TickLabels

/-- A point in time, on the civil calendar unless another is meant. -/
abbrev Instant (cal : Calendar := civil) : Type :=
  cal.Moment

namespace Instant

variable {cal : Calendar}

instance : DecidableEq (Instant cal) := cal.decEq

/-- The first instant. -/
def earliest : Instant cal := cal.earliest

/-- The last instant outside leap seconds. -/
def latest : Instant cal := cal.latest

/-! ## What is shown of an instant -/

/-- What the calendar and the clock show. -/
def reading (i : Instant cal) : Reading :=
  cal.reading i

def date (i : Instant cal) : Date :=
  cal.dateOf (cal.date i)

def hour (i : Instant cal) : Int :=
  cal.hour i

def minute (i : Instant cal) : Int :=
  cal.minute i

def second (i : Instant cal) : Int :=
  cal.second i

/-- The nanoseconds within the second. They go on through its leap
second. -/
def nanosecond (i : Instant cal) : Int :=
  cal.nanosecond i

/-- The milliseconds within the second. -/
def millisecond (i : Instant cal) : Int :=
  i.nanosecond / nanosPerMilli

/-- The days from the last Sunday. -/
def weekday (i : Instant cal) : Nat :=
  (cal.weekday (cal.date i)).daysFromSunday

/-- The nanoseconds since the start of year zero, without leap seconds. -/
def nanos (i : Instant cal) : Int :=
  i.reading.nanos

/-- Whether the instant lies in the leap second behind the second of
`nanos`. -/
def leap (i : Instant cal) : Bool :=
  i.reading.leap

/-- The number of the day. -/
def dayNumber (i : Instant cal) : Int :=
  i.nanos / nanosPerDay

/-- The nanoseconds since midnight, without leap seconds. -/
def timeOfDay (i : Instant cal) : Int :=
  i.nanos % nanosPerDay

/-- The instant of a reading on the civil calendar. -/
def ofReading (t : Reading) : Instant :=
  (Civil.Moment.ofNanos? t.nanos t.leap).getD civil.earliest

/-- The instant on a date at a time of the clock. Nanoseconds beyond the
second lie in the leap second behind it. -/
def ofClock (d : Date) (hour minute second nanosecond : Int) : Instant :=
  ofReading ⟨d, hour.toNat, minute.toNat, second.toNat, nanosecond.toNat⟩

/-- The midnight of a date. -/
def ofDate (d : Date) : Instant :=
  ofClock d 0 0 0 0

variable (i : Instant cal) {a b : Instant cal}

theorem isValid_reading : i.reading.IsValid :=
  cal.isValid_reading i

theorem earliest_le : earliestNanos ≤ i.nanos :=
  i.isValid_reading.nanos_bounds.1

theorem le_latest : i.nanos ≤ latestNanos :=
  i.isValid_reading.nanos_bounds.2

theorem nanosecond_eq :
    i.nanosecond = i.nanos % nanosPerSecond + if i.leap then nanosPerSecond else 0 :=
  i.isValid_reading.nanos_parts.2.2.symm

/-- An instant is known by its nanoseconds and by whether it lies in a leap
second. -/
theorem eq_iff : a = b ↔ a.nanos = b.nanos ∧ a.leap = b.leap :=
  ⟨fun h => h ▸ ⟨rfl, rfl⟩, fun ⟨hnanos, hleap⟩ =>
    cal.reading_inj a b (a.isValid_reading.ext b.isValid_reading hnanos hleap)⟩

/-! ## The order

A leap second comes after all of the second before it. -/

/-- The place of an instant in the order. Each second has room for a leap
second behind it. -/
def rank : Int :=
  i.nanos / nanosPerSecond * (2 * nanosPerSecond) + i.nanosecond

/-- No place is before this one. -/
def leastRank : Int := 2 * earliestNanos - nanosPerSecond

/-- No place is after this one. -/
def greatestRank : Int := 2 * latestNanos + nanosPerSecond

instance : LE (Instant cal) := ⟨fun a b => cal.cmp a b ≠ .gt⟩

instance : LT (Instant cal) := ⟨fun a b => cal.cmp a b = .lt⟩

instance (a b : Instant cal) : Decidable (a ≤ b) :=
  inferInstanceAs (Decidable (cal.cmp a b ≠ .gt))

instance (a b : Instant cal) : Decidable (a < b) :=
  inferInstanceAs (Decidable (cal.cmp a b = .lt))

/-- Instants are in the order of their places. -/
theorem before_iff : a.reading.Before b.reading ↔ a.rank < b.rank := by
  obtain ⟨hday, hsecond, -⟩ := a.isValid_reading.nanos_parts
  obtain ⟨hday', hsecond', -⟩ := b.isValid_reading.nanos_parts
  have hclock := a.isValid_reading.secondOfDay_bounds
  have hclock' := b.isValid_reading.secondOfDay_bounds
  have hnanosecond := a.isValid_reading.nanosecond_lt
  have hnanosecond' := b.isValid_reading.nanosecond_lt
  have hseconds : a.nanos / nanosPerSecond =
      a.reading.date.toDays * 86400 + a.reading.secondOfDay := by
    unfold nanos
    simp only [show nanosPerDay = 86400000000000 from rfl,
      show nanosPerSecond = 1000000000 from rfl] at *
    omega
  have hseconds' : b.nanos / nanosPerSecond =
      b.reading.date.toDays * 86400 + b.reading.secondOfDay := by
    unfold nanos
    simp only [show nanosPerDay = 86400000000000 from rfl,
      show nanosPerSecond = 1000000000 from rfl] at *
    omega
  have hplace : a.nanosecond = a.reading.nanosecond := rfl
  have hplace' : b.nanosecond = b.reading.nanosecond := rfl
  unfold Reading.Before rank
  rw [hseconds, hseconds', hplace, hplace', show nanosPerSecond = 1000000000 from rfl]
  omega

theorem lt_iff : a < b ↔ a.rank < b.rank :=
  (cal.cmp_eq_lt a b).trans before_iff

theorem le_iff : a ≤ b ↔ a.rank ≤ b.rank :=
  (not_congr ((cal.cmp_eq_gt a b).trans before_iff)).trans Int.not_lt

/-- **Different instants have different places**, so the order is total. -/
theorem rank_inj : a.rank = b.rank ↔ a = b := by
  refine ⟨fun h => eq_iff.2 ?_, fun h => h ▸ rfl⟩
  simp only [rank, nanosecond_eq, show nanosPerSecond = 1000000000 from rfl] at h
  have hleap : a.leap = b.leap := by
    cases hl : a.leap <;> cases hl' : b.leap <;> simp [hl, hl'] at h ⊢ <;> omega
  rw [hleap] at h
  exact ⟨by omega, hleap⟩

instance : Std.IsLinearOrder (Instant cal) :=
  .of_le
    ⟨fun _ _ h h' => rank_inj.1 (Int.le_antisymm (le_iff.1 h) (le_iff.1 h'))⟩
    ⟨fun h h' => le_iff.2 (Int.le_trans (le_iff.1 h) (le_iff.1 h'))⟩
    ⟨fun a b => (Int.le_total a.rank b.rank).imp le_iff.2 le_iff.2⟩

instance : Std.LawfulOrderLT (Instant cal) where
  lt_iff a b := by
    rw [lt_iff, le_iff, le_iff]
    omega

theorem leastRank_le : leastRank ≤ i.rank := by
  have := i.earliest_le
  rw [rank, nanosecond_eq]
  simp only [leastRank, show nanosPerSecond = 1000000000 from rfl]
  split <;> omega

theorem le_greatestRank : i.rank ≤ greatestRank := by
  have := i.le_latest
  rw [rank, nanosecond_eq]
  simp only [greatestRank, show nanosPerSecond = 1000000000 from rfl]
  split <;> omega

/-! ## Starts of periods -/

/-- The start of the day. -/
def midnight : Instant cal :=
  cal.midnight (cal.date i)

/-- A full second of the same day. -/
def truncate (hour minute second : Nat) : Instant cal :=
  (cal.atClock? (cal.date i) hour minute second).getD i

/-- The start of the month. -/
def startOfMonth : Instant cal :=
  ((cal.dayOf? i.date.year i.date.month 1).map cal.midnight).getD i

/-- The start of the year. -/
def startOfYear : Instant cal :=
  ((cal.dayOf? i.date.year 1 1).map cal.midnight).getD i

/-! ## Differences -/

/-- The nanoseconds from one instant to another. -/
def nanosUntil (i j : Instant cal) : Int :=
  cal.nanosOf (cal.since j i)

/-- The whole milliseconds from one instant to another. -/
def millisUntil (i j : Instant cal) : Int :=
  cal.wholeMillis (cal.since j i)

end Instant

end TickLabels
