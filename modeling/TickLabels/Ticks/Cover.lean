import TickLabels.Ticks.Dates

/-!
# Covering another range

Ticks on a time axis follow the range that is shown. They are extended at
their ends, which keeps the ticks there are, or moved to a new range on the
same grid. Both go on interval by interval and end where the calendar
ends, since a step that leads nowhere is the last.
-/

namespace TickLabels

namespace Instant

variable {cal : Calendar}

/-- The instants behind `i`, each a step later than the one before, up to
the first that is not before `bound`. -/
def stepsUp (i : Instant cal) (step : Instant cal → Instant cal) (bound : Instant cal) :
    List (Instant cal) :=
  if i < bound ∧ i < step i then step i :: stepsUp (step i) step bound else []
termination_by (greatestRank - i.rank).toNat
decreasing_by
  have h : i.rank < (step i).rank := by simp_all [lt_iff]
  have := (step i).le_greatestRank
  omega

/-- The instants before `i`, each a step earlier than the one before it in
the list, down to the first that is not after `bound`. -/
def stepsDown (i : Instant cal) (step : Instant cal → Instant cal) (bound : Instant cal) :
    List (Instant cal) :=
  if bound < i ∧ step i < i then step i :: stepsDown (step i) step bound else []
termination_by (i.rank - leastRank).toNat
decreasing_by
  have h : (step i).rank < i.rank := by simp_all [lt_iff]
  have := (step i).leastRank_le
  omega

/-- The last instant that is reached from `i` by steps up to `bound`. -/
def lastUpTo (i : Instant cal) (step : Instant cal → Instant cal) (bound : Instant cal) :
    Instant cal :=
  if i < step i ∧ step i ≤ bound then lastUpTo (step i) step bound else i
termination_by (greatestRank - i.rank).toNat
decreasing_by
  have h : i.rank < (step i).rank := by simp_all [lt_iff]
  have := (step i).le_greatestRank
  omega

end Instant

namespace DateTicks

variable {cal : Calendar}

/-- The units from one instant to another. Years and months are told by the
calendar, the other units by the time that passes. -/
def delta (t : DateTicks cal) (a b : Instant cal) : Float :=
  let years := b.date.year - a.date.year
  match t.unit with
  | .year => Float.ofInt years
  | .month => Float.ofInt (years * 12 + ((b.date.month : Int) - a.date.month))
  | unit => Float.ofInt (a.millisUntil b) / Float.ofInt unit.millis

/-- The ticks with as many more at either end as it takes to cover a
range. -/
def extend (t : DateTicks cal) (min max : Instant cal) : DateTicks cal :=
  let interval := Float.ofInt t.interval
  let below := t.min.stepsDown (·.addRounded (-interval) t.unit) min
  let above := t.max.stepsUp (·.addRounded interval t.unit) max
  { t with
    min := below.getLastD t.min
    max := above.getLastD t.max
    ticks := below.reverse ++ t.ticks ++ above }

/-- The ticks of the same grid that cover a range, from the last that is not
after its start. An interval that is not positive counts as one. -/
def move (t : DateTicks cal) (min max : Instant cal) : DateTicks cal :=
  let interval := Float.ofInt (Max.max t.interval 1)
  let up := (·.addRounded interval t.unit)
  let down := (·.addRounded (-interval) t.unit)
  let near := t.min.addRounded (floor (t.delta t.min min / interval) * interval) t.unit
  let start := ((near.stepsDown down min).getLastD near).lastUpTo up min
  let rest := start.stepsUp up max
  { t with
    min := start
    max := rest.getLastD start
    ticks := start :: rest }

end DateTicks

end TickLabels
