import TickLabels.Proofs.Ticks.Extension
import TickLabels.Proofs.Ticks.Runs
/-!
# Moving ticks

A move lands near the start of the range and corrects this by two loops, one back until the
start is not before it and one ahead as long as the next step is not behind it. A third loop
adds ticks up to the end of the range. Where a move lands is a matter of rounding, but every
landing is corrected: what the loops leave depends on the steps only, and on these it is known
that they lead somewhere else (`Instant.lt_shift_or`, `Instant.shift_lt_or`). So the range is
covered from wherever a move starts, as far as the calendar goes
(`DateTicks.movedTo_move`).
-/

namespace TickLabels

variable {cal : Calendar}

namespace Instant

/-! ## Passes -/

/-- A pass of the loop that goes back to a bound. -/
def passBack (step : Instant cal → Instant cal) (bound i : Instant cal) : Option (Instant cal) :=
  if bound < i ∧ step i < i then some (step i) else none

/-- A pass of the loop that goes ahead, but not beyond a bound. -/
def passAhead (step : Instant cal → Instant cal) (bound i : Instant cal) : Option (Instant cal) :=
  if i < step i ∧ step i ≤ bound then some (step i) else none

variable {step : Instant cal → Instant cal} {bound : Instant cal}

theorem loopsTo_passBack (i : Instant cal) :
    LoopsTo (passBack step bound) i ((i.stepsDown step bound).getLastD i) := by
  fun_induction stepsDown i step bound with
  | case1 i h ih =>
    rw [List.getLastD_cons]
    exact .head (if_pos h) ih
  | case2 i h => exact .refl (if_neg h)

theorem loopsTo_passAhead (i : Instant cal) :
    LoopsTo (passAhead step bound) i (i.lastUpTo step bound) := by
  fun_induction lastUpTo i step bound with
  | case1 i h ih => exact .head (if_pos h) ih
  | case2 i h => exact .refl (if_neg h)

/-- A loop ahead stays at its bound. -/
theorem le_of_loopsTo_passAhead {i j : Instant cal} (h : LoopsTo (passAhead step bound) i j)
    (hi : i ≤ bound) : j ≤ bound := by
  have hpasses : ∀ x y, passAhead step bound x = some y → x ≤ bound → y ≤ bound := by
    intro x y hpass _
    obtain ⟨⟨-, hle⟩, rfl⟩ := Option.ite_some_none_eq_some.1 hpass
    exact hle
  exact h.preserves hpasses hi

/-- **It ends** where the next step is behind its bound, or at the end of the calendar. -/
theorem lt_of_passAhead {i : Instant cal} {n : Int} {unit : TimeUnit} (hn : 0 < n)
    (hstep : ∀ i, step i = i.shift n unit) (h : passAhead step bound i = none) :
    bound < i.shift n unit ∨ i.shift n unit ≤ i ∧ latest ≤ i := by
  have hstops := not_of_ite_eq_none h
  rcases i.lt_shift_or hn unit with hahead | ⟨hshift, hlatest⟩
  · rw [← hstep] at hahead ⊢
    exact .inl (Std.not_le.1 fun hle => hstops ⟨hahead, hle⟩)
  · exact .inr ⟨hshift ▸ hlatest, hlatest⟩

end Instant

namespace DateTicks

variable {t u : DateTicks cal} {min max : Instant cal}

/-! ## Moves -/

/-- The units of a step of a move. -/
def stride (t : DateTicks cal) : Int :=
  Max.max t.interval 1

theorem stride_pos (t : DateTicks cal) : 0 < t.stride :=
  Int.lt_of_lt_of_le Int.one_pos (Int.le_max_right _ _)

theorem natAbs_stride_lt (h : t.interval.natAbs < 2 ^ 53) : t.stride.natAbs < 2 ^ 53 := by
  unfold stride
  omega

theorem forward_eq (h : t.interval.natAbs < 2 ^ 53) (i : Instant cal) :
    t.forward i = i.shift t.stride t.unit :=
  congrArg (i.shift · t.unit) (toInt64_ofInt (natAbs_stride_lt h))

theorem backward_eq (h : t.interval.natAbs < 2 ^ 53) (i : Instant cal) :
    t.backward i = i.shift (-t.stride) t.unit :=
  congrArg (i.shift · t.unit) (toInt64_neg_ofInt (natAbs_stride_lt h))

/-- The ticks with a single one left. -/
def only (t : DateTicks cal) (i : Instant cal) : DateTicks cal :=
  { t with min := i, max := i, ticks := [i] }

theorem ascending_only (t : DateTicks cal) (i : Instant cal) : (t.only i).Ascending where
  pairwise_lt := List.pairwise_singleton _ _
  head?_eq := rfl
  getLast?_eq := rfl

/-- **To move ticks** is to go on from the first one. -/
theorem move_eq_growAbove (t : DateTicks cal) (min max : Instant cal) :
    t.move min max = (t.only (t.start min)).growAbove t.forward max := rfl

theorem exists_extends_move (hinterval : t.interval.natAbs < 2 ^ 53) (min max : Instant cal) :
    ∃ above, Extends (t.only (t.start min)) (t.move min max) t.stride min max [] above := by
  have honly := t.ascending_only (t.start min)
  rw [move_eq_growAbove]
  refine (loopsTo_growAbove t.forward max (t.only (t.start min))).preserves
    (P := fun u => ∃ above, Extends (t.only (t.start min)) u t.stride min max [] above) ?_ ?_
  · rintro x y hpass ⟨above, hx⟩
    exact ⟨_, hx.passAbove honly (forward_eq hinterval) hpass⟩
  · exact ⟨[], .refl honly⟩

/-- What is expected of ticks `t` that are moved to `u`. -/
structure MovedTo (t u : DateTicks cal) (min max : Instant cal) : Prop where
  /-- The loops end, one after the other. -/
  loopsTo : ∃ lowest, LoopsTo (Instant.passBack t.backward min) (t.landing min) lowest ∧
    LoopsTo (Instant.passAhead t.forward min) lowest u.min ∧
    LoopsTo (passAbove t.forward max) (t.only u.min) u
  min_le : u.min ≤ min
  /-- The first tick is the last one that could be so, unless the calendar ends there. -/
  lt_next : min < u.min.shift t.stride t.unit ∨
    u.min.shift t.stride t.unit ≤ u.min ∧ .latest ≤ u.min
  ascending : u.Ascending
  isChain : u.ticks.IsChain fun a b => a.shift t.stride t.unit = b
  /-- Short of the range only where the calendar ends, before the leap second behind it. -/
  le_max : max ≤ u.max ∨ .latest < max ∧ .latest ≤ u.max
  /-- No tick is added behind the first that reaches the end of the range. -/
  lt_max : ∀ i ∈ u.ticks.dropLast, i < max
  unit_eq : u.unit = t.unit
  interval_eq : u.interval = t.interval
  offset_eq : u.offset = t.offset

/-- **Moved ticks** cover the range, as far as the calendar goes, whatever they were
before. -/
theorem movedTo_move (hinterval : t.interval.natAbs < 2 ^ 53) (min max : Instant cal) :
    MovedTo t (t.move min max) min max := by
  have hback : LoopsTo (Instant.passBack t.backward min) (t.landing min) (t.lowest min) :=
    Instant.loopsTo_passBack _
  have hahead : LoopsTo (Instant.passAhead t.forward min) (t.lowest min) (t.start min) :=
    Instant.loopsTo_passAhead _
  have hfill : LoopsTo (passAbove t.forward max) (t.only (t.start min)) (t.move min max) := by
    rw [move_eq_growAbove]
    exact loopsTo_growAbove _ _ _
  have hlowest : t.lowest min ≤ min := by
    have hstops := not_of_ite_eq_none hback.stops
    rw [backward_eq hinterval] at hstops
    exact Instant.le_of_stops_down (Int.neg_neg_of_pos t.stride_pos) hstops
  have hend : max ≤ (t.move min max).max ∨ .latest < max ∧ .latest ≤ (t.move min max).max := by
    have hstops := not_of_ite_eq_none hfill.stops
    rw [forward_eq hinterval] at hstops
    exact Instant.le_or_of_stops_up t.stride_pos hstops
  obtain ⟨above, hextends⟩ := exists_extends_move hinterval min max
  have hticks : (t.move min max).ticks = t.start min :: above := hextends.ticks_eq
  exact {
    loopsTo := ⟨_, hback, hahead, hfill⟩
    min_le := Instant.le_of_loopsTo_passAhead hahead hlowest
    lt_next := Instant.lt_of_passAhead t.stride_pos (forward_eq hinterval) hahead.stops
    ascending := hextends.ascending
    isChain := hticks ▸ hextends.isChain_above
    le_max := hend
    lt_max := hticks ▸ hextends.lt_max
    unit_eq := rfl
    interval_eq := rfl
    offset_eq := rfl }

/-- A move goes back as well, and an interval that is negative counts as one. -/
theorem movedTo_move_halfYear :
    ({ halfYear with interval := -3 }).interval.natAbs < 2 ^ 53 ∧
      MovedTo { halfYear with interval := -3 }
        ({ halfYear with interval := -3 }.move (.ofDate ⟨2019, 11, 15⟩)
          (.ofDate ⟨2020, 2, 1⟩))
        (.ofDate ⟨2019, 11, 15⟩) (.ofDate ⟨2020, 2, 1⟩) := by
  have hinterval : ({ halfYear with interval := -3 }).interval.natAbs < 2 ^ 53 := by decide
  exact ⟨hinterval, movedTo_move hinterval _ _⟩

/-- A bound in the leap second at the end of the calendar is not reached. -/
theorem not_reached_in_last_leap_second :
    ¬ .endOfCalendar 1000000000 ≤
      ((lastTick 999000000 .millisecond 1).move (.endOfCalendar 999000000)
        (.endOfCalendar 1000000000)).max := by
  decide +kernel

end DateTicks

end TickLabels
