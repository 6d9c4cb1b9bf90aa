import Mathlib.Data.List.Chain
import Mathlib.Data.List.Range
import TickLabels.Proofs.Ticks.Axis
/-!
# Evenly spaced ticks

The ticks of a range that the calendar holds are as a reader expects them
(`DateTicks.WellFormed`): in order, an interval apart, and no more than asked for.
This is proved of numbers once, and carried over to all units by their places
(`DateTicks.wellFormed_cover`).
-/

namespace TickLabels

variable {cal : Calendar}

/-- What is not repeated is not dropped. -/
theorem dropRepeats_eq_self {α : Type} [DecidableEq α] {as : List α} (h : as.Nodup) :
    dropRepeats as = as := by
  fun_induction dropRepeats as with
  | case1 => rfl
  | case2 a => rfl
  | case3 a as ih => simp at h
  | case4 a b as hne ih => rw [ih (List.nodup_cons.1 h).2]

/-! ## Steps as doubles -/

theorem toInt64_decimalSteps :
    ∀ step ∈ decimalSteps, toInt64 (roundHalfAway (Float.ofInt step)) = step := by
  decide +kernel

theorem toInt64_spacings (unit : TimeUnit) :
    ∀ step ∈ unit.spacings, toInt64 (roundHalfAway (Float.ofInt step)) = step := by
  cases unit <;> decide +kernel

/-- **A step is not changed by rounding**: the doubles hold it exactly, also where
they do not hold all numbers of its size. -/
theorem addRounded_step {unit : TimeUnit} {step : Int} (h : step ∈ stepsTried unit.spacings)
    (i : Instant cal) : i.addRounded (Float.ofInt step) unit = i.shift step unit := by
  have hstep : toInt64 (roundHalfAway (Float.ofInt step)) = step := by
    rcases mem_stepsTried h with h | h
    · exact toInt64_spacings unit step h
    · exact toInt64_decimalSteps step h
  rw [Instant.addRounded, hstep]

/-! ## Numbers in a row -/

namespace NumericTicks

variable {min max step : Int}

/-- The numbers grow. -/
theorem pairwise_withStep (h : 0 < step) : (withStep min max step).toList.Pairwise (· < ·) := by
  rw [toList_withStep, List.pairwise_map]
  refine List.pairwise_lt_range.imp fun {m n} hlt => ?_
  have := Int.mul_lt_mul_of_pos_right (Int.ofNat_lt.2 hlt) h
  exact Int.add_lt_add_left this _

/-- And each is a step away from the one before it. -/
theorem isChain_withStep : (withStep min max step).toList.IsChain fun m n => n = m + step := by
  rw [toList_withStep, List.isChain_map, List.isChain_range_succ]
  intro i _
  push_cast
  rw [Int.add_mul, Int.one_mul, Int.add_assoc]

end NumericTicks

/-! ## Instants in a row -/

namespace DateTicks

/-- Ticks as a reader expects them. -/
structure WellFormed (t : DateTicks cal) (count : Nat) : Prop where
  ne_nil : t.ticks ≠ []
  /-- Every tick is later than those before it. -/
  pairwise_lt : t.ticks.Pairwise (· < ·)
  head?_eq : t.ticks.head? = some t.min
  getLast?_eq : t.ticks.getLast? = some t.max
  one_le_interval : 1 ≤ t.interval
  /-- The next tick is an interval away. -/
  isChain_addRounded :
    t.ticks.IsChain fun a b => b = a.addRounded (Float.ofInt t.interval) t.unit
  /-- There are at most so many intervals, one less than there are ticks. -/
  length_le : t.ticks.length ≤ Max.max count 1 + 1

end DateTicks

namespace TickRange

variable {r : TickRange cal}

theorem spacings_le (unit : TimeUnit) : ∀ step ∈ unit.spacings, step ≤ 5000000000000000000 := by
  cases unit <;> decide

theorem interval_le (h : r.Unsaturated) : r.numeric.interval ≤ 5000000000000000000 := by
  rcases mem_stepsTried (numeric_spec h).1 with hgiven | hdecimal
  · exact spacings_le _ _ hgiven
  · exact (decimalSteps_bounds _ hdecimal).2

theorem pairwise_numeric (h : r.Unsaturated) : r.numeric.toList.Pairwise (· < ·) :=
  NumericTicks.pairwise_withStep (interval_pos h)

/-- The instants of the ticks are in the order of their numbers. -/
theorem pairwise_places (h : r.Unsaturated) :
    (r.numeric.toList.map fun n => (.ofNanos (r.place n) : Instant cal)).Pairwise (· < ·) := by
  rw [List.pairwise_map]
  -- Instants beyond the calendar would fall together, so membership is needed.
  refine (pairwise_numeric h).imp_of_mem fun {m n} hm hn hlt => ?_
  exact (Instant.ofNanos_lt_ofNanos (h m hm) (h n hn)).2 (place_strictMono hlt)

/-- No tick falls together with the one before it, so each number has its tick. -/
theorem ticks_ticks (h : r.Unsaturated) :
    r.ticks.ticks = r.numeric.toList.map fun n => Instant.ofNanos (r.place n) := by
  have hnodup : (r.numeric.toList.map fun n => (.ofNanos (r.place n) : Instant cal)).Nodup :=
    (pairwise_places h).imp fun hlt heq => by
      subst heq
      exact absurd hlt Std.lt_irrefl
  rw [ticks_eq h]
  exact dropRepeats_eq_self hnodup

theorem head?_ticks (h : r.Unsaturated) :
    r.ticks.ticks.head? = some (.ofNanos (r.place r.numeric.first)) := by
  rw [ticks_ticks h]
  rfl

theorem getLast?_ticks (h : r.Unsaturated) :
    r.ticks.ticks.getLast? = some (.ofNanos (r.place r.numeric.last)) := by
  rw [ticks_ticks h, List.getLast?_map, NumericTicks.getLast?_toList]
  rfl

/-- **The next tick is an interval away.** -/
theorem isChain_ticks (h : r.Unsaturated) :
    r.ticks.ticks.IsChain fun a b => b = a.addRounded (Float.ofInt r.ticks.interval) r.unit := by
  obtain ⟨hmem, -, -⟩ := numeric_spec h
  have hinterval : r.ticks.interval = r.numeric.interval := rfl
  have hchain : r.numeric.toList.IsChain fun m n => n = m + r.numeric.interval :=
    NumericTicks.isChain_withStep
  rw [ticks_ticks h, hinterval, List.isChain_map]
  refine List.IsChain.imp_of_mem_imp (fun m n hm hn hstep => ?_) hchain
  subst hstep
  rw [addRounded_step hmem]
  exact (shift_place (h m hm) (h _ hn)).symm

/-- **The ticks of a range** are well formed, if the calendar has them all. -/
theorem wellFormed_ticks (h : r.Unsaturated) : r.ticks.WellFormed r.count := by
  obtain ⟨-, -, hlength⟩ := numeric_spec h
  have hticks := ticks_ticks h
  have hne : r.ticks.ticks ≠ [] := by
    rw [hticks]
    simp [NumericTicks.toList]
  obtain ⟨tick, ticks, hcons⟩ := List.exists_cons_of_ne_nil hne
  refine ⟨hne, ?_, ?_, ?_, interval_pos h, isChain_ticks h, ?_⟩
  · rw [hticks]
    exact pairwise_places h
  · change r.ticks.ticks.head? = some (r.ticks.ticks.headD _)
    rw [hcons]
    rfl
  · change r.ticks.ticks.getLast? = some (r.ticks.ticks.getLastD _)
    rw [hcons, List.getLastD_eq_getLast?, List.getLast?_cons]
    rfl
  · rw [hticks, List.length_map]
    exact hlength

end TickRange

/-- **The ticks between two instants are well formed**, whatever the unit, the
count and the first day of the week, if the calendar has an instant for each of
them. -/
theorem DateTicks.wellFormed_cover {a b : Instant cal} {count : Nat} {unit? : Option TimeUnit}
    {firstDay : Weekday} (h : (TickRange.between a b count unit? firstDay).Unsaturated) :
    (cover a b count unit? firstDay).WellFormed count := by
  rw [TickRange.cover_eq_ticks]
  exact TickRange.wellFormed_ticks h

/-- Quarters, from the first days of 2020 to those of 2021. -/
theorem DateTicks.wellFormed_cover_quarters :
    (TickRange.between (.ofDate ⟨2020, 1, 31⟩) (.ofDate ⟨2021, 3, 15⟩) 5 (some .month)
        .monday).Unsaturated ∧
      (cover (.ofDate ⟨2020, 1, 31⟩) (.ofDate ⟨2021, 3, 15⟩) 5 (some .month)
        .monday).WellFormed 5 := by
  have hunsaturated : (TickRange.between (.ofDate ⟨2020, 1, 31⟩) (.ofDate ⟨2021, 3, 15⟩) 5
      (some .month) .monday).Unsaturated := by
    unfold TickRange.Unsaturated
    decide +kernel
  exact ⟨hunsaturated, wellFormed_cover hunsaturated⟩

end TickLabels
