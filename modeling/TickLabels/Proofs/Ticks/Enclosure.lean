import Mathlib.Algebra.Order.Group.Abs
import Mathlib.Algebra.Order.Ring.Int
import Mathlib.Data.List.Chain
import TickLabels.Proofs.Ticks.Numeric
/-!
# Ticks around a range

Ticks are taken one after the other, from the multiple of the step below a range until one
reaches its end (`NumericTicks.ticksFrom`). As long as the multiples on both sides of the
range are numbers of 64 bits, the ticks enclose the range and no tick could be left out
(`NumericTicks.encloses_cover`).

A range around zero has multiples of every step on both sides of zero, so one interval is
never enough for it. Apart from these ranges there are no more intervals than asked for
(`NumericTicks.length_cover_le_iff`).
-/

namespace TickLabels

namespace NumericTicks

/-! ## Tick by tick -/

/-- The ticks from `tick` on, each a step behind the one before it, until one reaches
`high`. A tick beyond 64 bits is not taken. -/
def ticksFrom (high step tick : ℤ) : List ℤ :=
  if 0 < step ∧ tick < high ∧ tick + step ≤ maxInt64 then
    tick :: ticksFrom high step (tick + step)
  else [tick]
termination_by (high - tick).toNat

section TicksFrom

variable {high step tick : ℤ}

theorem head?_ticksFrom : (ticksFrom high step tick).head? = some tick := by
  unfold ticksFrom
  split <;> rfl

theorem ticksFrom_ne_nil : ticksFrom high step tick ≠ [] := by
  unfold ticksFrom
  split <;> exact List.cons_ne_nil _ _

/-- **Each tick is a step behind the one before it.** -/
theorem isChain_ticksFrom : (ticksFrom high step tick).IsChain fun a b => b - a = step := by
  fun_induction ticksFrom high step tick with
  | case1 tick h ih =>
    rw [List.isChain_cons]
    refine ⟨fun next hnext => ?_, ih⟩
    rw [head?_ticksFrom, Option.mem_some_iff] at hnext
    omega
  | case2 tick h => exact List.isChain_singleton _

/-- **A tick is followed by another one** only before the end of the range. -/
theorem lt_of_mem_dropLast_ticksFrom :
    ∀ a ∈ (ticksFrom high step tick).dropLast, a < high := by
  fun_induction ticksFrom high step tick with
  | case1 tick h ih =>
    rw [List.dropLast_cons_of_ne_nil ticksFrom_ne_nil, List.forall_mem_cons]
    exact ⟨h.2.1, ih⟩
  | case2 tick h => simp

/-- **The last tick reaches the end of the range**, if the multiple of the step behind it
is a number of 64 bits. All ticks are multiples, so none of them is left out. -/
theorem le_getLast_ticksFrom (hstep : 0 < step) (hfit : ceilDiv high step * step ≤ maxInt64)
    (htick : step ∣ tick) : ∀ last ∈ (ticksFrom high step tick).getLast?, high ≤ last := by
  fun_induction ticksFrom high step tick with
  | case1 tick h ih =>
    rw [List.getLast?_cons_of_ne_nil ticksFrom_ne_nil]
    exact ih (Int.dvd_add htick (Int.dvd_refl _))
  | case2 tick h =>
    intro last hlast
    obtain rfl : tick = last := by simpa using hlast
    by_contra hlt
    obtain ⟨q, rfl⟩ := htick
    have hbelow : q < ceilDiv high step := (lt_ceilDiv_iff hstep).2 (by
      rw [mul_comm]
      omega)
    have hnext : (q + 1) * step ≤ ceilDiv high step * step :=
      mul_le_mul_of_nonneg_right hbelow hstep.le
    rw [add_mul, one_mul, mul_comm] at hnext
    exact h ⟨hstep, by omega, by omega⟩

/-! ### All at once -/

theorem stepsUntil_of_lt (hstep : 0 < step) (hlt : tick < high) (hfit : tick + step ≤ maxInt64) :
    stepsUntil tick high step = stepsUntil (tick + step) high step + 1 := by
  have hceil : ceilDiv (high - (tick + step)) step = ceilDiv (high - tick) step - 1 := by
    have hone : ceilDiv (high - tick - 1 * step) step = ceilDiv (high - tick) step - 1 :=
      ceilDiv_sub_mul hstep
    rwa [one_mul, Int.sub_sub] at hone
  have hfloor : (maxInt64 - (tick + step)) / step = (maxInt64 - tick) / step - 1 := by
    rw [← Int.sub_sub, Int.sub_ediv_of_dvd _ dvd_rfl, Int.ediv_self hstep.ne']
  have hceil' : 0 < ceilDiv (high - tick) step := (lt_ceilDiv_iff hstep).2 (by omega)
  have hfloor' : 1 ≤ (maxInt64 - tick) / step := by
    rw [Int.le_ediv_iff_mul_le hstep]
    omega
  unfold stepsUntil
  rw [hceil, hfloor]
  omega

theorem stepsUntil_of_stop (hstep : 0 < step) (h : high ≤ tick ∨ maxInt64 < tick + step) :
    stepsUntil tick high step = 0 := by
  have hnone : min (ceilDiv (high - tick) step) ((maxInt64 - tick) / step) ≤ 0 := by
    rcases h with h | h
    · exact min_le_of_left_le ((ceilDiv_le_iff hstep).2 (by omega))
    · exact min_le_of_right_le (by
        have := (Int.ediv_lt_iff_lt_mul hstep (a := maxInt64 - tick) (b := 1)).2 (by omega)
        omega)
  unfold stepsUntil
  omega

/-- The ticks that are taken one by one are known beforehand. -/
theorem ticksFrom_eq (hstep : 0 < step) : ticksFrom high step tick =
    (List.range (stepsUntil tick high step + 1)).map fun i : ℕ => tick + i * step := by
  fun_induction ticksFrom high step tick with
  | case1 tick h ih =>
    rw [stepsUntil_of_lt hstep h.2.1 h.2.2, List.range_succ_eq_map, List.map_cons, List.map_map, ih]
    congr 1
    · simp
    · refine List.map_congr_left fun i _ => ?_
      rw [Function.comp_apply, Nat.cast_succ, add_mul, one_mul]
      omega
  | case2 tick h =>
    rw [stepsUntil_of_stop hstep (by omega)]
    simp

theorem toList_eq_ticksFrom {low : ℤ} (hstep : 0 < step) : (withStep low high step).toList =
    ticksFrom high step (withStep low high step).first := by
  rw [toList_withStep, ticksFrom_eq hstep]

end TicksFrom

/-! ## Both sides of a range -/

/-- Ticks that enclose a range, none of them without need. -/
structure Encloses (t : NumericTicks) (low high : ℤ) : Prop where
  interval_pos : 0 < t.interval
  first_eq : t.first = t.interval * (low / t.interval)
  first_le : t.first ≤ low
  lt_second : low < t.first + t.interval
  isChain : t.toList.IsChain fun a b => b - a = t.interval
  head?_eq : t.toList.head? = some t.first
  getLast?_eq : t.toList.getLast? = some t.last
  le_last : high ≤ t.last
  /-- Only the last tick is at the end of the range or behind it. -/
  lt_of_mem_dropLast : ∀ tick ∈ t.toList.dropLast, tick < high
  offset_eq : t.offset = t.first - low
  offset_mem : -t.interval < t.offset ∧ t.offset ≤ 0

/-- The multiples of a step on both sides of a range are numbers of 64 bits. -/
def MultiplesFit (low high step : ℤ) : Prop :=
  -maxInt64 - 1 ≤ low / step * step ∧ low / step * step ≤ maxInt64 ∧
    ceilDiv high step * step ≤ maxInt64

variable {low high step : ℤ}

/-- Then the first tick is not moved. -/
theorem MultiplesFit.first_withStep (h : MultiplesFit low high step) :
    (withStep low high step).first = low / step * step := by
  obtain ⟨hlow, hlow', -⟩ := h
  simp only [withStep, clampInt64, maxInt64] at hlow hlow' ⊢
  omega

/-- **Ticks at multiples of a step enclose a range.** -/
theorem encloses_withStep (hstep : 0 < step) (h : MultiplesFit low high step) :
    (withStep low high step).Encloses low high := by
  have hfirst := h.first_withStep
  have hlist : (withStep low high step).toList =
      ticksFrom high step (withStep low high step).first := toList_eq_ticksFrom hstep
  have hfloor := Int.ediv_mul_le low hstep.ne'
  have hfloor' := Int.lt_ediv_add_one_mul_self low hstep
  rw [add_mul, one_mul] at hfloor'
  have hoffset : (withStep low high step).offset = (withStep low high step).first - low := rfl
  have hinterval : (withStep low high step).interval = step := rfl
  have hlast := getLast?_toList (withStep low high step)
  refine ⟨hstep, ?_, ?_, ?_, ?_, rfl, hlast, ?_, ?_, hoffset, ?_⟩
  · rw [hfirst, hinterval, mul_comm]
  · omega
  · omega
  · rw [hlist]
    exact isChain_ticksFrom
  · rw [hlist] at hlast
    exact le_getLast_ticksFrom hstep h.2.2 (hfirst ▸ dvd_mul_left _ _) _ hlast
  · rw [hlist]
    exact lt_of_mem_dropLast_ticksFrom
  · omega

theorem interval_cover_pos (a b : ℤ) (count : ℕ) (steps : List ℤ) :
    0 < (cover a b count steps).interval := by
  rcases chooseStep_cases (min a b) (upper a b) (signedCount (max count 1)) steps with
    ⟨hmem, -⟩ | ⟨hmax, -⟩
  · exact pos_of_mem_stepsTried hmem
  · rw [show (cover a b count steps).interval = maxInt64 from hmax]
    decide

/-- **The ticks enclose the range**, whatever steps are given, and in which order. They are
the ticks taken one by one from the first. The interval is the distance of neighbours, the
first tick is the multiple of it that is next to the range from below, and only the last
tick is not before the end of the range. -/
theorem encloses_cover {a b : ℤ} {count : ℕ} {steps : List ℤ}
    (h : MultiplesFit (min a b) (upper a b) (cover a b count steps).interval) :
    (cover a b count steps).toList =
        ticksFrom (upper a b) (cover a b count steps).interval (cover a b count steps).first ∧
      (cover a b count steps).Encloses (min a b) (upper a b) :=
  ⟨toList_eq_ticksFrom (interval_cover_pos a b count steps),
    encloses_withStep (interval_cover_pos a b count steps) h⟩

/-- A range on both sides of zero, given from its greater end, with steps in disorder. -/
theorem encloses_cover_around_zero :
    MultiplesFit (min 13 (-7)) (upper 13 (-7)) (cover 13 (-7) 5 [10, -3, 0, 4, 2]).interval ∧
      (cover 13 (-7) 5 [10, -3, 0, 4, 2]).toList = [-10, 0, 10, 20] ∧
      (cover 13 (-7) 5 [10, -3, 0, 4, 2]).Encloses (min 13 (-7)) (upper 13 (-7)) := by
  have hfit : MultiplesFit (min 13 (-7)) (upper 13 (-7))
      (cover 13 (-7) 5 [10, -3, 0, 4, 2]).interval := by
    unfold MultiplesFit
    decide
  exact ⟨hfit, by decide, (encloses_cover hfit).2⟩

/-! ## No more intervals than asked for -/

/-- Ranges that are not too far from zero have room for every step. -/
theorem multiplesFit_of_bounds (hstep : 0 < step) (hmax : step ≤ maxInt64)
    (hlow : -(4 * 10 ^ 18) ≤ low) (hlow' : low ≤ 4 * 10 ^ 18) (hhigh : high ≤ 4 * 10 ^ 18 + 1) :
    MultiplesFit low high step := by
  have hfloor := Int.ediv_mul_le low hstep.ne'
  have hceil := (ceilDiv_mul_bounds hstep high).2
  unfold MultiplesFit
  unfold maxInt64 at hmax ⊢
  -- A step beyond the range leads past it at once; a smaller one does not go far behind it.
  refine ⟨?_, by omega, ?_⟩
  · rcases le_total (-step) low with hle | hle
    · have : -1 * step ≤ low / step * step :=
        mul_le_mul_of_nonneg_right ((Int.le_ediv_iff_mul_le hstep).2 (by omega)) hstep.le
      omega
    · have hfloor' := Int.lt_ediv_add_one_mul_self low hstep
      rw [add_mul, one_mul] at hfloor'
      omega
  · rcases le_total high step with hle | hle
    · have : ceilDiv high step * step ≤ 1 * step :=
        mul_le_mul_of_nonneg_right ((ceilDiv_le_iff hstep).2 (by omega)) hstep.le
      omega
    · omega

/-- **Around zero one interval is not enough**, however large the step. -/
theorem two_le_intervalsNeeded (hstep : 0 < step) (hlow : low < 0) (hhigh : 0 < high) :
    2 ≤ intervalsNeeded low high step := by
  have hceil : 0 < ceilDiv high step := (lt_ceilDiv_iff hstep).2 (by omega)
  have hfloor : low / step < 0 := Int.ediv_neg_of_neg_of_pos hlow hstep
  unfold intervalsNeeded
  omega

/-- With the largest step there is no more than one interval on each side of zero. -/
theorem intervalsNeeded_le_two (hstep : 0 < step) (hlow : -step ≤ low) (hhigh : high ≤ step) :
    intervalsNeeded low high step ≤ 2 ∧
      (0 ≤ low ∨ high ≤ 0 → intervalsNeeded low high step ≤ 1) := by
  have hceil : ceilDiv high step ≤ 1 := (ceilDiv_le_iff hstep).2 (by omega)
  have hfloor : -1 ≤ low / step := (Int.le_ediv_iff_mul_le hstep).2 (by omega)
  have hceil' : high ≤ 0 → ceilDiv high step ≤ 0 := fun h => (ceilDiv_le_iff hstep).2 (by omega)
  have hfloor' : 0 ≤ low → 0 ≤ low / step := fun h => Int.ediv_nonneg h hstep.le
  unfold intervalsNeeded
  omega

/-- A range on both sides of zero, for which no more than one interval is asked for. -/
def SplitByZero (a b : ℤ) (count : ℕ) : Prop :=
  min a b < 0 ∧ 0 < max a b ∧ count ≤ 1

variable {a b : ℤ} {steps : List ℤ}

theorem interval_cover_le (hsteps : ∀ step ∈ steps, step ≤ maxInt64) (count : ℕ) :
    (cover a b count steps).interval ≤ maxInt64 := by
  rcases chooseStep_cases (min a b) (upper a b) (signedCount (max count 1)) steps with
    ⟨hmem, -⟩ | ⟨hmax, -⟩
  · rcases mem_stepsTried hmem with hmem | hmem
    · exact hsteps _ hmem
    · have := (decimalSteps_bounds _ hmem).2
      exact this.trans (by decide)
  · exact hmax.le

theorem max_le_upper (ha : a < maxInt64) (b : ℤ) : max a b ≤ upper a b := by
  unfold upper clampInt64
  unfold maxInt64 at ha
  split <;> omega

/-- **The largest step is taken for a range that zero splits.** -/
theorem toList_cover_of_splitByZero {count : ℕ} (h : SplitByZero a b count)
    (hlow : -maxInt64 ≤ min a b) (hhigh : max a b ≤ maxInt64) :
    (cover a b count steps).toList = [-maxInt64, 0, maxInt64] := by
  obtain ⟨hneg, hpos, hcount⟩ := h
  have hupper : upper a b = max a b := if_neg (by omega)
  have hsigned : signedCount (max count 1) = 1 := by
    rw [max_eq_right hcount]
    decide
  have hstep : chooseStep (min a b) (upper a b) (signedCount (max count 1)) steps = maxInt64 := by
    rcases chooseStep_cases (min a b) (upper a b) (signedCount (max count 1)) steps with
      ⟨hmem, hneeded⟩ | ⟨hmax, -⟩
    · have := two_le_intervalsNeeded (pos_of_mem_stepsTried hmem) hneg (hupper ▸ hpos)
      omega
    · exact hmax
  have hcover : cover a b count steps = withStep (min a b) (upper a b) maxInt64 :=
    congrArg (withStep (min a b) (upper a b)) hstep
  have hfirst : (withStep (min a b) (upper a b) maxInt64).first = -maxInt64 := by
    have hfloor : min a b / maxInt64 = -1 := by
      unfold maxInt64 at hlow ⊢
      omega
    simp only [withStep, hfloor]
    decide
  have hmax : 0 < maxInt64 := by decide
  rw [hcover, toList_eq_ticksFrom hmax, hfirst, hupper,
    ticksFrom, if_pos ⟨hmax, by omega, by omega⟩,
    ticksFrom, if_pos ⟨hmax, by omega, by omega⟩, ticksFrom, if_neg (by omega)]
  simp

/-- Widened by one, a single number does not get to the other side of zero. -/
theorem splitByZero_of_upper {count : ℕ} (hneg : min a b < 0) (hpos : 0 < upper a b)
    (hcount : count ≤ 1) : SplitByZero a b count := by
  have hne : a ≠ b := by
    rintro rfl
    simp only [upper, if_pos, clampInt64] at hpos
    omega
  have hupper : upper a b = max a b := if_neg hne
  exact ⟨hneg, hupper ▸ hpos, hcount⟩

/-- **The interval found needs no more than the intervals asked for**, on one side of zero
even if it is the largest. -/
theorem intervalsNeeded_cover_le {count : ℕ} (h : ¬ SplitByZero a b count)
    (hlow : -maxInt64 ≤ min a b) (hhigh : upper a b ≤ maxInt64) :
    intervalsNeeded (min a b) (upper a b) (cover a b count steps).interval ≤ max count 1 := by
  rcases chooseStep_cases (min a b) (upper a b) (signedCount (max count 1)) steps with
    ⟨-, hneeded⟩ | ⟨hlargest, -⟩
  · exact hneeded.trans (signedCount_le _)
  · have hinterval : (cover a b count steps).interval = maxInt64 := hlargest
    obtain ⟨htwo, hone⟩ := intervalsNeeded_le_two (by decide : 0 < maxInt64) hlow hhigh
    rw [hinterval]
    by_cases hside : 0 ≤ min a b ∨ upper a b ≤ 0
    · have := hone hside
      omega
    · have hcount : ¬ count ≤ 1 := fun hcount =>
        h (splitByZero_of_upper (by omega) (by omega) hcount)
      omega

/-- **There are no more intervals than asked for**, and at least one, exactly if zero does
not split a range for which a single one is asked for. The range is covered in any case. -/
theorem length_cover_le_iff (ha : |a| ≤ 4 * 10 ^ 18) (hb : |b| ≤ 4 * 10 ^ 18)
    (hsteps : ∀ step ∈ steps, step ≤ maxInt64) (count : ℕ) :
    let t := cover a b count steps
    t.first ≤ min a b ∧ max a b ≤ t.last ∧
      (t.toList.length ≤ max count 1 + 1 ↔ ¬ SplitByZero a b count) ∧
      (SplitByZero a b count → t.toList = [-maxInt64, 0, maxInt64]) := by
  intro t
  rw [abs_le] at ha hb
  have hroom : maxInt64 = 9223372036854775807 := rfl
  have hupper : upper a b ≤ 4 * 10 ^ 18 + 1 := by
    unfold upper clampInt64
    split <;> omega
  have hpos : 0 < t.interval := interval_cover_pos a b count steps
  have hfit : MultiplesFit (min a b) (upper a b) t.interval :=
    multiplesFit_of_bounds hpos (interval_cover_le hsteps count) (by omega) (by omega) hupper
  have henclosed : t.Encloses (min a b) (upper a b) := encloses_withStep hpos hfit
  have hmax : max a b ≤ upper a b := max_le_upper (by omega) b
  have hsplit : SplitByZero a b count → t.toList = [-maxInt64, 0, maxInt64] := fun h =>
    toList_cover_of_splitByZero h (by omega) (by omega)
  have hlength : (t.toList.length : ℤ) ≤
      max (intervalsNeeded (min a b) (upper a b) t.interval) 0 + 1 :=
    length_withStep_le hpos hfit.first_withStep
  refine ⟨henclosed.first_le, hmax.trans henclosed.le_last, ⟨fun hle h => ?_, fun h => ?_⟩,
    hsplit⟩
  · have : count ≤ 1 := h.2.2
    rw [hsplit h, List.length_cons, List.length_cons, List.length_singleton] at hle
    omega
  · have hneeded : intervalsNeeded (min a b) (upper a b) t.interval ≤ max count 1 :=
      intervalsNeeded_cover_le h (by omega) (by omega)
    omega

/-- A range on both sides of zero in two intervals, as asked for. -/
theorem length_cover_le_two :
    |(-7 : ℤ)| ≤ 4 * 10 ^ 18 ∧ |(3 : ℤ)| ≤ 4 * 10 ^ 18 ∧
      (∀ step ∈ ([1, 2, 5, 10] : List ℤ), step ≤ maxInt64) ∧ ¬ SplitByZero (-7) 3 2 ∧
      (cover (-7) 3 2 [1, 2, 5, 10]).toList = [-10, 0, 10] ∧
      (cover (-7) 3 2 [1, 2, 5, 10]).toList.length ≤ max 2 1 + 1 := by
  have hsteps : ∀ step ∈ ([1, 2, 5, 10] : List ℤ), step ≤ maxInt64 := by decide
  have hsplit : ¬ SplitByZero (-7) 3 2 := by
    unfold SplitByZero
    decide
  refine ⟨by decide, by decide, hsteps, hsplit, by decide, ?_⟩
  exact (length_cover_le_iff (by decide) (by decide) hsteps 2).2.2.1.2 hsplit

/-- **From one below zero to one above it there is no single interval**: the ticks are at
the ends of 64 bits and at zero. -/
theorem not_length_cover_le :
    |(-1 : ℤ)| ≤ 4 * 10 ^ 18 ∧ |(1 : ℤ)| ≤ 4 * 10 ^ 18 ∧
      (∀ step ∈ ([1, 2, 5] : List ℤ), step ≤ maxInt64) ∧
      (cover (-1) 1 1 [1, 2, 5]).toList = [-maxInt64, 0, maxInt64] ∧
      ¬ (cover (-1) 1 1 [1, 2, 5]).toList.length ≤ max 1 1 + 1 := by
  decide

end NumericTicks

end TickLabels
