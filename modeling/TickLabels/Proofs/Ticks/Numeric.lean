import TickLabels.Ticks.Numeric
/-!
# Evenly spaced integers

Numeric ticks are multiples of their step, one step apart
(`NumericTicks.toList_withStep`). As long as they keep away from the ends of the
64 bit integers nothing is cut off: the step is one of those that are tried, the
first tick is the multiple next to the least number, and there are no more
intervals than asked for (`NumericTicks.cover_spec`).
-/

namespace TickLabels

/-! ## Steps -/

theorem mem_stepsTried {steps : List Int} {step : Int} (h : step ∈ stepsTried steps) :
    step ∈ steps ∨ step ∈ decimalSteps := by
  unfold stepsTried at h
  dsimp only at h
  rcases List.mem_append.1 h with h | h
  · exact .inl (List.mem_filter.1 h).1
  · exact .inr (List.mem_filter.1 h).1

theorem decimalSteps_bounds : ∀ step ∈ decimalSteps, 0 < step ∧ step ≤ 5000000000000000000 := by
  decide

/-- All steps that are tried lead forward. -/
theorem pos_of_mem_stepsTried {steps : List Int} {step : Int} (h : step ∈ stepsTried steps) :
    0 < step := by
  unfold stepsTried at h
  dsimp only at h
  rcases List.mem_append.1 h with h | h
  · simpa using (List.mem_filter.1 h).2
  · exact (decimalSteps_bounds step (List.mem_filter.1 h).1).1

/-- **The step is the first with few enough intervals**, or the largest there is. -/
theorem chooseStep_cases (low high maxCount : Int) (steps : List Int) :
    (chooseStep low high maxCount steps ∈ stepsTried steps ∧
        intervalsNeeded low high (chooseStep low high maxCount steps) ≤ maxCount) ∨
      (chooseStep low high maxCount steps = maxInt64 ∧
        ∀ step ∈ stepsTried steps, maxCount < intervalsNeeded low high step) := by
  unfold chooseStep
  cases hfind : (stepsTried steps).find? fun step => intervalsNeeded low high step ≤ maxCount with
  | some step =>
    have hneeded := List.find?_some hfind
    exact .inl ⟨List.mem_of_find?_eq_some hfind, by simpa using hneeded⟩
  | none =>
    rw [List.find?_eq_none] at hfind
    exact .inr ⟨rfl, fun step hstep => by simpa using hfind step hstep⟩

theorem lt_ceilDiv_iff {value step bound : Int} (h : 0 < step) :
    bound < ceilDiv value step ↔ bound * step < value := by
  rw [← Int.not_le, ← Int.not_le, ceilDiv_le_iff h]

/-- Rounding up to a multiple goes up by less than the step. -/
theorem ceilDiv_mul_bounds {step : Int} (h : 0 < step) (value : Int) :
    value ≤ ceilDiv value step * step ∧ ceilDiv value step * step < value + step := by
  have hlow : value ≤ ceilDiv value step * step := (ceilDiv_le_iff h).1 (Int.le_refl _)
  have hhigh : (ceilDiv value step - 1) * step < value := (lt_ceilDiv_iff h).1 (by omega)
  rw [Int.sub_mul] at hhigh
  exact ⟨hlow, by omega⟩

theorem ceilDiv_sub_mul {value step q : Int} (h : 0 < step) :
    ceilDiv (value - q * step) step = ceilDiv value step - q := by
  unfold ceilDiv
  rw [show -(value - q * step) = -value + q * step by omega, Int.add_mul_ediv_right _ _ (by omega)]
  omega

theorem signedCount_le (count : Nat) : signedCount count ≤ count := by
  unfold signedCount
  rw [Int.bmod_def]
  split <;> omega

namespace NumericTicks

/-- **The ticks stand one step apart.** -/
theorem toList_withStep (min max step : Int) :
    (withStep min max step).toList =
      (List.range (stepsUntil (withStep min max step).first max step + 1)).map
        fun i : Nat => (withStep min max step).first + i * step := by
  simp [withStep, toList, List.range_succ_eq_map, List.map_map, Function.comp_def]

/-- The numbers of ticks that are not cut off at the ends of 64 bits. -/
def Inside (t : NumericTicks) : Prop :=
  ∀ n ∈ t.toList, -maxInt64 < n ∧ n < maxInt64

theorem first_mem_toList (t : NumericTicks) : t.first ∈ t.toList :=
  List.mem_cons_self

theorem getLast?_toList (t : NumericTicks) : t.toList.getLast? = some t.last := by
  rw [toList, last, List.getLast?_cons, List.getLastD_eq_getLast?]

theorem last_mem_toList (t : NumericTicks) : t.last ∈ t.toList :=
  List.mem_of_getLast? t.getLast?_toList

/-- The first tick is the multiple next to the least number, and not a bound that
it is moved to. -/
theorem first_withStep {low high step : Int} (h : (withStep low high step).Inside) :
    (withStep low high step).first = low / step * step := by
  have hfirst := h _ (first_mem_toList _)
  simp only [withStep, clampInt64, maxInt64] at hfirst ⊢
  omega

/-- The largest number of 64 bits is no step between ticks that are not cut
off. -/
theorem ne_maxInt64_of_inside {low high step : Int} (hlt : low < high)
    (h : (withStep low high step).Inside) : step ≠ maxInt64 := by
  rintro rfl
  have hfirst := h _ (first_mem_toList _)
  rw [first_withStep h] at hfirst
  have hzero : low / maxInt64 * maxInt64 = 0 := by
    unfold maxInt64 at *
    omega
  have hsteps : stepsUntil 0 high maxInt64 = 1 := by
    unfold maxInt64 at hzero
    have hhigh : 0 * maxInt64 < high := by
      unfold maxInt64
      omega
    have hceil := (lt_ceilDiv_iff (by decide)).2 hhigh
    have hdiv : (maxInt64 - 0) / maxInt64 = 1 := by decide
    unfold stepsUntil
    rw [hdiv, Int.sub_zero]
    omega
  -- One step from zero leads to the end of 64 bits.
  have hmem : maxInt64 ∈ (withStep low high maxInt64).toList := by
    rw [toList_withStep, first_withStep h, hzero, hsteps]
    exact List.mem_map.2 ⟨1, by decide, by decide⟩
  have := h _ hmem
  omega

/-- From the multiple next to the least number on there are no more intervals than are
needed. -/
theorem length_withStep_le {low high step : Int} (hstep : 0 < step)
    (hfirst : (withStep low high step).first = low / step * step) :
    ((withStep low high step).toList.length : Int) ≤ max (intervalsNeeded low high step) 0 + 1 := by
  have hsteps : stepsUntil (low / step * step) high step =
      (min (intervalsNeeded low high step) ((maxInt64 - low / step * step) / step)).toNat := by
    rw [stepsUntil, ceilDiv_sub_mul hstep]
    rfl
  rw [length_withStep, hfirst, hsteps]
  omega

/-- The greatest number of a range, or one more than the only number there is. -/
def upper (a b : Int) : Int :=
  if a = b then clampInt64 (a + 1) else max a b

theorem lower_lt_upper {a : Int} (ha : a < maxInt64) (b : Int) : min a b < upper a b := by
  unfold upper clampInt64
  unfold maxInt64 at ha
  split <;> omega

/-- **Numeric ticks that are not cut off**: the step is one that is tried, the
first tick is a multiple of it next to the least number, and there are at most
as many intervals as asked for. -/
theorem cover_spec {a b : Int} {count : Nat} {steps : List Int} (ha : a < maxInt64)
    (h : (cover a b count steps).Inside) :
    (cover a b count steps).interval ∈ stepsTried steps ∧
      (cover a b count steps).first =
        min a b / (cover a b count steps).interval * (cover a b count steps).interval ∧
      (cover a b count steps).toList.length ≤ max count 1 + 1 := by
  have hcover : cover a b count steps = withStep (min a b) (upper a b)
      (chooseStep (min a b) (upper a b) (signedCount (max count 1)) steps) := rfl
  rw [hcover] at h ⊢
  have hmax := ne_maxInt64_of_inside (lower_lt_upper ha b) h
  have hcount := signedCount_le (max count 1)
  rcases chooseStep_cases (min a b) (upper a b) (signedCount (max count 1)) steps with
    ⟨hmem, hneeded⟩ | ⟨hlargest, -⟩
  · have hlength := length_withStep_le (pos_of_mem_stepsTried hmem) (first_withStep h)
    exact ⟨hmem, first_withStep h, by omega⟩
  · -- Without a step that is large enough the largest number would be taken.
    exact absurd hlargest hmax

/-- The last tick is the multiple of the step next to the greatest number, from
above. -/
theorem last_withStep_eq {low high step : Int} (hstep : 0 < step) (hlt : low < high)
    (hroom : high + step ≤ maxInt64) (h : (withStep low high step).Inside) :
    (withStep low high step).last = ceilDiv high step * step := by
  obtain ⟨hceil, hceil'⟩ := ceilDiv_mul_bounds hstep high
  have hfloor := Int.ediv_mul_le low (Int.ne_of_gt hstep)
  have hsteps : stepsUntil (low / step * step) high step =
      (ceilDiv high step - low / step).toNat := by
    have hfit : ceilDiv high step - low / step ≤ (maxInt64 - low / step * step) / step := by
      rw [Int.le_ediv_iff_mul_le hstep, Int.sub_mul]
      omega
    rw [stepsUntil, ceilDiv_sub_mul hstep, Int.min_eq_left hfit]
  have hnonneg : 0 ≤ ceilDiv high step - low / step := by
    have : low / step < ceilDiv high step := (lt_ceilDiv_iff hstep).2 (by omega)
    omega
  rw [last_withStep, first_withStep h, hsteps, Int.toNat_of_nonneg hnonneg, Int.sub_mul]
  omega

/-- The last of numeric ticks that are not cut off. -/
theorem last_cover {a b : Int} {count : Nat} {steps : List Int} (ha : a < maxInt64)
    (hroom : upper a b + (cover a b count steps).interval ≤ maxInt64)
    (h : (cover a b count steps).Inside) :
    (cover a b count steps).last =
      ceilDiv (upper a b) (cover a b count steps).interval * (cover a b count steps).interval :=
  last_withStep_eq (pos_of_mem_stepsTried (cover_spec ha h).1) (lower_lt_upper ha b) hroom h

end NumericTicks

end TickLabels
