import Mathlib
import TickLabels.Proofs.Binary64.Arithmetic
import TickLabels.Proofs.Ticks.Spacing
import TickLabels.Ticks.Cover
/-!
# The grid of the ticks

The ticks of a range are points of a grid that goes on in both directions, one
interval after the other (`TickRange.point`). As long as the calendar has an instant
for a point, to add an interval to the one before it leads there
(`TickRange.up_point`, `TickRange.down_point`). So a walk interval by interval stays
on the grid, and ends at the first point behind its bound.
-/

namespace TickLabels

variable {cal : Calendar}

namespace Instant

/-- The instants from which `lastUpTo` looks a step ahead. -/
def climb (i : Instant cal) (step : Instant cal → Instant cal) (bound : Instant cal) :
    List (Instant cal) :=
  i :: if i < step i ∧ step i ≤ bound then climb (step i) step bound else []
termination_by (greatestRank - i.rank).toNat
decreasing_by
  have h : i.rank < (step i).rank := by simp_all [lt_iff]
  have := (step i).le_greatestRank
  omega

end Instant

namespace TickRange

variable {r : TickRange cal}

/-! ## Points -/

/-- The number `j` intervals after that of the first tick. -/
def number (r : TickRange cal) (j : Int) : Int :=
  r.numeric.first + j * r.numeric.interval

/-- The point of the grid `j` intervals after the first tick. -/
noncomputable def point (r : TickRange cal) (j : Int) : Instant cal :=
  .ofNanos (r.place (r.number j))

/-- The calendar has an instant for a point. -/
def HasPoint (r : TickRange cal) (j : Int) : Prop :=
  Representable (r.place (r.number j))

/-- `n` points in a row. -/
noncomputable def points (r : TickRange cal) (j : Int) (n : Nat) : List (Instant cal) :=
  (List.range n).map fun k : Nat => r.point (j + k)

theorem number_add (j k : Int) : r.number (j + k) = r.number j + k * r.numeric.interval := by
  unfold number
  rw [Int.add_mul, Int.add_assoc]

theorem place_number_lt (h : r.Unsaturated) {j k : Int} (hlt : j < k) :
    r.place (r.number j) < r.place (r.number k) := by
  refine place_strictMono ?_
  unfold number
  have := Int.mul_lt_mul_of_pos_right hlt (interval_pos h)
  omega

theorem place_number_le (h : r.Unsaturated) {j k : Int} (hle : j ≤ k) :
    r.place (r.number j) ≤ r.place (r.number k) := by
  rcases Int.lt_or_eq_of_le hle with hlt | rfl
  · exact Int.le_of_lt (place_number_lt h hlt)
  · exact Int.le_refl _

/-- **Later points are later instants.** -/
theorem point_lt_iff (h : r.Unsaturated) {j k : Int} (hj : r.HasPoint j) (hk : r.HasPoint k) :
    r.point j < r.point k ↔ j < k := by
  rw [point, point, Instant.ofNanos_lt_ofNanos hj hk]
  refine ⟨fun hlt => Int.not_le.1 fun hle => ?_, place_number_lt h⟩
  have := place_number_le h hle
  omega

/-- The calendar has no gaps. -/
theorem HasPoint.between (h : r.Unsaturated) {i j k : Int} (hi : r.HasPoint i) (hk : r.HasPoint k)
    (hij : i ≤ j) (hjk : j ≤ k) : r.HasPoint j :=
  ⟨Int.le_trans hi.1 (place_number_le h hij), Int.le_trans (place_number_le h hjk) hk.2⟩

theorem points_succ (j : Int) (n : Nat) :
    r.points j (n + 1) = r.point j :: r.points (j + 1) n := by
  unfold points
  rw [List.range_succ_eq_map, List.map_cons, List.map_map]
  congr 1
  · simp
  · refine List.map_congr_left fun k _ => ?_
    simp only [Function.comp_apply, Nat.succ_eq_add_one]
    congr 1
    omega

theorem points_add (j : Int) (m n : Nat) :
    r.points j (m + n) = r.points j m ++ r.points (j + m) n := by
  induction m generalizing j with
  | zero => simp [points]
  | succ m ih =>
    rw [Nat.add_right_comm, points_succ, points_succ, ih, List.cons_append]
    congr 3
    push_cast
    omega

/-! ## Steps from point to point -/

/-- Whether there is an instant so many units away is a question of its place. -/
theorem hasShift_iff {n k : Int} (hn : Representable (r.place n)) :
    (.ofNanos (r.place n) : Instant cal).HasShift k r.unit ↔ Representable (r.place (n + k)) := by
  rcases r.unit_cases with hunit | hunit | hunit
  · rw [place_of_year hunit] at hn ⊢
    rw [place_of_year hunit, Int.add_mul, Instant.representable_monthStart_iff, hunit]
    unfold Instant.HasShift
    rw [Instant.date_monthStart hn, Date.monthIndex_firstOf]
  · rw [place_of_month hunit] at hn ⊢
    rw [place_of_month hunit, ← Int.add_assoc, Instant.representable_monthStart_iff, hunit]
    unfold Instant.HasShift
    rw [Instant.date_monthStart hn, Date.monthIndex_firstOf]
  · rw [Instant.hasShift_of_fixed hunit, Instant.nanos_ofNanos hn.1 hn.2, place_of_fixed hunit,
      place_of_fixed hunit, Int.add_mul, Int.add_assoc]

/-- To add a whole number of intervals is to go to another point. -/
theorem addRounded_point {j k : Int} {amount : Float} (hj : r.HasPoint j)
    (hamount : toInt64 (roundHalfAway amount) = k * r.numeric.interval)
    (hk : r.HasPoint (j + k)) : (r.point j).addRounded amount r.unit = r.point (j + k) := by
  unfold HasPoint at hk
  rw [number_add] at hk
  rw [Instant.addRounded, hamount, point, point, number_add]
  exact shift_place hj hk

theorem hasPoint_of_hasShift {j k : Int} {amount : Float} (hj : r.HasPoint j)
    (hamount : toInt64 (roundHalfAway amount) = k * r.numeric.interval)
    (h : (r.point j).HasShift (toInt64 (roundHalfAway amount)) r.unit) : r.HasPoint (j + k) := by
  rw [hamount] at h
  unfold HasPoint
  rw [number_add]
  exact (hasShift_iff hj).1 h

/-! ## Intervals as doubles -/

/-- The steps beyond the given ones have few binary digits: their powers of ten are
mostly powers of two. -/
theorem exists_pow_dvd_decimalSteps :
    ∀ step ∈ decimalSteps, ∃ p < 19, 2 ^ p ∣ step.toNat ∧ step.toNat / 2 ^ p < 2 ^ 53 := by
  decide +kernel

theorem spacings_lt (unit : TimeUnit) : ∀ step ∈ unit.spacings, step < 2 ^ 53 := by
  cases unit <;> decide

/-- **An interval is exact as a double**, also where not all integers of its size
are. -/
theorem isValue_interval (h : r.Unsaturated) :
    IsValue (Float.ofInt r.numeric.interval).toModel.unpack .positive
      (r.numeric.interval.toNat : ℕ) := by
  obtain ⟨hmem, -, -⟩ := numeric_spec h
  have hpos := interval_pos h
  have hle := interval_le h
  generalize r.numeric.interval = step at *
  obtain ⟨n, rfl⟩ := Int.eq_ofNat_of_zero_le hpos.le
  change IsValue (Float.ofNat n).toModel.unpack _ _
  rw [Int.toNat_natCast]
  have hshort : IsShort n := by
    rcases mem_stepsTried hmem with hgiven | hdecimal
    · exact isShort_natCast (by have := spacings_lt _ _ hgiven; omega)
    · obtain ⟨p, -, hdvd, hlt⟩ := exists_pow_dvd_decimalSteps _ hdecimal
      exact isShort_of_pow_dvd hdvd hlt
  exact (isRounded_ofNat n).isValue hshort (by exact_mod_cast (show n < 2 ^ 64 by omega))

theorem toInt64_interval (h : r.Unsaturated) :
    toInt64 (roundHalfAway (Float.ofInt r.numeric.interval)) = 1 * r.numeric.interval := by
  have hpos := interval_pos h
  have hle := interval_le h
  rw [toInt64_of_isValue (isValue_roundHalfAway (isValue_interval h)), clampInt64_apply (by omega)]
  change ((r.numeric.interval.toNat : ℕ) : ℤ) = _
  omega

theorem toInt64_neg_interval (h : r.Unsaturated) :
    toInt64 (roundHalfAway (-Float.ofInt r.numeric.interval)) = -1 * r.numeric.interval := by
  have hpos := interval_pos h
  have hle := interval_le h
  have hvalue := isValue_neg (isValue_interval h)
  rw [toInt64_of_isValue (isValue_roundHalfAway hvalue), clampInt64_apply (by omega)]
  change -((r.numeric.interval.toNat : ℕ) : ℤ) = _
  omega

/-! ## Walks -/

/-- One interval on. -/
def up (r : TickRange cal) (i : Instant cal) : Instant cal :=
  i.addRounded (Float.ofInt r.numeric.interval) r.unit

/-- One interval back. -/
def down (r : TickRange cal) (i : Instant cal) : Instant cal :=
  i.addRounded (-Float.ofInt r.numeric.interval) r.unit

theorem up_point (h : r.Unsaturated) {j : Int} (hj : r.HasPoint j) (hnext : r.HasPoint (j + 1)) :
    r.up (r.point j) = r.point (j + 1) :=
  addRounded_point hj (toInt64_interval h) hnext

theorem down_point (h : r.Unsaturated) {j : Int} (hj : r.HasPoint j) (hnext : r.HasPoint (j - 1)) :
    r.down (r.point j) = r.point (j - 1) :=
  addRounded_point hj (toInt64_neg_interval h) hnext

/-- **A walk up** ends at the first point that is not before its bound, if there is a
point after each that it meets on the way. -/
theorem stepsUp_point (h : r.Unsaturated) {bound : Instant cal} {j : Int} (hj : r.HasPoint j)
    (hnext : ∀ k, r.HasPoint k → r.point k ∈ r.point j :: (r.point j).stepsUp r.up bound →
      r.point k < bound → r.HasPoint (k + 1)) :
    ∃ n : ℕ, (r.point j).stepsUp r.up bound = r.points (j + 1) n ∧ r.HasPoint (j + n) ∧
      bound ≤ r.point (j + n) := by
  generalize hi : r.point j = i at hnext
  fun_induction Instant.stepsUp i r.up bound generalizing j with
  | case1 i hlt ih =>
    subst hi
    have hnext' := hnext j hj List.mem_cons_self hlt.1
    have hup := up_point h hj hnext'
    obtain ⟨n, hsteps, hpoint, hbound⟩ := ih hnext' hup.symm fun k hk hmem =>
      hnext k hk (List.mem_cons_of_mem _ hmem)
    refine ⟨n + 1, ?_, ?_, ?_⟩
    · rw [hsteps, hup, points_succ]
    · rwa [show j + ((n + 1 : ℕ) : ℤ) = j + 1 + n by push_cast; omega]
    · rwa [show j + ((n + 1 : ℕ) : ℤ) = j + 1 + n by push_cast; omega]
  | case2 i hstop =>
    subst hi
    refine ⟨0, rfl, by simpa using hj, ?_⟩
    simp only [Nat.cast_zero, Int.add_zero]
    refine Std.not_lt.1 fun hlt => hstop ⟨hlt, ?_⟩
    have hnext' := hnext j hj List.mem_cons_self hlt
    rw [up_point h hj hnext', point_lt_iff h hj hnext']
    omega

/-- **A walk down** ends at the first point that is not after its bound. -/
theorem stepsDown_point (h : r.Unsaturated) {bound : Instant cal} {j : Int} (hj : r.HasPoint j)
    (hnext : ∀ k, r.HasPoint k → r.point k ∈ r.point j :: (r.point j).stepsDown r.down bound →
      bound < r.point k → r.HasPoint (k - 1)) :
    ∃ n : ℕ, ((r.point j).stepsDown r.down bound).reverse = r.points (j - n) n ∧
      ((r.point j).stepsDown r.down bound).getLastD (r.point j) = r.point (j - n) ∧
      r.HasPoint (j - n) ∧ r.point (j - n) ≤ bound ∧
      (n = 0 ∨ bound < r.point (j - n + 1)) := by
  generalize hi : r.point j = i at hnext
  fun_induction Instant.stepsDown i r.down bound generalizing j with
  | case1 i hlt ih =>
    subst hi
    have hnext' := hnext j hj List.mem_cons_self hlt.1
    have hdown := down_point h hj hnext'
    obtain ⟨n, hsteps, hlast, hpoint, hbound, hbefore⟩ := ih hnext' hdown.symm fun k hk hmem =>
      hnext k hk (List.mem_cons_of_mem _ hmem)
    have hindex : j - ((n + 1 : ℕ) : ℤ) = j - 1 - n := by push_cast; omega
    refine ⟨n + 1, ?_, ?_, ?_, ?_, .inr ?_⟩
    · have hone : j - 1 - (n : ℤ) + n = j - 1 := by omega
      rw [List.reverse_cons, hsteps, hdown, hindex, points_add, hone]
      simp [points]
    · rw [List.getLastD_cons, hindex, ← hlast]
    · rwa [hindex]
    · rwa [hindex]
    · rw [hindex]
      rcases hbefore with rfl | hbefore
      · simpa using hlt.1
      · exact hbefore
  | case2 i hstop =>
    subst hi
    refine ⟨0, rfl, by simp, by simpa using hj, ?_, .inl rfl⟩
    simp only [Nat.cast_zero, Int.sub_zero]
    refine Std.not_lt.1 fun hlt => hstop ⟨hlt, ?_⟩
    have hnext' := hnext j hj List.mem_cons_self hlt
    rw [down_point h hj hnext', point_lt_iff h hnext' hj]
    omega

/-- **A climb** from a point that is not after its bound ends at the last such
point. -/
theorem lastUpTo_point (h : r.Unsaturated) {bound : Instant cal} {j : Int} (hj : r.HasPoint j)
    (hle : r.point j ≤ bound)
    (hnext : ∀ k, r.HasPoint k → r.point k ∈ (r.point j).climb r.up bound →
      r.HasPoint (k + 1)) :
    ∃ k, (r.point j).lastUpTo r.up bound = r.point k ∧ r.HasPoint k ∧ r.HasPoint (k + 1) ∧
      r.point k ∈ (r.point j).climb r.up bound ∧
      r.point k ≤ bound ∧ bound < r.point (k + 1) := by
  generalize hi : r.point j = i at hnext hle
  fun_induction Instant.lastUpTo i r.up bound generalizing j with
  | case1 i hgo ih =>
    subst hi
    rw [Instant.climb, if_pos hgo] at hnext ⊢
    have hnext' := hnext j hj List.mem_cons_self
    obtain ⟨k, hlast, hk, hk', hmem, hbounds⟩ := ih hnext' (up_point h hj hnext').symm
      (fun k hk hmem => hnext k hk (List.mem_cons_of_mem _ hmem)) hgo.2
    exact ⟨k, hlast, hk, hk', List.mem_cons_of_mem _ hmem, hbounds⟩
  | case2 i hstop =>
    subst hi
    rw [Instant.climb] at hnext ⊢
    have hnext' := hnext j hj List.mem_cons_self
    refine ⟨j, rfl, hj, hnext', List.mem_cons_self, hle, ?_⟩
    have hup := up_point h hj hnext'
    refine Std.not_le.1 fun hle' => hstop ⟨?_, hup ▸ hle'⟩
    rw [hup, point_lt_iff h hj hnext']
    omega

/-! ## Spans -/

/-- Units of fixed length have whole milliseconds. -/
theorem millisUntil_place (hfixed : r.unit.IsFixed) {n k : Int} (hn : Representable (r.place n))
    (hk : Representable (r.place (n + k))) :
    (.ofNanos (r.place n) : Instant cal).millisUntil (.ofNanos (r.place (n + k))) =
      k * r.unit.millis := by
  rw [Instant.millisUntil_ofNanos hn hk, place_of_fixed hfixed, place_of_fixed hfixed]
  have hdiff : r.origin + (n + k) * r.unit.nanos - (r.origin + n * r.unit.nanos) =
      k * r.unit.millis * nanosPerMilli := by
    unfold TimeUnit.nanos
    ring
  rw [hdiff]
  exact Int.mul_tdiv_cancel _ (by decide)

/-- **A short span has few units**, and those of years and months are always few. -/
theorem natAbs_lt_of_span {n k : Int} (hn : Representable (r.place n))
    (hk : Representable (r.place (n + k)))
    (hspan : ((.ofNanos (r.place n) : Instant cal).millisUntil
      (.ofNanos (r.place (n + k)))).natAbs < 2 ^ 53) : k.natAbs < 2 ^ 53 := by
  rcases r.unit_cases with hunit | hunit | hunit
  · rw [place_of_year hunit, Instant.representable_monthStart_iff] at hn hk
    unfold firstYear lastYear at hn hk
    omega
  · rw [place_of_month hunit, Instant.representable_monthStart_iff] at hn hk
    unfold firstYear lastYear at hn hk
    omega
  · rw [millisUntil_place hunit hn hk, Int.natAbs_mul] at hspan
    have hmillis : 1 ≤ r.unit.millis.natAbs := by
      have := r.unit.millis_pos
      omega
    exact Nat.lt_of_le_of_lt (Nat.le_mul_of_pos_right _ hmillis) hspan

theorem millisUntil_point (hfixed : r.unit.IsFixed) {j k : Int} (hj : r.HasPoint j)
    (hk : r.HasPoint (j + k)) :
    (r.point j).millisUntil (r.point (j + k)) = k * r.numeric.interval * r.unit.millis := by
  unfold HasPoint at hk
  unfold point
  rw [number_add] at hk ⊢
  exact millisUntil_place hfixed hj hk

theorem natAbs_lt_of_span_point {j k : Int} (hj : r.HasPoint j) (hk : r.HasPoint (j + k))
    (hspan : ((r.point j).millisUntil (r.point (j + k))).natAbs < 2 ^ 53) :
    (k * r.numeric.interval).natAbs < 2 ^ 53 := by
  unfold HasPoint at hk
  unfold point at hspan
  rw [number_add] at hk hspan
  exact natAbs_lt_of_span hj hk hspan

end TickRange

end TickLabels
