import Mathlib.Order.Bounds.Basic
import TickLabels.Proofs.Ticks.Enclosure
/-!
# The least step that fits

The steps of a range are tried in ascending order, so that the first one that fits is
the least. Here the steps are told apart from the order in which they are tried
(`IsCandidate`), and so is what it means that one fits (`CoversWithin`): the interval of
the ticks is the least candidate that covers the range with the intervals asked for
(`NumericTicks.isLeast_interval_cover`).

So more intervals never lead to a greater step, unless so many are asked for that their
number is read as a negative one (`NumericTicks.interval_cover_le_iff`).
-/

namespace TickLabels

/-! ## Candidates -/

/-- `1`, `2` or `5` times a power of ten. -/
def IsDecimalStep (step : ℤ) : Prop :=
  ∃ power : ℕ, step = 10 ^ power ∨ step = 2 * 10 ^ power ∨ step = 5 * 10 ^ power

/-- A step that may be taken: a given one, or a decimal one beyond all that are given. -/
def IsCandidate (steps : List ℤ) (step : ℤ) : Prop :=
  step ∈ steps ∨ IsDecimalStep step ∧ ∀ given ∈ steps, given < step

/-- **All decimal steps of 64 bits are known.** -/
theorem mem_decimalSteps_iff {step : ℤ} :
    step ∈ decimalSteps ↔ IsDecimalStep step ∧ step ≤ maxInt64 := by
  constructor
  · intro h
    refine ⟨?_, (decimalSteps_bounds step h).2.trans (by decide)⟩
    obtain ⟨power, -, h⟩ := List.mem_flatMap.1 h
    refine ⟨power, ?_⟩
    simp only [List.map_cons, List.map_nil, List.mem_cons, List.not_mem_nil, or_false,
      Nat.pow_eq, Nat.cast_mul, Nat.cast_pow, Nat.cast_ofNat, Nat.cast_one, one_mul] at h
    exact h
  · rintro ⟨⟨power, h⟩, hle⟩
    have hpower : power < 19 := by
      by_contra hge
      have : (10 : ℤ) ^ 19 ≤ 10 ^ power := pow_le_pow_right₀ (by decide) (by omega)
      unfold maxInt64 at hle
      omega
    refine List.mem_flatMap.2 ⟨power, List.mem_range.2 hpower, ?_⟩
    simp only [List.map_cons, List.map_nil, List.mem_cons, List.not_mem_nil, or_false,
      Nat.pow_eq, Nat.cast_mul, Nat.cast_pow, Nat.cast_ofNat, Nat.cast_one, one_mul]
    exact h

theorem foldl_max_lt_iff {steps : List ℤ} {start bound : ℤ} :
    steps.foldl max start < bound ↔ start < bound ∧ ∀ step ∈ steps, step < bound := by
  induction steps generalizing start with
  | nil => simp
  | cons step steps ih => rw [List.foldl_cons, ih, max_lt_iff, List.forall_mem_cons, and_assoc]

variable {steps : List ℤ}

/-- **The steps that are tried** are the candidates of 64 bits. -/
theorem mem_stepsTried_iff (hpos : ∀ step ∈ steps, 0 < step) {step : ℤ} :
    step ∈ stepsTried steps ↔
      step ∈ steps ∨ step ∈ decimalSteps ∧ ∀ given ∈ steps, given < step := by
  have hgiven : steps.filter (0 < ·) = steps :=
    List.filter_eq_self.2 fun step hstep => decide_eq_true (hpos step hstep)
  unfold stepsTried
  dsimp only
  rw [hgiven, List.mem_append, List.mem_filter, decide_eq_true_eq, foldl_max_lt_iff]
  refine or_congr_right (and_congr_right fun hstep => ?_)
  exact and_iff_right (decimalSteps_bounds step hstep).1

theorem isCandidate_of_mem_stepsTried (hpos : ∀ step ∈ steps, 0 < step) {step : ℤ}
    (h : step ∈ stepsTried steps) : IsCandidate steps step := by
  rcases (mem_stepsTried_iff hpos).1 h with h | ⟨h, hbeyond⟩
  · exact .inl h
  · exact .inr ⟨(mem_decimalSteps_iff.1 h).1, hbeyond⟩

theorem IsCandidate.mem_stepsTried (hpos : ∀ step ∈ steps, 0 < step) {step : ℤ}
    (h : IsCandidate steps step) (hle : step ≤ maxInt64) : step ∈ stepsTried steps := by
  rw [mem_stepsTried_iff hpos]
  exact h.imp_right fun ⟨hdecimal, hbeyond⟩ => ⟨mem_decimalSteps_iff.2 ⟨hdecimal, hle⟩, hbeyond⟩

/-- A candidate beyond 64 bits is tried as well, or greater than all that are. -/
theorem IsCandidate.mem_stepsTried_or_lt (hpos : ∀ step ∈ steps, 0 < step) {step : ℤ}
    (h : IsCandidate steps step) :
    step ∈ stepsTried steps ∨ ∀ tried ∈ stepsTried steps, tried < step := by
  rcases le_or_gt step maxInt64 with hle | hlt
  · exact .inl (h.mem_stepsTried hpos hle)
  · rcases h with hgiven | ⟨-, hbeyond⟩
    · exact .inl ((mem_stepsTried_iff hpos).2 (.inl hgiven))
    · refine .inr fun tried htried => ?_
      rcases (mem_stepsTried_iff hpos).1 htried with htried | ⟨htried, -⟩
      · exact hbeyond tried htried
      · exact (mem_decimalSteps_iff.1 htried).2.trans_lt hlt

/-- **Steps are tried in ascending order** if they are given so. -/
theorem pairwise_stepsTried (h : steps.Pairwise (· ≤ ·)) :
    (stepsTried steps).Pairwise (· ≤ ·) := by
  have hdecimal : decimalSteps.Pairwise (· ≤ ·) := by decide
  unfold stepsTried
  dsimp only
  rw [List.pairwise_append]
  refine ⟨h.filter _, hdecimal.filter _, fun given hgiven step hstep => ?_⟩
  have hbeyond := of_decide_eq_true (List.mem_filter.1 hstep).2
  exact ((foldl_max_lt_iff.1 hbeyond).2 given hgiven).le

/-- There is no end to the steps that are tried before the ranges end. -/
theorem exists_large_stepsTried (hpos : ∀ step ∈ steps, 0 < step) :
    ∃ step ∈ stepsTried steps, 5 * 10 ^ 18 ≤ step := by
  by_cases h : ∀ given ∈ steps, given < 5 * 10 ^ 18
  · exact ⟨5 * 10 ^ 18, (mem_stepsTried_iff hpos).2 (.inr ⟨by decide, h⟩), le_rfl⟩
  · push Not at h
    obtain ⟨given, hgiven, hlarge⟩ := h
    exact ⟨given, (mem_stepsTried_iff hpos).2 (.inl hgiven), hlarge⟩

/-! ## The first that fits -/

/-- Aligned ticks cover a range with so many intervals: there are multiples of the step on
both sides of it that are not further apart. -/
def CoversWithin (low high step count : ℤ) : Prop :=
  ∃ p q : ℤ, p * step ≤ low ∧ high ≤ q * step ∧ q - p ≤ count

/-- **The intervals needed** are the least with which a range can be covered. -/
theorem coversWithin_iff {low high step count : ℤ} (hstep : 0 < step) :
    CoversWithin low high step count ↔ intervalsNeeded low high step ≤ count := by
  unfold intervalsNeeded
  constructor
  · rintro ⟨p, q, hlow, hhigh, hcount⟩
    have hp : p ≤ low / step := (Int.le_ediv_iff_mul_le hstep).2 hlow
    have hq : ceilDiv high step ≤ q := (ceilDiv_le_iff hstep).2 hhigh
    omega
  · intro hcount
    exact ⟨low / step, ceilDiv high step, Int.ediv_mul_le low hstep.ne',
      (ceilDiv_mul_bounds hstep high).1, hcount⟩

/-- The first member of an ascending list with a property is the least with it. -/
theorem isLeast_of_find? {l : List ℤ} {p : ℤ → Bool} {n : ℤ} (hsorted : l.Pairwise (· ≤ ·))
    (h : l.find? p = some n) : IsLeast {m | m ∈ l ∧ p m = true} n := by
  obtain ⟨hp, before, behind, rfl, hbefore⟩ := List.find?_eq_some_iff_append.1 h
  refine ⟨⟨List.mem_append_right _ List.mem_cons_self, hp⟩, fun m ⟨hm, hpm⟩ => ?_⟩
  rcases List.mem_append.1 hm with hm | hm
  · -- Members before it lack the property.
    have := hbefore m hm
    simp [hpm] at this
  · rcases List.mem_cons.1 hm with rfl | hm
    · exact le_rfl
    · exact List.rel_of_pairwise_cons (List.pairwise_append.1 hsorted).2.1 hm

variable {low high maxCount : ℤ}

/-- **The step is found if one fits**, and is the least candidate that does. -/
theorem isLeast_chooseStep (hsorted : steps.Pairwise (· ≤ ·)) (hpos : ∀ step ∈ steps, 0 < step)
    (h : ∃ step ∈ stepsTried steps, intervalsNeeded low high step ≤ maxCount) :
    (stepsTried steps).find? (intervalsNeeded low high · ≤ maxCount) =
        some (chooseStep low high maxCount steps) ∧
      IsLeast {step | IsCandidate steps step ∧ CoversWithin low high step maxCount}
        (chooseStep low high maxCount steps) := by
  obtain ⟨fitting, hfitting, hneeded⟩ := h
  have hsome : ((stepsTried steps).find? (intervalsNeeded low high · ≤ maxCount)).isSome :=
    List.find?_isSome.2 ⟨fitting, hfitting, decide_eq_true hneeded⟩
  obtain ⟨step, hstep⟩ := Option.isSome_iff_exists.1 hsome
  have hchosen : chooseStep low high maxCount steps = step := by
    rw [chooseStep, hstep, Option.getD_some]
  rw [hchosen]
  obtain ⟨⟨hmem, hfits⟩, hleast⟩ := isLeast_of_find? (pairwise_stepsTried hsorted) hstep
  have hcovers := (coversWithin_iff (pos_of_mem_stepsTried hmem)).2 (of_decide_eq_true hfits)
  refine ⟨hstep, ⟨isCandidate_of_mem_stepsTried hpos hmem, hcovers⟩, ?_⟩
  rintro other ⟨hother, hcovers⟩
  rcases hother.mem_stepsTried_or_lt hpos with htried | hbeyond
  · refine hleast ⟨htried, decide_eq_true ?_⟩
    exact (coversWithin_iff (pos_of_mem_stepsTried htried)).1 hcovers
  · exact (hbeyond step hmem).le

/-- Every range of positive length needs an interval. -/
theorem intervalsNeeded_pos {step : ℤ} (hstep : 0 < step) (hlt : low < high) :
    0 < intervalsNeeded low high step := by
  have hfloor := Int.ediv_mul_le low hstep.ne'
  have hceil : low / step < ceilDiv high step := (lt_ceilDiv_iff hstep).2 (by omega)
  unfold intervalsNeeded
  omega

/-! ## The step of a range -/

theorem signedCount_of_le {count : ℕ} (h : (count : ℤ) ≤ maxInt64) :
    signedCount count = count := by
  unfold maxInt64 at h
  unfold signedCount
  rw [Int.bmod_def]
  split <;> omega

/-- Beyond 63 bits a count is read as a negative number. -/
theorem signedCount_neg {count : ℕ} (h : maxInt64 < count) (h' : count < 2 ^ 64) :
    signedCount count < 0 := by
  unfold maxInt64 at h
  unfold signedCount
  rw [Int.bmod_def]
  split <;> omega

namespace NumericTicks

variable {a b : ℤ}

/-- **A step fits** a range that zero does not split, and also one that it splits if more
than one interval is asked for. -/
theorem exists_fit (ha : |a| ≤ 4 * 10 ^ 18) (hb : |b| ≤ 4 * 10 ^ 18)
    (hpos : ∀ step ∈ steps, 0 < step) {count : ℕ} (h : ¬ SplitByZero a b count) :
    ∃ step ∈ stepsTried steps,
      intervalsNeeded (min a b) (upper a b) step ≤ (max count 1 : ℕ) := by
  obtain ⟨step, hmem, hlarge⟩ := exists_large_stepsTried hpos
  rw [abs_le] at ha hb
  have hhigh : upper a b ≤ 5 * 10 ^ 18 := by
    unfold upper clampInt64
    split <;> omega
  obtain ⟨htwo, hone⟩ := intervalsNeeded_le_two (pos_of_mem_stepsTried hmem)
    (show -step ≤ min a b by omega) (hhigh.trans hlarge)
  refine ⟨step, hmem, ?_⟩
  -- A step as long as the range needs two intervals only if zero lies inside.
  by_cases hside : 0 ≤ min a b ∨ upper a b ≤ 0
  · have := hone hside
    omega
  · have hcount : ¬ count ≤ 1 := fun hcount =>
      h (splitByZero_of_upper (by omega) (by omega) hcount)
    omega

/-- **The interval is the least step that fits**: a given one, or a decimal one beyond all
that are given. It is found among the steps that are tried, so the largest number of
64 bits does not have to stand in for it. -/
theorem isLeast_interval_cover (ha : |a| ≤ 4 * 10 ^ 18) (hb : |b| ≤ 4 * 10 ^ 18)
    (hsorted : steps.Pairwise (· ≤ ·)) (hpos : ∀ step ∈ steps, 0 < step) {count : ℕ}
    (hcount : (count : ℤ) ≤ maxInt64) (h : ¬ SplitByZero a b count) :
    (stepsTried steps).find? (intervalsNeeded (min a b) (upper a b) · ≤ (max count 1 : ℕ)) =
        some (cover a b count steps).interval ∧
      IsLeast {step | IsCandidate steps step ∧
        CoversWithin (min a b) (upper a b) step (max count 1 : ℕ)}
        (cover a b count steps).interval := by
  have hsigned : signedCount (max count 1) = (max count 1 : ℕ) :=
    signedCount_of_le (by unfold maxInt64 at *; omega)
  have hleast := isLeast_chooseStep hsorted hpos (exists_fit ha hb hpos h)
  rw [← hsigned] at hleast ⊢
  exact hleast

/-- Beyond the steps that are given the decimal ones are tried, from the least on. -/
theorem isLeast_interval_cover_ten :
    |(-7 : ℤ)| ≤ 4 * 10 ^ 18 ∧ |(3 : ℤ)| ≤ 4 * 10 ^ 18 ∧
      ([1, 2, 5] : List ℤ).Pairwise (· ≤ ·) ∧ (∀ step ∈ ([1, 2, 5] : List ℤ), 0 < step) ∧
      ((2 : ℕ) : ℤ) ≤ maxInt64 ∧ ¬ SplitByZero (-7) 3 2 ∧
      (cover (-7) 3 2 [1, 2, 5]).interval = 10 ∧
      (stepsTried [1, 2, 5]).find? (intervalsNeeded (min (-7) 3) (upper (-7) 3) · ≤
        (max 2 1 : ℕ)) = some (cover (-7) 3 2 [1, 2, 5]).interval ∧
      IsLeast {step | IsCandidate [1, 2, 5] step ∧
        CoversWithin (min (-7) 3) (upper (-7) 3) step (max 2 1 : ℕ)}
        (cover (-7) 3 2 [1, 2, 5]).interval := by
  have hsplit : ¬ SplitByZero (-7) 3 2 := by
    unfold SplitByZero
    decide
  refine ⟨by decide, by decide, by decide, by decide, by decide, hsplit, by decide, ?_⟩
  exact isLeast_interval_cover (by decide) (by decide) (by decide) (by decide) (by decide) hsplit

/-! ## Other counts -/

/-- The greater of two counts is read as a negative number, so that no step fits it, while
one below the largest fits the lesser count. -/
def Overshoots (a b : ℤ) (steps : List ℤ) (count greater : ℕ) : Prop :=
  (count : ℤ) ≤ maxInt64 ∧ maxInt64 < (greater : ℤ) ∧
    ∃ step < maxInt64, IsCandidate steps step ∧
      CoversWithin (min a b) (upper a b) step (max count 1 : ℕ)

/-- A count that is read as a negative number leads to the largest step. -/
theorem interval_cover_of_lt (ha : a < maxInt64) {count : ℕ} (h : maxInt64 < (count : ℤ))
    (h' : count < 2 ^ 64) : (cover a b count steps).interval = maxInt64 := by
  have hneg : signedCount (max count 1) < 0 :=
    signedCount_neg (by unfold maxInt64 at *; omega) (by omega)
  rcases chooseStep_cases (min a b) (upper a b) (signedCount (max count 1)) steps with
    ⟨hmem, hneeded⟩ | ⟨hlargest, -⟩
  · have := intervalsNeeded_pos (pos_of_mem_stepsTried hmem) (lower_lt_upper ha b)
    omega
  · exact hlargest

/-- A count that is read as it is leads to no greater step than one that fits it. -/
theorem interval_cover_le_of_fit (hsorted : steps.Pairwise (· ≤ ·))
    (hpos : ∀ step ∈ steps, 0 < step) {count : ℕ} (hcount : (count : ℤ) ≤ maxInt64) {step : ℤ}
    (hmem : step ∈ stepsTried steps)
    (hneeded : intervalsNeeded (min a b) (upper a b) step ≤ (max count 1 : ℕ)) :
    (cover a b count steps).interval ≤ step := by
  have hsigned : signedCount (max count 1) = (max count 1 : ℕ) :=
    signedCount_of_le (by unfold maxInt64 at *; omega)
  rw [← hsigned] at hneeded
  refine (isLeast_chooseStep hsorted hpos ⟨step, hmem, hneeded⟩).2.2 ?_
  exact ⟨isCandidate_of_mem_stepsTried hpos hmem,
    (coversWithin_iff (pos_of_mem_stepsTried hmem)).2 hneeded⟩

/-- Below the largest step it leads to one that fits. -/
theorem fits_interval_cover {count : ℕ} (h : (cover a b count steps).interval < maxInt64) :
    (cover a b count steps).interval ∈ stepsTried steps ∧
      intervalsNeeded (min a b) (upper a b) (cover a b count steps).interval ≤
        (max count 1 : ℕ) := by
  rcases chooseStep_cases (min a b) (upper a b) (signedCount (max count 1)) steps with
    ⟨hmem, hneeded⟩ | ⟨hlargest, -⟩
  · exact ⟨hmem, hneeded.trans (signedCount_le _)⟩
  · exact absurd hlargest h.ne

/-- **A greater count does not lead to a greater step** exactly if it is not read as a
negative number where a step below the largest fits the lesser count. -/
theorem interval_cover_le_iff (ha : a < maxInt64) (hsorted : steps.Pairwise (· ≤ ·))
    (hpos : ∀ step ∈ steps, 0 < step) (hmax : ∀ step ∈ steps, step ≤ maxInt64)
    {count greater : ℕ} (hle : count ≤ greater) (hgreater : greater < 2 ^ 64) :
    (cover a b greater steps).interval ≤ (cover a b count steps).interval ↔
      ¬ Overshoots a b steps count greater := by
  have hlargest := interval_cover_le hmax (a := a) (b := b) count
  by_cases hfits : (greater : ℤ) ≤ maxInt64
  · refine iff_of_true ?_ fun h => absurd h.2.1 (not_lt.2 hfits)
    rcases hlargest.eq_or_lt with heq | hlt
    · rw [heq]
      exact interval_cover_le hmax greater
    · -- What fits the lesser count fits the greater one.
      obtain ⟨hmem, hneeded⟩ := fits_interval_cover hlt
      exact interval_cover_le_of_fit hsorted hpos hfits hmem (hneeded.trans (by omega))
  · rw [interval_cover_of_lt ha (not_le.1 hfits) hgreater]
    constructor
    · rintro hmaximal ⟨hcount, -, step, hstep, hcandidate, hcovers⟩
      have hmem := hcandidate.mem_stepsTried hpos hstep.le
      have hneeded := (coversWithin_iff (pos_of_mem_stepsTried hmem)).1 hcovers
      have := interval_cover_le_of_fit hsorted hpos hcount hmem hneeded
      omega
    · intro h
      by_contra hlt
      rw [not_le] at hlt
      obtain ⟨hmem, hneeded⟩ := fits_interval_cover hlt
      refine h ⟨?_, not_le.1 hfits, _, hlt, isCandidate_of_mem_stepsTried hpos hmem,
        (coversWithin_iff (pos_of_mem_stepsTried hmem)).2 hneeded⟩
      by_contra hcount
      have hmaximal : (cover a b count steps).interval = maxInt64 :=
        interval_cover_of_lt ha (not_le.1 hcount) (by omega)
      omega

/-- Twice the intervals, half the step. -/
theorem interval_cover_le_ten :
    (0 : ℤ) < maxInt64 ∧ ([1, 2, 5] : List ℤ).Pairwise (· ≤ ·) ∧
      (∀ step ∈ ([1, 2, 5] : List ℤ), 0 < step) ∧
      (∀ step ∈ ([1, 2, 5] : List ℤ), step ≤ maxInt64) ∧ 5 ≤ 10 ∧ 10 < 2 ^ 64 ∧
      (cover 0 100 5 [1, 2, 5]).interval = 20 ∧ (cover 0 100 10 [1, 2, 5]).interval = 10 ∧
      ¬ Overshoots 0 100 [1, 2, 5] 5 10 := by
  refine ⟨by decide, by decide, by decide, by decide, by decide, by decide, by decide,
    by decide, ?_⟩
  exact (interval_cover_le_iff (by decide) (by decide) (by decide) (by decide) (by decide)
    (by decide)).1 (by decide)

/-- **For `2 ^ 63` intervals the largest step is taken**, though ten intervals of one are
enough. -/
theorem not_interval_cover_le :
    |(0 : ℤ)| ≤ 4 * 10 ^ 18 ∧ |(10 : ℤ)| ≤ 4 * 10 ^ 18 ∧
      ([1, 2, 5] : List ℤ).Pairwise (· ≤ ·) ∧ (∀ step ∈ ([1, 2, 5] : List ℤ), 0 < step) ∧
      10 ≤ 2 ^ 63 ∧ 2 ^ 63 < 2 ^ 64 ∧
      (cover 0 10 10 [1, 2, 5]).interval = 1 ∧
      (cover 0 10 (2 ^ 63) [1, 2, 5]).interval = maxInt64 ∧
      ¬ (cover 0 10 (2 ^ 63) [1, 2, 5]).interval ≤ (cover 0 10 10 [1, 2, 5]).interval := by
  decide

end NumericTicks

end TickLabels
