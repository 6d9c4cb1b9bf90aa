import TickLabels.Proofs.Binary64.Nearest
import TickLabels.Proofs.Decimal.Value
/-!
# The shortest decimal

Among the decimals that are read as a double the search takes one from the coarsest
grid (`Around.Found`). So no other has fewer digits, and of those with as few digits
none is nearer to the double (`Digits.isShortestOf_shortest`). Only a power of ten and
nine tenths of it could have one digit each on two grids; they are read as the same
double for one subnormal number only, and there the power is nearer
(`Magnitude.ten_closer`).
-/

namespace TickLabels

/-! ## Grids -/

/-- A number on the grid, or on a coarser one. -/
theorem natCast_of_grid_le {n g : ℕ} {j : ℤ} (h : g ≤ j) :
    (n : ℚ) * 10 ^ j = ((n * 10 ^ (j - g).toNat * 10 ^ g : ℕ) : ℚ) := by
  push_cast
  rw [mul_assoc, ← pow_add, ← zpow_natCast]
  congr 2
  omega

/-- A number with one digit on a finer grid is nine tenths of the power of ten at most. -/
theorem le_nine_tenths {n g : ℕ} {j : ℤ} (hn : n < 10) (hj : j < g) :
    (n : ℚ) * 10 ^ j ≤ 9 * 10 ^ ((g : ℤ) - 1) := by
  have hn : (n : ℚ) ≤ 9 := by exact_mod_cast Nat.le_of_lt_succ hn
  have hpow : (10 : ℚ) ^ j ≤ 10 ^ ((g : ℤ) - 1) := zpow_le_zpow_right₀ (by norm_num) (by omega)
  exact mul_le_mul hn hpow (by positivity) (by norm_num)

theorem ten_zpow_eq (e : ℤ) : (10 : ℚ) ^ e = 10 * 10 ^ (e - 1) := by
  rw [← zpow_one_add₀ (by norm_num), add_sub_cancel]

/-- A number with one digit on a finer grid is no nearer than the power of ten above it,
if nine tenths of the power are not. -/
theorem dist_pow_le {n g : ℕ} {j : ℤ} (hn : n < 10) (hj : j < g) {v : ℚ}
    (hnine : v < 10 ^ (g : ℤ) → 19 * 10 ^ ((g : ℤ) - 1) ≤ 2 * v) :
    |10 ^ (g : ℤ) - v| ≤ |n * 10 ^ j - v| := by
  have hten := ten_zpow_eq g
  have hle := le_nine_tenths hn hj
  have hpos : (0 : ℚ) < 10 ^ ((g : ℤ) - 1) := by positivity
  rw [abs_sub_comm _ v, abs_sub_comm _ v]
  refine le_trans ?_ (le_abs_self _)
  rw [abs_le]
  rcases lt_or_ge v (10 ^ (g : ℤ)) with hlt | hge
  · have hnine := hnine hlt
    constructor <;> linarith
  · constructor <;> linarith

/-! ## The search -/

namespace Around

/-- A point of a grid is no nearer to the value than the one next to it on its side,
which lies in the interval if the point does. -/
theorem next_of_contains {a : Around} {unit n : ℕ} (hunit : 0 < unit)
    (hvalue : a.contains a.value) (hn : a.contains (n * unit)) :
    (a.contains (a.value / unit * unit) ∧
        |((a.value / unit * unit : ℕ) : ℤ) - a.value| ≤ |((n * unit : ℕ) : ℤ) - a.value|) ∨
      (a.contains ((a.value / unit + 1) * unit) ∧
        |(((a.value / unit + 1) * unit : ℕ) : ℤ) - a.value| ≤
          |((n * unit : ℕ) : ℤ) - a.value|) := by
  have hbelow : a.value / unit * unit ≤ a.value := Nat.div_mul_le_self _ _
  have habove : a.value < (a.value / unit + 1) * unit :=
    (Nat.div_lt_iff_lt_mul hunit).1 (Nat.lt_succ_self _)
  rcases Nat.lt_or_ge (a.value / unit) n with h | h
  · have hle : (a.value / unit + 1) * unit ≤ n * unit := Nat.mul_le_mul_right unit h
    refine .inr ⟨contains_of_between hvalue hn habove.le hle, ?_⟩
    rw [abs_of_nonneg (by omega), abs_of_nonneg (by omega)]
    omega
  · have hle : n * unit ≤ a.value / unit * unit := Nat.mul_le_mul_right unit h
    refine .inl ⟨contains_of_between hn hvalue hle hbelow, ?_⟩
    rw [abs_of_nonpos (by omega), abs_of_nonpos (by omega)]
    omega

/-- **Of the points next to the value** the search takes the nearer one. -/
theorem next_of_nearest? {a : Around} {unit factor : ℕ} (hunit : 0 < unit)
    (hvalue : a.contains a.value) (h : a.nearest? unit = some factor) :
    (factor = a.value / unit ∨ factor = a.value / unit + 1) ∧
      ∀ n, a.contains (n * unit) →
        |((factor * unit : ℕ) : ℤ) - a.value| ≤ |((n * unit : ℕ) : ℤ) - a.value| := by
  have hbelow : a.value / unit * unit ≤ a.value := Nat.div_mul_le_self _ _
  have habove : a.value < (a.value / unit + 1) * unit :=
    (Nat.div_lt_iff_lt_mul hunit).1 (Nat.lt_succ_self _)
  unfold nearest? at h
  dsimp only at h
  split at h
  · contradiction
  · next hmissing =>
    obtain rfl := Option.some.inj h
    refine ⟨.inl rfl, fun n hn => ?_⟩
    rcases next_of_contains hunit hvalue hn with ⟨-, hle⟩ | ⟨hcontains, -⟩
    · exact hle
    · simp [hmissing] at hcontains
  · next hmissing _ =>
    obtain rfl := Option.some.inj h
    refine ⟨.inr rfl, fun n hn => ?_⟩
    rcases next_of_contains hunit hvalue hn with ⟨hcontains, -⟩ | ⟨-, hle⟩
    · simp [hmissing] at hcontains
    · exact hle
  · split at h <;> obtain rfl := Option.some.inj h
    · refine ⟨.inl rfl, fun n hn => ?_⟩
      rcases next_of_contains hunit hvalue hn with ⟨-, hle⟩ | ⟨-, hle⟩
      · exact hle
      · refine le_trans ?_ hle
        rw [abs_of_nonpos (by omega), abs_of_nonneg (by omega)]
        omega
    · refine ⟨.inr rfl, fun n hn => ?_⟩
      rcases next_of_contains hunit hvalue hn with ⟨-, hle⟩ | ⟨-, hle⟩
      · refine le_trans ?_ hle
        rw [abs_of_nonneg (by omega), abs_of_nonpos (by omega)]
        omega
      · exact hle

/-- **The coarsest grid** with a point in the interval, of those up to `10 ^ places`,
and its point nearest to the value. -/
structure Found (a : Around) (places factor grid : ℕ) : Prop where
  grid_le : grid ≤ places
  contains : a.contains (factor * 10 ^ grid)
  next : factor = a.value / 10 ^ grid ∨ factor = a.value / 10 ^ grid + 1
  coarsest : grid < places → ∀ n, a.contains (n * 10 ^ (grid + 1)) = false
  nearest : ∀ n, a.contains (n * 10 ^ grid) →
    |((factor * 10 ^ grid : ℕ) : ℤ) - a.value| ≤ |((n * 10 ^ grid : ℕ) : ℤ) - a.value|

theorem found_shortest {a : Around} (hvalue : a.contains a.value) (places : ℕ) :
    a.Found places (a.shortest places).1 (a.shortest places).2 := by
  induction places with
  | zero =>
    refine ⟨le_rfl, ?_, ?_, ?_, ?_⟩
    · simpa [shortest] using hvalue
    · simp [shortest]
    · simp
    · simp [shortest]
  | succ places ih =>
    have hunit : 0 < 10 ^ (places + 1) := by positivity
    unfold shortest
    rw [Nat.pow_eq]
    split
    · next factor h =>
      obtain ⟨hnext, hnearest⟩ := next_of_nearest? hunit hvalue h
      exact ⟨le_rfl, contains_of_nearest? h, hnext, by simp, hnearest⟩
    · next h =>
      refine ⟨ih.grid_le.trans (Nat.le_succ _), ih.contains, ih.next, fun _ n => ?_, ih.nearest⟩
      rcases ih.grid_le.lt_or_eq with hlt | heq
      · exact ih.coarsest hlt n
      · rw [heq]
        by_contra hn
        have := isSome_nearest? hunit hvalue (by simpa using hn)
        rw [h] at this
        contradiction

namespace Found

variable {a : Around} {places factor grid : ℕ}

/-- A factor above one has a coarser grid, and no point of it lies in the interval. -/
theorem not_contains (h : a.Found places factor grid) (hplaces : a.value < 10 ^ places)
    (hfactor : 1 < factor) (n : ℕ) : a.contains (n * 10 ^ (grid + 1)) = false := by
  refine h.coarsest (h.grid_le.lt_of_ne fun heq => ?_) n
  have hnext := h.next
  rw [heq, Nat.div_eq_of_lt hplaces] at hnext
  omega

theorem contains_zpow (h : a.Found places factor grid) : a.Contains (factor * 10 ^ (grid : ℤ)) := by
  have hcontains := (a.contains_natCast _).2 h.contains
  push_cast at hcontains
  rwa [zpow_natCast]

/-- Between a number with `count` digits on a finer grid and a point with more stands a
power of ten. -/
theorem contains_pow (h : a.Found places factor grid) {n count : ℕ} {j : ℤ} (hn : n < 10 ^ count)
    {e : ℕ} (hlow : (count : ℤ) + j ≤ e) (hhigh : 10 ^ e ≤ factor * 10 ^ grid)
    (hq : a.Contains (n * 10 ^ j)) : a.contains (10 ^ e) := by
  rw [← contains_natCast]
  refine hq.of_between h.contains_zpow ?_ ?_
  · calc (n : ℚ) * 10 ^ j ≤ 10 ^ (count : ℤ) * 10 ^ j := by
          refine mul_le_mul_of_nonneg_right ?_ (by positivity)
          exact_mod_cast hn.le
      _ = 10 ^ ((count : ℤ) + j) := (zpow_add₀ (by norm_num) _ _).symm
      _ ≤ 10 ^ (e : ℤ) := zpow_le_zpow_right₀ (by norm_num) hlow
      _ = ((10 ^ e : ℕ) : ℚ) := by push_cast; exact zpow_natCast _ _
  · rw [zpow_natCast]
    exact_mod_cast hhigh

/-- **No number in the interval has fewer digits.** -/
theorem lt_pow (h : a.Found places factor grid) (hplaces : a.value < 10 ^ places)
    (hzero : ¬ a.Contains 0) {n count : ℕ} {j : ℤ} (hn : n < 10 ^ count)
    (hq : a.Contains (n * 10 ^ j)) : factor < 10 ^ count := by
  by_contra hge
  have hge := not_lt.1 hge
  obtain ⟨count, rfl⟩ : ∃ c, count = c + 1 := by
    refine Nat.exists_eq_succ_of_ne_zero fun hcount => hzero ?_
    obtain rfl : n = 0 := by rw [hcount] at hn; omega
    simpa using hq
  have hfactor : 1 < factor :=
    (Nat.one_lt_pow (Nat.succ_ne_zero count) (by norm_num)).trans_le hge
  rcases le_or_gt j grid with hj | hj
  · have hcontains := h.contains_pow (e := count + (grid + 1)) hn (by push_cast; omega)
      (by
        rw [show count + (grid + 1) = count + 1 + grid by omega, Nat.pow_add]
        exact Nat.mul_le_mul_right _ hge) hq
    rw [Nat.pow_add, h.not_contains hplaces hfactor] at hcontains
    contradiction
  · rw [natCast_of_grid_le (g := grid + 1) (by push_cast; omega), contains_natCast,
      h.not_contains hplaces hfactor] at hq
    contradiction

/-- **And of those with as few digits none is nearer**, if a power of ten is nearer than
nine tenths of it wherever both are in the interval. -/
theorem dist_le (h : a.Found places factor grid) (hplaces : a.value < 10 ^ places)
    (hzero : ¬ a.Contains 0)
    (hten : ∀ P : ℤ, a.Contains (9 * 10 ^ P) → a.Contains (10 ^ (P + 1)) →
      19 * 10 ^ P ≤ 2 * (a.value : ℚ))
    {n count : ℕ} {j : ℤ} (hn : n < 10 ^ count)
    (hcount : count ≤ (digitsOf factor).length)
    (hq : a.Contains (n * 10 ^ j)) :
    |factor * 10 ^ (grid : ℤ) - (a.value : ℚ)| ≤ |n * 10 ^ j - (a.value : ℚ)| := by
  have hnearest : ∀ p : ℕ, a.contains (p * 10 ^ grid) →
      |factor * 10 ^ (grid : ℤ) - (a.value : ℚ)| ≤ |((p * 10 ^ grid : ℕ) : ℚ) - a.value| := by
    intro p hp
    rw [zpow_natCast]
    exact_mod_cast h.nearest p hp
  rcases le_or_gt (grid : ℤ) j with hj | hj
  · rw [natCast_of_grid_le hj]
    rw [natCast_of_grid_le hj, contains_natCast] at hq
    exact hnearest _ hq
  · obtain ⟨count, rfl⟩ : ∃ c, count = c + 1 := by
      refine Nat.exists_eq_succ_of_ne_zero fun hzero_count => hzero ?_
      obtain rfl : n = 0 := by rw [hzero_count] at hn; omega
      simpa using hq
    have hfactor : 10 ^ count ≤ factor := by
      refine not_lt.1 fun hlt => ?_
      have := length_digitsOf_le_iff.2 hlt
      omega
    have hcontains := h.contains_pow (e := count + grid) hn (by push_cast; omega)
      (by rw [Nat.pow_add]; exact Nat.mul_le_mul_right _ hfactor) hq
    cases count with
    | succ count =>
      -- The power of ten lies on a coarser grid.
      have hone : 1 < factor :=
        (Nat.one_lt_pow (Nat.succ_ne_zero count) (by norm_num)).trans_le hfactor
      rw [show count + 1 + grid = count + (grid + 1) by omega, Nat.pow_add,
        h.not_contains hplaces hone] at hcontains
      contradiction
    | zero =>
      rw [Nat.zero_add] at hcontains
      have hpower : a.Contains (10 ^ (grid : ℤ)) := by
        rw [← contains_natCast] at hcontains
        rw [zpow_natCast]
        exact_mod_cast hcontains
      have hn : n < 10 := by simpa using hn
      have hnine : a.Contains (9 * 10 ^ ((grid : ℤ) - 1)) := by
        refine hq.of_between hpower (le_nine_tenths hn hj) ?_
        rw [ten_zpow_eq grid]
        exact mul_le_mul_of_nonneg_right (by norm_num) (by positivity)
      have hnear := hnearest 1 (by simpa using hcontains)
      refine le_trans (by simpa using hnear) (dist_pow_le hn hj fun _ => hten _ hnine ?_)
      rwa [sub_add_cancel]

end Found

end Around

/-! ## The shortest decimal of a magnitude -/

namespace Magnitude

variable {m : Magnitude}

/-- The interval in units of the magnitude. -/
theorem bounds_of_contains (hpos : 0 < m.mantissa) {q : ℚ} (h : m.around.Contains q) :
    m.value + m.below ≤ 2 * (q * 10 ^ m.quarter.2) ∧
      2 * (q * 10 ^ m.quarter.2) ≤ m.value + m.above := by
  have hpower : (0 : ℚ) ≤ 10 ^ m.quarter.2 := by positivity
  obtain ⟨hlow, hhigh⟩ : (m.around.low : ℚ) ≤ q ∧ q ≤ m.around.high := by
    unfold Around.Contains at h
    split at h
    · exact h
    · exact ⟨h.1.le, h.2.le⟩
  rw [← low_around_mul hpos, ← high_around_mul]
  exact ⟨mul_le_mul_of_nonneg_left (mul_le_mul_of_nonneg_right hlow hpower) (by norm_num),
    mul_le_mul_of_nonneg_left (mul_le_mul_of_nonneg_right hhigh hpower) (by norm_num)⟩

theorem value_around_mul (m : Magnitude) :
    (m.around.value * 10 ^ m.quarter.2 : ℚ) = m.value := by
  rw [value_eq_quarters, quarter_eq]
  simp only [around]
  push_cast
  ring

/-- A quarter of the least double in powers of ten. -/
theorem least_quarter_bounds :
    123 * (10 : ℚ) ^ (-326 : ℤ) ≤ 2 ^ (-1076 : ℤ) ∧
      (2 : ℚ) ^ (-1076 : ℤ) ≤ 124 * 10 ^ (-326 : ℤ) := by
  have hlow : 123 * 2 ^ 1076 ≤ 10 ^ 326 := by decide +kernel
  have hhigh : 10 ^ 326 ≤ 124 * 2 ^ 1076 := by decide +kernel
  rw [zpow_neg, zpow_neg, zpow_ofNat, zpow_ofNat, ← div_eq_mul_inv, ← div_eq_mul_inv,
    inv_eq_one_div, div_le_div_iff₀ (by positivity) (by positivity),
    div_le_div_iff₀ (by positivity) (by positivity), one_mul]
  exact ⟨by exact_mod_cast hlow, by exact_mod_cast hhigh⟩

/-- Of the least doubles only the second one is read from a power of ten and from nine
tenths of it. -/
theorem ten_closer_least {M : ℕ} (hpos : 0 < M) {s : ℤ}
    (hlow : (4 * M - 2) * 2 ^ (-1076 : ℤ) ≤ 9 * (10 : ℚ) ^ s)
    (hhigh : 10 * (10 : ℚ) ^ s ≤ (4 * M + 2) * 2 ^ (-1076 : ℤ)) (hle : M ≤ 9) :
    19 * (10 : ℚ) ^ s ≤ 8 * M * 2 ^ (-1076 : ℤ) := by
  obtain ⟨hleast, hmost⟩ := least_quarter_bounds
  have htens : (0 : ℚ) < 10 ^ (-326 : ℤ) := by positivity
  have hshift : (10 : ℚ) ^ s = 10 ^ (s + 326) * 10 ^ (-326 : ℤ) := by
    rw [← zpow_add₀ (by norm_num), show s + 326 + -326 = s by omega]
  rw [hshift] at hlow hhigh ⊢
  generalize (10 : ℚ) ^ (-326 : ℤ) = tens at *
  generalize (2 : ℚ) ^ (-1076 : ℤ) = quarter at *
  have hM : (1 : ℚ) ≤ M := by exact_mod_cast hpos
  have hM' : (M : ℚ) ≤ 9 := by exact_mod_cast hle
  have hlow : (4 * M - 2) * 123 ≤ 9 * (10 : ℚ) ^ (s + 326) := by
    refine le_of_mul_le_mul_right ?_ htens
    nlinarith
  have hhigh : 10 * (10 : ℚ) ^ (s + 326) ≤ (4 * M + 2) * 124 := by
    refine le_of_mul_le_mul_right ?_ htens
    nlinarith
  have hs : s + 326 = 2 := by
    refine le_antisymm (not_lt.1 fun hgt => ?_) (not_lt.1 fun hlt => ?_)
    · have hlarge : (10 : ℚ) ^ (3 : ℤ) ≤ 10 ^ (s + 326) :=
        zpow_le_zpow_right₀ (by norm_num) (by omega)
      norm_num at hlarge
      linarith
    · have hsmall : (10 : ℚ) ^ (s + 326) ≤ 10 ^ (1 : ℤ) :=
        zpow_le_zpow_right₀ (by norm_num) (by omega)
      norm_num at hsmall
      linarith
  rw [hs] at hlow hhigh ⊢
  norm_num at hlow hhigh ⊢
  have hupper : (M : ℚ) < 3 := by linarith
  have hlower : (1 : ℚ) < M := by linarith
  norm_cast at hupper hlower
  obtain rfl : M = 2 := by omega
  push_cast
  linarith

/-- **A power of ten is nearer than nine tenths of it** if both are read as the same
double, which can be no other than the second subnormal number. -/
theorem ten_closer (hm : m.Canonical) (hpos : 0 < m.mantissa) {P : ℤ}
    (hnine : m.around.Contains (9 * 10 ^ P)) (hten : m.around.Contains (10 ^ (P + 1))) :
    19 * 10 ^ P ≤ 2 * (m.around.value : ℚ) := by
  have hunit : (0 : ℚ) < 2 ^ (m.exponent - 2) := by positivity
  have hshift : (10 : ℚ) ^ P * 10 ^ m.quarter.2 = 10 ^ (P + m.quarter.2) :=
    (zpow_add₀ (by norm_num) _ _).symm
  have hlow : (4 * m.mantissa - m.halfBelow) * 2 ^ (m.exponent - 2) ≤
      9 * (10 : ℚ) ^ (P + m.quarter.2) := by
    have := (bounds_of_contains hpos hnine).1
    rw [value_eq_quarters, below, mul_assoc 9, hshift] at this
    linarith
  have hhigh : 10 * (10 : ℚ) ^ (P + m.quarter.2) ≤
      (4 * m.mantissa + 2) * 2 ^ (m.exponent - 2) := by
    have := (bounds_of_contains hpos hten).2
    rw [value_eq_quarters, above, zpow_add_one₀ (by norm_num), mul_right_comm, hshift] at this
    linarith
  suffices h : 19 * (10 : ℚ) ^ (P + m.quarter.2) ≤ 8 * m.mantissa * 2 ^ (m.exponent - 2) by
    refine le_of_mul_le_mul_right ?_ (show (0 : ℚ) < 10 ^ m.quarter.2 by positivity)
    rw [mul_assoc, hshift, mul_assoc, value_around_mul, value_eq_quarters]
    linarith
  generalize P + m.quarter.2 = s at hlow hhigh
  -- The step is at least a tenth of the number, so there are few digits.
  have hhalf : m.halfBelow ≤ 2 := by unfold halfBelow; split <;> decide
  have hle : m.mantissa ≤ 9 := by
    have hratio : (10 * (4 * m.mantissa - m.halfBelow) : ℚ) ≤ 9 * (4 * m.mantissa + 2) := by
      refine le_of_mul_le_mul_right ?_ hunit
      linarith
    have hhalf : (m.halfBelow : ℚ) ≤ 2 := by exact_mod_cast hhalf
    have : (m.mantissa : ℚ) < 10 := by linarith
    norm_cast at this
    omega
  have hexponent : m.exponent = -1074 := hm.normal.resolve_left fun hfull => by
    simp only [leastNormalMantissa] at hfull
    omega
  have htwo : m.halfBelow = 2 := by
    rw [halfBelow, narrowBelow, hexponent]
    simp [minExponent]
  rw [hexponent, htwo] at hlow
  rw [hexponent] at hhigh ⊢
  exact ten_closer_least hpos (by exact_mod_cast hlow) hhigh hle

theorem contains_value (hm : m.Canonical) (hpos : 0 < m.mantissa) :
    m.around.contains m.around.value := by
  have hself : m.IsNearest m.value := fun z _ hne => .inl (by
    rw [sub_self, abs_zero]
    exact abs_pos.2 (sub_ne_zero.2 hne.symm))
  rw [isNearest_iff hm hpos, ← value_around_mul, mul_div_cancel_right₀ _ (by positivity)] at hself
  exact (Around.contains_natCast _ _).1 hself

/-- No double but zero is what zero is read as. -/
theorem not_contains_zero (hm : m.Canonical) (hpos : 0 < m.mantissa) :
    ¬ m.around.Contains 0 := by
  intro h
  obtain ⟨n, -, hbelow, -, -⟩ := hm.exists_below hpos
  have hlow := (bounds_of_contains hpos h).1
  have hvalue := value_pos hpos
  have hnonneg : 0 ≤ m.below := hbelow ▸ n.value_nonneg
  rw [zero_mul, mul_zero] at hlow
  linarith

theorem found (hm : m.Canonical) (hpos : 0 < m.mantissa) :
    ∃ places factor grid, m.around.Found places factor grid ∧ m.around.value < 10 ^ places ∧
      m.shortest = .ofScaled factor (grid + m.quarter.2) := by
  refine ⟨_, _, _, Around.found_shortest (contains_value hm hpos) _,
    length_digitsOf_le_iff.1 le_rfl, ?_⟩
  rw [shortest, if_neg hpos.ne']

end Magnitude

namespace Digits

theorem value_ofScaled (n : ℕ) (exponent : ℤ) :
    (ofScaled n exponent).value = n * 10 ^ exponent := by
  rw [ofScaled, value_ofList, valueOf_digitsOf, add_sub_cancel_left]

theorem length_ofScaled_le (n : ℕ) (exponent : ℤ) :
    (ofScaled n exponent).digits.length ≤ (digitsOf n).length :=
  (length_ofList_le _ _).trans (length_dropTrailingZeros_le _)

/-- Digits in units of a power of ten. -/
theorem value_div (e : Digits) (k : ℤ) :
    e.value / 10 ^ k = valueOf e.digits * 10 ^ (e.point - e.digits.length - k) := by
  rw [value, mul_div_assoc, ← zpow_sub₀ (by norm_num)]

end Digits

namespace Magnitude

variable {m : Magnitude}

/-- **Its shortest decimal is read as a magnitude.** -/
theorem isNearest_shortest (hm : 0 < m.mantissa → m.Canonical) :
    m.IsNearest m.shortest.value := by
  rcases Nat.eq_zero_or_pos m.mantissa with hzero | hpos
  · obtain ⟨mantissa, e⟩ := m
    obtain rfl : mantissa = 0 := hzero
    simpa [shortest] using isNearest_zero e
  · obtain ⟨places, factor, grid, hfound, -, hshortest⟩ := found (hm hpos) hpos
    rw [isNearest_iff (hm hpos) hpos, hshortest, Digits.value_ofScaled, mul_div_assoc,
      ← zpow_sub₀ (by norm_num), add_sub_cancel_right]
    exact hfound.contains_zpow

/-- **A smaller number with few digits** is not above it. -/
theorem le_shortest (hm : 0 < m.mantissa → m.Canonical) {z : ℚ} (hz : IsShort z)
    (h : z < m.value) : z ≤ m.shortest.value := by
  by_contra hlt
  have hlt := not_le.1 hlt
  have hcloser : |m.shortest.value - m.value| ≤ |m.shortest.value - z| :=
    (isNearest_shortest hm z hz h.ne).elim (·.le) (·.1.le)
  rw [abs_of_neg (by linarith), abs_of_neg (by linarith)] at hcloser
  linarith

theorem one_le_shortest (hm : 0 < m.mantissa → m.Canonical) (h : 1 ≤ m.value) :
    1 ≤ m.shortest.value := by
  rcases h.lt_or_eq with hlt | heq
  · exact le_shortest hm (by exact_mod_cast isShort_natCast (n := 1) (by norm_num)) hlt
  · have hone : (Magnitude.mk leastNormalMantissa (-52)).value = 1 := by
      norm_num [value, leastNormalMantissa]
    have hcanonical : (Magnitude.mk leastNormalMantissa (-52)).Canonical := by
      constructor <;> decide
    have hpos : 0 < m.mantissa := Nat.pos_of_ne_zero fun hzero => by
      rw [value_of_mantissa hzero] at h
      exact absurd h (by norm_num)
    have hsame := Canonical.eq_of_value_eq (hm hpos) hcanonical (heq.symm.trans hone.symm)
    have hshortest : (Magnitude.mk leastNormalMantissa (-52)).shortest = ⟨[1], 1⟩ := by
      decide +kernel
    rw [hsame, hshortest]
    norm_num [Digits.value, valueOf]

/-- **No digits that are read as a magnitude are fewer** than those of its shortest
decimal. -/
theorem length_shortest_le (hm : 0 < m.mantissa → m.Canonical) {e : Digits}
    (he : m.IsNearest e.value) : m.shortest.digits.length ≤ e.digits.length := by
  rcases Nat.eq_zero_or_pos m.mantissa with hzero | hpos
  · simp [shortest, hzero, Digits.zero]
  · obtain ⟨places, factor, grid, hfound, hplaces, hshortest⟩ := found (hm hpos) hpos
    rw [isNearest_iff (hm hpos) hpos, Digits.value_div] at he
    rw [hshortest]
    exact (Digits.length_ofScaled_le _ _).trans (length_digitsOf_le_iff.2
      (hfound.lt_pow hplaces (not_contains_zero (hm hpos) hpos) (valueOf_lt _) he))

/-- Distances in units of the interval. -/
theorem dist_eq (m : Magnitude) (q : ℚ) :
    |q * 10 ^ m.quarter.2 - m.value| = |q - m.around.value| * 10 ^ m.quarter.2 := by
  have hpower : (0 : ℚ) < 10 ^ m.quarter.2 := by positivity
  rw [← value_around_mul, ← sub_mul, abs_mul, abs_of_pos hpower]

/-- **And of those that are as few none is nearer.** -/
theorem dist_shortest_le (hm : 0 < m.mantissa → m.Canonical) {e : Digits}
    (he : m.IsNearest e.value) (hlength : e.digits.length ≤ m.shortest.digits.length) :
    |m.shortest.value - m.value| ≤ |e.value - m.value| := by
  rcases Nat.eq_zero_or_pos m.mantissa with hzero | hpos
  · simp [shortest, value, hzero]
  · obtain ⟨places, factor, grid, hfound, hplaces, hshortest⟩ := found (hm hpos) hpos
    rw [isNearest_iff (hm hpos) hpos, Digits.value_div] at he
    rw [hshortest] at hlength ⊢
    have hdist := hfound.dist_le hplaces (not_contains_zero (hm hpos) hpos)
      (fun _ => ten_closer (hm hpos) hpos) (valueOf_lt _)
      (hlength.trans (Digits.length_ofScaled_le _ _)) he
    rw [Digits.value_ofScaled, zpow_add₀ (by norm_num), ← mul_assoc, dist_eq,
      ← div_mul_cancel₀ e.value (zpow_ne_zero m.quarter.2 (by norm_num : (10 : ℚ) ≠ 0)),
      Digits.value_div, dist_eq]
    exact mul_le_mul_of_nonneg_right hdist (by positivity)

end Magnitude

/-! ## The shortest decimal of a double -/

namespace Digits

/-- **The digits are as few as can be** for a double to be read from them, and of those
that are as few none are nearer to it. -/
structure IsShortestOf (d : Digits) (x : Float) : Prop where
  readsAs : ReadsAs (signed x d.value) x
  exactValue_eq : ∀ y, ReadsAs (signed x d.value) y → exactValue y = exactValue x
  length_le : ∀ e : Digits, ReadsAs (signed x e.value) x → d.digits.length ≤ e.digits.length
  dist_le : ∀ e : Digits, ReadsAs (signed x e.value) x → e.digits.length ≤ d.digits.length →
    |d.value - exactMagnitude x| ≤ |e.value - exactMagnitude x|

theorem isShortestOf_shortest {x : Float} (hx : x.isFinite) : (shortest x).IsShortestOf x := by
  obtain ⟨m, hm⟩ := Magnitude.exists_ofFloat? hx
  have hcanonical := Magnitude.canonical_of_ofFloat? hm
  have hshortest : shortest x = m.shortest := by rw [shortest, hm]
  have hread (e : Digits) : ReadsAs (signed x e.value) x ↔ m.IsNearest e.value :=
    readsAs_signed_iff hm e.value_nonneg
  have hself := (hread _).2 (Magnitude.isNearest_shortest hcanonical)
  rw [hshortest]
  constructor
  · exact hself
  · exact fun y hy => hy.exactValue_eq hself
  · exact fun e he => Magnitude.length_shortest_le hcanonical ((hread e).1 he)
  · intro e he hlength
    rw [exactMagnitude_of_ofFloat? hm]
    exact Magnitude.dist_shortest_le hcanonical ((hread e).1 he) hlength

end Digits

end TickLabels
