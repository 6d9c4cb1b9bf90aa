import TickLabels.Decimal.Shortest
import TickLabels.Proofs.Binary64.Tolerance
/-!
# Reading a double

A number is read as the double that is nearest to it, and halfway between two doubles
as the one with the even mantissa (`Magnitude.IsNearest`). The numbers that are read as
a double are those of the interval around it, which reaches halfway down to the double
below and halfway up to the one above (`Magnitude.isNearest_iff`).
-/

namespace TickLabels

open Float.Model (UnpackedFloat)
open Float.Model.UnpackedFloat

/-! ## Distances -/

/-- `q` is nearer to `a` than to `z`, or as near and `a` is preferred. -/
def Closer (preferred : Prop) (q a z : ℚ) : Prop :=
  |q - a| < |q - z| ∨ |q - a| = |q - z| ∧ preferred

section Closer

variable {preferred : Prop} {q a z : ℚ}

theorem closer_neg : Closer preferred (-q) (-a) (-z) ↔ Closer preferred q a z := by
  simp only [Closer, ← neg_sub', abs_neg]

/-- The middle decides. -/
theorem closer_iff_of_lt (h : a < z) :
    Closer preferred q a z ↔ 2 * q < a + z ∨ 2 * q = a + z ∧ preferred := by
  have hpos : 0 < z - a := sub_pos.2 h
  have hsq : (q - z) ^ 2 - (q - a) ^ 2 = (z - a) * (a + z - 2 * q) := by ring
  have hlt : |q - a| < |q - z| ↔ 2 * q < a + z := by
    rw [← sq_lt_sq, ← sub_pos, hsq, mul_pos_iff_of_pos_left hpos, sub_pos]
  have heq : |q - a| = |q - z| ↔ 2 * q = a + z := by
    rw [← sq_eq_sq_iff_abs_eq_abs, eq_comm, ← sub_eq_zero, hsq, mul_eq_zero_iff_left hpos.ne',
      sub_eq_zero, eq_comm]
  rw [Closer, hlt, heq]

theorem closer_iff_of_gt (h : z < a) :
    Closer preferred q a z ↔ a + z < 2 * q ∨ 2 * q = a + z ∧ preferred := by
  rw [← closer_neg, closer_iff_of_lt (neg_lt_neg h)]
  constructor <;> rintro (h | ⟨h, hp⟩)
  · exact .inl (by linarith)
  · exact .inr ⟨by linarith, hp⟩
  · exact .inl (by linarith)
  · exact .inr ⟨by linarith, hp⟩

/-- What is farther away is no rival either. -/
theorem Closer.of_le {w : ℚ} (h : Closer preferred q a w) (hle : |q - w| ≤ |q - z|) :
    Closer preferred q a z := by
  rcases h with h | ⟨h, hp⟩
  · exact .inl (h.trans_le hle)
  · rcases hle.lt_or_eq with hlt | heq
    · exact .inl (h.trans_lt hlt)
    · exact .inr ⟨h.trans heq, hp⟩

/-- And neither is what lies behind a rival. -/
theorem Closer.of_lt_of_le {w : ℚ} (h : Closer preferred q a w) (haw : a < w) (hwz : w ≤ z) :
    Closer preferred q a z := by
  rw [closer_iff_of_lt haw] at h
  rw [closer_iff_of_lt (haw.trans_le hwz)]
  rcases h with h | ⟨h, hp⟩
  · exact .inl (by linarith)
  · rcases hwz.lt_or_eq with hlt | rfl
    · exact .inl (by linarith)
    · exact .inr ⟨h, hp⟩

theorem Closer.of_gt_of_ge {w : ℚ} (h : Closer preferred q a w) (hwa : w < a) (hzw : z ≤ w) :
    Closer preferred q a z := by
  rw [closer_iff_of_gt hwa] at h
  rw [closer_iff_of_gt (hzw.trans_lt hwa)]
  rcases h with h | ⟨h, hp⟩
  · exact .inl (by linarith)
  · rcases hzw.lt_or_eq with hlt | rfl
    · exact .inl (by linarith)
    · exact .inr ⟨h, hp⟩

end Closer

/-! ## Numbers with few digits -/

theorem isShort_zero : IsShort 0 := by
  simpa using isShort_natCast (n := 0) (by norm_num)

/-- Numbers with few digits are multiples of the last digit of those around them. -/
theorem eq_of_isShort {Q : ℕ} {T : ℤ} {z : ℚ} (hz : IsShort z) (hlow : Q * 2 ^ T ≤ z)
    (hhigh : z < (Q + 1) * 2 ^ T) (hfull : 2 ^ 52 ≤ Q ∨ T = -1074) : z = Q * 2 ^ T :=
  ((sameSide_of_bounds hlow hhigh ⟨le_rfl, Nat.le_succ Q⟩ (fun _ => rfl) hfull).eq hz).symm

theorem IsShort.nonneg {z : ℚ} (h : IsShort z) : 0 ≤ z := by
  obtain ⟨k, j, -, -, rfl⟩ := h
  positivity

/-! ## The interval around a double -/

namespace Around

/-- Membership of any number. -/
def Contains (a : Around) (q : ℚ) : Prop :=
  if a.ends then a.low ≤ q ∧ q ≤ a.high else a.low < q ∧ q < a.high

theorem contains_natCast (a : Around) (n : ℕ) : a.Contains n ↔ a.contains n := by
  unfold Contains contains
  split <;> simp

/-- The interval has no gaps. -/
theorem Contains.of_between {a : Around} {p q r : ℚ} (hp : a.Contains p) (hr : a.Contains r)
    (hpq : p ≤ q) (hqr : q ≤ r) : a.Contains q := by
  unfold Contains at *
  split at hp
  · next h =>
    rw [if_pos h] at hr ⊢
    exact ⟨hp.1.trans hpq, hqr.trans hr.2⟩
  · next h =>
    rw [if_neg h] at hr ⊢
    exact ⟨hp.1.trans_le hpq, hqr.trans_lt hr.2⟩

end Around

namespace Magnitude

/-- `q` is read as `m`: no number with as few digits is nearer, and if one is as near
the mantissa of `m` is even. -/
def IsNearest (m : Magnitude) (q : ℚ) : Prop :=
  ∀ z, IsShort z → z ≠ m.value → Closer (m.mantissa % 2 = 0) q m.value z

/-- Half the way to the double below, in quarters of the step to the one above. -/
def halfBelow (m : Magnitude) : ℕ :=
  if m.narrowBelow then 1 else 2

/-- The number with few digits next below. -/
def below (m : Magnitude) : ℚ :=
  (4 * m.mantissa - 2 * m.halfBelow) * 2 ^ (m.exponent - 2)

/-- The number with few digits next above. -/
def above (m : Magnitude) : ℚ :=
  (4 * m.mantissa + 4) * 2 ^ (m.exponent - 2)

variable {m : Magnitude}

theorem value_eq_quarters (m : Magnitude) : m.value = 4 * m.mantissa * 2 ^ (m.exponent - 2) := by
  rw [value, zpow_sub₀ (by norm_num)]
  ring

theorem value_nonneg (m : Magnitude) : 0 ≤ m.value := by
  unfold value
  positivity

theorem value_of_mantissa (h : m.mantissa = 0) : m.value = 0 := by
  rw [value, h, Nat.cast_zero, zero_mul]

theorem value_pos (h : 0 < m.mantissa) : 0 < m.value :=
  mul_pos (by exact_mod_cast h) (by positivity)

theorem mantissa_pos_of_lt {n : Magnitude} (h : m.value < n.value) : 0 < n.mantissa := by
  refine Nat.pos_of_ne_zero fun hzero => ?_
  rw [value_of_mantissa hzero] at h
  exact h.not_ge m.value_nonneg

theorem halfBelow_pos (m : Magnitude) : 0 < m.halfBelow := by
  unfold halfBelow
  split <;> decide

theorem lt_above (m : Magnitude) : m.value < m.above := by
  rw [value_eq_quarters, above]
  exact mul_lt_mul_of_pos_right (by linarith) (by positivity)

theorem below_lt (m : Magnitude) : m.below < m.value := by
  have hhalf : (0 : ℚ) < m.halfBelow := by exact_mod_cast m.halfBelow_pos
  rw [value_eq_quarters, below]
  exact mul_lt_mul_of_pos_right (by linarith) (by positivity)

theorem above_eq (m : Magnitude) : m.above = (m.mantissa + 1) * 2 ^ m.exponent := by
  rw [above, zpow_sub₀ (by norm_num)]
  ring

/-- The quarters of the interval in units of two and of ten. -/
theorem quarter_eq (m : Magnitude) :
    (2 : ℚ) ^ (m.exponent - 2) = m.quarter.1 * 10 ^ m.quarter.2 := by
  rw [quarter, ← value_eq_toDecimal, value]
  simp

namespace Canonical

/-- **The double above** is a whole step away. -/
theorem isShort_above (hm : m.Canonical) : IsShort m.above := by
  have hlt : m.mantissa < 2 ^ 53 := hm.mantissa_lt
  have hmin : -1074 ≤ m.exponent := hm.min_le
  rcases Nat.lt_or_eq_of_le (Nat.succ_le_of_lt hlt) with h | h
  · exact ⟨m.mantissa + 1, m.exponent, h, hmin, by rw [above_eq, Nat.cast_succ]⟩
  · refine ⟨2 ^ 52, m.exponent + 1, by norm_num, by omega, ?_⟩
    rw [above_eq, ← Nat.cast_succ, h, zpow_add_one₀ (by norm_num)]
    push_cast
    ring

theorem above_le (hm : m.Canonical) {z : ℚ} (hz : IsShort z) (h : m.value < z) :
    m.above ≤ z := by
  rw [above_eq]
  by_contra hlt
  exact h.ne' (eq_of_isShort hz h.le (not_le.1 hlt) hm.normal)

theorem isShort_value (hm : m.Canonical) : IsShort m.value :=
  ⟨m.mantissa, m.exponent, hm.mantissa_lt, hm.min_le, rfl⟩

/-- **The double below** is half a step away from a power of two, as it has an exponent
less. One of two neighbours is odd. -/
theorem exists_below (hm : m.Canonical) (hpos : 0 < m.mantissa) :
    ∃ n : Magnitude, n.Canonical ∧ n.value = m.below ∧
      m.value = (n.mantissa + 1) * 2 ^ n.exponent ∧
      (m.mantissa % 2 = 0 → n.mantissa % 2 = 1) := by
  obtain ⟨hlt, hmin, hmax, hnormal⟩ := hm
  simp only [leastNormalMantissa, minExponent] at hlt hmin hnormal
  rw [value_eq_quarters m, below, halfBelow, narrowBelow, leastNormalMantissa, minExponent]
  by_cases hnarrow : m.mantissa = 2 ^ 52 ∧ -1074 < m.exponent
  · have hexp : (2 : ℚ) ^ (m.exponent - 1) = 2 * 2 ^ (m.exponent - 2) := by
      rw [← zpow_one_add₀ (by norm_num)]
      congr 1
      omega
    refine ⟨⟨2 ^ 53 - 1, m.exponent - 1⟩, ⟨?_, ?_, ?_, .inl ?_⟩, ?_, ?_, fun _ => by norm_num⟩
    · norm_num [leastNormalMantissa]
    · simp only [minExponent]
      omega
    · simp only
      omega
    · norm_num [leastNormalMantissa]
    · rw [if_pos (by simpa using hnarrow), value, hexp, hnarrow.1]
      norm_num
      ring
    · rw [hexp, hnarrow.1]
      norm_num
      ring
  · refine ⟨⟨m.mantissa - 1, m.exponent⟩, ⟨?_, hmin, hmax, ?_⟩, ?_, ?_, fun _ => ?_⟩
    · simp only [leastNormalMantissa]
      omega
    · simp only [leastNormalMantissa, minExponent]
      omega
    · rw [if_neg (by simpa using hnarrow), value, Nat.cast_sub hpos, zpow_sub₀ (by norm_num)]
      push_cast
      ring
    · rw [Nat.cast_sub hpos, zpow_sub₀ (by norm_num)]
      push_cast
      ring
    · simp only
      omega

theorem isShort_below (hm : m.Canonical) (hpos : 0 < m.mantissa) : IsShort m.below := by
  obtain ⟨n, hn, hbelow, -, -⟩ := hm.exists_below hpos
  exact hbelow ▸ hn.isShort_value

theorem le_below (hm : m.Canonical) (hpos : 0 < m.mantissa) {z : ℚ} (hz : IsShort z)
    (h : z < m.value) : z ≤ m.below := by
  obtain ⟨n, hn, hbelow, hvalue, -⟩ := hm.exists_below hpos
  rw [← hbelow]
  by_contra hgt
  have hgt := not_le.1 hgt
  exact hgt.ne' (eq_of_isShort hz hgt.le (hvalue ▸ h) hn.normal)

/-- Canonical magnitudes are known by their numbers. -/
theorem eq_of_value_eq {n : Magnitude} (hm : m.Canonical) (hn : n.Canonical)
    (h : m.value = n.value) : m = n := by
  have hcompare := (compare_canonical hm hn).trans (compare_eq_iff_eq.2 h)
  rw [Ordering.then_eq_eq, compare_eq_iff_eq, compare_eq_iff_eq]
    at hcompare
  obtain ⟨hexponent, hmantissa⟩ := hcompare
  cases m
  cases n
  congr

end Canonical

/-- **Only the doubles next to it** are rivals of a double. -/
theorem isNearest_iff_closer (hm : m.Canonical) (hpos : 0 < m.mantissa) {q : ℚ} :
    m.IsNearest q ↔ Closer (m.mantissa % 2 = 0) q m.value m.below ∧
      Closer (m.mantissa % 2 = 0) q m.value m.above := by
  constructor
  · exact fun h => ⟨h _ (hm.isShort_below hpos) m.below_lt.ne, h _ hm.isShort_above m.lt_above.ne'⟩
  · rintro ⟨hbelow, habove⟩ z hz hne
    rcases lt_or_gt_of_ne hne with hlt | hgt
    · exact hbelow.of_gt_of_ge m.below_lt (hm.le_below hpos hz hlt)
    · exact habove.of_lt_of_le m.lt_above (hm.above_le hz hgt)

/-- The ends of the interval in units of two. -/
theorem low_around_mul (hpos : 0 < m.mantissa) :
    2 * (m.around.low * 10 ^ m.quarter.2 : ℚ) = m.value + m.below := by
  have hle : m.halfBelow ≤ 4 * m.mantissa := by
    have : m.halfBelow ≤ 2 := by unfold halfBelow; split <;> decide
    omega
  have hlow : m.around.low = (4 * m.mantissa - m.halfBelow) * m.quarter.1 := by
    unfold around halfBelow
    split <;> rfl
  rw [hlow, value_eq_quarters, below, quarter_eq, Nat.cast_mul, Nat.cast_sub hle]
  push_cast
  ring

theorem high_around_mul (m : Magnitude) :
    2 * (m.around.high * 10 ^ m.quarter.2 : ℚ) = m.value + m.above := by
  rw [value_eq_quarters, above, quarter_eq]
  simp only [around]
  push_cast
  ring

/-- **The numbers read as a double** are those of the interval around it. -/
theorem isNearest_iff (hm : m.Canonical) (hpos : 0 < m.mantissa) {q : ℚ} :
    m.IsNearest q ↔ m.around.Contains (q / 10 ^ m.quarter.2) := by
  have hlow := low_around_mul hpos
  have hhigh := m.high_around_mul
  have hpower : (0 : ℚ) < 10 ^ m.quarter.2 := by positivity
  have hends : m.around.ends = decide (m.mantissa % 2 = 0) := rfl
  rw [isNearest_iff_closer hm hpos, closer_iff_of_gt m.below_lt, closer_iff_of_lt m.lt_above,
    ← hlow, ← hhigh, Around.Contains, hends]
  by_cases heven : m.mantissa % 2 = 0
  · rw [if_pos (by simpa using heven), le_div_iff₀ hpower, div_le_iff₀ hpower]
    simp only [heven, and_true]
    constructor
    · rintro ⟨hl, hh⟩
      exact ⟨by rcases hl with h | h <;> linarith, by rcases hh with h | h <;> linarith⟩
    · rintro ⟨hl, hh⟩
      refine ⟨hl.lt_or_eq.imp (fun h => ?_) fun h => ?_,
        hh.lt_or_eq.imp (fun h => ?_) fun h => ?_⟩ <;> linarith
  · rw [if_neg (by simpa using heven), lt_div_iff₀ hpower, div_lt_iff₀ hpower]
    simp only [heven, and_false, or_false]
    constructor <;> rintro ⟨hl, hh⟩ <;> exact ⟨by linarith, by linarith⟩

/-- Zero is read as zero. -/
theorem isNearest_zero (e : ℤ) : (Magnitude.mk 0 e).IsNearest 0 := by
  intro z _ hne
  have hvalue : (Magnitude.mk 0 e).value = 0 := value_of_mantissa rfl
  rw [hvalue] at hne ⊢
  exact .inl (by simpa using hne)

/-- A number is not read as the larger one of two magnitudes and as the smaller one. -/
theorem not_isNearest_of_lt {n : Magnitude} (hm : 0 < m.mantissa → m.Canonical)
    (hn : n.Canonical) {q : ℚ} (hlt : m.value < n.value) (h : m.IsNearest q) :
    ¬ n.IsNearest q := by
  intro h'
  have hpos := mantissa_pos_of_lt hlt
  have hshort : IsShort m.value := by
    rcases Nat.eq_zero_or_pos m.mantissa with hzero | hpos
    · exact (value_of_mantissa hzero).symm ▸ isShort_zero
    · exact (hm hpos).isShort_value
  have hle := hn.le_below hpos hshort hlt
  have hlow := (closer_iff_of_lt hlt).1 (h _ hn.isShort_value hlt.ne')
  have hhigh := (closer_iff_of_gt n.below_lt).1 (h' _ (hn.isShort_below hpos) n.below_lt.ne)
  obtain ⟨r, hr, hbelow, -, hodd⟩ := hn.exists_below hpos
  -- Halfway between the two the even mantissa decides, and one of two neighbours is odd.
  obtain ⟨heq, heven, hodd⟩ : m.value = r.value ∧ m.mantissa % 2 = 0 ∧ r.mantissa % 2 = 1 := by
    rcases hlow with hlow | ⟨hlow, heven⟩ <;> rcases hhigh with hhigh | ⟨hhigh, heven'⟩
    · linarith
    · linarith
    · linarith
    · exact ⟨by rw [hbelow]; linarith, heven, hodd heven'⟩
  rcases Nat.eq_zero_or_pos m.mantissa with hzero | hmpos
  · have hrpos : 0 < r.mantissa := by omega
    rw [value_of_mantissa hzero] at heq
    exact absurd heq (value_pos hrpos).ne
  · obtain rfl := (hm hmpos).eq_of_value_eq hr heq
    omega

/-- **A number is read as one magnitude only.** -/
theorem IsNearest.value_eq {n : Magnitude} (hm : 0 < m.mantissa → m.Canonical)
    (hn : 0 < n.mantissa → n.Canonical) {q : ℚ} (h : m.IsNearest q) (h' : n.IsNearest q) :
    m.value = n.value := by
  rcases lt_trichotomy m.value n.value with hlt | heq | hgt
  · exact absurd h' (not_isNearest_of_lt hm (hn (mantissa_pos_of_lt hlt)) hlt h)
  · exact heq
  · exact absurd h (not_isNearest_of_lt hn (hm (mantissa_pos_of_lt hgt)) hgt h')

theorem canonical_of_ofFloat? {x : Float} (hx : ofFloat? x = some m) (hpos : 0 < m.mantissa) :
    m.Canonical := by
  rw [ofFloat?_eq] at hx
  cases hu : x.toModel.unpack with
  | notANumber | infinity => simp [hu, ofParts?] at hx
  | zero s =>
    rw [hu] at hx
    obtain rfl := Option.some.inj hx
    exact absurd hpos (lt_irrefl 0)
  | finite s m e hm =>
    rw [hu] at hx
    obtain rfl := Option.some.inj hx
    exact canonical_of_unpack hu

theorem exists_ofFloat? {x : Float} (h : x.isFinite) : ∃ m, ofFloat? x = some m := by
  obtain ⟨s, q, hq⟩ := exists_isValue h
  rw [ofFloat?_eq]
  obtain ⟨hu, -⟩ | ⟨m, e, hm, hu, -⟩ := hq.parts <;> rw [hu] <;> exact ⟨_, rfl⟩

end Magnitude

theorem exactMagnitude_of_ofFloat? {x : Float} {m : Magnitude} (h : Magnitude.ofFloat? x = some m) :
    exactMagnitude x = m.value := by
  rw [exactMagnitude, h]
  rfl

/-! ## Signs -/

/-- A magnitude with the sign of a double. -/
def signed (x : Float) (q : ℚ) : ℚ :=
  if x < 0.0 then -q else q

/-- The exact value of a finite double. -/
def exactValue (x : Float) : ℚ :=
  signed x (exactMagnitude x)

/-- **`q` is read as `x`**: no number with as few digits is nearer to `q` than the
double, and if one is as near the double has an even mantissa. -/
def ReadsAs (q : ℚ) (x : Float) : Prop :=
  ∃ m, Magnitude.ofFloat? x = some m ∧
    ∀ z, IsShort |z| → z ≠ exactValue x → Closer (m.mantissa % 2 = 0) q (exactValue x) z

/-- Numbers of the other sign are no rivals, as zero is nearer. -/
theorem forall_closer_iff {preferred : Prop} {q v : ℚ} (hq : 0 ≤ q) (hv : 0 ≤ v) :
    (∀ z, IsShort |z| → z ≠ v → Closer preferred q v z) ↔
      ∀ z, IsShort z → z ≠ v → Closer preferred q v z := by
  constructor
  · intro h z hz
    exact h z (by rwa [abs_of_nonneg hz.nonneg])
  · intro h z hz hne
    rcases le_or_gt 0 z with hpos | hneg
    · exact h z (by rwa [abs_of_nonneg hpos] at hz) hne
    · rw [abs_of_neg hneg] at hz
      have hfar : ∀ w, 0 ≤ w → w ≤ -z → |q - w| ≤ |q - z| := by
        intro w hw hwz
        rw [abs_of_pos (by linarith : 0 < q - z), abs_le]
        constructor <;> linarith
      rcases hv.eq_or_lt with rfl | hv
      · exact (h (-z) hz (by linarith)).of_le (hfar _ (by linarith) le_rfl)
      · exact (h 0 isShort_zero hv.ne).of_le (hfar 0 le_rfl (by linarith))

/-- **The sign has no say** in what is read as a double. -/
theorem readsAs_signed_iff {x : Float} {m : Magnitude} (hx : Magnitude.ofFloat? x = some m) {q : ℚ}
    (hq : 0 ≤ q) : ReadsAs (signed x q) x ↔ m.IsNearest q := by
  have hsign : (∀ z, IsShort |z| → z ≠ signed x m.value →
      Closer (m.mantissa % 2 = 0) (signed x q) (signed x m.value) z) ↔
      ∀ z, IsShort |z| → z ≠ m.value → Closer (m.mantissa % 2 = 0) q m.value z := by
    unfold signed
    split
    · constructor <;> intro h z hz hne
      · rw [← closer_neg]
        exact h (-z) (by rwa [abs_neg]) (by simpa using hne)
      · rw [← closer_neg, neg_neg, neg_neg]
        exact h (-z) (by rwa [abs_neg]) fun heq => hne (by linarith)
    · exact Iff.rfl
  rw [ReadsAs, exactValue, exactMagnitude_of_ofFloat? hx, hx]
  simp only [Option.some.injEq, exists_eq_left']
  rw [hsign, forall_closer_iff hq m.value_nonneg]
  rfl

/-- What is read from a number has its sign, as zero is nearer than what has the other. -/
theorem eq_of_closer {preferred : Prop} {q v w : ℚ} (hq : 0 ≤ q) (hv : 0 ≤ v) (hw : w = v ∨ w = -v)
    (h : ∀ z, IsShort |z| → z ≠ w → Closer preferred q w z) : w = v := by
  rcases hw with rfl | rfl
  · rfl
  · rcases hv.eq_or_lt with rfl | hpos
    · exact neg_zero
    · have hzero := h 0 (by rw [abs_zero]; exact isShort_zero) (by linarith)
      rw [closer_iff_of_lt (by linarith)] at hzero
      rcases hzero with hlt | ⟨heq, -⟩ <;> linarith

/-- The magnitude of what is read, and its sign. -/
theorem ReadsAs.parts {q : ℚ} {x : Float} (h : ReadsAs q x) :
    ∃ m : Magnitude, (0 < m.mantissa → m.Canonical) ∧ m.IsNearest |q| ∧
      exactValue x = if q < 0 then -m.value else m.value := by
  obtain ⟨m, hm, h⟩ := h
  refine ⟨m, Magnitude.canonical_of_ofFloat? hm, ?_⟩
  have hvalue : exactValue x = m.value ∨ exactValue x = -m.value := by
    rw [exactValue, exactMagnitude_of_ofFloat? hm, signed]
    split
    · exact .inr rfl
    · exact .inl rfl
  generalize exactValue x = w at h hvalue
  rcases lt_or_ge q 0 with hneg | hpos
  · have hflip : ∀ z, IsShort |z| → z ≠ -w → Closer (m.mantissa % 2 = 0) (-q) (-w) z := by
      intro z hz hne
      rw [← closer_neg, neg_neg, neg_neg]
      exact h (-z) (by rwa [abs_neg]) fun heq => hne (by linarith)
    have hw : -w = m.value := by
      refine eq_of_closer (by linarith) m.value_nonneg ?_ hflip
      rcases hvalue with rfl | rfl
      · exact .inr rfl
      · exact .inl (neg_neg _)
    rw [if_pos hneg, abs_of_neg hneg, ← hw, neg_neg]
    rw [hw, forall_closer_iff (by linarith) m.value_nonneg] at hflip
    exact ⟨hflip, rfl⟩
  · have hw := eq_of_closer hpos m.value_nonneg hvalue h
    rw [if_neg hpos.not_gt, abs_of_nonneg hpos]
    rw [hw, forall_closer_iff hpos m.value_nonneg] at h
    exact ⟨h, hw⟩

/-- **A number is read as one double only**, up to the sign of zero. -/
theorem ReadsAs.exactValue_eq {q : ℚ} {x y : Float} (hx : ReadsAs q x) (hy : ReadsAs q y) :
    exactValue x = exactValue y := by
  obtain ⟨m, hm, hnearest, hvalue⟩ := hx.parts
  obtain ⟨n, hn, hnearest', hvalue'⟩ := hy.parts
  rw [hvalue, hvalue', hnearest.value_eq hm hn hnearest']

end TickLabels
