import Mathlib
import TickLabels.Binary64.Tolerance
import TickLabels.Proofs.Binary64.Order
import TickLabels.Proofs.Decimal.Numeral
import TickLabels.Units.Unit
import TickLabels.Units.Table
/-!
# Comparing within a tolerance

The difference of two doubles is rounded before it is compared with a tolerance. The
outcome is that of exact numbers (`atLeastWithin_iff_of_lt`), if the two are within a factor of
two wherever it matters: a difference with few digits is exact, and one that is as large
as the tolerance stays so. The tolerance of a range, three digits behind the leading one,
is small enough for that (`exists_isValue_tolerance`).
-/

namespace TickLabels

open Float.Model (UnpackedFloat)
open Float.Model.UnpackedFloat

/-! ## The exact magnitude of a double -/

namespace Magnitude

/-- The number that a magnitude stands for. -/
def value (m : Magnitude) : ℚ :=
  m.mantissa * 2 ^ m.exponent

theorem value_eq_toDecimal (m : Magnitude) : m.value = m.toDecimal.1 * 10 ^ m.toDecimal.2 := by
  unfold value toDecimal
  split
  · next h => rw [zpow_zero, mul_one]; exact (natCast_of_exponent h).symm
  · next h =>
    have hten : (10 : ℚ) ^ m.exponent = 5 ^ m.exponent * 2 ^ m.exponent := by
      rw [← mul_zpow]
      norm_num
    have hfive : (5 : ℚ) ^ (-m.exponent).toNat * 5 ^ m.exponent = 1 := by
      rw [← zpow_natCast, ← zpow_add₀ (by norm_num),
        show ((-m.exponent).toNat : ℤ) + m.exponent = 0 by omega, zpow_zero]
    dsimp only
    rw [hten]
    push_cast [Nat.pow_eq]
    linear_combination (-(m.mantissa : ℚ) * 2 ^ m.exponent) * hfive

/-- A magnitude is at least the power of ten of its leading digit. -/
theorem pow_decimalExponent_le {m : Magnitude} (h : 0 < m.mantissa) :
    (10 : ℚ) ^ m.decimalExponent ≤ m.value := by
  have hpos : 0 < m.toDecimal.1 := by
    unfold toDecimal
    split <;> exact Nat.mul_pos h (Nat.pow_pos (by norm_num))
  rw [value_eq_toDecimal]
  unfold decimalExponent
  generalize m.toDecimal = n at *
  obtain ⟨n, k⟩ := n
  dsimp only at hpos ⊢
  have hlength : 0 < (digitsOf n).length := by
    refine List.length_pos_iff.2 fun hnil => ?_
    exact hpos.ne' (digitsOf_eq_nil_iff.1 hnil)
  have hle : 10 ^ ((digitsOf n).length - 1) ≤ n := by
    refine Nat.not_lt.1 fun hlt => ?_
    have := length_digitsOf_le_iff.2 hlt
    omega
  rw [zpow_add₀ (by norm_num), show ((digitsOf n).length : ℤ) - 1 =
    (((digitsOf n).length - 1 : ℕ) : ℤ) by omega, zpow_natCast]
  exact mul_le_mul_of_nonneg_right (by exact_mod_cast hle) (by positivity)

/-- A magnitude is below the power of ten that follows its leading digit. -/
theorem lt_pow_decimalExponent (m : Magnitude) : m.value < 10 ^ (m.decimalExponent + 1) := by
  rw [value_eq_toDecimal]
  unfold decimalExponent
  generalize m.toDecimal = n
  obtain ⟨n, k⟩ := n
  have hlt : n < 10 ^ (digitsOf n).length := length_digitsOf_le_iff.1 le_rfl
  dsimp only
  rw [show ((digitsOf n).length : ℤ) - 1 + k + 1 = (digitsOf n).length + k by ring,
    zpow_add₀ (by norm_num), zpow_natCast]
  exact mul_lt_mul_of_pos_right (by exact_mod_cast hlt) (by positivity)

theorem logarithmFloor_bounds (m : Magnitude) :
    m.decimalExponent ≤ m.logarithmFloor ∧ m.logarithmFloor ≤ m.decimalExponent + 1 := by
  unfold logarithmFloor
  dsimp only
  split <;> omega

end Magnitude

/-- The exact magnitude of a double, and zero for what is not finite. -/
def exactMagnitude (x : Float) : ℚ :=
  ((Magnitude.ofFloat? x).map Magnitude.value).getD 0

theorem isFinite_of_exactMagnitude_ne_zero {x : Float} (h : exactMagnitude x ≠ 0) :
    x.isFinite := by
  by_contra hx
  rw [exactMagnitude, Magnitude.ofFloat?_eq_none_iff.2 hx] at h
  exact h rfl

theorem exactMagnitude_eq {x : Float} {s : Sign} {q : ℚ} (h : IsValue x.toModel.unpack s q) :
    exactMagnitude x = q := by
  unfold exactMagnitude
  rw [Magnitude.ofFloat?_eq]
  obtain ⟨hu, rfl⟩ | ⟨m, e, hm, hu, rfl⟩ := h.parts <;> rw [hu]
  · simp [Magnitude.ofParts?, Magnitude.value]
  · rfl

theorem exists_isValue {x : Float} (h : x.isFinite) : ∃ s q, IsValue x.toModel.unpack s q := by
  have hfinite : x.toModel.unpack.isFinite := h
  cases hu : x.toModel.unpack with
  | notANumber | infinity => simp [hu, UnpackedFloat.isFinite] at hfinite
  | zero s => exact ⟨s, 0, .zero s⟩
  | finite s m e hm => exact ⟨s, _, .finite rfl⟩

theorem IsValue.isFinite {x : Float} {s : Sign} {q : ℚ} (h : IsValue x.toModel.unpack s q) :
    x.isFinite := by
  change x.toModel.unpack.isFinite = true
  obtain ⟨hu, -⟩ | ⟨m, e, hm, hu, -⟩ := h.parts <;> rw [hu] <;> rfl

theorem isValue_abs_exactMagnitude {x : Float} (h : x.isFinite) :
    IsValue x.abs.toModel.unpack .positive (exactMagnitude x) := by
  obtain ⟨s, q, hq⟩ := exists_isValue h
  rw [exactMagnitude_eq hq]
  exact isValue_abs hq

theorem isShort_of_isValue {x : Float} {s : Sign} {q : ℚ} (h : IsValue x.toModel.unpack s q) :
    IsShort q := by
  obtain ⟨hu, rfl⟩ | ⟨m, e, hm, hu, rfl⟩ := h.parts
  · exact ⟨0, 0, by norm_num, by norm_num, by simp⟩
  · exact ⟨m, e, (canonical_of_unpack hu).mantissa_lt, (canonical_of_unpack hu).min_le, rfl⟩

/-! ## Comparisons -/

section Compare

variable {p x y : Float} {q a b : ℚ}

/-- The two comparisons are complements. -/
theorem lessWithin_eq_not (p : Float) (hx : IsValue x.toModel.unpack .positive a)
    (hy : IsValue y.toModel.unpack .positive b) : lessWithin p x y = !atLeastWithin p x y := by
  have hlt := lt_iff hx hy
  have hgt := lt_iff hy hx
  have heq := beq_iff hx hy
  unfold lessWithin atLeastWithin equalWithin
  rcases lt_trichotomy a b with h | h | h
  · simp [hlt.2 h, mt hgt.1 h.le.not_gt, mt heq.1 h.ne]
  · simp [heq.2 h]
  · simp [hgt.2 h, mt hlt.1 h.le.not_gt]

theorem atLeastWithin_of_le (p : Float) (hx : IsValue x.toModel.unpack .positive a)
    (hy : IsValue y.toModel.unpack .positive b) (h : b ≤ a) : atLeastWithin p x y := by
  unfold atLeastWithin equalWithin
  rcases h.lt_or_eq with hlt | rfl
  · simp [(lt_iff hy hx).2 hlt]
  · simp [(beq_iff hx hy).2 rfl]

/-- **A rounded difference is below the tolerance if the exact one is**, for numbers
within a factor of two. -/
theorem atLeastWithin_iff_of_lt (hp : IsValue p.toModel.unpack .positive q)
    (hx : IsValue x.toModel.unpack .positive a) (hy : IsValue y.toModel.unpack .positive b)
    (h : a < b) (hb : b < 2 ^ 200) (hclose : b - a < q → b ≤ 2 * a) :
    atLeastWithin p x y ↔ b - a < q := by
  obtain ⟨f, hf, hside⟩ := exists_isValue_abs_sub hx hy h hb
  have hgt : ¬ y < x := mt (lt_iff hy hx).1 h.le.not_gt
  have heq : ¬ (x == y) = true := mt (beq_iff hx hy).1 h.ne
  have hwithin : atLeastWithin p x y ↔ f < q := by
    rw [← lt_iff hf hp]
    simp [atLeastWithin, equalWithin, hgt, heq]
  rw [hwithin]
  rcases lt_or_ge (b - a) q with hlt | hle
  · rw [hside.eq (isShort_sub (isShort_of_isValue hx) (isShort_of_isValue hy) h.le (hclose hlt))]
  · exact iff_of_false ((hside q (isShort_of_isValue hp)).2 hle).not_gt hle.not_gt

/-- Nothing finite is within a tolerance of infinity. -/
theorem lessWithin_infinity (p : Float) (hx : IsValue x.toModel.unpack .positive a) :
    lessWithin p x infinity := by
  have hinfinity : infinity.toModel.unpack = .infinity .positive := rfl
  have hless : x.toModel.unpack.compare (.infinity .positive) = some .lt := by
    obtain ⟨hu, -⟩ | ⟨m, e, hm, hu, -⟩ := hx.parts <;> rw [hu] <;> rfl
  have hdistance : (x - infinity).abs.toModel.unpack = .infinity .positive := by
    have hsub : UnpackedFloat.sub .binary64 x.toModel.unpack (.infinity .positive) =
        .infinity .negative := by
      obtain ⟨hu, -⟩ | ⟨m, e, hm, hu, -⟩ := hx.parts <;> rw [hu] <;> rfl
    rw [unpack_abs]
    change (Float.Model.pack (UnpackedFloat.sub .binary64 x.toModel.unpack
      infinity.toModel.unpack)).unpack.abs = _
    rw [hinfinity, hsub, unpack_pack_infinity]
    rfl
  have hlt : x < infinity := by
    change decide ((x.toModel.unpack.compare infinity.toModel.unpack == some .lt) = true) = true
    rw [hinfinity, hless]
    rfl
  have heq : (x == infinity) = false := by
    change (x.toModel.unpack.compare infinity.toModel.unpack == some .eq) = false
    rw [hinfinity, hless]
    rfl
  have hfar : ¬ (x - infinity).abs < p := by
    change ¬ decide (((x - infinity).abs.toModel.unpack.compare p.toModel.unpack == some .lt) =
      true) = true
    rw [hdistance, decide_eq_true_eq, beq_iff_eq]
    cases p.toModel.unpack with
    | infinity s => cases s <;> exact nofun
    | _ => exact nofun
  simp [lessWithin, equalWithin, hlt, heq, hfar]

end Compare

/-! ## Powers of ten -/

/-- Infinite, or no less than `z`. -/
def IsAtLeast (z : ℚ) (x : Float) : Prop :=
  x.toModel.unpack = .infinity .positive ∨ ∃ q, IsValue x.toModel.unpack .positive q ∧ z ≤ q

theorem IsAtLeast.mono {z w : ℚ} {x : Float} (h : IsAtLeast z x) (hle : w ≤ z) : IsAtLeast w x :=
  h.imp_right fun ⟨q, hq, hz⟩ => ⟨q, hq, hle.trans hz⟩

/-- Bounds with few digits are kept by products. -/
theorem IsAtLeast.mul {z w : ℚ} {x y : Float} (hx : IsAtLeast z x) (hy : IsAtLeast w y)
    (hz : 0 < z) (hw : 0 < w) (hshort : IsShort (z * w)) : IsAtLeast (z * w) (x * y) := by
  have hfinite {x : Float} {z : ℚ} (hz : 0 < z)
      (hx : ∃ q, IsValue x.toModel.unpack .positive q ∧ z ≤ q) :
      ∃ m e hm, x.toModel.unpack = .finite .positive m e hm := by
    obtain ⟨q, hq, hle⟩ := hx
    obtain ⟨-, rfl⟩ | ⟨m, e, hm, hu, -⟩ := hq.parts
    · exact absurd hle (not_le.2 hz)
    · exact ⟨m, e, hm, hu⟩
  have hmul (u : UnpackedFloat) (hu : UnpackedFloat.mul .binary64 x.toModel.unpack
      y.toModel.unpack = u) : (x * y).toModel.unpack = (Float.Model.pack u).unpack :=
    congrArg (fun u => (Float.Model.pack u).unpack) hu
  rcases hx with hx | hx <;> rcases hy with hy | hy
  · left
    rw [hmul _ (by rw [hx, hy])]
    exact unpack_pack_infinity .positive
  · obtain ⟨m, e, hm, hy⟩ := hfinite hw hy
    left
    rw [hmul _ (by rw [hx, hy])]
    exact unpack_pack_infinity .positive
  · obtain ⟨m, e, hm, hx⟩ := hfinite hz hx
    left
    rw [hmul _ (by rw [hx, hy])]
    exact unpack_pack_infinity .positive
  · obtain ⟨q, hx, hq⟩ := hx
    obtain ⟨r, hy, hr⟩ := hy
    have hproduct := isRounded_mul hx hy
    change IsRounded _ .positive _ at hproduct
    generalize hu : (x * y).toModel.unpack = u at hproduct
    cases hproduct with
    | infinity => exact .inl hu
    | value hf hside =>
      refine .inr ⟨_, hu ▸ hf, (hside _ hshort).2 ?_⟩
      exact mul_le_mul hq hr hw.le (hz.le.trans hq)

/-- Every power of a number above eight is above eight. -/
theorem isAtLeast_powerLoop {n : ℕ} (hn : 0 < n) {result base : Float}
    (hresult : IsAtLeast 1 result) (hbase : IsAtLeast 8 base) :
    IsAtLeast 8 (powerLoop result base n) := by
  induction n using Nat.strong_induction_on generalizing result base with
  | _ n ih =>
    have hproduct : IsAtLeast 8 (result * base) := by
      have := hresult.mul hbase one_pos (by norm_num) ⟨8, 0, by norm_num, by norm_num, by norm_num⟩
      exact this.mono (by norm_num)
    have hsquare : IsAtLeast 8 (base * base) := by
      have := hbase.mul hbase (by norm_num) (by norm_num)
        ⟨64, 0, by norm_num, by norm_num, by norm_num⟩
      exact this.mono (by norm_num)
    rw [powerLoop]
    split
    · next hlast =>
      rw [if_pos (by omega)]
      exact hproduct
    · next hmore =>
      refine ih (n / 2) (by omega) (by omega) ?_ hsquare
      split
      · exact hproduct.mono (by norm_num)
      · exact hresult

/-- A negative power of ten is small. -/
theorem exists_isValue_powerOfTen_neg {e : ℤ} (h : e < 0) :
    ∃ q, IsValue (powerOfTen e).toModel.unpack .positive q ∧ q ≤ 1 / 8 := by
  have hone : (1.0 : Float).toModel.unpack = .finite .positive (2 ^ 52) (-52) (by decide) := rfl
  have hten : (10.0 : Float).toModel.unpack =
    .finite .positive 5629499534213120 (-49) (by decide) := rfl
  have hpower : IsAtLeast 8 (power 10.0 (-e).toNat) := by
    refine isAtLeast_powerLoop (by omega) (.inr ⟨1, ?_, le_rfl⟩) (.inr ⟨10, ?_, by norm_num⟩)
    · rw [hone]
      exact .finite (by norm_num)
    · rw [hten]
      exact .finite (by norm_num)
  rw [powerOfTen, if_neg (by omega)]
  rcases hpower with hinfinity | ⟨r, hr, hle⟩
  · refine ⟨0, ?_, by norm_num⟩
    change IsValue (Float.Model.pack (UnpackedFloat.div .binary64 (1.0 : Float).toModel.unpack
      (power 10.0 (-e).toNat).toModel.unpack)).unpack _ _
    rw [hinfinity, hone]
    exact unpack_pack_zero .positive ▸ .zero .positive
  · refine exists_isValue_div (a := 1) ?_ hr (by positivity) ⟨1, -3, by norm_num, by norm_num,
      by norm_num⟩ ?_ (by norm_num)
    · rw [hone]
      exact .finite (by norm_num)
    · exact one_div_le_one_div_of_le (by norm_num) hle

/-- A double that is a natural number. -/
def isNat (x : Float) (n : ℕ) : Bool :=
  match x.toModel.unpack with
  | .zero .positive => n = 0
  | .finite .positive m e _ => m * 2 ^ e.toNat = n * 2 ^ (-e).toNat
  | _ => false

theorem isValue_of_isNat {x : Float} {n : ℕ} (h : isNat x n) :
    IsValue x.toModel.unpack .positive n := by
  unfold isNat at h
  split at h
  · next hu =>
    obtain rfl := of_decide_eq_true h
    rw [hu]
    exact_mod_cast IsValue.zero .positive
  · next m e hm hu =>
    have hvalue : (m : ℚ) * 2 ^ e.toNat = n * 2 ^ (-e).toNat := by
      exact_mod_cast of_decide_eq_true h
    have hpow : (2 : ℚ) ^ e * 2 ^ (-e).toNat = 2 ^ e.toNat := by
      rw [← zpow_natCast, ← zpow_natCast, ← zpow_add₀ (by norm_num)]
      congr 1
      omega
    rw [hu]
    refine .finite (mul_right_cancel₀ (show (2 : ℚ) ^ (-e).toNat ≠ 0 by positivity) ?_)
    rw [← hvalue, mul_assoc, hpow]
  · contradiction

/-- Up to `10 ^ 22` the powers of ten are exact. -/
theorem isNat_powerOfTen : ∀ n < 23, isNat (powerOfTen (n : ℕ)) (10 ^ n) := by
  decide +kernel

/-- A power of ten that is not small is exact. -/
theorem exists_isValue_powerOfTen_le {e d : ℤ} (h : e ≤ d) (hd : d < 23) :
    ∃ q, IsValue (powerOfTen e).toModel.unpack .positive q ∧ (q ≤ 1 / 8 ∨ q ≤ 10 ^ d) := by
  rcases lt_or_ge e 0 with hneg | hpos
  · obtain ⟨q, hq, hle⟩ := exists_isValue_powerOfTen_neg hneg
    exact ⟨q, hq, .inl hle⟩
  · have hexact := isNat_powerOfTen e.toNat (by omega)
    rw [Int.toNat_of_nonneg hpos] at hexact
    refine ⟨_, isValue_of_isNat hexact, .inr ?_⟩
    push_cast
    rw [← zpow_natCast]
    exact zpow_le_zpow_right₀ (by norm_num) (by omega)

/-! ## The tolerance of a range -/

/-- The power of ten of a number is off by two at most. -/
theorem orderOfMagnitude_le {x : Float} {m : Magnitude} (hx : Magnitude.ofFloat? x = some m)
    (hm : 0 < m.mantissa) : orderOfMagnitude x ≤ m.decimalExponent + 2 := by
  have hfloor := m.logarithmFloor_bounds.2
  unfold orderOfMagnitude
  rw [hx]
  dsimp only
  rw [if_neg hm.ne']
  split
  · omega
  · split <;> omega

/-- **The tolerance of a number is small**: no more than an eighth, or than the number. -/
theorem exists_isValue_tolerance {x : Float} {a : ℚ} (hx : IsValue x.toModel.unpack .positive a)
    (ha : a < 10 ^ 23) :
    ∃ q, IsValue (DisplayUnit.tolerance x).toModel.unpack .positive q ∧ (q ≤ 1 / 8 ∨ q ≤ a) := by
  have hbeq := beq_iff hx (show IsValue (0.0 : Float).toModel.unpack .positive 0 from .zero _)
  have hfinite : x.isFinite = true := hx.isFinite
  unfold DisplayUnit.tolerance gridStep?
  obtain ⟨hu, rfl⟩ | ⟨m, e, hm, hu, rfl⟩ := hx.parts
  · have habsolute : IsValue absoluteTolerance.toModel.unpack .positive
        ((7378697629483821 : ℕ) * 2 ^ (-66 : ℤ)) :=
      .finite (h := by norm_num) rfl
    rw [hbeq.2 rfl]
    exact ⟨_, habsolute, .inl (by norm_num)⟩
  · have hne : (x == 0.0) = false := by
      rw [Bool.eq_false_iff, Ne, hbeq]
      positivity
    rw [hne, hfinite]
    change ∃ q, IsValue (powerOfTen (orderOfMagnitude x - 3)).toModel.unpack _ q ∧ _
    have hmagnitude : Magnitude.ofFloat? x = some ⟨m, e⟩ := by
      rw [Magnitude.ofFloat?_eq, hu]
      rfl
    have horder := orderOfMagnitude_le hmagnitude hm
    have hleading := Magnitude.pow_decimalExponent_le (m := ⟨m, e⟩) hm
    change _ ≤ (m * 2 ^ e : ℚ) at hleading
    generalize (Magnitude.mk m e).decimalExponent = d at horder hleading
    -- The power of ten of the tolerance is below the leading digit.
    have hd : d < 23 := by
      have := hleading.trans_lt ha
      rw [← zpow_natCast] at this
      exact (zpow_lt_zpow_iff_right₀ (by norm_num)).1 this
    obtain ⟨q, hq, hle⟩ := exists_isValue_powerOfTen_le (e := orderOfMagnitude x - 3)
      (by omega) hd
    exact ⟨q, hq, hle.imp_right fun hle => hle.trans hleading⟩

end TickLabels
