import Mathlib
import TickLabels.Binary64.Rounding
import TickLabels.Proofs.Binary64.Encoding
/-!
# Rounded arithmetic

The result of a product, a quotient or a conversion is rounded, but never past a
number that has 53 binary digits (`SameSide`). So a result that has as few digits is
exact, and a bound that has is kept. Whole numbers below `2 ^ 53` are such results
(`toInt64_ofInt`), and what is a multiple of a step stays one
(`dvd_toInt64_floor_mul`).
-/

namespace TickLabels

open Float.Model (UnpackedFloat)
open Float.Model.UnpackedFloat

/-! ## Numbers with few digits -/

/-- The numbers that need at most 53 binary digits. -/
def IsShort (z : ℚ) : Prop :=
  ∃ k : ℕ, ∃ j : ℤ, k < 2 ^ 53 ∧ -1074 ≤ j ∧ z = k * 2 ^ j

/-- No number with few digits lies between `v` and `f`. -/
def SameSide (v f : ℚ) : Prop :=
  ∀ z, IsShort z → (v ≤ z → f ≤ z) ∧ (z ≤ v → z ≤ f)

theorem isShort_natCast {n : ℕ} (h : n < 2 ^ 53) : IsShort n :=
  ⟨n, 0, h, by norm_num, by simp⟩

theorem isShort_of_pow_dvd {n p : ℕ} (hdvd : 2 ^ p ∣ n) (hlt : n / 2 ^ p < 2 ^ 53) :
    IsShort n := by
  refine ⟨n / 2 ^ p, p, hlt, by omega, ?_⟩
  rw [zpow_natCast]
  exact_mod_cast (Nat.div_mul_cancel hdvd).symm

/-- A number with few digits has only itself on its side. -/
theorem SameSide.eq {v f : ℚ} (h : SameSide v f) (hv : IsShort v) : f = v :=
  le_antisymm ((h v hv).1 le_rfl) ((h v hv).2 le_rfl)

theorem sameSide_refl (v : ℚ) : SameSide v v :=
  fun _ _ => ⟨id, id⟩

/-- A multiple of `2 ^ T` next to `v` is on its side, if its digits are full or the
exponent is the least there is. -/
theorem sameSide_of_bounds {Q R : ℕ} {T : ℤ} {v : ℚ} (hlow : Q * 2 ^ T ≤ v)
    (hhigh : v < (Q + 1) * 2 ^ T) (hround : Q ≤ R ∧ R ≤ Q + 1)
    (hexact : v = Q * 2 ^ T → R = Q) (hfull : 2 ^ 52 ≤ Q ∨ T = -1074) :
    SameSide v (R * 2 ^ T) := by
  have hpos : (0 : ℚ) < 2 ^ T := by positivity
  have hround' : (Q : ℚ) * 2 ^ T ≤ R * 2 ^ T :=
    mul_le_mul_of_nonneg_right (by exact_mod_cast hround.1) hpos.le
  rintro z ⟨k, j, hk, hj, rfl⟩
  rcases le_or_gt T j with hle | hlt
  · -- The number is a multiple of `2 ^ T` as well.
    obtain ⟨K, hK⟩ : ∃ K : ℕ, (k : ℚ) * 2 ^ j = K * 2 ^ T := by
      refine ⟨k * 2 ^ (j - T).toNat, ?_⟩
      have hexp : j = ((j - T).toNat : ℤ) + T := by omega
      push_cast
      rw [mul_assoc, ← zpow_natCast (2 : ℚ) (j - T).toNat, ← zpow_add₀ (by norm_num), ← hexp]
    rw [hK]
    constructor
    · intro hv
      have hQK : Q ≤ K := by
        have := le_of_mul_le_mul_right (hlow.trans hv) hpos
        exact_mod_cast this
      have hRK : R ≤ K := by
        rcases Nat.lt_or_eq_of_le hQK with hltK | heqK
        · omega
        · subst heqK
          exact (hexact (le_antisymm hv hlow)).le
      exact mul_le_mul_of_nonneg_right (by exact_mod_cast hRK) hpos.le
    · intro hv
      have hKQ : K < Q + 1 := by
        have := lt_of_mul_lt_mul_right (hv.trans_lt hhigh) hpos.le
        exact_mod_cast this
      have hKR : K ≤ R := by omega
      exact mul_le_mul_of_nonneg_right (by exact_mod_cast hKR) hpos.le
  · -- The number is too small to need the last digits of `v`.
    have hQ : 2 ^ 52 ≤ Q := hfull.resolve_right (by omega)
    have hz : (k : ℚ) * 2 ^ j < Q * 2 ^ T := by
      calc (k : ℚ) * 2 ^ j < 2 ^ 53 * 2 ^ j := by
            refine mul_lt_mul_of_pos_right ?_ (by positivity)
            exact_mod_cast hk
        _ ≤ 2 ^ 53 * 2 ^ (T - 1) := by
            refine mul_le_mul_of_nonneg_left ?_ (by positivity)
            exact zpow_le_zpow_right₀ (by norm_num) (by omega)
        _ = 2 ^ 52 * 2 ^ T := by
            rw [zpow_sub_one₀ (by norm_num)]
            ring
        _ ≤ Q * 2 ^ T := mul_le_mul_of_nonneg_right (by exact_mod_cast hQ) hpos.le
    refine ⟨fun hv => ?_, fun _ => hz.le.trans hround'⟩
    exact absurd (hlow.trans hv) (not_le.2 hz)

/-! ## The parts of a double and its value -/

/-- The parts hold a number with a sign. -/
inductive IsValue : UnpackedFloat → Sign → ℚ → Prop
  | zero (s : Sign) : IsValue (.zero s) s 0
  | finite {s : Sign} {m : ℕ} {e : ℤ} {h : 0 < m} {q : ℚ} (hq : q = m * 2 ^ e) :
      IsValue (.finite s m e h) s q

theorem IsValue.parts {u : UnpackedFloat} {s : Sign} {q : ℚ} (h : IsValue u s q) :
    (u = .zero s ∧ q = 0) ∨ ∃ m e hm, u = .finite s m e hm ∧ q = m * 2 ^ e := by
  cases h with
  | zero => exact .inl ⟨rfl, rfl⟩
  | finite hq => exact .inr ⟨_, _, _, rfl, hq⟩

/-- The parts hold what becomes of a number when it is rounded. Only numbers beyond 64
bits become infinite, and by far not all of them. -/
inductive IsRounded : UnpackedFloat → Sign → ℚ → Prop
  | infinity {s : Sign} {v : ℚ} (h : 2 ^ 64 ≤ v) : IsRounded (.infinity s) s v
  | value {u : UnpackedFloat} {s : Sign} {v f : ℚ} (hf : IsValue u s f) (h : SameSide v f) :
      IsRounded u s v

/-- Few digits are kept. -/
theorem IsRounded.isValue {u : UnpackedFloat} {s : Sign} {v : ℚ} (h : IsRounded u s v)
    (hv : IsShort v) (hlt : v < 2 ^ 64) : IsValue u s v := by
  cases h with
  | infinity h => exact absurd h (not_le.2 hlt)
  | value hf h => rwa [h.eq hv] at hf

theorem IsRounded.natCast {u : UnpackedFloat} {s : Sign} {n : ℕ} (h : IsRounded u s n)
    (hn : n < 2 ^ 53) : IsValue u s n :=
  h.isValue (isShort_natCast hn) (by exact_mod_cast (show n < 2 ^ 64 by omega))

/-- What is within 64 bits stays finite. -/
theorem IsRounded.exists_isValue {u : UnpackedFloat} {s : Sign} {v : ℚ} (h : IsRounded u s v)
    (hv : v < 2 ^ 64) : ∃ f, IsValue u s f ∧ SameSide v f := by
  cases h with
  | infinity h => exact absurd h (not_le.2 hv)
  | value hf hside => exact ⟨_, hf, hside⟩

/-! ## Rounding -/

theorem mantissa_shiftRight (em : ExtendedMantissa) (k : ℕ) :
    (em >>> k).mantissa = em.mantissa / 2 ^ k := by
  induction k with
  | zero => simp [HShiftRight.hShiftRight, Nat.repeat]
  | succ k ih =>
    change (em >>> k).mantissa / 2 = _
    rw [ih, Nat.div_div_eq_div_mul, Nat.pow_succ]

theorem mantissa_ofMantissaAndAccuracy (m : ℕ) (a : Accuracy) :
    (ExtendedMantissa.ofMantissaAndAccuracy m a).mantissa = m := by
  cases a with
  | exact => rfl
  | inexact o => cases o <;> rfl

/-- Rounding goes up by one at most. -/
theorem roundedMantissa_bounds (em : ExtendedMantissa) :
    em.mantissa ≤ em.roundedMantissa ∧ em.roundedMantissa ≤ em.mantissa + 1 := by
  obtain ⟨m, r, s⟩ := em
  cases r <;> cases s <;>
    simp only [ExtendedMantissa.roundedMantissa, ExtendedMantissa.accuracy,
      Accuracy.roundToNearestEven] <;> omega

/-- The exponent that rounding aims at. -/
theorem targetExponent_eq (m : ℕ) (e : ℤ) :
    Float.Model.Format.binary64.targetExponent (Float.Model.totalExponent m e) =
      max ((m.log2 : ℤ) + 1 + e - 53) (-1074) := rfl

/-- A mantissa that is cut to the target has 53 digits at most, and fewer only at the
least exponent. -/
theorem cut_bounds {m k : ℕ} {e T : ℤ} (hT : T = max ((m.log2 : ℤ) + 1 + e - 53) (-1074))
    (hk : e + k = T) : m / 2 ^ k < 2 ^ 53 ∧ (2 ^ 52 ≤ m / 2 ^ k ∨ T = -1074) := by
  constructor
  · have hlog : m.log2 + 1 ≤ 53 + k := by omega
    rw [Nat.div_lt_iff_lt_mul (by positivity), ← Nat.pow_add]
    exact Nat.lt_of_lt_of_le Nat.lt_log2_self (Nat.pow_le_pow_right (by norm_num) hlog)
  · rcases eq_or_ne T (-1074) with hmin | hmin
    · exact .inr hmin
    · left
      have hlog : 52 + k = m.log2 := by omega
      have hm : m ≠ 0 := by
        rintro rfl
        simp at hlog
      rw [Nat.le_div_iff_mul_le (by positivity), ← Nat.pow_add, hlog]
      exact Nat.log2_self_le hm

/-- Short mantissas are kept by the second shift, and a carry moves one digit. -/
theorem shiftToTargetExponent_carry {R : ℕ} {T : ℤ} (hR : R ≤ 2 ^ 53) (hT : -1074 ≤ T) :
    shiftToTargetExponent .binary64 R T .exact =
      if R < 2 ^ 53 then (⟨R, false, false⟩, T) else (⟨2 ^ 52, false, false⟩, T + 1) := by
  unfold shiftToTargetExponent
  dsimp only
  rw [targetExponent_eq]
  split
  · next hlt =>
    have hlog : R.log2 < 53 := by
      rcases Nat.eq_zero_or_pos R with rfl | hpos
      · simp
      · exact (Nat.log2_lt (by omega)).2 hlt
    have hzero : (max ((R.log2 : ℤ) + 1 + T - 53) (-1074) - T).toNat = 0 := by omega
    unfold shiftToExponent
    dsimp only
    rw [hzero]
    exact Prod.ext rfl (by simp)
  · next hge =>
    obtain rfl : R = 2 ^ 53 := by omega
    have hone : (max (((2 ^ 53 : ℕ).log2 : ℤ) + 1 + T - 53) (-1074) - T).toNat = 1 := by
      rw [Nat.log2_two_pow]
      omega
    unfold shiftToExponent
    dsimp only
    rw [hone]
    rfl

/-- The mantissa that is left when rounding has cut it to a target. -/
def cutMantissa (m : ℕ) (a : Accuracy) (k : ℕ) : ExtendedMantissa :=
  ExtendedMantissa.ofMantissaAndAccuracy m a >>> k

theorem mantissa_cutMantissa (m : ℕ) (a : Accuracy) (k : ℕ) :
    (cutMantissa m a k).mantissa = m / 2 ^ k := by
  rw [cutMantissa, mantissa_shiftRight, mantissa_ofMantissaAndAccuracy]

/-- **The two shifts of rounding.** The mantissa is cut to the target exponent and
rounded, and a carry into the 54th digit is shifted out. -/
theorem roundWithAccuracy_cut {s : Sign} {m : ℕ} {e T : ℤ} {a : Accuracy}
    (hT : T = Float.Model.Format.binary64.targetExponent (Float.Model.totalExponent m e))
    (hle : e ≤ T) {R : ℕ} (hR : R = (cutMantissa m a (T - e).toNat).roundedMantissa) :
    roundWithAccuracy .binary64 s m e a =
      if R < 2 ^ 53 then
        if h : R = 0 then .zero s else .finite s R T (Nat.pos_of_ne_zero h)
      else .finite s (2 ^ 52) (T + 1) (by norm_num) := by
  have hT' := hT.trans (targetExponent_eq m e)
  have hfirst : shiftToTargetExponent .binary64 m e a = (cutMantissa m a (T - e).toNat, T) := by
    unfold shiftToTargetExponent shiftToExponent
    dsimp only
    rw [← hT]
    exact Prod.ext rfl (by dsimp only; omega)
  obtain ⟨hcut, -⟩ := cut_bounds (k := (T - e).toNat) hT' (by omega)
  have hbounds := roundedMantissa_bounds (cutMantissa m a (T - e).toNat)
  rw [mantissa_cutMantissa, ← hR] at hbounds
  have hsecond := shiftToTargetExponent_carry (R := R) (T := T) (by omega) (by omega)
  unfold roundWithAccuracy
  rw [hfirst]
  dsimp only
  rw [← hR, hsecond]
  split
  · rfl
  · exact dif_neg (by norm_num)

/-- What the cut mantissa is rounded to. -/
theorem roundWithAccuracy_eq {s : Sign} {m : ℕ} {e T : ℤ} {a : Accuracy}
    (hT : T = Float.Model.Format.binary64.targetExponent (Float.Model.totalExponent m e))
    (hle : e ≤ T) :
    ∃ R : ℕ, m / 2 ^ (T - e).toNat ≤ R ∧ R ≤ m / 2 ^ (T - e).toNat + 1 ∧
      (a = .exact → m % 2 ^ (T - e).toNat = 0 → R = m / 2 ^ (T - e).toNat) ∧
      roundWithAccuracy .binary64 s m e a =
        if R < 2 ^ 53 then
          if h : R = 0 then .zero s else .finite s R T (Nat.pos_of_ne_zero h)
        else .finite s (2 ^ 52) (T + 1) (by norm_num) := by
  have hbounds := roundedMantissa_bounds (cutMantissa m a (T - e).toNat)
  rw [mantissa_cutMantissa] at hbounds
  refine ⟨_, hbounds.1, hbounds.2, ?_, roundWithAccuracy_cut hT hle rfl⟩
  rintro rfl hmod
  have hm : m = m / 2 ^ (T - e).toNat * 2 ^ (T - e).toNat :=
    (Nat.div_mul_cancel (Nat.dvd_of_mod_eq_zero hmod)).symm
  have hshift := repeat_shiftRightOne (T - e).toNat (m / 2 ^ (T - e).toNat)
  rw [← hm] at hshift
  change (Nat.repeat ExtendedMantissa.shiftRightOne (T - e).toNat
    ⟨m, false, false⟩).roundedMantissa = _
  rw [hshift]
  rfl

/-! ## Encoded results -/

/-- Results beyond the largest double are infinite. -/
theorem isRounded_pack_finite {s : Sign} {m : ℕ} {e : ℤ} {v : ℚ} (h : 0 < m) (hlt : m < 2 ^ 53)
    (hmin : -1074 ≤ e) (hfull : 2 ^ 52 ≤ m ∨ e = -1074) (hv : SameSide v (m * 2 ^ e)) :
    IsRounded (Float.Model.pack (.finite s m e h)).unpack s v := by
  rcases le_or_gt e 971 with hle | hgt
  · have hm : (Magnitude.mk m e).Canonical := ⟨hlt, hmin, hle, hfull⟩
    rw [unpack_pack_finite hm]
    exact .value (.finite rfl) hv
  · have hexponent : 2 ^ 11 ≤ (e + (1023 : Nat) + (52 : Nat)).toNat + 1 := by omega
    have hpack : UnpackedFloat.pack .binary64 (.finite s m e h) =
        UnpackedFloat.pack .binary64 (.infinity s) := if_pos hexponent
    have hinfinity : (Float.Model.pack (.finite s m e h)).unpack = .infinity s :=
      (congrArg (unpack .binary64) hpack).trans (unpack_pack_infinity s)
    rw [hinfinity]
    refine .infinity (not_lt.1 fun hv' => ?_)
    have hshort : IsShort (2 ^ 64) := ⟨1, 64, by norm_num, by norm_num, by norm_num⟩
    have hle := (hv _ hshort).1 hv'.le
    have hm : (2 : ℚ) ^ 52 ≤ m := by exact_mod_cast hfull.resolve_right (by omega)
    have he : (2 : ℚ) ^ 972 ≤ 2 ^ e := by
      rw [← zpow_natCast]
      exact zpow_le_zpow_right₀ (by norm_num) (by omega)
    have hlt : (2 : ℚ) ^ 64 < 2 ^ 52 * 2 ^ 972 := by
      rw [← pow_add]
      exact pow_lt_pow_right₀ (by norm_num) (by norm_num)
    have hge := mul_le_mul hm he (by positivity) (by positivity)
    exact absurd (hge.trans hle) (not_le.2 hlt)

/-- **What is rounded and encoded**, if `m` is all of `v` that the exponent allows. -/
theorem isRounded_roundWithAccuracy {s : Sign} {m : ℕ} {e : ℤ} {a : Accuracy} {v : ℚ}
    (htarget : e ≤ Float.Model.Format.binary64.targetExponent (Float.Model.totalExponent m e))
    (hlow : m * 2 ^ e ≤ v) (hhigh : v < (m + 1) * 2 ^ e) (hexact : v = m * 2 ^ e → a = .exact) :
    IsRounded (Float.Model.pack (roundWithAccuracy .binary64 s m e a)).unpack s v := by
  generalize hT : Float.Model.Format.binary64.targetExponent
    (Float.Model.totalExponent m e) = T at htarget
  obtain ⟨R, hR, hR', hkept, hround⟩ := roundWithAccuracy_eq (s := s) (a := a) hT.symm htarget
  rw [targetExponent_eq] at hT
  generalize hk : (T - e).toNat = k at *
  obtain ⟨hcut, hfull⟩ := cut_bounds (k := k) hT.symm (by omega)
  -- The units of the target are `2 ^ k` units of the mantissa.
  have hunit : (2 : ℚ) ^ T = 2 ^ k * 2 ^ e := by
    rw [← zpow_natCast, ← zpow_add₀ (by norm_num)]
    congr 1
    omega
  have hpos : (0 : ℚ) < 2 ^ e := by positivity
  have hlow' : ((m / 2 ^ k : ℕ) : ℚ) * 2 ^ T ≤ m * 2 ^ e := by
    rw [hunit, ← mul_assoc]
    refine mul_le_mul_of_nonneg_right ?_ hpos.le
    exact_mod_cast Nat.div_mul_le_self m (2 ^ k)
  have hhigh' : (m + 1 : ℚ) * 2 ^ e ≤ ((m / 2 ^ k : ℕ) + 1) * 2 ^ T := by
    rw [hunit, ← mul_assoc]
    refine mul_le_mul_of_nonneg_right ?_ hpos.le
    have := Nat.lt_div_mul_add (a := m) (b := 2 ^ k) (by positivity)
    rw [← Nat.succ_mul] at this
    exact_mod_cast Nat.succ_le_of_lt this
  have hside : SameSide v (R * 2 ^ T) := by
    refine sameSide_of_bounds (hlow'.trans hlow) (hhigh.trans_le hhigh') ⟨hR, hR'⟩ ?_ hfull
    intro hv
    have hm : ((m / 2 ^ k : ℕ) : ℚ) * 2 ^ T = m * 2 ^ e := le_antisymm hlow' (hv ▸ hlow)
    refine hkept (hexact (hv.trans hm)) ?_
    rw [hunit, ← mul_assoc] at hm
    have hmul : m / 2 ^ k * 2 ^ k = m := by
      exact_mod_cast mul_right_cancel₀ hpos.ne' hm
    exact Nat.mod_eq_zero_of_dvd ⟨_, by rw [Nat.mul_comm, hmul]⟩
  rw [hround]
  split
  · next hlt =>
    split
    · next hzero =>
      subst hzero
      rw [unpack_pack_zero]
      exact .value (.zero s) (by simpa using hside)
    · next hne =>
      refine isRounded_pack_finite _ hlt (by omega) ?_ hside
      omega
  · next hge =>
    obtain rfl : R = 2 ^ 53 := by omega
    refine isRounded_pack_finite _ (by norm_num) (by omega) (.inl le_rfl) ?_
    have hcarry : ((2 ^ 53 : ℕ) : ℚ) * 2 ^ T = (2 ^ 52 : ℕ) * 2 ^ (T + 1) := by
      rw [zpow_add_one₀ (by norm_num)]
      push_cast
      ring
    rwa [← hcarry]

/-- Full mantissas and least exponents are never below the target. -/
theorem le_targetExponent {m : ℕ} {e : ℤ} (h : 2 ^ 52 ≤ m ∨ e ≤ -1074) :
    e ≤ Float.Model.Format.binary64.targetExponent (Float.Model.totalExponent m e) := by
  rw [targetExponent_eq]
  rcases h with h | h
  · have : 52 ≤ m.log2 := (Nat.le_log2 (by omega)).2 h
    omega
  · omega

/-! ## Products and quotients -/

/-- Products of mantissas have enough digits. -/
theorem le_targetExponent_mul {m n : ℕ} {e f : ℤ} (hm : (Magnitude.mk m e).Canonical)
    (hn : (Magnitude.mk n f).Canonical) (hmpos : 0 < m) (hnpos : 0 < n) :
    e + f ≤ Float.Model.Format.binary64.targetExponent
      (Float.Model.totalExponent (m * n) (e + f)) := by
  refine le_targetExponent ?_
  -- One full mantissa is enough, and without any the exponent is very small.
  rcases hm.normal with hfull | hmin
  · exact .inl (hfull.trans (Nat.le_mul_of_pos_right _ hnpos))
  · rcases hn.normal with hfull | hmin'
    · exact .inl (hfull.trans (Nat.le_mul_of_pos_left _ hmpos))
    · right
      simp only [Magnitude.minExponent] at hmin hmin'
      omega

/-- A product is the rounded product. -/
theorem isRounded_mul {x y : Float} {s t : Sign} {a b : ℚ} (hx : IsValue x.toModel.unpack s a)
    (hy : IsValue y.toModel.unpack t b) : IsRounded (x * y).toModel.unpack (s * t) (a * b) := by
  change IsRounded (Float.Model.pack (UnpackedFloat.mul .binary64 x.toModel.unpack
    y.toModel.unpack)).unpack _ _
  generalize hu : x.toModel.unpack = u at *
  generalize hw : y.toModel.unpack = w at *
  have hzero : ∀ s : Sign, IsRounded (Float.Model.pack (.zero s)).unpack s 0 := fun s => by
    rw [unpack_pack_zero]
    exact .value (.zero s) (sameSide_refl 0)
  cases hx with
  | zero =>
    rw [zero_mul]
    cases hy <;> exact hzero _
  | @finite s m e hmpos a ha =>
    cases hy with
    | zero =>
      rw [mul_zero]
      exact hzero _
    | @finite t n f hnpos b hb =>
      have hm := canonical_of_unpack hu
      have hn := canonical_of_unpack hw
      have hvalue : a * b = (m * n : ℕ) * 2 ^ (e + f) := by
        rw [ha, hb, zpow_add₀ (by norm_num)]
        push_cast
        ring
      refine isRounded_roundWithAccuracy (le_targetExponent_mul hm hn hmpos hnpos) hvalue.ge ?_
        fun _ => rfl
      rw [hvalue]
      refine mul_lt_mul_of_pos_right ?_ (by positivity)
      exact lt_add_one _

/-- The dividend is shifted until the quotient has all its digits. -/
theorem div_finite (s t : Sign) {m n : ℕ} (e f : ℤ) (hm : 0 < m) (hn : 0 < n) :
    ∃ (k : ℕ) (T : ℤ),
      UnpackedFloat.div .binary64 (.finite s m e hm) (.finite t n f hn) =
        roundWithAccuracy .binary64 (s / t) (m * 2 ^ k / n) T
          (accuracyOfFraction (m * 2 ^ k % n) n) ∧
      T ≤ Float.Model.Format.binary64.targetExponent
        (Float.Model.totalExponent (m * 2 ^ k / n) T) ∧
      (m * 2 ^ e : ℚ) / (n * 2 ^ f) = ((m * 2 ^ k : ℕ) : ℚ) / n * 2 ^ T := by
  generalize hT : min (e - f) (Float.Model.Format.binary64.targetExponent
    (Float.Model.totalExponent m e - Float.Model.totalExponent n f)) = T
  generalize hk : (e - f - T).toNat = k
  refine ⟨k, T, ?_, ?_, ?_⟩
  · rw [← Nat.shiftLeft_eq, ← hk, ← hT]
    rfl
  · rw [Float.Model.totalExponent, Float.Model.totalExponent] at hT
    change min (e - f) (max ((m.log2 : ℤ) + 1 + e - (n.log2 + 1 + f) - 53) (-1074)) = T at hT
    refine le_targetExponent (or_iff_not_imp_right.2 fun hmin => ?_)
    have hlog : 52 + (n.log2 + 1) ≤ m.log2 + k := by omega
    rw [Nat.le_div_iff_mul_le hn]
    calc 2 ^ 52 * n ≤ 2 ^ 52 * 2 ^ (n.log2 + 1) :=
          Nat.mul_le_mul_left _ Nat.lt_log2_self.le
      _ ≤ 2 ^ m.log2 * 2 ^ k := by
          rw [← Nat.pow_add, ← Nat.pow_add]
          exact Nat.pow_le_pow_right (by norm_num) hlog
      _ ≤ m * 2 ^ k := Nat.mul_le_mul_right _ (Nat.log2_self_le hm.ne')
  · have hexp : (2 : ℚ) ^ e = 2 ^ k * 2 ^ T * 2 ^ f := by
      rw [← zpow_natCast, ← zpow_add₀ (by norm_num), ← zpow_add₀ (by norm_num)]
      congr 1
      omega
    have hn' : (n : ℚ) ≠ 0 := by exact_mod_cast hn.ne'
    rw [hexp]
    push_cast
    field_simp

/-- A quotient is the rounded quotient. -/
theorem isRounded_div {x y : Float} {s t : Sign} {a b : ℚ} (hx : IsValue x.toModel.unpack s a)
    (hy : IsValue y.toModel.unpack t b) (hb : b ≠ 0) :
    IsRounded (x / y).toModel.unpack (s / t) (a / b) := by
  change IsRounded (Float.Model.pack (UnpackedFloat.div .binary64 x.toModel.unpack
    y.toModel.unpack)).unpack _ _
  generalize x.toModel.unpack = u at *
  generalize y.toModel.unpack = w at *
  cases hy with
  | zero => exact absurd rfl hb
  | @finite t n f hn b hb' =>
    cases hx with
    | zero =>
      rw [zero_div]
      change IsRounded (Float.Model.pack (.zero _)).unpack _ 0
      rw [unpack_pack_zero]
      exact .value (.zero _) (sameSide_refl 0)
    | @finite s m e hm a ha =>
      obtain ⟨k, T, hdiv, htarget, hvalue⟩ := div_finite s t e f hm hn
      have hpos : (0 : ℚ) < 2 ^ T := by positivity
      have hn' : (0 : ℚ) < n := by exact_mod_cast hn
      rw [hdiv, ha, hb', hvalue]
      refine isRounded_roundWithAccuracy htarget ?_ ?_ ?_
      · refine mul_le_mul_of_nonneg_right ?_ hpos.le
        rw [le_div_iff₀ hn']
        exact_mod_cast Nat.div_mul_le_self (m * 2 ^ k) n
      · refine mul_lt_mul_of_pos_right ?_ hpos
        rw [div_lt_iff₀ hn']
        have := Nat.lt_div_mul_add (a := m * 2 ^ k) hn
        rw [← Nat.succ_mul] at this
        exact_mod_cast this
      · intro heq
        have hquotient := mul_right_cancel₀ hpos.ne' heq
        rw [div_eq_iff hn'.ne'] at hquotient
        have hmul : m * 2 ^ k = m * 2 ^ k / n * n := by exact_mod_cast hquotient
        exact if_pos (Nat.mod_eq_zero_of_dvd ⟨_, by rw [Nat.mul_comm n]; exact hmul⟩)

/-- A bound with few digits is kept by a quotient. -/
theorem exists_isValue_div {x y : Float} {a b z : ℚ} (hx : IsValue x.toModel.unpack .positive a)
    (hy : IsValue y.toModel.unpack .positive b) (hb : b ≠ 0) (hz : IsShort z) (hle : a / b ≤ z)
    (hlt : z < 2 ^ 64) : ∃ f, IsValue (x / y).toModel.unpack .positive f ∧ f ≤ z := by
  obtain ⟨f, hf, hside⟩ := (isRounded_div hx hy hb).exists_isValue (hle.trans_lt hlt)
  exact ⟨f, hf, (hside z hz).1 hle⟩

/-! ## Whole numbers -/

/-- Before a mantissa is rounded it is shifted until it has enough digits. -/
theorem exists_round_eq (s : Sign) {m : ℕ} (h : 0 < m) (e : ℤ) :
    ∃ n : ℕ, ∃ f : ℤ, UnpackedFloat.round .binary64 s m e =
        roundWithAccuracy .binary64 s n f .exact ∧ (n : ℚ) * 2 ^ f = m * 2 ^ e ∧
      f ≤ Float.Model.Format.binary64.targetExponent (Float.Model.totalExponent n f) ∧
      (n.log2 : ℤ) + f = m.log2 + e := by
  generalize hk : (e - Float.Model.Format.binary64.targetExponent
    (Float.Model.totalExponent m e)).toNat = k
  -- The shift does not move the leading digit.
  have hlog : ((m <<< k).log2 : ℤ) + (e - k) = m.log2 + e := by
    rw [Nat.shiftLeft_eq, log2_mul_two_pow h]
    push_cast
    omega
  refine ⟨m <<< k, e - k, by subst hk; rfl, ?_, ?_, hlog⟩
  · rw [Nat.shiftLeft_eq]
    push_cast
    rw [mul_assoc, ← zpow_natCast, ← zpow_add₀ (by norm_num)]
    congr 2
    omega
  · rw [targetExponent_eq] at hk ⊢
    omega

theorem isRounded_round (s : Sign) {m : ℕ} (h : 0 < m) (e : ℤ) :
    IsRounded (Float.Model.pack (UnpackedFloat.round .binary64 s m e)).unpack s (m * 2 ^ e) := by
  obtain ⟨n, f, hround, hvalue, htarget, -⟩ := exists_round_eq s h e
  rw [hround, ← hvalue]
  refine isRounded_roundWithAccuracy htarget le_rfl ?_ fun _ => rfl
  exact mul_lt_mul_of_pos_right (lt_add_one _) (by positivity)

/-- A natural number of 64 bits is taken for its own mantissa. -/
theorem isRounded_ofUInt64 (n : UInt64) : IsRounded n.toFloat.toModel.unpack .positive n.toNat := by
  change IsRounded (Float.Model.pack
    (UnpackedFloat.normalize .binary64 (n.toNat : ℤ) 0 .positive)).unpack _ _
  generalize n.toNat = n
  unfold UnpackedFloat.normalize
  rcases Nat.eq_zero_or_pos n with rfl | hpos
  · change IsRounded (Float.Model.pack (.zero _)).unpack _ _
    rw [unpack_pack_zero]
    exact .value (.zero _) (by simpa using sameSide_refl 0)
  · have hcompare : compare (n : ℤ) 0 = .gt := compare_gt_iff_gt.2 (by exact_mod_cast hpos)
    rw [hcompare]
    have hround := isRounded_round .positive hpos 0
    rw [zpow_zero, mul_one] at hround
    exact hround

/-- **A natural number as a double** is the rounded number. -/
theorem isRounded_ofNat (n : ℕ) : IsRounded (Float.ofNat n).toModel.unpack .positive n := by
  change IsRounded (Float.ofScientific n false 0).toModel.unpack _ _
  unfold Float.ofScientific
  split
  · next h =>
    -- A short number is converted and multiplied by one.
    have hnat : n.toUInt64.toNat = n := by
      rw [Nat.toUInt64_eq, UInt64.toNat_ofNat']
      exact Nat.mod_eq_of_lt (by omega)
    have hone : IsValue (Float.exactlyRepresentablePowersOfTen[0]).toModel.unpack .positive 1 := by
      have hparts : (Float.exactlyRepresentablePowersOfTen[0]).toModel.unpack =
        .finite .positive (2 ^ 52) (-52) (by decide) := rfl
      rw [hparts]
      exact .finite (by norm_num)
    have hvalue := (hnat ▸ isRounded_ofUInt64 n.toUInt64).natCast h.1
    have hproduct := isRounded_mul hvalue hone
    rw [mul_one] at hproduct
    exact hproduct
  · next h =>
    have hn : n ≠ 0 := by
      rintro rfl
      exact h (by decide)
    have hvalue : ((n <<< 53 * 10 ^ 0 : ℕ) : ℚ) * 2 ^ (-53 + 0 : ℤ) = n := by
      rw [Nat.shiftLeft_eq]
      push_cast
      norm_num
      field_simp
    have hparts : Float.Model.ofScientific n 0 = Float.Model.pack
        (roundWithAccuracy .binary64 .positive (n <<< 53 * 10 ^ 0) (-53 + 0) .exact) := by
      unfold Float.Model.ofScientific UnpackedFloat.ofScientific
      have hbits : (0 : ℤ) < 2 ^ Float.Model.Format.binary64.exponentBits := by decide
      rw [dif_neg hn, if_neg (by omega), if_neg (by omega), if_pos (Int.le_refl 0)]
      rfl
    change IsRounded (Float.Model.ofScientific n 0).unpack _ _
    rw [hparts]
    refine isRounded_roundWithAccuracy (le_targetExponent (.inl ?_)) hvalue.le ?_ fun _ => rfl
    · rw [Nat.shiftLeft_eq, Nat.pow_zero, Nat.mul_one]
      omega
    · rw [add_mul, hvalue]
      exact lt_add_of_pos_right _ (by positivity)

/-- A natural number below `2 ^ 53` is exact. -/
theorem isValue_ofNat {n : ℕ} (h : n < 2 ^ 53) :
    IsValue (Float.ofNat n).toModel.unpack .positive n :=
  (isRounded_ofNat n).natCast h

theorem unpack_neg (x : Float) : (-x).toModel.unpack = x.toModel.unpack.neg := by
  change (Float.Model.pack x.toModel.unpack.neg).unpack = _
  cases hx : x.toModel.unpack with
  | notANumber => rfl
  | infinity s => exact unpack_pack_infinity _
  | zero s => exact unpack_pack_zero _
  | finite s m e h => exact unpack_pack_finite (canonical_of_unpack hx) _ h

/-- The sign of a factor has no say in the magnitude of a product. -/
theorem ofFloat?_neg_mul (x y : Float) :
    Magnitude.ofFloat? (-x * y) = Magnitude.ofFloat? (x * y) := by
  have habs : (-x).abs.toModel.unpack = x.abs.toModel.unpack := by
    rw [unpack_abs, unpack_neg, unpack_abs]
    cases x.toModel.unpack <;> rfl
  rw [← ofFloat?_abs_mul (-x), ← ofFloat?_abs_mul x, Magnitude.ofFloat?_eq, Magnitude.ofFloat?_eq]
  change Magnitude.ofParts? (Float.Model.pack (UnpackedFloat.mul .binary64
    (-x).abs.toModel.unpack _)).unpack = _
  rw [habs]
  rfl

theorem ofFloat?_abs_neg_mul (x y : Float) :
    Magnitude.ofFloat? ((-x).abs * y) = Magnitude.ofFloat? (x.abs * y) := by
  rw [ofFloat?_abs_mul, ofFloat?_neg_mul, ofFloat?_abs_mul]

/-- The opposite of a number has the other sign. -/
theorem unpack_neg_of_finite {v : Float} {s : Sign} {m : ℕ} {e : ℤ} {hm : 0 < m}
    (h : v.toModel.unpack = .finite s m e hm) : (-v).toModel.unpack = .finite (-s) m e hm := by
  rw [unpack_neg, h]
  rfl

theorem isFinite_neg {v : Float} (hv : v.isFinite) : (-v).isFinite := by
  have hfinite : v.toModel.unpack.isFinite := hv
  change (-v).toModel.unpack.isFinite = true
  rw [unpack_neg]
  cases hparts : v.toModel.unpack <;> simp_all [UnpackedFloat.isFinite, UnpackedFloat.neg]

theorem isValue_neg {x : Float} {s : Sign} {q : ℚ} (h : IsValue x.toModel.unpack s q) :
    IsValue (-x).toModel.unpack (-s) q := by
  rw [unpack_neg]
  obtain ⟨hu, rfl⟩ | ⟨m, e, hm, hu, hq⟩ := h.parts
  · rw [hu]
    exact .zero _
  · rw [hu]
    exact .finite hq

/-- A number takes the sign of another. -/
theorem isValue_withSignOf {x f : Float} {s : Sign} {q r : ℚ} (hx : IsValue x.toModel.unpack s q)
    (hf : IsValue f.toModel.unpack .positive r) :
    IsValue (withSignOf x f).toModel.unpack s r := by
  unfold withSignOf
  obtain ⟨hu, -⟩ | ⟨m, e, hm, hu, -⟩ := hx.parts
  all_goals
    rw [hu]
    cases s with
    | negative => exact isValue_neg hf
    | positive => exact hf

theorem two_zpow_mul_pow {e : ℤ} (he : e < 0) : (2 : ℚ) ^ e * 2 ^ (-e).toNat = 1 := by
  rw [← zpow_natCast, ← zpow_add₀ (by norm_num), show e + ((-e).toNat : ℤ) = 0 by omega, zpow_zero]

/-- The digits of a whole number behind its point are zeros. -/
theorem mantissa_of_natCast {m n : ℕ} {e : ℤ} (he : e < 0) (h : (n : ℚ) = m * 2 ^ e) :
    m = n * 2 ^ (-e).toNat := by
  have hm : (m : ℚ) = n * 2 ^ (-e).toNat := by rw [h, mul_assoc, two_zpow_mul_pow he, mul_one]
  exact_mod_cast hm

/-- Where there is no point, it is the mantissa with zeros behind it. -/
theorem natCast_of_exponent {m : ℕ} {e : ℤ} (he : 0 ≤ e) :
    ((m * 2 ^ e.toNat : ℕ) : ℚ) = m * 2 ^ e := by
  push_cast
  rw [← zpow_natCast, Int.toNat_of_nonneg he]

/-- A mantissa with a point, as a quotient. -/
theorem mul_two_zpow {m : ℕ} {e : ℤ} (he : e < 0) : (m : ℚ) * 2 ^ e = m / 2 ^ (-e).toNat :=
  (eq_div_iff (by positivity)).2 (by rw [mul_assoc, two_zpow_mul_pow he, mul_one])

theorem floor_natCast_add_half (n : ℕ) : ⌊(n : ℚ) + 1 / 2⌋₊ = n :=
  (Nat.floor_eq_iff (by positivity)).2 ⟨by linarith, by linarith⟩

/-- **A double is rounded to the nearest whole number**, and half of one away from zero. -/
theorem isValue_roundHalfAway_floor {x : Float} {s : Sign} {q : ℚ}
    (h : IsValue x.toModel.unpack s q) :
    IsValue (roundHalfAway x).toModel.unpack s ⌊q + 1 / 2⌋₊ := by
  unfold roundHalfAway
  rw [Magnitude.ofFloat?_eq]
  obtain ⟨hu, rfl⟩ | ⟨m, e, hm, hu, rfl⟩ := h.parts <;> rw [hu]
  · have hzero := floor_natCast_add_half 0
    rw [Nat.cast_zero] at hzero
    rw [hzero, Nat.cast_zero]
    exact h
  change IsValue (if 0 ≤ e then x else _ : Float).toModel.unpack _ _
  split
  · next he =>
    rw [← natCast_of_exponent he, floor_natCast_add_half, natCast_of_exponent he]
    exact h
  · next he =>
    refine isValue_withSignOf h ?_
    -- Half a unit is added to the mantissa.
    have hunit : 2 * 2 ^ ((-e).toNat - 1) = 2 ^ (-e).toNat := by
      rw [← Nat.pow_succ']
      congr 1
      omega
    change IsValue (Float.ofNat ((m + 2 ^ ((-e).toNat - 1)) /
      (2 * 2 ^ ((-e).toNat - 1)))).toModel.unpack _ _
    have hfloor : ⌊(m : ℚ) * 2 ^ e + 1 / 2⌋₊ =
        (m + 2 ^ ((-e).toNat - 1)) / (2 * 2 ^ ((-e).toNat - 1)) := by
      have hunit' : (2 : ℚ) ^ (-e).toNat = 2 * 2 ^ ((-e).toNat - 1) := by exact_mod_cast hunit.symm
      rw [mul_two_zpow (by omega), hunit', ← Nat.floor_div_eq_div (K := ℚ)]
      congr 1
      push_cast
      field_simp
    rw [hfloor]
    refine isValue_ofNat (Nat.div_lt_of_lt_mul ?_)
    have hlt := (canonical_of_unpack hu).mantissa_lt
    have hpos : 0 < 2 ^ ((-e).toNat - 1) := by positivity
    change m < 2 ^ 53 at hlt
    omega

/-- **Whole numbers are not rounded.** -/
theorem isValue_roundHalfAway {x : Float} {s : Sign} {n : ℕ} (h : IsValue x.toModel.unpack s n) :
    IsValue (roundHalfAway x).toModel.unpack s n := by
  simpa only [floor_natCast_add_half] using isValue_roundHalfAway_floor h

/-- Whether a number is below zero is its sign. -/
theorem lt_zero_iff {x : Float} {s : Sign} {m : ℕ} {e : ℤ} {h : 0 < m}
    (hx : x.toModel.unpack = .finite s m e h) : x < 0.0 ↔ s = .negative := by
  have hzero : (0.0 : Float).toModel.unpack = .zero .positive := rfl
  change decide (x.toModel.unpack.lt (0.0 : Float).toModel.unpack) = true ↔ _
  rw [hx, hzero]
  cases s <;> simp [UnpackedFloat.lt, UnpackedFloat.compare]

/-- So is whether it is above. -/
theorem zero_lt_iff {x : Float} {s : Sign} {m : ℕ} {e : ℤ} {h : 0 < m}
    (hx : x.toModel.unpack = .finite s m e h) : 0.0 < x ↔ s = .positive := by
  have hzero : (0.0 : Float).toModel.unpack = .zero .positive := rfl
  change decide ((0.0 : Float).toModel.unpack.lt x.toModel.unpack) = true ↔ _
  rw [hx, hzero]
  cases s <;> simp [UnpackedFloat.lt, UnpackedFloat.compare]

theorem bne_zero {x : Float} {s : Sign} {m : ℕ} {e : ℤ} {h : 0 < m}
    (hx : x.toModel.unpack = .finite s m e h) : (x != 0.0) = true := by
  have hzero : (0.0 : Float).toModel.unpack = .zero .positive := rfl
  change (!x.toModel.unpack.beq (0.0 : Float).toModel.unpack) = true
  rw [hx, hzero]
  cases s <;> rfl

theorem bne_zero_of_zero {x : Float} {s : Sign} (h : x.toModel.unpack = .zero s) :
    (x != 0.0) = false := by
  have hzero : (0.0 : Float).toModel.unpack = .zero .positive := rfl
  change (!x.toModel.unpack.beq (0.0 : Float).toModel.unpack) = false
  rw [h, hzero]
  cases s <;> rfl

/-- A finite number above zero has no sign. -/
theorem unpack_of_pos {v : Float} (hv : v.isFinite) (h : 0.0 < v) :
    ∃ m e hm, v.toModel.unpack = .finite .positive m e hm := by
  have hfinite : v.toModel.unpack.isFinite := hv
  cases hparts : v.toModel.unpack with
  | notANumber | infinity => simp [hparts, UnpackedFloat.isFinite] at hfinite
  | zero s =>
    have hlt : (0.0 : Float).toModel.unpack.lt v.toModel.unpack := of_decide_eq_true h
    rw [hparts] at hlt
    cases s <;> contradiction
  | finite s m e hm =>
    obtain rfl := (zero_lt_iff hparts).1 h
    exact ⟨m, e, hm, rfl⟩

/-- **The floor of a magnitude** is its whole part. -/
theorem isValue_floor {x : Float} {q : ℚ} (h : IsValue x.toModel.unpack .positive q) :
    IsValue (floor x).toModel.unpack .positive ⌊q⌋₊ := by
  unfold floor
  rw [Magnitude.ofFloat?_eq]
  obtain ⟨hu, rfl⟩ | ⟨m, e, hm, hu, hq⟩ := h.parts
  · rw [hu, Nat.floor_zero]
    exact_mod_cast h
  rw [hu]
  change IsValue (if 0 ≤ e then x else _ : Float).toModel.unpack _ _
  split
  · next he =>
    have hnat := natCast_of_exponent (m := m) he
    rw [← hq] at hnat
    rwa [← hnat, Nat.floor_natCast, hnat]
  · next he =>
    have hneg : ¬ x < 0.0 := fun hneg => nomatch (lt_zero_iff hu).1 hneg
    have hwhole : ⌊q⌋₊ = m / 2 ^ (-e).toNat := by
      rw [hq, show (m : ℚ) * 2 ^ e = m / (2 ^ (-e).toNat : ℕ) from ?_, Nat.floor_div_eq_div]
      rw [eq_div_iff (by positivity), Nat.cast_pow, Nat.cast_ofNat, mul_assoc,
        two_zpow_mul_pow (not_le.1 he), mul_one]
    change IsValue (if x < 0.0 then _
      else withSignOf x (Float.ofNat (m / 2 ^ (-e).toNat)) : Float).toModel.unpack _ _
    rw [if_neg hneg, hwhole]
    exact isValue_withSignOf h (isValue_ofNat
      (lt_of_le_of_lt (Nat.div_le_self _ _) (canonical_of_unpack hu).mantissa_lt))

/-- **The floor is a whole number**, and not above a number that is not negative. -/
theorem exists_isValue_floor {x : Float} {s : Sign} {q : ℚ} (h : IsValue x.toModel.unpack s q) :
    ∃ n : ℕ, IsValue (floor x).toModel.unpack s n ∧ (s = .positive → (n : ℚ) ≤ q) := by
  cases s with
  | positive =>
    refine ⟨_, isValue_floor h, fun _ => Nat.floor_le ?_⟩
    obtain ⟨-, rfl⟩ | ⟨m, e, -, -, rfl⟩ := h.parts
    · exact le_rfl
    · positivity
  | negative =>
    suffices hfloor : ∃ n : ℕ, IsValue (floor x).toModel.unpack .negative n by
      obtain ⟨n, hn⟩ := hfloor
      exact ⟨n, hn, fun hs => nomatch hs⟩
    unfold floor
    rw [Magnitude.ofFloat?_eq]
    obtain ⟨hu, rfl⟩ | ⟨m, e, hm, hu, hq⟩ := h.parts
    · rw [hu]
      exact ⟨0, by exact_mod_cast h⟩
    rw [hu]
    change ∃ n : ℕ, IsValue (if 0 ≤ e then x else _ : Float).toModel.unpack _ _
    split
    · next he =>
      have hnat := natCast_of_exponent (m := m) he
      exact ⟨m * 2 ^ e.toNat, by rwa [hnat, ← hq]⟩
    · next he =>
      have hlt : m < 2 ^ 53 := (canonical_of_unpack hu).mantissa_lt
      have htwo : 2 ≤ 2 ^ (-e).toNat := by
        calc 2 = 2 ^ 1 := rfl
          _ ≤ 2 ^ (-e).toNat := Nat.pow_le_pow_right (by norm_num) (by omega)
      change ∃ n : ℕ, IsValue (if x < 0.0
        then -Float.ofNat ((m + 2 ^ (-e).toNat - 1) / 2 ^ (-e).toNat) else _ : Float).toModel.unpack
        _ _
      rw [if_pos ((lt_zero_iff hu).2 rfl)]
      refine ⟨_, isValue_neg (isValue_ofNat ?_)⟩
      rw [Nat.div_lt_iff_lt_mul (by positivity)]
      omega

/-- The whole part of a whole number is the number. -/
theorem toInt64_of_isValue {x : Float} {s : Sign} {n : ℕ} (h : IsValue x.toModel.unpack s n) :
    toInt64 x = clampInt64 (s.apply n) := by
  unfold toInt64
  obtain ⟨hu, hn⟩ | ⟨m, e, hm, hu, hq⟩ := h.parts
  · obtain rfl : n = 0 := by exact_mod_cast hn
    rw [hu]
    cases s <;> rfl
  · rw [hu]
    have hwhole : (Magnitude.mk m e).whole = n := by
      unfold Magnitude.whole
      split
      · next he =>
        have hnat := natCast_of_exponent (m := m) he
        rw [← hq] at hnat
        exact_mod_cast hnat
      · next he =>
        change m / 2 ^ (-e).toNat = n
        rw [mantissa_of_natCast (not_le.1 he) hq]
        exact Nat.mul_div_cancel _ (by positivity)
    dsimp only
    rw [hwhole]

/-! ## Integers by way of doubles -/

theorem clampInt64_apply {s : Sign} {n : ℕ} (h : n < 2 ^ 63) :
    clampInt64 (s.apply n) = s.apply n := by
  unfold clampInt64
  cases s <;> simp only [Sign.apply] <;> omega

/-- A whole number below `2 ^ 53` is not changed by rounding. -/
theorem toInt64_of_isRounded {x : Float} {s : Sign} {n : ℕ}
    (h : IsRounded x.toModel.unpack s n) (hn : n < 2 ^ 53) :
    toInt64 (roundHalfAway x) = s.apply n := by
  rw [toInt64_of_isValue (isValue_roundHalfAway (h.natCast hn)), clampInt64_apply (by omega)]

/-- What is infinite stays at the ends of 64 bits. -/
theorem toInt64_of_infinity {x : Float} {s : Sign} (h : x.toModel.unpack = .infinity s) :
    2 ^ 53 ≤ (toInt64 (roundHalfAway x)).natAbs := by
  have hround : roundHalfAway x = x := by
    unfold roundHalfAway
    rw [Magnitude.ofFloat?_eq, h]
    rfl
  rw [hround]
  unfold toInt64
  rw [h]
  cases s <;> decide

/-- And a large number stays large. -/
theorem le_toInt64_of_isRounded {x : Float} {s : Sign} {v : ℚ}
    (h : IsRounded x.toModel.unpack s v) (hv : 2 ^ 53 ≤ v) :
    2 ^ 53 ≤ (toInt64 (roundHalfAway x)).natAbs := by
  generalize hu : x.toModel.unpack = u at h
  cases h with
  | infinity => exact toInt64_of_infinity hu
  | @value _ _ _ f hf hside =>
    have hshort : IsShort (2 ^ 53) := ⟨1, 53, by norm_num, by norm_num, by norm_num⟩
    have hf' : 2 ^ 53 ≤ f := (hside _ hshort).2 hv
    cases hf with
    | zero => exact absurd hf' (by norm_num)
    | @finite _ m e hm _ hq =>
      -- With 53 digits there is no room for a fraction.
      have he : 0 ≤ e := by
        refine not_lt.1 fun hneg => ?_
        have hlt : (m : ℚ) < 2 ^ 53 := by exact_mod_cast (canonical_of_unpack hu).mantissa_lt
        have hle : (2 : ℚ) ^ e ≤ 1 := zpow_le_one_of_nonpos₀ (by norm_num) hneg.le
        have hmul := mul_le_mul_of_nonneg_left hle (show (0 : ℚ) ≤ m by positivity)
        rw [mul_one, ← hq] at hmul
        exact absurd (hf'.trans hmul) (not_le.2 hlt)
      have hnat := natCast_of_exponent (m := m) he
      have hvalue : IsValue x.toModel.unpack s ((m * 2 ^ e.toNat : ℕ) : ℚ) := by
        rw [hu]
        exact .finite hnat
      have hlarge : 2 ^ 53 ≤ m * 2 ^ e.toNat := by
        rw [hq, ← hnat] at hf'
        exact_mod_cast hf'
      rw [toInt64_of_isValue (isValue_roundHalfAway hvalue)]
      generalize m * 2 ^ e.toNat = n at *
      unfold clampInt64
      cases s <;> simp only [Sign.apply] <;> omega

/-- The double of an integer below `2 ^ 53` has its value. -/
theorem exists_isValue_ofInt {n : ℤ} (h : n.natAbs < 2 ^ 53) :
    ∃ (s : Sign) (m : ℕ), IsValue (Float.ofInt n).toModel.unpack s m ∧ m < 2 ^ 53 ∧
      s.apply m = n := by
  cases n with
  | ofNat n =>
    have hn : n < 2 ^ 53 := h
    exact ⟨.positive, n, isValue_ofNat hn, hn, rfl⟩
  | negSucc n =>
    have hn : n + 1 < 2 ^ 53 := by omega
    exact ⟨.negative, n + 1, isValue_neg (isValue_ofNat hn), hn, rfl⟩

/-- **An integer below `2 ^ 53` comes back from its double.** -/
theorem toInt64_ofInt {n : ℤ} (h : n.natAbs < 2 ^ 53) :
    toInt64 (roundHalfAway (Float.ofInt n)) = n := by
  obtain ⟨s, m, hvalue, hm, hn⟩ := exists_isValue_ofInt h
  rw [toInt64_of_isValue (isValue_roundHalfAway hvalue), clampInt64_apply (by omega), hn]

/-- Also from the opposite double. -/
theorem toInt64_neg_ofInt {n : ℤ} (h : n.natAbs < 2 ^ 53) :
    toInt64 (roundHalfAway (-Float.ofInt n)) = -n := by
  obtain ⟨s, m, hvalue, hm, hn⟩ := exists_isValue_ofInt h
  have hneg : (-s).apply m = -s.apply m := by
    cases s with
    | positive => rfl
    | negative => exact (Int.neg_neg _).symm
  rw [toInt64_of_isValue (isValue_roundHalfAway (isValue_neg hvalue)),
    clampInt64_apply (by omega), hneg, hn]

/-- Whole numbers of steps are multiplied as integers, if the product is small. -/
theorem toInt64_mul {x y : Float} {s : Sign} {m n : ℕ} (hx : IsValue x.toModel.unpack s m)
    (hy : IsValue y.toModel.unpack .positive n) (h : m * n < 2 ^ 53) :
    toInt64 (roundHalfAway (x * y)) = s.apply (m * n) := by
  have hproduct := isRounded_mul hx hy
  have hsign : s * .positive = s := by cases s <;> rfl
  rw [hsign, ← Nat.cast_mul] at hproduct
  rw [toInt64_of_isRounded hproduct h]
  push_cast
  rfl

/-- **A whole number of steps is a multiple of the step**, whatever the number was
before it was rounded, unless the product is too large to be exact. -/
theorem dvd_toInt64_floor_mul {q y : Float} {n : ℕ} (hy : IsValue y.toModel.unpack .positive n)
    (hn : 0 < n) (hlt : (toInt64 (roundHalfAway (floor q * y))).natAbs < 2 ^ 53) :
    (n : ℤ) ∣ toInt64 (roundHalfAway (floor q * y)) := by
  have hfloor : Magnitude.ofParts? q.toModel.unpack = none → floor q = q := fun hnone => by
    unfold floor
    rw [Magnitude.ofFloat?_eq, hnone]
  have hy' : ∃ m e h, y.toModel.unpack = .finite .positive m e h := by
    obtain ⟨-, hzero⟩ | ⟨m, e, h, hu, -⟩ := hy.parts
    · exact absurd (by exact_mod_cast hzero) hn.ne'
    · exact ⟨m, e, h, hu⟩
  have hfinite : ∀ s a, IsValue q.toModel.unpack s a →
      (n : ℤ) ∣ toInt64 (roundHalfAway (floor q * y)) := by
    intro s a hq
    obtain ⟨k, hk, -⟩ := exists_isValue_floor hq
    rcases Nat.lt_or_ge (k * n) (2 ^ 53) with hsmall | hlarge
    · rw [toInt64_mul hk hy hsmall]
      cases s with
      | positive => exact Int.dvd_mul_left _ _
      | negative => exact Int.dvd_neg.2 (Int.dvd_mul_left _ _)
    · have hle := le_toInt64_of_isRounded (isRounded_mul hk hy) (by exact_mod_cast hlarge)
      omega
  obtain ⟨m, e, h, hy'⟩ := hy'
  cases hq : q.toModel.unpack with
  | zero s =>
    refine hfinite s 0 ?_
    rw [hq]
    exact .zero s
  | finite s k f hk =>
    refine hfinite s (k * 2 ^ f) ?_
    rw [hq]
    exact .finite rfl
  | infinity s =>
    -- An infinite number of steps leads to an end of the integers.
    have hinfinity : (floor q * y).toModel.unpack = .infinity (s * .positive) := by
      rw [hfloor (by rw [hq]; rfl)]
      change (Float.Model.pack (UnpackedFloat.mul .binary64 q.toModel.unpack
        y.toModel.unpack)).unpack = _
      rw [hq, hy']
      exact unpack_pack_infinity _
    have := toInt64_of_infinity hinfinity
    omega
  | notANumber =>
    have hnan : (floor q * y).toModel.unpack = .notANumber := by
      rw [hfloor (by rw [hq]; rfl)]
      change (Float.Model.pack (UnpackedFloat.mul .binary64 q.toModel.unpack
        y.toModel.unpack)).unpack = _
      rw [hq, hy']
      change (Float.Model.pack .notANumber).unpack = _
      rfl
    have hround : roundHalfAway (floor q * y) = floor q * y := by
      unfold roundHalfAway
      rw [Magnitude.ofFloat?_eq, hnan]
      rfl
    have hzero : toInt64 (floor q * y) = 0 := by
      unfold toInt64
      rw [hnan]
    rw [hround, hzero]
    exact Int.dvd_zero _

end TickLabels
