import TickLabels.Proofs.Binary64.Monotone
/-!
# Numbers without noise

Noise is removed by a quotient, a product and two roundings, each of which keeps the order of
doubles with one sign (`InOrder`). So what a fixed number becomes is a bound for what greater
numbers become (`le_removeNoise`), although no step gives an exact result. The grid on which a
number is rounded depends on its power of ten alone, and this is exact where the doubles of the
powers are (`orderOfMagnitude_eq`).
-/

namespace TickLabels

open Float.Model (UnpackedFloat)
open Float.Model.UnpackedFloat

/-! ## The power of ten of a number -/

namespace Magnitude

/-- **The fraction of a magnitude and a power of ten.** -/
theorem overPowerOfTen_eq (m : Magnitude) (k : ℤ) :
    0 < (m.overPowerOfTen k).2 ∧
      ((m.overPowerOfTen k).1 : ℚ) / (m.overPowerOfTen k).2 = m.value / 10 ^ k := by
  rw [value_eq_toDecimal]
  unfold overPowerOfTen
  generalize m.toDecimal = n
  obtain ⟨n, j⟩ := n
  dsimp only
  rw [mul_div_assoc, ← zpow_sub₀ (by norm_num)]
  split
  · next hle =>
    have hpower : (10 : ℚ) ^ (j - k) = Nat.pow 10 (j - k).toNat := by
      rw [← Int.toNat_of_nonneg (sub_nonneg.2 hle), zpow_natCast]
      exact_mod_cast rfl
    exact ⟨one_pos, by rw [hpower, Nat.cast_one, div_one, Nat.cast_mul]⟩
  · next hlt =>
    have hpower : (10 : ℚ) ^ (j - k) = (Nat.pow 10 (k - j).toNat : ℚ)⁻¹ := by
      rw [show j - k = -((k - j).toNat : ℤ) by omega, zpow_neg, zpow_natCast]
      exact_mod_cast rfl
    exact ⟨Nat.pow_pos (by norm_num), by rw [hpower, div_eq_mul_inv]⟩

end Magnitude

variable {p x y : Float} {s : Sign} {a b c B C : ℚ}

theorem beq_zero_of_pos (hx : IsValue x.toModel.unpack s a) (ha : 0 < a) :
    (x == 0.0) = false := by
  have hzero : IsValue (0.0 : Float).toModel.unpack .positive 0 := .zero _
  rw [Bool.eq_false_iff, Ne, beq_iff_signedBy hx hzero]
  cases s <;> simp [signedBy, ha.ne']

theorem exists_ofFloat?_of_isValue (hx : IsValue x.toModel.unpack s a) :
    ∃ m, Magnitude.ofFloat? x = some m ∧ m.value = a := by
  obtain ⟨m, hm⟩ := Magnitude.exists_ofFloat? hx.isFinite
  exact ⟨m, hm, by rw [← exactMagnitude_of_ofFloat? hm, exactMagnitude_eq hx]⟩

/-- **The power of ten of a number is that of its leading digit**, where the doubles that
serve as powers of ten are on the same sides of it. -/
theorem orderOfMagnitude_eq {d : ℤ} {low high : ℚ} (hx : IsValue x.toModel.unpack s a)
    (hpow : 10 ^ d ≤ a) (hpow' : a < 10 ^ (d + 1))
    (hlow : IsValue (powerOfTen d).toModel.unpack .positive low) (hle : low ≤ a)
    (hhigh : IsValue (powerOfTen (d + 1)).toModel.unpack .positive high) (hlt : a < high) :
    orderOfMagnitude x = d := by
  obtain ⟨m, hm, rfl⟩ := exists_ofFloat?_of_isValue hx
  have hpos : 0 < m.mantissa := Nat.pos_of_ne_zero fun hzero => by
    rw [Magnitude.value_of_mantissa hzero] at hpow
    exact hpow.not_gt (by positivity)
  have hdecimal : m.decimalExponent = d := by
    have hbelow := (Magnitude.pow_decimalExponent_le hpos).trans_lt hpow'
    have habove := hpow.trans_lt m.lt_pow_decimalExponent
    rw [zpow_lt_zpow_iff_right₀ (by norm_num)] at hbelow habove
    omega
  have habs := isValue_abs hx
  have hfirst : ¬ x.abs < powerOfTen d := mt (lt_iff habs hlow).1 hle.not_gt
  have hnext : x.abs < powerOfTen (d + 1) := (lt_iff habs hhigh).2 hlt
  have hnot : ¬ powerOfTen (d + 1) ≤ x.abs := mt (le_iff_signedBy hhigh habs).1 hlt.not_ge
  obtain ⟨hfloor, hfloor'⟩ := m.logarithmFloor_bounds
  unfold orderOfMagnitude
  rw [hm]
  dsimp only
  rw [if_neg hpos.ne']
  -- The logarithm may be that of the next power, but then the comparison takes it back.
  obtain heq | heq : m.logarithmFloor = d ∨ m.logarithmFloor = d + 1 := by omega
  · rw [heq, if_neg hfirst, if_neg hnot]
  · rw [heq, if_pos hnext]
    omega

/-! ## Rounding to decimals -/

/-- A number of decimals is a quotient of two exact doubles. -/
theorem exists_isValue_ofScientific {n places : ℕ} (hn : n < 2 ^ 53) (hplaces : places ≤ 22) :
    ∃ f, IsValue (Float.ofScientific n true places).toModel.unpack .positive f ∧
      IsNearTo (n / 10 ^ places) f := by
  have htable : ∀ i : Fin 23, isNat (Float.exactlyRepresentablePowersOfTen[i]) (10 ^ i.val) := by
    decide +kernel
  obtain ⟨i, rfl⟩ : ∃ i : Fin 23, i.val = places := ⟨⟨places, by omega⟩, rfl⟩
  have hpower := isValue_of_isNat (htable i)
  have hvalue : IsValue n.toUInt64.toFloat.toModel.unpack .positive n := by
    have hrounded := isRounded_ofUInt64 n.toUInt64
    rw [show n.toUInt64.toNat = n from Nat.mod_eq_of_lt (by omega)] at hrounded
    exact hrounded.natCast hn
  have hquotient : Float.ofScientific n true i =
      n.toUInt64.toFloat / Float.exactlyRepresentablePowersOfTen[i] := by
    unfold Float.ofScientific
    rw [dif_pos ⟨hn, hplaces⟩]
    rfl
  have hone : (1 : ℚ) ≤ (10 ^ i.val : ℕ) := by exact_mod_cast Nat.one_le_pow _ _ (by norm_num)
  have hbound : (n : ℚ) / (10 ^ i.val : ℕ) < 2 ^ 64 := by
    refine (div_le_self (by positivity) hone).trans_lt ?_
    exact_mod_cast (by omega : n < 2 ^ 64)
  have hne : ((10 ^ i.val : ℕ) : ℚ) ≠ 0 := by positivity
  obtain ⟨f, hf, -⟩ := (isRounded_div hvalue hpower hne).exists_isValue hbound
  rw [hquotient]
  exact ⟨f, hf, by exact_mod_cast isNearTo_div hvalue hpower hne hf⟩

namespace Magnitude

/-- A magnitude as a whole number of its last decimals. -/
def inDecimals (m : Magnitude) (places : ℕ) : ℕ :=
  divHalfEven (m.overPowerOfTen (-places)).1 (m.overPowerOfTen (-places)).2

/-- It is rounded by half a decimal at most. -/
theorem abs_inDecimals_sub_le (m : Magnitude) (places : ℕ) :
    |m.inDecimals places - m.value * 10 ^ places| ≤ 1 / 2 := by
  obtain ⟨hpos, hvalue⟩ := m.overPowerOfTen_eq (-places)
  obtain ⟨hlow, hhigh⟩ := divHalfEven_le (n := (m.overPowerOfTen (-places)).1) hpos
  rw [zpow_neg, zpow_natCast, div_inv_eq_mul] at hvalue
  rw [← hvalue]
  unfold inDecimals
  generalize (m.overPowerOfTen (-places)).1 = n at *
  generalize (m.overPowerOfTen (-places)).2 = d at *
  have hd : (0 : ℚ) < d := by exact_mod_cast hpos
  have hquotient : (n : ℚ) = n / d * d := (div_mul_cancel₀ _ hd.ne').symm
  have hlow' : (2 * n : ℚ) ≤ 2 * (divHalfEven n d * d) + d := by exact_mod_cast hlow
  have hhigh' : (2 * (divHalfEven n d * d) : ℚ) ≤ 2 * n + d := by exact_mod_cast hhigh
  rw [abs_le]
  constructor <;> refine le_of_mul_le_mul_right ?_ hd <;> nlinarith

theorem inDecimals_le {m m' : Magnitude} (h : m.value < m'.value) (places : ℕ) :
    m.inDecimals places ≤ m'.inDecimals places := by
  have hm := abs_le.1 (m.abs_inDecimals_sub_le places)
  have hm' := abs_le.1 (m'.abs_inDecimals_sub_le places)
  have hlt : m.value * 10 ^ places < m'.value * 10 ^ places :=
    mul_lt_mul_of_pos_right h (by positivity)
  -- Both are off by half of one at most, and whole numbers differ by one.
  have hsucc : (m.inDecimals places : ℚ) < m'.inDecimals places + 1 := by linarith
  exact Nat.lt_succ_iff.1 (by exact_mod_cast hsucc)

end Magnitude

theorem exists_isValue_roundDecimals {m : Magnitude} {places : ℕ}
    (hx : IsValue x.toModel.unpack s a) (hm : Magnitude.ofFloat? x = some m)
    (hplaces : places ≤ 22) (hlt : m.inDecimals places < 2 ^ 53) :
    ∃ f, IsValue (roundDecimals places x).toModel.unpack s f ∧
      IsValue (Float.ofScientific (m.inDecimals places) true places).toModel.unpack .positive f ∧
      IsNearTo (m.inDecimals places / 10 ^ places) f := by
  obtain ⟨f, hf, hnear⟩ := exists_isValue_ofScientific hlt hplaces
  have hround : roundDecimals places x =
      withSignOf x (Float.ofScientific (m.inDecimals places) true places) := by
    unfold roundDecimals
    rw [hm]
    rfl
  exact ⟨f, by rw [hround]; exact isValue_withSignOf hx hf, hf, hnear⟩

/-! ## Steps that keep the order -/

/-- Two doubles with one sign, in the order of their magnitudes. The bound says that the next
step stays finite. -/
def InOrder (s : Sign) (bound : ℚ) (x y : Float) : Prop :=
  ∃ a b, IsValue x.toModel.unpack s a ∧ IsValue y.toModel.unpack s b ∧ a ≤ b ∧ b ≤ bound

namespace InOrder

/-- **Quotients keep the order.** -/
theorem div (h : InOrder s B x y) (hp : IsValue p.toModel.unpack .positive c) (hc : 0 < c)
    (hbound : B / c ≤ C) (hC : IsShort C) (hlt : C < 2 ^ 64) : InOrder s C (x / p) (y / p) := by
  obtain ⟨a, b, hx, hy, hab, hb⟩ := h
  have hsign : s / .positive = s := by cases s <;> rfl
  have hquotient : b / c ≤ C := (div_le_div_of_nonneg_right hb hc.le).trans hbound
  have hquotient' : a / c ≤ C := (div_le_div_of_nonneg_right hab hc.le).trans hquotient
  obtain ⟨f, hf, -⟩ := (isRounded_div hx hp hc.ne').exists_isValue (hquotient'.trans_lt hlt)
  obtain ⟨g, hg, hside⟩ := (isRounded_div hy hp hc.ne').exists_isValue (hquotient.trans_lt hlt)
  have hle := le_of_div hp hc hx hy hab hf hg
  rw [hsign] at hf hg
  exact ⟨f, g, hf, hg, hle, (hside C hC).1 hquotient⟩

/-- **Products keep the order.** -/
theorem mul (h : InOrder s B x y) (hp : IsValue p.toModel.unpack .positive c) (hc : 0 < c)
    (hbound : B * c ≤ C) (hC : IsShort C) (hlt : C < 2 ^ 64) : InOrder s C (x * p) (y * p) := by
  obtain ⟨a, b, hx, hy, hab, hb⟩ := h
  have hsign : s * .positive = s := by cases s <;> rfl
  have hproduct : b * c ≤ C := (mul_le_mul_of_nonneg_right hb hc.le).trans hbound
  have hproduct' : a * c ≤ C := (mul_le_mul_of_nonneg_right hab hc.le).trans hproduct
  obtain ⟨f, hf, -⟩ := (isRounded_mul hx hp).exists_isValue (hproduct'.trans_lt hlt)
  obtain ⟨g, hg, hside⟩ := (isRounded_mul hy hp).exists_isValue (hproduct.trans_lt hlt)
  have hle : f ≤ g := by
    refine le_of_isNearTo hf hg (isNearTo_mul hx hp hf) (isNearTo_mul hy hp hg)
      (mul_le_mul_of_nonneg_right hab hc.le) fun heq => ?_
    obtain rfl := mul_right_cancel₀ hc.ne' heq
    change (Float.Model.pack (UnpackedFloat.mul .binary64 _ _)).unpack =
      (Float.Model.pack (UnpackedFloat.mul .binary64 _ _)).unpack
    rw [unpack_eq_of_isValue hx hy]
  rw [hsign] at hf hg
  exact ⟨f, g, hf, hg, hle, (hside C hC).1 hproduct⟩

/-- **Rounding to whole numbers keeps the order.** -/
theorem roundHalfAway {n : ℕ} (h : InOrder s n x y) :
    InOrder s n (roundHalfAway x) (roundHalfAway y) := by
  obtain ⟨a, b, hx, hy, hab, hb⟩ := h
  refine ⟨_, _, isValue_roundHalfAway_floor hx, isValue_roundHalfAway_floor hy, ?_, ?_⟩
  · exact_mod_cast Nat.floor_mono (by linarith)
  · have hfloor := Nat.floor_mono (show b + 1 / 2 ≤ n + 1 / 2 by linarith)
    rw [floor_natCast_add_half] at hfloor
    exact_mod_cast hfloor

/-- **Rounding to decimals keeps the order.** -/
theorem roundDecimals {places n : ℕ} (h : InOrder s B x y) (hplaces : places ≤ 22)
    (hbound : B * 10 ^ places ≤ n) (hn : n + 1 < 2 ^ 53) :
    ∃ f g, IsValue (roundDecimals places x).toModel.unpack s f ∧
      IsValue (TickLabels.roundDecimals places y).toModel.unpack s g ∧ f ≤ g := by
  obtain ⟨a, b, hx, hy, hab, hb⟩ := h
  obtain ⟨m, hm, rfl⟩ := exists_ofFloat?_of_isValue hx
  obtain ⟨m', hm', rfl⟩ := exists_ofFloat?_of_isValue hy
  have hlt {m : Magnitude} (hm : m.value ≤ B) : m.inDecimals places < 2 ^ 53 := by
    have habs := (abs_le.1 (m.abs_inDecimals_sub_le places)).2
    have hscaled : m.value * 10 ^ places ≤ B * 10 ^ places :=
      mul_le_mul_of_nonneg_right hm (by positivity)
    have hle : (m.inDecimals places : ℚ) < n + 1 := by linarith
    exact (by exact_mod_cast hle : m.inDecimals places < n + 1).trans hn
  obtain ⟨f, hf, hdecimal, hnear⟩ := exists_isValue_roundDecimals hx hm hplaces (hlt (hab.trans hb))
  obtain ⟨g, hg, hdecimal', hnear'⟩ := exists_isValue_roundDecimals hy hm' hplaces (hlt hb)
  have hle : m.inDecimals places ≤ m'.inDecimals places := by
    -- Two bounds of half of one leave equal numbers open, but these are the same double.
    rcases hab.lt_or_eq with hlt | heq
    · exact m.inDecimals_le hlt places
    · rw [Magnitude.ofFloat?_eq, unpack_eq_of_isValue hx (heq ▸ hy), ← Magnitude.ofFloat?_eq,
        hm'] at hm
      rw [Option.some.inj hm]
  refine ⟨f, g, hf, hg, le_of_isNearTo hdecimal hdecimal' hnear hnear' ?_ fun heq => ?_⟩
  · exact div_le_div_of_nonneg_right (by exact_mod_cast hle) (by positivity)
  · rw [Nat.cast_inj.1 ((div_left_inj' (by positivity)).1 heq)]

end InOrder

/-! ## Rounding to the digits that are free of noise -/

/-- The step of the last digit that is free of noise, for numbers with `n` digits in front of
the point. -/
def cleanStep (n : ℕ) : Float :=
  powerOfTen (n - 15)

section Clean

variable {n : ℕ} {t : Float}

theorem orderOfMagnitude_cleanStep : ∀ n < 14, orderOfMagnitude (cleanStep n) = n - 15 := by
  decide +kernel

/-- There are few enough steps for doubles to count them. -/
theorem cleanStep_bounds : ∀ n < 14, 0 < exactMagnitude (cleanStep n) ∧
    10 ^ n / exactMagnitude (cleanStep n) ≤ (2 * 10 ^ 15 : ℕ) ∧
      (2 * 10 ^ 15 : ℕ) * exactMagnitude (cleanStep n) ≤ (4 * 10 ^ n : ℕ) := by
  decide +kernel

theorem exists_isValue_cleanStep (hn : n < 14) :
    ∃ c, IsValue (cleanStep n).toModel.unpack .positive c ∧ 0 < c ∧
      10 ^ n / c ≤ (2 * 10 ^ 15 : ℕ) ∧ (2 * 10 ^ 15 : ℕ) * c ≤ (4 * 10 ^ n : ℕ) := by
  obtain ⟨c, hc, -⟩ := exists_isValue_powerOfTen_neg (e := n - 15) (by omega)
  have hbounds := cleanStep_bounds n hn
  rw [exactMagnitude_eq (show IsValue (cleanStep n).toModel.unpack .positive c from hc)] at hbounds
  exact ⟨c, hc, hbounds⟩

theorem roundToMultiple_cleanStep (hn : n < 14) (hx : x.isFinite) :
    roundToMultiple (cleanStep n) x =
      roundDecimals (15 - n) (roundHalfAway (x / cleanStep n) * cleanStep n) := by
  obtain ⟨c, hc, hpos, -⟩ := exists_isValue_cleanStep hn
  have hne : (cleanStep n == 0.0) = false := beq_zero_of_pos hc hpos
  have hfinite : (cleanStep n).isFinite = true := hc.isFinite
  have hdecimals : 0 < -((n : ℤ) - 15) ∧ -((n : ℤ) - 15) ≤ maxCleanDecimals :=
    ⟨by omega, show -((n : ℤ) - 15) ≤ 15 by omega⟩
  unfold roundToMultiple
  rw [hne, hfinite, hx, orderOfMagnitude_cleanStep n hn]
  refine (if_neg (by decide)).trans ((if_pos hdecimals).trans ?_)
  rw [show (-((n : ℤ) - 15)).toNat = 15 - n by omega]

/-- **So rounding to a multiple keeps the order.** -/
theorem InOrder.roundToMultiple (hn : n < 14) (h : InOrder s (10 ^ n) x y) :
    ∃ f g, IsValue (roundToMultiple (cleanStep n) x).toModel.unpack s f ∧
      IsValue (TickLabels.roundToMultiple (cleanStep n) y).toModel.unpack s g ∧ f ≤ g := by
  obtain ⟨c, hc, hpos, hquotient, hproduct⟩ := exists_isValue_cleanStep hn
  have hshort : 4 * 10 ^ n < 2 ^ 53 := by
    have := Nat.pow_le_pow_right (n := 10) (by norm_num) (show n ≤ 13 by omega)
    omega
  obtain ⟨a, b, hx, hy, hab, hb⟩ := h
  rw [roundToMultiple_cleanStep hn hx.isFinite, roundToMultiple_cleanStep hn hy.isFinite]
  have hdiv : InOrder s _ (x / cleanStep n) (y / cleanStep n) :=
    InOrder.div ⟨a, b, hx, hy, hab, hb⟩ hc hpos hquotient (isShort_natCast (by norm_num))
      (by norm_num)
  have hmul := hdiv.roundHalfAway.mul hc hpos hproduct (isShort_natCast hshort)
    (by exact_mod_cast hshort.trans (by norm_num))
  refine hmul.roundDecimals (n := 4 * 10 ^ 15) (by omega) (le_of_eq ?_) (by norm_num)
  push_cast
  rw [mul_assoc, ← pow_add, Nat.add_sub_cancel' (by omega)]
  norm_num

/-- The step for a number is that of its leading digit. -/
theorem removeNoise_eq (hn : n < 14) (hx : IsValue x.toModel.unpack s a)
    (hlow : 10 ^ (n - 1 : ℤ) ≤ a) (hhigh : a < 10 ^ n) (ha : 1 / 8 ≤ a) :
    removeNoise x = roundToMultiple (cleanStep n) x := by
  obtain ⟨q, hq, hsmall⟩ := exists_isValue_powerOfTen_le (e := n - 1) le_rfl (by omega)
  have hnext : IsValue (powerOfTen (n - 1 + 1)).toModel.unpack .positive (10 ^ n) := by
    rw [sub_add_cancel]
    exact_mod_cast isValue_of_isNat (isNat_powerOfTen n (by omega))
  have horder : orderOfMagnitude x = n - 1 := by
    refine orderOfMagnitude_eq hx hlow (by rwa [sub_add_cancel, zpow_natCast]) hq ?_ hnext hhigh
    exact hsmall.elim (·.trans ha) (·.trans hlow)
  have hzero : (x == 0.0) = false := beq_zero_of_pos hx (by linarith)
  have hfinite : x.isFinite = true := hx.isFinite
  unfold removeNoise roundToDigits gridStep?
  rw [hzero, hfinite, horder]
  have hdigits : (n : ℤ) - 1 - (reliableDigits - 1) = n - 15 := by
    change (n : ℤ) - 1 - (15 - 1) = n - 15
    omega
  rw [hdigits]
  rfl

/-- **What a number becomes** is a bound for what greater numbers become, as long as it is the
same on every grid. -/
theorem le_removeNoise (ht : IsValue t.toModel.unpack .positive c)
    (hx : IsValue x.toModel.unpack s a) (hle : c ≤ a) (hlow : 1 / 8 ≤ a) (hhigh : a < 10 ^ 13)
    (hkept : ∀ n < 14, b ≤ exactMagnitude (roundToMultiple (cleanStep n) t) ∧
      b ≤ exactMagnitude (roundToMultiple (cleanStep n) (-t))) :
    ∃ f, IsValue (removeNoise x).toModel.unpack s f ∧ b ≤ f := by
  have hpos : 0 < a := lt_of_lt_of_le (by norm_num) hlow
  have hlog : (10 : ℚ) ^ Int.log 10 a ≤ a := by
    exact_mod_cast Int.zpow_log_le_self (by norm_num) hpos
  have hlog' : a < (10 : ℚ) ^ (Int.log 10 a + 1) := by
    exact_mod_cast Int.lt_zpow_succ_log_self (by norm_num) a
  -- The greater number chooses the grid on which both are rounded.
  obtain ⟨n, hn⟩ : ∃ n : ℕ, Int.log 10 a = n - 1 := by
    have hdigit : -1 ≤ Int.log 10 a := by
      refine (Int.zpow_le_iff_le_log (by norm_num) hpos).1 ?_
      exact le_trans (by norm_num) hlow
    exact ⟨(Int.log 10 a + 1).toNat, by omega⟩
  rw [hn] at hlog hlog'
  rw [sub_add_cancel, zpow_natCast] at hlog'
  have hlt : n < 14 := by
    have hpow := hlog.trans_lt hhigh
    rw [← zpow_natCast, zpow_lt_zpow_iff_right₀ (by norm_num)] at hpow
    omega
  obtain ⟨u, hu, hbound⟩ : ∃ u : Float, IsValue u.toModel.unpack s c ∧
      b ≤ exactMagnitude (roundToMultiple (cleanStep n) u) := by
    cases s with
    | positive => exact ⟨t, ht, (hkept n hlt).1⟩
    | negative => exact ⟨-t, isValue_neg ht, (hkept n hlt).2⟩
  obtain ⟨f, g, hf, hg, hfg⟩ := InOrder.roundToMultiple hlt ⟨c, a, hu, hx, hle, hlog'.le⟩
  rw [exactMagnitude_eq hf] at hbound
  rw [removeNoise_eq hlt hx hlog hlog' hlow]
  exact ⟨g, hg, hbound.trans hfg⟩

/-- **Numbers of one and more** stay so. -/
theorem one_le_removeNoise (hx : IsValue x.toModel.unpack s a) (hlow : 1 ≤ a)
    (hhigh : a < 10 ^ 13) : ∃ f, IsValue (removeNoise x).toModel.unpack s f ∧ 1 ≤ f := by
  have hone : IsValue (1.0 : Float).toModel.unpack .positive 1 := by
    exact_mod_cast isValue_of_isNat (x := 1.0) (n := 1) (by decide +kernel)
  exact le_removeNoise hone hx hlow (le_trans (by norm_num) hlow) hhigh (by decide +kernel)

/-- And numbers that are close to one. -/
theorem near_one_le_removeNoise (hx : IsValue x.toModel.unpack s a) (hlow : 8191 / 8192 ≤ a)
    (hhigh : a < 10 ^ 13) :
    ∃ f, IsValue (removeNoise x).toModel.unpack s f ∧ 4095 / 4096 ≤ f := by
  have hparts : (0.9998779296875 : Float).toModel.unpack =
    .finite .positive 9006099743113216 (-53) (by decide) := rfl
  have hnear : IsValue (0.9998779296875 : Float).toModel.unpack .positive (8191 / 8192) := by
    rw [hparts]
    exact .finite (by norm_num)
  exact le_removeNoise hnear hx hlow (le_trans (by norm_num) hlow) hhigh (by decide +kernel)

end Clean

end TickLabels
