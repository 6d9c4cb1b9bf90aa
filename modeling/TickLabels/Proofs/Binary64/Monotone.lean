import TickLabels.Proofs.Binary64.Signed
/-!
# Rounding keeps the order

A mantissa that is cut keeps two bits of what is cut off, and these are enough to find the
nearest number (`StandsFor.abs_sub_le`). So no number with as few digits is nearer to a product
or a quotient than the rounded one (`isNearTo_mul`, `isNearTo_div`), and rounding keeps the order
(`IsNearTo.le`): greater factors and greater dividends give greater results, or the same.
-/

namespace TickLabels

open Float.Model (UnpackedFloat)
open Float.Model.UnpackedFloat

/-! ## The bits behind the mantissa -/

/-- The mantissa with its bits stands for a number: the first bit tells whether half a unit
or more is cut off, the second one whether there is more than that. -/
def StandsFor (em : ExtendedMantissa) (y : ℚ) : Prop :=
  match em.roundBit, em.stickyBit with
  | false, false => y = em.mantissa
  | false, true => em.mantissa < y ∧ y < em.mantissa + 1 / 2
  | true, false => y = em.mantissa + 1 / 2
  | true, true => em.mantissa + 1 / 2 < y ∧ y < em.mantissa + 1

namespace StandsFor

variable {em : ExtendedMantissa} {y : ℚ}

/-- **Cutting a digit** halves the number. -/
theorem shiftRightOne (h : StandsFor em y) : StandsFor em.shiftRightOne (y / 2) := by
  obtain ⟨m, r, s⟩ := em
  have hm : (m : ℚ) = 2 * (m / 2 : ℕ) + (m % 2 : ℕ) := by
    exact_mod_cast (Nat.div_add_mod m 2).symm
  have hdigit : (m % 2 = 0 ∧ (m % 2 != 0) = false) ∨ (m % 2 = 1 ∧ (m % 2 != 0) = true) := by
    rcases Nat.mod_two_eq_zero_or_one m with h | h <;> simp [h]
  rcases hdigit with ⟨hdigit, hbit⟩ | ⟨hdigit, hbit⟩ <;> rw [hdigit] at hm <;> push_cast at hm <;>
    cases r <;> cases s <;>
    simp only [StandsFor, ExtendedMantissa.shiftRightOne, hbit, Bool.or_false, Bool.or_true] at h ⊢
  all_goals first | linarith | (constructor <;> linarith)

theorem shiftRight (h : StandsFor em y) (k : ℕ) : StandsFor (em >>> k) (y / 2 ^ k) := by
  induction k with
  | zero => simpa [HShiftRight.hShiftRight, Nat.repeat] using h
  | succ k ih =>
    rw [pow_succ, ← div_div]
    exact ih.shiftRightOne

/-- The mantissa is the whole part. -/
theorem bounds (h : StandsFor em y) : em.mantissa ≤ y ∧ y < em.mantissa + 1 := by
  obtain ⟨m, r, s⟩ := em
  cases r <;> cases s <;> simp only [StandsFor] at h ⊢ <;> constructor <;> linarith

/-- **The rounded mantissa** is at most half a unit away. -/
theorem abs_sub_le (h : StandsFor em y) : |y - em.roundedMantissa| ≤ 1 / 2 := by
  obtain ⟨m, r, s⟩ := em
  rw [abs_le]
  cases r <;> cases s <;> simp only [StandsFor, ExtendedMantissa.roundedMantissa,
    ExtendedMantissa.accuracy, Accuracy.roundToNearestEven] at h ⊢
  · constructor <;> linarith
  · constructor <;> linarith
  · -- Half a unit is as far from both sides.
    have hdigit : m % 2 = 0 ∨ m % 2 = 1 := by omega
    rcases hdigit with hdigit | hdigit <;> rw [hdigit] <;> push_cast <;> constructor <;> linarith
  · push_cast
    constructor <;> linarith

end StandsFor

theorem standsFor_exact (m : ℕ) :
    StandsFor (ExtendedMantissa.ofMantissaAndAccuracy m .exact) m :=
  rfl

/-- The rest of a division tells the bits. -/
theorem standsFor_fraction (m : ℕ) {n : ℕ} (hn : 0 < n) :
    StandsFor (ExtendedMantissa.ofMantissaAndAccuracy (m / n) (accuracyOfFraction (m % n) n))
      (m / n) := by
  have hn' : (0 : ℚ) < n := by exact_mod_cast hn
  have hdiv : (m : ℚ) / n = (m / n : ℕ) + (m % n : ℕ) / n := by
    rw [eq_comm, add_div' _ _ _ hn'.ne', mul_comm]
    congr 1
    exact_mod_cast Nat.div_add_mod m n
  have hrest := Nat.mod_lt m hn
  rw [hdiv]
  generalize m % n = r at *
  unfold accuracyOfFraction
  split
  · next hzero =>
    subst hzero
    simp [StandsFor, ExtendedMantissa.ofMantissaAndAccuracy]
  · next hne =>
    have hr : (0 : ℚ) < r := by exact_mod_cast Nat.pos_of_ne_zero hne
    have hlt : (r : ℚ) / n < 1 := by
      rw [div_lt_one hn']
      exact_mod_cast hrest
    have hpos : (0 : ℚ) < r / n := div_pos hr hn'
    rcases lt_trichotomy (2 * r) n with hhalf | hhalf | hhalf
    · rw [compare_lt_iff_lt.2 hhalf]
      have hhalf' : (r : ℚ) / n < 1 / 2 := by
        rw [div_lt_div_iff₀ hn' two_pos]
        exact_mod_cast (by omega : r * 2 < 1 * n)
      simp only [StandsFor, ExtendedMantissa.ofMantissaAndAccuracy]
      constructor <;> linarith
    · rw [compare_eq_iff_eq.2 hhalf]
      have hhalf' : (r : ℚ) / n = 1 / 2 := by
        rw [div_eq_div_iff hn'.ne' two_ne_zero]
        exact_mod_cast (by omega : r * 2 = 1 * n)
      exact congrArg _ hhalf'
    · rw [compare_gt_iff_gt.2 hhalf]
      have hhalf' : 1 / 2 < (r : ℚ) / n := by
        rw [div_lt_div_iff₀ two_pos hn']
        exact_mod_cast (by omega : 1 * n < r * 2)
      simp only [StandsFor, ExtendedMantissa.ofMantissaAndAccuracy]
      constructor <;> linarith

/-! ## What is nearest -/

/-- No number with few digits is nearer to `v`. -/
def IsNearTo (v f : ℚ) : Prop :=
  ∀ z, IsShort z → |v - f| ≤ |v - z|

theorem isNearTo_self (v : ℚ) : IsNearTo v v := by
  intro z _
  rw [sub_self, abs_zero]
  exact abs_nonneg _

/-- **What is nearest keeps the order.** -/
theorem IsNearTo.le {v w f g : ℚ} (hf : IsNearTo v f) (hg : IsNearTo w g) (hfs : IsShort f)
    (hgs : IsShort g) (h : v < w) : f ≤ g := by
  by_contra hlt
  have hlt := not_le.1 hlt
  -- The smaller number is not on the farther side of the middle.
  have hv := hf g hgs
  have hw := hg f hfs
  rw [← sq_le_sq] at hv hw
  nlinarith

/-- A multiple of `2 ^ T` that is at most half of it away, if the digits are full or the
exponent is the least there is. -/
theorem isNearTo_of_bounds {Q R : ℕ} {T : ℤ} {v : ℚ} (hlow : Q * 2 ^ T ≤ v)
    (hhigh : v < (Q + 1) * 2 ^ T) (hround : R = Q ∨ R = Q + 1)
    (hhalf : |v - R * 2 ^ T| ≤ 2 ^ T / 2) (hfull : 2 ^ 52 ≤ Q ∨ T = -1074) :
    IsNearTo v (R * 2 ^ T) := by
  intro z hz
  have hpos : (0 : ℚ) < 2 ^ T := by positivity
  have hz' : z ≤ Q * 2 ^ T ∨ (Q + 1) * 2 ^ T ≤ z := by
    by_contra hbetween
    obtain ⟨hgt, hlt⟩ := not_or.1 hbetween
    exact (not_le.1 hgt).ne' (eq_of_isShort hz (not_le.1 hgt).le (not_le.1 hlt) hfull)
  rw [abs_le] at hhalf
  rcases hround with rfl | rfl
  · rw [abs_of_nonneg (by linarith)]
    rcases hz' with hz' | hz'
    · exact (by linarith : v - R * 2 ^ T ≤ v - z).trans (le_abs_self _)
    · exact (by linarith : v - R * 2 ^ T ≤ -(v - z)).trans (neg_le_abs _)
  · push_cast at hhalf ⊢
    rw [abs_of_neg (by linarith)]
    rcases hz' with hz' | hz'
    · exact (by linarith : -(v - (Q + 1) * 2 ^ T) ≤ v - z).trans (le_abs_self _)
    · exact (by linarith : -(v - (Q + 1) * 2 ^ T) ≤ -(v - z)).trans (neg_le_abs _)

/-- What is encoded has its value, unless it is infinite. -/
theorem IsValue.eq_of_pack {s : Sign} {m : ℕ} {e : ℤ} {f : ℚ} {h : 0 < m}
    (hf : IsValue (Float.Model.pack (.finite s m e h)).unpack s f) (hlt : m < 2 ^ 53)
    (hmin : -1074 ≤ e) (hfull : 2 ^ 52 ≤ m ∨ e = -1074) : f = m * 2 ^ e :=
  ((isRounded_pack_finite h hlt hmin hfull (sameSide_refl _)).sameSide hf).eq
    ⟨m, e, hlt, hmin, rfl⟩

/-- **Rounding finds the nearest number.** -/
theorem isNearTo_roundWithAccuracy {s : Sign} {m : ℕ} {e : ℤ} {a : Accuracy} {v f : ℚ}
    (htarget : e ≤ Float.Model.Format.binary64.targetExponent (Float.Model.totalExponent m e))
    (hstands : StandsFor (ExtendedMantissa.ofMantissaAndAccuracy m a) (v / 2 ^ e))
    (hf : IsValue (Float.Model.pack (roundWithAccuracy .binary64 s m e a)).unpack s f) :
    IsNearTo v f := by
  generalize hT : Float.Model.Format.binary64.targetExponent
    (Float.Model.totalExponent m e) = T at htarget
  generalize hR : (cutMantissa m a (T - e).toNat).roundedMantissa = R
  rw [roundWithAccuracy_cut hT.symm htarget hR.symm] at hf
  rw [targetExponent_eq] at hT
  generalize hk : (T - e).toNat = k at *
  obtain ⟨hcut, hfull⟩ := cut_bounds (k := k) hT.symm (by omega)
  have hround := roundedMantissa_bounds (cutMantissa m a k)
  have hcutStands : StandsFor (cutMantissa m a k) (v / 2 ^ T) := by
    have hunit : (2 : ℚ) ^ T = 2 ^ e * 2 ^ k := by
      rw [← zpow_natCast, ← zpow_add₀ (by norm_num)]
      congr 1
      omega
    rw [hunit, ← div_div]
    exact hstands.shiftRight k
  have hpos : (0 : ℚ) < 2 ^ T := by positivity
  obtain ⟨hlow, hhigh⟩ := hcutStands.bounds
  have hhalf := hcutStands.abs_sub_le
  rw [mantissa_cutMantissa] at hlow hhigh hround
  rw [hR] at hhalf hround
  rw [le_div_iff₀ hpos] at hlow
  rw [div_lt_iff₀ hpos] at hhigh
  have hnear : IsNearTo v (R * 2 ^ T) := by
    refine isNearTo_of_bounds hlow hhigh (by omega) ?_ hfull
    have hscaled : v - R * 2 ^ T = (v / 2 ^ T - R) * 2 ^ T := by
      rw [sub_mul, div_mul_cancel₀ _ hpos.ne']
    rw [hscaled, abs_mul, abs_of_pos hpos]
    exact (mul_le_mul_of_nonneg_right hhalf hpos.le).trans_eq (by ring)
  suffices hvalue : f = R * 2 ^ T by rwa [hvalue]
  split at hf
  · next hlt =>
    split at hf
    · next hzero =>
      rw [unpack_pack_zero] at hf
      rw [hf.eq (.zero s), hzero, Nat.cast_zero, zero_mul]
    · exact hf.eq_of_pack hlt (by omega) (by omega)
  · have hcarry : ((2 ^ 53 : ℕ) : ℚ) * 2 ^ T = (2 ^ 52 : ℕ) * 2 ^ (T + 1) := by
      rw [zpow_add_one₀ (by norm_num)]
      push_cast
      ring
    obtain rfl : R = 2 ^ 53 := by omega
    rw [hcarry]
    exact hf.eq_of_pack (by norm_num) (by omega) (.inl le_rfl)

/-! ## Products and quotients -/

variable {x y z : Float} {s t : Sign} {a b c f g : ℚ}

/-- **A product is rounded to the nearest number.** -/
theorem isNearTo_mul (hx : IsValue x.toModel.unpack s a) (hy : IsValue y.toModel.unpack t b)
    (hf : IsValue (x * y).toModel.unpack (s * t) f) : IsNearTo (a * b) f := by
  change IsValue (Float.Model.pack (UnpackedFloat.mul .binary64 x.toModel.unpack
    y.toModel.unpack)).unpack _ _ at hf
  have hzero (hf : IsValue (Float.Model.pack (.zero (s * t))).unpack (s * t) f) :
      IsNearTo 0 f := by
    rw [unpack_pack_zero] at hf
    rw [hf.eq (.zero _)]
    exact isNearTo_self 0
  obtain ⟨hu, ha⟩ | ⟨m, e, hm, hu, ha⟩ := hx.parts <;>
    obtain ⟨hw, hb⟩ | ⟨n, d, hn, hw, hb⟩ := hy.parts <;> rw [hu, hw] at hf
  · rw [ha, zero_mul]
    exact hzero hf
  · rw [ha, zero_mul]
    exact hzero hf
  · rw [hb, mul_zero]
    exact hzero hf
  · refine isNearTo_roundWithAccuracy (le_targetExponent_mul (canonical_of_unpack hu)
      (canonical_of_unpack hw) hm hn) ?_ hf
    have hvalue : a * b / 2 ^ (e + d) = (m * n : ℕ) := by
      rw [ha, hb, zpow_add₀ (by norm_num)]
      push_cast
      field_simp
    rw [hvalue]
    exact standsFor_exact _

/-- **A quotient is rounded to the nearest number.** -/
theorem isNearTo_div (hx : IsValue x.toModel.unpack s a) (hy : IsValue y.toModel.unpack t b)
    (hb : b ≠ 0) (hf : IsValue (x / y).toModel.unpack (s / t) f) : IsNearTo (a / b) f := by
  change IsValue (Float.Model.pack (UnpackedFloat.div .binary64 x.toModel.unpack
    y.toModel.unpack)).unpack _ _ at hf
  obtain ⟨-, hb'⟩ | ⟨n, d, hn, hw, hb'⟩ := hy.parts
  · exact absurd hb' hb
  obtain ⟨hu, ha⟩ | ⟨m, e, hm, hu, ha⟩ := hx.parts <;> rw [hu, hw] at hf
  · change IsValue (Float.Model.pack (.zero (s / t))).unpack _ _ at hf
    rw [unpack_pack_zero] at hf
    rw [ha, zero_div, hf.eq (.zero _)]
    exact isNearTo_self 0
  · obtain ⟨k, T, hdiv, htarget, hvalue⟩ := div_finite s t e d hm hn
    rw [hdiv] at hf
    refine isNearTo_roundWithAccuracy htarget ?_ hf
    rw [ha, hb', hvalue, mul_div_cancel_right₀ _ (by positivity)]
    exact standsFor_fraction _ hn

/-- **Doubles nearest to numbers in order** are in order. -/
theorem le_of_isNearTo {v w : ℚ} (hx : IsValue x.toModel.unpack s f)
    (hy : IsValue y.toModel.unpack t g) (hv : IsNearTo v f) (hw : IsNearTo w g) (hle : v ≤ w)
    (hsame : v = w → x.toModel.unpack = y.toModel.unpack) : f ≤ g := by
  rcases hle.lt_or_eq with hlt | heq
  · exact hv.le hw (isShort_of_isValue hx) (isShort_of_isValue hy) hlt
  · exact (hx.eq (hsame heq ▸ hy)).le

/-- **Greater factors** have no smaller products. -/
theorem le_of_mul (hz : IsValue z.toModel.unpack t c) (hc : 0 < c)
    (hx : IsValue x.toModel.unpack s a) (hy : IsValue y.toModel.unpack s b)
    (hab : a ≤ b) (hf : IsValue (z * x).toModel.unpack (t * s) f)
    (hg : IsValue (z * y).toModel.unpack (t * s) g) : f ≤ g := by
  refine le_of_isNearTo hf hg (isNearTo_mul hz hx hf) (isNearTo_mul hz hy hg)
    (mul_le_mul_of_nonneg_left hab hc.le) fun heq => ?_
  obtain rfl := mul_left_cancel₀ hc.ne' heq
  change (Float.Model.pack (UnpackedFloat.mul .binary64 _ _)).unpack =
    (Float.Model.pack (UnpackedFloat.mul .binary64 _ _)).unpack
  rw [unpack_eq_of_isValue hx hy]

/-- **Greater dividends** have no smaller quotients. -/
theorem le_of_div (hz : IsValue z.toModel.unpack t c) (hc : 0 < c)
    (hx : IsValue x.toModel.unpack s a) (hy : IsValue y.toModel.unpack s b)
    (hab : a ≤ b) (hf : IsValue (x / z).toModel.unpack (s / t) f)
    (hg : IsValue (y / z).toModel.unpack (s / t) g) : f ≤ g := by
  refine le_of_isNearTo hf hg (isNearTo_div hx hz hc.ne' hf) (isNearTo_div hy hz hc.ne' hg)
    ((div_le_div_iff_of_pos_right hc).2 hab) fun heq => ?_
  obtain rfl := (div_left_inj' hc.ne').1 heq
  change (Float.Model.pack (UnpackedFloat.div .binary64 _ _)).unpack =
    (Float.Model.pack (UnpackedFloat.div .binary64 _ _)).unpack
  rw [unpack_eq_of_isValue hx hy]

/-! ## Thresholds -/

/-- Two magnitudes in order, both far from infinite. -/
def Ascends (x y : Float) : Prop :=
  ∃ a b, IsValue x.toModel.unpack .positive a ∧ IsValue y.toModel.unpack .positive b ∧ a ≤ b ∧
    b < 2 ^ 64

/-- Where the threshold `u` is passed, the threshold `v` is passed as well, also by greater
magnitudes. -/
def Precedes (v u : Float) : Prop :=
  ∀ x y, Ascends x y → (u ≤ x → v ≤ y) ∧ (u < x → v < y)

/-- Whole numbers below `2 ^ 54` are in order as doubles. -/
theorem ascends_ofNat {m n : ℕ} (hmn : m ≤ n) (hn : n < 2 ^ 54) :
    Ascends (Float.ofNat m) (Float.ofNat n) := by
  have hn' : (n : ℚ) < 2 ^ 64 := by exact_mod_cast (show n < 2 ^ 64 by omega)
  obtain ⟨f, hf, hfside⟩ := (isRounded_ofNat m).exists_isValue
    ((show (m : ℚ) ≤ n by exact_mod_cast hmn).trans_lt hn')
  obtain ⟨g, hg, hgside⟩ := (isRounded_ofNat n).exists_isValue hn'
  have hbound : g ≤ 2 ^ 54 :=
    (hgside _ ⟨1, 54, by norm_num, by norm_num, by norm_num⟩).1
      (by exact_mod_cast hn.le)
  refine ⟨f, g, hf, hg, ?_, hbound.trans_lt (by norm_num)⟩
  rcases Nat.lt_or_eq_of_le hmn with hlt | rfl
  · -- One of two consecutive numbers is even.
    obtain ⟨k, hmk, hkn, heven⟩ : ∃ k, m ≤ k ∧ k ≤ n ∧ 2 ∣ k := by
      rcases Nat.mod_two_eq_zero_or_one m with h | h
      · exact ⟨m, le_rfl, hmn, by omega⟩
      · exact ⟨m + 1, by omega, hlt, by omega⟩
    have hk : IsShort k := isShort_of_pow_dvd (p := 1) (by simpa using heven) (by omega)
    exact ((hfside k hk).1 (by exact_mod_cast hmk)).trans
      ((hgside k hk).2 (by exact_mod_cast hkn))
  · exact (hf.eq hg).le

theorem Ascends.div (h : Ascends x y) (hz : IsValue z.toModel.unpack .positive c) (hc : 1 ≤ c) :
    Ascends (x / z) (y / z) := by
  obtain ⟨a, b, hx, hy, hab, hb⟩ := h
  have hpos : 0 < c := one_pos.trans_le hc
  have hquotient : b / c ≤ b := div_le_self hy.nonneg hc
  have hquotient' : a / c ≤ b := (div_le_div_of_nonneg_right hab hpos.le).trans hquotient
  obtain ⟨f, hf, -⟩ := exists_isValue_div hx hz hpos.ne' (isShort_of_isValue hy) hquotient' hb
  obtain ⟨g, hg, hgb⟩ := exists_isValue_div hy hz hpos.ne' (isShort_of_isValue hy) hquotient hb
  exact ⟨f, g, hf, hg, le_of_div hz hpos hx hy hab hf hg, hgb.trans_lt hb⟩

theorem precedes_of_le (hx : IsValue x.toModel.unpack .positive a)
    (hy : IsValue y.toModel.unpack .positive b) (hab : a ≤ b) : Precedes x y := by
  rintro u w ⟨c, d, hu, hw, hcd, -⟩
  rw [le_iff_signedBy hy hu, le_iff_signedBy hx hw, lt_iff hy hu, lt_iff hx hw]
  exact ⟨fun h => (hab.trans h).trans hcd, fun h => (hab.trans_lt h).trans_le hcd⟩

/-- A fixed threshold. -/
theorem precedes_self (hx : IsValue x.toModel.unpack .positive a) : Precedes x x :=
  precedes_of_le hx hx le_rfl

theorem compare_infinity {u : UnpackedFloat} (h : IsValue u .positive a) :
    (UnpackedFloat.infinity .positive).compare u = some .gt := by
  obtain ⟨rfl, -⟩ | ⟨m, e, hm, rfl, -⟩ := h.parts <;> rfl

/-- No magnitude that is far from infinite passes a large threshold. -/
theorem not_le_of_isRounded {v : ℚ} (h : IsRounded y.toModel.unpack .positive v)
    (hv : 2 ^ 64 ≤ v) (hx : IsValue x.toModel.unpack .positive a) (ha : a < 2 ^ 64) :
    ¬ y ≤ x ∧ ¬ y < x := by
  generalize hu : y.toModel.unpack = u at h
  cases h with
  | infinity =>
    have hcompare : y.toModel.unpack.compare x.toModel.unpack = some .gt := by
      rw [hu, compare_infinity hx]
    change ¬ decide ((y.toModel.unpack.compare x.toModel.unpack).any (·.isLE) = true) = true ∧
      ¬ decide ((y.toModel.unpack.compare x.toModel.unpack == some .lt) = true) = true
    rw [hcompare]
    decide
  | @value _ _ _ f hf hside =>
    rw [← hu] at hf
    have hf' : 2 ^ 64 ≤ f := (hside _ ⟨1, 64, by norm_num, by norm_num, by norm_num⟩).2 hv
    rw [le_iff_signedBy hf hx, lt_iff hf hx]
    exact ⟨not_le.2 (ha.trans_le hf'), not_lt.2 (ha.le.trans hf')⟩

/-- **A threshold in proportion.** -/
theorem precedes_mul (hz : IsValue z.toModel.unpack .positive c) (hc : 0 < c)
    (hx : IsValue x.toModel.unpack .positive a) (hy : IsValue y.toModel.unpack .positive b)
    (hab : a ≤ b) : Precedes (z * x) (z * y) := by
  have hlow := isRounded_mul hz hx
  have hhigh := isRounded_mul hz hy
  have hproducts : c * a ≤ c * b := mul_le_mul_of_nonneg_left hab hc.le
  rcases le_or_gt (2 ^ 64) (c * b) with hlarge | hsmall
  · rintro u w ⟨d, d', hu, -, hd, hd'⟩
    obtain ⟨hle, hlt⟩ := not_le_of_isRounded hhigh hlarge hu (hd.trans_lt hd')
    exact ⟨fun h => absurd h hle, fun h => absurd h hlt⟩
  · obtain ⟨f, hf, -⟩ := hlow.exists_isValue (hproducts.trans_lt hsmall)
    obtain ⟨g, hg, -⟩ := hhigh.exists_isValue hsmall
    exact precedes_of_le hf hg (le_of_mul hz hc hx hy hab hf hg)

end TickLabels
