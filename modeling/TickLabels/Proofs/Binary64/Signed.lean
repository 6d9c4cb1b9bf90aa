import TickLabels.Proofs.Binary64.Nearest
/-!
# The order of doubles with signs

Doubles are compared by their exact values. The two zeros have one value, and what is not
finite has none.
-/

namespace TickLabels

open Float.Model (UnpackedFloat)
open Float.Model.UnpackedFloat

/-- A magnitude with a sign. -/
def signedBy (s : Sign) (q : ℚ) : ℚ :=
  match s with
  | .positive => q
  | .negative => -q

@[simp] theorem signedBy_zero (s : Sign) : signedBy s 0 = 0 := by
  cases s with
  | positive => rfl
  | negative => exact neg_zero

theorem signedBy_natCast (s : Sign) (n : ℕ) : signedBy s n = (s.apply n : ℤ) := by
  cases s <;> simp [signedBy, Sign.apply]

/-- Of two negative numbers the one with the smaller magnitude is the greater. -/
theorem compare_neg_neg (a b : ℚ) : compare (-a) (-b) = (compare a b).swap := by
  rcases lt_trichotomy a b with hlt | rfl | hgt
  · rw [compare_lt_iff_lt.2 hlt, compare_gt_iff_gt.2 (neg_lt_neg hlt)]
    rfl
  · rw [compare_eq_iff_eq.2 rfl, compare_eq_iff_eq.2 rfl]
    rfl
  · rw [compare_gt_iff_gt.2 hgt, compare_lt_iff_lt.2 (neg_lt_neg hgt)]
    rfl

variable {x y : Float} {s t : Sign} {a b : ℚ}

/-- Doubles are known by their values. -/
theorem unpack_eq_of_isValue (hx : IsValue x.toModel.unpack s a)
    (hy : IsValue y.toModel.unpack s a) : x.toModel.unpack = y.toModel.unpack := by
  obtain ⟨hu, ha⟩ | ⟨m, e, hm, hu, ha⟩ := hx.parts <;>
    obtain ⟨hw, hb⟩ | ⟨n, d, hn, hw, hb⟩ := hy.parts <;> rw [hu, hw]
  · exact absurd (ha.symm.trans hb) (show (0 : ℚ) < n * 2 ^ d by positivity).ne
  · exact absurd (hb.symm.trans ha) (show (0 : ℚ) < m * 2 ^ e by positivity).ne
  · have hsame := Magnitude.Canonical.eq_of_value_eq (canonical_of_unpack hu)
      (canonical_of_unpack hw) (ha.symm.trans hb)
    obtain ⟨rfl, rfl⟩ := Magnitude.mk.inj hsame
    rfl

theorem exactValue_eq (h : IsValue x.toModel.unpack s a) : exactValue x = signedBy s a := by
  rw [exactValue, exactMagnitude_eq h, signed]
  obtain ⟨hu, rfl⟩ | ⟨m, e, hm, hu, -⟩ := h.parts
  · simp
  · have hsign := lt_zero_iff hu
    cases s with
    | positive => exact if_neg fun h => by cases hsign.1 h
    | negative => exact if_pos (hsign.2 rfl)

/-- **The order of the exact values.** -/
theorem compare_signedBy (hx : IsValue x.toModel.unpack s a) (hy : IsValue y.toModel.unpack t b) :
    x.toModel.unpack.compare y.toModel.unpack =
      some (compare (signedBy s a) (signedBy t b)) := by
  obtain ⟨hu, rfl⟩ | ⟨m, e, hm, hu, ha⟩ := hx.parts <;>
    obtain ⟨hw, rfl⟩ | ⟨n, f, hn, hw, hb⟩ := hy.parts <;> rw [hu, hw]
  · rw [signedBy_zero, signedBy_zero, compare_eq_iff_eq.2 rfl]
    rfl
  · have hpos : 0 < b := by rw [hb]; positivity
    rw [signedBy_zero]
    cases t with
    | positive =>
      rw [signedBy, compare_lt_iff_lt.2 hpos]
      rfl
    | negative =>
      rw [signedBy, compare_gt_iff_gt.2 (neg_lt_zero.2 hpos)]
      rfl
  · have hpos : 0 < a := by rw [ha]; positivity
    rw [signedBy_zero]
    cases s with
    | positive =>
      rw [signedBy, compare_gt_iff_gt.2 hpos]
      rfl
    | negative =>
      rw [signedBy, compare_lt_iff_lt.2 (neg_lt_zero.2 hpos)]
      rfl
  · have hcompare := compare_canonical (canonical_of_unpack hu) (canonical_of_unpack hw)
    rw [← ha, ← hb] at hcompare
    have ha' : 0 < a := by rw [ha]; positivity
    have hb' : 0 < b := by rw [hb]; positivity
    cases s <;> cases t <;> simp only [signedBy]
    · rw [compare_neg_neg, ← hcompare]
      rfl
    · rw [compare_lt_iff_lt.2 (by linarith)]
      rfl
    · rw [compare_gt_iff_gt.2 (by linarith)]
      rfl
    · rw [← hcompare]
      rfl

theorem le_iff_signedBy (hx : IsValue x.toModel.unpack s a) (hy : IsValue y.toModel.unpack t b) :
    x ≤ y ↔ signedBy s a ≤ signedBy t b := by
  change decide (((x.toModel.unpack.compare y.toModel.unpack).any (·.isLE)) = true) = true ↔ _
  rw [compare_signedBy hx hy]
  simp [Ordering.isLE_iff_ne_gt, compare_le_iff_le]

theorem lt_iff_signedBy (hx : IsValue x.toModel.unpack s a) (hy : IsValue y.toModel.unpack t b) :
    x < y ↔ signedBy s a < signedBy t b := by
  change decide ((x.toModel.unpack.compare y.toModel.unpack == some .lt) = true) = true ↔ _
  rw [compare_signedBy hx hy]
  simp [compare_lt_iff_lt]

/-- Finite doubles are in the order of their exact values. -/
theorem le_iff_exactValue (hx : x.isFinite) (hy : y.isFinite) :
    x ≤ y ↔ exactValue x ≤ exactValue y := by
  obtain ⟨s, a, ha⟩ := exists_isValue hx
  obtain ⟨t, b, hb⟩ := exists_isValue hy
  rw [le_iff_signedBy ha hb, exactValue_eq ha, exactValue_eq hb]

theorem lt_iff_exactValue (hx : x.isFinite) (hy : y.isFinite) :
    x < y ↔ exactValue x < exactValue y := by
  obtain ⟨s, a, ha⟩ := exists_isValue hx
  obtain ⟨t, b, hb⟩ := exists_isValue hy
  rw [lt_iff_signedBy ha hb, exactValue_eq ha, exactValue_eq hb]

theorem beq_iff_signedBy (hx : IsValue x.toModel.unpack s a) (hy : IsValue y.toModel.unpack t b) :
    (x == y) = true ↔ signedBy s a = signedBy t b := by
  change (x.toModel.unpack.compare y.toModel.unpack == some .eq) = true ↔ _
  rw [compare_signedBy hx hy]
  simp

/-! ## Quotients of integers -/

/-- The numbers in steps of a power of two, up to the last one that needs all digits. -/
theorem isShort_div_pow {n j : ℕ} (hn : n ≤ 2 ^ 53) (hj : j ≤ 1074) :
    IsShort ((n : ℚ) / 2 ^ j) := by
  rcases Nat.lt_or_eq_of_le hn with hlt | rfl
  · exact ⟨n, -j, hlt, by omega, by rw [zpow_neg, zpow_natCast, div_eq_mul_inv]⟩
  · refine ⟨2 ^ 52, 1 - j, by norm_num, by omega, ?_⟩
    rw [zpow_sub₀ two_ne_zero, zpow_one, zpow_natCast]
    push_cast
    ring

/-- **A quotient that is not close to a whole number** is not rounded to it. -/
theorem ne_natCast_of_far {k m c : ℕ} {f : ℚ} (hc : 0 < c) (hclt : c < 2 ^ 53)
    (hm : m * c < 2 ^ 53) (hfar : k + 2 ≤ m * c ∨ m * c + 2 ≤ k) (h : SameSide (k / c) f) :
    f ≠ m := by
  -- Between the two there is a number in steps of the power of two next below the divisor.
  have hpow : 2 ^ c.log2 ≤ c := Nat.log2_self_le hc.ne'
  have hpow' : c < 2 ^ c.log2 * 2 := Nat.lt_log2_self
  have hj : c.log2 ≤ 1074 := by
    have := (Nat.log2_lt hc.ne').2 hclt
    omega
  generalize c.log2 = j at *
  have hpos : (0 : ℚ) < 2 ^ j := by positivity
  have hc' : (0 : ℚ) < c := by exact_mod_cast hc
  have hsteps : m * 2 ^ j ≤ m * c := Nat.mul_le_mul_left m hpow
  have hm' : (m : ℚ) = m * 2 ^ j / 2 ^ j := (mul_div_cancel_right₀ _ hpos.ne').symm
  rcases hfar with hlow | hhigh
  · have hone : 1 ≤ m * 2 ^ j := by
      refine Nat.mul_pos (Nat.pos_of_ne_zero ?_) (by positivity)
      rintro rfl
      omega
    have hle : (k : ℚ) / c ≤ (m * 2 ^ j - 1 : ℕ) / 2 ^ j := by
      rw [div_le_div_iff₀ hc' hpos, Nat.cast_sub hone]
      have hscaled := Nat.mul_le_mul_right (2 ^ j) hlow
      have : ((k + 2) * 2 ^ j : ℚ) ≤ m * c * 2 ^ j := by exact_mod_cast hscaled
      have : (c : ℚ) < 2 ^ j * 2 := by exact_mod_cast hpow'
      push_cast
      linarith
    have hf := (h _ (isShort_div_pow (by omega) hj)).1 hle
    refine (hf.trans_lt ?_).ne
    rw [hm', Nat.cast_sub hone]
    refine div_lt_div_of_pos_right ?_ hpos
    push_cast
    linarith
  · have hle : ((m * 2 ^ j + 1 : ℕ) : ℚ) / 2 ^ j ≤ k / c := by
      rw [div_le_div_iff₀ hpos hc']
      have hscaled := Nat.mul_le_mul_right (2 ^ j) hhigh
      have : (m * c + 2) * 2 ^ j ≤ (k : ℚ) * 2 ^ j := by exact_mod_cast hscaled
      have : (c : ℚ) < 2 ^ j * 2 := by exact_mod_cast hpow'
      push_cast
      linarith
    have hf := (h _ (isShort_div_pow (by omega) hj)).2 hle
    refine (lt_of_lt_of_le ?_ hf).ne'
    rw [hm']
    refine div_lt_div_of_pos_right ?_ hpos
    push_cast
    linarith

/-- The quotient of integers is the rounded quotient of their magnitudes, with the sign of the
dividend. -/
theorem exists_isValue_ofInt_div {d : ℤ} {c : ℕ} (hc : 0 < c) (hclt : c < 2 ^ 53)
    (hd : d.natAbs < 2 ^ 53) :
    ∃ (s : Sign) (k : ℕ) (f : ℚ), s.apply k = d ∧
      IsValue (Float.ofInt d / Float.ofInt c).toModel.unpack s f ∧ SameSide (k / c) f := by
  obtain ⟨s, k, hk, hklt, hdk⟩ := exists_isValue_ofInt hd
  have hdivisor : IsValue (Float.ofInt c).toModel.unpack .positive c := isValue_ofNat hclt
  have hsign : s / .positive = s := by cases s <;> rfl
  have hquotient := isRounded_div hk hdivisor (by exact_mod_cast hc.ne')
  rw [hsign] at hquotient
  have hbound : (k : ℚ) / c < 2 ^ 64 := by
    refine (div_le_self (by positivity) (by exact_mod_cast hc)).trans_lt ?_
    exact_mod_cast (show k < 2 ^ 64 by omega)
  obtain ⟨f, hf, hside⟩ := hquotient.exists_isValue hbound
  exact ⟨s, k, f, hdk, hf, hside⟩

/-- A quotient that is read as an integer has the magnitude of this integer, and its sign. -/
theorem exists_of_signedBy_eq {f : ℚ} {n : ℤ} (hf : 0 ≤ f) (h : signedBy s f = n) :
    ∃ q : ℕ, f = q ∧ n = s.apply q := by
  have happly : f = (s.apply n : ℤ) := by
    cases s <;> simp only [signedBy, Sign.apply] at h ⊢ <;> push_cast <;> linarith
  rw [happly] at hf
  obtain ⟨q, hq⟩ := Int.eq_ofNat_of_zero_le (show 0 ≤ s.apply n by exact_mod_cast hf)
  refine ⟨q, by rw [happly, hq]; rfl, ?_⟩
  cases s <;> simp only [Sign.apply] at hq ⊢ <;> omega

/-- **An integer quotient is found exactly** where it is one, and is not found where the
dividend is off by more than one. -/
theorem ofInt_div_beq_iff {d n c : ℤ} (hc : 0 < c) (hclt : c < 2 ^ 53) (hd : d.natAbs < 2 ^ 53)
    (hn : (n * c).natAbs < 2 ^ 53) (hfar : d ≠ n * c → 2 ≤ (d - n * c).natAbs) :
    (Float.ofInt d / Float.ofInt c == Float.ofInt n) = true ↔ d = n * c := by
  obtain ⟨c, rfl⟩ := Int.eq_ofNat_of_zero_le hc.le
  have hcpos : 0 < c := by omega
  have hc' : (c : ℚ) ≠ 0 := by exact_mod_cast hcpos.ne'
  have hnle : n.natAbs * c < 2 ^ 53 := by rwa [Int.natAbs_mul, Int.natAbs_natCast] at hn
  have hnlt : n.natAbs < 2 ^ 53 := (Nat.le_mul_of_pos_right _ hcpos).trans_lt hnle
  obtain ⟨s, k, f, hdk, hf, hside⟩ := exists_isValue_ofInt_div hcpos (by omega) hd
  obtain ⟨t, m, hm, -, hnm⟩ := exists_isValue_ofInt hnlt
  rw [beq_iff_signedBy hf hm, signedBy_natCast, hnm]
  constructor
  · intro hvalue
    by_contra hne
    have hoff := hfar hne
    -- With one sign, the magnitudes are as far apart as the integers.
    obtain ⟨q, hq, rfl⟩ := exists_of_signedBy_eq hf.nonneg hvalue
    have hmagnitude : q * c < 2 ^ 53 ∧ (k + 2 ≤ q * c ∨ q * c + 2 ≤ k) := by
      have hcast : ((q * c : ℕ) : ℤ) = q * c := Nat.cast_mul q c
      cases s <;> simp only [Sign.apply, neg_mul] at hdk hoff hn <;> omega
    exact ne_natCast_of_far hcpos (by omega) hmagnitude.1 hmagnitude.2 hside hq
  · rintro rfl
    have hkm : k = n.natAbs * c := by
      have hkd : k = (n * c).natAbs := by
        rw [← hdk]
        cases s <;> simp [Sign.apply]
      rw [hkd, Int.natAbs_mul, Int.natAbs_natCast]
    have hexact : f = k / c := by
      refine hside.eq ?_
      rw [hkm, Nat.cast_mul, mul_div_cancel_right₀ _ hc']
      exact isShort_natCast hnlt
    have hscaled : signedBy s f * c = signedBy s k := by
      cases s <;> simp only [signedBy] <;> rw [hexact] <;> field_simp
    rw [signedBy_natCast, hdk, Int.cast_mul, Int.cast_natCast] at hscaled
    exact mul_right_cancel₀ hc' hscaled

/-! ## Opposites -/

/-- The sign of a dividend has no say in the magnitude of the quotient. -/
theorem eq_of_div {z : Float} {s' t' : Sign} {f g : ℚ} (hx : IsValue x.toModel.unpack s a)
    (hy : IsValue y.toModel.unpack t a) (hf : IsValue (x / z).toModel.unpack s' f)
    (hg : IsValue (y / z).toModel.unpack t' g) : f = g := by
  have hmagnitude : Magnitude.ofFloat? (x / z) = Magnitude.ofFloat? (y / z) := by
    rw [← ofFloat?_abs_div x, ← ofFloat?_abs_div y, Magnitude.ofFloat?_eq,
      Magnitude.ofFloat?_eq]
    change Magnitude.ofParts? (Float.Model.pack (UnpackedFloat.div .binary64 _ _)).unpack =
      Magnitude.ofParts? (Float.Model.pack (UnpackedFloat.div .binary64 _ _)).unpack
    rw [unpack_eq_of_isValue (isValue_abs hx) (isValue_abs hy)]
  rw [← exactMagnitude_eq hf, ← exactMagnitude_eq hg, exactMagnitude, exactMagnitude, hmagnitude]

/-- Numbers of one magnitude with opposite signs. Zero is its own opposite. -/
theorem beq_neg (hx : IsValue x.toModel.unpack s a) (hy : IsValue y.toModel.unpack t a)
    (h : t = -s ∨ a = 0) : (y == -x) = true := by
  rw [beq_iff_signedBy hy (isValue_neg hx)]
  rcases h with rfl | rfl
  · rfl
  · simp

/-- Opposite integers have one magnitude, also where they are rounded. -/
theorem exists_isValue_ofInt_neg {d : ℤ} (h : d.natAbs < 2 ^ 63) :
    ∃ s t a, IsValue (Float.ofInt d).toModel.unpack s a ∧
      IsValue (Float.ofInt (-d)).toModel.unpack t a ∧ a < 2 ^ 64 ∧ (t = -s ∨ a = 0) := by
  have hnat {n : ℕ} (hn : n < 2 ^ 63) :
      ∃ a, IsValue (Float.ofNat n).toModel.unpack .positive a ∧ a < 2 ^ 64 := by
    have hlt : (n : ℚ) < 2 ^ 64 := by exact_mod_cast (show n < 2 ^ 64 by omega)
    obtain ⟨a, ha, hside⟩ := (isRounded_ofNat n).exists_isValue hlt
    have hbound : a ≤ 2 ^ 63 := (hside _ ⟨1, 63, by norm_num, by norm_num, by norm_num⟩).1
      (by exact_mod_cast hn.le)
    exact ⟨a, ha, hbound.trans_lt (by norm_num)⟩
  match d with
  | .ofNat 0 => exact ⟨_, _, _, isValue_ofNat (by norm_num), isValue_ofNat (by norm_num),
      by norm_num, .inr (by norm_num)⟩
  | .ofNat (n + 1) =>
    obtain ⟨a, ha, hlt⟩ := hnat (n := n + 1) h
    exact ⟨_, _, a, ha, isValue_neg ha, hlt, .inl rfl⟩
  | .negSucc n =>
    obtain ⟨a, ha, hlt⟩ := hnat (n := n + 1) h
    exact ⟨_, _, a, isValue_neg ha, ha, hlt, .inl rfl⟩

theorem ofInt_neg_beq {d : ℤ} (h : d.natAbs < 2 ^ 63) :
    (Float.ofInt (-d) == -Float.ofInt d) = true := by
  obtain ⟨s, t, a, hx, hy, -, hsign⟩ := exists_isValue_ofInt_neg h
  exact beq_neg hx hy hsign

/-- **The quotient of the opposite** is the opposite quotient. -/
theorem ofInt_neg_div_beq {d c : ℤ} (h : d.natAbs < 2 ^ 63) (hc : 0 < c) (hclt : c < 2 ^ 53) :
    (Float.ofInt (-d) / Float.ofInt c == -(Float.ofInt d / Float.ofInt c)) = true := by
  obtain ⟨c, rfl⟩ := Int.eq_ofNat_of_zero_le hc.le
  have hc' : (1 : ℚ) ≤ c := by exact_mod_cast (show 1 ≤ c by omega)
  have hdivisor : IsValue (Float.ofInt c).toModel.unpack .positive c :=
    isValue_ofNat (by omega)
  obtain ⟨s, t, a, hx, hy, ha, hsign⟩ := exists_isValue_ofInt_neg h
  have hdiv (s : Sign) : s / .positive = s := by cases s <;> rfl
  have hbound : a / c < 2 ^ 64 := (div_le_self hx.nonneg hc').trans_lt ha
  obtain ⟨f, hf, hside⟩ := (isRounded_div hx hdivisor (by positivity)).exists_isValue hbound
  obtain ⟨g, hg, -⟩ := (isRounded_div hy hdivisor (by positivity)).exists_isValue hbound
  obtain rfl := eq_of_div hx hy hf hg
  rw [hdiv] at hf hg
  refine beq_neg hf hg (hsign.imp_right fun hzero => ?_)
  rw [hzero, zero_div] at hside
  exact hside.eq isShort_zero

end TickLabels
