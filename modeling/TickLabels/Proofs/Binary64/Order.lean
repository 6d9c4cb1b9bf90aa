import Mathlib
import TickLabels.Proofs.Binary64.Arithmetic
/-!
# The order of doubles

Magnitudes are compared by their exact values (`lt_iff`, `beq_iff`). The difference of
two of them is rounded as everything else is (`exists_isValue_abs_sub`), and it is exact where
they are within a factor of two (`isShort_sub`).
-/

namespace TickLabels

open Float.Model (UnpackedFloat)
open Float.Model.UnpackedFloat

/-! ## Comparing magnitudes -/

/-- Mantissas have no say where the exponents differ. -/
theorem lt_of_exponent_lt {m n : ℕ} {e f : ℤ} (hm : (Magnitude.mk m e).Canonical)
    (hn : (Magnitude.mk n f).Canonical) (h : e < f) : (m : ℚ) * 2 ^ e < n * 2 ^ f := by
  have hlt : m < 2 ^ 53 := hm.mantissa_lt
  have hfull : 2 ^ 52 ≤ n := hn.normal.resolve_right fun hmin => by
    have := hm.min_le
    dsimp only at hmin this
    omega
  calc (m : ℚ) * 2 ^ e < 2 ^ 53 * 2 ^ e := by
        refine mul_lt_mul_of_pos_right ?_ (by positivity)
        exact_mod_cast hlt
    _ = 2 ^ 52 * 2 ^ (e + 1) := by
        rw [zpow_add_one₀ (by norm_num)]
        ring
    _ ≤ 2 ^ 52 * 2 ^ f := by
        refine mul_le_mul_of_nonneg_left ?_ (by positivity)
        exact zpow_le_zpow_right₀ (by norm_num) (by omega)
    _ ≤ n * 2 ^ f := by
        refine mul_le_mul_of_nonneg_right ?_ (by positivity)
        exact_mod_cast hfull

/-- **Exponents first, then mantissas**: that is the order of the values. -/
theorem compare_canonical {m n : ℕ} {e f : ℤ} (hm : (Magnitude.mk m e).Canonical)
    (hn : (Magnitude.mk n f).Canonical) :
    (compare e f).then (compare m n) = compare ((m : ℚ) * 2 ^ e) (n * 2 ^ f) := by
  rcases lt_trichotomy e f with hlt | rfl | hgt
  · rw [compare_lt_iff_lt.2 hlt, compare_lt_iff_lt.2 (lt_of_exponent_lt hm hn hlt)]
    rfl
  · have hpos : (0 : ℚ) < 2 ^ e := by positivity
    rw [compare_eq_iff_eq.2 rfl, Ordering.eq_then]
    rcases lt_trichotomy m n with hlt | rfl | hgt
    · rw [compare_lt_iff_lt.2 hlt, compare_lt_iff_lt.2]
      exact mul_lt_mul_of_pos_right (by exact_mod_cast hlt) hpos
    · rw [compare_eq_iff_eq.2 rfl, compare_eq_iff_eq.2 rfl]
    · rw [compare_gt_iff_gt.2 hgt, compare_gt_iff_gt.2]
      exact mul_lt_mul_of_pos_right (by exact_mod_cast hgt) hpos
  · rw [compare_gt_iff_gt.2 hgt, compare_gt_iff_gt.2 (lt_of_exponent_lt hn hm hgt)]
    rfl

section Compare

variable {x y : Float} {a b : ℚ}

theorem compare_unpack (hx : IsValue x.toModel.unpack .positive a)
    (hy : IsValue y.toModel.unpack .positive b) :
    x.toModel.unpack.compare y.toModel.unpack = some (compare a b) := by
  obtain ⟨hu, rfl⟩ | ⟨m, e, hm, hu, rfl⟩ := hx.parts <;>
    obtain ⟨hw, rfl⟩ | ⟨n, f, hn, hw, rfl⟩ := hy.parts <;> rw [hu, hw]
  · rfl
  · rw [compare_lt_iff_lt.2 (by positivity)]
    rfl
  · rw [compare_gt_iff_gt.2 (show (0 : ℚ) < m * 2 ^ e by positivity)]
    rfl
  · exact congrArg some (compare_canonical (canonical_of_unpack hu) (canonical_of_unpack hw))

theorem lt_iff (hx : IsValue x.toModel.unpack .positive a)
    (hy : IsValue y.toModel.unpack .positive b) : x < y ↔ a < b := by
  change decide ((x.toModel.unpack.compare y.toModel.unpack == some .lt) = true) = true ↔ _
  rw [compare_unpack hx hy]
  simp [compare_lt_iff_lt]

theorem beq_iff (hx : IsValue x.toModel.unpack .positive a)
    (hy : IsValue y.toModel.unpack .positive b) : (x == y) = true ↔ a = b := by
  change (x.toModel.unpack.compare y.toModel.unpack == some .eq) = true ↔ _
  rw [compare_unpack hx hy]
  simp

end Compare

/-! ## Differences -/

/-- The same number with a smaller exponent. -/
theorem natCast_mul_zpow {i t : ℤ} (h : t ≤ i) (k : ℕ) :
    (k : ℚ) * 2 ^ i = ((k * 2 ^ (i - t).toNat : ℕ) : ℚ) * 2 ^ t := by
  push_cast
  rw [mul_assoc, ← zpow_natCast, ← zpow_add₀ (by norm_num)]
  congr 2
  omega

/-- **Magnitudes within a factor of two** have a difference with as few digits. -/
theorem isShort_sub {a b : ℚ} (ha : IsShort a) (hb : IsShort b) (hle : a ≤ b) (h : b ≤ 2 * a) :
    IsShort (b - a) := by
  obtain ⟨k, i, hk, hi, rfl⟩ := ha
  obtain ⟨l, j, hl, hj, rfl⟩ := hb
  have hpos (t : ℤ) : (0 : ℚ) < 2 ^ t := by positivity
  rcases le_total i j with hij | hji
  · -- The difference has no more digits than the smaller number.
    rw [natCast_mul_zpow hij] at hle h ⊢
    generalize l * 2 ^ (j - i).toNat = l at *
    rw [← mul_assoc] at h
    have hle := le_of_mul_le_mul_right hle (hpos i)
    have h := le_of_mul_le_mul_right h (hpos i)
    norm_cast at hle h
    exact ⟨l - k, i, by omega, hi, by rw [Nat.cast_sub hle, sub_mul]⟩
  · rw [natCast_mul_zpow hji] at hle ⊢
    generalize k * 2 ^ (i - j).toNat = k at *
    have hle := le_of_mul_le_mul_right hle (hpos j)
    norm_cast at hle
    exact ⟨l - k, j, by omega, hj, by rw [Nat.cast_sub hle, sub_mul]⟩

/-- What is far from the largest double stays finite when it is rounded. -/
theorem exists_isValue_roundWithAccuracy {s : Sign} {m : ℕ} {e : ℤ} {a : Accuracy}
    (htarget : e ≤ Float.Model.Format.binary64.targetExponent (Float.Model.totalExponent m e))
    (h : (m.log2 : ℤ) + e ≤ 1022) :
    ∃ f, IsValue (Float.Model.pack (roundWithAccuracy .binary64 s m e a)).unpack s f := by
  generalize hT : Float.Model.Format.binary64.targetExponent
    (Float.Model.totalExponent m e) = T at htarget
  obtain ⟨R, hR, hR', -, hround⟩ := roundWithAccuracy_eq (s := s) (a := a) hT.symm htarget
  rw [targetExponent_eq] at hT
  generalize hk : (T - e).toNat = k at *
  obtain ⟨hcut, hfull⟩ := cut_bounds (k := k) hT.symm (by omega)
  rw [hround]
  split
  · next hlt =>
    split
    · exact ⟨0, by rw [unpack_pack_zero]; exact .zero s⟩
    · have hm : (Magnitude.mk R T).Canonical := by
        refine ⟨hlt, ?_, ?_, ?_⟩ <;> simp only [Magnitude.minExponent,
          Magnitude.leastNormalMantissa] <;> omega
      exact ⟨_, by rw [unpack_pack_finite hm]; exact .finite rfl⟩
  · have hm : (Magnitude.mk (2 ^ 52) (T + 1)).Canonical := by
      refine ⟨show 2 ^ 52 < 2 * Magnitude.leastNormalMantissa by decide, ?_, ?_, .inl le_rfl⟩ <;>
        simp only [Magnitude.minExponent] <;> omega
    exact ⟨_, by rw [unpack_pack_finite hm]; exact .finite rfl⟩

theorem exists_isValue_round (s : Sign) {m : ℕ} (h : 0 < m) {e : ℤ}
    (hlt : m * 2 ^ e < (2 : ℚ) ^ 200) :
    ∃ f, IsValue (Float.Model.pack (UnpackedFloat.round .binary64 s m e)).unpack s f := by
  obtain ⟨n, f, hround, -, htarget, hlog⟩ := exists_round_eq s h e
  rw [hround]
  refine exists_isValue_roundWithAccuracy htarget ?_
  have hm : (2 : ℚ) ^ (m.log2 : ℤ) ≤ m := by exact_mod_cast Nat.log2_self_le h.ne'
  have hpow : (2 : ℚ) ^ ((m.log2 : ℤ) + e) < 2 ^ (200 : ℤ) := by
    rw [zpow_add₀ (by norm_num)]
    exact (mul_le_mul_of_nonneg_right hm (by positivity)).trans_lt hlt
  have := (zpow_lt_zpow_iff_right₀ (by norm_num)).1 hpow
  omega

theorem IsValue.nonneg {u : UnpackedFloat} {s : Sign} {q : ℚ} (h : IsValue u s q) : 0 ≤ q := by
  obtain ⟨-, rfl⟩ | ⟨m, e, -, -, rfl⟩ := h.parts
  · exact le_rfl
  · positivity

theorem IsValue.eq {u : UnpackedFloat} {s t : Sign} {q r : ℚ} (h : IsValue u s q)
    (h' : IsValue u t r) : q = r := by
  cases h <;> cases h' <;> simp_all

theorem IsRounded.sameSide {u : UnpackedFloat} {s : Sign} {v f : ℚ} (h : IsRounded u s v)
    (hf : IsValue u s f) : SameSide v f := by
  cases h with
  | infinity => cases hf
  | value hf' hside => rwa [hf.eq hf']

theorem isValue_abs {x : Float} {s : Sign} {q : ℚ} (h : IsValue x.toModel.unpack s q) :
    IsValue x.abs.toModel.unpack .positive q := by
  rw [unpack_abs]
  obtain ⟨hu, rfl⟩ | ⟨m, e, hm, hu, hq⟩ := h.parts <;> rw [hu]
  · exact .zero _
  · exact .finite hq

/-- **The distance of two magnitudes** is the rounded distance. -/
theorem exists_isValue_abs_sub {x y : Float} {a b : ℚ} (hx : IsValue x.toModel.unpack .positive a)
    (hy : IsValue y.toModel.unpack .positive b) (h : a < b) (hb : b < 2 ^ 200) :
    ∃ f, IsValue (x - y).abs.toModel.unpack .positive f ∧ SameSide (b - a) f := by
  suffices hsub : ∃ f, IsValue (x - y).toModel.unpack .negative f ∧ SameSide (b - a) f by
    obtain ⟨f, hf, hside⟩ := hsub
    exact ⟨f, isValue_abs hf, hside⟩
  change ∃ f, IsValue (Float.Model.pack (UnpackedFloat.sub .binary64 x.toModel.unpack
    y.toModel.unpack)).unpack _ _ ∧ _
  obtain ⟨hw, rfl⟩ | ⟨n, f, hn, hw, rfl⟩ := hy.parts
  · exact absurd h (not_lt.2 hx.nonneg)
  obtain ⟨hu, rfl⟩ | ⟨m, e, hm, hu, rfl⟩ := hx.parts
  · refine ⟨n * 2 ^ f, ?_, by rw [sub_zero]; exact sameSide_refl _⟩
    rw [hu, hw]
    change IsValue (Float.Model.pack (.finite .negative n f hn)).unpack _ _
    rw [unpack_pack_finite (canonical_of_unpack hw)]
    exact .finite rfl
  · -- With the smaller exponent the mantissas are subtracted exactly.
    rw [hu, hw]
    have hsub : UnpackedFloat.sub .binary64 (.finite .positive m e hm) (.finite .positive n f hn) =
        UnpackedFloat.normalize .binary64 (((m * 2 ^ (e - min e f).toNat : ℕ) : ℤ) -
          ((n * 2 ^ (f - min e f).toNat : ℕ) : ℤ)) (min e f) .positive := by
      rw [← Nat.shiftLeft_eq, ← Nat.shiftLeft_eq]
      rfl
    rw [natCast_mul_zpow (min_le_left e f) m] at h ⊢
    rw [natCast_mul_zpow (min_le_right e f) n] at h hb ⊢
    rw [hsub]
    generalize m * 2 ^ (e - min e f).toNat = k at *
    generalize n * 2 ^ (f - min e f).toNat = l at *
    have hpos : (0 : ℚ) < 2 ^ min e f := by positivity
    have hkl : k < l := by exact_mod_cast lt_of_mul_lt_mul_right h hpos.le
    have hcompare : compare ((k : ℤ) - l) 0 = .lt := compare_lt_iff_lt.2 (by omega)
    unfold UnpackedFloat.normalize
    rw [hcompare, show (-((k : ℤ) - l)).toNat = l - k by omega, ← sub_mul, ← Nat.cast_sub hkl.le]
    dsimp only
    obtain ⟨f, hf⟩ := exists_isValue_round .negative (Nat.sub_pos_of_lt hkl) (e := min e f) (by
      refine lt_of_le_of_lt (mul_le_mul_of_nonneg_right ?_ hpos.le) hb
      exact_mod_cast Nat.sub_le l k)
    exact ⟨f, hf, (isRounded_round .negative (Nat.sub_pos_of_lt hkl) _).sameSide hf⟩

end TickLabels
