import Mathlib
import TickLabels.Binary64.Decode
import TickLabels.Binary64.Power
/-!
# Encoded doubles

A double is stored in 64 bits, and its arithmetic takes the bits apart, works
on the parts and puts the result together again. This file follows the
magnitude through that round trip. The sign has no say in it
(`ofFloat?_abs_mul`), and one is neutral (`ofFloat?_mul_one`).
-/

namespace TickLabels

open Float.Model (UnpackedFloat)
open Float.Model.UnpackedFloat

namespace Magnitude

/-- The magnitudes that a finite double other than zero can have. -/
structure Canonical (m : Magnitude) : Prop where
  mantissa_lt : m.mantissa < 2 * leastNormalMantissa
  min_le : minExponent ≤ m.exponent
  le_max : m.exponent ≤ 971
  /-- A mantissa with fewer digits is subnormal. -/
  normal : leastNormalMantissa ≤ m.mantissa ∨ m.exponent = minExponent

/-- The magnitude of the parts of a double. -/
def ofParts? : UnpackedFloat → Option Magnitude
  | .finite _ mantissa exponent _ => some ⟨mantissa, exponent⟩
  | .zero _ => some ⟨0, 0⟩
  | .infinity _ | .notANumber => none

theorem ofFloat?_eq (x : Float) : ofFloat? x = ofParts? x.toModel.unpack := by
  unfold ofFloat? ofParts?
  cases x.toModel.unpack <;> rfl

/-- Only a finite double has a magnitude. -/
theorem isSome_ofFloat?_iff {x : Float} : (ofFloat? x).isSome ↔ x.isFinite := by
  change _ ↔ x.toModel.unpack.isFinite = true
  rw [ofFloat?_eq]
  cases x.toModel.unpack <;> simp [ofParts?, UnpackedFloat.isFinite]

theorem ofFloat?_eq_none_iff {x : Float} : ofFloat? x = none ↔ ¬ x.isFinite := by
  rw [← isSome_ofFloat?_iff, Option.not_isSome_iff_eq_none]

end Magnitude

open Magnitude

/-! ## The three fields -/

/-- The leading one that a normal number does not store. -/
theorem toNat_one_append (m : BitVec 52) : (1#1 ++ m).toNat = leastNormalMantissa + m.toNat := by
  rw [BitVec.toNat_append, ← Nat.shiftLeft_add_eq_or_of_lt m.isLt]
  simp [Nat.shiftLeft_eq, leastNormalMantissa]

/-- The parts that three fields stand for. -/
def ofFields (s : Sign) (e : BitVec 11) (m : BitVec 52) : UnpackedFloat :=
  if e = -1#11 then if m = 0#52 then .infinity s else .notANumber
  else if e = 0#11 then
    if h : m = 0#52 then .zero s
    else .finite s m.toNat (e.toNat - 1074 : Int) (by
      simpa [BitVec.toNat_pos, BitVec.pos_iff_ne_zero])
  else .finite s (1#1 ++ m).toNat (e.toNat - 1075 : Int) (by
    rw [toNat_one_append]; simp [leastNormalMantissa])

theorem unpack_eq_ofFields (b : BitVec 64) :
    unpack .binary64 b = ofFields (.ofBitVec (@unpackSign .binary64 b))
      (@unpackExponent .binary64 b) (@unpackMantissa .binary64 b) := by
  have hbias : ((Float.Model.Format.binary64.exponentBias : Nat) : Int) +
      (Float.Model.Format.binary64.mantissaBitsWithoutImplicit : Nat) = 1075 := by decide
  unfold unpack ofFields
  dsimp only
  simp only [hbias, show ∀ n : Int, n - 1075 + 1 = n - 1074 by omega]

/-- Fields that are put together come apart again. -/
theorem unpack_packComponents (s : Sign) (e : BitVec 11) (m : BitVec 52) :
    unpack .binary64 (packComponents .binary64 s e m) = ofFields s e m := by
  rw [unpack_eq_ofFields, unpackSign_packComponents, Sign.ofBitVec_toBitVec]
  exact congrArg₂ (ofFields s) unpackExponent_packComponents unpackMantissa_packComponents

/-- **What a double holds is canonical.** -/
theorem canonical_of_ofFields {s s' : Sign} {e : BitVec 11} {f : BitVec 52} {m : Nat} {x : Int}
    {h : 0 < m} (hf : ofFields s e f = .finite s' m x h) : (Magnitude.mk m x).Canonical := by
  have hfraction := f.isLt
  have hexponent := e.isLt
  unfold ofFields at hf
  by_cases hinf : e = -1#11
  · rw [if_pos hinf] at hf
    split at hf <;> contradiction
  rw [if_neg hinf] at hf
  have hlt : e.toNat < 2047 := by
    have : e.toNat ≠ 2047 := fun h' => hinf (BitVec.eq_of_toNat_eq h')
    omega
  by_cases hzero : e = 0#11
  · rw [if_pos hzero] at hf
    split at hf
    · contradiction
    · obtain ⟨-, rfl, rfl⟩ := UnpackedFloat.finite.inj hf
      subst hzero
      refine ⟨?_, ?_, ?_, .inr ?_⟩ <;>
        simp only [leastNormalMantissa, minExponent, BitVec.toNat_ofNat] <;> omega
  · rw [if_neg hzero] at hf
    obtain ⟨-, rfl, rfl⟩ := UnpackedFloat.finite.inj hf
    have hpos : e.toNat ≠ 0 := fun h' => hzero (BitVec.eq_of_toNat_eq h')
    rw [toNat_one_append]
    refine ⟨?_, ?_, ?_, .inl ?_⟩ <;> simp only [leastNormalMantissa, minExponent] <;> omega

/-! ## The sign has no say in the magnitude -/

theorem ofParts?_ofFields (s : Sign) (e : BitVec 11) (m : BitVec 52) :
    ofParts? (ofFields s e m) = ofParts? (ofFields .positive e m) := by
  unfold ofFields
  by_cases hinf : e = -1#11
  · rw [if_pos hinf, if_pos hinf]
    split <;> rfl
  · rw [if_neg hinf, if_neg hinf]
    split
    · split <;> rfl
    · rfl

/-- The magnitude of a result does not depend on its sign. -/
theorem ofParts?_pack_abs (u : UnpackedFloat) :
    ofParts? (Float.Model.pack u.abs).unpack = ofParts? (Float.Model.pack u).unpack := by
  have hcomponents : ∀ s e m, ofParts? (unpack .binary64 (packComponents .binary64 .positive e m)) =
      ofParts? (unpack .binary64 (packComponents .binary64 s e m)) := by
    intro s e m
    rw [unpack_packComponents, unpack_packComponents, ofParts?_ofFields s]
  cases u with
  | notANumber => rfl
  | infinity s => exact hcomponents s _ _
  | zero s => exact hcomponents s _ _
  | finite s m e h =>
    simp only [Float.Model.unpack, Float.Model.pack, UnpackedFloat.pack, UnpackedFloat.abs]
    split
    · exact hcomponents s _ _
    · split
      · exact hcomponents s _ _
      · exact hcomponents s _ _

/-- A rounded result has the sign it was asked for. -/
theorem abs_roundWithAccuracy (s : Sign) (m : Nat) (e : Int) (a : Accuracy) :
    (roundWithAccuracy .binary64 s m e a).abs =
      roundWithAccuracy .binary64 .positive m e a := by
  unfold roundWithAccuracy
  dsimp only
  split
  · rfl
  · rfl

/-- So the magnitude of a product is that of the product of magnitudes. -/
theorem abs_mul_abs (u v : UnpackedFloat) :
    (UnpackedFloat.mul .binary64 u.abs v).abs = (UnpackedFloat.mul .binary64 u v).abs := by
  cases u <;> cases v <;> try rfl
  exact (abs_roundWithAccuracy _ _ _ _).trans (abs_roundWithAccuracy _ _ _ _).symm

/-- And that of a quotient is that of the quotient of magnitudes. -/
theorem abs_div_abs (u v : UnpackedFloat) :
    (UnpackedFloat.div .binary64 u.abs v).abs = (UnpackedFloat.div .binary64 u v).abs := by
  cases u <;> cases v <;> try rfl
  exact (abs_roundWithAccuracy _ _ _ _).trans (abs_roundWithAccuracy _ _ _ _).symm

/-! ## Canonical parts are kept -/

/-- A mantissa with fewer digits is stored as it is. -/
theorem ofFields_subnormal {m : Nat} (hm : m < leastNormalMantissa) (s : Sign) (h : 0 < m) :
    ofFields s 0#11 (.ofNat 52 m) = .finite s m minExponent h := by
  simp only [leastNormalMantissa] at hm
  have hfraction : (BitVec.ofNat 52 m).toNat = m := by
    rw [BitVec.toNat_ofNat]; omega
  have hne : BitVec.ofNat 52 m ≠ 0#52 := by
    intro h'; rw [h'] at hfraction; simp at hfraction; omega
  rw [ofFields, if_neg (by decide), if_pos rfl, dif_neg hne]
  simp only [UnpackedFloat.finite.injEq, true_and]
  exact ⟨hfraction, rfl⟩

/-- And a full one without its leading one. -/
theorem ofFields_normal {m : Nat} {e : Int} (hlo : leastNormalMantissa ≤ m)
    (hhi : m < 2 * leastNormalMantissa) (hmin : minExponent ≤ e) (hmax : e ≤ 971) (s : Sign)
    (h : 0 < m) :
    ofFields s (.ofNat 11 (e + 1075).toNat) (.ofNat 52 m) = .finite s m e h := by
  simp only [leastNormalMantissa, minExponent] at *
  have hfraction : (1#1 ++ BitVec.ofNat 52 m).toNat = m := by
    rw [toNat_one_append, BitVec.toNat_ofNat, leastNormalMantissa]; omega
  have hexponent : (BitVec.ofNat 11 (e + 1075).toNat).toNat = (e + 1075).toNat := by
    rw [BitVec.toNat_ofNat]; omega
  have hne (x : BitVec 11) (hx : x.toNat ≠ (e + 1075).toNat) :
      BitVec.ofNat 11 (e + 1075).toNat ≠ x := by
    rintro rfl; exact hx hexponent
  rw [ofFields, if_neg (hne _ (by simp; omega)), if_neg (hne _ (by simp; omega))]
  simp only [UnpackedFloat.finite.injEq, true_and]
  exact ⟨hfraction, by omega⟩

theorem unpack_pack_infinity (s : Sign) :
    (Float.Model.pack (.infinity s)).unpack = .infinity s :=
  (unpack_packComponents s (-1#11) 0#52).trans (by rw [ofFields, if_pos rfl, if_pos rfl])

theorem unpack_pack_zero (s : Sign) : (Float.Model.pack (.zero s)).unpack = .zero s :=
  (unpack_packComponents s 0#11 0#52).trans (by
    rw [ofFields, if_neg (by decide), if_pos rfl, dif_pos rfl])

/-- Canonical parts are kept when they are encoded. -/
theorem unpack_pack_finite {m : Nat} {e : Int} (hm : (Magnitude.mk m e).Canonical) (s : Sign)
    (h : 0 < m) : (Float.Model.pack (.finite s m e h)).unpack = .finite s m e h := by
  obtain ⟨hlt, hmin, hmax, hnormal⟩ := hm
  dsimp only at hlt hmin hmax hnormal
  have hexponent : ¬ 2 ^ 11 ≤ (e + (1023 : Nat) + (52 : Nat)).toNat + 1 := by omega
  have hbias : e + (1023 : Nat) + (52 : Nat) = e + 1075 := by omega
  change unpack .binary64 (UnpackedFloat.pack .binary64 (.finite s m e h)) = _
  simp only [UnpackedFloat.pack, show Float.Model.Format.binary64.exponentBias = 1023 from rfl,
    show Float.Model.Format.binary64.mantissaBits = 53 from rfl]
  rw [if_neg hexponent, hbias]
  rcases Nat.lt_or_ge m leastNormalMantissa with hsub | hfull
  · have hlog : m.log2 < 52 := (Nat.log2_lt (by omega)).2 hsub
    obtain rfl : e = minExponent := hnormal.resolve_left (by omega)
    rw [if_neg (by omega), unpack_packComponents, ofFields_subnormal hsub]
  · have hlog : 52 ≤ m.log2 := (Nat.le_log2 (by omega)).2 hfull
    have hlog' : m.log2 < 53 := (Nat.log2_lt (by omega)).2 hlt
    rw [if_pos (by omega), unpack_packComponents, ofFields_normal hfull hlt hmin hmax]

/-- **What a double holds is canonical.** -/
theorem canonical_of_unpack {x : Float.Model} {s : Sign} {m : Nat} {e : Int} {h : 0 < m}
    (hx : x.unpack = .finite s m e h) : (Magnitude.mk m e).Canonical :=
  canonical_of_ofFields ((unpack_eq_ofFields _).symm.trans hx)

theorem unpack_abs (x : Float) : x.abs.toModel.unpack = x.toModel.unpack.abs := by
  change (Float.Model.pack x.toModel.unpack.abs).unpack = _
  cases hx : x.toModel.unpack with
  | notANumber => rfl
  | infinity s => exact unpack_pack_infinity .positive
  | zero s => exact unpack_pack_zero .positive
  | finite s m e h => exact unpack_pack_finite (canonical_of_unpack hx) .positive h

/-- **The magnitude of a product does not depend on the signs.** -/
theorem ofFloat?_abs_mul (x y : Float) : ofFloat? (x.abs * y) = ofFloat? (x * y) := by
  rw [ofFloat?_eq, ofFloat?_eq]
  change ofParts? (Float.Model.pack (UnpackedFloat.mul .binary64 x.abs.toModel.unpack _)).unpack = _
  rw [unpack_abs, ← ofParts?_pack_abs, abs_mul_abs, ofParts?_pack_abs]
  rfl

theorem ofFloat?_abs_div (x y : Float) : ofFloat? (x.abs / y) = ofFloat? (x / y) := by
  rw [ofFloat?_eq, ofFloat?_eq]
  change ofParts? (Float.Model.pack (UnpackedFloat.div .binary64 x.abs.toModel.unpack _)).unpack = _
  rw [unpack_abs, ← ofParts?_pack_abs, abs_div_abs, ofParts?_pack_abs]
  rfl

/-! ## One is neutral -/

/-- Shifting back a mantissa that was shifted leaves no remainder. -/
theorem repeat_shiftRightOne (n m : Nat) :
    n.repeat ExtendedMantissa.shiftRightOne ⟨m * 2 ^ n, false, false⟩ = ⟨m, false, false⟩ := by
  induction n generalizing m with
  | zero => simp [Nat.repeat]
  | succ n ih =>
    rw [Nat.repeat, Nat.pow_succ, show m * (2 ^ n * 2) = 2 * m * 2 ^ n by ring, ih]
    simp [ExtendedMantissa.shiftRightOne]

theorem log2_mul_two_pow {m : Nat} (h : 0 < m) (n : Nat) : (m * 2 ^ n).log2 = m.log2 + n := by
  induction n with
  | zero => simp
  | succ n ih =>
    rw [Nat.pow_succ, show m * (2 ^ n * 2) = 2 * (m * 2 ^ n) by ring,
      Nat.log2_two_mul (by positivity), ih]
    omega

/-- Canonical parts have the exponent that rounding aims at. -/
theorem targetExponent_of_canonical {m : Nat} {e : Int} (h : 0 < m)
    (hm : (Magnitude.mk m e).Canonical) :
    Float.Model.Format.binary64.targetExponent (m.log2 + 1 + e) = e := by
  obtain ⟨hlt, hmin, -, hnormal⟩ := hm
  have hlog : m.log2 < 53 := (Nat.log2_lt (by omega)).2 hlt
  change max (((m.log2 : Nat) : Int) + 1 + e - (53 : Nat)) (-1074) = e
  simp only [minExponent] at hmin hnormal
  rcases hnormal with hfull | rfl
  · have : 52 ≤ m.log2 := (Nat.le_log2 (by omega)).2 hfull
    omega
  · omega

/-- Canonical parts are kept when they are rounded, also if the mantissa has
been shifted. -/
theorem roundWithAccuracy_shifted {m : Nat} {e : Int} (hm : (Magnitude.mk m e).Canonical)
    (s : Sign) (h : 0 < m) (n : Nat) :
    roundWithAccuracy .binary64 s (m * 2 ^ n) (e - n) .exact = .finite s m e h := by
  have htarget := targetExponent_of_canonical h hm
  have hfirst : shiftToTargetExponent .binary64 (m * 2 ^ n) (e - n) .exact =
      (⟨m, false, false⟩, e) := by
    simp only [shiftToTargetExponent, Float.Model.totalExponent, log2_mul_two_pow h]
    rw [show ((m.log2 + n : Nat) : Int) + 1 + (e - n) = m.log2 + 1 + e by omega, htarget]
    simp only [shiftToExponent, show (e - (e - n)).toNat = n by omega]
    exact Prod.ext (repeat_shiftRightOne n m) (by omega)
  have hsecond : shiftToTargetExponent .binary64 m e .exact = (⟨m, false, false⟩, e) := by
    simp only [shiftToTargetExponent, Float.Model.totalExponent, htarget, shiftToExponent,
      Int.sub_self]
    exact Prod.ext rfl (by simp)
  unfold roundWithAccuracy
  simp only [hfirst, ExtendedMantissa.roundedMantissa, ExtendedMantissa.accuracy,
    Accuracy.roundToNearestEven, hsecond]
  exact dif_neg (by omega)

/-- **Multiplying by one keeps the magnitude.** -/
theorem ofFloat?_mul_one (x : Float) : ofFloat? (x * 1.0) = ofFloat? x := by
  have hone : (1.0 : Float).toModel.unpack = .finite .positive (2 ^ 52) (-52) (by decide) := rfl
  rw [ofFloat?_eq, ofFloat?_eq]
  change ofParts? (Float.Model.pack (UnpackedFloat.mul .binary64 x.toModel.unpack _)).unpack = _
  rw [hone]
  cases hx : x.toModel.unpack with
  | notANumber => rfl
  | infinity s =>
    simp only [UnpackedFloat.mul]
    rw [unpack_pack_infinity]
    rfl
  | zero s =>
    simp only [UnpackedFloat.mul]
    rw [unpack_pack_zero]
    rfl
  | finite s m e h =>
    -- The mantissa of one is a power of two, so the product is a shifted mantissa.
    have hm := canonical_of_unpack hx
    have hround := roundWithAccuracy_shifted hm (s * .positive) h 52
    simp only [UnpackedFloat.mul]
    rw [show e + -52 = e - (52 : Nat) by omega, hround, unpack_pack_finite hm]
    rfl

/-! ## Numbers below zero -/

/-- A finite number below zero has a magnitude that is not zero. -/
theorem mantissa_pos_of_neg {x : Float} (hx : x.isFinite) (h : x < 0.0) :
    ∃ m, ofFloat? x = some m ∧ 0 < m.mantissa := by
  have hfinite : x.toModel.unpack.isFinite := hx
  have hlt : x.toModel.unpack.lt (0.0 : Float).toModel.unpack := of_decide_eq_true h
  have hzero : (0.0 : Float).toModel.unpack = .zero .positive := rfl
  rw [hzero] at hlt
  rw [ofFloat?_eq]
  cases hparts : x.toModel.unpack with
  | notANumber | infinity => simp [hparts, UnpackedFloat.isFinite] at hfinite
  | zero s =>
    rw [hparts] at hlt
    cases s <;> contradiction
  | finite s m e hm => exact ⟨_, rfl, hm⟩

end TickLabels
