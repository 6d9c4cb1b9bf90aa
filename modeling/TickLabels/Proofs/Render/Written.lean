import TickLabels.Proofs.Binary64.Noise
import TickLabels.Proofs.Render.Notation
/-!
# The number that is written

A format rounds a number, after it has been multiplied by the factor of a section, and writes
what comes of it (`NumberFormat.writtenNumber`). Where this happens to be less than one can be
told from the last place that is written: it is, if the number falls short of one by more than
half of that place (`NumberFormat.one_le_writtenNumber_iff`).
-/

namespace TickLabels

open Float.Model (UnpackedFloat)
open Float.Model.UnpackedFloat

/-! ## Rounding to one -/

/-- **Significant digits are decimals** for a number just below one. -/
theorem one_le_roundSignificant_iff {count : ℕ} (hcount : 1 ≤ count) {q : ℚ} (hq : 0 ≤ q) :
    1 ≤ roundSignificant count q ↔ (1 - q) * 10 ^ count ≤ 1 / 2 := by
  have hpow : (10 : ℚ) ^ 1 ≤ 10 ^ count := pow_le_pow_right₀ (by norm_num) hcount
  rcases le_or_gt 1 q with hone | hone
  · refine iff_of_true ?_ ?_
    · exact roundSignificant_one hcount ▸ roundSignificant_mono hcount zero_le_one hone
    · have := mul_nonneg (sub_nonneg.2 hone) (by positivity : (0 : ℚ) ≤ 10 ^ count)
      linarith
  rcases le_or_gt (1 / 10) q with htenth | htenth
  · have hlog : Int.log 10 q = -1 := log_eq (by norm_num; linarith) (by norm_num; exact hone)
    rw [roundSignificant, hlog, show (-1 : ℤ) + 1 - count = -count by omega]
    exact one_le_roundTo_iff
  · refine iff_of_false (fun hle => ?_) fun hle => ?_
    · have htop : roundSignificant count (1 / 10) = 1 / 10 := by
        rw [show (1 / 10 : ℚ) = 10 ^ (-1 : ℤ) by norm_num, roundSignificant_zpow hcount]
      have := roundSignificant_mono hcount hq htenth.le
      rw [htop] at this
      linarith
    · have hfar := mul_le_mul (show 9 / 10 ≤ 1 - q by linarith) hpow (by norm_num) (by linarith)
      linarith

/-! ## Whole numbers in hexadecimal -/

/-- A whole double is not zero as a word if it is not zero. -/
theorem one_le_toUInt64_iff {x : Float} {n : ℕ} (h : IsValue x.toModel.unpack .positive n) :
    1 ≤ x.toUInt64.toNat ↔ 1 ≤ n := by
  have hint : UnpackedFloat.toInt 0 (UInt64.size - 1) x.toModel.unpack = n := by
    obtain ⟨hu, hn⟩ | ⟨m, e, hm, hu, hq⟩ := h.parts
    · obtain rfl : n = 0 := by exact_mod_cast hn
      rw [hu]
      rfl
    · rw [hu]
      change roundToInt .positive m e = n
      have hcut : roundToInt .positive m e = (cutMantissa (m <<< (e - 0).toNat) .exact
          (0 - (e - (e - 0).toNat)).toNat).mantissa := rfl
      rw [hcut, mantissa_cutMantissa, Nat.shiftLeft_eq, sub_zero, zero_sub]
      rcases le_or_gt 0 e with he | he
      · have hnat := natCast_of_exponent (m := m) he
        rw [← hq] at hnat
        rw [Int.toNat_of_nonneg he, sub_self, neg_zero, Int.toNat_zero, pow_zero, Nat.div_one]
        exact_mod_cast hnat
      · rw [mantissa_of_natCast he hq, Int.toNat_of_nonpos he.le, pow_zero, mul_one,
          Nat.cast_zero, sub_zero, Nat.mul_div_cancel _ (by positivity)]
  change 1 ≤ (UInt64.ofNatClamp (UnpackedFloat.toInt 0 (UInt64.size - 1)
    x.toModel.unpack).toNat).toNat ↔ _
  rw [hint, Int.toNat_natCast, UInt64.ofNatClamp]
  split
  · rfl
  · next hlarge =>
    have hsize : 1 ≤ UInt64.size := by decide
    exact iff_of_true (by decide) (by omega)

/-! ## The number that is written -/

namespace StandardFormat

variable (f : StandardFormat) (x : Float)

/-- **The number that a standard notation writes**, without its sign. -/
def writtenNumber : ℚ :=
  let places := f.precision.getD fixedPlaces
  match f.style with
  | .currency | .fixedPoint | .number => ((Digits.ofFloat x).plain places).value
  | .percent => ((Digits.ofFloat (x * 100.0)).plain places).value
  | .decimal => ((Digits.ofFloat x).plain 0).value
  | .exponential =>
    ((Digits.ofFloat x).scientific (f.precision.getD exponentialPlaces)).value
  | .general => ((Digits.ofFloat x).roundDigits f.significantDigits).value
  | .roundTrip => (Digits.shortest x).value
  | .hexadecimal => (roundHalfAway x.abs).toUInt64.toNat

/-- The number before it is rounded to what is written. -/
def unrounded : ℚ :=
  match f.style with
  | .percent => trustedValue (x * 100.0)
  | .roundTrip => (Digits.shortest x).value
  | .hexadecimal => exactMagnitude x
  | _ => trustedValue x

/-- The decimals to which a number just below one is rounded. Round-trip notation does not
round. -/
def places? : Option ℕ :=
  match f.style with
  | .currency | .fixedPoint | .number | .percent => some (f.precision.getD fixedPlaces)
  | .decimal | .hexadecimal => some 0
  | .exponential => some (f.precision.getD exponentialPlaces + 1)
  | .general => some f.significantDigits
  | .roundTrip => none

theorem one_le_significantDigits : 1 ≤ f.significantDigits := by
  unfold significantDigits
  split
  · decide
  · decide
  · next p hne _ => exact Nat.one_le_iff_ne_zero.2 hne

end StandardFormat

namespace NumberFormat

/-- The factor by which a format multiplies a number. -/
def factor (f : NumberFormat) (x : Float) : Float :=
  match f with
  | .standard f => if f.style = .percent then 100.0 else 1.0
  | .custom f => (f.select x).scale

/-- **The number that a format writes**, without its sign. In plain notation exponent markers
are ignored. -/
def writtenNumber (f : NumberFormat) (plain : Bool) (x : Float) : ℚ :=
  match f with
  | .standard f => f.writtenNumber x
  | .custom f => (f.select x).shownNumber plain x.abs

/-- The number before it is rounded to what is written. -/
def unrounded (f : NumberFormat) (x : Float) : ℚ :=
  match f with
  | .standard f => f.unrounded x
  | .custom f => trustedValue (x.abs * (f.select x).scale)

/-- The decimals to which a number just below one is rounded, if it is rounded. -/
def places? (f : NumberFormat) (plain : Bool) (x : Float) : Option ℕ :=
  match f with
  | .standard f => f.places?
  | .custom f =>
    match (f.select x).exponentParts? plain with
    | some (mantissa, _, _) => some ((Item.fractionPlaceholders mantissa).length + 1)
    | none => some (Item.fractionPlaceholders (f.select x).items).length

/-- **One or more is left of the number**: it falls short of one by half of the last place that
is written, at most. -/
def ReachesOne (f : NumberFormat) (plain : Bool) (x : Float) : Prop :=
  match f.places? plain x with
  | some places => (1 - f.unrounded x) * 10 ^ places ≤ 1 / 2
  | none => 1 ≤ f.unrounded x

end NumberFormat

theorem StandardFormat.one_le_writtenNumber_iff (f : StandardFormat) (plain : Bool) {x : Float}
    (hx : x.isFinite) :
    1 ≤ f.writtenNumber x ↔ (NumberFormat.standard f).ReachesOne plain x := by
  have htrimmed := Digits.isTrimmed_ofFloat x
  have hnonneg := trustedValue_nonneg x
  simp only [NumberFormat.ReachesOne, NumberFormat.places?, NumberFormat.unrounded]
  cases hstyle : f.style with
  | currency | fixedPoint | number | percent | decimal =>
    simp only [writtenNumber, unrounded, places?, hstyle, Digits.value_plain,
      Digits.value_ofFloat_eq]
    exact one_le_roundTo_iff
  | exponential =>
    simp only [writtenNumber, unrounded, places?, hstyle,
      (Digits.writes_scientific htrimmed _).value_eq, Digits.value_ofFloat_eq]
    exact one_le_roundSignificant_iff (by omega) hnonneg
  | general =>
    simp only [writtenNumber, unrounded, places?, hstyle,
      Digits.value_roundDigits htrimmed.head?_ne, Digits.value_ofFloat_eq]
    exact one_le_roundSignificant_iff f.one_le_significantDigits hnonneg
  | roundTrip =>
    simp only [writtenNumber, unrounded, places?, hstyle]
  | hexadecimal =>
    have hround := isValue_roundHalfAway_floor (isValue_abs_exactMagnitude hx)
    simp only [writtenNumber, unrounded, places?, hstyle]
    rw [Nat.one_le_cast, one_le_toUInt64_iff hround, Nat.one_le_floor_iff, pow_zero, mul_one]
    constructor <;> intro h <;> linarith

/-- **A format writes one or more** if no more than half of the last place is missing. -/
theorem NumberFormat.one_le_writtenNumber_iff (f : NumberFormat) (plain : Bool) {x : Float}
    (hx : x.isFinite) : 1 ≤ f.writtenNumber plain x ↔ f.ReachesOne plain x := by
  cases f with
  | standard f => exact f.one_le_writtenNumber_iff plain hx
  | custom f =>
    unfold ReachesOne places? unrounded writtenNumber Section.shownNumber
    dsimp only
    cases (f.select x).exponentParts? plain with
    | none => exact one_le_roundTo_iff
    | some parts => exact one_le_roundSignificant_iff (by omega) (trustedValue_nonneg _)

/-! ## Numbers of about one -/

section AboutOne

variable {x : Float} {s : Sign} {a c : ℚ}

theorem one_le_value_shortest (hx : IsValue x.toModel.unpack s a) (h : 1 ≤ a) :
    1 ≤ (Digits.shortest x).value := by
  obtain ⟨m, hm, rfl⟩ := exists_ofFloat?_of_isValue hx
  rw [Digits.shortest, hm]
  exact Magnitude.one_le_shortest (Magnitude.canonical_of_ofFloat? hm) h

theorem near_one_le_value_shortest (hx : IsValue x.toModel.unpack s a) (h : 4095 / 4096 ≤ a) :
    9995 / 10 ^ 4 ≤ (Digits.shortest x).value := by
  obtain ⟨m, hm, rfl⟩ := exists_ofFloat?_of_isValue hx
  have hshort : IsShort (2047 / 2048) := ⟨2047, -11, by norm_num, by norm_num, by norm_num⟩
  rw [Digits.shortest, hm]
  exact le_trans (by norm_num) (Magnitude.le_shortest (Magnitude.canonical_of_ofFloat? hm) hshort
    (lt_of_lt_of_le (by norm_num) h))

namespace NumberFormat

variable {f : NumberFormat} {plain : Bool}

/-- Without a factor a number is rounded from its digits or, in hexadecimal, from itself. -/
theorem le_unrounded (hfactor : f.factor x = 1.0) (htrusted : c ≤ trustedValue x)
    (hshortest : c ≤ (Digits.shortest x).value) (hexact : c ≤ exactMagnitude x) :
    c ≤ f.unrounded x := by
  cases f with
  | standard f =>
    simp only [factor] at hfactor
    simp only [unrounded, StandardFormat.unrounded]
    cases hstyle : f.style with
    | percent =>
      rw [if_pos hstyle] at hfactor
      exact absurd hfactor (by decide +kernel)
    | roundTrip => exact hshortest
    | hexadecimal => exact hexact
    | _ => exact htrusted
  | custom f =>
    simp only [factor] at hfactor
    have hsame : trustedValue (x.abs * 1.0) = trustedValue x := by
      rw [trustedValue, trustedValue, ofFloat?_abs_mul, ofFloat?_mul_one]
    rwa [unrounded, hfactor, hsame]

/-- **A number of one and more** is written as such with any decimals. -/
theorem reachesOne_of_one_le (hfactor : f.factor x = 1.0) (hx : IsValue x.toModel.unpack s a)
    (h : 1 ≤ a) : f.ReachesOne plain x := by
  have hshortest := one_le_value_shortest hx h
  have hone : 1 ≤ f.unrounded x := le_unrounded hfactor
    (le_trustedValue hx.isFinite zero_le_one (roundSignificant_one (by norm_num)) hshortest)
    hshortest (exactMagnitude_eq hx ▸ h)
  unfold ReachesOne
  split
  · exact (mul_nonpos_of_nonpos_of_nonneg (by linarith) (by positivity)).trans (by norm_num)
  · exact hone

/-- **A number close to one** is written as one, if no more than three decimals are. -/
theorem reachesOne_of_near (hfactor : f.factor x = 1.0) (hx : IsValue x.toModel.unpack s a)
    (h : 4095 / 4096 ≤ a) {places : ℕ} (hf : f.places? plain x = some places)
    (hplaces : places ≤ 3) : f.ReachesOne plain x := by
  have hkept : roundSignificant 16 (9995 / 10 ^ 4) = 9995 / 10 ^ 4 := by
    rw [show (9995 / 10 ^ 4 : ℚ) = (9995 : ℕ) * 10 ^ (-4 : ℤ) by norm_num]
    exact roundSignificant_mul_zpow (by norm_num) _
  have hshortest := near_one_le_value_shortest hx h
  have hnear : 9995 / 10 ^ 4 ≤ f.unrounded x := le_unrounded hfactor
    (le_trustedValue hx.isFinite (by norm_num) hkept hshortest) hshortest
    (exactMagnitude_eq hx ▸ le_trans (by norm_num) h)
  have hpow : (10 : ℚ) ^ places ≤ 10 ^ 3 := pow_le_pow_right₀ (by norm_num) hplaces
  simp only [ReachesOne, hf]
  calc (1 - f.unrounded x) * 10 ^ places ≤ 5 / 10 ^ 4 * 10 ^ places :=
        mul_le_mul_of_nonneg_right (by linarith) (by positivity)
    _ ≤ 5 / 10 ^ 4 * 10 ^ 3 := mul_le_mul_of_nonneg_left hpow (by norm_num)
    _ = 1 / 2 := by norm_num

end NumberFormat

end AboutOne

end TickLabels
