import TickLabels.Proofs.Binary64.Encoding
import TickLabels.Proofs.Decimal.Value
/-!
# Rounding digits

Rounding to decimals and rounding to significant digits are the same thing: some
digits are kept, and the first one that is dropped decides about a carry. Here is
what a caller may rely on (`Rounds`): the number is rounded and nothing else, no
zero is left at either end, rounding again does nothing, and what is not larger is
not larger once it is rounded. Digits that end in front of the place of rounding are
in plain notation what they are (`value_plainParts`), with a zero in front of the point
only where they are not normal (`writes_plainParts_iff`).
-/

namespace TickLabels

/-! ## Rounding a number -/

theorem roundTo_mono (e : ℤ) {q r : ℚ} (h : q ≤ r) : roundTo e q ≤ roundTo e r := by
  have hfloor : ⌊q / 10 ^ e + 1 / 2⌋ ≤ ⌊r / 10 ^ e + 1 / 2⌋ := by gcongr
  exact mul_le_mul_of_nonneg_right (by exact_mod_cast hfloor) (by positivity)

theorem roundTo_nonneg (e : ℤ) {q : ℚ} (hq : 0 ≤ q) : 0 ≤ roundTo e q := by
  simpa using roundTo_mono e hq

/-- A power of ten is a multiple of the smaller ones. -/
theorem roundTo_zpow {e m : ℤ} (h : e ≤ m) : roundTo e (10 ^ m) = 10 ^ m := by
  have hpower : (10 : ℚ) ^ m = ((10 ^ (m - e).toNat : ℕ) : ℤ) * 10 ^ e := by
    push_cast
    rw [← zpow_natCast, ← zpow_add₀ (by norm_num), Int.toNat_of_nonneg (by omega),
      sub_add_cancel]
  rw [hpower, roundTo_mul_zpow]

@[simp] theorem roundSignificant_zero (count : ℕ) : roundSignificant count 0 = 0 :=
  roundTo_zero _

/-- A number that is rounded to significant digits stays between the powers of ten
around it. -/
theorem roundSignificant_mem_Icc {count : ℕ} (hcount : 1 ≤ count) {q : ℚ} (hq : 0 < q) :
    roundSignificant count q ∈ Set.Icc ((10 : ℚ) ^ Int.log 10 q) (10 ^ (Int.log 10 q + 1)) := by
  have hlow : (10 : ℚ) ^ Int.log 10 q ≤ q := by exact_mod_cast Int.zpow_log_le_self (by norm_num) hq
  have hhigh : q ≤ (10 : ℚ) ^ (Int.log 10 q + 1) := by
    exact_mod_cast (Int.lt_zpow_succ_log_self (by norm_num) q).le
  constructor
  · calc (10 : ℚ) ^ Int.log 10 q = roundTo (Int.log 10 q + 1 - count) (10 ^ Int.log 10 q) :=
          (roundTo_zpow (by omega)).symm
      _ ≤ roundSignificant count q := roundTo_mono _ hlow
  · calc roundSignificant count q
        ≤ roundTo (Int.log 10 q + 1 - count) (10 ^ (Int.log 10 q + 1)) := roundTo_mono _ hhigh
      _ = 10 ^ (Int.log 10 q + 1) := roundTo_zpow (by omega)

/-- One digit is enough to tell a number from zero. -/
theorem roundSignificant_eq_zero_iff {count : ℕ} (hcount : 1 ≤ count) {q : ℚ} (hq : 0 ≤ q) :
    roundSignificant count q = 0 ↔ q = 0 := by
  refine ⟨fun hzero => ?_, fun hzero => hzero ▸ roundSignificant_zero count⟩
  by_contra hne
  have hlow := (roundSignificant_mem_Icc hcount (lt_of_le_of_ne hq (Ne.symm hne))).1
  rw [hzero] at hlow
  exact absurd hlow (not_le.2 (by positivity))

/-- **The place of rounding moves with the number**, and the order stays: a power of
ten lies between numbers that are rounded at different places. -/
theorem roundSignificant_mono {count : ℕ} (hcount : 1 ≤ count) {q r : ℚ} (hq : 0 ≤ q)
    (h : q ≤ r) : roundSignificant count q ≤ roundSignificant count r := by
  rcases hq.eq_or_lt with rfl | hpos
  · rcases h.eq_or_lt with rfl | hr
    · exact le_rfl
    · rw [roundSignificant_zero]
      exact le_trans (by positivity) (roundSignificant_mem_Icc hcount hr).1
  · rcases (Int.log_mono_right (b := 10) hpos h).eq_or_lt with hlog | hlog
    · rw [roundSignificant, roundSignificant, hlog]
      exact roundTo_mono _ h
    · calc roundSignificant count q ≤ 10 ^ (Int.log 10 q + 1) :=
            (roundSignificant_mem_Icc hcount hpos).2
        _ ≤ 10 ^ Int.log 10 r := zpow_le_zpow_right₀ (by norm_num) (by omega)
        _ ≤ roundSignificant count r := (roundSignificant_mem_Icc hcount (hpos.trans_le h)).1

/-- **A number with few digits is kept.** -/
theorem roundSignificant_mul_zpow {count n : ℕ} (h : n < 10 ^ count) (m : ℤ) :
    roundSignificant count (n * 10 ^ m) = n * 10 ^ m := by
  rcases n.eq_zero_or_pos with rfl | hpos
  · rw [Nat.cast_zero, zero_mul, roundSignificant_zero]
  have hlog : Int.log 10 ((n : ℚ) * 10 ^ m) < m + count := by
    rw [← Int.lt_zpow_iff_log_lt (by norm_num) (by positivity), Nat.cast_ofNat,
      zpow_add₀ (by norm_num), zpow_natCast, mul_comm]
    exact mul_lt_mul_of_pos_left (by exact_mod_cast h) (by positivity)
  unfold roundSignificant
  -- The last place that is kept is not beyond the last digit.
  obtain ⟨k, hk⟩ : ∃ k : ℕ, Int.log 10 ((n : ℚ) * 10 ^ m) + 1 - count = m - k :=
    ⟨(m - (Int.log 10 ((n : ℚ) * 10 ^ m) + 1 - count)).toNat, by omega⟩
  have hmultiple : (n : ℚ) * 10 ^ m = ((n * 10 ^ k : ℕ) : ℤ) * 10 ^ (m - k : ℤ) := by
    push_cast
    rw [zpow_sub₀ (by norm_num), zpow_natCast]
    field_simp
  rw [hk, hmultiple]
  exact roundTo_mul_zpow _ _

theorem roundSignificant_zpow {count : ℕ} (hcount : 1 ≤ count) (m : ℤ) :
    roundSignificant count (10 ^ m) = 10 ^ m := by
  simpa using roundSignificant_mul_zpow (Nat.one_lt_pow (show count ≠ 0 by omega) (by norm_num)) m

theorem roundSignificant_one {count : ℕ} (hcount : 1 ≤ count) : roundSignificant count 1 = 1 :=
  roundSignificant_zpow hcount 0

/-- **What is less than one by half of the last place** at most is rounded up to it, and only
that. -/
theorem one_le_roundTo_iff {q : ℚ} {places : ℕ} :
    1 ≤ roundTo (-places) q ↔ (1 - q) * 10 ^ places ≤ 1 / 2 := by
  have hpos : (0 : ℚ) < 10 ^ places := by positivity
  have hone : (1 : ℚ) ≤ ⌊q * 10 ^ places + 1 / 2⌋ / 10 ^ places ↔
      ((10 ^ places : ℕ) : ℤ) ≤ ⌊q * 10 ^ places + 1 / 2⌋ := by
    rw [le_div_iff₀ hpos, one_mul, ← Int.cast_le (R := ℚ)]
    push_cast
    rfl
  rw [roundTo, zpow_neg, zpow_natCast, div_inv_eq_mul, ← div_eq_mul_inv, hone, Int.le_floor]
  push_cast
  constructor <;> intro h <;> linarith

/-- One and more stays so, and is not rounded to zero. -/
theorem roundTo_ne_zero {q : ℚ} (h : 1 ≤ q) (places : ℕ) : roundTo (-places) q ≠ 0 := by
  have hmissing := mul_nonneg (sub_nonneg.2 h) (by positivity : (0 : ℚ) ≤ 10 ^ places)
  exact (zero_lt_one.trans_le (one_le_roundTo_iff.2 (by linarith))).ne'

namespace Digits

/-! ## Rounding digits -/

/-- **A multiple of a power of ten has no digits behind it**, as the last digit would
be a zero. -/
theorem length_le_of_value_eq {d : Digits} (hlast : d.digits.getLast? ≠ some 0)
    (hne : d.digits ≠ []) {n : ℤ} {e : ℤ} (hvalue : d.value = n * 10 ^ e) :
    d.digits.length ≤ d.point - e := by
  by_contra hlt
  obtain ⟨count, hcount⟩ : ∃ count : ℕ, (d.digits.length : ℤ) - d.point + e = count + 1 :=
    ⟨((d.digits.length : ℤ) - d.point + e - 1).toNat, by omega⟩
  -- In units of the last digit the number is a multiple of ten.
  have hmultiple : (valueOf d.digits : ℤ) = 10 * (n * 10 ^ count) := by
    have hunits : (valueOf d.digits : ℚ) = n * 10 ^ ((count : ℤ) + 1) := by
      rw [← hcount, add_comm, zpow_add₀ (by norm_num), ← mul_assoc, ← hvalue, value, mul_assoc,
        ← zpow_add₀ (by norm_num)]
      simp
    rw [zpow_add_one₀ (by norm_num), zpow_natCast] at hunits
    have : (valueOf d.digits : ℚ) = ((10 * (n * 10 ^ count) : ℤ) : ℚ) := by
      rw [hunits]
      push_cast
      ring
    exact_mod_cast this
  obtain ⟨front, last, hdigits⟩ : ∃ front last, d.digits = front ++ [last] :=
    ⟨_, _, (List.dropLast_append_getLast hne).symm⟩
  rw [hdigits, valueOf_append_singleton] at hmultiple
  rw [hdigits, List.getLast?_concat, ne_eq, Option.some.injEq] at hlast
  exact hlast (Fin.ext (by have := last.isLt; simp only [Fin.val_zero]; omega))

/-- **Rounding digits is rounding the number**, and leaves digits that can be rounded
again. -/
structure Rounds (round : Digits → Digits) (f : ℚ → ℚ) : Prop where
  /-- The number is rounded, and nothing else happens to it. -/
  value_eq : ∀ d, d.IsTrimmed → (round d).value = f d.value
  isTrimmed : ∀ d, d.IsTrimmed → (round d).IsTrimmed
  /-- Zero gets no place in front of the point. -/
  isNormal : ∀ d, d.IsNormal → (round d).IsNormal
  round_round : ∀ d, d.IsTrimmed → round (round d) = round d
  value_mono : ∀ d e, d.IsTrimmed → e.IsTrimmed → d.value ≤ e.value →
    (round d).value ≤ (round e).value

/-- What was rounded to decimals ends in front of the place of rounding. -/
theorem roundPlaces_roundPlaces {d : Digits} (hd : d.IsTrimmed) (places : ℕ) :
    (d.roundPlaces places).roundPlaces places = d.roundPlaces places := by
  have hvalue := d.value_roundPlaces places
  have htrimmed : (d.roundPlaces places).IsTrimmed := isTrimmed_keepDigits hd _
  generalize d.roundPlaces places = r at hvalue htrimmed
  by_cases hnil : r.digits = []
  · exact keepDigits_of_nil hnil _
  · have hlength := length_le_of_value_eq htrimmed.getLast?_ne hnil hvalue
    exact keepDigits_of_length_le (by omega)

theorem rounds_roundPlaces (places : ℕ) :
    Rounds (roundPlaces places) (roundTo (-places)) where
  value_eq d _ := d.value_roundPlaces places
  isTrimmed _ hd := isTrimmed_keepDigits hd _
  isNormal _ hd := isNormal_roundPlaces hd places
  round_round _ hd := roundPlaces_roundPlaces hd places
  value_mono d e _ _ h := by
    rw [value_roundPlaces, value_roundPlaces]
    exact roundTo_mono _ h

theorem rounds_roundDigits {count : ℕ} (hcount : 1 ≤ count) :
    Rounds (roundDigits count) (roundSignificant count) where
  value_eq d hd := value_roundDigits hd.head?_ne count
  isTrimmed _ hd := isTrimmed_keepDigits hd _
  isNormal _ hd := isNormal_roundDigits hd count
  round_round d _ := by
    have hlength : (d.keepDigits count).digits.length ≤ (count : ℤ).toNat :=
      d.length_keepDigits_le (by omega)
    rw [Int.toNat_natCast] at hlength
    exact keepDigits_of_length_le (by exact_mod_cast hlength)
  value_mono d e hd he h := by
    rw [value_roundDigits hd.head?_ne, value_roundDigits he.head?_ne]
    exact roundSignificant_mono hcount d.value_nonneg h

/-! ## Plain notation -/

end Digits

/-- **One decimal more** takes one digit more of the number. -/
theorem floor_mul_pow (places : ℕ) (q : ℚ) :
    ⌊q * 10 ^ places⌋₊ = ⌊q⌋₊ * 10 ^ places + valueOf (decimals places q) := by
  induction places with
  | zero => simp [decimals, valueOf]
  | succ places ih =>
    have hshift : q * 10 ^ places = q * 10 ^ (places + 1) / (10 : ℕ) := by
      rw [pow_succ]
      push_cast
      field_simp
    have hmore : decimals (places + 1) q =
        decimals places q ++ [Digit.ofNat ⌊q * 10 ^ (places + 1)⌋₊] := by
      simp [decimals, List.range_succ]
    have hscale : ⌊q⌋₊ * 10 ^ (places + 1) = 10 * (⌊q⌋₊ * 10 ^ places) := by ring
    rw [hshift, Nat.floor_div_natCast] at ih
    rw [hmore, valueOf_append_singleton, hscale]
    simp only [Digit.ofNat]
    omega

/-- The number that a plain notation writes. -/
def PlainDigits.value (d : PlainDigits) : ℚ :=
  valueOf d.integer + valueOf d.fraction / 10 ^ d.fraction.length

theorem PlainDigits.isZero_iff (d : PlainDigits) : d.isZero = true ↔ d.value = 0 := by
  have hpower : (0 : ℚ) < 10 ^ d.fraction.length := by positivity
  have hparts : d.value = 0 ↔ valueOf d.integer = 0 ∧ valueOf d.fraction = 0 := by
    rw [value, add_eq_zero_iff_of_nonneg (by positivity) (by positivity),
      div_eq_zero_iff, or_iff_left hpower.ne']
    norm_cast
  rw [hparts, valueOf_eq_zero_iff, valueOf_eq_zero_iff]
  simp [isZero]

namespace Digits

/-- **The plain notation is exact** for a number with no more decimals than it has. -/
theorem value_plainParts {d : Digits} {places n : ℕ} (h : d.value * 10 ^ places = n) :
    (d.plainParts places).value = d.value := by
  have hfloor := floor_mul_pow places d.value
  rw [h, Nat.floor_natCast] at hfloor
  have hpower : (10 : ℚ) ^ places ≠ 0 := by positivity
  rw [PlainDigits.value, length_fraction_plainParts, valueOf_integer_plainParts,
    fraction_plainParts, eq_comm, ← mul_left_inj' hpower, h, hfloor]
  push_cast
  field_simp

/-- **Plain notation writes the rounded number.** -/
theorem value_plain (d : Digits) (places : ℕ) :
    (d.plain places).value = roundTo (-places) d.value := by
  have hwhole : (d.roundPlaces places).value * 10 ^ places =
      (⌊d.value / 10 ^ (-places : ℤ) + 1 / 2⌋.toNat : ℕ) := by
    have hpower : (10 : ℚ) ^ (-places : ℤ) * 10 ^ places = 1 := by
      rw [zpow_neg, zpow_natCast, inv_mul_cancel₀ (by positivity)]
    have hfloor : 0 ≤ ⌊d.value / 10 ^ (-places : ℤ) + 1 / 2⌋ :=
      Int.floor_nonneg.2 (add_nonneg (div_nonneg d.value_nonneg (by positivity)) (by norm_num))
    rw [value_roundPlaces, roundTo, mul_assoc, hpower, mul_one]
    exact_mod_cast (Int.toNat_of_nonneg hfloor).symm
  rw [plain, value_plainParts hwhole, value_roundPlaces]

/-- **A number written in plain notation**, with exactly the decimals asked for. -/
structure Writes (d : Digits) (places : ℕ) (p : PlainDigits) : Prop where
  value_eq : p.value = d.value
  length_fraction : p.fraction.length = places
  head?_integer_ne : p.integer.head? ≠ some 0

/-- Zeros in front of the point are written as well, if the point of zero stands behind
them. -/
theorem head?_integer_of_nil {d : Digits} (hnil : d.digits = []) (hpoint : 0 < d.point)
    (places : ℕ) : (d.plainParts places).integer.head? = some 0 := by
  obtain ⟨count, hcount⟩ : ∃ count, d.point.toNat = count + 1 := ⟨d.point.toNat - 1, by omega⟩
  simp [plainParts, hcount, List.range_succ_eq_map, nthDigit, hnil]

/-- **Normal digits** are those that are written without a leading zero. -/
theorem writes_plainParts_iff {d : Digits} (hd : d.IsTrimmed) {places n : ℕ}
    (h : d.value * 10 ^ places = n) : d.Writes places (d.plainParts places) ↔ d.IsNormal := by
  refine ⟨fun hwrites => ⟨hd, fun hnil => ?_⟩, fun hnormal => ?_⟩
  · by_contra hpoint
    exact hwrites.head?_integer_ne (head?_integer_of_nil hnil (by omega) places)
  · exact ⟨value_plainParts h, d.length_fraction_plainParts places,
      head?_integer_plainParts hd.head?_ne hnormal.point_nonpos places⟩

/-! ## Rounding is exact -/

/-- **Rounding is exact**, to decimals and to significant digits. The plain notation is exact
for what has no more decimals, but has zeros in front of the point if the digits are those of
a zero that stands there. Rounding makes no such digits, and among the doubles those that are
not finite have them. -/
theorem rounding_exact (places : ℕ) {count : ℕ} (hcount : 1 ≤ count) :
    Rounds (roundPlaces places) (roundTo (-places)) ∧
      Rounds (roundDigits count) (roundSignificant count) ∧
      (∀ (d : Digits) (n : ℕ), d.IsTrimmed → d.value * 10 ^ places = n →
        (d.plainParts places).value = d.value ∧
          (d.plainParts places).fraction.length = places ∧
          (d.Writes places (d.plainParts places) ↔ d.IsNormal)) ∧
      ∀ x, (shortest x).IsTrimmed ∧ ((shortest x).IsNormal ↔ x.isFinite) :=
  ⟨rounds_roundPlaces places, rounds_roundDigits hcount,
    fun d _ hd h => ⟨value_plainParts h, d.length_fraction_plainParts places,
      writes_plainParts_iff hd h⟩,
    fun x => ⟨isTrimmed_shortest x, isNormal_shortest_iff.trans Magnitude.isSome_ofFloat?_iff⟩⟩

/-- `9.996` has three decimals, and to three digits it is the `10.0` that a carry makes
of it. -/
theorem rounding_exact_carry :
    let d : Digits := ⟨[9, 9, 9, 6], 1⟩
    d.IsTrimmed ∧ d.IsNormal ∧ (d.roundDigits 3).value = roundSignificant 3 d.value ∧
      (d.roundDigits 3).IsTrimmed ∧ d.roundDigits 3 = ⟨[1], 2⟩ ∧
      d.value * 10 ^ 3 = (9996 : ℕ) ∧ d.Writes 3 (d.plainParts 3) := by
  have hd : (⟨[9, 9, 9, 6], 1⟩ : Digits).IsTrimmed := ⟨by decide, by decide⟩
  have hnormal := hd.isNormal (by decide)
  have hvalue : (⟨[9, 9, 9, 6], 1⟩ : Digits).value * 10 ^ 3 = (9996 : ℕ) := by
    norm_num [value, valueOf, zpow_neg]
  obtain ⟨-, hround, hplain, -⟩ := rounding_exact 3 (show 1 ≤ 3 by decide)
  exact ⟨hd, hnormal, hround.value_eq _ hd, hround.isTrimmed _ hd, by decide, hvalue,
    (hplain _ 9996 hd hvalue).2.2.2 hnormal⟩

/-- A hundred times `10 ^ 308` is no finite double. It has the digits of a zero behind a place
for one digit, and this place is written. -/
theorem not_writes_overflow :
    shortest (1e308 * 100.0) = ⟨[], 1⟩ ∧ (shortest (1e308 * 100.0)).IsTrimmed ∧
      (shortest (1e308 * 100.0)).value * 10 ^ 0 = (0 : ℕ) ∧
      (shortest (1e308 * 100.0)).plainParts 0 = ⟨[0], []⟩ ∧
      ¬ (shortest (1e308 * 100.0)).Writes 0 ((shortest (1e308 * 100.0)).plainParts 0) := by
  have hshortest : shortest (1e308 * 100.0) = ⟨[], 1⟩ := by decide +kernel
  rw [hshortest]
  have hparts : (⟨[], 1⟩ : Digits).plainParts 0 = ⟨[0], []⟩ := by decide
  refine ⟨rfl, isTrimmed_nil 1, by simp [value_of_nil], hparts, fun hwrites => ?_⟩
  exact absurd (hparts ▸ hwrites.head?_integer_ne) (by decide)

end Digits

end TickLabels
