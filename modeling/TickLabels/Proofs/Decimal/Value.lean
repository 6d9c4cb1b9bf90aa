import Mathlib.Algebra.Order.Field.Power
import Mathlib.Algebra.Order.Floor.Semifield
import Mathlib.Data.Int.Log
import Mathlib.Data.Rat.Floor
import Mathlib.Tactic.FieldSimp
import Mathlib.Tactic.Linarith
import Mathlib.Tactic.Positivity
import TickLabels.Proofs.Decimal.Normal
import TickLabels.Proofs.Decimal.Numeral
/-!
# The number that digits stand for

Digits are a rational number, and the operations on digits are operations on
that number. Dropping digits is rounding (`value_keepDigits`), and the plain
notation writes the whole part and the decimals of the number
(`plain_eq`).
-/

namespace TickLabels

/-- `q` to the nearest multiple of `10 ^ e`. A half goes up, which on a magnitude
is away from zero. -/
def roundTo (e : ℤ) (q : ℚ) : ℚ :=
  ⌊q / 10 ^ e + 1 / 2⌋ * 10 ^ e

/-- `q` rounded to `count` significant digits. -/
def roundSignificant (count : ℕ) (q : ℚ) : ℚ :=
  roundTo (Int.log 10 q + 1 - count) q

/-- The first `places` decimals of `q`. -/
def decimals (places : ℕ) (q : ℚ) : List Digit :=
  (List.range places).map fun i => Digit.ofNat ⌊q * 10 ^ (i + 1)⌋₊

/-- What is rounded down lies between its multiple and the middle to the next
one, and what is rounded up between the middle and the next one. -/
theorem roundTo_eq {e : ℤ} {q : ℚ} {n : ℤ} (hlow : n ≤ q / 10 ^ e + 1 / 2)
    (hhigh : q / 10 ^ e + 1 / 2 < n + 1) : roundTo e q = n * 10 ^ e := by
  rw [roundTo, Int.floor_eq_iff.2 ⟨hlow, hhigh⟩]

/-- A multiple is rounded to itself. -/
theorem roundTo_mul_zpow (n : ℤ) (e : ℤ) : roundTo e (n * 10 ^ e) = n * 10 ^ e := by
  have hquotient : (n : ℚ) * 10 ^ e / 10 ^ e = n := mul_div_cancel_right₀ _ (by positivity)
  refine roundTo_eq ?_ ?_ <;> rw [hquotient] <;> linarith

@[simp] theorem roundTo_zero (e : ℤ) : roundTo e 0 = 0 := by
  simpa using roundTo_mul_zpow 0 e

/-- The powers of ten around a number say where it starts. -/
theorem log_eq {q : ℚ} {e : ℤ} (hlow : 10 ^ e ≤ q) (hhigh : q < 10 ^ (e + 1)) :
    Int.log 10 q = e := by
  have hpos : 0 < q := lt_of_lt_of_le (by positivity) hlow
  have hle : e ≤ Int.log 10 q :=
    (Int.zpow_le_iff_le_log (by norm_num) hpos).1 (by exact_mod_cast hlow)
  have hlt : Int.log 10 q < e + 1 :=
    (Int.lt_zpow_iff_log_lt (by norm_num) hpos).1 (by exact_mod_cast hhigh)
  omega

/-! ## Digits in a row -/

theorem valueOf_cons (d : Digit) (ds : List Digit) :
    valueOf (d :: ds) = d.val * 10 ^ ds.length + valueOf ds := by
  have h := valueOf_append [d] ds
  simpa [valueOf] using h

/-- **Adding one in the last place** adds one. -/
theorem valueOf_increment (ds : List Digit) :
    (if (increment ds).1 then 10 ^ ds.length else 0) + valueOf (increment ds).2 =
      valueOf ds + 1 := by
  induction ds with
  | nil => rfl
  | cons d ds ih =>
    have hlength := length_increment ds
    unfold increment
    split
    · next es h =>
      rw [h] at ih hlength
      simp only [Bool.false_eq_true, if_false, Nat.zero_add] at ih ⊢
      rw [valueOf_cons, valueOf_cons, hlength, ih, Nat.add_assoc]
    · next es h =>
      rw [h] at ih hlength
      simp only [if_true] at ih
      split
      · next hnine =>
        subst hnine
        simp only [if_true, valueOf_cons, hlength, List.length_cons, Nat.pow_succ]
        simp
        omega
      · next hnine =>
        have hsucc : ∀ d : Digit, d ≠ 9 → (d + 1).val = d.val + 1 := by decide
        simp only [Bool.false_eq_true, if_false, valueOf_cons, hsucc d hnine, hlength]
        rw [Nat.add_mul]
        omega

theorem valueOf_replicate_zero (count : ℕ) : valueOf (List.replicate count 0) = 0 := by
  induction count with
  | zero => rfl
  | succ count ih => rw [List.replicate_succ, valueOf_cons, ih]; simp

namespace Digits

/-- The number that digits stand for. -/
def value (d : Digits) : ℚ :=
  valueOf d.digits * 10 ^ (d.point - d.digits.length)

/-- No digits are zero, wherever the point stands. -/
theorem value_of_nil {d : Digits} (hnil : d.digits = []) : d.value = 0 := by
  simp [value, hnil, valueOf]

@[simp] theorem value_zero : zero.value = 0 :=
  value_of_nil rfl

theorem value_nonneg (d : Digits) : 0 ≤ d.value := by
  unfold value
  positivity

/-- All digits stand behind the point that digits have. -/
theorem value_lt (d : Digits) : d.value < 10 ^ d.point := by
  have hlt : (valueOf d.digits : ℚ) < 10 ^ (d.digits.length : ℤ) := by
    exact_mod_cast valueOf_lt d.digits
  calc d.value < 10 ^ (d.digits.length : ℤ) * 10 ^ (d.point - d.digits.length) :=
        mul_lt_mul_of_pos_right hlt (by positivity)
    _ = 10 ^ d.point := by rw [← zpow_add₀ (by norm_num), add_sub_cancel]

/-- Zeros at the end do not count. -/
theorem value_ofList (ds : List Digit) (point : ℤ) :
    (ofList ds point).value = valueOf ds * 10 ^ (point - ds.length) := by
  obtain ⟨count, hds⟩ := dropTrailingZeros_append ds
  have hvalue : (valueOf ds : ℚ) = valueOf (dropTrailingZeros ds) * 10 ^ (count : ℤ) := by
    rw [hds, valueOf_append, valueOf_replicate_zero, List.length_replicate, ← hds]
    push_cast
    simp
  have hlength : (ds.length : ℤ) = (dropTrailingZeros ds).length + count := by
    have := congrArg List.length hds
    rw [List.length_append, List.length_replicate] at this
    omega
  rw [hvalue, mul_assoc, ← zpow_add₀ (by norm_num), hlength]
  unfold ofList
  split
  · next hnil => simp [hnil, valueOf]
  · rw [value]
    congr 2
    dsimp only
    omega

/-- In units of `10 ^ (point - keep)` the first `keep` digits are the whole part,
and the digit behind them is the first decimal. -/
theorem value_div_bounds {d : Digits} {front back : List Digit} {next : Digit}
    (hdigits : d.digits = front ++ next :: back) :
    (valueOf front : ℚ) + next.val / 10 ≤ d.value / 10 ^ (d.point - front.length) ∧
      d.value / 10 ^ (d.point - front.length) < valueOf front + (next.val + 1) / 10 := by
  have hback : (valueOf back : ℚ) < 10 ^ back.length := by exact_mod_cast valueOf_lt back
  have hpos : (0 : ℚ) < 10 ^ back.length := by positivity
  have hvalue : d.value / 10 ^ (d.point - front.length) =
      valueOf front + next.val / 10 + valueOf back / 10 ^ back.length / 10 := by
    have hexp : d.point - (d.digits.length : ℤ) - (d.point - front.length) =
        -((back.length + 1 : ℕ) : ℤ) := by
      rw [hdigits, List.length_append, List.length_cons]
      omega
    rw [value, mul_div_assoc, ← zpow_sub₀ (by norm_num), hexp, hdigits, valueOf_append,
      valueOf_cons, zpow_neg, zpow_natCast, List.length_cons]
    push_cast
    rw [pow_succ]
    field_simp
    ring
  have hlow : 0 ≤ (valueOf back : ℚ) / 10 ^ back.length := by positivity
  have hhigh : (valueOf back : ℚ) / 10 ^ back.length < 1 := (div_lt_one hpos).2 hback
  rw [hvalue]
  constructor <;> linarith

/-- **Rounding up** puts the next number in place of the digits, with a digit more
if it carries over the first of them. -/
theorem value_roundUp (front : List Digit) (point : ℤ) :
    (match increment front with
      | (true, digits) => ofList (1 :: digits) (point + 1)
      | (false, digits) => ofList digits point).value =
      ((valueOf front + 1 : ℕ) : ℚ) * 10 ^ (point - front.length) := by
  have hadd := valueOf_increment front
  have hlength := length_increment front
  split
  · next ds hincrement =>
    rw [hincrement] at hadd hlength
    dsimp only at hlength
    simp only [if_true] at hadd
    have hvalue : valueOf (1 :: ds) = valueOf front + 1 := by
      rw [valueOf_cons, ← hadd, hlength]
      simp
    rw [value_ofList, hvalue, List.length_cons, hlength]
    congr 2
    omega
  · next ds hincrement =>
    rw [hincrement] at hadd hlength
    dsimp only at hlength
    simp only [Bool.false_eq_true, if_false, Nat.zero_add] at hadd
    rw [value_ofList, hadd, hlength]

/-- In units that are larger than the number by ten there is nothing to round. -/
theorem roundTo_of_point_lt {d : Digits} {e : ℤ} (h : d.point < e) : roundTo e d.value = 0 := by
  have hlt : d.value / 10 ^ e < 10 ^ (-1 : ℤ) := by
    rw [div_lt_iff₀ (by positivity), ← zpow_add₀ (by norm_num)]
    exact d.value_lt.trans_le (zpow_le_zpow_right₀ (by norm_num) (by omega))
  have hnonneg : 0 ≤ d.value / 10 ^ e := div_nonneg d.value_nonneg (by positivity)
  rw [zpow_neg_one] at hlt
  rw [roundTo_eq (n := 0)] <;> push_cast <;> linarith

/-- Digits that all stand in front of the place of rounding stay as they are. -/
theorem roundTo_of_length_le {d : Digits} {keep : ℕ} (h : d.digits.length ≤ keep) :
    roundTo (d.point - keep) d.value = d.value := by
  have hexp : d.point - d.digits.length =
      ((keep - d.digits.length : ℕ) : ℤ) + (d.point - (keep : ℤ)) := by omega
  have hvalue : d.value = ((valueOf d.digits * 10 ^ (keep - d.digits.length) : ℕ) : ℤ) *
      10 ^ (d.point - (keep : ℤ)) := by
    rw [value, hexp, zpow_add₀ (by norm_num), zpow_natCast]
    push_cast
    ring
  rw [hvalue, roundTo_mul_zpow]

/-- **Dropping digits is rounding.** -/
theorem value_keepDigits (d : Digits) (keep : ℤ) :
    (d.keepDigits keep).value = roundTo (d.point - keep) d.value := by
  unfold keepDigits
  split
  · next hkeep => rw [value_of_nil rfl, roundTo_of_point_lt (by omega)]
  · next hkeep =>
    obtain ⟨k, rfl⟩ := Int.eq_ofNat_of_zero_le (not_lt.1 hkeep)
    rw [Int.toNat_natCast]
    split
    · next hnil => rw [roundTo_of_length_le (List.drop_eq_nil_iff.1 hnil)]
    · next next back hdrop =>
      have hfront : (d.digits.take k).length = k := by
        have := congrArg List.length hdrop
        rw [List.length_drop, List.length_cons] at this
        rw [List.length_take]
        omega
      have hdigits : d.digits = d.digits.take k ++ next :: back := by
        rw [← hdrop, List.take_append_drop]
      obtain ⟨hlow, hhigh⟩ := value_div_bounds hdigits
      rw [hfront] at hlow hhigh
      dsimp only
      -- The first digit that is dropped decides, as a half is rounded up.
      split
      · next hfive =>
        have hfive : (5 : ℚ) ≤ next.val := by exact_mod_cast hfive
        have hten : (next.val : ℚ) + 1 ≤ 10 := by exact_mod_cast next.isLt
        refine (value_roundUp _ _).trans ?_
        rw [hfront, roundTo_eq (n := ((valueOf (d.digits.take k) + 1 : ℕ) : ℤ))] <;>
          push_cast <;> linarith
      · next hfive =>
        have hfive : (next.val : ℚ) + 1 ≤ 5 := by exact_mod_cast Fin.not_le.1 hfive
        have hnonneg : (0 : ℚ) ≤ next.val := Nat.cast_nonneg _
        rw [value_ofList, hfront, roundTo_eq (n := valueOf (d.digits.take k)), Int.cast_natCast] <;>
          push_cast <;> linarith

/-- A leading digit that is not zero stands right behind the point. -/
theorem le_value {d : Digits} (hhead : d.digits.head? ≠ some 0) (hne : d.digits ≠ []) :
    10 ^ (d.point - 1) ≤ d.value := by
  obtain ⟨lead, rest, hdigits⟩ := List.exists_cons_of_ne_nil hne
  have hlead : 1 ≤ lead.val := by
    rw [hdigits, List.head?_cons, ne_eq, Option.some.injEq] at hhead
    exact Nat.one_le_iff_ne_zero.2 fun h => hhead (Fin.ext h)
  have hle : (10 : ℚ) ^ (rest.length : ℤ) ≤ valueOf d.digits := by
    have : 10 ^ rest.length ≤ valueOf d.digits := by
      rw [hdigits, valueOf_cons]
      exact (Nat.le_mul_of_pos_left _ hlead).trans (Nat.le_add_right _ _)
    exact_mod_cast this
  have hexp : d.point - 1 = rest.length + (d.point - d.digits.length) := by
    rw [hdigits, List.length_cons]
    omega
  rw [value, hexp, zpow_add₀ (by norm_num)]
  exact mul_le_mul_of_nonneg_right hle (by positivity)

theorem value_pos {d : Digits} (hhead : d.digits.head? ≠ some 0) (hne : d.digits ≠ []) :
    0 < d.value :=
  lt_of_lt_of_le (by positivity) (le_value hhead hne)

/-- So the point is known from the number. -/
theorem log_value {d : Digits} (hhead : d.digits.head? ≠ some 0) (hne : d.digits ≠ []) :
    Int.log 10 d.value + 1 = d.point := by
  rw [log_eq (e := d.point - 1) (le_value hhead hne) (by rw [sub_add_cancel]; exact d.value_lt),
    sub_add_cancel]

/-- **Keeping significant digits** rounds to them. -/
theorem value_roundDigits {d : Digits} (hhead : d.digits.head? ≠ some 0) (count : ℕ) :
    (d.roundDigits count).value = roundSignificant count d.value := by
  rw [roundDigits, value_keepDigits, roundSignificant]
  by_cases hnil : d.digits = []
  · rw [value_of_nil hnil, roundTo_zero, roundTo_zero]
  · rw [log_value hhead hnil]

/-- **Rounding to decimals** rounds to them. -/
theorem value_roundPlaces (d : Digits) (places : ℕ) :
    (d.roundPlaces places).value = roundTo (-places) d.value := by
  rw [roundPlaces, value_keepDigits, sub_add_cancel_left]

/-! ## Reading single digits -/

theorem map_nthDigit (d : Digits) (count : ℕ) :
    ((List.range count).map fun i : ℕ => d.nthDigit i) =
      d.digits.take count ++ List.replicate (count - d.digits.length) 0 := by
  refine List.ext_getElem ?_ fun i hi hi' => ?_
  · simp
    omega
  · have hnonneg : ¬ (i : ℤ) < 0 := by omega
    rw [List.getElem_map, List.getElem_range, nthDigit, if_neg hnonneg, Int.toNat_natCast,
      List.getElem_append, List.getD_eq_getElem?_getD]
    rw [List.length_map, List.length_range] at hi
    split
    · next h =>
      rw [List.length_take] at h
      rw [List.getElem_take, List.getElem?_eq_getElem (by omega), Option.getD_some]
    · next h =>
      rw [List.length_take] at h
      rw [List.getElem_replicate, List.getElem?_eq_none (by omega), Option.getD_none]

/-- **The first digits** are the whole part of the number, moved so far. -/
theorem floor_value (d : Digits) (count : ℕ) :
    ⌊d.value * 10 ^ (count - d.point)⌋₊ =
      valueOf ((List.range count).map fun i : ℕ => d.nthDigit i) := by
  have hmoved : d.value * 10 ^ (count - d.point) =
      valueOf d.digits * 10 ^ ((count : ℤ) - d.digits.length) := by
    rw [value, mul_assoc, ← zpow_add₀ (by norm_num)]
    congr 2
    omega
  rw [map_nthDigit, valueOf_append, valueOf_replicate_zero, List.length_replicate, hmoved,
    Nat.add_zero]
  -- Where digits are missing zeros follow, and where some are left they are less
  -- than one.
  rcases Nat.le_total d.digits.length count with h | h
  · have hexp : (count : ℤ) - d.digits.length = ((count - d.digits.length : ℕ) : ℤ) := by omega
    rw [List.take_of_length_le h, hexp, zpow_natCast]
    exact_mod_cast Nat.floor_natCast (R := ℚ) _
  · have hexp : (count : ℤ) - d.digits.length = -((d.digits.length - count : ℕ) : ℤ) := by omega
    have hcut : valueOf d.digits = valueOf (d.digits.take count) * 10 ^ (d.digits.length - count) +
        valueOf (d.digits.drop count) := by
      rw [← List.length_drop, ← valueOf_append, List.take_append_drop]
    have hlt := valueOf_lt (d.digits.drop count)
    rw [List.length_drop] at hlt
    rw [Nat.sub_eq_zero_of_le h, pow_zero, mul_one, hexp, zpow_neg, zpow_natCast, ← div_eq_mul_inv]
    have hdiv := Nat.floor_div_eq_div (K := ℚ) (valueOf d.digits) (10 ^ (d.digits.length - count))
    push_cast at hdiv
    rw [hdiv, hcut, Nat.add_comm, Nat.add_mul_div_right _ _ (by positivity),
      Nat.div_eq_of_lt hlt, Nat.zero_add]

/-- **Every digit** is the last one of a whole part. -/
theorem nthDigit_eq (d : Digits) (i : ℤ) :
    d.nthDigit i = Digit.ofNat ⌊d.value * 10 ^ (i + 1 - d.point)⌋₊ := by
  rcases Int.lt_or_le i 0 with h | h
  · have hlt : d.value * 10 ^ (i + 1 - d.point) < 1 := by
      calc d.value * 10 ^ (i + 1 - d.point) < 10 ^ d.point * 10 ^ (i + 1 - d.point) :=
            mul_lt_mul_of_pos_right d.value_lt (by positivity)
        _ = 10 ^ (i + 1) := by rw [← zpow_add₀ (by norm_num), add_sub_cancel]
        _ ≤ 1 := zpow_le_one_of_nonpos₀ (by norm_num) (by omega)
    rw [Nat.floor_eq_zero.2 hlt, nthDigit, if_pos h]
    rfl
  · obtain ⟨n, rfl⟩ := Int.eq_ofNat_of_zero_le h
    have hfloor := d.floor_value (n + 1)
    rw [List.range_succ, List.map_append, List.map_singleton, valueOf_append_singleton] at hfloor
    push_cast at hfloor
    rw [hfloor]
    have := (d.nthDigit n).isLt
    exact Fin.ext (by simp only [Digit.ofNat]; omega)

/-- The digits in front of the point are the whole part. -/
theorem valueOf_integer_plainParts (d : Digits) (places : ℕ) :
    valueOf (d.plainParts places).integer = ⌊d.value⌋₊ := by
  have hfloor := d.floor_value d.point.toNat
  rcases Int.le_total 0 d.point with h | h
  · rw [Int.toNat_of_nonneg h, sub_self, zpow_zero, mul_one] at hfloor
    rw [hfloor]
    rfl
  · have hlt : d.value < 1 := d.value_lt.trans_le (zpow_le_one_of_nonpos₀ (by norm_num) h)
    rw [Nat.floor_eq_zero.2 hlt]
    simp [plainParts, Int.toNat_of_nonpos h, valueOf]

/-- The digits behind the point are the decimals. -/
theorem fraction_plainParts (d : Digits) (places : ℕ) :
    (d.plainParts places).fraction = decimals places d.value := by
  refine List.map_congr_left fun i _ => ?_
  have hexp : d.point + (i : ℤ) + 1 - d.point = ((i + 1 : ℕ) : ℤ) := by
    push_cast
    ring
  rw [nthDigit_eq, hexp, zpow_natCast]

/-- **The plain notation** of a number rounded to decimals: the digits of the whole
part, and the decimals one by one. -/
theorem plain_eq {d : Digits} (hd : d.IsNormal) {places : ℕ} {q : ℚ}
    (hq : roundTo (-places) d.value = q) :
    d.plain places = ⟨digitsOf ⌊q⌋₊, decimals places q⟩ := by
  have hhead := head?_integer_plain hd places
  unfold plain at hhead ⊢
  obtain rfl : (d.roundPlaces places).value = q := (d.value_roundPlaces places).trans hq
  generalize d.roundPlaces places = r at hhead ⊢
  have hkeep : (r.plainParts places).integer.dropWhile (· = 0) = (r.plainParts places).integer := by
    cases hdigits : (r.plainParts places).integer with
    | nil => rfl
    | cons lead rest =>
      rw [hdigits] at hhead
      exact List.dropWhile_cons_of_neg (by simpa using hhead)
  rw [← r.fraction_plainParts, ← r.valueOf_integer_plainParts places, digitsOf_valueOf, hkeep]

end Digits

end TickLabels
