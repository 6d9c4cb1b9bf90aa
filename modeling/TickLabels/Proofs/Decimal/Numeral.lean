import Mathlib.Data.List.Induction
import Mathlib.Data.List.TakeWhile
import Mathlib.Tactic.Ring
import TickLabels.Decimal.Numeral
/-!
# Numerals

The numeral of a number holds digits only, as many as its size asks for
(`length_digitsOf_le_iff`), and reads back as the number
(`readNumeral_numeral`). Digits without a leading zero are the digits of the
number they write (`digitsOf_valueOf`).
-/

namespace TickLabels

theorem Digit.isDigit_char (d : Digit) : d.char.isDigit := by
  revert d; decide

theorem Digit.char_zero : Digit.char 0 = '0' := rfl

@[simp] theorem digitText_nil : digitText [] = [] := rfl

@[simp] theorem digitText_append (ds es : List Digit) :
    digitText (ds ++ es) = digitText ds ++ digitText es :=
  List.map_append

@[simp] theorem length_digitText (ds : List Digit) : (digitText ds).length = ds.length :=
  List.length_map _

@[simp] theorem digitText_replicate_zero (count : Nat) :
    digitText (List.replicate count 0) = List.replicate count '0' :=
  List.map_replicate

theorem isDigit_of_mem_digitText {ds : List Digit} {c : Char} (h : c ∈ digitText ds) :
    c.isDigit := by
  obtain ⟨d, -, rfl⟩ := List.mem_map.1 h
  exact d.isDigit_char

/-! ## Reading back -/

/-- A text of digits is read as the number they write. -/
theorem readNumeral_digitText (ds : List Digit) : readNumeral (digitText ds) = valueOf ds := by
  have hchar : ∀ d : Digit, d.char.toNat - '0'.toNat = d.val := by decide
  simp only [readNumeral, digitText, valueOf, List.foldl_map, hchar]

theorem readNumeral_numeral (n : Nat) : readNumeral (numeral n) = n := by
  unfold numeral
  split
  · next h => subst h; rfl
  · rw [readNumeral_digitText, valueOf_digitsOf]

theorem isDigit_of_mem_numeral {n : Nat} {c : Char} (h : c ∈ numeral n) : c.isDigit := by
  unfold numeral at h
  split at h
  · obtain rfl : c = '0' := by simpa using h
    decide
  · exact isDigit_of_mem_digitText h

/-! ## Digits and their number -/

theorem valueOf_append (ds es : List Digit) :
    valueOf (ds ++ es) = valueOf ds * 10 ^ es.length + valueOf es := by
  induction es using List.reverseRecOn with
  | nil => simp [valueOf]
  | append_singleton es e ih =>
    rw [← List.append_assoc, valueOf_append_singleton, valueOf_append_singleton, ih,
      List.length_append, List.length_singleton, Nat.pow_succ]
    ring

theorem valueOf_lt (ds : List Digit) : valueOf ds < 10 ^ ds.length := by
  induction ds using List.reverseRecOn with
  | nil => simp [valueOf]
  | append_singleton ds d ih =>
    have := d.isLt
    rw [valueOf_append_singleton, List.length_append, List.length_singleton, Nat.pow_succ]
    omega

/-- **A number below a power of ten** has no more digits than that. -/
theorem length_digitsOf_le_iff {n k : Nat} : (digitsOf n).length ≤ k ↔ n < 10 ^ k := by
  constructor
  · intro h
    calc n = valueOf (digitsOf n) := (valueOf_digitsOf n).symm
      _ < 10 ^ (digitsOf n).length := valueOf_lt _
      _ ≤ 10 ^ k := Nat.pow_le_pow_right (by omega) h
  · induction k generalizing n with
    | zero =>
      intro h
      obtain rfl : n = 0 := by omega
      simp
    | succ k ih =>
      intro h
      rcases Nat.eq_zero_or_pos n with rfl | hpos
      · simp
      · rw [digitsOf_of_pos hpos, List.length_append, List.length_singleton]
        have := ih (n := n / 10) (by rw [Nat.pow_succ] at h; omega)
        omega

theorem digitsOf_eq_nil_iff {n : Nat} : digitsOf n = [] ↔ n = 0 := by
  refine ⟨fun h => ?_, fun h => h ▸ digitsOf_zero⟩
  rw [← valueOf_digitsOf n, h]
  rfl

/-- **Digits are known by the number they write**, up to leading zeros. -/
theorem digitsOf_valueOf (ds : List Digit) : digitsOf (valueOf ds) = ds.dropWhile (· = 0) := by
  induction ds using List.reverseRecOn with
  | nil => simp [valueOf]
  | append_singleton ds d ih =>
    have hd := d.isLt
    rw [valueOf_append_singleton, List.dropWhile_append]
    rcases Nat.eq_zero_or_pos (10 * valueOf ds + d.val) with hzero | hpos
    · have hvalue : valueOf ds = 0 := by omega
      obtain rfl : d = 0 := Fin.ext (by simp; omega)
      rw [hvalue, digitsOf_zero] at ih
      simp [hvalue, ← ih]
    · have hlast : Digit.ofNat (10 * valueOf ds + d.val) = d :=
        Fin.ext (by simp only [Digit.ofNat]; omega)
      rw [digitsOf_of_pos hpos, hlast, show (10 * valueOf ds + d.val) / 10 = valueOf ds by omega,
        ih]
      split
      · next hnil =>
        rw [List.isEmpty_iff.1 hnil, digitsOf_eq_nil_iff] at ih
        have hne : d ≠ 0 := by rintro rfl; simp [ih] at hpos
        rw [List.isEmpty_iff.1 hnil, List.dropWhile_cons_of_neg (by simpa using hne)]
        rfl
      · rfl

/-- Only zeros write zero. -/
theorem valueOf_eq_zero_iff {ds : List Digit} : valueOf ds = 0 ↔ ∀ d ∈ ds, d = 0 := by
  rw [← digitsOf_eq_nil_iff, digitsOf_valueOf, List.dropWhile_eq_nil_iff]
  simp

end TickLabels
