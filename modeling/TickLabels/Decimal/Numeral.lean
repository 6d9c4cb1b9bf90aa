import TickLabels.Text

/-!
# Decimal numerals

A natural number as its decimal digits, the most significant first, and
back. `digitsOf` writes no leading zero, so zero has no digits at all;
`numeral` is the text of a number, for which zero is `0`.
-/

namespace TickLabels

/-- A decimal digit. -/
abbrev Digit := Fin 10

namespace Digit

/-- The last decimal digit of a number. -/
def ofNat (n : Nat) : Digit :=
  ⟨n % 10, Nat.mod_lt n (by decide)⟩

/-- The character of a digit. -/
def char (d : Digit) : Char :=
  Char.ofNat ('0'.toNat + d.val)

end Digit

/-- Digits as text. -/
def digitText (digits : List Digit) : Text :=
  digits.map Digit.char

/-- The number that digits write. -/
def valueOf (digits : List Digit) : Nat :=
  digits.foldl (fun n d => 10 * n + d.val) 0

theorem valueOf_append_singleton (digits : List Digit) (d : Digit) :
    valueOf (digits ++ [d]) = 10 * valueOf digits + d.val := by
  simp [valueOf]

/-- The digits of `n` in front of `tail`. -/
def prependDigits (n : Nat) (tail : List Digit) : List Digit :=
  if n = 0 then tail else prependDigits (n / 10) (.ofNat n :: tail)
termination_by n
decreasing_by omega

/-- The digits of a number, without a leading zero. -/
def digitsOf (n : Nat) : List Digit :=
  prependDigits n []

theorem prependDigits_eq (n : Nat) (tail : List Digit) :
    prependDigits n tail = digitsOf n ++ tail := by
  induction n using Nat.strongRecOn generalizing tail with
  | _ n ih =>
    rw [digitsOf, prependDigits.eq_1 n tail, prependDigits.eq_1 n []]
    by_cases h : n = 0
    · simp [h]
    · rw [if_neg h, if_neg h, ih (n / 10) (by omega), ih (n / 10) (by omega) [_],
        List.append_assoc, List.singleton_append]

@[simp] theorem digitsOf_zero : digitsOf 0 = [] := by
  rw [digitsOf, prependDigits]; rfl

/-- The last digit is the remainder by ten. -/
theorem digitsOf_of_pos {n : Nat} (h : 0 < n) :
    digitsOf n = digitsOf (n / 10) ++ [.ofNat n] := by
  rw [digitsOf, prependDigits, if_neg (by omega), prependDigits_eq]

/-- **The digits of a number write it.** -/
theorem valueOf_digitsOf (n : Nat) : valueOf (digitsOf n) = n := by
  induction n using Nat.strongRecOn with
  | _ n ih =>
    by_cases h : n = 0
    · simp [h, valueOf]
    · rw [digitsOf_of_pos (by omega), valueOf_append_singleton, ih (n / 10) (by omega)]
      simp only [Digit.ofNat]
      omega

/-- **And there is no leading zero.** -/
theorem head?_digitsOf_ne_zero (n : Nat) : (digitsOf n).head? ≠ some 0 := by
  induction n using Nat.strongRecOn with
  | _ n ih =>
    by_cases h : n = 0
    · simp [h]
    · rw [digitsOf_of_pos (by omega)]
      by_cases h' : n / 10 = 0
      · simp only [h', digitsOf_zero, List.nil_append, List.head?_cons, ne_eq, Option.some.injEq]
        intro hzero
        have := congrArg Fin.val hzero
        simp [Digit.ofNat] at this
        omega
      · have hne : digitsOf (n / 10) ≠ [] := by
          rw [digitsOf_of_pos (by omega)]; simp
        rw [List.head?_append, Option.or_of_isSome (by simpa using hne)]
        exact ih (n / 10) (by omega)

/-- The decimal text of a number. -/
def numeral (n : Nat) : Text :=
  if n = 0 then ['0'] else digitText (digitsOf n)

/-- The number that a decimal text writes. -/
def readNumeral (text : Text) : Nat :=
  text.foldl (fun n c => 10 * n + (c.toNat - '0'.toNat)) 0

end TickLabels
