import TickLabels.Proofs.Render.General
import TickLabels.Proofs.Render.Templates
/-!
# Plain notation

A number is written in plain notation, or with an exponent behind its digits
(`InNotation`). Of the standard notations other than the exponential one, general and
round-trip notation alone ever write an exponent, for numbers below `10 ^ -4` and from a
limit on (`StandardFormat.inNotation_render`).
-/

namespace TickLabels

/-- The patterns of a culture for numbers, the bare number among them. -/
def Culture.numberPatterns (c : Culture) : List Text :=
  [['n'], c.numberNegativePattern, c.currencyPositivePattern, c.currencyNegativePattern,
    c.percentPositivePattern, c.percentNegativePattern]

/-- **How a number is written**: with the exponent, or without one in plain notation. A sign
or a pattern of the culture may be around it. -/
inductive InNotation (c : Culture) : Option WrittenExponent → Text → Prop
  /-- Digits, with a separator or without. -/
  | digits (negative upper : Bool) {n : WrittenNumber} (hn : n.IsComplete) :
    InNotation c n.exponent? (withSign c negative (n.text c upper))
  /-- Digits filled up with zeros. -/
  | filled (negative : Bool) (width : ℕ) (d : PlainDigits) :
    InNotation c none (withSign c negative (padZeros width (fixedText c false d)))
  /-- Digits in groups. -/
  | grouped {pattern : Text} (hpattern : pattern ∈ c.numberPatterns) (d : PlainDigits) :
    InNotation c none (c.fillPattern pattern (fixedText c true d))
  | hexadecimal (negative upper : Bool) (width n : ℕ) :
    InNotation c none (withSign c negative (padZeros width (hexNumeral upper n)))
  /-- What a section without an exponent marker shows, from the first item of the number to
  the last. -/
  | items {s : Section} {parts : Parts} (scaled : Float)
    (hmarker : ∀ item ∈ s.items, item.isMarker = false)
    (hparts : numberParts? (s.items.zip (s.plainContributions c scaled)) = some parts) :
    InNotation c none parts.number

/-- **The range of plain notation** up to a power of ten. -/
def InPlainRange (limit : ℕ) (q : ℚ) : Prop :=
  q = 0 ∨ 10 ^ (-4 : ℤ) ≤ q ∧ q < 10 ^ limit

namespace Digits

variable {d : Digits} {limit : ℕ}

/-- The exponent of digits bounds their number, and is bounded by it. -/
theorem exponent_mem_iff (hd : d.IsTrimmed) (hne : d.digits ≠ []) :
    -4 ≤ d.exponent ∧ d.exponent < limit ↔ 10 ^ (-4 : ℤ) ≤ d.value ∧ d.value < 10 ^ limit := by
  have hlow : (10 : ℚ) ^ d.exponent ≤ d.value := le_value hd.head?_ne hne
  have hhigh : d.value < 10 ^ (d.exponent + 1) := by
    rw [exponent, sub_add_cancel]
    exact d.value_lt
  have hmono {e f : ℤ} (h : e ≤ f) : (10 : ℚ) ^ e ≤ 10 ^ f :=
    zpow_le_zpow_right₀ (by norm_num) h
  rw [← zpow_natCast]
  constructor
  · rintro ⟨hmin, hmax⟩
    exact ⟨(hmono hmin).trans hlow, hhigh.trans_le (hmono hmax)⟩
  · rintro ⟨hmin, hmax⟩
    refine ⟨?_, ?_⟩ <;> by_contra! hout
    · exact (hmin.trans_lt (hhigh.trans_le (hmono hout))).false
    · exact ((hmono hout).trans hlow).not_gt hmax

/-- **General notation writes an exponent** for what is out of the plain range. -/
theorem inNotation_generalText (c : Culture) (negative upper : Bool) (limit : ℕ)
    (hd : d.IsTrimmed) :
    ∃ exponent?, InNotation c exponent? (withSign c negative (generalText c upper limit d)) ∧
      (exponent? = none ↔ InPlainRange limit d.value) := by
  by_cases hne : d.digits = []
  · have htext : generalText c upper limit d = (WrittenNumber.mk ⟨[0], []⟩ none).text c upper := by
      rw [generalText, hne]
      rfl
    rw [htext]
    exact ⟨none, .digits negative upper isComplete_zero,
      iff_of_true rfl (.inl (value_of_nil hne))⟩
  · obtain ⟨n, htext, hn⟩ := exists_generalText_eq c upper limit hd hne
    have hpos : d.value ≠ 0 := (value_pos hd.head?_ne hne).ne'
    rw [htext]
    refine ⟨n.exponent?, .digits negative upper hn.isComplete, ?_⟩
    rw [hn.exponent_eq_none_iff, exponent_mem_iff hd hne, InPlainRange, or_iff_right hpos]

end Digits

namespace StandardFormat

variable (f : StandardFormat) (x : Float)

/-- The significant digits of general notation. -/
def significantDigits : ℕ :=
  match f.precision with
  | none | some 0 => generalDigits
  | some p => p

/-- **The notation writes an exponent** for the number: it is general or round-trip
notation, and what is shown is out of the plain range. -/
def WritesExponent : Prop :=
  match f.style with
  | .general =>
    ¬ InPlainRange f.significantDigits (roundSignificant f.significantDigits (trustedValue x))
  | .roundTrip => ¬ InPlainRange 15 (Digits.shortest x).value
  | _ => False

/-- **A standard notation writes a number plainly** unless it writes an exponent. -/
theorem inNotation_render (h : f.style ≠ .exponential) (c : Culture) :
    ∃ exponent?, InNotation c exponent? (f.render c x) ∧
      (exponent? = none ↔ ¬ f.WritesExponent x) := by
  have hofFloat := Digits.isTrimmed_ofFloat x
  cases hstyle : f.style with
  | exponential => exact absurd hstyle h
  | currency | percent =>
    simp only [render, hstyle, WritesExponent]
    refine ⟨none, .grouped ?_ _, by simp⟩
    split <;> simp [Culture.numberPatterns]
  | decimal =>
    simp only [render, hstyle, WritesExponent]
    exact ⟨none, .filled _ _ _, by simp⟩
  | fixedPoint =>
    simp only [render, hstyle, WritesExponent]
    have hdigits := InNotation.filled (c := c) (x < 0.0 &&
      !((Digits.ofFloat x).plain (f.precision.getD fixedPlaces)).isZero) 0
      ((Digits.ofFloat x).plain (f.precision.getD fixedPlaces))
    rw [padZeros, Nat.zero_sub] at hdigits
    exact ⟨none, hdigits, by simp⟩
  | number =>
    simp only [render, hstyle, WritesExponent]
    refine ⟨none, ?_, by simp⟩
    split
    · exact .grouped (by simp [Culture.numberPatterns]) _
    · have hpositive := InNotation.grouped (c := c) (List.mem_cons_self ..)
        ((Digits.ofFloat x).plain (f.precision.getD fixedPlaces))
      simpa [Culture.fillPattern] using hpositive
  | hexadecimal =>
    simp only [render, hstyle, WritesExponent]
    exact ⟨none, .hexadecimal _ _ _ _, by simp⟩
  | general =>
    have htrimmed : ((Digits.ofFloat x).roundDigits f.significantDigits).IsTrimmed :=
      Digits.isTrimmed_keepDigits hofFloat _
    obtain ⟨exponent?, hnotation, hrange⟩ := Digits.inNotation_generalText c
      (x < 0.0 && !((Digits.ofFloat x).roundDigits f.significantDigits).isZero) (!f.lowercase)
      f.significantDigits htrimmed
    rw [Digits.value_roundDigits hofFloat.head?_ne, Digits.value_ofFloat_eq] at hrange
    refine ⟨exponent?, ?_, by rw [hrange, WritesExponent, hstyle, not_not]⟩
    rw [render, hstyle]
    exact hnotation
  | roundTrip =>
    obtain ⟨exponent?, hnotation, hrange⟩ := Digits.inNotation_generalText c
      (x < 0.0 && !(Digits.shortest x).isZero) (!f.lowercase) 15
      (Digits.isTrimmed_shortest x)
    refine ⟨exponent?, ?_, by rw [hrange, WritesExponent, hstyle, not_not]⟩
    rw [render, hstyle]
    exact hnotation

end StandardFormat

end TickLabels
