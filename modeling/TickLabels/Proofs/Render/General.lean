import TickLabels.Proofs.Decimal.Shortest
import TickLabels.Proofs.Render.Reading
import TickLabels.Proofs.Render.StandardAsCustom
/-!
# General and round-trip notation

Both notations write all digits they are given, in one of four layouts: behind a zero
and a point, with a point among them, with zeros behind them, or with an exponent. What
they write denotes the digits exactly (`exists_generalText_eq`). So a text in round-trip
notation is read as the double it shows, and one in general notation as its rounded
digits (`general_exact`).
-/

namespace TickLabels

/-! ## The layouts -/

/-- **What general notation writes for digits**: their number, with an exponent if it is
small or reaches the limit. -/
structure Digits.IsGeneral (limit : ℤ) (d : Digits) (n : WrittenNumber) : Prop where
  value_eq : n.value = d.value
  isComplete : n.IsComplete
  exponent_eq_none_iff : n.exponent? = none ↔ -4 ≤ d.exponent ∧ d.exponent < limit
  /-- With an exponent one digit stands in front of the point, and it is not zero. -/
  lead : ∀ e ∈ n.exponent?, ∃ lead, lead ≠ 0 ∧ n.mantissa.integer = [lead]
  two_le_exponent : ∀ e ∈ n.exponent?, 2 ≤ e.digits.length

theorem PlainDigits.value_eq (d : PlainDigits) :
    d.value = valueOf (d.integer ++ d.fraction) * 10 ^ (-(d.fraction.length : ℤ)) := by
  rw [value, valueOf_append, zpow_neg, zpow_natCast]
  push_cast
  field_simp

/-- A numeral filled up with zeros has one digit at least. -/
theorem padZeros_numeral (width n : ℕ) :
    padZeros width (numeral n) = digitText (padInteger (max width 1) (digitsOf n)) := by
  have hnumeral : numeral n = digitText (padInteger 1 (digitsOf n)) := by
    rw [padInteger_one (.inl (head?_digitsOf_ne_zero n)), numeral]
    simp only [digitsOf_eq_nil_iff]
    split <;> rfl
  rw [hnumeral, padZeros_padInteger]

@[simp] theorem valueOf_zeros_append (count : ℕ) (ds : List Digit) :
    valueOf (List.replicate count 0 ++ ds) = valueOf ds := by
  rw [valueOf_append, valueOf_replicate_zero, Nat.zero_mul, Nat.zero_add]

@[simp] theorem valueOf_padInteger (least : ℕ) (ds : List Digit) :
    valueOf (padInteger least ds) = valueOf ds := by
  rw [padInteger, valueOf_zeros_append, ← digitsOf_valueOf, valueOf_digitsOf]

namespace Digits

variable {d : Digits}

/-- Digits behind a zero and a point. -/
theorem value_leadingZeros (h : d.point ≤ 0) :
    (PlainDigits.mk [0] (List.replicate d.point.natAbs 0 ++ d.digits)).value = d.value := by
  have hexp : -((d.point.natAbs + d.digits.length : ℕ) : ℤ) = d.point - d.digits.length := by omega
  rw [PlainDigits.value_eq, value]
  dsimp only
  rw [List.singleton_append, valueOf_cons, valueOf_zeros_append, List.length_append,
    List.length_replicate, hexp]
  simp

/-- Digits with a point among them, or with zeros behind them. -/
theorem value_split (h : 0 < d.point) :
    (PlainDigits.mk (d.digits.take d.point.toNat ++
        List.replicate (d.point.toNat - d.digits.length) 0)
      (d.digits.drop d.point.toNat)).value = d.value := by
  rw [PlainDigits.value_eq, value]
  rcases Nat.le_total d.point.toNat d.digits.length with hle | hle
  · have hexp : -((d.digits.length - d.point.toNat : ℕ) : ℤ) = d.point - d.digits.length := by omega
    rw [Nat.sub_eq_zero_of_le hle, List.replicate_zero, List.append_nil, List.take_append_drop,
      List.length_drop, hexp]
  · have hexp : d.point - d.digits.length = ((d.point.toNat - d.digits.length : ℕ) : ℤ) := by omega
    rw [List.take_of_length_le hle, List.drop_eq_nil_of_le hle, List.append_nil, valueOf_append,
      valueOf_replicate_zero, List.length_replicate, hexp, zpow_natCast]
    simp

/-- Digits with a point behind the first of them. -/
theorem value_lead {lead : Digit} {rest : List Digit} (h : d.digits = lead :: rest) :
    (PlainDigits.mk [lead] rest).value * 10 ^ d.exponent = d.value := by
  have hexp : -(rest.length : ℤ) + d.exponent = d.point - d.digits.length := by
    rw [exponent, h, List.length_cons]
    omega
  rw [PlainDigits.value_eq, value, mul_assoc, ← zpow_add₀ (by norm_num), hexp, h]
  rfl

/-- The exponent of digits as it is written. -/
def writtenExponent (d : Digits) : WrittenExponent :=
  ⟨d.exponent < 0, padInteger 2 (digitsOf d.exponent.natAbs)⟩

theorem text_writtenExponent (c : Culture) (upper : Bool) (d : Digits) :
    d.writtenExponent.text c upper = exponentText c upper 2 d.exponent := by
  rw [WrittenExponent.text, writtenExponent, exponentText, padZeros_numeral]
  simp

theorem value_writtenExponent (d : Digits) : d.writtenExponent.value = d.exponent := by
  rw [WrittenExponent.value, writtenExponent]
  simp only [decide_eq_true_eq, valueOf_padInteger, valueOf_digitsOf]
  split <;> omega

theorem two_le_length_writtenExponent (d : Digits) : 2 ≤ d.writtenExponent.digits.length := by
  simp only [writtenExponent, padInteger, List.length_append, List.length_replicate]
  omega

section Layouts

variable {limit : ℤ}

/-- Plain layouts differ in where the point is. -/
theorem isGeneral_plain (h : -4 ≤ d.exponent ∧ d.exponent < limit) {p : PlainDigits}
    (hvalue : p.value = d.value) (hne : p.integer ≠ []) : d.IsGeneral limit ⟨p, none⟩ where
  value_eq := by simp [WrittenNumber.value, hvalue]
  isComplete := ⟨hne, by simp⟩
  exponent_eq_none_iff := by simpa using h
  lead := by simp
  two_le_exponent := by simp

theorem isGeneral_scientific (h : ¬(-4 ≤ d.exponent ∧ d.exponent < limit)) {lead : Digit}
    {rest : List Digit} (hdigits : d.digits = lead :: rest) (hlead : lead ≠ 0) :
    d.IsGeneral limit ⟨⟨[lead], rest⟩, some d.writtenExponent⟩ where
  value_eq := by
    rw [WrittenNumber.value, Option.elim_some, value_writtenExponent, value_lead hdigits]
  isComplete := by
    refine ⟨by simp, ?_⟩
    rintro _ ⟨⟩
    exact List.ne_nil_of_length_pos (by have := d.two_le_length_writtenExponent; omega)
  exponent_eq_none_iff := by simpa using h
  lead := by
    rintro _ ⟨⟩
    exact ⟨lead, hlead, rfl⟩
  two_le_exponent := by
    rintro _ ⟨⟩
    exact d.two_le_length_writtenExponent

/-- **General notation writes the digits exactly**, with an exponent where they are small
or reach the limit. -/
theorem exists_generalText_eq (c : Culture) (upper : Bool) (limit : ℤ) (hd : d.IsTrimmed)
    (hne : d.digits ≠ []) :
    ∃ n : WrittenNumber, generalText c upper limit d = n.text c upper ∧ d.IsGeneral limit n := by
  obtain ⟨lead, rest, hdigits⟩ := List.exists_cons_of_ne_nil hne
  have hlead : lead ≠ 0 := by simpa [hdigits] using hd.head?_ne
  unfold generalText
  rw [hdigits]
  dsimp only
  rw [← hdigits]
  split
  · next hplain =>
    split
    · next hpoint =>
      refine ⟨_, ?_, isGeneral_plain hplain (value_leadingZeros hpoint) (by simp)⟩
      simp [WrittenNumber.text, fractionPart, hne, digitText, Digit.char_zero]
    · next hpoint =>
      refine ⟨_, ?_, isGeneral_plain hplain (value_split (not_le.1 hpoint)) ?_⟩
      · simp [WrittenNumber.text]
      · simp [hne]
        omega
  · next hscientific =>
    refine ⟨_, ?_, isGeneral_scientific hscientific hdigits hlead⟩
    rw [WrittenNumber.text, Option.elim_some, text_writtenExponent]
    rfl

end Layouts

theorem isComplete_zero : (WrittenNumber.mk ⟨[0], []⟩ none).IsComplete :=
  ⟨by simp, by simp⟩

/-- **What general notation writes is read as the number**, and zero without a sign. -/
theorem readNumber?_generalText {c : Culture} (hc : c.IsLegible) (upper : Bool) (limit : ℤ)
    (hd : d.IsTrimmed) (negative : Bool) :
    readNumber? c (withSign c (negative && !d.isZero) (generalText c upper limit d)) =
      some (if negative then -d.value else d.value) := by
  by_cases hne : d.digits = []
  · have htext : generalText c upper limit d =
        (WrittenNumber.mk ⟨[0], []⟩ none).text c upper := by
      rw [generalText, hne]
      rfl
    have hzero : d.isZero = true := by simp [isZero, hne]
    rw [htext, hc.readNumber?_withSign isComplete_zero, hzero, value_of_nil hne]
    simp [WrittenNumber.value, PlainDigits.value, valueOf]
  · obtain ⟨n, htext, hn⟩ := exists_generalText_eq c upper limit hd hne
    have hzero : d.isZero = false := by simp [isZero, hne]
    rw [htext, hc.readNumber?_withSign hn.isComplete, hzero, hn.value_eq]
    simp

end Digits

/-! ## The formats -/

/-- The significant digits that general notation asks for with a precision. Without one,
or with zero, there are fifteen. -/
def generalPrecision (precision : Text) : ℕ :=
  if readNumeral precision = 0 then 15 else readNumeral precision

theorem StandardFormat.render_general (lowercase : Bool) (precision : Text) (c : Culture)
    (x : Float) :
    render ⟨.general, lowercase, if precision = [] then none else some (readNumeral precision)⟩
      c x =
      let d := (Digits.ofFloat x).roundDigits (generalPrecision precision)
      withSign c (x < 0.0 && !d.isZero)
        (generalText c (!lowercase) (generalPrecision precision) d) := by
  unfold generalPrecision
  split
  · next hnil =>
    rw [hnil]
    rfl
  · cases readNumeral precision <;> rfl

section Formats

variable {options : FormatOptions} {letter : Char} {precision : Text} {x : Float}

/-- **Round-trip notation** is read as the shortest decimal. -/
theorem readNumber?_roundTrip (hc : options.culture.IsLegible)
    (hletter : letter = 'R' ∨ letter = 'r') (hlength : precision.length ≤ 2)
    (hdigits : ∀ c ∈ precision, c.isDigit) (hx : x.isFinite) :
    ∃ text, formatNumber options (letter :: precision) x = .ok text ∧
      readNumber? options.culture text = some (signed x (Digits.shortest x).value) := by
  have hstyle : StandardStyle.ofLetter? letter = some .roundTrip ∧ letter.isAlpha := by
    rcases hletter with rfl | rfl <;> decide
  refine ⟨_, formatNumber_letter hstyle.1 hstyle.2 hlength hdigits options hx, ?_⟩
  simp only [StandardFormat.render]
  rw [Digits.readNumber?_generalText hc _ _ (Digits.isTrimmed_shortest x)]
  simp [signed]

/-- **General notation** is read as the shortest decimal, rounded to the digits that are
trusted and then to those that are asked for. -/
theorem readNumber?_general (hc : options.culture.IsLegible)
    (hletter : letter = 'G' ∨ letter = 'g') (hlength : precision.length ≤ 2)
    (hdigits : ∀ c ∈ precision, c.isDigit) (hx : x.isFinite) :
    ∃ text, formatNumber options (letter :: precision) x = .ok text ∧
      readNumber? options.culture text = some (signed x
        (roundSignificant (generalPrecision precision)
          (roundSignificant 16 (Digits.shortest x).value))) := by
  have hstyle : StandardStyle.ofLetter? letter = some .general ∧ letter.isAlpha := by
    rcases hletter with rfl | rfl <;> decide
  refine ⟨_, formatNumber_letter hstyle.1 hstyle.2 hlength hdigits options hx, ?_⟩
  have hofFloat := Digits.isTrimmed_ofFloat x
  have hrounded (count : ℕ) : ((Digits.ofFloat x).roundDigits count).value =
      roundSignificant count (roundSignificant 16 (Digits.shortest x).value) := by
    rw [Digits.value_roundDigits hofFloat.head?_ne, Digits.ofFloat,
      Digits.value_roundDigits (Digits.isTrimmed_shortest x).head?_ne]
    rfl
  have htrimmed (count : ℕ) : ((Digits.ofFloat x).roundDigits count).IsTrimmed :=
    Digits.isTrimmed_keepDigits hofFloat _
  rw [StandardFormat.render_general]
  dsimp only
  rw [Digits.readNumber?_generalText hc _ _ (htrimmed _), hrounded]
  simp [signed]

end Formats

/-- **General and round-trip notation denote their digits exactly.** The layouts write
all digits they are given. In United States English a text in round-trip notation is
read as the shortest decimal of the double, and so as the double; one in general notation
is read as that decimal, rounded to sixteen digits and then to those asked for. -/
theorem general_exact :
    (∀ (c : Culture) (upper : Bool) (limit : ℤ) (d : Digits), d.IsTrimmed → d.digits ≠ [] →
      (∃ n : WrittenNumber, generalText c upper limit d = n.text c upper ∧
        d.IsGeneral limit n) ∧
      (c.IsLegible → readNumber? c (generalText c upper limit d) = some d.value)) ∧
    ∀ (options : FormatOptions) (x : Float) (letter : Char) (precision : Text),
      options.culture = .enUS → x.isFinite → precision.length ≤ 2 →
      (∀ c ∈ precision, c.isDigit) →
      (letter = 'R' ∨ letter = 'r' →
        ∃ text, formatNumber options (letter :: precision) x = .ok text ∧
          readNumber? .enUS text = some (signed x (Digits.shortest x).value) ∧
          (Digits.shortest x).IsShortestOf x) ∧
      (letter = 'G' ∨ letter = 'g' →
        ∃ text, formatNumber options (letter :: precision) x = .ok text ∧
          readNumber? .enUS text = some (signed x
            (roundSignificant (generalPrecision precision)
              (roundSignificant 16 (Digits.shortest x).value)))) := by
  constructor
  · intro c upper limit d hd hne
    exact ⟨Digits.exists_generalText_eq c upper limit hd hne,
      fun hc => Digits.readNumber?_generalText hc upper limit hd false⟩
  · intro options x letter precision hculture hx hlength hdigits
    have hc : options.culture.IsLegible := hculture ▸ Culture.isLegible_enUS
    constructor <;> intro hletter
    · obtain ⟨text, hformat, hread⟩ := readNumber?_roundTrip hc hletter hlength hdigits hx
      exact ⟨text, hformat, hculture ▸ hread, Digits.isShortestOf_shortest hx⟩
    · rw [← hculture]
      exact readNumber?_general hc hletter hlength hdigits hx

/-- Fifteen hundred-millionths are read from a text with an exponent, and a tenth below
zero from its round-trip text and from three digits. -/
theorem general_exact_tenth :
    let d : Digits := ⟨[1, 5], -6⟩
    d.IsTrimmed ∧ d.digits ≠ [] ∧ Culture.enUS.IsLegible ∧
      generalText .enUS true 15 d = "1.5E-07".toList ∧
      readNumber? .enUS (generalText .enUS true 15 d) = some d.value ∧
      (-0.1 : Float).isFinite ∧ FormatOptions.standard.culture = .enUS ∧
      (['3'] : Text).length ≤ 2 ∧ (∀ c ∈ (['3'] : Text), c.isDigit) ∧
      (∃ text, formatNumber .standard ['R'] (-0.1) = .ok text ∧
        readNumber? .enUS text = some (signed (-0.1) (Digits.shortest (-0.1)).value) ∧
        (Digits.shortest (-0.1)).IsShortestOf (-0.1)) ∧
      ∃ text, formatNumber .standard ['G', '3'] (-0.1) = .ok text ∧
        readNumber? .enUS text = some (signed (-0.1) (roundSignificant (generalPrecision ['3'])
          (roundSignificant 16 (Digits.shortest (-0.1)).value))) := by
  have hd : (⟨[1, 5], -6⟩ : Digits).IsTrimmed := ⟨by decide, by decide⟩
  have hfinite : (-0.1 : Float).isFinite := by decide +kernel
  have hdigits : ∀ c ∈ (['3'] : Text), c.isDigit := by simp
  have hplain := general_exact.1 .enUS true 15 _ hd (by decide)
  have hround := general_exact.2 .standard (-0.1) 'R' [] rfl hfinite (by decide) (by simp)
  have hgeneral := general_exact.2 .standard (-0.1) 'G' ['3'] rfl hfinite (by decide) hdigits
  exact ⟨hd, by decide, Culture.isLegible_enUS, by decide +kernel,
    hplain.2 Culture.isLegible_enUS, hfinite, rfl, by decide, hdigits, hround.1 (.inl rfl),
    hgeneral.2 (.inl rfl)⟩

end TickLabels
