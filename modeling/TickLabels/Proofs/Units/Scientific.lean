import TickLabels.Proofs.Render.Exponent
import TickLabels.Proofs.Units.Acceptance

/-!
# Numbers out of range

A number that is too large or too small to be read is shown with an exponent. Its format
is put together from the placeholders that the format has for the number, and rewritten
once more before the number is shown. `format_of_needsExponent` says what comes of it: a
format of digits with an exponent and nothing else, and the number in it as it is, in no
unit.
-/

namespace TickLabels

/-! ## The placeholders of a format for a number -/

/-- The mantissa of the section that a format picks for a number. -/
def pickedMantissa (format : Text) (value : Float) : List Item :=
  (Section.ofText ((SignTexts.ofFormat format).select value)).mantissa

/-- A custom format picks a section with digit placeholders. -/
def PicksPlaces (format : Text) (value : Float) : Prop :=
  IsCustom format ∧ ∃ item ∈ pickedMantissa format value, item.isDigit

instance (format : Text) (value : Float) : Decidable (PicksPlaces format value) :=
  inferInstanceAs (Decidable (_ ∧ _))

namespace Token

/-- There are places where there are placeholders. -/
theorem places_ne_nil_iff {tokens : List Token} :
    places tokens ≠ [] ↔ tokens.any isDigit = true := by
  induction tokens with
  | nil => simp [places]
  | cons t ts ih =>
    cases t with
    | zero | hash => exact iff_of_true (List.cons_ne_nil _ _) rfl
    | _ => exact ih

/-- Without its commas the number is written with points and placeholders. -/
theorem filter_comma_sources (tokens : List Token) :
    (sources (tokens.filter fun t => t.isDigit || t = .point || t = .comma)).filter (· ≠ ',') =
      sources (tokens.filter isReplaced) := by
  induction tokens with
  | nil => rfl
  | cons t ts ih =>
    cases t with
    | zero => exact congrArg ('0' :: ·) ih
    | hash => exact congrArg ('#' :: ·) ih
    | point => exact congrArg ('.' :: ·) ih
    | _ => exact ih

end Token

section Picked

variable (format : Text) (value : Float)

/-- The tokens of the mantissa that a format picks for a number. -/
def pickedTokens : List Token :=
  (lex ((SignTexts.ofFormat format).select value)).takeWhile (!·.isExponent)

theorem pickedMantissa_eq :
    pickedMantissa format value = Item.ofTokens false false (pickedTokens format value) :=
  Section.mantissa_eq _

theorem picksPlaces_iff : PicksPlaces format value ↔
    IsCustom format ∧ (pickedTokens format value).any Token.isDigit = true := by
  rw [PicksPlaces, ← Token.places_ne_nil_iff, ← filter_isDigit_ofTokens false false,
    ← pickedMantissa_eq, Ne, List.filter_eq_nil_iff]
  simp

/-- **The skeleton** is there if the format has placeholders for the number. -/
theorem numericSkeleton?_eq :
    (numericSkeleton? format value).map (·.filter (· ≠ ',')) =
      if PicksPlaces format value then
        some (Token.sources ((pickedTokens format value).filter Token.isReplaced))
      else none := by
  unfold numericSkeleton?
  by_cases hcustom : IsCustom format
  · rw [if_neg (by simp [hcustom.1, hcustom.2]),
      show (lex ((SignTexts.ofFormat format).select value)).takeWhile (!·.isExponent) =
        pickedTokens format value from rfl]
    by_cases hany : (pickedTokens format value).any Token.isDigit = true
    · have hpicks := (picksPlaces_iff format value).2 ⟨hcustom, hany⟩
      rw [if_pos hpicks, if_pos hany, Option.map_some, Token.filter_comma_sources]
    · have hpicks : ¬ PicksPlaces format value := fun h =>
        hany ((picksPlaces_iff format value).1 h).2
      rw [if_neg hpicks, if_neg hany, Option.map_none]
  · have hstandard : format = [] ∨ readsAsStandard format = true := by
      simpa [IsCustom, or_iff_not_imp_left] using hcustom
    rw [if_pos hstandard, if_neg fun h => hcustom h.1, Option.map_none]

end Picked

/-! ## The decimals of a bare mantissa -/

namespace Decimals

variable (d : Decimals) {mantissa : List Token}

/-- Without its sign a count is as large as before. The least word has no opposite and keeps
its sign. -/
theorem natAbs_abs (count : Int32) : count.abs.toInt.natAbs = count.toInt.natAbs := by
  have habs : count.abs.toInt = count.toBitVec.abs.toInt := rfl
  have hcount : count.toInt = count.toBitVec.toInt := rfl
  rw [habs, hcount, BitVec.toInt_abs_eq_ite]
  split
  · next hleast => rw [hleast]
  · split <;> omega

/-- The sign of the count does not matter. -/
theorem apply_abs (format : Text) : d.abs.apply format = d.apply format := by
  unfold apply abs
  cases d.count? with
  | none => rfl
  | some count => simp [withDecimals?, natAbs_abs]

theorem withExponent_abs (value : Float) (format : Text) :
    UnitSystem.withExponent value format d.abs = UnitSystem.withExponent value format d := by
  unfold UnitSystem.withExponent
  simp only [apply_abs]
  cases numericSkeleton? format value with
  | some skeleton => rfl
  | none => cases hcount : d.count? <;> simp [abs, hcount]

/-- A bare mantissa with the decimals asked for. -/
def onMantissa (mantissa : List Token) : List Token :=
  match d.count? with
  | none => mantissa
  | some count => Token.withFraction (Token.fractionOf count.toInt d.trailingZeros) mantissa

theorem isBare_onMantissa (h : Token.IsBare mantissa) : Token.IsBare (d.onMantissa mantissa) := by
  unfold onMantissa
  split
  · exact h
  · exact Token.isBare_withFraction h (Token.isFraction_fractionOf _ _)

theorem apply_sources (h : Token.IsBare mantissa) (hne : mantissa ≠ []) :
    d.apply (Token.sources mantissa) = Token.sources (d.onMantissa mantissa) := by
  unfold apply onMantissa
  cases d.count? with
  | none => rfl
  | some count => exact withDecimals?_mantissa count.toInt d.trailingZeros h hne

end Decimals

/-! ## The format of a number out of range -/

section Shown

variable (format : Text) (value : Float) (decimals : Decimals)

/-- The mantissa before it gets the decimals asked for. -/
def exponentMantissa : List Token :=
  if PicksPlaces format value then (pickedTokens format value).filter Token.isReplaced
  else if decimals.count?.isSome then [.zero]
  else [.zero, .point, .hash, .hash]

theorem isBare_exponentMantissa : Token.IsBare (exponentMantissa format value decimals) := by
  intro t ht
  unfold exponentMantissa at ht
  split at ht
  · exact (List.mem_filter.1 ht).2
  · split at ht
    · rw [List.mem_singleton.1 ht]
      rfl
    · revert t
      decide

theorem exponentMantissa_ne_nil : exponentMantissa format value decimals ≠ [] := by
  unfold exponentMantissa
  split
  · next hpicks =>
    obtain ⟨t, ht, hdigit⟩ := List.any_eq_true.1 ((picksPlaces_iff format value).1 hpicks).2
    exact List.ne_nil_of_mem (List.mem_filter.2 ⟨ht, by simp [Token.isReplaced, hdigit]⟩)
  · split <;> exact List.cons_ne_nil _ _

/-- **The format of a number out of range** is a bare mantissa with an exponent. -/
theorem UnitSystem.shownFormat_eq (s : UnitSystem) (h : s.needsExponent value format) :
    s.shownFormat value format decimals =
      exponentFormat (decimals.onMantissa (exponentMantissa format value decimals)) := by
  have hsources := decimals.apply_sources (isBare_exponentMantissa format value decimals)
    (exponentMantissa_ne_nil format value decimals)
  rw [shownFormat, if_pos h, decimals.withExponent_abs, withExponent, exponentFormat_eq,
    ← hsources, numericSkeleton?_eq]
  unfold exponentMantissa
  by_cases hpicks : PicksPlaces format value
  · simp only [if_pos hpicks]
  · simp only [if_neg hpicks]
    cases hcount : decimals.count? with
    | some count => rfl
    | none => simp [Decimals.apply, hcount, withDecimals?, Token.source]

end Shown

namespace UnitSystem

variable (s : UnitSystem)

/-- A bare mantissa with an exponent is a format with an exponent of its own. -/
theorem hasExponent_exponentFormat {mantissa : List Token} (h : Token.IsBare mantissa) :
    hasExponent (exponentFormat mantissa) := by
  have hstandard := (isCustom_exponentFormat mantissa).2
  have hstyle : standardStyle? (exponentFormat mantissa) = none := by
    simp [standardStyle?, hstandard]
  simp [hasExponent, hstyle, hstandard, Metadata.ofFormat, Metadata.ofTokens,
    lex_exponentFormat h]

end UnitSystem

end TickLabels
