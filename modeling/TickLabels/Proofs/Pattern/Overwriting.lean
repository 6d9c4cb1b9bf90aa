import TickLabels.Proofs.Decimal.Numeral
import TickLabels.Proofs.Pattern.Decimals

/-!
# A fraction in place of another

A section with a new fraction is cut where the old one was: its integer ends in front of
the new point, and its placeholders are the new ones (`Anatomy.ofTokens_rewritten`). So a
second fraction comes to stand where the first one stood, and only its placeholders are
seen of the first (`Anatomy.rewritten_rewritten`). The same holds of all sections of a
format together (`changeSections_changeSections`), and of the decimals a format is asked
for the last ones stay.
-/

namespace TickLabels

namespace Anatomy

variable {a : Anatomy} {front back : List Token}

/-- **A fraction belongs where one was put.** -/
theorem insertion?_of_front (hplace : a.insertion? = some (front, back))
    (fraction tail : List Token) :
    (Anatomy.mk front (some fraction) tail).insertion? = some (front, []) := by
  have hcases := place_insertion? a
  rw [hplace] at hcases
  unfold insertion?
  cases hcases with
  | atPoint hdigit hpoint =>
    rw [splitAfterLast_eq_none_iff.2 hdigit]
    rfl
  | @behindDigit init commas _ d hd hcommas hback hstop hinteger =>
    have hnone : ∀ t ∈ commas, t.isDigit = false := fun t ht => hcommas t ht ▸ rfl
    have hall : ∀ t ∈ commas, decide (t = .comma) = true := fun t ht =>
      decide_eq_true (hcommas t ht)
    rw [splitAfterLast_of_last hd hnone]
    simp only [List.takeWhile_eq_self_iff.2 hall, List.dropWhile_eq_nil_iff.2 hall,
      List.append_assoc, List.singleton_append]

/-- **Of two fractions the last one stays**, and of the first it sees the placeholders. -/
theorem rewritten_rewritten {run digits : List Token} {fraction fraction' : List Token → List Token}
    (hfraction : fraction (ofTokens run).fractionDigits = .point :: digits)
    (hdigits : ∀ d ∈ digits, d.isDigit) :
    (ofTokens ((ofTokens run).rewritten fraction)).rewritten fraction' =
      (ofTokens run).rewritten fun _ => fraction' digits := by
  cases hplace : (ofTokens run).insertion? with
  | none =>
    rw [rewritten_of_none hplace, tokens_ofTokens, rewritten_of_none hplace,
      rewritten_of_none hplace]
  | some parts =>
    obtain ⟨front, back⟩ := parts
    have hfirst : (ofTokens run).rewritten fraction =
        (ofTokens run).rewritten fun _ => .point :: digits := rewritten_congr hfraction
    rw [hfirst, ofTokens_rewritten (regular_ofTokens run) hplace hdigits]
    -- What stands behind the new placeholders holds none.
    have hrest : ∀ t ∈ back ++ (ofTokens run).leftover, t.isDigit = false := fun t ht =>
      (List.mem_append.1 ht).elim ((integer_eq_of_insertion? hplace).2.1 t) (isDigit_leftover t)
    have hkept : (digits ++ (back ++ (ofTokens run).leftover)).filter Token.isDigit = digits := by
      rw [List.filter_append, List.filter_eq_self.2 hdigits, List.filter_eq_nil_iff.2
        fun t ht => by simp [hrest t ht], List.append_nil]
    have hleft : (digits ++ (back ++ (ofTokens run).leftover)).filter (!·.isDigit) =
        back ++ (ofTokens run).leftover := by
      rw [List.filter_append, List.filter_eq_nil_iff.2 fun t ht => by simp [hdigits t ht],
        List.filter_eq_self.2 fun t ht => by simp [hrest t ht], List.nil_append]
    simp only [rewritten, rewrittenMantissa, insertion?_of_front hplace, hplace, fractionDigits,
      leftover, Option.getD_some] at hkept hleft ⊢
    rw [hkept, hleft, List.nil_append]

end Anatomy

/-- **A format rewritten twice** is rewritten once, if the first fraction has a point. The
second one is told the placeholders of the first. -/
theorem changeSections_changeSections {change change' change'' : Text → Text}
    {fraction fraction' fraction'' : List Token → List Token}
    (h : ∀ digits, change (Token.sources digits) = Token.sources (fraction digits))
    (h' : ∀ digits, change' (Token.sources digits) = Token.sources (fraction' digits))
    (h'' : ∀ digits, change'' (Token.sources digits) = Token.sources (fraction'' digits))
    (hfraction : ∀ digits, (∀ d ∈ digits, d.isDigit) → ∃ new, fraction digits = .point :: new ∧
      (∀ d ∈ new, d.isDigit) ∧ fraction' new = fraction'' digits) (format : Text) :
    changeSections (replaceFraction change') (changeSections (replaceFraction change) format) =
      changeSections (replaceFraction change'') format := by
  have hvalid : ∀ digits, (∀ d ∈ digits, d.isDigit) → Token.IsFraction (fraction digits) := by
    intro digits hdigits
    obtain ⟨new, hnew, hall, -⟩ := hfraction digits hdigits
    rw [hnew]
    exact ⟨rfl, hall⟩
  rw [changeSections_eq h', changeSections_eq h'', sectionTokens_changeSections h hvalid,
    List.map_map]
  congr 2
  refine List.map_congr_left fun run _ => ?_
  obtain ⟨new, hnew, hall, heq⟩ := hfraction (Anatomy.ofTokens run).fractionDigits
    fun d hd => (List.mem_filter.1 hd).2
  rw [Function.comp_apply, Anatomy.rewritten_rewritten hnew hall]
  exact Anatomy.rewritten_congr heq

/-! ## The decimals of a format -/

theorem length_numeral_le {n width : Nat} (hwidth : 0 < width) (h : n < 10 ^ width) :
    (numeral n).length ≤ width := by
  unfold numeral
  split
  · exact hwidth
  · rw [length_digitText]
    exact length_digitsOf_le_iff.2 h

/-- The letters that take decimals for their precision: all that name a notation but the
one of round trips. -/
def takesPrecision (letter : Char) : Bool :=
  match StandardStyle.ofLetter? letter with
  | some .roundTrip | none => false
  | some _ => true

/-- A standard format with other decimals is a standard format still. -/
theorem withDecimals_standard {letter : Char} {digits : Text}
    (h : readsAsStandard (letter :: digits) = true) (count : Nat) (trailingZeros : Bool) :
    withDecimals count trailingZeros (letter :: digits) =
        (if takesPrecision letter then letter :: numeral (min count maxStandardPrecision)
          else letter :: digits) ∧
      readsAsStandard (letter :: numeral (min count maxStandardPrecision)) = true := by
  have hlength : (numeral (min count maxStandardPrecision)).length ≤ 2 := by
    refine length_numeral_le (by decide) ?_
    rw [maxStandardPrecision]
    omega
  have hdigits : (numeral (min count maxStandardPrecision)).all Char.isDigit = true :=
    List.all_eq_true.2 fun c hc => isDigit_of_mem_numeral hc
  refine ⟨?_, ?_⟩
  · rw [withDecimals, if_neg (List.cons_ne_nil _ _), h, takesPrecision]
    dsimp only
    cases StandardStyle.ofLetter? letter with
    | none => rfl
    | some style => cases style <;> rfl
  · rw [readsAsStandard] at h ⊢
    simp only [Bool.and_eq_true, decide_eq_true_eq] at h ⊢
    exact ⟨⟨h.1.1, hlength⟩, hdigits⟩

section Decimals

variable {first : Int} (hfirst : first ≠ 0) (second : Int) (zeros zeros' : Bool)

include hfirst

/-- Decimals come with a point, behind which the second ones put theirs. -/
theorem withDecimals?_twice_of_isCustom {format : Text} (h : IsCustom format) :
    withDecimals? (some second) zeros' (withDecimals? (some first) zeros format) =
      withDecimals? (some second) zeros' format := by
  have hcustom : IsCustom (withDecimals? (some first) zeros format) :=
    (isCustom_withDecimals?_iff first zeros h).2 fun hzero => hfirst hzero.1
  rw [withDecimals?_of_isCustom second zeros' hcustom, withDecimals?_of_isCustom second zeros' h,
    withDecimals?_of_isCustom first zeros h]
  refine changeSections_changeSections (sources_fraction zeros _) (sources_fraction zeros' _)
    (sources_fraction zeros' _) (fun digits _ => ?_) format
  refine ⟨List.replicate first.natAbs (if zeros then .zero else .hash), ?_, fun d hd => ?_, rfl⟩
  · exact if_neg (by simpa using hfirst)
  · rw [List.eq_of_mem_replicate hd]
    cases zeros <;> rfl

/-- **The last decimals win.** A format that is asked for decimals, and then for others or
none, is the format asked for these alone. So asking again for the same decimals changes
nothing. -/
theorem withDecimals?_withDecimals? (format : Text) :
    withDecimals? (some second) zeros' (withDecimals? (some first) zeros format) =
      withDecimals? (some second) zeros' format := by
  cases format with
  | nil =>
    -- The empty format is a single placeholder here.
    have hzero : IsCustom ['0'] := by decide
    have htwice := withDecimals?_twice_of_isCustom hfirst second zeros zeros' hzero
    exact htwice
  | cons letter digits =>
    cases hstandard : readsAsStandard (letter :: digits) with
    | false =>
      exact withDecimals?_twice_of_isCustom hfirst second zeros zeros' ⟨by simp, hstandard⟩
    | true =>
      simp only [withDecimals?]
      obtain ⟨hnew, hreads⟩ := withDecimals_standard hstandard first.natAbs zeros
      -- A letter with a precision gets the other one, and the others stay as they are.
      by_cases hletter : takesPrecision letter
      · rw [hnew, if_pos hletter, (withDecimals_standard hreads second.natAbs zeros').1,
          (withDecimals_standard hstandard second.natAbs zeros').1, if_pos hletter, if_pos hletter]
      · rw [hnew, if_neg hletter]

end Decimals

/-- The text behind the first fraction and its later point stand behind the last one. -/
theorem withDecimals?_withDecimals?_amount :
    (2 : Int) ≠ 0 ∧
      withDecimals? (some (-3)) true (withDecimals? (some 2) false "#,0.0'm'.#,e0;F".toList) =
        withDecimals? (some (-3)) true "#,0.0'm'.#,e0;F".toList :=
  ⟨by decide, withDecimals?_withDecimals? (by decide) (-3) false true "#,0.0'm'.#,e0;F".toList⟩

end TickLabels
