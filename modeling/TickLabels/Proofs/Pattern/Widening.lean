import TickLabels.Proofs.Pattern.Overwriting

/-!
# Widening the fraction of a format

A custom format shown in larger units gets more optional decimals behind those it was
written with. Each section with a place for them keeps what it found
(`Section.Widened`), since its old placeholders are written in front of the new ones
where its fraction belongs, and what is not a placeholder stands behind them as before.
A point is always written, so that widening twice is widening once, by both amounts.
-/

namespace TickLabels

namespace Token

/-- The tokens of a fraction with `extra` more optional placeholders. -/
def widenedFraction (extra : Nat) (digits : List Token) : List Token :=
  .point :: (digits ++ List.replicate extra .hash)

variable (extra : Nat)

theorem sources_widenedFraction (digits : List Token) :
    '.' :: (sources digits ++ List.replicate extra '#') =
      sources (widenedFraction extra digits) := by
  rw [widenedFraction, sources_cons, sources_append, sources_replicate extra rfl]
  rfl

theorem isDigit_of_mem_widened {digits : List Token} (hdigits : ∀ d ∈ digits, d.isDigit) :
    ∀ d ∈ digits ++ List.replicate extra .hash, d.isDigit := by
  intro d hd
  rcases List.mem_append.1 hd with hd | hd
  · exact hdigits d hd
  · rw [List.eq_of_mem_replicate hd]
    rfl

theorem isFraction_widenedFraction (digits : List Token) (hdigits : ∀ d ∈ digits, d.isDigit) :
    IsFraction (widenedFraction extra digits) :=
  ⟨rfl, isDigit_of_mem_widened extra hdigits⟩

/-- The placeholders alone have the same items. -/
theorem places_filter_isDigit (tokens : List Token) :
    places (tokens.filter isDigit) = places tokens := by
  induction tokens with
  | nil => rfl
  | cons t ts ih =>
    cases t with
    | zero => exact congrArg (Item.zero :: ·) ih
    | hash => exact congrArg (Item.hash :: ·) ih
    | _ => exact ih

end Token

/-- The placeholders behind the point are those of the fraction. -/
theorem Anatomy.places_fractionDigits (a : Anatomy) :
    Token.places a.fractionDigits = Token.places a.fractionPart := by
  unfold fractionDigits fractionPart
  rw [Token.places_filter_isDigit]
  cases a.fraction? <;> rfl

/-! ## One section -/

namespace Section

/-- **The section got a wider fraction**: its placeholders, in order, and `extra` optional
ones behind them. -/
structure Widened (extra : Nat) (old new : Section) : Prop extends SameButFraction old new where
  fractionPlaceholders : Item.fractionPlaceholders new.mantissa =
    Item.fractionPlaceholders old.mantissa ++ List.replicate extra .hash

/-- **What a section becomes** when it is widened, with a digit placeholder or a point
before its exponent marker and without. -/
def BecomesWider (extra : Nat) (old new : Section) : Prop :=
  (old.HasPlaces → Widened extra old new) ∧ (¬ old.HasPlaces → new = old)

theorem BecomesWider.refl (s : Section) : BecomesWider 0 s s :=
  ⟨fun _ => ⟨⟨rfl, rfl, rfl, rfl, rfl, rfl, rfl⟩, (List.append_nil _).symm⟩, fun _ => rfl⟩

variable {old new : Text} {a : Anatomy} {extra : Nat}

/-- **One section is widened.** -/
theorem becomesWider (h : IsRewritten (Token.widenedFraction extra) a old new) :
    BecomesWider extra (ofText old) (ofText new) := by
  unfold BecomesWider
  rw [hasPlaces_iff h.regular h.lex_old]
  cases hplace : a.insertion? with
  | none => exact ⟨fun hsome => (hsome rfl).elim, fun _ => by rw [h.eq_of_none hplace]⟩
  | some parts =>
    refine ⟨fun _ => ?_, fun hnone => (hnone (by simp)).elim⟩
    have hdigits : ∀ d ∈ a.fractionDigits, d.isDigit := fun d hd => (List.mem_filter.1 hd).2
    obtain ⟨hsame, hplaces⟩ :=
      h.sameButFraction_of_point hplace rfl (Token.isDigit_of_mem_widened extra hdigits)
    refine ⟨hsame, ?_⟩
    rw [hplaces, Token.places_append, Anatomy.places_fractionDigits, places_replicate rfl rfl,
      fractionPlaceholders_ofText h.regular h.lex_old]

end Section

/-! ## The whole format -/

/-- **The format was widened.** It is a custom format still, with as many sections, and
each of them has become what it should. -/
structure Widens (extra : Nat) (format new : Text) : Prop where
  isCustom : IsCustom new
  sections : List.Forall₂ (Section.BecomesWider extra)
    ((sectionTexts format).map Section.ofText) ((sectionTexts new).map Section.ofText)

theorem withExtraDecimals_zero (format : Text) : withExtraDecimals 0 format = format :=
  if_pos (.inl rfl)

section Whole

variable {format : Text} (h : IsCustom format) {extra : Nat}

include h

/-- More decimals are put into each section. -/
theorem withExtraDecimals_of_isCustom (hextra : extra ≠ 0) :
    withExtraDecimals extra format =
      changeSections (replaceFraction fun old => '.' :: (old ++ List.replicate extra '#')) format :=
  if_neg (by simp [hextra, h.1, h.2])

theorem widens_withExtraDecimals (extra : Nat) :
    Widens extra format (withExtraDecimals extra format) := by
  by_cases hextra : extra = 0
  · subst hextra
    rw [withExtraDecimals_zero]
    exact ⟨h, List.forall₂_same.2 fun s _ => .refl s⟩
  · rw [withExtraDecimals_of_isCustom h hextra]
    have hsources := Token.sources_widenedFraction extra
    have hfraction := Token.isFraction_widenedFraction extra
    refine ⟨isCustom_changeSections hsources hfraction h (.inr fun _ => List.mem_cons_self ..), ?_⟩
    rw [forall₂_changeSections_iff hsources hfraction]
    exact fun run hrun => Section.becomesWider (isRewritten_section hfraction hrun)

/-- **Widening twice** is widening by both amounts. -/
theorem withExtraDecimals_add (more : Nat) :
    withExtraDecimals more (withExtraDecimals extra format) =
      withExtraDecimals (extra + more) format := by
  by_cases hextra : extra = 0
  · rw [hextra, Nat.zero_add, withExtraDecimals_zero]
  by_cases hmore : more = 0
  · rw [hmore, Nat.add_zero, withExtraDecimals_zero]
  rw [withExtraDecimals_of_isCustom (widens_withExtraDecimals h extra).isCustom hmore,
    withExtraDecimals_of_isCustom h hextra, withExtraDecimals_of_isCustom h (by omega)]
  refine changeSections_changeSections (Token.sources_widenedFraction extra)
    (Token.sources_widenedFraction more) (Token.sources_widenedFraction (extra + more))
    (fun digits hdigits => ⟨_, rfl, Token.isDigit_of_mem_widened extra hdigits, ?_⟩) format
  rw [Token.widenedFraction, List.append_assoc, List.replicate_append_replicate,
    Token.widenedFraction]

/-- **Widening keeps everything it found.** A custom format widened is a custom format
with as many sections. Each section with a digit placeholder or a point before its
exponent marker is the same but for its fraction, which has the new placeholders behind
the old ones; the others are unchanged. Widening again adds to what was asked before. -/
theorem withExtraDecimals_widens (extra : Nat) :
    Widens extra format (withExtraDecimals extra format) ∧
      ∀ more, withExtraDecimals more (withExtraDecimals extra format) =
        withExtraDecimals (extra + more) format :=
  ⟨widens_withExtraDecimals h extra, withExtraDecimals_add h⟩

end Whole

/-- The fraction is interleaved with text, a second point and a comma, and one section
has none. -/
theorem withExtraDecimals_widens_interleaved : IsCustom "#,0,'k'.0.'x'#,%e+0;'none'".toList ∧
    Widens 2 "#,0,'k'.0.'x'#,%e+0;'none'".toList
        (withExtraDecimals 2 "#,0,'k'.0.'x'#,%e+0;'none'".toList) ∧
      ∀ more, withExtraDecimals more (withExtraDecimals 2 "#,0,'k'.0.'x'#,%e+0;'none'".toList) =
        withExtraDecimals (2 + more) "#,0,'k'.0.'x'#,%e+0;'none'".toList :=
  ⟨by decide, withExtraDecimals_widens (by decide) 2⟩

end TickLabels
