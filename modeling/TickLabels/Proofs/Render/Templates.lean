import TickLabels.Proofs.Render.Sign
/-!
# Numbers in templates

A template is given the number in its slot, and leaves alone what stands around the number.
What it is given does not depend on the template (`NumberFormat.template_wraps_number`): the
section that shows the number, its sign and its digits are settled before. Only exponent
markers are ignored where there is a template.
-/

namespace TickLabels

/-- Text that a template changes in one place only: `number` is put into it. -/
structure Wraps (text : Option Text → Text) (before number after : Text) : Prop where
  text_none : text none = before ++ number ++ after
  text_some : ∀ template, text (some template) = before ++ fillTemplate number template ++ after

/-- The bare slot is the neutral template. -/
theorem Wraps.text_slot {text : Option Text → Text} {before number after : Text}
    (h : Wraps text before number after) : text (some ['{', '0', '}']) = text none := by
  rw [h.text_some, h.text_none, fillTemplate_slot]

namespace SectionText

variable {r : SectionText}

/-- **A section with a number** is wrapped around the template. -/
theorem wraps_text (h : r.holdsNumber = true) (c : Culture) (negative : Bool) :
    Wraps (fun template? => withSign c negative (r.text template?))
      (withSign c negative r.before) r.number r.after := by
  constructor
  · cases negative <;> simp [withSign, text]
  · intro template
    cases negative <;> simp [withSign, text, h]

/-- One without a number takes no template. -/
theorem text_eq_text_none (h : r.holdsNumber = false) (template? : Option Text) :
    r.text template? = r.text none := by
  cases template? <;> simp [text, h]

end SectionText

namespace Section

/-- The parts of a number in plain notation, if there is an item of it. -/
theorem renderPlain_of_some {s : Section} {c : Culture} {scaled : Float} {parts : Parts}
    (h : numberParts? (s.items.zip (s.plainContributions c scaled)) = some parts) :
    s.renderPlain c scaled = ⟨parts.before, parts.number, parts.after,
      ((Digits.ofFloat scaled).plain (Item.fractionPlaceholders s.items).length).isZero, true⟩ := by
  unfold plainContributions at h
  simp only [renderPlain, h]

theorem holdsNumber_renderPlain (s : Section) (c : Culture) (scaled : Float) :
    (s.renderPlain c scaled).holdsNumber = s.items.any Item.isNumberPart := by
  have hnone := numberParts?_eq_none_iff (s.length_plainContributions c scaled)
  cases hparts : numberParts? (s.items.zip (s.plainContributions c scaled)) with
  | some parts =>
    rw [renderPlain_of_some hparts]
    rw [hparts] at hnone
    simpa using hnone
  | none =>
    rw [hnone.1 hparts]
    unfold plainContributions at hparts
    simp only [renderPlain, hparts]

/-- **What is nothing with an exponent is nothing without one.** -/
theorem shownNumber_plain_eq_zero {s : Section} {x : Float} (h : s.shownNumber false x = 0) :
    s.shownNumber true x = 0 := by
  have hnonneg : 0 ≤ trustedValue (x * s.scale) :=
    Digits.value_ofFloat_eq (x * s.scale) ▸ Digits.value_nonneg _
  unfold shownNumber at h ⊢
  dsimp only at h ⊢
  cases hparts : s.exponentParts? false with
  | none => rwa [hparts] at h
  | some parts =>
    rw [hparts] at h
    dsimp only at h
    rw [roundSignificant_eq_zero_iff (Nat.le_add_left _ _) hnonneg] at h
    rw [h]
    exact roundTo_zero _

/-- Without a marker to be ignored a template makes no difference. -/
theorem shownNumber_plain {s : Section} (h : ∀ item ∈ s.items, item.isMarker = false) (x : Float) :
    s.shownNumber true x = s.shownNumber false x := by
  have hparts : s.exponentParts? false = none := atMarker?_eq_none h
  simp only [shownNumber, hparts]
  rfl

end Section

namespace CustomFormat

/-- The section that shows a number, and the magnitude it shows: where zero has a section
of its own, this is zero for what is rounded to it. -/
def shownBy (f : CustomFormat) (plain : Bool) (v : Float) : Section × Float :=
  if (v != 0.0) = true ∧ f.ownZero = true ∧ (f.select v).shownNumber plain v.abs = 0 then
    (f.select 0.0, 0.0)
  else (f.select v, v.abs)

/-- The number is shown with a sign in front. -/
def showsSign (f : CustomFormat) (plain : Bool) (v : Float) : Bool :=
  v < 0.0 && !f.ownNegative && (f.select v).shownNumber plain v.abs ≠ 0

variable {f : CustomFormat} {c : Culture} {v : Float}

/-- **A number is shown by one section**, with its sign in front. -/
theorem render_eq_shownBy (f : CustomFormat) (c : Culture) (template? : Option Text) (v : Float) :
    f.render c template? v = withSign c (f.showsSign template?.isSome v)
      (((f.shownBy template?.isSome v).1.render c template?.isSome
        (f.shownBy template?.isSome v).2).text template?) := by
  unfold showsSign shownBy
  by_cases hshown : (f.select v).shownNumber template?.isSome v.abs = 0
  · by_cases hzero : (v != 0.0) = true ∧ f.ownZero = true
    · rw [render_eq_render_zero hzero.1 hzero.2 hshown, render_zero,
        if_pos ⟨hzero.1, hzero.2, hshown⟩]
      simp [withSign, hshown]
    · have hkept : ¬ (v != 0.0 && (decide True) && f.ownZero) = true := by simpa using hzero
      rw [if_neg fun h => hzero ⟨h.1, h.2.1⟩, render, Section.isZero_render]
      simp only [hshown, if_neg hkept]
      simp [withSign]
  · rw [render_of_ne_zero hshown, if_neg fun h => hshown h.2.2]
    simp [hshown]

/-- **The same section shows a number in a template**, if it has no exponent marker to be
ignored. The section for its sign may have one: if it shows nothing but zeros with the
exponent, it does so without. -/
theorem shownBy_plain (h : ∀ item ∈ (f.shownBy false v).1.items, item.isMarker = false) :
    f.shownBy true v = f.shownBy false v ∧ f.showsSign true v = f.showsSign false v := by
  by_cases hzero : (f.select v).shownNumber false v.abs = 0
  · have hplain := Section.shownNumber_plain_eq_zero hzero
    simp only [shownBy, showsSign, hzero, hplain, and_self]
  · have hselect : f.shownBy false v = (f.select v, v.abs) := if_neg fun hall => hzero hall.2.2
    rw [hselect] at h
    have hplain := Section.shownNumber_plain h v.abs
    simp only [shownBy, showsSign, hplain, and_self]

/-- A number in plain notation, in a template or without one. -/
theorem render_of_plain (h : ∀ item ∈ (f.shownBy false v).1.items, item.isMarker = false)
    (template? : Option Text) :
    f.render c template? v = withSign c (f.showsSign false v)
      (((f.shownBy false v).1.renderPlain c
        ((f.shownBy false v).2 * (f.shownBy false v).1.scale)).text template?) := by
  obtain ⟨hsection, hsign⟩ := shownBy_plain h
  have hnone : Section.atMarker? (f.shownBy false v).1.items = none := Section.atMarker?_eq_none h
  rw [render_eq_shownBy]
  cases template? with
  | none => rw [Option.isSome_none, Section.render_eq_renderPlain (.inr hnone)]
  | some template =>
    rw [Option.isSome_some, hsection, hsign, Section.render_eq_renderPlain (.inl rfl)]

/-- **A number is wrapped** in what stands around its items, with its sign. -/
theorem exists_wraps (hmarker : ∀ item ∈ (f.shownBy false v).1.items, item.isMarker = false)
    (hnumber : (f.shownBy false v).1.items.any Item.isNumberPart = true) :
    let s := (f.shownBy false v).1
    ∃ parts, numberParts? (s.items.zip
        (s.plainContributions c ((f.shownBy false v).2 * s.scale))) = some parts ∧
      Wraps (fun template? => f.render c template? v)
        (withSign c (f.showsSign false v) parts.before) parts.number parts.after := by
  intro s
  have hsome := mt (Section.numberParts?_eq_none_iff
    (s.length_plainContributions c ((f.shownBy false v).2 * s.scale))).1 (by simp [s, hnumber])
  obtain ⟨parts, hparts⟩ := Option.ne_none_iff_exists'.1 hsome
  refine ⟨parts, hparts, ?_⟩
  simp only [render_of_plain hmarker, s, Section.renderPlain_of_some hparts]
  exact SectionText.wraps_text rfl c _

/-- **Without an item of the number there is no place for a template.** -/
theorem render_eq_render_none
    (hmarker : ∀ item ∈ (f.shownBy false v).1.items, item.isMarker = false)
    (hnumber : (f.shownBy false v).1.items.any Item.isNumberPart = false)
    (template? : Option Text) : f.render c template? v = f.render c none v := by
  rw [render_of_plain hmarker, render_of_plain hmarker, SectionText.text_eq_text_none
    ((Section.holdsNumber_renderPlain _ c _).trans hnumber) template?]

/-- This holds of all templates also where a marker is ignored for them. -/
theorem render_some_eq (hnumber : (f.shownBy true v).1.items.any Item.isNumberPart = false)
    (template template' : Text) :
    f.render c (some template) v = f.render c (some template') v := by
  have hnone : ((f.shownBy true v).1.render c true (f.shownBy true v).2).holdsNumber = false := by
    rw [Section.render_eq_renderPlain (.inl rfl), Section.holdsNumber_renderPlain, hnumber]
  rw [render_eq_shownBy, render_eq_shownBy, Option.isSome_some, Option.isSome_some,
    SectionText.text_eq_text_none hnone (some template),
    SectionText.text_eq_text_none hnone (some template')]

end CustomFormat

/-- **A template is wrapped around one part of the text**, the same for all templates. In a
standard notation this is the whole text. In a custom format whose section for the number
has no exponent marker it is what the section shows from the first item of the number to the
last; without such an item templates are ignored. -/
theorem NumberFormat.template_wraps_number (c : Culture) {v : Float} (hv : v.isFinite) :
    (∀ f : StandardFormat,
      let text := fun template? => (standard f).format c template? v
      Wraps text [] (text none) [] ∧ text (some ['{', '0', '}']) = text none) ∧
    ∀ f : CustomFormat,
      let text := fun template? => (custom f).format c template? v
      let s := (f.shownBy false v).1
      let contributions := s.plainContributions c ((f.shownBy false v).2 * s.scale)
      ((∀ item ∈ s.items, item.isMarker = false) →
        (s.items.any Item.isNumberPart = true →
          ∃ parts, numberParts? (s.items.zip contributions) = some parts ∧
            Wraps text (withSign c (f.showsSign false v) parts.before) parts.number parts.after) ∧
        (s.items.any Item.isNumberPart = false → ∀ template, text (some template) = text none) ∧
        text (some ['{', '0', '}']) = text none) ∧
      ((f.shownBy true v).1.items.any Item.isNumberPart = false →
        ∀ template template', text (some template) = text (some template')) := by
  constructor
  · intro f text
    have hwraps : Wraps text [] (text none) [] := by
      simp only [text, format, symbolFor?_of_isFinite hv]
      exact ⟨by simp, by simp⟩
    exact ⟨hwraps, hwraps.text_slot⟩
  · intro f text s contributions
    have htext : text = fun template? => f.render c template? v :=
      funext fun template? => format_custom hv f c template?
    rw [htext]
    refine ⟨fun hmarker => ⟨CustomFormat.exists_wraps hmarker, fun hnone template =>
      CustomFormat.render_eq_render_none hmarker hnone _, ?_⟩, CustomFormat.render_some_eq⟩
    cases hany : s.items.any Item.isNumberPart with
    | true =>
      obtain ⟨parts, -, hwraps⟩ := CustomFormat.exists_wraps (c := c) hmarker hany
      exact hwraps.text_slot
    | false => exact CustomFormat.render_eq_render_none hmarker hany _

/-- Thousands of a unit: the letter of the template stands next to the number, and the unit
behind it. -/
theorem NumberFormat.template_wraps_number_kilograms :
    let f := CustomFormat.ofText "+#,0.0 kg".toList
    let s := (f.shownBy false 1234.5).1
    let text := fun template? => (custom f).format .enUS template? 1234.5
    (1234.5 : Float).isFinite ∧
      s.items = [.literal ['+'], .hash, .comma, .zero, .point, .zero, .literal " kg".toList] ∧
      Wraps text "+".toList "1,234.5".toList " kg".toList ∧
      text (some "\x7b0\x7dK".toList) = "+1,234.5K kg".toList := by
  intro f s text
  have hfinite : (1234.5 : Float).isFinite := by decide +kernel
  have hlex : lex "+#,0.0 kg".toList = [.literal '+', .hash, .comma, .zero, .point, .zero,
      .literal ' ', .literal 'k', .literal 'g'] :=
    lex_of_readAlone (List.all_eq_true.1 (by decide))
  have hsemicolon : Token.semicolon ∉ lex "+#,0.0 kg".toList := by
    rw [hlex]
    decide
  have hshown : f.shownBy false 1234.5 = (.ofText "+#,0.0 kg".toList, 1234.5) := by
    have hown : f.ownZero = false := CustomFormat.ownZero_of_not_mem hsemicolon
    rw [CustomFormat.shownBy, if_neg (by simp [hown]), CustomFormat.select_of_not_mem hsemicolon,
      show (1234.5 : Float).abs = 1234.5 by decide +kernel]
  have hitems : s.items =
      [.literal ['+'], .hash, .comma, .zero, .point, .zero, .literal " kg".toList] := by
    simp only [s, hshown]
    rw [Section.ofText, hlex]
    rfl
  have hscale : s.scale = 1.0 := by
    simp only [s, hshown]
    rw [Section.scale_ofText hsemicolon, hlex, show Token.scalingCommas _ = 0 from rfl, power_zero]
    decide +kernel
  have hsign : f.showsSign false 1234.5 = false := by
    rw [CustomFormat.showsSign, show decide ((1234.5 : Float) < 0.0) = false by decide +kernel]
    rfl
  have hmarker : ∀ item ∈ s.items, item.isMarker = false := by
    rw [hitems]
    decide
  obtain ⟨parts, hparts, hwraps⟩ :=
    (((template_wraps_number .enUS hfinite).2 f).1 hmarker).1 (by rw [hitems]; decide)
  have hcontributions : s.plainContributions .enUS ((f.shownBy false 1234.5).2 * s.scale) =
      ["+".toList, "1,23".toList, [], ['4'], ['.'], ['5'], " kg".toList] := by
    rw [Section.plainContributions, Section.plainSupply, Section.groupsDigits,
      Section.integerItems, hitems, hscale, hshown]
    decide +kernel
  have hnumber : parts = ⟨"+".toList, "1,234.5".toList, " kg".toList⟩ := by
    rw [hcontributions, hitems] at hparts
    exact (Option.some.inj hparts).symm
  rw [hnumber, hsign] at hwraps
  exact ⟨hfinite, hitems, hwraps, hwraps.text_some _⟩

end TickLabels
