import TickLabels.Proofs.Render.ScientificNotation
/-!
# The sign of a number

A number is shown without a sign if nothing but zeros is shown of it, and by the section for
zero if there is one. What is shown of a number is the number rounded to the places of its
section (`Section.shownNumber`), and that alone decides (`Section.isZero_render`).
-/

namespace TickLabels

/-! ## Digits that are all zero -/

namespace Digits

theorem isZero_plain (d : Digits) (places : ℕ) :
    (d.plain places).isZero = decide (roundTo (-places) d.value = 0) := by
  rw [Bool.eq_iff_iff, PlainDigits.isZero_iff, value_plain, decide_eq_true_iff]

theorem isZero_scientific {d : Digits} (hd : d.IsTrimmed) (places : ℕ) :
    (d.scientific places).isZero = decide (roundSignificant (places + 1) d.value = 0) :=
  (writes_scientific hd places).isZero_eq

end Digits

/-! ## The number that is shown -/

/-- A double as far as its digits are trusted. What is not finite has no digits. -/
def trustedValue (x : Float) : ℚ :=
  match Magnitude.ofFloat? x with
  | some m => roundSignificant 16 m.shortest.value
  | none => 0

theorem Digits.value_ofFloat_eq (x : Float) : (ofFloat x).value = trustedValue x := by
  unfold trustedValue
  cases hm : Magnitude.ofFloat? x with
  | some m => exact value_ofFloat hm
  | none =>
    rw [ofFloat_of_none hm, value_of_nil rfl]

theorem trustedValue_nonneg (x : Float) : 0 ≤ trustedValue x := by
  rw [← Digits.value_ofFloat_eq]
  exact (Digits.ofFloat x).value_nonneg

/-- A bound with few digits is kept by the digits that are trusted. -/
theorem le_trustedValue {x : Float} {c : ℚ} (hx : x.isFinite) (hc : 0 ≤ c)
    (hdigits : roundSignificant 16 c = c) (h : c ≤ (Digits.shortest x).value) :
    c ≤ trustedValue x := by
  obtain ⟨m, hm⟩ := Magnitude.exists_ofFloat? hx
  rw [Digits.shortest, hm] at h
  rw [trustedValue, hm]
  exact hdigits ▸ roundSignificant_mono (by norm_num) hc h

namespace Section

/-- The items around the exponent marker, if it is not ignored. -/
def exponentParts? (s : Section) (plain : Bool) :
    Option (List Item × ExponentMarker × List Item) :=
  if plain then none else atMarker? s.items

theorem render_eq (s : Section) (c : Culture) (plain : Bool) (magnitude : Float) :
    s.render c plain magnitude =
      match s.exponentParts? plain with
      | some (mantissa, marker, rest) =>
        renderWithExponent c mantissa marker rest (magnitude * s.scale)
      | none => s.renderPlain c (magnitude * s.scale) := by
  cases plain with
  | true => rfl
  | false =>
    simp only [render, exponentParts?]
    cases atMarker? s.items <;> rfl

/-- The number that a section shows for a magnitude, rounded to its decimals, or with an
exponent to one digit more. -/
def shownNumber (s : Section) (plain : Bool) (magnitude : Float) : ℚ :=
  let q := trustedValue (magnitude * s.scale)
  match s.exponentParts? plain with
  | some (mantissa, _, _) => roundSignificant ((Item.fractionPlaceholders mantissa).length + 1) q
  | none => roundTo (-(Item.fractionPlaceholders s.items).length) q

/-- **All digits are zero** if the number that is shown is. -/
theorem isZero_render (s : Section) (c : Culture) (plain : Bool) (magnitude : Float) :
    (s.render c plain magnitude).isZero = decide (s.shownNumber plain magnitude = 0) := by
  rw [render_eq, shownNumber]
  cases s.exponentParts? plain with
  | some parts =>
    rw [isZero_renderWithExponent, Digits.isZero_scientific (Digits.isTrimmed_ofFloat _),
      Digits.value_ofFloat_eq]
  | none => rw [isZero_renderPlain, Digits.isZero_plain, Digits.value_ofFloat_eq]

/-- The digits of the scaled magnitude are all that a section shows of it. -/
theorem render_congr {s : Section} {x y : Float}
    (h : Digits.ofFloat (x * s.scale) = Digits.ofFloat (y * s.scale)) (c : Culture)
    (plain : Bool) : s.render c plain x = s.render c plain y := by
  unfold render renderWithExponent renderPlain
  dsimp only
  rw [h]

theorem shownNumber_congr {s : Section} {x y : Float}
    (h : Magnitude.ofFloat? (x * s.scale) = Magnitude.ofFloat? (y * s.scale)) (plain : Bool) :
    s.shownNumber plain x = s.shownNumber plain y := by
  unfold shownNumber trustedValue
  rw [h]

end Section

/-! ## Numbers and their opposites -/

namespace CustomFormat

theorem select_neg {f : CustomFormat} {v : Float} (hv : v.isFinite) (h : 0.0 < v)
    (hown : f.ownNegative = false) : f.select (-v) = f.select v := by
  obtain ⟨m, e, hm, hu⟩ := unpack_of_pos hv h
  have hneg := unpack_neg_of_finite hu
  have hlt : -v < 0.0 := (lt_zero_iff hneg).2 rfl
  have hnot : ¬ (0.0 : Float) < -v := mt (zero_lt_iff hneg).1 fun hsign => nomatch hsign
  rw [select, select, if_pos h, if_neg hnot, if_pos hlt, hown, if_neg Bool.false_ne_true]

variable {f : CustomFormat} {c : Culture} {template? : Option Text} {value : Float}

/-- Zero is shown by its section. -/
theorem render_zero : f.render c template? 0.0 =
    ((f.select 0.0).render c template?.isSome 0.0).text template? := by
  have hzero : ((0.0 : Float) != 0.0) = false := rfl
  have hneg : ¬ (0.0 : Float) < 0.0 := by decide +kernel
  have habs : (0.0 : Float).abs = 0.0 := rfl
  simp [render, hzero, hneg, habs, withSign]

/-- **What is rounded to zero is shown as zero**, where zero has a section. -/
theorem render_eq_render_zero (hvalue : (value != 0.0) = true) (hown : f.ownZero = true)
    (hshown : (f.select value).shownNumber template?.isSome value.abs = 0) :
    f.render c template? value = f.render c template? 0.0 := by
  rw [render_zero, render, Section.isZero_render, hshown, hvalue, hown]
  rfl

/-- A number that is not rounded to zero is shown by its section, with its sign. -/
theorem render_of_ne_zero
    (hshown : (f.select value).shownNumber template?.isSome value.abs ≠ 0) :
    f.render c template? value = withSign c (value < 0.0 && !f.ownNegative)
      (((f.select value).render c template?.isSome value.abs).text template?) := by
  simp [render, Section.isZero_render, hshown]

/-- One that is has no sign. -/
theorem render_of_eq_zero (hown : f.ownZero = false)
    (hshown : (f.select value).shownNumber template?.isSome value.abs = 0) :
    f.render c template? value =
      ((f.select value).render c template?.isSome value.abs).text template? := by
  simp [render, Section.isZero_render, hshown, hown, withSign]

/-- **A number below zero** is shown as its opposite is, behind a sign unless it is rounded
to zero. -/
theorem render_neg {v : Float} (hv : v.isFinite) (hpos : 0.0 < v) (hown : f.ownNegative = false) :
    f.render c template? (-v) =
      if (f.select v).shownNumber template?.isSome v.abs = 0 then f.render c template? v
      else c.negativeSign ++ f.render c template? v := by
  obtain ⟨m, e, hm, hu⟩ := unpack_of_pos hv hpos
  have hneg := unpack_neg_of_finite hu
  -- The opposite is shown by the same section, which sees the same magnitude.
  have hselect := select_neg hv hpos hown
  have hopposite := ofFloat?_abs_neg_mul v (f.select v).scale
  have hrender := Section.render_congr (Digits.ofFloat_congr hopposite) c template?.isSome
  have hshown : (f.select (-v)).shownNumber template?.isSome (-v).abs =
      (f.select v).shownNumber template?.isSome v.abs :=
    hselect ▸ Section.shownNumber_congr hopposite template?.isSome
  split
  · next hzero =>
    rw [hzero] at hshown
    by_cases hzone : f.ownZero = true
    · rw [render_eq_render_zero (bne_zero hneg) hzone hshown,
        render_eq_render_zero (bne_zero hu) hzone hzero]
    · rw [Bool.not_eq_true] at hzone
      rw [render_of_eq_zero hzone hshown, render_of_eq_zero hzone hzero, hselect, hrender]
  · next hne =>
    have hlt : -v < 0.0 := (lt_zero_iff hneg).2 rfl
    have hnot : ¬ v < 0.0 := mt (lt_zero_iff hu).1 fun hsign => nomatch hsign
    rw [render_of_ne_zero (hshown ▸ hne), render_of_ne_zero hne, hselect, hrender]
    simp [withSign, hlt, hnot, hown]

end CustomFormat

theorem NumberFormat.format_custom {value : Float} (hvalue : value.isFinite) (f : CustomFormat)
    (c : Culture) (template? : Option Text) :
    (custom f).format c template? value = f.render c template? value := by
  simp only [format, symbolFor?_of_isFinite hvalue]

/-- **The sign stands before what is shown without it**, and only before a number that is
not rounded to zero. If zero has a section of its own, that section also shows the numbers
of either sign that are. -/
theorem NumberFormat.sign_law (f : CustomFormat) (c : Culture) (template? : Option Text)
    {v : Float} (hv : v.isFinite) (hpos : 0.0 < v) :
    let text := (custom f).format c template?
    let shown := (f.select v).shownNumber template?.isSome v
    ((f.select v).render c template?.isSome v).isZero = decide (shown = 0) ∧
    (f.ownNegative = false →
      (shown ≠ 0 → text (-v) = c.negativeSign ++ text v) ∧ (shown = 0 → text (-v) = text v)) ∧
    (f.ownZero = true → ∀ w : Float, w.isFinite → (w != 0.0) = true →
      (f.select w).shownNumber template?.isSome w.abs = 0 → text w = text 0.0) := by
  intro text shown
  have htext {w : Float} (hw : w.isFinite) : text w = f.render c template? w :=
    format_custom hw f c template?
  refine ⟨Section.isZero_render _ _ _ _, fun hown => ?_, fun hown w hw hne hshown => ?_⟩
  · have habs : (f.select v).shownNumber template?.isSome v.abs = shown :=
      Section.shownNumber_congr (ofFloat?_abs_mul v _) _
    rw [htext (isFinite_neg hv), htext hv, CustomFormat.render_neg hv hpos hown, habs]
    exact ⟨fun hne => if_neg hne, fun hzero => if_pos hzero⟩
  · have hzero : (0.0 : Float).isFinite := rfl
    rw [htext hw, htext hzero]
    exact CustomFormat.render_eq_render_zero hne hown hshown

/-- A quarter is nothing to a section without decimals, whatever its sign. -/
theorem NumberFormat.sign_law_quarter :
    let f := CustomFormat.ofText "0;;z".toList
    let text := (custom f).format .enUS none
    (0.25 : Float).isFinite ∧ 0.0 < (0.25 : Float) ∧ f.ownNegative = false ∧ f.ownZero = true ∧
      (f.select 0.25).shownNumber false 0.25 = 0 ∧
      text (-0.25) = text 0.25 ∧ text (-0.25) = text 0.0 := by
  have hlex : lex "0;;z".toList = [.zero, .semicolon, .semicolon, .literal 'z'] :=
    lex_of_readAlone (List.all_eq_true.1 (by decide))
  have hsections : sectionTexts "0;;z".toList = [['0'], [], ['z']] := by
    rw [sectionTexts, sectionTokens, hlex]
    rfl
  have hownNegative : (CustomFormat.ofText "0;;z".toList).ownNegative = false := by
    rw [CustomFormat.ofText, hsections]
    rfl
  have hownZero : (CustomFormat.ofText "0;;z".toList).ownZero = true := by
    rw [CustomFormat.ownZero, CustomFormat.ofText, hsections]
    rfl
  have hpositive : (CustomFormat.ofText "0;;z".toList).positive = .ofText ['0'] := by
    rw [CustomFormat.ofText, SignTexts.ofFormat, hsections]
    rfl
  have hzeroSection : lex ['0'] = [.zero] := lex_of_readAlone (List.all_eq_true.1 (by decide))
  have hitems : (Section.ofText ['0']).items = [.zero] := by
    rw [Section.ofText, hzeroSection]
    rfl
  have hscale : (Section.ofText ['0']).scale = 1.0 :=
    Section.scale_eq_one fun t ht hmem => by
      rw [hzeroSection] at hmem
      revert t
      decide
  have hselect : (CustomFormat.ofText "0;;z".toList).select 0.25 = .ofText ['0'] := by
    rw [CustomFormat.select, if_pos (by decide +kernel), hpositive]
  have hshown : (Section.ofText ['0']).shownNumber false 0.25 = 0 := by
    have hplain : ((Digits.ofFloat (0.25 * 1.0)).plain 0).isZero = true := by decide +kernel
    rw [PlainDigits.isZero_iff, Digits.value_plain, Digits.value_ofFloat_eq, ← hscale] at hplain
    rw [Section.shownNumber, Section.exponentParts?, if_neg Bool.false_ne_true, hitems]
    exact hplain
  rw [← hselect] at hshown
  have hfinite : (0.25 : Float).isFinite := by decide +kernel
  have hpos : (0.0 : Float) < 0.25 := by decide +kernel
  obtain ⟨-, hneg, hzero⟩ := sign_law (.ofText "0;;z".toList) .enUS none hfinite hpos
  have hopposite := (hneg hownNegative).2 hshown
  exact ⟨hfinite, hpos, hownNegative, hownZero, hshown, hopposite,
    hopposite.trans (hzero hownZero 0.25 hfinite (by decide +kernel) hshown)⟩

end TickLabels
