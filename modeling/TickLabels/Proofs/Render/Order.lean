import TickLabels.Proofs.Render.ScientificNotation
/-!
# The order of what is shown

Every item of a section contributes a text, and a section shows these texts in the order of
its items. This holds of all sections but one kind: without an item of the number before its
exponent marker, what is written behind the marker is shown in front of the exponent. There
the order is kept only if it makes no difference (`Section.shown_in_order_iff`).
-/

namespace TickLabels

/-! ## What an item contributes -/

/-- What an item of a section may show. -/
inductive Item.Contributes (c : Culture) : Item → Text → Prop
  | literal (text : Text) : Contributes c (.literal text) text
  | percent : Contributes c .percent c.percentSymbol
  | permille : Contributes c .permille c.permilleSymbol
  | comma : Contributes c .comma []
  /-- A placeholder shows digits of the number, among them the separators of groups. -/
  | digit {item : Item} {text : Text} (isDigit : item.isDigit)
      (digits : ∀ ch ∈ text, ch.isDigit ∨ ch = c.groupSeparator) : Contributes c item text
  /-- In front of the separator stand digits that have no placeholder. -/
  | point {whole separator : Text} (digits : ∀ ch ∈ whole, ch.isDigit)
      (separator_eq : separator = [] ∨ separator = [c.decimalSeparator]) :
      Contributes c .point (whole ++ separator)
  /-- So they do in front of an exponent, if there is no point either. -/
  | exponent {marker : ExponentMarker} {x : ℤ} {lead digits text : Text}
      (isDigit : ∀ ch ∈ lead, ch.isDigit) (shows : marker.Shows c x digits text) :
      Contributes c (.exponent marker) (lead ++ text)

/-- Each digit has nothing but a separator with it. -/
theorem isDigit_or_eq_of_mem_groupedDigits (sizes : List ℕ) (separator : Char)
    (digits : List Digit) : ∀ text ∈ groupedDigits sizes separator digits,
      ∀ ch ∈ text, ch.isDigit ∨ ch = separator := by
  induction digits with
  | nil => simp [groupedDigits]
  | cons d ds ih =>
    rw [groupedDigits, List.forall_mem_cons]
    refine ⟨fun ch hch => ?_, ih⟩
    rcases List.mem_cons.1 hch with rfl | hch
    · exact .inl d.isDigit_char
    · split at hch
      · exact .inr (List.mem_singleton.1 hch)
      · simp at hch

/-- What is dealt consists of what there was. -/
theorem forall_mem_deal {p : Char → Prop} {texts : List Text}
    (h : ∀ text ∈ texts, ∀ ch ∈ text, p ch) (count : ℕ) :
    ∀ text ∈ deal count texts, ∀ ch ∈ text, p ch := by
  unfold deal
  split
  · intro text htext ch hch
    rcases List.mem_append.1 htext with htext | htext
    · rw [List.eq_of_mem_replicate htext] at hch
      simp at hch
    · exact h text htext ch hch
  · cases count with
    | zero => simp
    | succ count =>
      rw [List.forall_mem_cons]
      refine ⟨fun ch hch => ?_, fun text htext => h text (List.mem_of_mem_drop htext)⟩
      obtain ⟨text, htext, hmem⟩ := List.mem_flatten.1 hch
      exact h text (List.mem_of_mem_take htext) ch hmem

namespace Supply

/-- A supply of digits. -/
structure HasDigits (s : Supply) (c : Culture) : Prop where
  integer : ∀ text ∈ s.integer, ∀ ch ∈ text, ch.isDigit ∨ ch = c.groupSeparator
  atPoint : ∀ ch ∈ s.atPoint, ch.isDigit

/-- **Each item shows what is in its place.** -/
theorem contributes_contributions {c : Culture} {s : Supply} {items : List Item}
    (h : s.HasDigits c) (hmarker : ∀ item ∈ items, item.isMarker = false) (pointMet : Bool) :
    List.Forall₂ (Item.Contributes c) items (contributions c s pointMet items) := by
  induction items generalizing s pointMet with
  | nil => exact .nil
  | cons item items ih =>
    rw [List.forall_mem_cons] at hmarker
    cases item with
    | literal text => exact .cons (.literal text) (ih h hmarker.2 _)
    | percent => exact .cons .percent (ih h hmarker.2 _)
    | permille => exact .cons .permille (ih h hmarker.2 _)
    | comma => exact .cons .comma (ih h hmarker.2 _)
    | exponent => exact absurd hmarker.1 (by simp [Item.isMarker])
    | point =>
      refine .cons (.point h.atPoint ?_) (ih h hmarker.2 _)
      split <;> simp
    | zero | hash =>
      rw [contributions]
      split
      · refine .cons (.digit rfl fun ch hch => ?_) (ih ?_ hmarker.2 _)
        · exact .inl (isDigit_of_mem_digitText hch)
        · exact ⟨h.integer, h.atPoint⟩
      · refine .cons (.digit rfl ?_) (ih ?_ hmarker.2 _)
        · cases hinteger : s.integer with
          | nil => simp
          | cons text texts => exact h.integer text (hinteger ▸ List.mem_cons_self)
        · exact ⟨fun text htext => h.integer text (List.mem_of_mem_drop htext), h.atPoint⟩

end Supply

namespace Section

theorem hasDigits_plainSupply (s : Section) (c : Culture) (d : PlainDigits) :
    (s.plainSupply c d).HasDigits c where
  integer := forall_mem_deal (isDigit_or_eq_of_mem_groupedDigits _ _ _) _
  atPoint := by
    unfold plainSupply
    dsimp only
    split
    · exact fun ch => isDigit_of_mem_digitText
    · simp

theorem hasDigits_mantissaSupply (c : Culture) (mantissa : List Item) (d : ScientificDigits) :
    (mantissaSupply mantissa d).HasDigits c where
  integer := by
    intro text htext ch hch
    rw [mantissaSupply, List.mem_singleton] at htext
    rw [htext, List.mem_singleton] at hch
    exact .inl (hch ▸ d.lead.isDigit_char)
  atPoint := by
    unfold mantissaSupply
    dsimp only
    split
    · intro ch hch
      exact List.mem_singleton.1 hch ▸ d.lead.isDigit_char
    · simp

theorem hasDigits_empty (c : Culture) : (Supply.mk [] [] []).HasDigits c := ⟨by simp, by simp⟩

end Section

/-- The exponent is in its place behind an item of the number, or where it makes no
difference. -/
theorem ExponentContributions.text_eq_flatten_iff (e : ExponentContributions) (hasNumber : Bool) :
    e.text hasNumber = e.texts.flatten ↔
      hasNumber = true ∨ e.rest.flatten ++ e.exponent = e.exponent ++ e.rest.flatten := by
  cases hasNumber with
  | true => simp [text]
  | false => simp [text, texts]

/-! ## One marker -/

namespace Item

theorem countP_isMarker_consLiteral (text : Text) (items : List Item) :
    (consLiteral text items).countP isMarker = items.countP isMarker := by
  unfold consLiteral
  split <;> simp [isMarker]

/-- The items of a format have one marker at most. -/
theorem countP_isMarker_ofTokens (pointMet markerMet : Bool) (tokens : List Token) :
    (ofTokens pointMet markerMet tokens).countP isMarker ≤ if markerMet then 0 else 1 := by
  fun_induction ofTokens pointMet markerMet tokens with
  | case1 => simp
  | case14 pointMet markerMet ts marker hmet ih =>
    rw [if_pos rfl] at ih
    rw [List.countP_cons_of_pos (by rfl), if_neg (by simpa using hmet)]
    omega
  | _ => simp_all [countP_isMarker_consLiteral, isMarker]

end Item

namespace Section

variable {source : Text} {mantissa rest : List Item} {marker : ExponentMarker}

theorem isMarker_of_atMarker?_eq_none {items : List Item} (h : atMarker? items = none) :
    ∀ item ∈ items, item.isMarker = false := by
  induction items with
  | nil => simp
  | cons item items ih =>
    cases item with
    | exponent => contradiction
    | literal | percent | permille | comma | zero | hash | point =>
      exact List.forall_mem_cons.2 ⟨rfl, ih (Option.map_eq_none_iff.1 h)⟩

/-- So there is none behind the one that counts. -/
theorem isMarker_rest (h : atMarker? (ofText source).items = some (mantissa, marker, rest)) :
    ∀ item ∈ rest, item.isMarker = false := by
  have hcount : (ofText source).items.countP Item.isMarker ≤ 1 :=
    Item.countP_isMarker_ofTokens false false (lex source)
  rw [(eq_of_atMarker? h).1, List.countP_append, List.countP_cons_of_pos (by rfl)] at hcount
  have hrest : rest.countP Item.isMarker = 0 := by omega
  simpa [List.countP_eq_zero] using hrest

/-! ## What a section shows -/

/-- What the items around a marker show for a number. -/
def exponentShows (c : Culture) (mantissa : List Item) (marker : ExponentMarker)
    (rest : List Item) (scaled : Float) : ExponentContributions :=
  exponentContributions c mantissa marker rest
    ((Digits.ofFloat scaled).scientific (Item.fractionPlaceholders mantissa).length)

/-- What the items of a section show, one text for each. -/
def contributions (s : Section) (c : Culture) (scaled : Float) : List Text :=
  match atMarker? s.items with
  | some (mantissa, marker, rest) => (exponentShows c mantissa marker rest scaled).texts
  | none => s.plainContributions c scaled

/-- Around a marker, too, each item shows what is in its place. -/
theorem contributes_exponentShows (c : Culture) (scaled : Float)
    (hmantissa : ∀ item ∈ mantissa, item.isMarker = false)
    (hrest : ∀ item ∈ rest, item.isMarker = false) :
    List.Forall₂ (Item.Contributes c) (mantissa ++ .exponent marker :: rest)
      (exponentShows c mantissa marker rest scaled).texts := by
  have hwrites := Digits.writes_scientific (Digits.isTrimmed_ofFloat scaled)
    (Item.fractionPlaceholders mantissa).length
  refine List.rel_append (Supply.contributes_contributions (hasDigits_mantissaSupply c _ _)
    hmantissa false) (.cons (.exponent ?_ (shows_markerText c marker hwrites))
    (Supply.contributes_contributions (hasDigits_empty c) hrest false))
  unfold exponentShows exponentContributions
  dsimp only
  split
  · intro ch hch
    exact List.mem_singleton.1 hch ▸ Digit.isDigit_char _
  · simp

/-- **Each item of a section contributes what is in its place.** -/
theorem contributes_contributions (source : Text) (c : Culture) (scaled : Float) :
    List.Forall₂ (Item.Contributes c) (ofText source).items
      ((ofText source).contributions c scaled) := by
  unfold contributions
  cases hparts : atMarker? (ofText source).items with
  | some parts =>
    obtain ⟨mantissa, marker, rest⟩ := parts
    obtain ⟨hitems, hmantissa⟩ := eq_of_atMarker? hparts
    rw [hitems]
    exact contributes_exponentShows c scaled hmantissa (isMarker_rest hparts)
  | none =>
    exact Supply.contributes_contributions (hasDigits_plainSupply _ c _)
      (isMarker_of_atMarker?_eq_none hparts) false

/-- Without a marker the contributions are all there is to see. -/
theorem text_render_of_none {s : Section} (h : atMarker? s.items = none) (c : Culture)
    (magnitude : Float) : (s.render c false magnitude).text none =
      (s.contributions c (magnitude * s.scale)).flatten := by
  rw [render_eq_renderPlain (.inr h), text_renderPlain, contributions, h]

/-- With a marker it depends on the items of the mantissa where the exponent is. -/
theorem text_render_of_some {s : Section}
    (h : atMarker? s.items = some (mantissa, marker, rest)) (c : Culture) (magnitude : Float) :
    (s.render c false magnitude).text none =
      (exponentShows c mantissa marker rest (magnitude * s.scale)).text
        (mantissa.any Item.isNumberPart) := by
  simp only [render, h]
  exact text_exponentContributions c mantissa marker rest _ rfl

/-- The exponent is shown behind a text that is written after its marker: no item of the
number stands before the marker, and the two texts are not the same either way round. -/
def MisplacesExponent (s : Section) (c : Culture) (scaled : Float) : Prop :=
  ∃ mantissa marker rest, atMarker? s.items = some (mantissa, marker, rest) ∧
    mantissa.any Item.isNumberPart = false ∧
    let shows := exponentShows c mantissa marker rest scaled
    shows.rest.flatten ++ shows.exponent ≠ shows.exponent ++ shows.rest.flatten

/-- **A section shows what its items contribute, in their order**, unless it misplaces the
exponent. Without an item of the number before the marker the exponent comes last. -/
theorem shown_in_order_iff (source : Text) (c : Culture) (magnitude : Float) :
    let s := ofText source
    let scaled := magnitude * s.scale
    let text := (s.render c false magnitude).text none
    List.Forall₂ (Item.Contributes c) s.items (s.contributions c scaled) ∧
      (text = (s.contributions c scaled).flatten ↔ ¬ s.MisplacesExponent c scaled) ∧
      ∀ mantissa marker rest, atMarker? s.items = some (mantissa, marker, rest) →
        mantissa.any Item.isNumberPart = false →
        let shows := exponentShows c mantissa marker rest scaled
        text = shows.mantissa.flatten ++ shows.lead ++ shows.rest.flatten ++ shows.exponent := by
  intro s scaled text
  refine ⟨contributes_contributions source c scaled, ?_,
    fun mantissa marker rest hparts hnone => ?_⟩
  · cases hparts : atMarker? s.items with
    | none =>
      have hplaced : ¬ s.MisplacesExponent c scaled := by
        rintro ⟨_, _, _, hsome, -⟩
        rw [hparts] at hsome
        contradiction
      exact iff_of_true (text_render_of_none hparts c magnitude) hplaced
    | some parts =>
      obtain ⟨mantissa, marker, rest⟩ := parts
      have htext : text = (exponentShows c mantissa marker rest scaled).text
          (mantissa.any Item.isNumberPart) := text_render_of_some hparts c magnitude
      rw [htext, contributions, hparts, ExponentContributions.text_eq_flatten_iff]
      simp [MisplacesExponent, hparts, Classical.or_iff_not_imp_left]
  · have htext : text = (exponentShows c mantissa marker rest scaled).text
        (mantissa.any Item.isNumberPart) := text_render_of_some hparts c magnitude
    rw [htext, hnone, ExponentContributions.text, if_neg Bool.false_ne_true]

/-- **Kilograms in front of the exponent**: the unit is written behind the marker, and there
is no placeholder before it. -/
theorem not_shown_in_order_kilograms :
    let s := ofText "E+0 kg".toList
    s.items = [.exponent ⟨true, some '+', 1⟩, .literal " kg".toList] ∧
      s.contributions .enUS (5000.0 * s.scale) = ["5E+3".toList, " kg".toList] ∧
      (s.render .enUS false 5000.0).text none = "5 kgE+3".toList ∧
      (s.render .enUS false 5000.0).text none ≠
        (s.contributions .enUS (5000.0 * s.scale)).flatten := by
  intro s
  have hlex : lex "E+0 kg".toList =
      [.exponent ⟨true, some '+', 1⟩, .literal ' ', .literal 'k', .literal 'g'] := by
    have hfirst : Token.first 'E' "+0 kg".toList =
        (.exponent ⟨true, some '+', 1⟩, " kg".toList) := by decide
    have hunit : lex " kg".toList = [.literal ' ', .literal 'k', .literal 'g'] :=
      lex_of_readAlone (List.all_eq_true.1 (by decide))
    exact (lex_cons 'E' "+0 kg".toList).trans (by rw [hfirst, hunit])
  have hitems : s.items = [.exponent ⟨true, some '+', 1⟩, .literal " kg".toList] := by
    change Item.ofTokens false false (lex "E+0 kg".toList) = _
    rw [hlex]
    rfl
  have hscale : s.scale = 1.0 := scale_eq_one fun t ht hmem => by
    rw [hlex] at hmem
    revert t
    decide
  have hparts : atMarker? s.items = some ([], ⟨true, some '+', 1⟩, [.literal " kg".toList]) := by
    rw [hitems]
    rfl
  have hcontributions : s.contributions .enUS (5000.0 * s.scale) =
      ["5E+3".toList, " kg".toList] := by
    rw [contributions, hparts, hscale]
    decide +kernel
  have htext : (s.render .enUS false 5000.0).text none = "5 kgE+3".toList := by
    rw [text_render_of_some hparts, hscale]
    decide +kernel
  refine ⟨hitems, hcontributions, htext, ?_⟩
  rw [hcontributions, htext]
  decide

end Section

end TickLabels
