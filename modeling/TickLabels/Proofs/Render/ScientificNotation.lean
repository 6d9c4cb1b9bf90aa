import TickLabels.Proofs.Render.General
import TickLabels.Proofs.Render.PlainNotation
/-!
# The number in scientific notation

A section with an exponent marker shows one digit, the decimals it has placeholders for,
and an exponent. Together they write the shortest decimal of the magnitude, rounded to the
digits that are trusted and then to those that are shown (`Section.scientific_render`).
The digit in front of the point stands at the first item there is for it: an integer
placeholder, the point or the marker itself (`numeralText_exponentContributions`).
-/

namespace TickLabels

/-! ## One digit, decimals and an exponent -/

/-- Zeros behind the decimals do not count. -/
theorem PlainDigits.value_append_zeros (integer fraction : List Digit) (count : ℕ) :
    (mk integer (fraction ++ List.replicate count 0)).value = (mk integer fraction).value := by
  have hpower : (10 : ℚ) ^ count ≠ 0 := by positivity
  simp only [value, valueOf_append, valueOf_replicate_zero, List.length_append,
    List.length_replicate, pow_add]
  push_cast
  rw [add_zero, mul_div_mul_right _ _ hpower]

/-- Only zeros at the end of a fraction are left out. -/
theorem shortenFraction_append (least : ℕ) (fraction : List Digit) :
    ∃ count, fraction = shortenFraction least fraction ++ List.replicate count 0 := by
  obtain ⟨count, hzeros⟩ := dropTrailingZeros_append fraction
  unfold shortenFraction
  generalize dropTrailingZeros fraction = kept at hzeros ⊢
  subst hzeros
  refine ⟨count - (max kept.length least - kept.length), ?_⟩
  rw [List.take_append, List.take_of_length_le (le_max_left _ _), List.take_replicate,
    List.append_assoc, List.replicate_append_replicate]
  congr 2
  omega

namespace ScientificDigits

/-- The number that scientific notation writes. -/
def value (d : ScientificDigits) : ℚ :=
  (PlainDigits.mk [d.lead] d.fraction).value * 10 ^ d.exponent

/-- **A number in scientific notation**, with exactly the decimals asked for. Only zero
starts with a zero, and then it has nothing but zeros. -/
structure Writes (d : ScientificDigits) (places : ℕ) (q : ℚ) : Prop where
  value_eq : d.value = q
  length_fraction : d.fraction.length = places
  lead_ne_zero : q ≠ 0 → d.lead ≠ 0
  eq_of_zero : q = 0 → d = ⟨0, List.replicate places 0, 0⟩

variable {d : ScientificDigits} {places : ℕ} {q : ℚ}

/-- The digits are all zero for zero only. -/
theorem Writes.isZero_eq (h : d.Writes places q) : d.isZero = decide (q = 0) := by
  by_cases hq : q = 0
  · rw [h.eq_of_zero hq]
    simp [isZero, hq]
  · simp [isZero, hq, h.lead_ne_zero hq]

/-- Decimals that are left out are zero. -/
theorem value_shortenFraction (d : ScientificDigits) (least : ℕ) :
    (mk d.lead (shortenFraction least d.fraction) d.exponent).value = d.value := by
  obtain ⟨count, hzeros⟩ := shortenFraction_append least d.fraction
  unfold value
  conv_rhs => rw [hzeros, PlainDigits.value_append_zeros]

end ScientificDigits

namespace Digits

/-- **Scientific notation writes the digits**, rounded to those it shows. -/
theorem writes_scientific {d : Digits} (hd : d.IsTrimmed) (places : ℕ) :
    (d.scientific places).Writes places (roundSignificant (places + 1) d.value) := by
  have hvalue := value_roundDigits hd.head?_ne (places + 1)
  have htrimmed : (d.roundDigits (places + 1)).IsTrimmed := isTrimmed_keepDigits hd _
  have hlength := d.length_fraction_scientific places
  rw [← hvalue]
  unfold scientific at hlength ⊢
  dsimp only at hlength ⊢
  generalize d.roundDigits (places + 1) = r at htrimmed hlength ⊢
  cases hdigits : r.digits with
  | nil =>
    have hzero := value_of_nil hdigits
    refine ⟨?_, by simp, fun hne => absurd hzero hne, fun _ => rfl⟩
    rw [hzero, ScientificDigits.value, PlainDigits.value, valueOf_replicate_zero]
    simp [valueOf]
  | cons lead rest =>
    have hlead : lead ≠ 0 := by simpa [hdigits] using htrimmed.head?_ne
    have hpos : 0 < r.value := value_pos htrimmed.head?_ne (by simp [hdigits])
    rw [hdigits] at hlength
    refine ⟨?_, hlength, fun _ => hlead, fun hzero => absurd hzero hpos.ne'⟩
    rw [ScientificDigits.value, PlainDigits.value_append_zeros, value_lead hdigits]

/-- The number that is shown for a magnitude with `places` decimals and an exponent. -/
theorem writes_scientific_ofFloat {x : Float} {m : Magnitude}
    (hm : Magnitude.ofFloat? x = some m) (places : ℕ) :
    ((ofFloat x).scientific places).Writes places
      (roundSignificant (places + 1) (roundSignificant 16 m.shortest.value)) := by
  rw [← value_ofFloat hm]
  exact writes_scientific (isTrimmed_ofFloat x) places

end Digits

/-! ## What the items show -/

/-- What the items around an exponent marker show. The marker shows the integer digit if
there is no place for it before, and the exponent. -/
structure ExponentContributions where
  mantissa : List Text
  lead : Text
  exponent : Text
  rest : List Text

namespace ExponentContributions

/-- One text for each item. -/
def texts (e : ExponentContributions) : List Text :=
  e.mantissa ++ (e.lead ++ e.exponent) :: e.rest

/-- All of them. Where the mantissa has no item of the number, the exponent stands behind
everything else. -/
def text (e : ExponentContributions) (hasNumber : Bool) : Text :=
  if hasNumber then e.texts.flatten
  else e.mantissa.flatten ++ e.lead ++ e.rest.flatten ++ e.exponent

end ExponentContributions

namespace Item

/-- The placeholders, the point and the marker. -/
def showsNumeral (item : Item) : Bool :=
  item.showsNumber || item.isMarker

end Item

/-- The contributions of the placeholders, the point and the marker, from left to right. -/
def numeralText (items : List Item) (texts : List Text) : Text :=
  ((items.zip texts).filter (·.1.showsNumeral)).flatMap Prod.snd

theorem numeralText_cons (item : Item) (items : List Item) (text : Text) (texts : List Text) :
    numeralText (item :: items) (text :: texts) =
      (if item.showsNumeral then text else []) ++ numeralText items texts := by
  unfold numeralText
  rw [List.zip_cons_cons, List.filter_cons]
  split <;> simp_all

theorem numeralText_append {front : List Item} {texts : List Text}
    (h : texts.length = front.length) (items : List Item) (texts' : List Text) :
    numeralText (front ++ items) (texts ++ texts') =
      numeralText front texts ++ numeralText items texts' := by
  unfold numeralText
  rw [List.zip_append h.symm, List.filter_append, List.flatMap_append]

/-- Without a marker these are the placeholders and the point. -/
theorem numeralText_eq_numberText {items : List Item} (h : ∀ item ∈ items, item.isMarker = false)
    (texts : List Text) : numeralText items texts = numberText items texts := by
  unfold numeralText numberText
  congr 1
  refine List.filter_congr fun piece hpiece => ?_
  rw [Item.showsNumeral, h _ (List.of_mem_zip hpiece).1, Bool.or_false]

namespace Supply

/-- **Without a supply nothing is shown** by placeholders, points and markers. -/
theorem numeralText_empty (c : Culture) (pointMet : Bool) (items : List Item) :
    numeralText items (contributions c ⟨[], [], []⟩ pointMet items) = [] := by
  induction items generalizing pointMet with
  | nil => rfl
  | cons item items ih =>
    cases item with
    | zero | hash =>
      rw [contributions]
      split <;> exact (numeralText_cons _ _ _ _).trans (ih pointMet)
    | literal | percent | permille | comma | exponent | point =>
      rw [contributions, numeralText_cons, ih]
      rfl

end Supply

namespace Section

/-- What the items of a section show, given the digits of its number. -/
def exponentContributions (c : Culture) (mantissa : List Item) (marker : ExponentMarker)
    (rest : List Item) (d : ScientificDigits) : ExponentContributions where
  mantissa := (mantissaSupply mantissa d).contributions c false mantissa
  lead := if Item.integerPlaceholders mantissa = [] ∧ .point ∉ mantissa then [d.lead.char] else []
  exponent := markerText c marker d
  rest := Supply.contributions c ⟨[], [], []⟩ false rest

variable {mantissa rest : List Item} {marker : ExponentMarker}

/-- The marker that counts is the first one. -/
theorem atMarker?_eq_some (rest : List Item) (h : ∀ item ∈ mantissa, item.isMarker = false) :
    atMarker? (mantissa ++ .exponent marker :: rest) = some (mantissa, marker, rest) := by
  induction mantissa with
  | nil => rfl
  | cons item mantissa ih =>
    rw [List.forall_mem_cons] at h
    cases item with
    | exponent => exact absurd h.1 (by simp [Item.isMarker])
    | literal | percent | permille | comma | zero | hash | point =>
      simp only [List.cons_append, atMarker?, ih h.2, Option.map_some]

theorem eq_of_atMarker? {items : List Item}
    (h : atMarker? items = some (mantissa, marker, rest)) :
    items = mantissa ++ .exponent marker :: rest ∧
      ∀ item ∈ mantissa, item.isMarker = false := by
  induction items generalizing mantissa with
  | nil => contradiction
  | cons item items ih =>
    cases item with
    | exponent =>
      obtain ⟨rfl, rfl, rfl⟩ := by simpa [atMarker?] using h
      exact ⟨rfl, List.forall_mem_nil _⟩
    | literal | percent | permille | comma | zero | hash | point =>
      obtain ⟨⟨front, _, _⟩, hnext, hparts⟩ := Option.map_eq_some_iff.1 h
      obtain ⟨rfl, rfl, rfl⟩ := by simpa using hparts
      obtain ⟨rfl, hfirst⟩ := ih hnext
      exact ⟨rfl, List.forall_mem_cons.2 ⟨rfl, hfirst⟩⟩

/-- **One digit, the fraction and the exponent** are what the placeholders, the point and
the marker show, however many placeholders there are for the digit. -/
theorem numeralText_exponentContributions (c : Culture) {d : ScientificDigits}
    (hpoint : mantissa.count .point ≤ 1) (hmarker : ∀ item ∈ mantissa, item.isMarker = false)
    (hplaces : d.fraction.length = (Item.fractionPlaceholders mantissa).length) :
    numeralText (mantissa ++ .exponent marker :: rest)
        (exponentContributions c mantissa marker rest d).texts =
      d.lead.char :: (fractionPart c
        (shortenFraction (Item.leastFractionDigits mantissa) d.fraction) ++
          markerText c marker d) := by
  have hfraction : (mantissaSupply mantissa d).fraction.length ≤
      (Item.fractionPlaceholders mantissa).length :=
    hplaces ▸ List.length_take_le' _ _
  rw [ExponentContributions.texts, exponentContributions,
    numeralText_append (Supply.length_contributions _ _ _ _), numeralText_cons, if_pos (by rfl),
    Supply.numeralText_empty, List.append_nil, numeralText_eq_numberText hmarker,
    Supply.numberText_eq hpoint hfraction]
  have hnone : .point ∉ mantissa → d.fraction = [] := fun hmem => by
    rw [← List.length_eq_zero_iff, hplaces, Item.fractionPlaceholders_of_not_mem hmem]
    rfl
  -- The digit stands at the first place there is for it.
  by_cases hinteger : Item.integerPlaceholders mantissa = []
  · by_cases hmem : Item.point ∈ mantissa
    · simp [mantissaSupply, hinteger, hmem]
    · simp [mantissaSupply, hinteger, hmem, hnone, shortenFraction, fractionPart]
  · have htake : ([[d.lead.char]] : List Text).take (Item.integerPlaceholders mantissa).length =
        [[d.lead.char]] := List.take_of_length_le (List.length_pos_iff.2 hinteger)
    by_cases hmem : Item.point ∈ mantissa
    · simp [mantissaSupply, hinteger, hmem, htake]
    · simp [mantissaSupply, hinteger, hmem, htake, hnone, shortenFraction, fractionPart]

/-- A section has no number in the middle if no item is part of one. -/
theorem numberParts?_eq_none_iff {items : List Item} {texts : List Text}
    (h : texts.length = items.length) :
    numberParts? (items.zip texts) = none ↔ items.any Item.isNumberPart = false := by
  have hitems : items = (items.zip texts).map Prod.fst := (List.map_fst_zip (by omega)).symm
  have hpieces := List.prefix_iff_eq_append.1
    (List.takeWhile_prefix (l := items.zip texts) fun piece => !piece.1.isNumberPart)
  have hlead := List.all_takeWhile (p := fun piece : Item × Text => !piece.1.isNumberPart)
    (l := items.zip texts)
  conv_rhs => rw [hitems, ← hpieces]
  rw [numberParts?, Option.map_eq_none_iff, splitAfterLast_eq_none_iff]
  simp only [List.all_eq_true, Bool.not_eq_eq_eq_not, Bool.not_true] at hlead
  simp only [List.map_append, List.any_append, List.any_map, Bool.or_eq_false_iff,
    List.any_eq_false, Function.comp_apply, Bool.not_eq_true]
  exact ⟨fun hback => ⟨hlead, hback⟩, fun hall => hall.2⟩

/-- **A section shows its contributions.** -/
theorem text_exponentContributions (c : Culture) (mantissa : List Item) (marker : ExponentMarker)
    (rest : List Item) (scaled : Float) {d : ScientificDigits}
    (hd : (Digits.ofFloat scaled).scientific (Item.fractionPlaceholders mantissa).length = d) :
    (renderWithExponent c mantissa marker rest scaled).text none =
      (exponentContributions c mantissa marker rest d).text (mantissa.any Item.isNumberPart) := by
  let shows := exponentContributions c mantissa marker rest d
  have hlength : shows.mantissa.length = mantissa.length := Supply.length_contributions _ _ _ _
  have hnone := numberParts?_eq_none_iff hlength
  have hzip : (mantissa.zip shows.mantissa).flatMap Prod.snd = shows.mantissa.flatten := by
    rw [List.flatMap_def, List.map_snd_zip (Nat.le_of_eq hlength)]
  simp only [renderWithExponent, hd]
  split
  · next parts h =>
    change numberParts? (mantissa.zip shows.mantissa) = some parts at h
    have hany : mantissa.any Item.isNumberPart = true := by
      rw [← Bool.not_eq_false]
      exact fun hany => by rw [hnone.2 hany] at h; contradiction
    rw [hany, ExponentContributions.text, if_pos rfl, ExponentContributions.texts,
      List.flatten_append, List.flatten_cons, ← hzip, ← flatMap_numberParts? h]
    simp [SectionText.text, exponentContributions]
  · next h =>
    rw [hnone.1 h]
    simp [SectionText.text, ExponentContributions.text, exponentContributions]

end Section

/-! ## The exponent -/

/-- **An exponent as its marker asks for it**: the letter of the marker, a sign, and at
least as many digits as the marker has zeros. -/
structure ExponentMarker.Shows (marker : ExponentMarker) (c : Culture) (x : ℤ)
    (digits text : Text) : Prop where
  text_eq : text = marker.letter ::
    ((if x < 0 then c.negativeSign else if marker.asksForPlus then ['+'] else []) ++ digits)
  isDigit : ∀ digit ∈ digits, digit.isDigit
  readNumeral_eq : readNumeral digits = x.natAbs
  zeros_le : marker.zeros ≤ digits.length

theorem Section.shows_markerText (c : Culture) (marker : ExponentMarker) {d : ScientificDigits}
    {places : ℕ} {q : ℚ} (h : d.Writes places q) :
    marker.Shows c d.exponent (padZeros marker.zeros (numeral d.exponent.natAbs))
      (markerText c marker d) where
  text_eq := by
    have hexponent : (if d.isZero then 0 else d.exponent) = d.exponent := by
      rw [h.isZero_eq]
      by_cases hq : q = 0
      · rw [h.eq_of_zero hq]
        exact ite_self 0
      · rw [if_neg (by simpa using hq)]
    rw [markerText, hexponent]
  isDigit digit hdigit := by
    rw [padZeros_numeral] at hdigit
    exact isDigit_of_mem_digitText hdigit
  readNumeral_eq := by
    rw [padZeros_numeral, readNumeral_digitText, valueOf_padInteger, valueOf_digitsOf]
  zeros_le := by
    rw [length_padZeros]
    exact le_max_left _ _

/-! ## The section -/

/-- A magnitude other than zero has digits. -/
theorem Magnitude.value_shortest_eq_zero_iff {m : Magnitude} :
    m.shortest.value = 0 ↔ m.mantissa = 0 := by
  constructor
  · intro hzero
    by_contra hne
    have hpos := Digits.value_pos m.isNormal_shortest.head?_ne
      (ne_nil_shortest (Nat.pos_of_ne_zero hne))
    exact hpos.ne' hzero
  · intro hzero
    rw [shortest, if_pos hzero, Digits.value_zero]

/-- And it is not zero when it is shown, if a digit of it is. -/
theorem Magnitude.shown_eq_zero_iff {m : Magnitude} {count : ℕ} (hcount : 1 ≤ count) :
    roundSignificant count (roundSignificant 16 m.shortest.value) = 0 ↔ m.mantissa = 0 := by
  have hnonneg : 0 ≤ roundSignificant 16 m.shortest.value :=
    roundTo_nonneg _ m.shortest.value_nonneg
  rw [roundSignificant_eq_zero_iff hcount hnonneg,
    roundSignificant_eq_zero_iff (by norm_num) m.shortest.value_nonneg, value_shortest_eq_zero_iff]

/-- **Scientific notation shows the rounded number.** The placeholders, the point and the
marker show one digit, the decimals without the zeros behind the last `0` that end them,
and an exponent; these write the shortest decimal of the magnitude, rounded to sixteen
digits and then to those shown. -/
theorem Section.scientific_render {source : Text} {c : Culture} {magnitude : Float}
    {m : Magnitude} {mantissa rest : List Item} {marker : ExponentMarker}
    (hitems : (ofText source).items = mantissa ++ .exponent marker :: rest)
    (hfirst : ∀ item ∈ mantissa, item.isMarker = false)
    (hm : Magnitude.ofFloat? (magnitude * (ofText source).scale) = some m) :
    let s := ofText source
    let places := (Item.fractionPlaceholders mantissa).length
    let shown := roundSignificant (places + 1) (roundSignificant 16 m.shortest.value)
    ∃ (d : ScientificDigits) (digits exponent : Text),
      let fraction := d.fraction.take
        (max (d.fraction.rdropWhile (· = 0)).length (Item.leastFractionDigits mantissa))
      let shows := exponentContributions c mantissa marker rest d
      d.Writes places shown ∧ (shown = 0 ↔ m.mantissa = 0) ∧
      (ScientificDigits.mk d.lead fraction d.exponent).value = shown ∧
      marker.Shows c d.exponent digits exponent ∧
      numeralText s.items shows.texts = d.lead.char :: (fractionPart c fraction ++ exponent) ∧
      (s.render c false magnitude).text none = shows.text (mantissa.any Item.isNumberPart) := by
  intro s places shown
  have hwrites := Digits.writes_scientific_ofFloat hm places
  set d := (Digits.ofFloat (magnitude * s.scale)).scientific places with hd
  have hrender : s.render c false magnitude =
      renderWithExponent c mantissa marker rest (magnitude * s.scale) := by
    simp only [render, s, hitems, atMarker?_eq_some rest hfirst]
  have hpoint : mantissa.count .point ≤ 1 := by
    have hcount := count_point_le source
    rw [hitems, List.count_append] at hcount
    omega
  refine ⟨d, _, _, hwrites, Magnitude.shown_eq_zero_iff (Nat.le_add_left 1 places), ?_,
    shows_markerText c marker hwrites, ?_, ?_⟩
  · exact (d.value_shortenFraction _).trans hwrites.value_eq
  · rw [hitems]
    exact numeralText_exponentContributions c hpoint hfirst hwrites.length_fraction
  · rw [hrender]
    exact text_exponentContributions c mantissa marker rest _ rfl

/-- Nearly a thousandth, with an exponent of three digits, as the United States write
it. -/
theorem Section.scientific_render_enUS :
    (ofText "#0.0#E+000".toList).items =
        [.hash, .zero, .point, .zero, .hash] ++ .exponent ⟨true, some '+', 3⟩ :: [] ∧
      (∀ item ∈ ([.hash, .zero, .point, .zero, .hash] : List Item), item.isMarker = false) ∧
      Magnitude.ofFloat? (0.00099999 * (ofText "#0.0#E+000".toList).scale) =
        some ⟨4611639901567204, -62⟩ ∧
      ∃ (d : ScientificDigits) (digits exponent : Text),
        d.Writes 2 (roundSignificant 3 (roundSignificant 16
          (Magnitude.mk 4611639901567204 (-62)).shortest.value)) ∧
        ExponentMarker.Shows ⟨true, some '+', 3⟩ .enUS d.exponent digits exponent := by
  have hlex : lex "#0.0#E+000".toList =
      [.hash, .zero, .point, .zero, .hash, .exponent ⟨true, some '+', 3⟩] := by
    have hfront : lex ("#0.0#".toList ++ "E+000".toList) = _ :=
      lex_append_of_readAlone (List.all_eq_true.1 (by decide)) "E+000".toList
    have hmarker : lex "E+000".toList = [.exponent ⟨true, some '+', 3⟩] := lex_exponent (.inl rfl)
    rw [hmarker] at hfront
    exact hfront
  have hitems : (ofText "#0.0#E+000".toList).items =
      [.hash, .zero, .point, .zero, .hash] ++ .exponent ⟨true, some '+', 3⟩ :: [] := by
    rw [ofText, hlex]
    rfl
  have hscale : (ofText "#0.0#E+000".toList).scale = 1.0 := by
    refine scale_eq_one fun t ht hmem => ?_
    rw [hlex] at hmem
    revert t
    decide
  have hmagnitude : Magnitude.ofFloat? (0.00099999 * (ofText "#0.0#E+000".toList).scale) =
      some ⟨4611639901567204, -62⟩ := by
    rw [hscale]
    decide +kernel
  have hfirst : ∀ item ∈ ([.hash, .zero, .point, .zero, .hash] : List Item),
      item.isMarker = false := by decide
  obtain ⟨d, digits, exponent, hwrites, -, -, hexponent, -, -⟩ :=
    scientific_render (c := .enUS) hitems hfirst hmagnitude
  exact ⟨hitems, hfirst, hmagnitude, d, digits, exponent, hwrites, hexponent⟩

end TickLabels
