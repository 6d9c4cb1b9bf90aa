import TickLabels.Proofs.Decimal.Shortest
import TickLabels.Proofs.Render.Groups
import TickLabels.Proofs.Render.Sign
/-!
# Numbers of one and more

A number that is one or more after it has been multiplied by the factor of its section is not
rounded to zero, however few digits are shown (`Section.shownNumber_ne_zero_iff`). So it is
shown by the section for its sign, with its sign and with a digit other than zero. This fails
only where the product is beyond the doubles: what is not finite has no digits, and the number
is shown as zero is (`NumberFormat.shown_unless_overflow`).
-/

namespace TickLabels

open Float.Model (UnpackedFloat)
open Float.Model.UnpackedFloat

/-! ## The scaled magnitude -/

/-- A number and a factor with a product of one or more, as real numbers. An infinite factor
is more than enough. -/
def ReachesOne (x factor : Float) : Prop :=
  (∃ s, factor.toModel.unpack = .infinity s) ∨ 1 ≤ exactMagnitude x * exactMagnitude factor

theorem trustedValue_of_not_isFinite {x : Float} (h : ¬ x.isFinite) : trustedValue x = 0 := by
  rw [trustedValue, Magnitude.ofFloat?_eq_none_iff.2 h]

/-- **A product is not rounded below one.** -/
theorem ReachesOne.one_le {x y : Float} (h : ReachesOne x y) (hx : x.isFinite)
    (hne : (x != 0.0) = true) (hfinite : (x * y).isFinite) : 1 ≤ exactMagnitude (x * y) := by
  obtain ⟨s, a, ha⟩ := exists_isValue hx
  rcases h with ⟨t, hinf⟩ | hone
  · -- A number other than zero is infinite when it is multiplied by an infinite factor.
    obtain ⟨hu, -⟩ | ⟨m, e, hm, hu, -⟩ := ha.parts
    · exact absurd hne (by rw [bne_zero_of_zero hu]; decide)
    · have hproduct : (x * y).toModel.unpack = .infinity (s * t) := by
        change (Float.Model.pack (UnpackedFloat.mul .binary64 _ _)).unpack = _
        rw [hu, hinf]
        exact unpack_pack_infinity _
      have hunpack : (x * y).toModel.unpack.isFinite = true := hfinite
      rw [hproduct] at hunpack
      contradiction
  · have hy : exactMagnitude y ≠ 0 := fun hzero => by
      rw [hzero, mul_zero] at hone
      norm_num at hone
    obtain ⟨t, b, hb⟩ := exists_isValue (isFinite_of_exactMagnitude_ne_zero hy)
    obtain ⟨u, f, hf⟩ := exists_isValue hfinite
    have hrounded := isRounded_mul ha hb
    rw [exactMagnitude_eq ha, exactMagnitude_eq hb] at hone
    rw [exactMagnitude_eq hf]
    generalize (x * y).toModel.unpack = p at hrounded hf
    cases hrounded with
    | infinity => cases hf
    | value hf' hside =>
      rw [hf.eq hf']
      exact (hside 1 (by exact_mod_cast isShort_natCast (n := 1) (by norm_num))).2 hone

/-- Its digits show that. -/
theorem one_le_trustedValue {x : Float} (h : 1 ≤ exactMagnitude x) : 1 ≤ trustedValue x := by
  have hfinite := isFinite_of_exactMagnitude_ne_zero (zero_lt_one.trans_le h).ne'
  obtain ⟨m, hm⟩ := Magnitude.exists_ofFloat? hfinite
  rw [exactMagnitude_of_ofFloat? hm] at h
  refine le_trustedValue hfinite zero_le_one (roundSignificant_one (by norm_num)) ?_
  rw [Digits.shortest, hm]
  exact Magnitude.one_le_shortest (Magnitude.canonical_of_ofFloat? hm) h

namespace Section

/-- What is not finite has no digits to be rounded. -/
theorem shownNumber_of_not_isFinite {s : Section} {x : Float} (h : ¬ (x * s.scale).isFinite)
    (plain : Bool) : s.shownNumber plain x = 0 := by
  rw [shownNumber, trustedValue_of_not_isFinite h]
  cases s.exponentParts? plain with
  | some parts => exact roundSignificant_zero _
  | none => exact roundTo_zero _

/-- **A number of one and more is not shown as zero**, unless the product is beyond the
doubles. -/
theorem shownNumber_ne_zero_iff {s : Section} {x : Float} (h : ReachesOne x s.scale)
    (hx : x.isFinite) (hne : (x != 0.0) = true) (plain : Bool) :
    s.shownNumber plain x ≠ 0 ↔ (x * s.scale).isFinite := by
  constructor
  · intro hshown
    by_contra hinfinite
    exact hshown (shownNumber_of_not_isFinite hinfinite plain)
  · intro hfinite
    have htrusted := one_le_trustedValue (h.one_le hx hne hfinite)
    have hpos : 0 < trustedValue (x * s.scale) := lt_of_lt_of_le (by norm_num) htrusted
    rw [shownNumber]
    cases s.exponentParts? plain with
    | some parts =>
      exact mt (roundSignificant_eq_zero_iff (Nat.le_add_left _ _) hpos.le).1 hpos.ne'
    | none => exact roundTo_ne_zero htrusted _

end Section

/-! ## A digit other than zero -/

section Mem

variable {d : Digit} {ds : List Digit}

theorem mem_digitText (h : d ∈ ds) : d.char ∈ digitText ds :=
  List.mem_map_of_mem h

theorem mem_groupedText (sizes : List ℕ) (separator : Char) (h : d ∈ ds) :
    d.char ∈ groupedText sizes separator ds := by
  have hpieces := mem_digitText h
  rw [← flatMap_take_groupedDigits sizes separator, List.mem_flatMap] at hpieces
  obtain ⟨piece, hpiece, hmem⟩ := hpieces
  exact List.mem_flatten.2 ⟨piece, hpiece, List.mem_of_mem_take hmem⟩

theorem mem_fractionPart (c : Culture) (h : d ∈ ds) : d.char ∈ fractionPart c ds := by
  rw [fractionPart, if_neg (List.ne_nil_of_mem h)]
  exact List.mem_cons_of_mem _ (mem_digitText h)

/-- Only zeros are taken from an integer. -/
theorem mem_padInteger (least : ℕ) (hd : d ≠ 0) (h : d ∈ ds) : d ∈ padInteger least ds := by
  rw [← List.takeWhile_append_dropWhile (p := (· = 0)) (l := ds), List.mem_append] at h
  refine List.mem_append_right _ (h.resolve_left fun hzeros => hd ?_)
  simpa using List.mem_takeWhile_imp hzeros

/-- And from a fraction. -/
theorem mem_shortenFraction (least : ℕ) (hd : d ≠ 0) (h : d ∈ ds) :
    d ∈ shortenFraction least ds := by
  obtain ⟨count, hzeros⟩ := shortenFraction_append least ds
  rw [hzeros, List.mem_append] at h
  exact h.resolve_right fun hmem => hd (List.eq_of_mem_replicate hmem)

end Mem

theorem PlainDigits.exists_ne_zero {p : PlainDigits} (h : p.isZero = false) :
    ∃ d, d ≠ 0 ∧ (d ∈ p.integer ∨ d ∈ p.fraction) := by
  simp only [isZero, Bool.and_eq_false_iff, List.all_eq_false, decide_eq_true_eq] at h
  rcases h with ⟨d, hmem, hd⟩ | ⟨d, hmem, hd⟩
  · exact ⟨d, hd, .inl hmem⟩
  · exact ⟨d, hd, .inr hmem⟩

/-- A fixed notation shows it. -/
theorem exists_mem_fixedText (c : Culture) (grouping : Bool) {p : PlainDigits}
    (h : p.isZero = false) : ∃ d : Digit, d ≠ 0 ∧ d.char ∈ fixedText c grouping p := by
  obtain ⟨d, hd, hmem | hmem⟩ := p.exists_ne_zero h
  · refine ⟨d, hd, List.mem_append_left _ ?_⟩
    rw [if_neg (List.ne_nil_of_mem hmem)]
    cases grouping with
    | true => exact mem_groupedText _ _ hmem
    | false => exact mem_digitText hmem
  · exact ⟨d, hd, List.mem_append_right _ (mem_fractionPart c hmem)⟩

namespace Section

/-- What the placeholders, the point and the marker of a section show. -/
def numeral (s : Section) (c : Culture) (plain : Bool) (magnitude : Float) : Text :=
  let scaled := magnitude * s.scale
  match s.exponentParts? plain with
  | some (mantissa, marker, rest) =>
    numeralText s.items (exponentContributions c mantissa marker rest
      ((Digits.ofFloat scaled).scientific (Item.fractionPlaceholders mantissa).length)).texts
  | none => numberText s.items (s.plainContributions c scaled)

/-- There is a place for a digit. A marker has one itself. -/
def HasPlace (s : Section) (plain : Bool) : Prop :=
  (s.exponentParts? plain).isSome ∨ Item.integerPlaceholders s.items ≠ [] ∨ .point ∈ s.items

/-- The marker that counts, with what stands around it. -/
theorem items_of_exponentParts? {s : Section} {plain : Bool} {mantissa rest : List Item}
    {marker : ExponentMarker} (h : s.exponentParts? plain = some (mantissa, marker, rest)) :
    s.items = mantissa ++ .exponent marker :: rest ∧
      ∀ item ∈ mantissa, item.isMarker = false := by
  unfold exponentParts? at h
  split at h
  · contradiction
  · exact eq_of_atMarker? h

/-- **A number that is not rounded to zero shows a digit** other than zero, where there is a
place for one. -/
theorem exists_mem_numeral {source : Text} {plain : Bool} {x : Float} (c : Culture)
    (hplace : (ofText source).HasPlace plain) (h : (ofText source).shownNumber plain x ≠ 0) :
    ∃ d : Digit, d ≠ 0 ∧ d.char ∈ (ofText source).numeral c plain x := by
  have hcount := count_point_le source
  set s := ofText source
  rw [shownNumber] at h
  unfold numeral
  cases hparts : s.exponentParts? plain with
  | some parts =>
    obtain ⟨mantissa, marker, rest⟩ := parts
    obtain ⟨hitems, hfirst⟩ := items_of_exponentParts? hparts
    rw [hparts] at h
    have hwrites := Digits.writes_scientific (Digits.isTrimmed_ofFloat (x * s.scale))
      (Item.fractionPlaceholders mantissa).length
    rw [Digits.value_ofFloat_eq] at hwrites
    have hpoint : mantissa.count .point ≤ 1 := by
      rw [hitems, List.count_append] at hcount
      omega
    refine ⟨_, hwrites.lead_ne_zero h, ?_⟩
    dsimp only
    rw [hitems, numeralText_exponentContributions c hpoint hfirst hwrites.length_fraction]
    exact List.mem_cons_self
  | none =>
    rw [hparts] at h
    have hzero : ((Digits.ofFloat (x * s.scale)).plain
        (Item.fractionPlaceholders s.items).length).isZero = false := by
      rw [Digits.isZero_plain, Digits.value_ofFloat_eq]
      exact decide_eq_false h
    have hnumber : Item.integerPlaceholders s.items ≠ [] ∨ .point ∈ s.items :=
      hplace.resolve_left (by simp [hparts])
    dsimp only
    rw [plainContributions, numberText_plainSupply hcount hnumber
      (Digits.length_fraction_plain _ _)]
    obtain ⟨d, hd, hmem | hmem⟩ := PlainDigits.exists_ne_zero hzero
    · exact ⟨d, hd, List.mem_append_left _ (mem_groupedText _ _ (mem_padInteger _ hd hmem))⟩
    · exact ⟨d, hd, List.mem_append_right _ (mem_fractionPart c (mem_shortenFraction _ hd hmem))⟩

theorem mem_flatten_of_mem_filter {p : Item × Text → Bool} {items : List Item}
    {texts : List Text} {ch : Char} (h : ch ∈ ((items.zip texts).filter p).flatMap Prod.snd) :
    ch ∈ texts.flatten := by
  obtain ⟨piece, hpiece, hmem⟩ := List.mem_flatMap.1 h
  exact List.mem_flatten.2 ⟨piece.2, (List.of_mem_zip (List.mem_of_mem_filter hpiece)).2, hmem⟩

/-- What they show is part of the text. -/
theorem mem_text_of_mem_numeral {s : Section} {c : Culture} {plain : Bool} {x : Float} {ch : Char}
    (h : ch ∈ s.numeral c plain x) : ch ∈ (s.render c plain x).text none := by
  rw [render_eq]
  revert h
  unfold numeral
  cases s.exponentParts? plain with
  | some parts =>
    intro h
    obtain ⟨mantissa, marker, rest⟩ := parts
    have hmem := mem_flatten_of_mem_filter h
    dsimp only
    rw [text_exponentContributions c mantissa marker rest _ rfl]
    simp only [ExponentContributions.text, ExponentContributions.texts] at hmem ⊢
    split
    · exact hmem
    · simp only [List.flatten_append, List.flatten_cons, List.mem_append] at hmem ⊢
      tauto
  | none =>
    intro h
    dsimp only
    rw [text_renderPlain]
    exact mem_flatten_of_mem_filter h

end Section

/-! ## No digits -/

namespace Digits

/-- Zero and what is not finite have no digits, wherever their point stands. -/
theorem digits_ofFloat_eq_nil {x : Float} (h : ∀ m ∈ Magnitude.ofFloat? x, m.mantissa = 0) :
    (ofFloat x).digits = [] := by
  have hshortest : (shortest x).digits = [] := by
    unfold shortest
    split
    · next m hm => rw [Magnitude.shortest, if_pos (h m hm)]; rfl
    · rfl
  rw [ofFloat, roundDigits, keepDigits_of_nil hshortest, hshortest]

theorem digits_ofFloat_of_not_isFinite {x : Float} (h : ¬ x.isFinite) :
    (ofFloat x).digits = [] :=
  digits_ofFloat_eq_nil fun m hm => by
    rw [Magnitude.ofFloat?_eq_none_iff.2 h] at hm
    contradiction

theorem digits_ofFloat_zero_mul (y : Float) : (ofFloat (0.0 * y)).digits = [] := by
  have hproduct : (∃ s, (0.0 * y).toModel.unpack = .zero s) ∨
      (0.0 * y).toModel.unpack = .notANumber := by
    change (∃ s, (Float.Model.pack (UnpackedFloat.mul .binary64 (.zero .positive)
      y.toModel.unpack)).unpack = .zero s) ∨ (Float.Model.pack (UnpackedFloat.mul .binary64
      (.zero .positive) y.toModel.unpack)).unpack = .notANumber
    have hnan : (Float.Model.pack .notANumber).unpack = .notANumber := rfl
    cases y.toModel.unpack with
    | notANumber | infinity => exact .inr hnan
    | zero | finite => exact .inl ⟨_, unpack_pack_zero _⟩
  refine digits_ofFloat_eq_nil fun m hm => ?_
  rw [Magnitude.ofFloat?_eq] at hm
  rcases hproduct with ⟨s, hu⟩ | hu <;> rw [hu] at hm
  · obtain rfl := Option.some.inj hm
    rfl
  · contradiction

/-- Without digits plain notation has nothing but zeros. -/
theorem plain_of_nil {d : Digits} (hnil : d.digits = []) (places : ℕ) :
    d.plain places = ⟨List.replicate d.point.toNat 0, List.replicate places 0⟩ := by
  rw [plain, roundPlaces, keepDigits_of_nil hnil]
  simp [plainParts, nthDigit, hnil, List.map_const']

/-- And so has scientific notation. -/
theorem scientific_of_nil {d : Digits} (hnil : d.digits = []) (places : ℕ) :
    d.scientific places = ⟨0, List.replicate places 0, 0⟩ := by
  rw [scientific, roundDigits, keepDigits_of_nil hnil]
  simp only [hnil]

end Digits

/-- Zeros in front are not shown. -/
theorem padInteger_zeros (least count : ℕ) :
    padInteger least (List.replicate count 0) = List.replicate least 0 := by
  simp [padInteger]

/-- **All that has no digits is shown alike.** -/
theorem Section.render_of_nil {s : Section} {x y : Float}
    (hx : (Digits.ofFloat (x * s.scale)).digits = [])
    (hy : (Digits.ofFloat (y * s.scale)).digits = []) (c : Culture) (plain : Bool) :
    s.render c plain x = s.render c plain y := by
  unfold render renderWithExponent renderPlain
  simp only [Digits.plain_of_nil hx, Digits.plain_of_nil hy, Digits.scientific_of_nil hx,
    Digits.scientific_of_nil hy, plainSupply, padInteger_zeros, PlainDigits.isZero,
    List.all_replicate]
  simp

/-! ## Numbers of one and more -/

/-- **Shown as a number other than zero**: by the section for its sign and with that sign,
and where the section has a place for a digit, with one that is not zero. -/
structure CustomFormat.ShowsNonzero (f : CustomFormat) (c : Culture) (template? : Option Text)
    (v : Float) : Prop where
  isZero_eq : ((f.select v).render c template?.isSome v.abs).isZero = false
  text_eq : (NumberFormat.custom f).format c template? v =
    withSign c (v < 0.0 && !f.ownNegative)
      (((f.select v).render c template?.isSome v.abs).text template?)
  exists_mem : (f.select v).HasPlace template?.isSome → ∃ d : Digit, d ≠ 0 ∧
    d.char ∈ (f.select v).numeral c template?.isSome v.abs ∧
    (template? = none → d.char ∈ (NumberFormat.custom f).format c template? v)

/-- The digits of a number in percent. -/
def StandardFormat.percentDigits (f : StandardFormat) (v : Float) : PlainDigits :=
  (Digits.ofFloat (v * 100.0)).plain (f.precision.getD fixedPlaces)

/-- **Shown in percent as a number other than zero**: in the pattern for its sign, and with
a digit that is not zero. -/
structure StandardFormat.ShowsNonzero (f : StandardFormat) (c : Culture) (v : Float) : Prop where
  isZero_eq : (f.percentDigits v).isZero = false
  text_eq : f.render c v =
    c.fillPattern (if v < 0.0 then c.percentNegativePattern else c.percentPositivePattern)
      (fixedText c true (f.percentDigits v))
  exists_mem : ∃ d : Digit, d ≠ 0 ∧ d.char ∈ fixedText c true (f.percentDigits v)

theorem CustomFormat.exists_select_ofText (format : Text) (v : Float) :
    ∃ source, (ofText format).select v = .ofText source := by
  unfold select
  split
  · exact ⟨_, rfl⟩
  · split
    · split <;> exact ⟨_, rfl⟩
    · exact ⟨_, rfl⟩

/-- A custom format shows what is not rounded to zero. -/
theorem CustomFormat.showsNonzero {format : Text} {c : Culture} {template? : Option Text}
    {v : Float} (hv : v.isFinite)
    (h : ((ofText format).select v).shownNumber template?.isSome v.abs ≠ 0) :
    (ofText format).ShowsNonzero c template? v := by
  have htext : (NumberFormat.custom (ofText format)).format c template? v = _ :=
    (NumberFormat.format_custom hv _ c template?).trans (render_of_ne_zero h)
  refine ⟨(Section.isZero_render _ _ _ _).trans (decide_eq_false h), htext, fun hplace => ?_⟩
  obtain ⟨source, hsource⟩ := exists_select_ofText format v
  rw [htext]
  rw [hsource] at hplace h ⊢
  obtain ⟨d, hd, hmem⟩ := Section.exists_mem_numeral c hplace h
  refine ⟨d, hd, hmem, fun hnone => ?_⟩
  subst hnone
  have hshown := Section.mem_text_of_mem_numeral hmem
  unfold withSign
  split
  · exact List.mem_append_right _ hshown
  · exact hshown

/-- A product beyond the doubles is shown as zero is. -/
theorem CustomFormat.render_of_not_isFinite {f : CustomFormat} {v : Float}
    (hne : (v != 0.0) = true) (h : ¬ (v * (f.select v).scale).isFinite) (c : Culture)
    (template? : Option Text) :
    f.render c template? v =
      if f.ownZero then f.render c template? 0.0
      else ((f.select v).render c template?.isSome 0.0).text template? := by
  have hshown : (f.select v).shownNumber template?.isSome v.abs = 0 :=
    (Section.shownNumber_congr (ofFloat?_abs_mul v _) _).trans
      (Section.shownNumber_of_not_isFinite h _)
  split
  · next hown => exact render_eq_render_zero hne hown hshown
  · next hown =>
    rw [Bool.not_eq_true] at hown
    have hdigits : (Digits.ofFloat (v.abs * (f.select v).scale)).digits = [] := by
      rw [Digits.ofFloat_congr (ofFloat?_abs_mul v _)]
      exact Digits.digits_ofFloat_of_not_isFinite h
    rw [render_of_eq_zero hown hshown,
      Section.render_of_nil hdigits (Digits.digits_ofFloat_zero_mul _)]

/-- **A number of one and more** is shown as such, unless the product is beyond the
doubles. -/
theorem CustomFormat.showsNonzero_iff {format : Text} {c : Culture} {template? : Option Text}
    {v : Float} (hv : v.isFinite) (hne : (v != 0.0) = true)
    (h : ReachesOne v ((ofText format).select v).scale) :
    (ofText format).ShowsNonzero c template? v ↔
      (v * ((ofText format).select v).scale).isFinite := by
  have habs : ((ofText format).select v).shownNumber template?.isSome v.abs =
      ((ofText format).select v).shownNumber template?.isSome v :=
    Section.shownNumber_congr (ofFloat?_abs_mul v _) _
  rw [← Section.shownNumber_ne_zero_iff h hv hne template?.isSome, ← habs]
  refine ⟨fun hshows => ?_, showsNonzero hv⟩
  simpa [Section.isZero_render] using hshows.isZero_eq

namespace StandardFormat

variable {f : StandardFormat} {c : Culture} {v : Float}

theorem render_percent (h : f.style = .percent) :
    f.render c v =
      c.fillPattern (if v < 0.0 && !(f.percentDigits v).isZero then c.percentNegativePattern
        else c.percentPositivePattern) (fixedText c true (f.percentDigits v)) := by
  rw [render, h]
  rfl

theorem showsNonzero_iff (hstyle : f.style = .percent) (hv : v.isFinite)
    (hne : (v != 0.0) = true) (h : ReachesOne v 100.0) :
    f.ShowsNonzero c v ↔ (v * 100.0).isFinite := by
  have hzero : (f.percentDigits v).isZero =
      decide (roundTo (-(f.precision.getD fixedPlaces)) (trustedValue (v * 100.0)) = 0) := by
    rw [percentDigits, Digits.isZero_plain, Digits.value_ofFloat_eq]
  constructor
  · intro hshows
    by_contra hinfinite
    rw [trustedValue_of_not_isFinite hinfinite, roundTo_zero] at hzero
    exact absurd (hzero.symm.trans hshows.isZero_eq) (by simp)
  · intro hfinite
    have hnot : (f.percentDigits v).isZero = false := hzero.trans (decide_eq_false
      (roundTo_ne_zero (one_le_trustedValue (h.one_le hv hne hfinite)) _))
    refine ⟨hnot, ?_, exists_mem_fixedText c true hnot⟩
    rw [render_percent hstyle, hnot]
    simp

theorem render_of_not_isFinite (hstyle : f.style = .percent) (h : ¬ (v * 100.0).isFinite) :
    f.render c v = f.render c 0.0 := by
  have hnil := Digits.digits_ofFloat_of_not_isFinite h
  have hnil_zero := Digits.digits_ofFloat_zero_mul 100.0
  have hisZero {w : Float} (hw : (Digits.ofFloat (w * 100.0)).digits = []) :
      (f.percentDigits w).isZero = true := by
    rw [percentDigits, Digits.isZero_plain, Digits.value_of_nil hw, roundTo_zero]
    rfl
  have htext : fixedText c true (f.percentDigits v) = fixedText c true (f.percentDigits 0.0) := by
    rw [percentDigits, percentDigits, fixedText_eq (Digits.integer_plain_ofFloat _ _),
      fixedText_eq (Digits.integer_plain_ofFloat _ _), Digits.plain_of_nil hnil,
      Digits.plain_of_nil hnil_zero, padInteger_zeros, padInteger_zeros]
  rw [render_percent hstyle, render_percent hstyle, htext, hisZero hnil, hisZero hnil_zero]
  simp

end StandardFormat

/-- **A number of one and more is shown as such**, in a custom format and in percent, if and
only if the product with its factor is not beyond the doubles. If it is, the number is shown as
zero. -/
theorem NumberFormat.shown_unless_overflow (c : Culture) (template? : Option Text) {v : Float}
    (hv : v.isFinite) (hne : (v != 0.0) = true) :
    (∀ format : Text,
      let f := CustomFormat.ofText format
      let s := f.select v
      let text := (custom f).format c template?
      ReachesOne v s.scale →
        (f.ShowsNonzero c template? v ↔ (v * s.scale).isFinite) ∧
        (¬ (v * s.scale).isFinite → text v = if f.ownZero then text 0.0
          else (s.render c template?.isSome 0.0).text template?)) ∧
    ∀ f : StandardFormat, f.style = .percent → ReachesOne v 100.0 →
      (f.ShowsNonzero c v ↔ (v * 100.0).isFinite) ∧
      (¬ (v * 100.0).isFinite → f.render c v = f.render c 0.0) := by
  constructor
  · intro format f s text h
    refine ⟨CustomFormat.showsNonzero_iff hv hne h, fun hproduct => ?_⟩
    have htext {w : Float} (hw : w.isFinite) : text w = f.render c template? w :=
      format_custom hw f c template?
    rw [htext hv, htext (w := 0.0) rfl]
    exact CustomFormat.render_of_not_isFinite hne hproduct c template?
  · intro f hstyle h
    exact ⟨StandardFormat.showsNonzero_iff hstyle hv hne h,
      StandardFormat.render_of_not_isFinite hstyle⟩

section Percent

theorem lex_zero_percent : lex "0%".toList = [.zero, .percent] :=
  lex_of_readAlone (List.all_eq_true.1 (by decide))

theorem select_zero_percent (v : Float) :
    (CustomFormat.ofText "0%".toList).select v = .ofText "0%".toList :=
  CustomFormat.select_of_not_mem (by rw [lex_zero_percent]; decide) v

theorem items_zero_percent : (Section.ofText "0%".toList).items = [.zero, .percent] := by
  rw [Section.ofText, lex_zero_percent]
  rfl

theorem scale_zero_percent : (Section.ofText "0%".toList).scale = 100.0 := by
  rw [Section.scale_ofText (by rw [lex_zero_percent]; decide), lex_zero_percent,
    show Token.scalingCommas _ = 0 from rfl, power_zero]
  decide +kernel

/-- Half of the whole is fifty percent, in both notations. -/
theorem NumberFormat.shown_unless_overflow_half :
    (0.5 : Float).isFinite ∧ ((0.5 : Float) != 0.0) = true ∧ ReachesOne 0.5 100.0 ∧
      ((CustomFormat.ofText "0%".toList).select 0.5).scale = 100.0 ∧
      (CustomFormat.ofText "0%".toList).ShowsNonzero .enUS none 0.5 ∧
      (⟨.percent, false, some 2⟩ : StandardFormat).ShowsNonzero .enUS 0.5 := by
  have hfinite : (0.5 : Float).isFinite := by decide +kernel
  have hne : ((0.5 : Float) != 0.0) = true := by decide +kernel
  have hproduct : (0.5 * 100.0 : Float).isFinite := by decide +kernel
  have hhalf : Magnitude.ofFloat? 0.5 = some ⟨2 ^ 52, -53⟩ := by decide +kernel
  have hfactor : Magnitude.ofFloat? 100.0 = some ⟨25 * 2 ^ 48, -46⟩ := by decide +kernel
  have hreaches : ReachesOne 0.5 100.0 := by
    right
    rw [exactMagnitude_of_ofFloat? hhalf, exactMagnitude_of_ofFloat? hfactor]
    norm_num [Magnitude.value, zpow_neg]
  have hscale : ((CustomFormat.ofText "0%".toList).select 0.5).scale = 100.0 := by
    rw [select_zero_percent, scale_zero_percent]
  have hshown := shown_unless_overflow .enUS none hfinite hne
  exact ⟨hfinite, hne, hreaches, hscale,
    (hshown.1 "0%".toList (hscale.symm ▸ hreaches)).1.2 (hscale.symm ▸ hproduct),
    (hshown.2 _ rfl hreaches).1.2 hproduct⟩

/-- The greatest power of ten is shown as zero in percent: the product is beyond the
doubles. -/
theorem NumberFormat.zero_percent_overflow :
    (1e308 : Float).isFinite ∧ ((1e308 : Float) != 0.0) = true ∧
      ReachesOne 1e308 ((CustomFormat.ofText "0%".toList).select 1e308).scale ∧
      ¬ (CustomFormat.ofText "0%".toList).ShowsNonzero .enUS none 1e308 ∧
      (custom (.ofText "0%".toList)).format .enUS none 1e308 = "0%".toList := by
  have hfinite : (1e308 : Float).isFinite := by decide +kernel
  have hne : ((1e308 : Float) != 0.0) = true := by decide +kernel
  have hscale : ((CustomFormat.ofText "0%".toList).select 1e308).scale = 100.0 := by
    rw [select_zero_percent, scale_zero_percent]
  have hproduct : ¬ (1e308 * ((CustomFormat.ofText "0%".toList).select 1e308).scale).isFinite := by
    rw [hscale]
    decide +kernel
  have hreaches : ReachesOne 1e308 ((CustomFormat.ofText "0%".toList).select 1e308).scale := by
    have hlarge : Magnitude.ofFloat? 1e308 = some ⟨5010420900022432, 971⟩ := by decide +kernel
    have hfactor : Magnitude.ofFloat? 100.0 = some ⟨25 * 2 ^ 48, -46⟩ := by decide +kernel
    have hpower : (1 : ℚ) ≤ 2 ^ (971 : ℤ) := one_le_zpow₀ (by norm_num) (by norm_num)
    right
    rw [hscale, exactMagnitude_of_ofFloat? hlarge, exactMagnitude_of_ofFloat? hfactor]
    refine one_le_mul_of_one_le_of_one_le ?_ (by norm_num [Magnitude.value, zpow_neg])
    exact one_le_mul_of_one_le_of_one_le (by norm_num) hpower
  have hzero : ((Section.ofText "0%".toList).render .enUS false 0.0).text none = "0%".toList := by
    rw [Section.render_eq_renderPlain (.inr (by rw [items_zero_percent]; rfl)),
      Section.text_renderPlain, Section.plainContributions, Section.plainSupply,
      Section.groupsDigits, Section.integerItems, items_zero_percent, scale_zero_percent,
      show Digits.ofFloat (0.0 * 100.0) = .zero by decide +kernel]
    decide
  refine ⟨hfinite, hne, hreaches,
    mt (CustomFormat.showsNonzero_iff hfinite hne hreaches).1 hproduct, ?_⟩
  have hown : (CustomFormat.ofText "0%".toList).ownZero = false :=
    CustomFormat.ownZero_of_not_mem (by rw [lex_zero_percent]; decide)
  rw [format_custom hfinite, CustomFormat.render_of_not_isFinite hne hproduct, hown,
    if_neg Bool.false_ne_true, select_zero_percent]
  exact hzero

end Percent

end TickLabels
