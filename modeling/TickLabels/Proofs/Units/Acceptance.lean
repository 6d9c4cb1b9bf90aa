import TickLabels.Proofs.Pattern.Widening
import TickLabels.Units.System

/-!
# Formats that stay readable

Before a number is shown in a unit, its format is rewritten: it gets the decimals that
are asked for, or some more where the unit takes digits away, or an exponent where the
number is out of range. `formats_ok_iff` says when what comes out is read again. It
always is, except that a format of one section may be left without its fraction as a
letter with digits that names no notation (`BreaksWithoutFraction`). Where words are checked
for overflow, there is no answer either for the least word as a number of decimals, if the
number is out of range (`UnitSystem.Overflows`).
-/

namespace TickLabels

/-- The format is read. -/
def Readable (format : Text) : Prop :=
  ∃ f, NumberFormat.parse format = .ok f

theorem IsCustom.readable {format : Text} (h : IsCustom format) : Readable format :=
  ⟨_, isCustom_iff.1 h⟩

theorem readable_nil : Readable [] :=
  ⟨_, rfl⟩

/-- A letter that names a notation is read with whatever stands behind it. -/
theorem readable_of_letter {letter : Char} {style : StandardStyle}
    (h : StandardStyle.ofLetter? letter = some style) (digits : Text) :
    Readable (letter :: digits) := by
  cases hstandard : readsAsStandard (letter :: digits) with
  | false => exact IsCustom.readable ⟨by simp, hstandard⟩
  | true => exact ⟨_, by simp only [NumberFormat.parse, hstandard, if_true,
      NumberFormat.readStandard, h]; rfl⟩

/-- **What is read**: the empty format, a custom one, or a letter that names a
notation. -/
theorem Readable.cases {format : Text} (h : Readable format) :
    format = [] ∨ IsCustom format ∨ ∃ letter digits style, format = letter :: digits ∧
      readsAsStandard format ∧ StandardStyle.ofLetter? letter = some style := by
  cases format with
  | nil => exact .inl rfl
  | cons letter digits =>
    right
    cases hstandard : readsAsStandard (letter :: digits) with
    | false => exact .inl ⟨by simp, hstandard⟩
    | true =>
      right
      obtain ⟨f, hf⟩ := h
      cases hstyle : StandardStyle.ofLetter? letter with
      | some style => exact ⟨letter, digits, style, rfl, rfl, hstyle⟩
      | none => simp [NumberFormat.parse, hstandard, NumberFormat.readStandard, hstyle,
          Except.map] at hf

/-- **A letter that names no notation** is left of the format without its fraction. -/
def BreaksWithoutFraction (format : Text) : Prop :=
  .semicolon ∉ lex format ∧
    ¬ Readable (Token.sources (Anatomy.ofTokens (lex format)).withoutFraction)

/-! ## What is left without the fraction -/

/-- Only the point and placeholders go. -/
theorem mem_withoutFraction {format : Text} {c : Char} (h : c ∈ format)
    (hc : c ≠ '.' ∧ c ≠ '0' ∧ c ≠ '#') :
    c ∈ Token.sources (Anatomy.ofTokens (lex format)).withoutFraction := by
  rw [← sources_lex format, ← Anatomy.tokens_ofTokens (lex format)] at h
  generalize Anatomy.ofTokens (lex format) = a at h ⊢
  rw [Anatomy.withoutFraction, Token.sources_append, Token.sources_append]
  rw [Anatomy.tokens, Anatomy.mantissa, Token.sources_append, Token.sources_append,
    List.append_assoc] at h
  refine List.mem_append.2 ((List.mem_append.1 h).imp_right fun h => ?_)
  refine List.mem_append.2 ((List.mem_append.1 h).imp_left fun h => ?_)
  obtain ⟨t, ht, hct⟩ := List.mem_flatMap.1 h
  refine List.mem_flatMap.2 ⟨t, ?_, hct⟩
  unfold Anatomy.fractionPart at ht
  unfold Anatomy.leftover
  cases hfraction : a.fraction? with
  | none => simp [hfraction] at ht
  | some fraction =>
    rw [hfraction] at ht
    rcases List.mem_cons.1 ht with rfl | ht
    · exact absurd (List.mem_singleton.1 hct) hc.1
    · refine List.mem_filter.2 ⟨ht, ?_⟩
      cases t with
      | zero => exact absurd (List.mem_singleton.1 hct) hc.2.1
      | hash => exact absurd (List.mem_singleton.1 hct) hc.2.2
      | _ => rfl

/-- A character that is no letter, digit, point or placeholder keeps the format
readable. -/
theorem not_breaksWithoutFraction_of_mem {format : Text} {c : Char} (h : c ∈ format)
    (hc : c ≠ '.' ∧ c ≠ '0' ∧ c ≠ '#') (halpha : c.isAlpha = false) (hdigit : c.isDigit = false) :
    ¬ BreaksWithoutFraction format := fun hbreaks =>
  hbreaks.2 (isCustom_of_mem (mem_withoutFraction h hc) halpha hdigit).readable

/-- A format without a point has nothing to lose. -/
theorem not_breaksWithoutFraction_of_readable {format : Text} (h : Readable format)
    (hpoint : '.' ∉ format) : ¬ BreaksWithoutFraction format := by
  rintro ⟨-, hbreaks⟩
  have htokens := Anatomy.tokens_ofTokens (lex format)
  have hfraction : (Anatomy.ofTokens (lex format)).fraction? = none := by
    cases hfraction : (Anatomy.ofTokens (lex format)).fraction? with
    | none => rfl
    | some fraction =>
      refine absurd ?_ hpoint
      rw [← sources_lex format, ← htokens]
      refine List.mem_flatMap.2 ⟨.point, ?_, List.mem_singleton.2 rfl⟩
      simp [Anatomy.tokens, Anatomy.mantissa, Anatomy.fractionPart, hfraction]
  refine hbreaks ?_
  rw [show (Anatomy.ofTokens (lex format)).withoutFraction =
      (Anatomy.ofTokens (lex format)).tokens by
    simp [Anatomy.withoutFraction, Anatomy.leftover, Anatomy.tokens, Anatomy.mantissa,
      Anatomy.fractionPart, hfraction], htokens, sources_lex]
  exact h

/-- A standard format has no point. -/
theorem point_notMem_of_readsAsStandard {format : Text} (h : readsAsStandard format) :
    '.' ∉ format := fun hmem => by
  simp [(isCustom_of_mem hmem (by decide) (by decide)).2] at h

/-! ## Rewritten formats -/

section Rewritten

variable {format : Text}

/-- A custom format without its decimals is read, unless it breaks. -/
theorem readable_withoutDecimals_iff (h : IsCustom format) (trailingZeros : Bool) :
    Readable (withDecimals? (some 0) trailingZeros format) ↔ ¬ BreaksWithoutFraction format := by
  by_cases hsemicolon : .semicolon ∈ lex format
  · refine iff_of_true (IsCustom.readable ?_) fun hbreaks => hbreaks.1 hsemicolon
    exact (isCustom_withDecimals?_iff 0 trailingZeros h).2 fun hcollapses =>
      hcollapses.2.1 hsemicolon
  · rw [withDecimals?_of_isCustom 0 trailingZeros h,
      changeSections_of_not_mem (sources_fraction trailingZeros _) hsemicolon,
      show (fun _ => Token.fractionTokens (if trailingZeros then .zero else .hash)
          (0 : Int).natAbs) =
        fun _ : List Token => [] from rfl, Anatomy.rewritten_nil]
    simp only [BreaksWithoutFraction, hsemicolon, true_and, not_false_eq_true, not_not]

/-- **With other decimals a format is read**, unless it breaks without any. -/
theorem readable_withDecimals?_iff (h : Readable format) (decimals : Int) (trailingZeros : Bool) :
    Readable (withDecimals? (some decimals) trailingZeros format) ↔
      ¬(decimals = 0 ∧ BreaksWithoutFraction format) := by
  rcases h.cases with rfl | hcustom | ⟨letter, digits, style, rfl, hstandard, hstyle⟩
  · -- The empty format is a single placeholder here.
    have hzero : IsCustom ['0'] := by decide
    have hlex : lex ['0'] = [.zero] := lex_of_readAlone (List.all_eq_true.1 (by decide))
    have hplain : ¬ Collapses ['0'] := fun hcollapses => hcollapses.2 (by rw [hlex]; decide)
    refine iff_of_true ?_ fun hbreaks => ?_
    · have hnew := (isCustom_withDecimals?_iff decimals trailingZeros hzero).2
        fun hcollapses => hplain hcollapses.2
      exact hnew.readable
    · exact not_breaksWithoutFraction_of_readable readable_nil (by simp) hbreaks.2
  · by_cases hdecimals : decimals = 0
    · subst hdecimals
      rw [readable_withoutDecimals_iff hcustom]
      simp
    · refine iff_of_true (IsCustom.readable ?_) fun hbreaks => hdecimals hbreaks.1
      exact (isCustom_withDecimals?_iff decimals trailingZeros hcustom).2 fun hcollapses =>
        hdecimals hcollapses.1
  · have hletter := readable_of_letter hstyle
    refine iff_of_true ?_ fun hbreaks => ?_
    · rw [withDecimals?, withDecimals, if_neg (List.cons_ne_nil _ _), hstandard]
      simp only [hstyle]
      cases style <;> exact hletter _
    · exact not_breaksWithoutFraction_of_readable (hletter digits)
        (point_notMem_of_readsAsStandard hstandard) hbreaks.2

/-- A format with more optional decimals is read. -/
theorem readable_withExtraDecimals (h : Readable format) (extra : Nat) :
    Readable (withExtraDecimals extra format) := by
  by_cases hcustom : IsCustom format
  · exact (widens_withExtraDecimals hcustom extra).isCustom.readable
  · have hstays : format = [] ∨ readsAsStandard format = true := by
      simpa [IsCustom, or_iff_not_imp_left] using hcustom
    rwa [withExtraDecimals, if_pos (.inr hstays)]

end Rewritten

/-! ## Showing a number -/

namespace FormatOptions

/-- The formats that stand in for others are custom formats. -/
theorem readable_formatInUse {format : Text} (h : Readable format) (options : FormatOptions) :
    Readable (options.formatInUse format) := by
  unfold formatInUse
  split
  · cases hlookup : compactFormats.lookup format with
    | none => exact h
    | some compact =>
      obtain ⟨before, after, hsplit, -⟩ := List.lookup_eq_some_iff.1 hlookup
      have hall : ∀ pair ∈ compactFormats, IsCustom pair.2 :=
        List.forall_mem_cons.2 ⟨by decide, List.forall_mem_singleton.2 (by decide)⟩
      exact (hall (format, compact) (by rw [hsplit]; simp)).readable
  · exact h

end FormatOptions

namespace UnitSystem

/-- The format in which a number is shown without a unit: the general format cannot take
decimals. -/
def plainFormat (format : Text) (decimals : Decimals) : Text :=
  decimals.apply <|
    if decimals.count?.isSome ∧ (format = ['G'] ∨ format = ['g']) then
      ['#', ',', '0', '.', '0', '0']
    else format

theorem formatPlain_ok_iff {c : Culture} {template? : Option Text} {format : Text}
    {decimals : Decimals} {value : Float} :
    (∃ text, formatPlain c template? format decimals value = .ok text) ↔
      Readable (plainFormat format decimals) := by
  unfold formatPlain Readable
  change (∃ text, (NumberFormat.parse (plainFormat format decimals)).map _ = .ok text) ↔ _
  cases NumberFormat.parse (plainFormat format decimals) <;> simp [Except.map]

theorem readable_plainFormat_iff {format : Text} (h : Readable format) (decimals : Decimals) :
    Readable (plainFormat format decimals) ↔
      ¬(decimals.count? = some 0 ∧ BreaksWithoutFraction format) := by
  unfold plainFormat Decimals.apply
  cases hcount : decimals.count? with
  | none => simpa [withDecimals?] using h
  | some count =>
    have hzero : count = 0 ↔ count.toInt = 0 := by rw [← Int32.toInt_zero, Int32.toInt_inj]
    simp only [Option.isSome_some, true_and, Option.some.injEq, Option.map_some, hzero]
    split
    · next hgeneral =>
      -- The general format breaks neither by itself nor in the one that stands in for it.
      have hgrouped : IsCustom ['#', ',', '0', '.', '0', '0'] := by decide
      refine iff_of_true ?_ fun hbreaks => ?_
      · refine (readable_withDecimals?_iff hgrouped.readable _ decimals.trailingZeros).2
          fun hbreaks => ?_
        exact not_breaksWithoutFraction_of_mem (c := ',') (by simp) (by decide) (by decide)
          (by decide) hbreaks.2
      · refine not_breaksWithoutFraction_of_readable h ?_ hbreaks.2
        rcases hgeneral with rfl | rfl <;> decide
    · exact readable_withDecimals?_iff h _ decimals.trailingZeros

variable (s : UnitSystem) (value : Float) (format : Text) (decimals : Decimals)

/-- With an exponent a format is custom, and stays so without its decimals. -/
theorem shownFormat_of_needsExponent (h : s.needsExponent value format) :
    IsCustom (s.shownFormat value format decimals) ∧
      ¬ BreaksWithoutFraction (s.shownFormat value format decimals) := by
  have hmem : '+' ∈ s.shownFormat value format decimals := by
    rw [shownFormat, if_pos h, withExponent]
    simp
  exact ⟨isCustom_of_mem hmem (by decide) (by decide),
    not_breaksWithoutFraction_of_mem hmem (by decide) (by decide) (by decide)⟩

theorem readable_shownFormat {format : Text} (h : Readable format) :
    Readable (s.shownFormat value format decimals) := by
  cases hexponent : s.needsExponent value format with
  | true => exact (s.shownFormat_of_needsExponent value format decimals hexponent).1.readable
  | false => rwa [shownFormat, if_neg (by simp [hexponent])]

/-- **The format is refused** once it is rewritten: no decimals are asked for, the number
is shown without an exponent, and the format breaks without its fraction. -/
def Refuses (options : FormatOptions) : Prop :=
  decimals.count? = some 0 ∧ s.needsExponent value (options.formatInUse format) = false ∧
    BreaksWithoutFraction (options.formatInUse format)

theorem plainFormat_shownFormat_iff (options : FormatOptions) {format : Text}
    (h : Readable format) :
    Readable (plainFormat (s.shownFormat value (options.formatInUse format) decimals) decimals) ↔
      ¬ s.Refuses value format decimals options := by
  have hinUse := FormatOptions.readable_formatInUse h options
  rw [readable_plainFormat_iff (s.readable_shownFormat value decimals hinUse), Refuses]
  cases hexponent : s.needsExponent value (options.formatInUse format) with
  | true =>
    have hshown :=
      s.shownFormat_of_needsExponent value (options.formatInUse format) decimals hexponent
    simp [hshown.2]
  | false => simp [shownFormat, hexponent]

/-- Numbers are shown in a unit as they are without one. -/
theorem format_isOk_iff (options : FormatOptions) {format : Text} (h : Readable format) :
    (∃ text, s.format options format decimals value = .ok text) ↔
      ¬ s.Refuses value format decimals options := by
  have hshown :=
    s.readable_shownFormat value decimals (FormatOptions.readable_formatInUse h options)
  have hplain := s.plainFormat_shownFormat_iff value decimals options h
  unfold UnitSystem.format showIn
  split
  · next unit _ =>
    split
    · rw [formatPlain_ok_iff]
      cases hcount : decimals.count? with
      | some count => simpa [hcount] using hplain
      | none =>
        refine iff_of_true ?_ fun hrefuses => by simp [Refuses, hcount] at hrefuses
        refine (readable_plainFormat_iff ?_ decimals).2 fun hbreaks => by simp [hcount] at hbreaks
        exact readable_withExtraDecimals hshown unit.exponent.toNat
    · rwa [formatPlain_ok_iff]
  · rwa [formatPlain_ok_iff]

/-- **A word overflows**: the number is shown with an exponent, and the number of decimals that
is asked for has no opposite. -/
def Overflows (options : FormatOptions) : Prop :=
  decimals.count? = some Int32.minValue ∧ s.needsExponent value (options.formatInUse format)

theorem formatChecked?_of_overflows {options : FormatOptions}
    (h : s.Overflows value format decimals options) :
    s.formatChecked? options format decimals value = none := by
  rw [formatChecked?, shownFormatChecked?, if_pos h.2, Decimals.absChecked?, if_pos h.1]
  rfl

/-- Apart from that, checks change nothing. -/
theorem shownFormatChecked?_of_not_overflows {options : FormatOptions}
    (h : ¬ s.Overflows value format decimals options) :
    s.shownFormatChecked? value (options.formatInUse format) decimals =
      some (s.shownFormat value (options.formatInUse format) decimals) := by
  unfold shownFormatChecked? shownFormat
  split
  · next hneeds =>
    rw [Decimals.absChecked?, if_neg fun hleast => h ⟨hleast, hneeds⟩]
    rfl
  · rfl

theorem formatChecked?_of_not_overflows {options : FormatOptions}
    (h : ¬ s.Overflows value format decimals options) :
    s.formatChecked? options format decimals value =
      some (s.format options format decimals value) := by
  rw [formatChecked?, s.shownFormatChecked?_of_not_overflows value format decimals h]
  rfl

theorem formatChecked?_isOk_iff (options : FormatOptions) {format : Text} (h : Readable format) :
    (∃ text, s.formatChecked? options format decimals value = some (.ok text)) ↔
      ¬ s.Refuses value format decimals options ∧
        ¬ s.Overflows value format decimals options := by
  by_cases hoverflows : s.Overflows value format decimals options
  · rw [s.formatChecked?_of_overflows value format decimals hoverflows]
    simp [hoverflows]
  · rw [s.formatChecked?_of_not_overflows value format decimals hoverflows,
      ← s.format_isOk_iff value decimals options h]
    simp [hoverflows]

/-- **A readable format shows every number**, in any state of a system and with any
options, unless it is refused. Where words are checked, none may overflow. -/
theorem formats_ok_iff (options : FormatOptions) {format : Text} (h : Readable format) :
    ((∃ text, s.format options format decimals value = .ok text) ↔
      ¬ s.Refuses value format decimals options) ∧
    ((∃ text, (s.formatSingle options format decimals value).1 = .ok text) ↔
      ¬ s.Refuses value format decimals options) ∧
    ((∃ text, s.formatChecked? options format decimals value = some (.ok text)) ↔
      ¬ s.Refuses value format decimals options ∧ ¬ s.Overflows value format decimals options) ∧
    ((∃ text, (s.formatSingleChecked? options format decimals value).1 = some (.ok text)) ↔
      ¬ s.Refuses value format decimals options ∧ ¬ s.Overflows value format decimals options) :=
  ⟨s.format_isOk_iff value decimals options h,
    -- Picking a unit does not change the system in what the refusal looks at.
    (s.pickForSingle value).format_isOk_iff value decimals options h,
    s.formatChecked?_isOk_iff value decimals options h,
    (s.pickForSingle value).formatChecked?_isOk_iff value decimals options h⟩

theorem formats_ok_number : Readable "#,0.00".toList ∧
    ((∃ text, (ofTable .default (UnitSystemKind.default.table .english)).format .standard
      "#,0.00".toList ⟨some 1, true⟩ 1234.5 = .ok text) ∧
    (∃ text, ((ofTable .default (UnitSystemKind.default.table .english)).formatSingle .standard
      "#,0.00".toList ⟨some 1, true⟩ 1234.5).1 = .ok text) ∧
    ∃ text, (ofTable .default (UnitSystemKind.default.table .english)).formatChecked? .standard
      "#,0.00".toList ⟨some 1, true⟩ 1234.5 = some (.ok text)) := by
  have hreadable : Readable "#,0.00".toList := IsCustom.readable (by decide)
  have hdecimals : (⟨some 1, true⟩ : Decimals).count? ≠ some 0 := by decide
  have hleast : (⟨some 1, true⟩ : Decimals).count? ≠ some Int32.minValue := by decide
  obtain ⟨hformat, hsingle, hchecked, -⟩ := formats_ok_iff
    (ofTable .default (UnitSystemKind.default.table .english)) 1234.5 ⟨some 1, true⟩ .standard
    hreadable
  exact ⟨hreadable, hformat.2 fun h => hdecimals h.1, hsingle.2 fun h => hdecimals h.1,
    hchecked.2 ⟨fun h => hdecimals h.1, fun h => hleast h.1⟩⟩

/-- Without its decimals `A0.0` is `A0`, and that letter names no notation. -/
theorem not_format_ok_letter : Readable "A0.0".toList ∧
    ¬ ∃ text, (ofTable .default (UnitSystemKind.default.table .english)).format .standard
      "A0.0".toList ⟨some 0, true⟩ 5.0 = .ok text := by
  have hreadable : Readable "A0.0".toList := IsCustom.readable (by decide)
  have hrange : outOfRange 5.0 = false := by decide +kernel
  have hrefused : NumberFormat.parse "A0".toList = .error (.unknownStandard "A0".toList) := rfl
  have hlex : lex "A0.0".toList = [.literal 'A', .zero, .point, .zero] :=
    lex_of_readAlone (List.all_eq_true.1 (by decide))
  refine ⟨hreadable, fun hok => ?_⟩
  refine (format_isOk_iff _ 5.0 ⟨some 0, true⟩ .standard hreadable).1 hok ⟨rfl, ?_, ?_, ?_⟩
  · rw [needsExponent, hrange, Bool.and_false]
  · change .semicolon ∉ lex "A0.0".toList
    rw [hlex]
    decide
  · change ¬ Readable (Token.sources (Anatomy.ofTokens (lex "A0.0".toList)).withoutFraction)
    rw [hlex]
    rintro ⟨f, hf⟩
    cases hrefused.symm.trans hf

end UnitSystem

end TickLabels
