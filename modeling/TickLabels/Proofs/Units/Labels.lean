import TickLabels.Proofs.Render.Notation
import TickLabels.Proofs.Units.OwnExponent
/-!
# Labels and exponents

A number that is shown in a unit has no exponent next to the label, with one exception:
general and round-trip notation write one of their own for what is small or large as a
multiple of the unit (`UnitSystem.label_plain_unless_general`). The formats of such numbers
name no exponent, and this does not change when they get other decimals.
-/

namespace TickLabels

/-! ## Formats that name no exponent -/

/-- The format names no exponent, in any of its sections. -/
def NamesNoExponent (format : Text) : Prop :=
  ∀ t ∈ lex format, t.namesExponent = false

namespace NamesNoExponent

variable {format : Text}

/-- An exponent is named by its letter. -/
theorem of_notMem (hlower : 'e' ∉ format) (hupper : 'E' ∉ format) : NamesNoExponent format := by
  intro t ht
  have hsource : ∀ c ∈ t.source, c ∈ format := fun c hc => by
    rw [← sources_lex format]
    exact List.mem_flatMap.2 ⟨t, ht, hc⟩
  have hletter (c : Char) (hc : c ∈ t.source) : c ≠ 'e' ∧ c ≠ 'E' :=
    ⟨fun h => hlower (h ▸ hsource c hc), fun h => hupper (h ▸ hsource c hc)⟩
  cases t with
  | literal c =>
    have hc := hletter c (List.mem_singleton.2 rfl)
    simp [Token.namesExponent, Token.isExponent, Token.isLetterE, hc]
  | exponent m =>
    have hm := hletter m.letter (List.mem_cons_self ..)
    unfold ExponentMarker.letter at hm
    split at hm <;> simp at hm
  | _ => rfl

/-- A format that starts with the letter names one. -/
theorem letter_ne {letter : Char} {rest : Text} (h : NamesNoExponent (letter :: rest)) :
    letter ≠ 'e' ∧ letter ≠ 'E' := by
  have hfirst := h (Token.first letter rest).1 (by rw [lex_cons]; exact List.mem_cons_self ..)
  refine not_or.1 fun hletter => ?_
  have hmarker : Token.first letter rest = Token.marker letter rest := by
    rcases hletter with rfl | rfl <;> rfl
  rw [hmarker, Token.marker] at hfirst
  split at hfirst
  · rcases hletter with rfl | rfl <;> contradiction
  · contradiction

/-- **Rewriting brings in no exponent.** -/
theorem changeSections {change : Text → Text} {fraction : List Token → List Token}
    (hchange : ∀ digits, change (Token.sources digits) = Token.sources (fraction digits))
    (hfraction : ∀ digits, (∀ d ∈ digits, d.isDigit) → Token.IsFraction (fraction digits))
    (h : NamesNoExponent format) :
    NamesNoExponent (changeSections (replaceFraction change) format) := by
  intro t ht
  by_cases hsemicolon : t = .semicolon
  · rw [hsemicolon]
    rfl
  obtain ⟨text, htext, hmem⟩ := (exists_mem_lex_iff hsemicolon _).2 ht
  have hrun := lex_mem_sectionTokens htext
  rw [sectionTokens_changeSections hchange hfraction] at hrun
  obtain ⟨run, hrun, hlex⟩ := List.mem_map.1 hrun
  rw [← hlex] at hmem
  rcases Anatomy.mem_rewritten hmem with hold | hnew
  · rw [Anatomy.tokens_ofTokens] at hold
    exact h t ((Token.mem_cut_iff hsemicolon _).1 ⟨run, hrun, hold⟩)
  · rcases (isFraction_fractionDigits hfraction _).isDigit_or_eq_point hnew with hdigit | rfl
    · cases t <;> trivial
    · rfl

theorem withExtraDecimals (h : NamesNoExponent format) (extra : ℕ) :
    NamesNoExponent (withExtraDecimals extra format) := by
  unfold TickLabels.withExtraDecimals
  split
  · exact h
  · exact h.changeSections (Token.sources_widenedFraction extra)
      (Token.isFraction_widenedFraction extra)

/-- A letter with digits names none, unless the letter does. -/
theorem of_digits {letter : Char} {digits : Text} (hletter : letter ≠ 'e' ∧ letter ≠ 'E')
    (hdigits : ∀ c ∈ digits, c.isDigit) : NamesNoExponent (letter :: digits) := by
  have hnone (c : Char) (hc : c.isDigit = false) : c ∉ digits := fun hmem => by
    rw [hdigits c hmem] at hc
    contradiction
  refine of_notMem ?_ ?_ <;> rw [List.mem_cons, not_or]
  · exact ⟨hletter.1.symm, hnone 'e' (by decide)⟩
  · exact ⟨hletter.2.symm, hnone 'E' (by decide)⟩

theorem withDecimals (h : NamesNoExponent format) (count : ℕ) (trailingZeros : Bool) :
    NamesNoExponent (withDecimals count trailingZeros format) := by
  have hfilled : NamesNoExponent (if format = [] then ['0'] else format) := by
    split
    · exact of_notMem (by decide) (by decide)
    · exact h
  unfold TickLabels.withDecimals
  dsimp only
  generalize (if format = [] then ['0'] else format) = filled at hfilled ⊢
  split
  · next letter digits _ =>
    split
    · exact hfilled
    · exact hfilled
    · exact of_digits hfilled.letter_ne fun c hc => isDigit_of_mem_numeral hc
  · refine hfilled.changeSections ?_ (isFraction_fraction trailingZeros count)
    exact sources_fraction trailingZeros count

/-- **So a format may be asked for decimals.** -/
theorem plainFormat (h : NamesNoExponent format) (decimals : Decimals) :
    NamesNoExponent (UnitSystem.plainFormat format decimals) := by
  unfold UnitSystem.plainFormat Decimals.apply withDecimals?
  cases decimals.count? with
  | none => simpa using h
  | some count =>
    refine withDecimals ?_ _ _
    split
    · exact of_notMem (by decide) (by decide)
    · exact h

end NamesNoExponent

/-- The exponential notation has one letter. -/
theorem StandardStyle.eq_of_exponential {letter : Char} (h : ofLetter? letter = some .exponential) :
    letter = 'e' ∨ letter = 'E' := by
  have hupper : letter.toUpper = 'E' := by
    unfold ofLetter? at h
    split at h <;> first | assumption | simp at h
  unfold Char.toUpper at hupper
  split at hupper
  · next hlower =>
    have hmax : letter.toNat ≤ 'z'.toNat := hlower.2
    have hval := congrArg (fun c => c.val.toNat) hupper
    simp at hval hmax
    exact .inl (Char.ext (UInt32.toNat_inj.1 (show letter.toNat = 101 by omega)))
  · exact .inr hupper

/-- **A format without an exponent of its own names none.** -/
theorem Readable.namesNoExponent {format : Text} (h : Readable format)
    (hexponent : UnitSystem.hasExponent format = false) : NamesNoExponent format := by
  rcases h.cases with rfl | hcustom | ⟨letter, digits, style, rfl, hstandard, hstyle⟩
  · simp [NamesNoExponent]
  · rw [hcustom.hasExponent_eq, List.any_eq_false] at hexponent
    exact fun t ht => by simpa using hexponent t ht
  · have hplain : style ≠ .exponential := by
      simpa [UnitSystem.hasExponent, standardStyle?, hstandard, hstyle] using hexponent
    have hdigits : digits.all Char.isDigit := by
      rw [readsAsStandard, Bool.and_eq_true] at hstandard
      exact hstandard.2
    refine .of_digits ⟨?_, ?_⟩ (List.all_eq_true.1 hdigits)
    · rintro rfl
      exact hplain (Option.some.inj hstyle).symm
    · rintro rfl
      exact hplain (Option.some.inj hstyle).symm

namespace NamesNoExponent

variable {format : Text} (h : NamesNoExponent format)

include h

/-- No section of such a format has a marker. -/
theorem isMarker_sections : ∀ s ∈ (CustomFormat.ofText format).sections,
    ∀ item ∈ s.items, item.isMarker = false := by
  have hnone : ¬ ∃ text ∈ sectionTexts format, (Section.ofText text).hasMarker := by
    rintro ⟨text, htext, hmarker⟩
    rw [Section.hasMarker_ofText, List.any_eq_true] at hmarker
    obtain ⟨t, ht, hexponent⟩ := hmarker
    have hmem := (exists_mem_lex_iff (by rintro rfl; contradiction) format).1 ⟨text, htext, ht⟩
    simpa [Token.namesExponent, hexponent] using h t hmem
  intro s hs item hitem
  by_contra hmarker
  have hhas : s.hasMarker := List.any_eq_true.2 ⟨item, hitem, by simpa using hmarker⟩
  exact hnone ((CustomFormat.exists_section_iff (p := fun s => s.hasMarker)
    (by simp [Section.hasMarker_ofText]) format).2 (.inl ⟨s, hs, hhas⟩))

/-- If it is read as a standard format, this is not the exponential one. -/
theorem style_ne {f : StandardFormat} (hparse : NumberFormat.parse format = .ok (.standard f)) :
    f.style ≠ .exponential := by
  cases format with
  | nil =>
    obtain rfl : StandardFormat.general = f := by simpa [NumberFormat.parse] using hparse
    decide
  | cons letter digits =>
    intro hexponential
    cases hstandard : readsAsStandard (letter :: digits) with
    | false => simp [NumberFormat.parse, hstandard] at hparse
    | true =>
      cases hstyle : StandardStyle.ofLetter? letter with
      | none =>
        simp [NumberFormat.parse, hstandard, NumberFormat.readStandard, hstyle, Except.map]
          at hparse
      | some style =>
        simp only [NumberFormat.parse, hstandard, NumberFormat.readStandard, hstyle, if_true,
          Except.map, Except.ok.injEq, NumberFormat.standard.injEq] at hparse
        subst hparse
        obtain rfl : style = .exponential := hexponential
        rcases StandardStyle.eq_of_exponential hstyle with rfl | rfl
        · exact h.letter_ne.1 rfl
        · exact h.letter_ne.2 rfl

end NamesNoExponent

/-! ## Numbers in a label -/

namespace CustomFormat

variable {f : CustomFormat} {v : Float}

/-- A number is shown by one of the sections. -/
theorem shownBy_mem_sections (plain : Bool) : (f.shownBy plain v).1 ∈ f.sections := by
  have hselect (x : Float) : f.select x ∈ f.sections := by
    unfold select sections
    split_ifs <;> simp
  unfold shownBy
  split
  · exact hselect 0.0
  · exact hselect v

end CustomFormat

namespace NumberFormat

variable (f : NumberFormat) (x : Float)

/-- **The format puts the number into a template**: the number is finite, and where the
format has sections, the one that shows it has an item of the number. -/
def TakesTemplate : Prop :=
  x.isFinite ∧
    match f with
    | standard _ => True
    | custom f => (f.shownBy true x).1.items.any Item.isNumberPart

/-- **The format writes an exponent of its own** into a template. -/
def WritesExponent : Prop :=
  match f with
  | standard f => f.WritesExponent x
  | custom _ => False

variable {f x}

/-- A custom format is read as its sections. -/
theorem eq_ofText {format : Text} {f : CustomFormat} (h : parse format = .ok (.custom f)) :
    f = .ofText format := by
  cases format with
  | nil => simp [parse] at h
  | cons letter digits =>
    cases hstandard : readsAsStandard (letter :: digits) with
    | false => simpa [parse, hstandard, eq_comm] using h
    | true =>
      cases hstyle : StandardStyle.ofLetter? letter <;>
        simp [parse, hstandard, readStandard, hstyle, Except.map] at h

/-- What is not finite is shown by a symbol, and never in a template. -/
theorem format_of_not_isFinite (h : ¬ x.isFinite) (c : Culture) (template? : Option Text) :
    f.format c template? x = f.format c none x := by
  have hsymbol : ∃ symbol, c.symbolFor? x = some symbol := by
    have hparts : ¬ x.toModel.unpack.isFinite := h
    unfold Culture.symbolFor?
    change ∃ symbol, (if x.toModel.unpack.isNaN then _ else if x.toModel.unpack.isInf then _
      else _) = some symbol
    cases hx : x.toModel.unpack with
    | notANumber => exact ⟨_, rfl⟩
    | infinity s => exact ⟨_, rfl⟩
    | zero s => exact absurd (by rw [hx]; rfl) hparts
    | finite s m e hm => exact absurd (by rw [hx]; rfl) hparts
  obtain ⟨symbol, hsymbol⟩ := hsymbol
  simp only [format, hsymbol]

end NumberFormat

/-- **A format that names no exponent fills templates in plain notation**, unless it is a
general or round-trip format that writes an exponent. -/
theorem NamesNoExponent.fills {format : Text} (h : NamesNoExponent format) {f : NumberFormat}
    (hparse : NumberFormat.parse format = .ok f) (c : Culture) (x : Float) :
    (f.TakesTemplate x → ∃ before number after exponent?,
      Wraps (fun template? => f.format c template? x) before number after ∧
        InNotation c exponent? number ∧ (exponent? = none ↔ ¬ f.WritesExponent x)) ∧
    (¬ f.TakesTemplate x → ∀ template, f.format c (some template) x = f.format c none x) := by
  cases f with
  | standard f =>
    obtain ⟨exponent?, hnotation, hplain⟩ := f.inNotation_render x (h.style_ne hparse) c
    constructor
    · rintro ⟨hx, -⟩
      refine ⟨[], f.render c x, [], exponent?, ?_, hnotation, hplain⟩
      simp only [NumberFormat.format, symbolFor?_of_isFinite hx]
      exact ⟨by simp, by simp⟩
    · exact fun hnot template => NumberFormat.format_of_not_isFinite
        (fun hx => hnot ⟨hx, trivial⟩) c _
  | custom f =>
    obtain rfl := NumberFormat.eq_ofText hparse
    have hmarker : ∀ item ∈ ((CustomFormat.ofText format).shownBy false x).1.items,
        item.isMarker = false := h.isMarker_sections _ (CustomFormat.shownBy_mem_sections false)
    have hsection := (CustomFormat.shownBy_plain hmarker).1
    constructor
    · rintro ⟨hx, hnumber⟩
      simp only [hsection] at hnumber
      obtain ⟨parts, hparts, hwraps⟩ := CustomFormat.exists_wraps (c := c) hmarker hnumber
      simp only [NumberFormat.format_custom hx]
      exact ⟨_, parts.number, _, none, hwraps, .items _ hmarker hparts, iff_of_true rfl id⟩
    · intro hnot template
      by_cases hx : x.isFinite
      · rw [NumberFormat.format_custom hx, NumberFormat.format_custom hx]
        refine CustomFormat.render_eq_render_none hmarker ?_ _
        simpa [NumberFormat.TakesTemplate, hx, hsection] using hnot
      · exact NumberFormat.format_of_not_isFinite hx c _

namespace UnitSystem

variable {s : UnitSystem} {options : FormatOptions} {written text : Text} {decimals : Decimals}
variable {value : Float} {u : DisplayUnit}

/-- **The format of a number in a unit names no exponent**, with the decimals it gets. -/
theorem ShowsIn.namesNoExponent (h : s.ShowsIn value (options.formatInUse written) u)
    (hreadable : Readable written) (decimals : Decimals) :
    NamesNoExponent
      (plainFormat (u.formatFor (options.formatInUse written) decimals) decimals) := by
  have hformat := (FormatOptions.readable_formatInUse hreadable options).namesNoExponent
    h.hasExponent
  refine NamesNoExponent.plainFormat ?_ decimals
  unfold DisplayUnit.formatFor
  split
  · exact hformat
  · exact hformat.withExtraDecimals _

/-- **A label is combined with an exponent by general and round-trip notation only**, for a
multiple of the unit that is out of their plain range. -/
theorem label_plain_unless_general (h : s.ShowsIn value (options.formatInUse written) u)
    (hlabel : u.name.template ≠ []) (hreadable : Readable written)
    (htext : s.format options written decimals value = .ok text) :
    ∃ f, NumberFormat.parse
        (plainFormat (u.formatFor (options.formatInUse written) decimals) decimals) = .ok f ∧
      (f.TakesTemplate (u.measure value) → ∃ before number after exponent?,
        Wraps (fun template? => f.format options.culture template? (u.measure value))
          before number after ∧
        text = before ++ fillTemplate number u.name.template ++ after ∧
        InNotation options.culture exponent? number ∧
        (exponent? = none ↔ ¬ f.WritesExponent (u.measure value))) ∧
      (¬ f.TakesTemplate (u.measure value) →
        text = f.format options.culture none (u.measure value)) := by
  have hnames := h.namesNoExponent hreadable decimals
  rw [h.format_eq] at htext
  change (NumberFormat.parse (plainFormat _ decimals)).map _ = _ at htext
  cases hparse : NumberFormat.parse
      (plainFormat (u.formatFor (options.formatInUse written) decimals) decimals) with
  | error e => simp [hparse, Except.map] at htext
  | ok f =>
    obtain ⟨htakes, hnot⟩ := hnames.fills hparse options.culture (u.measure value)
    obtain rfl : f.format options.culture (some u.name.template) (u.measure value) = text := by
      simpa [hparse, Except.map, DisplayUnit.label?, hlabel] using htext
    refine ⟨f, rfl, fun htemplate => ?_, fun htemplate => hnot htemplate _⟩
    obtain ⟨before, number, after, exponent?, hwraps, hnotation⟩ := htakes htemplate
    exact ⟨before, number, after, exponent?, hwraps, hwraps.text_some _, hnotation⟩

/-- Five million in millions are shown plainly. -/
theorem label_plain_unless_general_millions :
    let s := (ofTable .default (UnitSystemKind.default.table .english)).pickFor 1e6
    Readable "0.0".toList ∧ s.format .standard "0.0".toList ⟨none, false⟩ 5e6 = .ok "5.0M".toList ∧
      ∃ u, s.ShowsIn 5e6 "0.0".toList u ∧ u.name.template ≠ [] ∧ ∃ before number after,
        "5.0M".toList = before ++ fillTemplate number u.name.template ++ after ∧
        InNotation .enUS none number := by
  intro s
  have hreadable : Readable "0.0".toList := IsCustom.readable (by decide)
  have htext : s.format .standard "0.0".toList ⟨none, false⟩ 5e6 = .ok "5.0M".toList := by
    decide +kernel
  have hlabel : ∀ u ∈ s.scalingUnit?, u.name.template ≠ [] := by decide +kernel
  have hformat : ∀ u ∈ s.scalingUnit?,
      plainFormat (u.formatFor "0.0".toList ⟨none, false⟩) ⟨none, false⟩ = "0.0######".toList := by
    decide +kernel
  have htakes : ∀ u ∈ s.scalingUnit?, (u.measure 5e6).isFinite ∧
      ((CustomFormat.ofText "0.0######".toList).shownBy true (u.measure 5e6)).1.items.any
        Item.isNumberPart := by
    decide +kernel
  obtain ⟨u, hu⟩ := Option.isSome_iff_exists.1 (show s.scalingUnit?.isSome by decide +kernel)
  have hshows : s.ShowsIn 5e6 "0.0".toList u :=
    ⟨hu, by decide +kernel, by decide +kernel, by decide +kernel⟩
  obtain ⟨f, hparse, htemplate, -⟩ :=
    label_plain_unless_general hshows (hlabel u hu) hreadable htext
  obtain rfl : NumberFormat.custom (.ofText "0.0######".toList) = f := by
    have hcustom := isCustom_iff.1 (show IsCustom "0.0######".toList by decide)
    change NumberFormat.parse (plainFormat (u.formatFor "0.0".toList _) _) = _ at hparse
    rw [hformat u hu, hcustom] at hparse
    exact Except.ok.inj hparse
  obtain ⟨before, number, after, exponent?, -, hsplit, hnotation, hplain⟩ := htemplate (htakes u hu)
  obtain rfl := hplain.2 id
  exact ⟨hreadable, htext, u, hshows, hlabel u hu, before, number, after, hsplit, hnotation⟩

/-- **A label with an exponent**: the number is readable as it is, but its multiple of the unit
in use is not. -/
theorem not_label_plain_trillions :
    let s := (ofTable .default (UnitSystemKind.default.table .english)).pickFor 1e12
    let n : WrittenNumber := ⟨⟨[5], []⟩, some ⟨true, [0, 5]⟩⟩
    ∃ u, s.ShowsIn 5e7 ['G'] u ∧ u.name.template = "\x7b0\x7dT".toList ∧
      s.format .standard ['G'] ⟨none, false⟩ 5e7 =
        .ok (fillTemplate (n.text .enUS true) u.name.template) := by
  intro s n
  have hlabel : ∀ u ∈ s.scalingUnit?, u.name.template = "\x7b0\x7dT".toList := by decide +kernel
  obtain ⟨u, hu⟩ := Option.isSome_iff_exists.1 (show s.scalingUnit?.isSome by decide +kernel)
  refine ⟨u, ⟨hu, by decide +kernel, by decide +kernel, by decide +kernel⟩, hlabel u hu, ?_⟩
  rw [hlabel u hu]
  decide +kernel

end UnitSystem

end TickLabels
