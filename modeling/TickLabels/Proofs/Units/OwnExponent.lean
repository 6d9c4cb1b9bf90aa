import TickLabels.Proofs.Units.Scientific
/-!
# Formats with an exponent of their own

A system leaves a custom format alone if it names an exponent: a number in such a format
is shown in no unit, and no other notation stands in for it. The system looks at the letters
of the whole format, while a section has an exponent only at a marker. So a letter `e` that
stands for itself keeps numbers out of units, although it is shown as text, and so does a
section that is never used (`UnitSystem.leavesAlone_iff_namesExponent`). Quoted letters do not
count.
-/

namespace TickLabels

/-! ## Sections that name an exponent -/

namespace Token

/-- The letter `e` of either case, as a character that stands for itself. -/
def isLetterE : Token → Bool
  | literal c => c = 'e' || c = 'E'
  | _ => false

/-- **The token names an exponent.** -/
def namesExponent (t : Token) : Bool :=
  t.isExponent || t.isLetterE

/-- The tokens of the runs are those between the separators. -/
theorem mem_cut_iff {t : Token} (ht : t ≠ .semicolon) (tokens : List Token) :
    (∃ run ∈ (cut tokens).1 :: (cut tokens).2, t ∈ run) ↔ t ∈ tokens := by
  induction tokens with
  | nil => simp [cut]
  | cons head tail ih =>
    rw [List.mem_cons, ← ih]
    by_cases h : head = .semicolon
    · simp [cut, h, ht]
    · simp [cut, h, or_assoc]

end Token

/-- **The sections of a format have its tokens** but the separators. -/
theorem exists_mem_lex_iff {t : Token} (ht : t ≠ .semicolon) (format : Text) :
    (∃ text ∈ sectionTexts format, t ∈ lex text) ↔ t ∈ lex format := by
  rw [← Token.mem_cut_iff ht]
  change _ ↔ ∃ run ∈ sectionTokens format, t ∈ run
  rw [← map_lex_sectionTexts]
  simp

namespace Item

theorem any_isMarker_consLiteral (text : Text) (items : List Item) :
    (consLiteral text items).any isMarker = items.any isMarker := by
  unfold consLiteral
  split <;> rfl

/-- The first marker is an item, unless one has been met before. -/
theorem any_isMarker_ofTokens (pointMet markerMet : Bool) (tokens : List Token) :
    (ofTokens pointMet markerMet tokens).any isMarker =
      (!markerMet && tokens.any Token.isExponent) := by
  fun_induction ofTokens pointMet markerMet tokens with
  | case1 => simp
  | _ => simp_all [any_isMarker_consLiteral, isMarker, Token.isExponent]

end Item

namespace Section

/-- The section has an exponent marker among its items. -/
def hasMarker (s : Section) : Bool :=
  s.items.any Item.isMarker

/-- **The section names an exponent**: it has a marker, or a letter `e` stands in it for
itself, not in quotes and not behind a backslash. -/
def namesExponent (s : Section) : Bool :=
  s.hasMarker || (lex s.source).any Token.isLetterE

theorem hasMarker_ofText (text : Text) :
    (ofText text).hasMarker = (lex text).any Token.isExponent :=
  Item.any_isMarker_ofTokens false false (lex text)

theorem namesExponent_ofText (text : Text) :
    (ofText text).namesExponent = (lex text).any Token.namesExponent := by
  rw [namesExponent, hasMarker_ofText, Bool.eq_iff_iff]
  simp [Token.namesExponent, and_or_left, exists_or, ofText]

theorem namesExponent_nil : (ofText []).namesExponent = false := by
  rw [namesExponent_ofText, lex_nil]
  rfl

end Section

namespace CustomFormat

/-- The sections that show numbers: positive ones, negative ones and zero. -/
def sections (f : CustomFormat) : List Section :=
  [f.positive, f.negative, f.zero]

/-- **What holds of some section holds of one in use or of one behind the third.** An empty
section is never used, except that it may be the first. -/
theorem exists_section_iff {p : Section → Prop} (hnil : ¬ p (.ofText [])) (format : Text) :
    (∃ text ∈ sectionTexts format, p (.ofText text)) ↔
      (∃ s ∈ (ofText format).sections, p s) ∨
        ∃ text ∈ (sectionTexts format).drop 3, p (.ofText text) := by
  obtain ⟨a, rest, hsections⟩ := List.exists_cons_of_ne_nil (sectionTexts_ne_nil format)
  simp only [sections, ofText, SignTexts.ofFormat, hsections]
  rcases rest with _ | ⟨b, _ | ⟨c, rest⟩⟩
  · simp
  · by_cases hb : b = [] <;> simp [Option.filter, hb, hnil, or_comm]
  · by_cases hb : b = [] <;> by_cases hc : c = [] <;> simp [Option.filter, hb, hc, hnil] <;> tauto

end CustomFormat

/-! ## Formats that are left alone -/

theorem IsCustom.standardStyle?_eq {format : Text} (h : IsCustom format) :
    standardStyle? format = none := by
  unfold standardStyle?
  rw [h.2]

/-- The system reads this off the tokens of the whole format. -/
theorem IsCustom.hasExponent_eq {format : Text} (h : IsCustom format) :
    UnitSystem.hasExponent format = (lex format).any Token.namesExponent := by
  rw [UnitSystem.hasExponent, h.standardStyle?_eq]
  simp only [h.2, Bool.not_false, Bool.true_and, Metadata.ofFormat, Metadata.ofTokens]
  congr 1
  funext t
  cases t <;> simp [Token.namesExponent, Token.isExponent, Token.isLetterE]

/-- **A custom format has an exponent of its own if some section names one.** -/
theorem IsCustom.hasExponent_iff {format : Text} (h : IsCustom format) :
    UnitSystem.hasExponent format ↔
      ∃ text ∈ sectionTexts format, (Section.ofText text).namesExponent := by
  have hsections (t : Token) (ht : t.namesExponent) :=
    exists_mem_lex_iff (t := t) (by rintro rfl; contradiction) format
  simp only [h.hasExponent_eq, Section.namesExponent_ofText, List.any_eq_true]
  constructor
  · rintro ⟨t, ht, hnames⟩
    obtain ⟨text, htext, hmem⟩ := (hsections t hnames).2 ht
    exact ⟨text, htext, t, hmem, hnames⟩
  · rintro ⟨text, htext, t, hmem, hnames⟩
    exact ⟨t, (hsections t hnames).1 ⟨text, htext, hmem⟩, hnames⟩

namespace DisplayUnit

/-- The template around numbers in the unit, unless it has none. -/
def label? (u : DisplayUnit) : Option Text :=
  if u.name.template = [] then none else some u.name.template

/-- The format of numbers in the unit: where no decimals are asked for, it has as many more
as the unit takes digits away. -/
def formatFor (u : DisplayUnit) (format : Text) (decimals : Decimals) : Text :=
  if decimals.count?.isSome then format else withExtraDecimals u.exponent.toNat format

end DisplayUnit

namespace UnitSystem

/-- **A number is shown in the unit in use**: it needs no exponent, and its format has none
and goes with units. -/
structure ShowsIn (s : UnitSystem) (value : Float) (format : Text) (u : DisplayUnit) : Prop where
  scalingUnit : s.scalingUnit? = some u
  supports : s.supports format
  hasExponent : hasExponent format = false
  needsExponent : s.needsExponent value format = false

variable {s : UnitSystem} {options : FormatOptions} {written format : Text} {decimals : Decimals}
variable {value : Float} {u : DisplayUnit}

/-- What needs an exponent gets one. -/
theorem hasExponent_shownFormat (h : s.needsExponent value format) :
    UnitSystem.hasExponent (s.shownFormat value format decimals) := by
  rw [s.shownFormat_eq format value decimals h]
  exact hasExponent_exponentFormat
    (decimals.isBare_onMantissa (isBare_exponentMantissa format value decimals))

/-- **A number in a unit** is its multiple of the unit with the label around. -/
theorem ShowsIn.format_eq (h : s.ShowsIn value (options.formatInUse written) u) :
    s.format options written decimals value =
      formatPlain options.culture u.label? (u.formatFor (options.formatInUse written) decimals)
        decimals (u.measure value) := by
  have hshown : s.shownFormat value (options.formatInUse written) decimals =
      options.formatInUse written := if_neg (by simp [h.needsExponent])
  unfold UnitSystem.format showIn
  simp only [hshown, h.scalingUnit, h.supports, h.hasExponent]
  rfl

/-- **Any other number has no label**, and is shown as it is. -/
theorem format_eq_of_not_showsIn (h : ∀ u, ¬ s.ShowsIn value (options.formatInUse written) u) :
    s.format options written decimals value =
      formatPlain options.culture none
        (s.shownFormat value (options.formatInUse written) decimals) decimals value := by
  unfold UnitSystem.format showIn
  cases hunit : s.scalingUnit? with
  | none => rfl
  | some u =>
    refine if_neg fun hscales => ?_
    rw [Bool.and_eq_true, Bool.not_eq_true'] at hscales
    cases hneeds : s.needsExponent value (options.formatInUse written) with
    | true => simp [hasExponent_shownFormat hneeds] at hscales
    | false =>
      rw [shownFormat, if_neg (by simp [hneeds])] at hscales
      exact h u ⟨hunit, hscales.1, hscales.2, hneeds⟩

/-- **The format is left alone**: no system shows a number in it with another exponent, and
none in a unit. -/
structure LeavesAlone (format : Text) : Prop where
  needsExponent (s : UnitSystem) (value : Float) : s.needsExponent value format = false
  format_eq (s : UnitSystem) (options : FormatOptions) (written : Text) (decimals : Decimals)
    (value : Float) (h : options.formatInUse written = format) :
    s.format options written decimals value =
      formatPlain options.culture none format decimals value

/-- Data labels have a number out of range in every custom format that is not left alone. -/
theorem leavesAlone_iff (h : IsCustom format) : LeavesAlone format ↔ hasExponent format := by
  constructor
  · intro halone
    have hneeds := halone.needsExponent (.ofTable .dataLabels []) scientificAbove
    have hrange : outOfRange scientificAbove = true := by decide +kernel
    simpa [needsExponent, supports, ofTable, h.standardStyle?_eq, hrange] using hneeds
  · intro hexponent
    have hneeds (s : UnitSystem) (value : Float) : s.needsExponent value format = false := by
      simp [needsExponent, hexponent]
    refine ⟨hneeds, fun s options written decimals value hwritten => ?_⟩
    rw [format_eq_of_not_showsIn, hwritten, shownFormat, if_neg (by simp [hneeds])]
    intro u hshows
    rw [hwritten] at hshows
    simp [hshows.hasExponent] at hexponent

/-- **A custom format is left alone exactly if it names an exponent**, in a section that is
used or in one behind the third. In any other format that goes with units, numbers out of
range are shown with an exponent, except by verbose systems, and all others in the unit in
use. -/
theorem leavesAlone_iff_namesExponent (h : IsCustom format) :
    (LeavesAlone format ↔ hasExponent format) ∧
    (LeavesAlone format ↔
      (∃ used ∈ (CustomFormat.ofText format).sections, used.namesExponent) ∨
        ∃ text ∈ (sectionTexts format).drop 3, (Section.ofText text).namesExponent) ∧
    (¬ LeavesAlone format → ∀ s : UnitSystem, s.supports format →
      (∀ value, s.needsExponent value format ↔ s.kind ≠ .verbose ∧ outOfRange value) ∧
      ∀ options written decimals value u, options.formatInUse written = format →
        s.needsExponent value format = false → s.scalingUnit? = some u →
        s.format options written decimals value =
          formatPlain options.culture u.label? (u.formatFor format decimals) decimals
            (u.measure value)) := by
  have halone := leavesAlone_iff h
  refine ⟨halone, ?_, fun hnot s hsupports => ?_⟩
  · rw [halone, h.hasExponent_iff,
      ← CustomFormat.exists_section_iff (by simp [Section.namesExponent_nil])]
  · have hexponent : hasExponent format = false := by simpa [halone] using hnot
    refine ⟨fun value => by simp [needsExponent, hsupports, hexponent], ?_⟩
    rintro options written decimals value u rfl hneeds hunit
    exact ShowsIn.format_eq ⟨hunit, hsupports, hexponent, hneeds⟩

/-- A letter in quotes is text, and the format goes with units. -/
theorem leavesAlone_iff_namesExponent_quoted :
    IsCustom "0 'Euro'".toList ∧ ¬ LeavesAlone "0 'Euro'".toList := by
  have hcustom : IsCustom "0 'Euro'".toList := by decide
  refine ⟨hcustom, fun halone => ?_⟩
  have hnames := (leavesAlone_iff_namesExponent hcustom).2.1.1 halone
  have hlex : lex "0 'Euro'".toList = [.zero, .literal ' ', .quoted '\'' "Euro".toList true] := by
    simp [lex_cons, Token.first, Token.isQuote, Token.quotation, Token.ofChar]
  rw [← CustomFormat.exists_section_iff (by simp [Section.namesExponent_nil]),
    sectionTexts_of_not_mem (by rw [hlex]; decide)] at hnames
  obtain ⟨text, htext, hnames⟩ := hnames
  rw [List.mem_singleton.1 htext, Section.namesExponent_ofText, hlex] at hnames
  contradiction

/-- **A letter that is shown as text** counts as an exponent: without its quotes the currency
keeps numbers out of units, although the only section has no marker. -/
theorem leavesAlone_euro :
    IsCustom "0 Euro".toList ∧ LeavesAlone "0 Euro".toList ∧
      ∀ text ∈ sectionTexts "0 Euro".toList, (Section.ofText text).hasMarker = false := by
  have hcustom : IsCustom "0 Euro".toList := by decide
  have hlex : lex "0 Euro".toList =
      [.zero, .literal ' ', .literal 'E', .literal 'u', .literal 'r', .literal 'o'] := by
    simp [lex_cons, Token.first, Token.isQuote, Token.marker, Token.leadingSign, Token.ofChar]
  have hsections : sectionTexts "0 Euro".toList = ["0 Euro".toList] :=
    sectionTexts_of_not_mem (by rw [hlex]; decide)
  rw [leavesAlone_iff hcustom, hcustom.hasExponent_iff, hsections]
  refine ⟨hcustom, ⟨_, List.mem_singleton.2 rfl, ?_⟩, List.forall_mem_singleton.2 ?_⟩
  · rw [Section.namesExponent_ofText, hlex]
    rfl
  · rw [Section.hasMarker_ofText, hlex]
    rfl

end UnitSystem

end TickLabels
