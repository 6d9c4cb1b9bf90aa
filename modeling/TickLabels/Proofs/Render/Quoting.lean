import TickLabels.Proofs.Binary64.Signed
import TickLabels.Proofs.Pattern.Decimals
import TickLabels.Proofs.Render.Templates

/-!
# Quoted text in front of a format

Text in quotes is one token, whatever stands in it, and that token is a literal among the
items: it opens no section, has no place for a digit and does not scale the number. So a
section behind a quotation shows what it shows alone, with the text in front
(`Section.Follows.render_eq`). The sign of the number stands before both
(`formatWith_quotation`).
-/

namespace TickLabels

/-! ## A literal in front of the items -/

namespace Item

/-- Text in front of items is an item of its own, or it is the front of the first. -/
theorem consLiteral_cases (text : Text) (items : List Item) :
    consLiteral text items = literal text :: items ∨
      ∃ next rest, items = literal next :: rest ∧
        consLiteral text items = literal (text ++ next) :: rest := by
  cases items with
  | nil => exact .inl rfl
  | cons item rest =>
    cases item with
    | literal next => exact .inr ⟨next, rest, rfl, rfl⟩
    | _ => exact .inl rfl

section Cut

variable {p : Item → Bool} (hp : ∀ text, p (literal text) = true) (text : Text) (items : List Item)

include hp

theorem takeWhile_consLiteral :
    (consLiteral text items).takeWhile p = consLiteral text (items.takeWhile p) := by
  cases items with
  | nil => exact List.takeWhile_cons_of_pos (hp text)
  | cons item rest =>
    cases hitem : p item with
    | true => cases item <;> simp [consLiteral, hp, hitem]
    | false => cases item <;> simp_all [consLiteral]

theorem dropWhile_consLiteral : (consLiteral text items).dropWhile p = items.dropWhile p := by
  obtain heq | ⟨next, rest, rfl, heq⟩ := consLiteral_cases text items
  · rw [heq, List.dropWhile_cons_of_pos (hp text)]
  · rw [heq, List.dropWhile_cons_of_pos (hp _), List.dropWhile_cons_of_pos (hp _)]

end Cut

variable (text : Text) (items : List Item)

theorem integerPlaceholders_consLiteral :
    integerPlaceholders (consLiteral text items) = integerPlaceholders items := by
  rw [integerPlaceholders, takeWhile_consLiteral (fun _ => rfl), filter_consLiteral fun _ => rfl,
    integerPlaceholders]

theorem fractionPlaceholders_consLiteral :
    fractionPlaceholders (consLiteral text items) = fractionPlaceholders items := by
  rw [fractionPlaceholders, dropWhile_consLiteral (fun _ => rfl), fractionPlaceholders]

theorem leastIntegerDigits_consLiteral :
    leastIntegerDigits (consLiteral text items) = leastIntegerDigits items := by
  rw [leastIntegerDigits, integerPlaceholders_consLiteral, leastIntegerDigits]

theorem leastFractionDigits_consLiteral :
    leastFractionDigits (consLiteral text items) = leastFractionDigits items := by
  rw [leastFractionDigits, fractionPlaceholders_consLiteral, leastFractionDigits]

theorem point_mem_consLiteral : point ∈ consLiteral text items ↔ point ∈ items := by
  obtain heq | ⟨next, rest, rfl, heq⟩ := consLiteral_cases text items <;> simp [heq]

end Item

/-! ## What it contributes -/

/-- The parts behind a text. -/
def Parts.behind (text : Text) (parts : Parts) : Parts :=
  { parts with before := text ++ parts.before }

/-- What does not belong to the number stands before it, if it comes first. -/
theorem numberParts?_cons {item : Item} (h : item.isNumberPart = false) (text : Text)
    (pieces : List (Item × Text)) :
    numberParts? ((item, text) :: pieces) = (numberParts? pieces).map (Parts.behind text) := by
  have hlead : ((item, text) :: pieces).takeWhile (!·.1.isNumberPart) =
      (item, text) :: pieces.takeWhile (!·.1.isNumberPart) :=
    List.takeWhile_cons_of_pos (by simp [h])
  simp only [numberParts?, hlead, List.length_cons, List.drop_succ_cons, Option.map_map]
  rfl

namespace Supply

variable (c : Culture) (s : Supply) (text : Text) (items : List Item)

theorem flatten_contributions_consLiteral :
    (contributions c s false (Item.consLiteral text items)).flatten =
      text ++ (contributions c s false items).flatten := by
  obtain heq | ⟨next, rest, rfl, heq⟩ := Item.consLiteral_cases text items
  · rw [heq]
    rfl
  · rw [heq]
    exact List.append_assoc text next _

theorem numberParts?_consLiteral :
    numberParts? ((Item.consLiteral text items).zip
        (contributions c s false (Item.consLiteral text items))) =
      (numberParts? (items.zip (contributions c s false items))).map (Parts.behind text) := by
  obtain heq | ⟨next, rest, rfl, heq⟩ := Item.consLiteral_cases text items
  · rw [heq]
    exact numberParts?_cons rfl text _
  · rw [heq]
    have hfront (first : Text) : numberParts? ((Item.literal first :: rest).zip
        (contributions c s false (.literal first :: rest))) =
        (numberParts? (rest.zip (contributions c s false rest))).map (Parts.behind first) :=
      numberParts?_cons rfl first _
    rw [hfront, hfront, Option.map_map]
    refine congrArg (Option.map · _) (funext fun parts => ?_)
    simp [Parts.behind]

end Supply

namespace SectionText

/-- A rendered section behind a text. -/
def behind (text : Text) (r : SectionText) : SectionText :=
  { r with before := text ++ r.before }

theorem text_behind (text : Text) (r : SectionText) (template? : Option Text) :
    (r.behind text).text template? = text ++ r.text template? := by
  cases template? with
  | none => simp [SectionText.text, behind]
  | some template => cases hnumber : r.holdsNumber <;> simp [SectionText.text, behind, hnumber]

end SectionText

/-! ## A section behind a text -/

namespace Section

/-- **The section `new` is `old` behind a text**: the text is in front of its items, and
the number is scaled as before. -/
structure Follows (text : Text) (old new : Section) : Prop where
  items : new.items = Item.consLiteral text old.items
  scale : new.scale = old.scale

theorem separatesDigits_consLiteral (text : Text) (items : List Item) :
    separatesDigits (Item.consLiteral text items) = separatesDigits items := by
  rw [separatesDigits, Item.dropWhile_consLiteral (fun _ => rfl), separatesDigits]

theorem mantissaSupply_consLiteral (text : Text) (mantissa : List Item) (d : ScientificDigits) :
    mantissaSupply (Item.consLiteral text mantissa) d = mantissaSupply mantissa d := by
  rw [mantissaSupply, Item.integerPlaceholders_consLiteral, Item.leastFractionDigits_consLiteral,
    mantissaSupply]

/-- With an exponent the text stands in front of the mantissa. -/
theorem renderWithExponent_consLiteral (c : Culture) (text : Text) (mantissa : List Item)
    (marker : ExponentMarker) (rest : List Item) (scaled : Float) :
    renderWithExponent c (Item.consLiteral text mantissa) marker rest scaled =
      (renderWithExponent c mantissa marker rest scaled).behind text := by
  simp only [renderWithExponent, Item.fractionPlaceholders_consLiteral,
    Item.integerPlaceholders_consLiteral, Item.point_mem_consLiteral, mantissaSupply_consLiteral,
    Supply.numberParts?_consLiteral, Supply.flatten_contributions_consLiteral]
  cases numberParts? _ with
  | some parts => rfl
  | none => simp [SectionText.behind]

theorem atMarker?_consLiteral (text : Text) (items : List Item) :
    atMarker? (Item.consLiteral text items) = (atMarker? items).map
      fun (mantissa, marker, rest) => (Item.consLiteral text mantissa, marker, rest) := by
  cases items with
  | nil => rfl
  | cons item items =>
    cases item with
    | exponent => rfl
    | _ =>
      simp only [Item.consLiteral, atMarker?]
      cases atMarker? items <;> rfl

namespace Follows

variable {text : Text} {old new : Section} (h : Follows text old new) (c : Culture)

include h

theorem groupsDigits : new.groupsDigits = old.groupsDigits := by
  rw [Section.groupsDigits, integerItems, h.items, Item.takeWhile_consLiteral (fun _ => rfl),
    separatesDigits_consLiteral, Section.groupsDigits, integerItems]

theorem plainSupply (d : PlainDigits) : new.plainSupply c d = old.plainSupply c d := by
  simp only [Section.plainSupply, h.items, h.groupsDigits, Item.integerPlaceholders_consLiteral,
    Item.leastIntegerDigits_consLiteral, Item.leastFractionDigits_consLiteral]

theorem renderPlain (scaled : Float) :
    new.renderPlain c scaled = (old.renderPlain c scaled).behind text := by
  simp only [Section.renderPlain, h.items, h.plainSupply, Item.fractionPlaceholders_consLiteral,
    Supply.numberParts?_consLiteral, Supply.flatten_contributions_consLiteral]
  cases numberParts? _ with
  | some parts => rfl
  | none => rfl

/-- **It shows the text, and what the section shows alone.** -/
theorem render_eq (plain : Bool) (magnitude : Float) :
    new.render c plain magnitude = (old.render c plain magnitude).behind text := by
  rw [Section.render_eq, Section.render_eq, h.scale, exponentParts?, exponentParts?, h.items,
    atMarker?_consLiteral]
  cases plain with
  | true => exact h.renderPlain c _
  | false =>
    cases atMarker? old.items with
    | none => exact h.renderPlain c _
    | some parts => exact renderWithExponent_consLiteral c text parts.1 parts.2.1 parts.2.2 _

/-- And it shows zero for what the section shows as zero. -/
theorem shownNumber_eq_zero_iff (plain : Bool) (magnitude : Float) :
    new.shownNumber plain magnitude = 0 ↔ old.shownNumber plain magnitude = 0 := by
  have hisZero := congrArg SectionText.isZero (h.render_eq .enUS plain magnitude)
  rw [isZero_render] at hisZero
  exact decide_eq_decide.1 (hisZero.trans (isZero_render old .enUS plain magnitude))

end Follows

end Section

/-! ## Formats of one section -/

/-- A compact format replaces none of one section. -/
theorem FormatOptions.formatInUse_of_not_mem (options : FormatOptions) {format : Text}
    (h : .semicolon ∉ lex format) : options.formatInUse format = format := by
  have hreplaced : ∀ pair ∈ compactFormats, (∀ c ∈ pair.1, Token.readAlone c) ∧ ';' ∈ pair.1 :=
    List.forall_mem_cons.2 ⟨⟨List.all_eq_true.1 (by decide), by decide⟩,
      List.forall_mem_singleton.2 ⟨List.all_eq_true.1 (by decide), by decide⟩⟩
  have hnone : compactFormats.lookup format = none := by
    rw [List.lookup_eq_none_iff]
    intro pair hpair
    obtain ⟨halone, hsemicolon⟩ := hreplaced pair hpair
    refine bne_iff_ne.2 fun heq => h ?_
    rw [heq, lex_of_readAlone halone]
    exact List.mem_map_of_mem (f := Token.ofChar) hsemicolon
  rw [formatInUse, hnone]
  exact ite_self format

section OneSection

variable {format : Text} (h : .semicolon ∉ lex format)

include h

/-- A single section takes a sign in front unless it shows zero. -/
theorem CustomFormat.showsSign_of_not_mem (plain : Bool) (v : Float) :
    (ofText format).showsSign plain v =
      (v < 0.0 && (Section.ofText format).shownNumber plain v.abs ≠ 0) := by
  rw [showsSign, select_of_not_mem h, ownNegative_of_not_mem h, Bool.not_false, Bool.and_true]

/-- It shows every number. -/
theorem formatWith_of_not_mem (hcustom : IsCustom format) {v : Float} (hv : v.isFinite)
    (options : FormatOptions) (template? : Option Text) :
    formatWith options template? format v =
      .ok (withSign options.culture ((CustomFormat.ofText format).showsSign template?.isSome v)
        (((Section.ofText format).render options.culture template?.isSome v.abs).text
          template?)) := by
  have hshown : (CustomFormat.ofText format).shownBy template?.isSome v =
      (.ofText format, v.abs) := by
    rw [CustomFormat.shownBy, if_neg (by simp [CustomFormat.ownZero_of_not_mem h]),
      CustomFormat.select_of_not_mem h]
  rw [formatWith, options.formatInUse_of_not_mem h, isCustom_iff.1 hcustom]
  refine congrArg Except.ok ((NumberFormat.format_custom hv _ _ _).trans ?_)
  rw [CustomFormat.render_eq_shownBy, hshown]

end OneSection

/-! ## A quotation in front of a format -/

namespace Token

variable (quote : Char) (text : Text) (closed : Bool) (tokens : List Token)

theorem percentFactor_quoted :
    percentFactor (.quoted quote text closed :: tokens) = percentFactor tokens :=
  rfl

theorem scalingCommas_quoted :
    scalingCommas (.quoted quote text closed :: tokens) = scalingCommas tokens := by
  have hinteger : integerPart (.quoted quote text closed :: tokens) =
      .quoted quote text closed :: integerPart tokens := rfl
  rw [scalingCommas, hinteger, scalingCommas, splitAfterLast]
  cases splitAfterLast isDigit (integerPart tokens) <;> rfl

end Token

theorem isCustom_quotation {quote : Char} (hquote : Token.isQuote quote) (text format : Text) :
    IsCustom (quote :: (text ++ quote :: format)) := by
  have hcases : quote = '"' ∨ quote = '\'' := by simpa [Token.isQuote] using hquote
  refine isCustom_of_mem (List.mem_cons_self ..) ?_ ?_
  · rcases hcases with rfl | rfl <;> rfl
  · rcases hcases with rfl | rfl <;> rfl

section Quotation

variable {quote : Char} {text : Text} (hquote : Token.isQuote quote) (htext : quote ∉ text)

include hquote htext

/-- **A quotation is one token**, whatever stands in it. -/
theorem lex_quotation (format : Text) :
    lex (quote :: (text ++ quote :: format)) = .quoted quote text true :: lex format := by
  have hfits : (Token.quoted quote text true).Fits format := ⟨hquote, htext, nofun⟩
  have hlex := Token.lex_source_append hfits
  simpa [Token.source] using hlex

/-- It opens no section. -/
theorem semicolon_notMem_quotation {format : Text} (h : .semicolon ∉ lex format) :
    .semicolon ∉ lex (quote :: (text ++ quote :: format)) := by
  rw [lex_quotation hquote htext]
  simpa using h

/-- **The section behind a quotation** follows its text. -/
theorem Section.follows_quotation {format : Text} (h : .semicolon ∉ lex format) :
    Follows text (.ofText format) (.ofText (quote :: (text ++ quote :: format))) := by
  have hlex := lex_quotation hquote htext format
  refine ⟨?_, ?_⟩
  · rw [ofText, hlex]
    rfl
  · rw [scale_ofText h, scale_ofText (semicolon_notMem_quotation hquote htext h), hlex,
      Token.percentFactor_quoted, Token.scalingCommas_quoted]

/-- The text does not change the sign. -/
theorem CustomFormat.showsSign_quotation {format : Text} (h : .semicolon ∉ lex format)
    (plain : Bool) (v : Float) :
    (ofText (quote :: (text ++ quote :: format))).showsSign plain v =
      (ofText format).showsSign plain v := by
  simp only [showsSign_of_not_mem (semicolon_notMem_quotation hquote htext h),
    showsSign_of_not_mem h, ne_eq,
    (Section.follows_quotation hquote htext h).shownNumber_eq_zero_iff]

end Quotation

/-- **Quoted text is inert.** Whatever is quoted in front of a custom format of one section
is shown in front of the number, and has no other effect. The sign of a negative number
stands before it, exactly when the format alone puts it in front. -/
theorem formatWith_quotation {quote : Char} {text format : Text} {v : Float}
    (hquote : Token.isQuote quote) (htext : quote ∉ text) (hcustom : IsCustom format)
    (hsemicolon : .semicolon ∉ lex format) (hv : v.isFinite) (options : FormatOptions)
    (template? : Option Text) :
    let quoted := quote :: (text ++ quote :: format)
    let signed := (CustomFormat.ofText format).showsSign template?.isSome v
    ∃ body, formatWith options template? format v = .ok (withSign options.culture signed body) ∧
      formatWith options template? quoted v =
        .ok (withSign options.culture signed (text ++ body)) ∧
      (0.0 ≤ v → formatWith options template? format v = .ok body ∧
        formatWith options template? quoted v = .ok (text ++ body)) := by
  intro quoted signed
  have hold := formatWith_of_not_mem hsemicolon hcustom hv options template?
  have hnew := formatWith_of_not_mem (semicolon_notMem_quotation hquote htext hsemicolon)
    (isCustom_quotation hquote text format) hv options template?
  rw [CustomFormat.showsSign_quotation hquote htext hsemicolon,
    (Section.follows_quotation hquote htext hsemicolon).render_eq,
    SectionText.text_behind] at hnew
  refine ⟨_, hold, hnew, fun hnonneg => ?_⟩
  have hzero : (0.0 : Float).isFinite := by decide +kernel
  have hlt : ¬ v < 0.0 := by
    rw [lt_iff_exactValue hv hzero, not_lt, ← le_iff_exactValue hzero hv]
    exact hnonneg
  have hunsigned : (CustomFormat.ofText format).showsSign template?.isSome v = false := by
    rw [CustomFormat.showsSign_of_not_mem hsemicolon, decide_eq_false hlt, Bool.false_and]
  rw [hunsigned] at hold hnew
  exact ⟨hold, hnew⟩

/-- All that is special outside quotes, and the other quote. -/
theorem formatWith_quotation_specials :
    let text := "a;0%E+0\\'".toList
    let format := "#,0.0".toList
    Token.isQuote '"' ∧ '"' ∉ text ∧ IsCustom format ∧ .semicolon ∉ lex format ∧
      (1234.5 : Float).isFinite ∧
      ∃ body, formatWith .standard none format 1234.5 = .ok body ∧
        formatWith .standard none ('"' :: (text ++ '"' :: format)) 1234.5 = .ok (text ++ body) := by
  intro text format
  have hlex : lex format = [.hash, .comma, .zero, .point, .zero] :=
    lex_of_readAlone (List.all_eq_true.1 (by decide))
  have hsemicolon : Token.semicolon ∉ lex format := by
    rw [hlex]
    decide
  have hcustom : IsCustom format := by decide
  have hfinite : (1234.5 : Float).isFinite := by decide +kernel
  have hquote : Token.isQuote '"' := rfl
  have htext : '"' ∉ text := by decide
  obtain ⟨body, -, -, hshown⟩ :=
    formatWith_quotation hquote htext hcustom hsemicolon hfinite .standard none
  exact ⟨hquote, htext, hcustom, hsemicolon, hfinite, body, hshown (by decide +kernel)⟩

end TickLabels
