import Mathlib.Data.List.TakeWhile
import TickLabels.Proofs.Binary64.Encoding
import TickLabels.Proofs.Decimal.Numeral
import TickLabels.Proofs.Render.Layout
/-!
# Standard formats as custom formats

The fixed and the exponential standard formats are custom formats in short: a
precision `p` stands for a point and `p` zeros. The two are rendered apart, one
by putting digits into a pattern and the other placeholder by placeholder, and
show the same (`shownAlike_standard`).
-/

namespace TickLabels

/-- Two formats show a number, and alike. -/
def ShownAlike (options : FormatOptions) (f g : Text) (value : Float) : Prop :=
  ∃ text, formatNumber options f value = .ok text ∧ formatNumber options g value = .ok text

/-! ## Showing a finite number -/

theorem symbolFor?_of_isFinite {value : Float} (h : value.isFinite) (c : Culture) :
    c.symbolFor? value = none := by
  have hparts : value.toModel.unpack.isFinite := h
  have hnan : value.isNaN = false := by
    change value.toModel.unpack.isNaN = false
    cases hx : value.toModel.unpack <;> simp_all [Float.Model.UnpackedFloat.isFinite,
      Float.Model.UnpackedFloat.isNaN]
  have hinf : value.isInf = false := by
    change value.toModel.unpack.isInf = false
    cases hx : value.toModel.unpack <;> simp_all [Float.Model.UnpackedFloat.isFinite,
      Float.Model.UnpackedFloat.isInf]
  rw [Culture.symbolFor?, if_neg (Bool.not_eq_true _ ▸ hnan), if_neg (Bool.not_eq_true _ ▸ hinf)]

/-- A format without a semicolon is used as it is. -/
theorem formatInUse_of_not_mem {format : Text} (h : ';' ∉ format) (options : FormatOptions) :
    options.formatInUse format = format := by
  have hne : ∀ f ∈ FormatOptions.compactFormats.map Prod.fst, (format == f) = false := by
    intro f hf
    have hmem : ';' ∈ f := by revert f; decide
    simp only [beq_eq_false_iff_ne]
    rintro rfl
    exact h hmem
  unfold FormatOptions.formatInUse
  split
  · simp only [FormatOptions.compactFormats, List.map_cons, List.map_nil, List.mem_cons,
      List.not_mem_nil, or_false, forall_eq_or_imp, forall_eq] at hne
    simp only [FormatOptions.compactFormats, List.lookup, hne.1, hne.2, Option.getD_none]
  · rfl

/-- A letter with two digits at most is rendered in its style. -/
theorem formatNumber_letter {letter : Char} {style : StandardStyle} {digits : Text}
    (hletter : StandardStyle.ofLetter? letter = some style) (halpha : letter.isAlpha)
    (hlength : digits.length ≤ 2) (hdigits : ∀ c ∈ digits, c.isDigit) (options : FormatOptions)
    {value : Float} (hvalue : value.isFinite) :
    formatNumber options (letter :: digits) value = .ok (StandardFormat.render ⟨style,
      letter.isLower, if digits = [] then none else some (readNumeral digits)⟩
      options.culture value) := by
  have hsemicolon : ';' ∉ letter :: digits := by
    intro hmem
    rcases List.mem_cons.1 hmem with rfl | hmem
    · simp at halpha
    · have := hdigits _ hmem
      simp at this
  unfold formatNumber formatWith
  rw [formatInUse_of_not_mem hsemicolon,
    NumberFormat.parse_standard hletter halpha hlength hdigits]
  simp only [Except.map, NumberFormat.format, symbolFor?_of_isFinite hvalue]

/-- A letter with a precision is rendered in its style. -/
theorem formatNumber_standard {letter : Char} {style : StandardStyle} {p : Nat}
    (hletter : StandardStyle.ofLetter? letter = some style) (halpha : letter.isAlpha)
    (hp : p ≤ 99) (options : FormatOptions) {value : Float} (hvalue : value.isFinite) :
    formatNumber options (letter :: numeral p) value =
      .ok (StandardFormat.render ⟨style, letter.isLower, some p⟩ options.culture value) := by
  have hlength : (numeral p).length ≤ 2 := by
    unfold numeral
    split
    · simp
    · rw [length_digitText]
      exact length_digitsOf_le_iff.2 (by omega)
  have hne : numeral p ≠ [] := by
    unfold numeral
    split
    · simp
    · next h => simpa [digitText] using mt digitsOf_eq_nil_iff.1 h
  rw [formatNumber_letter hletter halpha hlength (fun c hc => isDigit_of_mem_numeral hc) options
    hvalue, if_neg hne, readNumeral_numeral]

/-- Without a semicolon the one section shows every number, with the sign in front. -/
theorem CustomFormat.render_single {format : Text} (h : .semicolon ∉ lex format) (c : Culture)
    (template? : Option Text) (value : Float) :
    (ofText format).render c template? value =
      withSign c
        (value < 0.0 &&
          !((Section.ofText format).render c template?.isSome value.abs).isZero)
        (((Section.ofText format).render c template?.isSome value.abs).text template?) := by
  simp [CustomFormat.render, select_of_not_mem h, ownZero_of_not_mem h, ownNegative_of_not_mem h]

/-- A format without a semicolon shows the one section it has, with the sign in
front. -/
theorem formatNumber_single {format : Text} {first : Char} (hfirst : format.head? = some first)
    (halpha : first.isAlpha = false) (hsemicolon : ';' ∉ format) (options : FormatOptions)
    {value : Float} (hvalue : value.isFinite) :
    formatNumber options format value =
      .ok (withSign options.culture
        (value < 0.0 && !((Section.ofText format).render options.culture false value.abs).isZero)
        (((Section.ofText format).render options.culture false value.abs).text none)) := by
  have hsection := semicolon_notMem_lex hsemicolon
  obtain ⟨rest, rfl⟩ := List.head?_eq_some_iff.1 hfirst
  unfold formatNumber formatWith
  rw [formatInUse_of_not_mem hsemicolon, NumberFormat.parse_custom halpha]
  simp only [Except.map, NumberFormat.format, symbolFor?_of_isFinite hvalue]
  rw [CustomFormat.render_single hsection]
  rfl

/-! ## The number of digits and their magnitude -/

/-- Digits are read off the magnitude. -/
theorem Digits.ofFloat_congr {x y : Float} (h : Magnitude.ofFloat? x = Magnitude.ofFloat? y) :
    Digits.ofFloat x = Digits.ofFloat y := by
  rw [Digits.ofFloat, Digits.ofFloat, Digits.shortest, Digits.shortest, h]

/-- The number of a section that does not scale has the digits of the value. -/
theorem Digits.ofFloat_abs_mul_one (x : Float) :
    Digits.ofFloat (x.abs * 1.0) = Digits.ofFloat x :=
  ofFloat_congr ((ofFloat?_abs_mul x 1.0).trans (ofFloat?_mul_one x))

theorem padInteger_one {integer : List Digit} (h : integer.head? ≠ some 0 ∨ integer = [0]) :
    padInteger 1 integer = if integer = [] then [0] else integer := by
  obtain h | rfl := h
  · cases integer with
    | nil => rfl
    | cons d ds =>
      have hd : d ≠ 0 := by simpa using h
      simp [padInteger, hd]
  · rfl

/-- **An integer part that is empty is one that is filled up with a zero.** -/
theorem fixedText_eq {d : PlainDigits} (h : d.integer.head? ≠ some 0 ∨ d.integer = [0])
    (c : Culture) (grouping : Bool) :
    fixedText c grouping d =
      groupedText (if grouping then c.groupSizes else []) c.groupSeparator
        (padInteger 1 d.integer) ++ fractionPart c d.fraction := by
  rw [fixedText, padInteger_one h]
  congr 1
  by_cases hnil : d.integer = []
  · simp [hnil, groupedText, groupedDigits, Digit.char_zero]
  · rw [if_neg hnil, if_neg hnil]
    cases grouping with
    | true => rfl
    | false => exact (groupedText_nil_sizes _ _).symm

/-- Zeros in front of a text of digits are zeros in front of the digits. -/
theorem padZeros_padInteger (width : Nat) (integer : List Digit) :
    padZeros width (digitText (padInteger 1 integer)) =
      digitText (padInteger (max width 1) integer) := by
  have hlength : (padInteger 1 integer).length = max 1 (integer.dropWhile (· = 0)).length := by
    simp [padInteger]
    omega
  rw [padZeros, length_digitText, hlength, ← digitText_replicate_zero, ← digitText_append]
  simp only [padInteger, ← List.append_assoc, List.replicate_append_replicate]
  congr 3
  omega

/-! ## The sections of plain formats -/

/-- Digits are grouped for a comma only. -/
theorem Section.groupsDigits_of_not_mem {s : Section} (h : .comma ∉ s.items) :
    s.groupsDigits = false := by
  have hcomma : ∀ item ∈ s.integerItems.dropWhile (!·.isDigit), decide (item ≠ .comma) := by
    intro item hitem
    have hmem := (List.takeWhile_sublist _).subset ((List.dropWhile_sublist _).subset hitem)
    exact decide_eq_true (ne_of_mem_of_not_mem hmem h)
  rw [groupsDigits, separatesDigits, List.dropWhile_eq_nil_iff.2 hcomma]
  rfl

/-- The items of an integer, a fraction and a text, one behind the other. -/
theorem Section.items_ofText {integer : Text} {front : List Item}
    (hinteger : ∀ c ∈ integer, Token.readAlone c)
    (hfront : ∀ rest, Item.ofTokens false false (integer.map Token.ofChar ++ rest) =
      front ++ Item.ofTokens false false rest) (p : Nat) (tail : Text) :
    (Section.ofText (integer ++ fractionText '0' p ++ tail)).items =
      front ++ Item.fractionItems p ++ Item.ofTokens (p ≠ 0) false (lex tail) := by
  have hfraction : ∀ c ∈ fractionText '0' p, Token.readAlone c :=
    fun c hc => readAlone_of_mem_fractionText hc
  rw [Section.ofText, List.append_assoc, lex_append_of_readAlone hinteger,
    lex_append_of_readAlone hfraction, hfront, Item.ofTokens_fraction, List.append_assoc]

/-- Where the exponent marker stands behind items of a number. -/
theorem Section.atMarker?_append {front : List Item} (h : ∀ item ∈ front, item.isNumberPart)
    (rest : List Item) :
    atMarker? (front ++ rest) =
      (atMarker? rest).map fun (mantissa, marker, rest) => (front ++ mantissa, marker, rest) := by
  induction front with
  | nil => simp
  | cons item front ih =>
    rw [List.forall_mem_cons] at h
    cases item with
    | literal | percent | permille | exponent => simp [Item.isNumberPart] at h
    | zero | hash | point | comma =>
      simp only [List.cons_append, atMarker?]
      rw [ih h.2, Option.map_map]
      rfl

namespace Layout

variable {s : Section} {front back : List Item} {places : Nat}

theorem atMarker?_eq (h : Layout s front places back) :
    Section.atMarker? s.items = (Section.atMarker? back).map fun (mantissa, marker, rest) =>
      (front ++ Item.fractionItems places ++ mantissa, marker, rest) := by
  rw [h.items_eq]
  exact Section.atMarker?_append h.isNumberPart_number back

theorem render_eq (h : Layout s front places back) (hmarker : Section.atMarker? back = none)
    (c : Culture) (magnitude : Float) :
    s.render c false magnitude = s.renderPlain c (magnitude * s.scale) := by
  refine Section.render_eq_renderPlain (.inr ?_) c magnitude
  rw [h.atMarker?_eq, hmarker]
  rfl

/-- **What a format of a plain layout shows**: the digits of the scaled number,
with the sign in front. -/
theorem formatNumber_eq {format : Text} {first : Char}
    (h : Layout (.ofText format) front places back) (hfirst : format.head? = some first)
    (halpha : first.isAlpha = false) (hsemicolon : ';' ∉ format)
    (hmarker : Section.atMarker? back = none) (hdigit : front.filter Item.isDigit ≠ [])
    (options : FormatOptions) {value : Float} (hvalue : value.isFinite) {d : PlainDigits}
    (hd : (Digits.ofFloat (value.abs * (Section.ofText format).scale)).plain places = d) :
    formatNumber options format value =
      .ok (withSign options.culture (value < 0.0 && !d.isZero)
        (groupedText
            (if (Section.ofText format).groupsDigits then options.culture.groupSizes else [])
            options.culture.groupSeparator
            (padInteger (Item.leastIntegerDigits (Section.ofText format).items) d.integer) ++
          fractionPart options.culture d.fraction ++ Supply.textOf options.culture back)) := by
  rw [formatNumber_single hfirst halpha hsemicolon options hvalue, h.render_eq hmarker,
    h.isZero_renderPlain, h.text_renderPlain hdigit, hd]

end Layout

/-! ## The custom formats in question -/

section Formats

variable {p : Nat}

theorem ofTokens_lex_nil (pointMet : Bool) : Item.ofTokens pointMet false (lex []) = [] := by
  rw [lex_nil]
  rfl

theorem map_ofChar_replicate_zero (count : Nat) :
    (List.replicate count '0').map Token.ofChar = List.replicate count .zero :=
  List.map_replicate

theorem readAlone_of_mem_zeros {count : Nat} {c : Char} (h : c ∈ List.replicate count '0') :
    Token.readAlone c := by
  rw [List.eq_of_mem_replicate h]
  decide

/-- Zeros, a fraction, and a text. -/
theorem layout_zeros (count p : Nat) {tail : Text} {back : List Item}
    (hback : Item.ofTokens (p ≠ 0) false (lex tail) = back)
    (htext : ∀ item ∈ back, item.isNumberPart = false) :
    Layout (.ofText (List.replicate count '0' ++ fractionText '0' p ++ tail))
      (List.replicate count .zero) p back where
  items_eq := by
    rw [Section.items_ofText (fun c hc => readAlone_of_mem_zeros hc) (fun rest => ?_), hback]
    rw [map_ofChar_replicate_zero, Item.ofTokens_replicate_zero]
  isNumberPart_front := fun item hitem => by rw [List.eq_of_mem_replicate hitem]; rfl
  point_notMem_front := fun hmem => by simp at hmem
  isNumberPart_back := htext

/-- Digits with separators between groups, a fraction, and a text. -/
theorem layout_grouped (p : Nat) {tail : Text} {back : List Item}
    (hback : Item.ofTokens (p ≠ 0) false (lex tail) = back)
    (htext : ∀ item ∈ back, item.isNumberPart = false) :
    Layout (.ofText ("#,0".toList ++ fractionText '0' p ++ tail))
      [.hash, .comma, .zero] p back where
  items_eq := by
    have hfront : ∀ rest, Item.ofTokens false false ("#,0".toList.map Token.ofChar ++ rest) =
        [.hash, .comma, .zero] ++ Item.ofTokens false false rest := fun rest => rfl
    rw [Section.items_ofText (List.all_eq_true.1 (by decide)) hfront, hback]
  isNumberPart_front := by decide
  point_notMem_front := by decide
  isNumberPart_back := htext

theorem lex_zeros (count p : Nat) (tail : Text) :
    lex (List.replicate count '0' ++ fractionText '0' p ++ tail) =
      List.replicate count .zero ++ ((fractionText '0' p).map Token.ofChar ++ lex tail) := by
  rw [List.append_assoc, lex_append_of_readAlone (fun c hc => readAlone_of_mem_zeros hc),
    lex_append_of_readAlone (fun c hc => readAlone_of_mem_fractionText hc),
    map_ofChar_replicate_zero]

theorem lex_grouped (p : Nat) (tail : Text) :
    lex ("#,0".toList ++ fractionText '0' p ++ tail) =
      .hash :: .comma :: .zero :: ((fractionText '0' p).map Token.ofChar ++ lex tail) := by
  rw [List.append_assoc, lex_append_of_readAlone (List.all_eq_true.1 (by decide)),
    lex_append_of_readAlone (fun c hc => readAlone_of_mem_fractionText hc)]
  rfl

/-- Zeros and a point do not scale, whatever text stands behind them. -/
theorem scale_zeros (count p : Nat) {tail : Text} {symbols : List Token} (hlex : lex tail = symbols)
    (hsymbols : ∀ t ∈ symbols, t ∉ [.comma, .semicolon, .percent, .permille]) :
    (Section.ofText (List.replicate count '0' ++ fractionText '0' p ++ tail)).scale = 1.0 := by
  refine Section.scale_eq_one fun t ht hmem => ?_
  rw [lex_zeros, hlex] at hmem
  rcases List.mem_append.1 hmem with hmem | hmem
  · rw [List.eq_of_mem_replicate hmem] at ht
    simp at ht
  rcases List.mem_append.1 hmem with hmem | hmem
  · rcases Item.eq_of_mem_fractionText hmem with rfl | rfl <;> simp at ht
  · exact hsymbols t hmem ht

/-- The placeholders of digits in groups do not scale, and a percent sign behind
them makes it a hundred. -/
theorem scale_grouped (p : Nat) {tail : Text} {symbols : List Token}
    (hlex : lex tail = symbols) (hsymbols : ∀ t ∈ symbols, t ≠ .comma ∧ t ≠ .semicolon) :
    (Section.ofText ("#,0".toList ++ fractionText '0' p ++ tail)).scale =
      Token.percentFactor (.hash :: .comma :: .zero ::
        ((fractionText '0' p).map Token.ofChar ++ symbols)) / power 1000.0 0 := by
  have hrest : ∀ t ∈ (fractionText '0' p).map Token.ofChar ++ symbols,
      t ≠ .comma ∧ t ≠ .semicolon := by
    intro t ht
    rcases List.mem_append.1 ht with ht | ht
    · rcases Item.eq_of_mem_fractionText ht with rfl | rfl <;> simp
    · exact hsymbols t ht
  have hcomma : .comma ∉ (fractionText '0' p).map Token.ofChar ++ symbols :=
    fun hmem => (hrest _ hmem).1 rfl
  have hsemicolon : .semicolon ∉ (fractionText '0' p).map Token.ofChar ++ symbols :=
    fun hmem => (hrest _ hmem).2 rfl
  rw [Section.scale_ofText, lex_grouped, hlex, Token.scalingCommas_grouped hcomma]
  rw [lex_grouped, hlex]
  simp only [List.mem_cons, reduceCtorEq, false_or]
  exact hsemicolon

theorem percentFactor_grouped (p : Nat) {symbols : List Token}
    (hsymbols : ∀ t ∈ symbols, t ≠ .percent ∧ t ≠ .permille) :
    Token.percentFactor (.hash :: .comma :: .zero ::
      ((fractionText '0' p).map Token.ofChar ++ symbols)) = 1.0 := by
  have hmissing : ∀ t, t = .percent ∨ t = .permille →
      t ∉ .hash :: .comma :: .zero :: ((fractionText '0' p).map Token.ofChar ++ symbols) := by
    intro t ht hmem
    simp only [List.mem_cons, List.mem_append] at hmem
    rcases hmem with rfl | rfl | rfl | hmem | hmem
    · simp at ht
    · simp at ht
    · simp at ht
    · rcases Item.eq_of_mem_fractionText hmem with rfl | rfl <;> simp at ht
    · exact ht.elim (hsymbols t hmem).1 (hsymbols t hmem).2
  exact Token.percentFactor_of_not_mem (hmissing _ (.inl rfl)) (hmissing _ (.inr rfl))

theorem scale_number (p : Nat) :
    (Section.ofText ("#,0".toList ++ fractionText '0' p)).scale = 1.0 := by
  have h := scale_grouped p lex_nil (by simp)
  rw [List.append_nil, percentFactor_grouped p (by simp), power_zero] at h
  rw [h]
  decide +kernel

theorem lex_percent : lex " %".toList = [.literal ' ', .percent] :=
  lex_of_readAlone (List.all_eq_true.1 (by decide))

theorem scale_percent (p : Nat) :
    (Section.ofText ("#,0".toList ++ fractionText '0' p ++ " %".toList)).scale = 100.0 := by
  have hpercent := Token.percentFactor_append_percent
    (.hash :: .comma :: .zero :: ((fractionText '0' p).map Token.ofChar ++ [.literal ' ']))
  rw [percentFactor_grouped p (by simp)] at hpercent
  simp only [List.cons_append, List.append_assoc, List.nil_append] at hpercent
  rw [scale_grouped p lex_percent (by simp), hpercent, power_zero]
  decide +kernel

/-- Integer digits are grouped by the comma. -/
theorem groupsDigits_grouped {s : Section} {rest : List Item}
    (h : s.items = [.hash, .comma, .zero] ++ rest) : s.groupsDigits := by
  simp [Section.groupsDigits, Section.integerItems, h, Section.separatesDigits, Item.isDigit,
    Item.isMarker]

/-- And without a comma they are not grouped. -/
theorem groupsDigits_zeros {s : Section} {count : Nat}
    (h : s.items = List.replicate count .zero ++ Item.fractionItems p) :
    s.groupsDigits = false := by
  refine Section.groupsDigits_of_not_mem ?_
  rw [h]
  intro hmem
  rcases List.mem_append.1 hmem with hmem | hmem
  · simp at hmem
  · unfold Item.fractionItems at hmem
    split at hmem <;> simp at hmem

theorem semicolon_notMem_fractionText (p : Nat) : ';' ∉ fractionText '0' p := by
  intro hmem
  unfold fractionText at hmem
  split at hmem <;> simp at hmem

variable {value : Float}

/-- **Digits in groups**: the custom format shows the text of a fixed notation,
and the text behind the number. -/
theorem formatNumber_grouped (options : FormatOptions) {tail : Text} {back : List Item}
    {d : PlainDigits} (hback : Item.ofTokens (p ≠ 0) false (lex tail) = back)
    (htext : ∀ item ∈ back, item.isNumberPart = false) (hmarker : Section.atMarker? back = none)
    (hsemicolon : ';' ∉ tail) (hvalue : value.isFinite)
    (hd : (Digits.ofFloat (value.abs *
      (Section.ofText ("#,0".toList ++ fractionText '0' p ++ tail)).scale)).plain p = d) :
    formatNumber options ("#,0".toList ++ fractionText '0' p ++ tail) value =
      .ok (withSign options.culture (value < 0.0 && !d.isZero)
        (fixedText options.culture true d ++ Supply.textOf options.culture back)) := by
  have hlayout := layout_grouped p hback htext
  have hnone : ';' ∉ "#,0".toList ++ fractionText '0' p ++ tail := by
    simp [semicolon_notMem_fractionText, hsemicolon]
  have hleast : Item.leastIntegerDigits
      (Section.ofText ("#,0".toList ++ fractionText '0' p ++ tail)).items = 1 := by
    rw [Item.leastIntegerDigits, hlayout.integerPlaceholders_eq]
    rfl
  have hgroups :
      (Section.ofText ("#,0".toList ++ fractionText '0' p ++ tail)).groupsDigits = true :=
    groupsDigits_grouped (by rw [hlayout.items_eq, List.append_assoc])
  have hinteger : d.integer.head? ≠ some 0 ∨ d.integer = [0] :=
    hd ▸ Digits.integer_plain_ofFloat _ p
  rw [hlayout.formatNumber_eq rfl (by decide) hnone hmarker (by decide) options hvalue hd,
    fixedText_eq hinteger, hleast, hgroups]

/-- **Zeros**: the custom format shows as many integer digits as it has. -/
theorem formatNumber_zeros (options : FormatOptions) {count : Nat} (hcount : 0 < count)
    {d : PlainDigits} (hvalue : value.isFinite) (hd : (Digits.ofFloat value).plain p = d) :
    formatNumber options (List.replicate count '0' ++ fractionText '0' p) value =
      .ok (withSign options.culture (value < 0.0 && !d.isZero)
        (digitText (padInteger count d.integer) ++ fractionPart options.culture d.fraction)) := by
  have hlayout := layout_zeros count p (ofTokens_lex_nil _) (List.forall_mem_nil _)
  rw [List.append_nil] at hlayout
  have hfirst : (List.replicate count '0' ++ fractionText '0' p).head? = some '0' := by
    rw [List.head?_append, List.head?_replicate, if_neg (by omega)]
    rfl
  have hsemicolon : ';' ∉ List.replicate count '0' ++ fractionText '0' p := by
    simp [semicolon_notMem_fractionText]
  have hzeros : (List.replicate count Item.zero).filter Item.isDigit =
      List.replicate count .zero := List.filter_replicate_of_pos rfl
  have hdigit : (List.replicate count Item.zero).filter Item.isDigit ≠ [] := by
    rw [hzeros, ne_eq, List.replicate_eq_nil_iff]
    omega
  have hleast : Item.leastIntegerDigits
      (Section.ofText (List.replicate count '0' ++ fractionText '0' p)).items = count := by
    rw [Item.leastIntegerDigits, hlayout.integerPlaceholders_eq, hzeros,
      List.dropWhile_replicate, if_neg (by simp), List.length_replicate]
  have hgroups : (Section.ofText
      (List.replicate count '0' ++ fractionText '0' p)).groupsDigits = false :=
    groupsDigits_zeros (by rw [hlayout.items_eq, List.append_nil])
  have hscale := scale_zeros count p lex_nil (by simp)
  rw [List.append_nil] at hscale
  have hscaled : (Digits.ofFloat (value.abs *
      (Section.ofText (List.replicate count '0' ++ fractionText '0' p)).scale)).plain p = d := by
    rw [hscale, Digits.ofFloat_abs_mul_one, hd]
  rw [hlayout.formatNumber_eq hfirst (by decide) hsemicolon rfl hdigit options hvalue hscaled,
    hleast, hgroups, if_neg (by simp), groupedText_nil_sizes]
  simp [Supply.textOf, Supply.contributions]

/-! ## The same text twice -/

variable {options : FormatOptions}

/-- **Number**: digits in groups. -/
theorem shownAlike_number (hp : p ≤ 99) (hvalue : value.isFinite)
    (hpattern : options.culture.numberNegativePattern = "-n".toList) :
    ShownAlike options ('N' :: numeral p) ("#,0".toList ++ fractionText '0' p) value := by
  have hfill : ∀ text, options.culture.fillPattern "-n".toList text =
      options.culture.negativeSign ++ text := by
    intro text
    simp [Culture.fillPattern]
  have hscaled : (Digits.ofFloat (value.abs *
      (Section.ofText ("#,0".toList ++ fractionText '0' p ++ [])).scale)).plain p =
        (Digits.ofFloat value).plain p := by
    rw [List.append_nil, scale_number, Digits.ofFloat_abs_mul_one]
  have hcustom := formatNumber_grouped options (ofTokens_lex_nil _) (List.forall_mem_nil _) rfl
    (by simp) hvalue hscaled
  rw [List.append_nil] at hcustom
  refine ⟨_, formatNumber_standard rfl (by decide) hp options hvalue, ?_⟩
  rw [hcustom]
  simp only [StandardFormat.render, hpattern, hfill]
  simp [withSign, Supply.textOf, Supply.contributions]

/-- **Percent**: digits in groups of a hundred times the value, and the symbol
behind them. -/
theorem shownAlike_percent (hp : p ≤ 99) (hvalue : value.isFinite)
    (hpositive : options.culture.percentPositivePattern = "n %".toList)
    (hnegative : options.culture.percentNegativePattern = "-n %".toList) :
    ShownAlike options ('P' :: numeral p)
      ("#,0".toList ++ fractionText '0' p ++ " %".toList) value := by
  have hfill : ∀ text, options.culture.fillPattern "n %".toList text =
      text ++ ' ' :: options.culture.percentSymbol := by
    intro text
    simp [Culture.fillPattern]
  have hfill_negative : ∀ text, options.culture.fillPattern "-n %".toList text =
      options.culture.negativeSign ++ (text ++ ' ' :: options.culture.percentSymbol) := by
    intro text
    simp [Culture.fillPattern]
  have hscaled : (Digits.ofFloat (value.abs *
      (Section.ofText ("#,0".toList ++ fractionText '0' p ++ " %".toList)).scale)).plain p =
        (Digits.ofFloat (value * 100.0)).plain p := by
    rw [scale_percent, Digits.ofFloat_congr (ofFloat?_abs_mul value 100.0)]
  have hitems : Item.ofTokens (p ≠ 0) false (lex " %".toList) =
      [.literal [' '], .percent] := by
    rw [lex_percent]
    rfl
  refine ⟨_, formatNumber_standard rfl (by decide) hp options hvalue, ?_⟩
  rw [formatNumber_grouped options hitems (by decide) rfl (by decide) hvalue hscaled]
  simp only [StandardFormat.render, Option.getD_some, hpositive, hnegative]
  split
  · next h =>
    rw [h, hfill_negative]
    simp [withSign, Supply.textOf, Supply.contributions]
  · next h =>
    rw [Bool.eq_false_iff.2 h, hfill]
    simp [withSign, Supply.textOf, Supply.contributions]

/-- **Fixed point**: digits without groups. -/
theorem shownAlike_fixedPoint (hp : p ≤ 99) (hvalue : value.isFinite) :
    ShownAlike options ('F' :: numeral p) ('0' :: fractionText '0' p) value := by
  have hinteger := Digits.integer_plain_ofFloat value p
  have hcustom := formatNumber_zeros options (p := p) Nat.one_pos hvalue rfl
  refine ⟨_, formatNumber_standard rfl (by decide) hp options hvalue, hcustom.trans ?_⟩
  simp only [StandardFormat.render, Option.getD_some]
  rw [fixedText_eq hinteger, if_neg (by simp), groupedText_nil_sizes]

/-- **Decimal**: a whole number, filled up with zeros. -/
theorem shownAlike_decimal (hp : p ≤ 99) (hvalue : value.isFinite) :
    ShownAlike options ('D' :: numeral p) (List.replicate (max p 1) '0') value := by
  have hinteger := Digits.integer_plain_ofFloat value 0
  have hfraction := (Digits.ofFloat value).length_fraction_plain 0
  have hcustom := formatNumber_zeros options (p := 0) (Nat.le_max_right p 1) hvalue rfl
  have hnone : fractionText '0' 0 = [] := rfl
  rw [hnone, List.append_nil] at hcustom
  refine ⟨_, formatNumber_standard rfl (by decide) hp options hvalue, hcustom.trans ?_⟩
  simp only [StandardFormat.render, Option.getD_some]
  rw [fixedText_eq hinteger, if_neg (by simp), groupedText_nil_sizes,
    List.length_eq_zero_iff.1 hfraction, fractionPart, if_pos rfl, List.append_nil, List.append_nil,
    padZeros_padInteger]

/-! ## Scientific notation -/

/-- What stands in a section behind its mantissa is the exponent, with the integer digit
in front if the mantissa has no place for it. -/
theorem text_renderWithExponent (c : Culture) (mantissa : List Item) (marker : ExponentMarker)
    (scaled : Float) {d : ScientificDigits}
    (hd : (Digits.ofFloat scaled).scientific (Item.fractionPlaceholders mantissa).length = d) :
    (Section.renderWithExponent c mantissa marker [] scaled).text none =
      ((Section.mantissaSupply mantissa d).contributions c false mantissa).flatten ++
        (if Item.integerPlaceholders mantissa = [] ∧ .point ∉ mantissa then [d.lead.char]
          else []) ++ Section.markerText c marker d := by
  have hlength := Supply.length_contributions c (Section.mantissaSupply mantissa d) false mantissa
  have hzip : (mantissa.zip ((Section.mantissaSupply mantissa d).contributions c false
      mantissa)).flatMap Prod.snd =
        ((Section.mantissaSupply mantissa d).contributions c false mantissa).flatten := by
    rw [List.flatMap_def, List.map_snd_zip (by omega)]
  simp only [Section.renderWithExponent, hd]
  split
  · next parts h =>
    rw [← hzip, ← flatMap_numberParts? h]
    simp [SectionText.text, Supply.contributions]
  · simp [SectionText.text, Supply.contributions]

theorem isZero_renderWithExponent (c : Culture) (mantissa : List Item) (marker : ExponentMarker)
    (rest : List Item) (scaled : Float) :
    (Section.renderWithExponent c mantissa marker rest scaled).isZero =
      ((Digits.ofFloat scaled).scientific (Item.fractionPlaceholders mantissa).length).isZero := by
  unfold Section.renderWithExponent
  dsimp only
  split <;> rfl

/-- An exponent of three digits, always with a sign. -/
theorem markerText_eq_exponentText (c : Culture) {upper : Bool} {d : ScientificDigits}
    (hd : d.lead = 0 → d.exponent = 0) :
    Section.markerText c ⟨upper, some '+', 3⟩ d = exponentText c upper 3 d.exponent := by
  have hexponent : (if d.isZero then 0 else d.exponent) = d.exponent := by
    split
    · next hzero =>
      simp only [ScientificDigits.isZero, Bool.and_eq_true, decide_eq_true_eq] at hzero
      exact (hd hzero.1).symm
    · rfl
  simp [Section.markerText, exponentText, hexponent, ExponentMarker.letter,
    ExponentMarker.asksForPlus]

/-- The items of a mantissa with `p` decimals. -/
def mantissaItems (p : Nat) : List Item :=
  .zero :: Item.fractionItems p

theorem integerPlaceholders_mantissa (p : Nat) :
    Item.integerPlaceholders (mantissaItems p) = [.zero] := by
  have h : Item.integerPlaceholders ([.zero] ++ Item.fractionItems p ++ []) = [.zero] :=
    Item.integerPlaceholders_layout (by simp) (List.forall_mem_nil _)
  rwa [List.append_nil] at h

theorem fractionPlaceholders_mantissa (p : Nat) :
    Item.fractionPlaceholders (mantissaItems p) = List.replicate p .zero := by
  have h : Item.fractionPlaceholders ([.zero] ++ Item.fractionItems p ++ []) =
      List.replicate p .zero :=
    Item.fractionPlaceholders_layout (by simp) (List.forall_mem_nil _)
  rwa [List.append_nil] at h

/-- The mantissa shows one digit and the fraction. -/
theorem flatten_mantissa (c : Culture) {d : ScientificDigits} (hd : d.fraction.length = p) :
    ((Section.mantissaSupply (mantissaItems p) d).contributions c false
      (mantissaItems p)).flatten = d.lead.char :: fractionPart c d.fraction := by
  have hnumber : ∀ item ∈ mantissaItems p, item.isNumberPart := by
    rw [mantissaItems, List.forall_mem_cons]
    exact ⟨rfl, Item.isNumberPart_fractionItems p⟩
  have hcount : (mantissaItems p).count .point ≤ 1 := by
    rw [mantissaItems, List.count_cons_of_ne (by simp)]
    exact Item.count_point_fractionItems p
  have hinteger : (Section.mantissaSupply (mantissaItems p) d).integer.length =
      (Item.integerPlaceholders (mantissaItems p)).length := by
    rw [integerPlaceholders_mantissa]
    rfl
  have hfraction : (Section.mantissaSupply (mantissaItems p) d).fraction = d.fraction := by
    rw [Section.mantissaSupply, leastFractionDigits_layout (fractionPlaceholders_mantissa p)]
    exact shortenFraction_of_length_le (Nat.le_of_eq hd)
  have hplaces : (Section.mantissaSupply (mantissaItems p) d).fraction.length ≤
      (Item.fractionPlaceholders (mantissaItems p)).length := by
    rw [hfraction, hd, fractionPlaceholders_mantissa, List.length_replicate]
  have hatPoint : (Section.mantissaSupply (mantissaItems p) d).atPoint = [] := by
    simp [Section.mantissaSupply, integerPlaceholders_mantissa]
  have hflatten := Supply.flatten_contributions (c := c)
    (s := Section.mantissaSupply (mantissaItems p) d) hnumber (List.forall_mem_nil _) false
  rw [List.append_nil] at hflatten
  rw [hflatten, Supply.numberText_contributions hcount hinteger hplaces (fun _ => hatPoint),
    hatPoint, hfraction]
  simp [Section.mantissaSupply, Supply.textOf, Supply.contributions]

theorem lex_exponent {letter : Char} (h : letter = 'E' ∨ letter = 'e') :
    lex (letter :: "+000".toList) = [.exponent ⟨letter = 'E', some '+', 3⟩] := by
  have hfirst : Token.first letter "+000".toList =
      (.exponent ⟨letter = 'E', some '+', 3⟩, []) := by
    rcases h with rfl | rfl <;> decide
  rw [lex_cons, hfirst, lex_nil]

/-- A number below zero has digits, so that its sign is shown. -/
theorem isZero_scientific_of_neg (hvalue : value.isFinite) (h : value < 0.0) (p : Nat) :
    ((Digits.ofFloat value).scientific p).isZero = false := by
  obtain ⟨m, hm, hpos⟩ := mantissa_pos_of_neg hvalue h
  have hlead := Digits.lead_scientific_ne_zero (Digits.isTrimmed_ofFloat value)
    (Digits.ne_nil_ofFloat hm hpos) p
  simp [ScientificDigits.isZero, hlead]

/-- **Exponential**: one digit, the fraction, and an exponent. -/
theorem shownAlike_exponential {letter : Char} (h : letter = 'E' ∨ letter = 'e') (hp : p ≤ 99)
    (hvalue : value.isFinite) :
    ShownAlike options (letter :: numeral p)
      ('0' :: (fractionText '0' p ++ letter :: "+000".toList)) value := by
  have hitems : Item.ofTokens (p ≠ 0) false (lex (letter :: "+000".toList)) =
      [.exponent ⟨letter = 'E', some '+', 3⟩] := by
    rw [lex_exponent h]
    rfl
  have hlayout : Layout (.ofText ('0' :: (fractionText '0' p ++ letter :: "+000".toList)))
      [.zero] p [.exponent ⟨letter = 'E', some '+', 3⟩] :=
    layout_zeros 1 p hitems (by simp [Item.isNumberPart])
  have hscale : (Section.ofText ('0' :: (fractionText '0' p ++ letter :: "+000".toList))).scale =
      1.0 := scale_zeros 1 p (lex_exponent h) (by simp)
  have hsemicolon : ';' ∉ '0' :: (fractionText '0' p ++ letter :: "+000".toList) := by
    have hletter : ';' ≠ letter := by rcases h with rfl | rfl <;> decide
    simp [semicolon_notMem_fractionText, hletter]
  have hletter : StandardStyle.ofLetter? letter = some .exponential := by
    rcases h with rfl | rfl <;> rfl
  have halpha : letter.isAlpha := by rcases h with rfl | rfl <;> decide
  have hmarker : Section.atMarker?
      (Section.ofText ('0' :: (fractionText '0' p ++ letter :: "+000".toList))).items =
        some (mantissaItems p, ⟨letter = 'E', some '+', 3⟩, []) := by
    rw [hlayout.atMarker?_eq]
    simp [Section.atMarker?, mantissaItems]
  have hplaces : (Item.fractionPlaceholders (mantissaItems p)).length = p := by
    rw [fractionPlaceholders_mantissa, List.length_replicate]
  have htrimmed := Digits.isTrimmed_ofFloat value
  -- The custom format shows no sign if no digit is shown, and the standard one does
  -- not ask for digits.
  have hsign : (decide (value < 0.0) && !((Digits.ofFloat value).scientific p).isZero) =
      decide (value < 0.0) := by
    by_cases hlt : value < 0.0
    · rw [isZero_scientific_of_neg hvalue hlt, Bool.not_false, Bool.and_true]
    · simp [hlt]
  have hupper : decide (letter = 'E') = !letter.isLower := by
    rcases h with rfl | rfl <;> decide
  refine ⟨_, formatNumber_standard hletter halpha hp options hvalue, ?_⟩
  rw [formatNumber_single rfl (by decide) hsemicolon options hvalue]
  simp only [Section.render, hmarker, hscale]
  rw [text_renderWithExponent _ _ _ _ rfl, if_neg (by simp [integerPlaceholders_mantissa]),
    List.append_nil, isZero_renderWithExponent, hplaces, Digits.ofFloat_abs_mul_one, hsign,
    flatten_mantissa _ (Digits.length_fraction_scientific _ _),
    markerText_eq_exponentText _ (Digits.exponent_scientific_of_lead htrimmed), hupper]
  rfl

end Formats

/-! ## All of them -/

/-- **A standard format is a custom format in short.** A precision of `p` is a
fraction of `p` zeros, whatever the number and however the culture groups,
separates and signs. Only where a pattern of the culture sets the sign and the
percent symbol must it set them as the custom format does. -/
theorem shownAlike_standard {options : FormatOptions} {value : Float} {p : Nat} (hp : p ≤ 99)
    (hvalue : value.isFinite)
    (hnumber : options.culture.numberNegativePattern = "-n".toList)
    (hpercent : options.culture.percentPositivePattern = "n %".toList)
    (hpercentNegative : options.culture.percentNegativePattern = "-n %".toList) :
    ShownAlike options ('N' :: numeral p) ("#,0".toList ++ fractionText '0' p) value ∧
    ShownAlike options ('F' :: numeral p) ("0".toList ++ fractionText '0' p) value ∧
    ShownAlike options ('P' :: numeral p)
      ("#,0".toList ++ fractionText '0' p ++ " %".toList) value ∧
    ShownAlike options ('E' :: numeral p)
      ("0".toList ++ fractionText '0' p ++ "E+000".toList) value ∧
    ShownAlike options ('e' :: numeral p)
      ("0".toList ++ fractionText '0' p ++ "e+000".toList) value ∧
    ShownAlike options ('D' :: numeral p) (List.replicate (max p 1) '0') value :=
  ⟨shownAlike_number hp hvalue hnumber,
    shownAlike_fixedPoint hp hvalue,
    shownAlike_percent hp hvalue hpercent hpercentNegative,
    shownAlike_exponential (.inl rfl) hp hvalue,
    shownAlike_exponential (.inr rfl) hp hvalue,
    shownAlike_decimal hp hvalue⟩

/-- A negative number in groups, as the United States write it. -/
theorem shownAlike_number_enUS :
    2 ≤ 99 ∧ (-1234567.125 : Float).isFinite ∧
      FormatOptions.standard.culture.numberNegativePattern = "-n".toList ∧
      FormatOptions.standard.culture.percentPositivePattern = "n %".toList ∧
      FormatOptions.standard.culture.percentNegativePattern = "-n %".toList ∧
      ShownAlike .standard ('N' :: numeral 2) "#,0.00".toList (-1234567.125) := by
  have hfinite : (-1234567.125 : Float).isFinite := by decide +kernel
  refine ⟨by decide, hfinite, rfl, rfl, rfl, ?_⟩
  exact (shownAlike_standard (by decide) hfinite rfl rfl rfl).1

end TickLabels
