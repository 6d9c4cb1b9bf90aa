import Mathlib.Data.List.TakeWhile
import TickLabels.Pattern.Fraction
import TickLabels.Pattern.NumberFormat
/-!
# Plain formats

Most characters are a token of their own, whatever stands next to them. A
format of such characters is lexed character by character
(`lex_append_of_readAlone`), and without a semicolon it is one section, which
serves numbers of every sign (`select_of_not_mem`).
-/

namespace TickLabels

namespace Token

/-- The characters that are read alone: no quote, no backslash and no
letter `e`. -/
def readAlone (c : Char) : Bool :=
  !isQuote c && c ≠ '\\' && c ≠ 'e' && c ≠ 'E'

theorem first_of_readAlone {c : Char} (h : readAlone c) (rest : Text) :
    first c rest = (ofChar c, rest) := by
  simp only [readAlone, Bool.and_eq_true, Bool.not_eq_true', decide_eq_true_eq] at h
  obtain ⟨⟨⟨hquote, hbackslash⟩, he⟩, hE⟩ := h
  rw [first, if_neg (by simp [hquote]), if_neg hbackslash, if_neg (by simp [he, hE])]

end Token

/-- **Characters that are read alone** are tokens of their own. -/
theorem lex_append_of_readAlone {front : Text} (h : ∀ c ∈ front, Token.readAlone c) (rest : Text) :
    lex (front ++ rest) = front.map Token.ofChar ++ lex rest := by
  induction front with
  | nil => rfl
  | cons c front ih =>
    rw [List.forall_mem_cons] at h
    rw [List.cons_append, lex_cons, Token.first_of_readAlone h.1, ih h.2]
    rfl

theorem lex_of_readAlone {format : Text} (h : ∀ c ∈ format, Token.readAlone c) :
    lex format = format.map Token.ofChar := by
  have := lex_append_of_readAlone h []
  rwa [List.append_nil, lex_nil, List.append_nil] at this

/-! ## Formats of one section -/

theorem cut_of_not_mem {tokens : List Token} (h : .semicolon ∉ tokens) :
    Token.cut tokens = (tokens, []) := by
  induction tokens with
  | nil => rfl
  | cons t ts ih =>
    rw [List.mem_cons, not_or] at h
    rw [Token.cut, if_neg (Ne.symm h.1), ih h.2]

/-- A semicolon among the tokens is one in the format. -/
theorem semicolon_notMem_lex {format : Text} (h : ';' ∉ format) : .semicolon ∉ lex format := by
  intro hmem
  have hsource : ';' ∈ Token.sources (lex format) :=
    List.mem_flatMap.2 ⟨.semicolon, hmem, List.mem_singleton.2 rfl⟩
  rw [sources_lex] at hsource
  exact h hsource

/-- Without a semicolon there is one section. -/
theorem sectionTexts_of_not_mem {format : Text} (h : .semicolon ∉ lex format) :
    sectionTexts format = [format] := by
  rw [sectionTexts, sectionTokens, cut_of_not_mem h, List.map_singleton, sources_lex]

/-- And it is picked for every number. -/
theorem SignTexts.select_of_not_mem {format : Text} (h : .semicolon ∉ lex format)
    (value : Float) : (ofFormat format).select value = format := by
  simp only [select, ofFormat, sectionTexts_of_not_mem h]
  split
  · rfl
  · split <;> rfl

namespace CustomFormat

variable {format : Text}

/-- **One section serves every number.** -/
theorem select_of_not_mem (h : .semicolon ∉ lex format) (value : Float) :
    (ofText format).select value = .ofText format := by
  have hsections := sectionTexts_of_not_mem h
  simp only [select, ofText, SignTexts.ofFormat, hsections]
  split
  · rfl
  · split
    · rfl
    · rfl

theorem ownNegative_of_not_mem (h : .semicolon ∉ lex format) :
    (ofText format).ownNegative = false := by
  simp [ofText, sectionTexts_of_not_mem h]

theorem ownZero_of_not_mem (h : .semicolon ∉ lex format) : (ofText format).ownZero = false := by
  simp [ownZero, ofText, sectionTexts_of_not_mem h]

end CustomFormat

/-! ## A number with decimals

A point and its zeros become an item each, and so does what stands around
them. The exponent marker is the one token here that is not read alone. -/

namespace Item

/-- The items of a fraction of `count` zeros, as `fractionText` writes it. -/
def fractionItems (count : Nat) : List Item :=
  if count = 0 then [] else point :: List.replicate count zero

theorem ofTokens_replicate_zero (pointMet markerMet : Bool) (count : Nat) (rest : List Token) :
    ofTokens pointMet markerMet (List.replicate count .zero ++ rest) =
      List.replicate count zero ++ ofTokens pointMet markerMet rest := by
  induction count with
  | zero => rfl
  | succ count ih =>
    rw [List.replicate_succ, List.replicate_succ, List.cons_append, ofTokens, ih]
    rfl

theorem map_ofChar_fractionText (count : Nat) : (fractionText '0' count).map Token.ofChar =
    if count = 0 then [] else .point :: List.replicate count .zero := by
  unfold fractionText
  split
  · rfl
  · rw [List.map_cons, List.map_replicate]
    rfl

theorem eq_of_mem_fractionText {count : Nat} {t : Token}
    (h : t ∈ (fractionText '0' count).map Token.ofChar) : t = .point ∨ t = .zero := by
  rw [map_ofChar_fractionText] at h
  split at h
  · simp at h
  · exact (List.mem_cons.1 h).imp_right List.eq_of_mem_replicate

theorem ofTokens_fraction (count : Nat) (rest : List Token) :
    ofTokens false false ((fractionText '0' count).map Token.ofChar ++ rest) =
      fractionItems count ++ ofTokens (count ≠ 0) false rest := by
  rw [map_ofChar_fractionText, fractionItems]
  by_cases h : count = 0
  · simp [h]
  · simp [h, ofTokens, ofTokens_replicate_zero]

end Item

theorem readAlone_of_mem_fractionText {count : Nat} {c : Char} (h : c ∈ fractionText '0' count) :
    Token.readAlone c := by
  have hc : c = '.' ∨ c = '0' := by
    unfold fractionText at h
    split at h
    · simp at h
    · rcases List.mem_cons.1 h with h | h
      · exact .inl h
      · exact .inr (List.eq_of_mem_replicate h)
  rcases hc with rfl | rfl <;> decide

namespace Token

theorem percentFactor_of_not_mem {tokens : List Token} (hpercent : .percent ∉ tokens)
    (hpermille : .permille ∉ tokens) : percentFactor tokens = 1.0 := by
  unfold percentFactor
  generalize (1.0 : Float) = parts
  induction tokens with
  | nil => rfl
  | cons t ts ih =>
    rw [List.mem_cons, not_or] at hpercent hpermille
    rw [List.foldl_cons]
    split
    · exact absurd rfl hpercent.1
    · exact absurd rfl hpermille.1
    · exact ih hpercent.2 hpermille.2

theorem takeWhile_comma_of_not_mem {tokens : List Token} (h : .comma ∉ tokens) :
    tokens.takeWhile (· = .comma) = [] := by
  cases tokens with
  | nil => rfl
  | cons t ts =>
    rw [List.mem_cons, not_or] at h
    exact List.takeWhile_cons_of_neg (by simpa using Ne.symm h.1)

/-- Without a comma nothing is divided. -/
theorem scalingCommas_of_not_mem {tokens : List Token} (h : .comma ∉ tokens) :
    scalingCommas tokens = 0 := by
  unfold scalingCommas
  split
  · next front back hsplit =>
    have hcomma : .comma ∉ back := fun hmem =>
      h ((List.takeWhile_sublist _).subset
        (splitAfterLast_append hsplit ▸ List.mem_append_right _ hmem))
    rw [takeWhile_comma_of_not_mem hcomma]
    rfl
  · rfl

/-- A comma between two placeholders does not scale. -/
theorem scalingCommas_grouped {rest : List Token} (h : .comma ∉ rest) :
    scalingCommas (.hash :: .comma :: .zero :: rest) = 0 := by
  have hcomma : .comma ∉ integerPart rest := fun hmem => h ((List.takeWhile_sublist _).subset hmem)
  have hinteger : integerPart (.hash :: .comma :: .zero :: rest) =
      .hash :: .comma :: .zero :: integerPart rest := rfl
  rw [scalingCommas, hinteger]
  simp only [splitAfterLast]
  cases hsplit : splitAfterLast isDigit (integerPart rest) with
  | none => exact congrArg List.length (takeWhile_comma_of_not_mem hcomma)
  | some parts =>
    have hback : .comma ∉ parts.2 := fun hmem =>
      hcomma (splitAfterLast_append hsplit ▸ List.mem_append_right _ hmem)
    exact congrArg List.length (takeWhile_comma_of_not_mem hback)

theorem percentFactor_append_percent (tokens : List Token) :
    percentFactor (tokens ++ [.percent]) = percentFactor tokens * 100.0 := by
  simp [percentFactor]

end Token

theorem power_zero (base : Float) : power base 0 = 1.0 := by
  rw [power, powerLoop]
  rfl

/-- Without a semicolon the whole format scales the number. -/
theorem Section.scale_ofText {format : Text} (h : .semicolon ∉ lex format) :
    (Section.ofText format).scale =
      Token.percentFactor (lex format) / power 1000.0 (Token.scalingCommas (lex format)) := by
  have hpositive : Token.positivePart (lex format) = lex format := by
    rw [Token.positivePart, List.takeWhile_eq_self_iff]
    intro t ht
    simpa using ne_of_mem_of_not_mem ht h
  simp [scale, ofText, Metadata.ofFormat, Metadata.ofTokens, MetadataSelection.all, hpositive,
    Token.scale]

/-- A single section without commas and percent signs does not scale. -/
theorem Section.scale_eq_one {format : Text}
    (h : ∀ t ∈ [Token.comma, .semicolon, .percent, .permille], t ∉ lex format) :
    (Section.ofText format).scale = 1.0 := by
  rw [scale_ofText (h _ (by simp)), Token.percentFactor_of_not_mem (h _ (by simp)) (h _ (by simp)),
    Token.scalingCommas_of_not_mem (h _ (by simp)), power_zero]
  decide +kernel

/-! ## Reading a format -/

namespace NumberFormat

/-- A letter with two digits at most is a standard format. -/
theorem parse_standard {letter : Char} {style : StandardStyle} {digits : Text}
    (hletter : StandardStyle.ofLetter? letter = some style) (halpha : letter.isAlpha)
    (hlength : digits.length ≤ 2) (hdigits : ∀ c ∈ digits, c.isDigit) :
    parse (letter :: digits) = .ok (.standard ⟨style, letter.isLower,
      if digits = [] then none else some (readNumeral digits)⟩) := by
  have hreads : readsAsStandard (letter :: digits) = true := by
    simp only [readsAsStandard, halpha, hlength, Bool.true_and, Bool.and_eq_true, decide_eq_true_eq,
      List.all_eq_true]
    exact ⟨trivial, hdigits⟩
  simp only [parse, hreads, if_true, readStandard, hletter]
  rfl

/-- What does not start with a letter is a custom format. -/
theorem parse_custom {c : Char} (hc : c.isAlpha = false) (rest : Text) :
    parse (c :: rest) = .ok (.custom (.ofText (c :: rest))) := by
  simp [parse, readsAsStandard, hc]

end NumberFormat

end TickLabels
