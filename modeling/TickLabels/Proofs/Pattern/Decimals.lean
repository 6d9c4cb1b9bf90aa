import Mathlib.Data.List.Forall2
import TickLabels.Proofs.Pattern.Items

/-!
# Asking a custom format for other decimals

A custom format that is asked for a number of decimals gets that many placeholders
behind the point of each section, and keeps everything else that a section says
(`getsDecimals_iff`). There are two exceptions, both for no decimals at all. When
nothing is left of the only section but a letter with up to two digits, the result is
no custom format any more (`Collapses`); and a comma of the fraction that comes to
stand directly behind the integer scales the number (`Anatomy.ScalesMore`).
-/

namespace TickLabels

/-! ## Custom formats -/

/-- A custom format is not empty and does not read as a standard format. -/
def IsCustom (format : Text) : Prop :=
  format ≠ [] ∧ readsAsStandard format = false

instance (format : Text) : Decidable (IsCustom format) :=
  inferInstanceAs (Decidable (_ ∧ _))

/-- Custom formats are those that are read as such. -/
theorem isCustom_iff {format : Text} :
    IsCustom format ↔ NumberFormat.parse format = .ok (.custom (.ofText format)) := by
  cases format with
  | nil => simp [IsCustom, NumberFormat.parse]
  | cons letter digits =>
    cases hstandard : readsAsStandard (letter :: digits) with
    | false => simp [IsCustom, NumberFormat.parse, hstandard]
    | true =>
      cases hstyle : StandardStyle.ofLetter? letter <;>
        simp [IsCustom, NumberFormat.parse, hstandard, NumberFormat.readStandard, hstyle,
          Except.map]

/-- A character that is neither a letter nor a digit makes a format custom. -/
theorem isCustom_of_mem {format : Text} {c : Char} (h : c ∈ format) (halpha : c.isAlpha = false)
    (hdigit : c.isDigit = false) : IsCustom format := by
  refine ⟨List.ne_nil_of_mem h, ?_⟩
  cases format with
  | nil => rfl
  | cons letter digits =>
    rw [readsAsStandard]
    rcases List.mem_cons.1 h with rfl | h
    · simp [halpha]
    · have hall : digits.all Char.isDigit = false :=
        List.all_eq_false.2 ⟨c, h, by simp [hdigit]⟩
      rw [hall, Bool.and_false]

namespace Token

/-- The tokens of a fraction of `count` placeholders. -/
def fractionTokens (placeholder : Token) (count : Nat) : List Token :=
  if count = 0 then [] else .point :: List.replicate count placeholder

section Fraction

variable {placeholder : Token} (h : placeholder.isDigit) (count : Nat)

theorem sources_replicate {c : Char} (hsource : placeholder.source = [c]) :
    sources (List.replicate count placeholder) = List.replicate count c := by
  induction count with
  | zero => rfl
  | succ count ih => rw [List.replicate_succ, sources_cons, ih, hsource]; rfl

theorem sources_fractionTokens {c : Char} (hsource : placeholder.source = [c]) :
    sources (fractionTokens placeholder count) = fractionText c count := by
  unfold fractionTokens fractionText
  split
  · rfl
  · rw [sources_cons, sources_replicate count hsource]
    rfl

include h in
theorem isFraction_fractionTokens : IsFraction (fractionTokens placeholder count) := by
  unfold fractionTokens
  split
  · trivial
  · exact ⟨rfl, fun d hd => List.eq_of_mem_replicate hd ▸ h⟩

end Fraction

/-! ## Scaling commas -/

/-- The commas directly behind the last placeholder. -/
def commasBehind (integer : List Token) : Nat :=
  match splitAfterLast isDigit integer with
  | some (_, back) => (back.takeWhile (· = .comma)).length
  | none => 0

theorem commasBehind_of_last {front commas more : List Token} {d : Token} (hd : d.isDigit)
    (hcommas : ∀ t ∈ commas, t = .comma) (hmore : ∀ t ∈ more, t.isDigit = false) :
    commasBehind (front ++ d :: (commas ++ more)) =
      commas.length + (more.takeWhile (· = .comma)).length := by
  have hback : ∀ t ∈ commas ++ more, t.isDigit = false := fun t ht => by
    rcases List.mem_append.1 ht with ht | ht
    · rw [hcommas t ht]; rfl
    · exact hmore t ht
  rw [commasBehind, splitAfterLast_of_last hd hback]
  simp only
  rw [List.takeWhile_append_of_pos (fun t ht => decide_eq_true (hcommas t ht)), List.length_append]

theorem commasBehind_of_commas {front commas : List Token} {d : Token} (hd : d.isDigit)
    (hcommas : ∀ t ∈ commas, t = .comma) : commasBehind (front ++ d :: commas) = commas.length := by
  have hnone : ∀ t ∈ ([] : List Token), t.isDigit = false := fun t ht => nomatch ht
  simpa using commasBehind_of_last hd hcommas hnone

theorem commasBehind_of_forall {integer : List Token} (h : ∀ t ∈ integer, t.isDigit = false) :
    commasBehind integer = 0 := by
  rw [commasBehind, splitAfterLast_eq_none_iff.2 h]

theorem takeWhile_comma_eq_nil {tokens : List Token} (h : tokens.head? ≠ some .comma) :
    tokens.takeWhile (· = .comma) = [] := by
  cases tokens with
  | nil => rfl
  | cons t ts => exact List.takeWhile_cons_of_neg (by simpa using h)

end Token

/-! ## The rewritten mantissa -/

namespace Anatomy

/-- **A comma comes to scale the number** when the section loses its fraction: the
integer ends with a placeholder and commas, and of the fraction a comma stays. -/
def ScalesMore (a : Anatomy) : Prop :=
  ∃ front d commas, a.integer = front ++ d :: commas ∧ d.isDigit ∧ (∀ t ∈ commas, t = .comma) ∧
    a.leftover.head? = some .comma

/-- What is left of a section without its fraction. -/
def withoutFraction (a : Anatomy) : List Token :=
  a.integer ++ (a.leftover ++ a.tail)

section Parts

variable {mantissa tail : List Token} (hmantissa : ∀ t ∈ mantissa, t.isExponent = false)
  (htail : ∀ t ∈ tail.head?, t.isExponent)

include hmantissa htail

theorem tail_ofTokens_append : (ofTokens (mantissa ++ tail)).tail = tail :=
  (takeWhile_append hmantissa htail).2

theorem mantissa_ofTokens_append : (ofTokens (mantissa ++ tail)).mantissa = mantissa := by
  rw [mantissa_ofTokens, (takeWhile_append hmantissa htail).1]

theorem integer_ofTokens_append :
    (ofTokens (mantissa ++ tail)).integer = mantissa.takeWhile (· ≠ .point) :=
  congrArg _ (takeWhile_append hmantissa htail).1

theorem fractionPart_ofTokens_append :
    (ofTokens (mantissa ++ tail)).fractionPart = mantissa.dropWhile (· ≠ .point) := by
  rw [fractionPart_ofTokens, (takeWhile_append hmantissa htail).1]

end Parts

variable {a : Anatomy}

theorem isDigit_leftover : ∀ t ∈ a.leftover, t.isDigit = false := fun t ht => by
  simpa using (List.mem_filter.1 ht).2

/-- What stays of the fraction is not among what is replaced. -/
theorem filter_leftover :
    a.leftover.filter (!·.isReplaced) = a.fractionPart.filter (!·.isReplaced) := by
  unfold leftover fractionPart
  cases a.fraction? with
  | none => rfl
  | some fraction =>
    rw [Option.getD_some, List.filter_filter, List.filter_cons_of_neg (by decide)]
    refine List.filter_congr fun t _ => ?_
    cases t <;> rfl

theorem isExponent_leftover (h : Regular a) : ∀ t ∈ a.leftover, t.isExponent = false :=
  fun t ht => h.fraction t (List.mem_filter.1 ht).1

/-- **The integer is cut** behind its last placeholder. -/
theorem integer_eq_of_insertion? {front back : List Token} (h : a.insertion? = some (front, back)) :
    a.integer = front ++ back ∧ (∀ t ∈ back, t.isDigit = false) ∧
      Token.commasBehind front = Token.commasBehind a.integer := by
  have hplace := place_insertion? a
  rw [h] at hplace
  cases hplace with
  | atPoint hdigit hpoint => exact ⟨(List.append_nil _).symm, by simp, rfl⟩
  | @behindDigit front commas _ d hd hcommas hback hstop hinteger =>
    refine ⟨by rw [hinteger, List.append_assoc]; rfl, hback, ?_⟩
    rw [Token.commasBehind_of_commas hd hcommas, hinteger,
      Token.commasBehind_of_last hd hcommas hback, Token.takeWhile_comma_eq_nil hstop]
    rfl

/-- Without a new fraction the rest of the old one joins the integer. -/
theorem rewrittenMantissa_nil : a.rewrittenMantissa (fun _ => []) = a.integer ++ a.leftover := by
  unfold rewrittenMantissa
  cases hplace : a.insertion? with
  | none =>
    have hcases := place_insertion? a
    rw [hplace] at hcases
    cases hcases with
    | none hdigit hpoint => simp [mantissa, fractionPart, leftover, hpoint]
  | some parts =>
    obtain ⟨front, back⟩ := parts
    simp [(integer_eq_of_insertion? hplace).1]

theorem rewritten_nil : a.rewritten (fun _ => []) = a.withoutFraction := by
  rw [rewritten, rewrittenMantissa_nil, withoutFraction, List.append_assoc]

/-- **Alike but for the fraction**: the same marker and what stands behind it, the same
tokens apart from points and placeholders, and the same placeholders of the integer. -/
structure Alike (a b : Anatomy) : Prop where
  tail : b.tail = a.tail
  kept : b.mantissa.filter (!·.isReplaced) = a.mantissa.filter (!·.isReplaced)
  integer : ∃ stem more more', a.integer = stem ++ more ∧ b.integer = stem ++ more' ∧
    (∀ t ∈ more, t.isDigit = false) ∧ ∀ t ∈ more', t.isDigit = false

theorem takeWhile_point_append {front : List Token} (h : ∀ t ∈ front, t ≠ .point)
    (back : List Token) :
    (front ++ back).takeWhile (· ≠ .point) = front ++ back.takeWhile (· ≠ .point) ∧
      (front ++ back).dropWhile (· ≠ .point) = back.dropWhile (· ≠ .point) := by
  have hall : ∀ t ∈ front, decide (t ≠ .point) = true := fun t ht => decide_eq_true (h t ht)
  exact ⟨List.takeWhile_append_of_pos hall, List.dropWhile_append_of_pos hall⟩

/-- **No fraction**: the rest of the old one joins the integer, up to a second point. -/
theorem alike_withoutFraction (h : Regular a) :
    (Alike a (ofTokens (a.rewritten fun _ => []))) ∧
      (ofTokens (a.rewritten fun _ => [])).integer =
        a.integer ++ a.leftover.takeWhile (· ≠ .point) ∧
      Token.places (ofTokens (a.rewritten fun _ => [])).fractionPart = [] := by
  have hmantissa : ∀ t ∈ a.integer ++ a.leftover, t.isExponent = false := fun t ht => by
    rcases List.mem_append.1 ht with ht | ht
    · exact (h.integer t ht).2
    · exact isExponent_leftover h t ht
  obtain ⟨htake, hdrop⟩ := takeWhile_point_append (fun t ht => (h.integer t ht).1) a.leftover
  rw [rewritten, rewrittenMantissa_nil]
  have hinteger := integer_ofTokens_append hmantissa h.tail
  rw [htake] at hinteger
  refine ⟨⟨tail_ofTokens_append hmantissa h.tail, ?_, a.integer, [], _, (List.append_nil _).symm,
    hinteger, by simp, fun t ht => ?_⟩, hinteger, ?_⟩
  · rw [mantissa_ofTokens_append hmantissa h.tail, mantissa, List.filter_append, List.filter_append,
      filter_leftover]
  · exact isDigit_leftover t ((List.takeWhile_sublist _).subset ht)
  · rw [fractionPart_ofTokens_append hmantissa h.tail, hdrop]
    exact Token.places_eq_nil fun t ht => isDigit_leftover t ((List.dropWhile_sublist _).subset ht)

/-- **The anatomy with another fraction.** It stands behind the last placeholder of the
integer and its commas, and what stood there stands behind it, with what is left of the old
fraction. -/
theorem ofTokens_rewritten (h : Regular a) {front back digits : List Token}
    (hplace : a.insertion? = some (front, back)) (hdigits : ∀ d ∈ digits, d.isDigit) :
    ofTokens (a.rewritten fun _ => .point :: digits) =
      ⟨front, some (digits ++ (back ++ a.leftover)), a.tail⟩ := by
  obtain ⟨hsplit, -, -⟩ := integer_eq_of_insertion? hplace
  have hfront : ∀ t ∈ front, t ∈ a.integer := fun t ht => hsplit ▸ List.mem_append_left _ ht
  have hbehind : ∀ t ∈ back, t ∈ a.integer := fun t ht => hsplit ▸ List.mem_append_right _ ht
  have hmantissa : ∀ t ∈ front ++ .point :: (digits ++ (back ++ a.leftover)),
      t.isExponent = false := by
    intro t ht
    simp only [List.mem_append, List.mem_cons] at ht
    rcases ht with ht | rfl | ht | ht | ht
    · exact (h.integer t (hfront t ht)).2
    · rfl
    · have := hdigits t ht
      cases t <;> trivial
    · exact (h.integer t (hbehind t ht)).2
    · exact isExponent_leftover h t ht
  have hrewritten : a.rewritten (fun _ => .point :: digits) =
      front ++ .point :: (digits ++ (back ++ a.leftover)) ++ a.tail := by
    simp [rewritten, rewrittenMantissa, hplace]
  obtain ⟨htake, hdrop⟩ := takeWhile_append hmantissa h.tail
  obtain ⟨hinteger, hfraction⟩ := takeWhile_point_append
    (fun t ht => (h.integer t (hfront t ht)).1) (.point :: (digits ++ (back ++ a.leftover)))
  rw [hrewritten, ofTokens]
  simp only [htake, hdrop, hinteger, hfraction]
  simp

/-- **A fraction**: of the integer everything up to its last placeholder stays before it. -/
theorem alike_withFraction (h : Regular a) {front back digits : List Token}
    (hplace : a.insertion? = some (front, back)) (hdigits : ∀ d ∈ digits, d.isDigit) :
    Alike a (ofTokens (a.rewritten fun _ => .point :: digits)) ∧
      (ofTokens (a.rewritten fun _ => .point :: digits)).integer = front ∧
      Token.places (ofTokens (a.rewritten fun _ => .point :: digits)).fractionPart =
        Token.places digits := by
  obtain ⟨hsplit, hback, -⟩ := integer_eq_of_insertion? hplace
  rw [ofTokens_rewritten h hplace hdigits]
  refine ⟨⟨rfl, ?_, front, back, [], hsplit, (List.append_nil _).symm, hback, by simp⟩, rfl, ?_⟩
  · have hreplaced : digits.filter (!·.isReplaced) = [] :=
      List.filter_eq_nil_iff.2 fun d hd => by simp [Token.isReplaced, hdigits d hd]
    change (front ++ .point :: (digits ++ (back ++ a.leftover))).filter (!·.isReplaced) = _
    rw [mantissa, hsplit]
    simp [List.filter_append, hreplaced, filter_leftover,
      show Token.point.isReplaced = true from rfl]
  · have hrest : ∀ t ∈ back ++ a.leftover, t.isDigit = false := fun t ht => by
      rcases List.mem_append.1 ht with ht | ht
      · exact hback t ht
      · exact isDigit_leftover t ht
    change Token.places (.point :: digits ++ (back ++ a.leftover)) = _
    rw [Token.places_append, Token.places_eq_nil hrest, List.append_nil]
    rfl

end Anatomy

/-! ## What is kept -/

namespace Token

/-- What is not replaced is all that text is read from. -/
theorem flatMap_text_filter (tokens : List Token) :
    (tokens.filter (!·.isReplaced)).flatMap text = tokens.flatMap text := by
  induction tokens with
  | nil => rfl
  | cons t ts ih =>
    rw [List.filter_cons, List.flatMap_cons, ← ih]
    cases t <;> rfl

theorem filter_isPercent_filter (tokens : List Token) :
    ((tokens.filter (!·.isReplaced)).filterMap item?).filter Item.isPercent =
      (tokens.filterMap item?).filter Item.isPercent := by
  induction tokens with
  | nil => rfl
  | cons t ts ih =>
    cases t with
    | percent => exact congrArg (Item.percent :: ·) ih
    | permille => exact congrArg (Item.permille :: ·) ih
    | _ => exact ih

theorem percentFactor_filter (tokens : List Token) :
    percentFactor (tokens.filter (!·.isReplaced)) = percentFactor tokens := by
  unfold percentFactor
  generalize (1.0 : Float) = parts
  induction tokens generalizing parts with
  | nil => rfl
  | cons t ts ih => cases t <;> exact ih _

/-- Tokens with the same placeholders in the same groups. -/
theorem places_eq_of_stem {stem more : List Token} (h : ∀ t ∈ more, t.isDigit = false) :
    places (stem ++ more) = places stem := by
  rw [places_append, places_eq_nil h, List.append_nil]

theorem separatesDigits_of_stem {stem more : List Token} (h : ∀ t ∈ more, t.isDigit = false) :
    Section.separatesDigits ((stem ++ more).filterMap item?) =
      Section.separatesDigits (stem.filterMap item?) := by
  rw [List.filterMap_append]
  refine Section.separatesDigits_append fun item hitem => ?_
  obtain ⟨t, ht, hitem⟩ := List.mem_filterMap.1 hitem
  rw [isDigit_of_item? hitem, h t ht]

end Token

namespace Section

/-- **The section is the same apart from its fraction.** -/
structure SameButFraction (old new : Section) : Prop where
  integerPlaceholders :
    Item.integerPlaceholders new.mantissa = Item.integerPlaceholders old.mantissa
  literalText : Item.literalText new.items = Item.literalText old.items
  percents : new.items.filter Item.isPercent = old.items.filter Item.isPercent
  /-- The exponent marker is the same, with all that stands behind it. -/
  exponentPart : new.exponentPart = old.exponentPart
  groupsDigits : new.groupsDigits = old.groupsDigits
  /-- As many commas scale the number, -/
  scalingCommas : Token.scalingCommas (lex new.source) = Token.scalingCommas (lex old.source)
  /-- so that the factor is the same. -/
  scale : new.scale = old.scale

/-- **The section got another fraction** of `count` placeholders, and everything else
is as it was. -/
structure GotFraction (placeholder : Item) (count : Nat) (old new : Section) : Prop
    extends SameButFraction old new where
  fractionPlaceholders :
    Item.fractionPlaceholders new.mantissa = List.replicate count placeholder

/-- **What a section becomes**: with a digit placeholder or a point before its exponent
marker it gets the fraction, and otherwise it stays. -/
def BecomesWith (placeholder : Item) (count : Nat) (old new : Section) : Prop :=
  (old.HasPlaces → GotFraction placeholder count old new) ∧ (¬ old.HasPlaces → new = old)

theorem scalingCommas_eq {a : Anatomy} (h : Anatomy.Regular a) :
    Token.scalingCommas a.tokens = Token.commasBehind a.integer := by
  have hinteger : ∀ t ∈ a.integer, (decide (t ≠ .point) && !t.isExponent) = true := fun t ht => by
    simp [h.integer t ht]
  have hpart : Token.integerPart a.tokens = a.integer := by
    rw [Token.integerPart, Anatomy.tokens, Anatomy.mantissa, List.append_assoc,
      List.takeWhile_append_of_pos hinteger, Anatomy.fractionPart]
    cases a.fraction? with
    | some fraction => simp
    | none =>
      cases htail : a.tail with
      | nil => simp
      | cons t ts =>
        have ht : t.isExponent := h.tail t (by rw [htail]; rfl)
        simp [ht]
  rw [← hpart]
  rfl

variable {old new : Text} {a : Anatomy}

/-- **A place for a fraction** is what makes a section one that gets it. -/
theorem hasPlaces_iff (ha : Anatomy.Regular a) (hold : lex old = a.tokens) :
    (ofText old).HasPlaces ↔ a.insertion? ≠ none := by
  have hitems : ∀ t ∈ a.integer, t.isDigit → ∃ item ∈ a.mantissaItems, item.isDigit := by
    intro t ht hdigit
    have hplace : Token.places a.integer ≠ [] := by
      refine List.ne_nil_of_mem (a := if t = .zero then .zero else .hash) ?_
      refine List.mem_filter.2 ⟨List.mem_filterMap.2 ⟨t, ht, ?_⟩, ?_⟩ <;> cases t <;> trivial
    rw [← integerPlaceholders_ofText ha hold, mantissa_ofText ha hold] at hplace
    obtain ⟨item, hitem⟩ := List.exists_mem_of_ne_nil _ hplace
    exact ⟨item, (List.takeWhile_sublist _).subset (List.mem_filter.1 hitem).1,
      (List.mem_filter.1 hitem).2⟩
  unfold HasPlaces
  rw [mantissa_ofText ha hold]
  have hplace := Anatomy.place_insertion? a
  generalize a.insertion? = place at hplace
  cases hplace with
  | none hdigit hpoint =>
    have hitems : a.mantissaItems = Item.ofTokens false false a.integer := by
      rw [Anatomy.mantissaItems, hpoint, List.append_nil]
    rw [hitems]
    simp only [ne_eq, not_true_eq_false, iff_false]
    rintro ⟨item, hitem, hdigit' | rfl⟩
    · have hmem := List.mem_filter.2 ⟨hitem, hdigit'⟩
      rw [filter_isDigit_ofTokens, Token.places_eq_nil hdigit] at hmem
      exact List.not_mem_nil hmem
    · exact Item.point_notMem_ofTokens (Anatomy.point_notMem_integer ha) false false hitem
  | atPoint hdigit hpoint =>
    refine ⟨fun _ => by simp, fun _ => ⟨.point, ?_, .inr rfl⟩⟩
    simp [Anatomy.mantissaItems, hpoint]
  | behindDigit hd hcommas hback hstop hinteger =>
    refine ⟨fun _ => by simp, fun _ => ?_⟩
    obtain ⟨item, hitem, hdigit⟩ := hitems _ (by rw [hinteger]; simp) hd
    exact ⟨item, hitem, .inl hdigit⟩

namespace IsRewritten

variable {fraction : List Token → List Token} (h : IsRewritten fraction a old new)

include h

/-- Without a place for a fraction nothing is rewritten. -/
theorem eq_of_none (hplace : a.insertion? = none) : new = old := by
  rw [← sources_lex new, h.lex_new, Anatomy.rewritten_of_none hplace, ← h.lex_old, sources_lex]

/-- **What is alike but for the fraction is the same apart from it**, with as many scaling
commas. -/
theorem sameButFraction_of_alike (halike : Anatomy.Alike a (.ofTokens (lex new)))
    (hcommas : Token.commasBehind (Anatomy.ofTokens (lex new)).integer =
      Token.commasBehind a.integer) : SameButFraction (ofText old) (ofText new) := by
  have hold := h.lex_old
  have ha := h.regular
  have hnew := (Anatomy.tokens_ofTokens (lex new)).symm
  have hb := Anatomy.regular_ofTokens (lex new)
  generalize Anatomy.ofTokens (lex new) = b at *
  obtain ⟨stem, more, more', hinteger, hinteger', hmore, hmore'⟩ := halike.integer
  have htail : b.tailItems = a.tailItems := congrArg (Item.ofTokens false false) halike.tail
  have hscaling : Token.scalingCommas (lex new) = Token.scalingCommas (lex old) := by
    rw [hnew, hold, scalingCommas_eq ha, scalingCommas_eq hb, hcommas]
  have hfactor : Token.percentFactor (lex new) = Token.percentFactor (lex old) := by
    rw [hnew, hold, ← Token.percentFactor_filter, ← Token.percentFactor_filter a.tokens,
      Anatomy.tokens, Anatomy.tokens, List.filter_append, List.filter_append, halike.kept,
      halike.tail]
  exact
    { integerPlaceholders := by
        rw [integerPlaceholders_ofText ha hold, integerPlaceholders_ofText hb hnew, hinteger,
          hinteger', Token.places_eq_of_stem hmore, Token.places_eq_of_stem hmore']
      literalText := by
        rw [literalText_ofText ha hold, literalText_ofText hb hnew, htail,
          ← Token.flatMap_text_filter, halike.kept, Token.flatMap_text_filter]
      percents := by
        rw [percents_ofText ha hold, percents_ofText hb hnew, htail,
          ← Token.filter_isPercent_filter, halike.kept, Token.filter_isPercent_filter]
      exponentPart := by rw [exponentPart_ofText ha hold, exponentPart_ofText hb hnew, htail]
      groupsDigits := by
        rw [groupsDigits_ofText ha hold, groupsDigits_ofText hb hnew, hinteger, hinteger',
          Token.separatesDigits_of_stem hmore, Token.separatesDigits_of_stem hmore']
      scalingCommas := hscaling
      scale := by
        rw [scale_ofText h.semicolon_old, scale_ofText h.semicolon_new, hscaling, hfactor] }

/-- **With a point in its fraction** a section gets the placeholders behind it, and is the
same apart from them. -/
theorem sameButFraction_of_point {front back digits : List Token}
    (hplace : a.insertion? = some (front, back))
    (hfraction : fraction a.fractionDigits = .point :: digits) (hdigits : ∀ d ∈ digits, d.isDigit) :
    SameButFraction (ofText old) (ofText new) ∧
      Item.fractionPlaceholders (ofText new).mantissa = Token.places digits := by
  obtain ⟨halike, hinteger, hplaces⟩ := Anatomy.alike_withFraction h.regular hplace hdigits
  rw [Anatomy.rewritten_congr hfraction.symm, ← h.lex_new] at halike hinteger hplaces
  refine ⟨h.sameButFraction_of_alike halike ?_, ?_⟩
  · rw [hinteger, (Anatomy.integer_eq_of_insertion? hplace).2.2]
  · rw [fractionPlaceholders_ofText (Anatomy.regular_ofTokens _)
      (Anatomy.tokens_ofTokens (lex new)).symm, hplaces]

end IsRewritten

end Section

/-! ## One section -/

namespace Anatomy

variable {a : Anatomy}

/-- What is left behind the integer scales the number as before, unless a comma comes
to stand behind its last placeholder. -/
theorem commasBehind_withoutFraction (h : ¬ a.ScalesMore) :
    Token.commasBehind (a.integer ++ a.leftover.takeWhile (· ≠ .point)) =
      Token.commasBehind a.integer := by
  have hleft : ∀ t ∈ a.leftover.takeWhile (· ≠ .point), t.isDigit = false := fun t ht =>
    isDigit_leftover t ((List.takeWhile_sublist _).subset ht)
  have hplace := place_insertion? a
  generalize a.insertion? = place at hplace
  cases hplace with
  | none hdigit | atPoint hdigit =>
    rw [Token.commasBehind_of_forall hdigit, Token.commasBehind_of_forall fun t ht => ?_]
    exact (List.mem_append.1 ht).elim (hdigit t) (hleft t)
  | @behindDigit front commas back d hd hcommas hback hstop hinteger =>
    have hrest : ∀ t ∈ back ++ a.leftover.takeWhile (· ≠ .point), t.isDigit = false := fun t ht =>
      (List.mem_append.1 ht).elim (hback t) (hleft t)
    have hhead : (back ++ a.leftover.takeWhile (· ≠ .point)).head? ≠ some .comma := by
      cases back with
      | cons t ts => exact hstop
      | nil =>
        intro hcomma
        refine h ⟨front, d, commas, by rw [hinteger, List.append_nil], hd, hcommas, ?_⟩
        cases hleftover : a.leftover with
        | nil => simp [hleftover] at hcomma
        | cons t ts =>
          by_cases ht : t = .point
          · simp [hleftover, ht] at hcomma
          · simpa [hleftover, ht] using hcomma
    rw [hinteger, List.append_assoc, List.cons_append, List.append_assoc,
      Token.commasBehind_of_last hd hcommas hrest, Token.commasBehind_of_last hd hcommas hback,
      Token.takeWhile_comma_eq_nil hstop, Token.takeWhile_comma_eq_nil hhead]

/-- Without a placeholder no comma scales. -/
theorem not_scalesMore_of_none (h : a.insertion? = none) : ¬ a.ScalesMore := by
  rintro ⟨front, d, commas, hinteger, hd, -⟩
  have hplace := place_insertion? a
  rw [h] at hplace
  cases hplace with
  | none hdigit => exact absurd hd (by simp [hdigit d (by rw [hinteger]; simp)])

/-- And if one does, the number is scaled more. -/
theorem commasBehind_lt (h : a.ScalesMore) : Token.commasBehind a.integer <
    Token.commasBehind (a.integer ++ a.leftover.takeWhile (· ≠ .point)) := by
  obtain ⟨front, d, commas, hinteger, hd, hcommas, hcomma⟩ := h
  have hleft : ∀ t ∈ a.leftover.takeWhile (· ≠ .point), t.isDigit = false := fun t ht =>
    isDigit_leftover t ((List.takeWhile_sublist _).subset ht)
  rw [hinteger, List.append_assoc, List.cons_append, Token.commasBehind_of_last hd hcommas hleft,
    Token.commasBehind_of_commas hd hcommas]
  cases hleftover : a.leftover with
  | nil => simp [hleftover] at hcomma
  | cons t ts =>
    obtain rfl : t = .comma := by simpa [hleftover] using hcomma
    simp

end Anatomy

section Sections

variable {old new : Text} {a : Anatomy} {placeholder : Token} {item : Item} {count : Nat}

theorem places_replicate (hitem : placeholder.item? = some item) (hdigit : placeholder.isDigit) :
    Token.places (List.replicate count placeholder) = List.replicate count item := by
  rw [Token.places, List.filterMap_replicate_of_some hitem]
  exact List.filter_eq_self.2 fun i hi => by
    rw [List.eq_of_mem_replicate hi, Token.isDigit_of_item? hitem, hdigit]

/-- **One section gets its fraction**, unless a comma comes to scale the number. -/
theorem becomesWith_iff
    (h : Section.IsRewritten (fun _ => Token.fractionTokens placeholder count) a old new)
    (hitem : placeholder.item? = some item) (hdigit : placeholder.isDigit) :
    Section.BecomesWith item count (.ofText old) (.ofText new) ↔ ¬(count = 0 ∧ a.ScalesMore) := by
  unfold Section.BecomesWith
  rw [Section.hasPlaces_iff h.regular h.lex_old]
  cases hplace : a.insertion? with
  | none =>
    -- Nothing is rewritten, and without a placeholder nothing is scaled.
    have hscales := Anatomy.not_scalesMore_of_none hplace
    simp [h.eq_of_none hplace, hscales]
  | some parts =>
    obtain ⟨front, back⟩ := parts
    simp only [ne_eq, reduceCtorEq, not_false_eq_true, true_implies, not_true_eq_false,
      false_implies, and_true]
    by_cases hcount : count = 0
    · subst hcount
      have hb := Anatomy.regular_ofTokens (lex new)
      have hlex := (Anatomy.tokens_ofTokens (lex new)).symm
      obtain ⟨halike, hinteger, hplaces⟩ := Anatomy.alike_withoutFraction h.regular
      have hnew : lex new = a.rewritten fun _ => [] := h.lex_new
      rw [← hnew] at halike hinteger hplaces
      constructor
      · rintro hgot ⟨-, hscales⟩
        have hcommas := hgot.scalingCommas
        change Token.scalingCommas (lex new) = Token.scalingCommas (lex old) at hcommas
        rw [hlex, h.lex_old, Section.scalingCommas_eq h.regular, Section.scalingCommas_eq hb,
          hinteger] at hcommas
        exact (Anatomy.commasBehind_lt hscales).ne' hcommas
      · intro hscales
        have hcommas := Anatomy.commasBehind_withoutFraction fun hmore => hscales ⟨rfl, hmore⟩
        rw [← hinteger] at hcommas
        refine ⟨h.sameButFraction_of_alike halike hcommas, ?_⟩
        rw [fractionPlaceholders_ofText hb hlex, hplaces]
        rfl
    · have hdigits : ∀ d ∈ List.replicate count placeholder, d.isDigit := fun d hd =>
        List.eq_of_mem_replicate hd ▸ hdigit
      obtain ⟨hsame, hplaces⟩ := h.sameButFraction_of_point hplace (if_neg hcount) hdigits
      refine iff_of_true ⟨hsame, ?_⟩ fun hscales => hcount hscales.1
      rw [hplaces, places_replicate hitem hdigit]

end Sections

/-! ## The whole format -/

/-- The placeholder of a fraction: a digit that is always shown, or one that is shown
where the number has it. -/
def Item.placeholder (trailingZeros : Bool) : Item :=
  if trailingZeros then .zero else .hash

/-- **The format got other decimals.** It is a custom format still, with as many
sections, and each of them has become what it should. -/
structure GetsDecimals (format new : Text) (placeholder : Item) (count : Nat) : Prop where
  isCustom : IsCustom new
  sections : List.Forall₂ (Section.BecomesWith placeholder count)
    ((sectionTexts format).map Section.ofText) ((sectionTexts new).map Section.ofText)

/-- **Nothing custom is left** of a format without its fraction: it has one section, and
without the fraction that is empty or reads as a standard format. -/
def Collapses (format : Text) : Prop :=
  .semicolon ∉ lex format ∧
    ¬ IsCustom (Token.sources (Anatomy.ofTokens (lex format)).withoutFraction)

/-- In some section a comma comes to scale the number when the fraction goes. -/
def ScalesMore (format : Text) : Prop :=
  ∃ run ∈ sectionTokens format, (Anatomy.ofTokens run).ScalesMore

/-- A section with other decimals. -/
def runWithDecimals (trailingZeros : Bool) (count : Nat) (run : List Token) : List Token :=
  (Anatomy.ofTokens run).rewritten fun _ =>
    Token.fractionTokens (if trailingZeros then .zero else .hash) count

section Whole

variable {format : Text} (decimals : Int) (trailingZeros : Bool)

theorem sources_fraction (count : Nat) (digits : List Token) :
    (fun _ : Text => fractionText (if trailingZeros then '0' else '#') count)
        (Token.sources digits) =
      Token.sources (Token.fractionTokens (if trailingZeros then .zero else .hash) count) := by
  cases trailingZeros <;> exact (Token.sources_fractionTokens _ rfl).symm

theorem isFraction_fraction (count : Nat) (digits : List Token) :
    (∀ d ∈ digits, d.isDigit) →
      Token.IsFraction (Token.fractionTokens (if trailingZeros then .zero else .hash) count) := by
  intro _
  cases trailingZeros <;> exact Token.isFraction_fractionTokens rfl _

theorem withDecimals?_of_isCustom (h : IsCustom format) :
    withDecimals? (some decimals) trailingZeros format =
      changeSections (replaceFraction fun _ =>
        fractionText (if trailingZeros then '0' else '#') decimals.natAbs) format := by
  rw [withDecimals?, withDecimals, if_neg h.1, h.2]

/-- A format stays custom when its sections get a point, or when there are several. -/
theorem isCustom_changeSections {change : Text → Text} {fraction : List Token → List Token}
    (hchange : ∀ digits, change (Token.sources digits) = Token.sources (fraction digits))
    (hfraction : ∀ digits, (∀ d ∈ digits, d.isDigit) → Token.IsFraction (fraction digits))
    (h : IsCustom format) (hpoint : .semicolon ∈ lex format ∨ ∀ digits, .point ∈ fraction digits) :
    IsCustom (changeSections (replaceFraction change) format) := by
  by_cases hsemicolon : .semicolon ∈ lex format
  · exact isCustom_of_mem (semicolon_mem_changeSections hchange hfraction hsemicolon)
      (by decide) (by decide)
  rw [changeSections_of_not_mem hchange hsemicolon, Anatomy.rewritten, Anatomy.rewrittenMantissa]
  cases hplace : (Anatomy.ofTokens (lex format)).insertion? with
  | none =>
    change IsCustom (Token.sources (Anatomy.ofTokens (lex format)).tokens)
    rwa [Anatomy.tokens_ofTokens, sources_lex]
  | some parts =>
    refine isCustom_of_mem (c := '.') (List.mem_flatMap.2 ⟨.point, ?_, List.mem_singleton.2 rfl⟩)
      (by decide) (by decide)
    simp [(hpoint.resolve_left hsemicolon) (Anatomy.ofTokens (lex format)).fractionDigits]

/-- **It is custom still**, unless nothing custom is left. -/
theorem isCustom_withDecimals?_iff (h : IsCustom format) :
    IsCustom (withDecimals? (some decimals) trailingZeros format) ↔
      ¬(decimals = 0 ∧ Collapses format) := by
  rw [withDecimals?_of_isCustom decimals trailingZeros h]
  have hcustom (hpoint : .semicolon ∈ lex format ∨ ∀ _ : List Token, .point ∈
        Token.fractionTokens (if trailingZeros then .zero else .hash) decimals.natAbs) :
      IsCustom (changeSections (replaceFraction fun _ =>
        fractionText (if trailingZeros then '0' else '#') decimals.natAbs) format) :=
    isCustom_changeSections (sources_fraction trailingZeros decimals.natAbs)
      (isFraction_fraction trailingZeros decimals.natAbs) h hpoint
  by_cases hsemicolon : .semicolon ∈ lex format
  · exact iff_of_true (hcustom (.inl hsemicolon)) fun hcollapses => hcollapses.2.1 hsemicolon
  by_cases hzero : decimals = 0
  · subst hzero
    rw [changeSections_of_not_mem (sources_fraction trailingZeros _) hsemicolon,
      show (fun _ => Token.fractionTokens (if trailingZeros then .zero else .hash)
          (0 : Int).natAbs) =
        fun _ : List Token => [] from rfl, Anatomy.rewritten_nil]
    simp only [Collapses, hsemicolon, true_and, not_false_eq_true, not_not]
  · refine iff_of_true (hcustom (.inr fun _ => ?_)) fun hcollapses => hzero hcollapses.1
    rw [Token.fractionTokens, if_neg (by simpa using hzero)]
    exact List.mem_cons_self ..

/-- **Its sections become what they should**, unless a comma comes to scale the number. -/
theorem forall₂_becomesWith_iff (h : IsCustom format) :
    List.Forall₂ (Section.BecomesWith (.placeholder trailingZeros) decimals.natAbs)
        ((sectionTexts format).map Section.ofText)
        ((sectionTexts (withDecimals? (some decimals) trailingZeros format)).map Section.ofText) ↔
      ¬(decimals = 0 ∧ ScalesMore format) := by
  have hone : ∀ run ∈ sectionTokens format,
      Section.BecomesWith (.placeholder trailingZeros) decimals.natAbs
          (.ofText (Token.sources run))
          (.ofText (Token.sources (runWithDecimals trailingZeros decimals.natAbs run))) ↔
        ¬(decimals = 0 ∧ (Anatomy.ofTokens run).ScalesMore) := by
    intro run hrun
    have hitem : (if trailingZeros then Token.zero else .hash).item? =
        some (.placeholder trailingZeros) := by cases trailingZeros <;> rfl
    have hdigit : (if trailingZeros then Token.zero else .hash).isDigit := by
      cases trailingZeros <;> rfl
    rw [← Int.natAbs_eq_zero]
    exact becomesWith_iff
      (isRewritten_section (isFraction_fraction trailingZeros decimals.natAbs) hrun) hitem hdigit
  rw [withDecimals?_of_isCustom decimals trailingZeros h, forall₂_changeSections_iff
    (sources_fraction trailingZeros _) (isFraction_fraction trailingZeros _)]
  constructor
  · rintro hruns ⟨hzero, run, hrun, hscales⟩
    exact (hone run hrun).1 (hruns run hrun) ⟨hzero, hscales⟩
  · intro hscales run hrun
    exact (hone run hrun).2 fun hcomma => hscales ⟨hcomma.1, run, hrun, hcomma.2⟩

/-- **Other decimals.** Every custom format gets the decimals it is asked for, and keeps
everything else, section by section. The exceptions are the formats without decimals of
which nothing custom is left, or in which a comma comes to scale the number. -/
theorem getsDecimals_iff (h : IsCustom format) :
    GetsDecimals format (withDecimals? (some decimals) trailingZeros format)
        (.placeholder trailingZeros) decimals.natAbs ↔
      ¬(decimals = 0 ∧ (Collapses format ∨ ScalesMore format)) := by
  have hcustom := isCustom_withDecimals?_iff decimals trailingZeros h
  have hsections := forall₂_becomesWith_iff decimals trailingZeros h
  constructor
  · rintro ⟨hnew, hbecome⟩ ⟨hzero, hcollapses | hscales⟩
    · exact hcustom.1 hnew ⟨hzero, hcollapses⟩
    · exact hsections.1 hbecome ⟨hzero, hscales⟩
  · intro hfails
    exact ⟨hcustom.2 fun hcollapses => hfails ⟨hcollapses.1, .inl hcollapses.2⟩,
      hsections.2 fun hscales => hfails ⟨hscales.1, .inr hscales.2⟩⟩

theorem getsDecimals_accounting : IsCustom "$#,0;($#,0)".toList ∧
    GetsDecimals "$#,0;($#,0)".toList (withDecimals? (some 1) true "$#,0;($#,0)".toList) .zero 1 :=
  ⟨by decide, (getsDecimals_iff 1 true (by decide)).2 (by simp)⟩

/-- Without its decimals `0.0,0` is `0,`, which shows a thousandth of the number. -/
theorem not_getsDecimals_comma : IsCustom "0.0,0".toList ∧
    ¬ GetsDecimals "0.0,0".toList (withDecimals? (some 0) true "0.0,0".toList) .zero 0 := by
  have hcustom : IsCustom "0.0,0".toList := by decide
  have hlex : lex "0.0,0".toList = [.zero, .point, .zero, .comma, .zero] :=
    lex_of_readAlone (List.all_eq_true.1 (by decide))
  refine ⟨hcustom, fun h => (forall₂_becomesWith_iff 0 true hcustom).1 h.sections ⟨rfl, ?_⟩⟩
  refine ⟨[.zero, .point, .zero, .comma, .zero], ?_, [], .zero, [], ?_⟩
  · rw [sectionTokens_eq, hlex]
    decide
  · exact ⟨rfl, rfl, by simp, rfl⟩

end Whole

end TickLabels
