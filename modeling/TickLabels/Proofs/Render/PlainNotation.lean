import Mathlib.Data.List.DropRight
import Mathlib.Data.List.Forall2
import TickLabels.Culture.Known
import TickLabels.Proofs.Decimal.Value
import TickLabels.Proofs.Pattern.Plain
import TickLabels.Proofs.Render.Contributions
/-!
# The number in plain notation

A magnitude is shown as its shortest decimal, rounded to the digits that are
trusted and then to the decimals that the section has (`shownDecimal`). The
placeholders and the point of a section, read from left to right, show exactly
this number (`Section.digits_render`): every digit is shown once, whatever else
stands between them.

Grouping puts separators among the digits. A culture may use one character for
several things, so they are not told apart by looking at the text: each
contribution is compared with what the item shows when nothing is grouped
(`Separated`).
-/

namespace TickLabels

/-- The decimal number that is shown for a magnitude. -/
def shownDecimal (places : ℕ) (m : Magnitude) : ℚ :=
  roundTo (-places) (roundSignificant 16 m.shortest.value)

/-- The digits of a double write its shortest decimal, as far as it is trusted. -/
theorem Digits.value_ofFloat {x : Float} {m : Magnitude} (hm : Magnitude.ofFloat? x = some m) :
    (ofFloat x).value = roundSignificant 16 m.shortest.value := by
  have hshortest : shortest x = m.shortest := by rw [shortest, hm]
  rw [ofFloat, hshortest, value_roundDigits m.isNormal_shortest.head?_ne]
  rfl

/-- The digits of a double in plain notation are those of the number that is
shown. -/
theorem Digits.plain_ofFloat {x : Float} {m : Magnitude} (hm : Magnitude.ofFloat? x = some m)
    (places : ℕ) :
    (Digits.ofFloat x).plain places =
      ⟨digitsOf ⌊shownDecimal places m⌋₊, decimals places (shownDecimal places m)⟩ :=
  Digits.plain_eq (Digits.isNormal_ofFloat hm) (by rw [Digits.value_ofFloat hm, shownDecimal])

/-! ## One point -/

namespace Item

theorem count_point_consLiteral (text : Text) (items : List Item) :
    (consLiteral text items).count point = items.count point := by
  unfold consLiteral
  split <;> simp

/-- The items of a format have one point at most. -/
theorem count_point_ofTokens (pointMet markerMet : Bool) (tokens : List Token) :
    (ofTokens pointMet markerMet tokens).count point ≤ if pointMet || markerMet then 0 else 1 := by
  fun_induction ofTokens pointMet markerMet tokens with
  | case1 => simp
  | _ => simp_all [count_point_consLiteral]

end Item

theorem Section.count_point_le (source : Text) : (ofText source).items.count .point ≤ 1 :=
  Item.count_point_ofTokens false false (lex source)

/-! ## Separators -/

/-- The first text is the second one with separators put in. -/
inductive Separated (separator : Char) : Text → Text → Prop
  | nil : Separated separator [] []
  | char {a b : Text} (c : Char) : Separated separator a b → Separated separator (c :: a) (c :: b)
  | separator {a b : Text} : Separated separator a b → Separated separator (separator :: a) b

namespace Separated

variable {separator : Char}

theorem refl (a : Text) : Separated separator a a := by
  induction a with
  | nil => exact .nil
  | cons c a ih => exact .char c ih

theorem append {a b a' b' : Text} (h : Separated separator a b) (h' : Separated separator a' b') :
    Separated separator (a ++ a') (b ++ b') := by
  induction h with
  | nil => exact h'
  | char c _ ih => exact .char c ih
  | separator _ ih => exact .separator ih

theorem flatten {as bs : List Text} (h : List.Forall₂ (Separated separator) as bs) :
    Separated separator as.flatten bs.flatten := by
  induction h with
  | nil => exact .nil
  | cons hab _ ih => exact hab.append ih

theorem forall₂_refl (as : List Text) : List.Forall₂ (Separated separator) as as :=
  List.forall₂_same.2 fun a _ => refl a

/-- A separator stands behind a digit or does not. -/
theorem of_groupedDigits (sizes : List Nat) (digits : List Digit) :
    List.Forall₂ (Separated separator) (groupedDigits sizes separator digits)
      (groupedDigits [] separator digits) := by
  induction digits with
  | nil => exact .nil
  | cons d ds ih =>
    refine .cons (.char _ ?_) ih
    split
    · exact .separator .nil
    · exact .nil

/-- Dealing keeps what stands at a place together. -/
theorem of_deal {as bs : List Text} (h : List.Forall₂ (Separated separator) as bs) (count : Nat) :
    List.Forall₂ (Separated separator) (deal count as) (deal count bs) := by
  have hlength := h.length_eq
  unfold deal
  rw [hlength]
  split
  · exact List.rel_append (forall₂_refl _) h
  · cases count with
    | zero => exact .nil
    | succ count => exact .cons (flatten (List.forall₂_take _ h)) (List.forall₂_drop _ h)

end Separated

/-- The culture without groups of digits. -/
def Culture.ungrouped (c : Culture) : Culture :=
  { c with groupSizes := [] }

namespace Separated

/-- What an item shows is what it shows without groups, with separators put in. -/
theorem of_contributions (c : Culture) {integer integer' : List Text}
    (h : List.Forall₂ (Separated c.groupSeparator) integer integer') (atPoint : Text)
    (fraction : List Digit) (pointMet : Bool) (items : List Item) :
    List.Forall₂ (Separated c.groupSeparator)
      (Supply.contributions c ⟨integer, atPoint, fraction⟩ pointMet items)
      (Supply.contributions c.ungrouped ⟨integer', atPoint, fraction⟩ pointMet items) := by
  induction items generalizing integer integer' fraction pointMet with
  | nil => exact .nil
  | cons item items ih =>
    cases item with
    | literal | percent | permille | comma | exponent | point => exact .cons (refl _) (ih h _ _)
    | zero | hash =>
      rw [Supply.contributions, Supply.contributions]
      split
      · exact .cons (refl _) (ih h _ _)
      · refine .cons ?_ (ih (List.forall₂_drop 1 h) _ _)
        cases h with
        | nil => exact .nil
        | cons htext _ => exact htext

end Separated

namespace Section

theorem atMarker?_eq_none {items : List Item} (h : ∀ item ∈ items, item.isMarker = false) :
    atMarker? items = none := by
  induction items with
  | nil => rfl
  | cons item items ih =>
    rw [List.forall_mem_cons] at h
    cases item with
    | exponent marker => simp [Item.isMarker] at h
    | _ => simp only [atMarker?, ih h.2, Option.map_none]

theorem separated_plainContributions (s : Section) (c : Culture) (scaled : Float) :
    List.Forall₂ (Separated c.groupSeparator) (s.plainContributions c scaled)
      (s.plainContributions c.ungrouped scaled) := by
  have hsizes : (if s.groupsDigits then c.ungrouped.groupSizes else []) = [] := ite_self _
  unfold plainContributions plainSupply
  rw [hsizes]
  exact Separated.of_contributions c (Separated.of_deal (Separated.of_groupedDigits _ _) _) _ _ _ _

/-- **No digit is lost and none is shown twice.** What the items of a section
show, in their order, is its text. Without groups, the placeholders and the
point show the whole digits of the number, filled up with zeros from the
leftmost `0` on, and its decimals, of which the zeros behind the last `0` are
left out at the end. Groups only put separators among the digits of an item. -/
theorem digits_render {source : Text} {c : Culture} {plain : Bool} {magnitude : Float}
    {m : Magnitude}
    (hplain : plain = true ∨ ∀ item ∈ (ofText source).items, item.isMarker = false)
    (hnumber : Item.integerPlaceholders (ofText source).items ≠ [] ∨ .point ∈ (ofText source).items)
    (hm : Magnitude.ofFloat? (magnitude * (ofText source).scale) = some m) :
    let s := ofText source
    let shown := shownDecimal (Item.fractionPlaceholders s.items).length m
    let whole := digitsOf ⌊shown⌋₊
    let fraction := decimals (Item.fractionPlaceholders s.items).length shown
    let contributions := fun c : Culture => s.plainContributions c (magnitude * s.scale)
    (s.render c plain magnitude).text none = (contributions c).flatten ∧
    List.Forall₂ (Separated c.groupSeparator) (contributions c) (contributions c.ungrouped) ∧
    numberText s.items (contributions c.ungrouped) =
      digitText (List.replicate (Item.leastIntegerDigits s.items - whole.length) 0 ++ whole) ++
        fractionPart c (fraction.take
          (max (fraction.rdropWhile (· = 0)).length (Item.leastFractionDigits s.items))) := by
  intro s shown whole fraction contributions
  have hrender : s.render c plain magnitude = s.renderPlain c (magnitude * s.scale) :=
    render_eq_renderPlain (hplain.imp_right atMarker?_eq_none) c magnitude
  refine ⟨hrender ▸ text_renderPlain s c _, separated_plainContributions s c _, ?_⟩
  have hdigits : (Digits.ofFloat (magnitude * s.scale)).plain
      (Item.fractionPlaceholders s.items).length = ⟨whole, fraction⟩ := Digits.plain_ofFloat hm _
  have hlength : fraction.length = (Item.fractionPlaceholders s.items).length := by
    simp [fraction, decimals]
  have hsizes : (if s.groupsDigits then c.ungrouped.groupSizes else []) = [] := ite_self _
  have hwhole : whole.dropWhile (· = 0) = whole := by
    rw [← digitsOf_valueOf, valueOf_digitsOf]
  change numberText s.items
    ((s.plainSupply c.ungrouped _).contributions c.ungrouped false s.items) = _
  rw [hdigits, numberText_plainSupply (count_point_le source) hnumber hlength, hsizes,
    groupedText_nil_sizes, padInteger, hwhole]
  rfl

/-- A number in groups with one or two decimals, as the United States write it. -/
theorem digits_render_enUS :
    lex "#,##0.0#".toList = [.hash, .comma, .hash, .hash, .zero, .point, .zero, .hash] ∧
      Magnitude.ofFloat? (1234.5625 * (ofText "#,##0.0#".toList).scale) =
        some ⟨19753 * 2 ^ 38, -42⟩ ∧
      ((ofText "#,##0.0#".toList).render .enUS false 1234.5625).text none =
        ((ofText "#,##0.0#".toList).plainContributions .enUS
          (1234.5625 * (ofText "#,##0.0#".toList).scale)).flatten := by
  have hlex : lex "#,##0.0#".toList =
      [.hash, .comma, .hash, .hash, .zero, .point, .zero, .hash] :=
    lex_of_readAlone (List.all_eq_true.1 (by decide))
  have hitems : (ofText "#,##0.0#".toList).items =
      [.hash, .comma, .hash, .hash, .zero, .point, .zero, .hash] := by
    rw [ofText, hlex]
    rfl
  have hscale : (ofText "#,##0.0#".toList).scale = 1.0 := by
    rw [scale_ofText (by rw [hlex]; decide), hlex, show Token.scalingCommas _ = 0 from rfl,
      power_zero]
    decide +kernel
  have hmagnitude : Magnitude.ofFloat? (1234.5625 * (ofText "#,##0.0#".toList).scale) =
      some ⟨19753 * 2 ^ 38, -42⟩ := by
    rw [hscale]
    decide +kernel
  refine ⟨hlex, hmagnitude, (digits_render (.inr ?_) (.inl ?_) hmagnitude).1⟩
  · rw [hitems]
    decide
  · rw [hitems]
    decide

end Section

end TickLabels
