import TickLabels.Culture
import TickLabels.Decimal.Shortest
import TickLabels.Pattern.Section
import TickLabels.Render.Grouping

/-!
# Rendering a section

Every item of a section contributes one text. The digits of the number are
dealt to the placeholders: integer digits from the right, the leftmost
placeholder taking all that are left, and fraction digits from the left.
With an exponent marker there is one integer digit and the marker
contributes the exponent.

The texts fall into three parts, the number itself from its first to its
last item and what stands before and after it, so that a template can wrap
the number alone.
-/

namespace TickLabels

/-- A rendered section. -/
structure SectionText where
  before : Text
  number : Text
  after : Text
  /-- All digits of the rounded number are zero. -/
  isZero : Bool
  /-- The section has an item of the number. -/
  holdsNumber : Bool
deriving DecidableEq, Repr

namespace SectionText

/-- The text, with the number put into the template if there is one. A
section without a number takes no template. -/
def text (r : SectionText) (template? : Option Text) : Text :=
  match template? with
  | some template =>
    if r.holdsNumber then r.before ++ fillTemplate r.number template ++ r.after
    else r.before ++ r.number ++ r.after
  | none => r.before ++ r.number ++ r.after

end SectionText

/-! ## Placeholders -/

namespace Item

/-- The placeholders before the decimal point. -/
def integerPlaceholders (items : List Item) : List Item :=
  (items.takeWhile (· ≠ .point)).filter isDigit

/-- The placeholders behind the decimal point. -/
def fractionPlaceholders (items : List Item) : List Item :=
  (items.dropWhile (· ≠ .point)).filter isDigit

/-- The integer digits that are always shown: those from the leftmost `0`
on. -/
def leastIntegerDigits (items : List Item) : Nat :=
  ((integerPlaceholders items).dropWhile (· ≠ .zero)).length

/-- The fraction digits that are always shown: those up to the last `0`. -/
def leastFractionDigits (items : List Item) : Nat :=
  match splitAfterLast (· = .zero) (fractionPlaceholders items) with
  | some (front, _) => front.length
  | none => 0

end Item

/-! ## Contributions -/

/-- What the digit placeholders and the point of a section have to show. -/
structure Supply where
  /-- A text for each integer placeholder. -/
  integer : List Text
  /-- What the point shows in front of the separator, for want of integer
  placeholders. -/
  atPoint : Text
  fraction : List Digit
deriving DecidableEq, Repr

namespace Supply

/-- The contribution of each item, from what is left of the supply.
`pointMet` tells the placeholders of the fraction from those of the
integer. -/
def contributions (c : Culture) (s : Supply) (pointMet : Bool) : List Item → List Text
  | [] => []
  | item :: items =>
    match item with
    | .literal text => text :: contributions c s pointMet items
    | .percent => c.percentSymbol :: contributions c s pointMet items
    | .permille => c.permilleSymbol :: contributions c s pointMet items
    | .comma | .exponent _ => [] :: contributions c s pointMet items
    | .point =>
      (s.atPoint ++ if s.fraction = [] then [] else [c.decimalSeparator]) ::
        contributions c s true items
    | .zero | .hash =>
      if pointMet then
        digitText (s.fraction.take 1) ::
          contributions c { s with fraction := s.fraction.drop 1 } pointMet items
      else
        s.integer.headD [] ::
          contributions c { s with integer := s.integer.drop 1 } pointMet items

theorem length_contributions (c : Culture) (s : Supply) (pointMet : Bool) (items : List Item) :
    (contributions c s pointMet items).length = items.length := by
  fun_induction contributions c s pointMet items <;> simp_all

end Supply

/-- The contributions before, of, and behind the items of the number. -/
structure Parts where
  before : Text
  number : Text
  after : Text

/-- Items with their contributions, cut before the first and behind the last
item of the number. -/
def numberParts? (pieces : List (Item × Text)) : Option Parts :=
  let lead := pieces.takeWhile (!·.1.isNumberPart)
  (splitAfterLast (·.1.isNumberPart) (pieces.drop lead.length)).map fun (number, after) =>
    { before := lead.flatMap Prod.snd
      number := number.flatMap Prod.snd
      after := after.flatMap Prod.snd }

namespace Section

/-- The supply of a number in plain notation. -/
def plainSupply (s : Section) (c : Culture) (d : PlainDigits) : Supply :=
  let places := (Item.integerPlaceholders s.items).length
  let digits := padInteger (Item.leastIntegerDigits s.items) d.integer
  let sizes := if s.groupsDigits then c.groupSizes else []
  { integer := deal places (groupedDigits sizes c.groupSeparator digits)
    atPoint := if places = 0 then digitText digits else []
    fraction := shortenFraction (Item.leastFractionDigits s.items) d.fraction }

/-- The section in plain notation. -/
def renderPlain (s : Section) (c : Culture) (scaled : Float) : SectionText :=
  let places := (Item.fractionPlaceholders s.items).length
  let d := (Digits.ofFloat scaled).plain places
  let texts := (s.plainSupply c d).contributions c false s.items
  match numberParts? (s.items.zip texts) with
  | some parts => ⟨parts.before, parts.number, parts.after, d.isZero, true⟩
  | none => ⟨texts.flatten, [], [], d.isZero, false⟩

/-- The text of an exponent marker. Of a number that is zero the exponent is
zero too. -/
def markerText (c : Culture) (marker : ExponentMarker) (d : ScientificDigits) : Text :=
  let exponent := if d.isZero then 0 else d.exponent
  let sign := if exponent < 0 then c.negativeSign else if marker.asksForPlus then ['+'] else []
  marker.letter :: (sign ++ padZeros marker.zeros (numeral exponent.natAbs))

/-- The supply of the mantissa of a number in scientific notation. Only the
first integer placeholder shows the integer digit. -/
def mantissaSupply (mantissa : List Item) (d : ScientificDigits) : Supply :=
  { integer := [[d.lead.char]]
    atPoint := if Item.integerPlaceholders mantissa = [] then [d.lead.char] else []
    fraction := shortenFraction (Item.leastFractionDigits mantissa) d.fraction }

/-- The section in scientific notation: `mantissa` are the items before the
marker and `rest` those behind it, where placeholders show nothing. If the
mantissa has neither an integer placeholder nor a point, the integer digit
stands at the marker. The exponent belongs to what stands behind the number,
even if there is nothing of the number before it. -/
def renderWithExponent (c : Culture) (mantissa : List Item) (marker : ExponentMarker)
    (rest : List Item) (scaled : Float) : SectionText :=
  let places := (Item.fractionPlaceholders mantissa).length
  let d := (Digits.ofFloat scaled).scientific places
  let texts := (mantissaSupply mantissa d).contributions c false mantissa
  let atMarker :=
    if Item.integerPlaceholders mantissa = [] ∧ Item.point ∉ mantissa then [d.lead.char] else []
  let exponent := markerText c marker d
  let tail := (Supply.contributions c ⟨[], [], []⟩ false rest).flatten
  match numberParts? (mantissa.zip texts) with
  | some parts =>
    ⟨parts.before, parts.number, parts.after ++ atMarker ++ exponent ++ tail, d.isZero, true⟩
  | none => ⟨texts.flatten ++ atMarker ++ tail, [], exponent, d.isZero, false⟩

/-- The items around the exponent marker, if there is one. -/
def atMarker? : List Item → Option (List Item × ExponentMarker × List Item)
  | [] => none
  | .exponent marker :: items => some ([], marker, items)
  | item :: items =>
    (atMarker? items).map fun (mantissa, marker, rest) => (item :: mantissa, marker, rest)

/-- The section for a magnitude. With `plain` an exponent marker is
ignored. -/
def render (s : Section) (c : Culture) (plain : Bool) (magnitude : Float) : SectionText :=
  let scaled := magnitude * s.scale
  match plain, atMarker? s.items with
  | false, some (mantissa, marker, rest) => renderWithExponent c mantissa marker rest scaled
  | _, _ => s.renderPlain c scaled

end Section

end TickLabels
