import TickLabels.Pattern.Metadata

/-!
# The items of a section

A section is rendered item by item. Neighbouring literal texts are one
item; only the first decimal point counts, and only before the exponent
marker; a second exponent marker is plain text.
-/

namespace TickLabels

/-- One item of a section. -/
inductive Item where
  /-- Text that is copied. -/
  | literal (text : Text)
  /-- A digit that is always shown. -/
  | zero
  /-- A digit that is shown where the number has one. -/
  | hash
  | point
  /-- A comma. It groups digits when it stands between two of them. -/
  | comma
  | percent
  | permille
  | exponent (marker : ExponentMarker)
deriving DecidableEq, Repr

namespace Item

/-- The digit placeholders. -/
def isDigit : Item → Bool
  | zero | hash => true
  | _ => false

/-- Items that belong to the number itself. -/
def isNumberPart : Item → Bool
  | zero | hash | point | comma => true
  | _ => false

/-- Exponent markers. -/
def isMarker : Item → Bool
  | exponent _ => true
  | _ => false

/-- Text in front of items. It joins a literal that follows. -/
def consLiteral (text : Text) : List Item → List Item
  | literal next :: items => literal (text ++ next) :: items
  | items => literal text :: items

/-- The items of a run of tokens, given whether a decimal point and an
exponent marker have been met before it. -/
def ofTokens (pointMet markerMet : Bool) : List Token → List Item
  | [] => []
  | t :: ts =>
    match t with
    | .literal c | .escaped c => consLiteral [c] (ofTokens pointMet markerMet ts)
    | .quoted _ text _ => consLiteral text (ofTokens pointMet markerMet ts)
    | .semicolon => consLiteral [';'] (ofTokens pointMet markerMet ts)
    | .zero => zero :: ofTokens pointMet markerMet ts
    | .hash => hash :: ofTokens pointMet markerMet ts
    | .comma => comma :: ofTokens pointMet markerMet ts
    | .percent => percent :: ofTokens pointMet markerMet ts
    | .permille => permille :: ofTokens pointMet markerMet ts
    | .point =>
      if pointMet || markerMet then ofTokens pointMet markerMet ts
      else point :: ofTokens true markerMet ts
    | .exponent marker =>
      if markerMet then consLiteral marker.source (ofTokens pointMet markerMet ts)
      else exponent marker :: ofTokens pointMet true ts

end Item

/-- A section of a custom format, ready to be rendered. -/
structure Section where
  source : Text
  items : List Item
  metadata : Metadata

namespace Section

/-- The section that a text writes. -/
def ofText (source : Text) : Section where
  source
  items := Item.ofTokens false false (lex source)
  metadata := .ofFormat source .all

/-- The factor of a number shown by this section. -/
def scale (s : Section) : Float :=
  s.metadata.scale.getD 1.0

/-- Where the exponent marker stands among the items. -/
def markerIndex? (s : Section) : Option Nat :=
  s.items.findIdx? Item.isMarker

/-- The items before the decimal point and the exponent marker. -/
def integerItems (s : Section) : List Item :=
  s.items.takeWhile fun item => item ≠ .point && !item.isMarker

/-- A comma stands somewhere between two of the placeholders. -/
def separatesDigits (items : List Item) : Bool :=
  ((items.dropWhile (!·.isDigit)).dropWhile (· ≠ .comma)).any Item.isDigit

/-- Integer digits are grouped when a comma stands between two of their
placeholders. -/
def groupsDigits (s : Section) : Bool :=
  separatesDigits s.integerItems

end Section

end TickLabels
