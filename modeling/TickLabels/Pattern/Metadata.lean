import TickLabels.Binary64.Power
import TickLabels.Pattern.Lexer

/-!
# Metadata of a custom format

What a format contains, read off its tokens: which special characters occur
outside text, how many fraction digits its positive section asks for, and
the factor by which a number is multiplied before it is shown.
-/

namespace TickLabels

/-- The list cut behind the last element that satisfies `p`. -/
def splitAfterLast {α : Type} (p : α → Bool) : List α → Option (List α × List α)
  | [] => none
  | a :: as =>
    match splitAfterLast p as with
    | some (front, back) => some (a :: front, back)
    | none => if p a then some ([a], as) else none

theorem splitAfterLast_append {α : Type} {p : α → Bool} {as front back : List α}
    (h : splitAfterLast p as = some (front, back)) : front ++ back = as := by
  induction as generalizing front back with
  | nil => simp [splitAfterLast] at h
  | cons a as ih =>
    unfold splitAfterLast at h
    split at h
    · next h' => simp at h; obtain ⟨rfl, rfl⟩ := h; simp [ih h']
    · split at h <;> simp at h
      obtain ⟨rfl, rfl⟩ := h
      rfl

theorem splitAfterLast_eq_none_iff {α : Type} {p : α → Bool} {as : List α} :
    splitAfterLast p as = none ↔ ∀ a ∈ as, p a = false := by
  induction as with
  | nil => simp [splitAfterLast]
  | cons a as ih =>
    unfold splitAfterLast
    split
    · next h => simp [← ih, h]
    · next h => simp only [List.mem_cons, forall_eq_or_imp, ← ih]; simp [h]

namespace Token

/-- The tokens before the first semicolon. -/
def positivePart (tokens : List Token) : List Token :=
  tokens.takeWhile (· ≠ .semicolon)

/-- The tokens before the decimal point and the exponent marker. -/
def integerPart (tokens : List Token) : List Token :=
  tokens.takeWhile fun t => t ≠ .point && !t.isExponent

/-- The largest number of fraction digits that is counted. -/
def precisionCap : Nat := 19

/-- The digit placeholders behind the first point, up to an exponent
marker. -/
def fractionDigits (tokens : List Token) : Nat :=
  min precisionCap <|
    (((tokens.dropWhile (· ≠ .point)).drop 1).takeWhile (!·.isExponent)).countP isDigit

/-- A hundred for each percent sign and a thousand for each permille
sign. -/
def percentFactor (tokens : List Token) : Float :=
  tokens.foldl (fun parts t =>
    match t with
    | .percent => parts * 100.0
    | .permille => parts * 1000.0
    | _ => parts) 1.0

/-- The commas directly behind the last integer placeholder, each of which
divides the number by a thousand. -/
def scalingCommas (tokens : List Token) : Nat :=
  match splitAfterLast isDigit (integerPart tokens) with
  | some (_, back) => (back.takeWhile (· = .comma)).length
  | none => 0

/-- The factor of the number: its parts per scale, divided by a thousand
for every scaling comma. -/
def scale (tokens : List Token) : Float :=
  percentFactor tokens / power 1000.0 (scalingCommas tokens)

end Token

/-- What a format contains. The three numbers are there if they are selected. -/
structure Metadata where
  format : Text
  /-- Quoted text or an escaped character. -/
  hasLiterals : Bool
  /-- A letter `e` outside text, as an exponent marker or for itself. -/
  hasE : Bool
  hasCommas : Bool
  hasDots : Bool
  hasPercent : Bool
  hasPermille : Bool
  precision : Option Nat
  scale : Option Float
  percentFactor : Option Float
deriving DecidableEq

/-- Which numbers to give. -/
structure MetadataSelection where
  precision : Bool
  scale : Bool
  percentFactor : Bool
deriving DecidableEq, Repr

namespace MetadataSelection

/-- All three. -/
def all : MetadataSelection := ⟨true, true, true⟩

end MetadataSelection

namespace Metadata

/-- Metadata without the numbers that are not asked for. -/
def restrict (m : Metadata) (selection : MetadataSelection) : Metadata :=
  { m with
    precision := m.precision.filter fun _ => selection.precision
    scale := m.scale.filter fun _ => selection.scale
    percentFactor := m.percentFactor.filter fun _ => selection.percentFactor }

/-- What tokens say of a format. The flags look at all of them, the numbers at those of the
section for positive numbers. -/
def ofTokens (format : Text) (tokens positive : List Token) (selection : MetadataSelection) :
    Metadata where
  format
  hasLiterals := tokens.any fun
    | .quoted .. | .escaped _ => true
    | _ => false
  hasE := tokens.any fun
    | .literal c => c = 'e' || c = 'E'
    | .exponent _ => true
    | _ => false
  hasCommas := tokens.any (· = .comma)
  hasDots := tokens.any (· = .point)
  hasPercent := tokens.any (· = .percent)
  hasPermille := tokens.any (· = .permille)
  precision := if selection.precision then some (Token.fractionDigits positive) else none
  scale := if selection.scale then some (Token.scale positive) else none
  percentFactor := if selection.percentFactor then some (Token.percentFactor positive) else none

/-- The metadata of a format. Its flags look at all sections, its numbers
at the first. -/
def ofFormat (format : Text) (selection : MetadataSelection) : Metadata :=
  ofTokens format (lex format) (Token.positivePart (lex format)) selection

/-- The full metadata, restricted, is the metadata asked for. -/
theorem restrict_ofFormat (format : Text) (selection : MetadataSelection) :
    (ofFormat format .all).restrict selection = ofFormat format selection := by
  simp only [ofFormat, ofTokens, restrict, MetadataSelection.all, if_true]
  rcases selection with ⟨_ | _, _ | _, _ | _⟩ <;> rfl

end Metadata

end TickLabels
