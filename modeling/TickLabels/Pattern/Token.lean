import TickLabels.Text

/-!
# Tokens of a custom format

A custom format is written with digit placeholders, separators, percent
signs, an exponent marker, and text. A `Token` is one of these as it was
written: `Token.source` prints it back, so a format and its tokens carry
the same information.
-/

namespace TickLabels

/-- An exponent marker as written: the letter, an optional sign and the
run of zeros that sets the least number of exponent digits. -/
structure ExponentMarker where
  /-- The letter is `E` and not `e`. -/
  upper : Bool
  /-- The sign between the letter and the zeros, if one is written. -/
  sign : Option Char
  /-- The number of zeros. -/
  zeros : Nat
deriving DecidableEq, Repr

namespace ExponentMarker

/-- The letter of the marker. -/
def letter (m : ExponentMarker) : Char :=
  if m.upper then 'E' else 'e'

/-- A `+` asks for the sign of an exponent that is not negative. -/
def asksForPlus (m : ExponentMarker) : Bool :=
  m.sign = some '+'

/-- The marker as written. -/
def source (m : ExponentMarker) : Text :=
  m.letter :: (m.sign.toList ++ List.replicate m.zeros '0')

end ExponentMarker

/-- One token of a custom format. -/
inductive Token where
  /-- A character that stands for itself. -/
  | literal (c : Char)
  /-- A character after a backslash. -/
  | escaped (c : Char)
  /-- Text in quotes. A quote that is never closed runs to the end of the
  format. -/
  | quoted (quote : Char) (text : Text) (closed : Bool)
  /-- `0`, a digit that is always shown. -/
  | zero
  /-- `#`, a digit shown only where the number has one. -/
  | hash
  /-- The decimal point. -/
  | point
  /-- A comma, which groups digits or scales by thousands. -/
  | comma
  /-- A semicolon between two sections. -/
  | semicolon
  /-- `%` -/
  | percent
  /-- `‰` -/
  | permille
  /-- An exponent marker. -/
  | exponent (marker : ExponentMarker)
deriving DecidableEq, Repr

namespace Token

/-- A token as written. -/
def source : Token → Text
  | literal c => [c]
  | escaped c => ['\\', c]
  | quoted quote text closed => quote :: (text ++ if closed then [quote] else [])
  | zero => ['0']
  | hash => ['#']
  | point => ['.']
  | comma => [',']
  | semicolon => [';']
  | percent => ['%']
  | permille => ['‰']
  | exponent marker => marker.source

/-- The placeholders `0` and `#`. -/
def isDigit : Token → Bool
  | zero | hash => true
  | _ => false

/-- Exponent markers. -/
def isExponent : Token → Bool
  | exponent _ => true
  | _ => false

/-- No token is written as nothing. -/
theorem source_ne_nil (t : Token) : t.source ≠ [] := by
  cases t <;> simp [source, ExponentMarker.source]

/-- The source of a run of tokens. -/
def sources (tokens : List Token) : Text :=
  tokens.flatMap source

@[simp] theorem sources_nil : sources [] = [] := rfl

@[simp] theorem sources_cons (t : Token) (ts : List Token) :
    sources (t :: ts) = t.source ++ sources ts := rfl

@[simp] theorem sources_append (ts us : List Token) :
    sources (ts ++ us) = sources ts ++ sources us := by
  simp [sources]

end Token

end TickLabels
