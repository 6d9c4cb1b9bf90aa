/-!
# Text

Formats, cultures and labels are sequences of characters. This file holds
the few operations on them that the rest of the library shares: the length
of a text in UTF-8, padding with zeros, joining, and filling the slot of a
template.
-/

namespace TickLabels

/-- Text as the sequence of its characters. -/
abbrev Text := List Char

/-- The number of bytes a text takes in UTF-8. -/
def utf8Length : Text → Nat
  | [] => 0
  | c :: text => c.utf8Size + utf8Length text

@[simp] theorem utf8Length_nil : utf8Length [] = 0 := rfl

@[simp] theorem utf8Length_cons (c : Char) (text : Text) :
    utf8Length (c :: text) = c.utf8Size + utf8Length text := rfl

@[simp] theorem utf8Length_append (a b : Text) :
    utf8Length (a ++ b) = utf8Length a + utf8Length b := by
  induction a with
  | nil => simp
  | cons c a ih => simp [ih, Nat.add_assoc]

/-- Only the empty text has length zero, since a character takes at least
one byte. -/
theorem utf8Length_eq_zero_iff {text : Text} : utf8Length text = 0 ↔ text = [] := by
  cases text with
  | nil => simp
  | cons c text => have := Char.utf8Size_pos c; simp; omega

/-- `text` with zeros in front, up to `width` characters. -/
def padZeros (width : Nat) (text : Text) : Text :=
  List.replicate (width - text.length) '0' ++ text

theorem length_padZeros (width : Nat) (text : Text) :
    (padZeros width text).length = max width text.length := by
  simp [padZeros]; omega

/-- The texts one after the other, with `separator` between neighbours. -/
def joinWith (separator : Text) (texts : List Text) : Text :=
  (texts.intersperse separator).flatten

/-- `template` with every slot `\x7b0\x7d` replaced by `content`. -/
def fillTemplate (content : Text) : Text → Text
  | '{' :: '0' :: '}' :: rest => content ++ fillTemplate content rest
  | c :: rest => c :: fillTemplate content rest
  | [] => []

/-- The bare slot is the neutral template. -/
@[simp] theorem fillTemplate_slot (content : Text) :
    fillTemplate content ['{', '0', '}'] = content := by
  simp [fillTemplate]

end TickLabels
