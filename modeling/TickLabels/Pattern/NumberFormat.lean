import TickLabels.Decimal.Numeral
import TickLabels.Pattern.Section
import TickLabels.Pattern.Sections
import TickLabels.Pattern.Standard

/-!
# Number formats

`NumberFormat.parse` reads a format. A letter with up to two digits is a
standard format, the empty format is the general one, and any other text is
a custom format. Only an unknown standard letter is refused.
-/

namespace TickLabels

/-- Why a format is refused. -/
inductive FormatError where
  /-- The letter of a standard format names no notation. -/
  | unknownStandard (format : Text)
deriving DecidableEq, Repr

namespace FormatError

/-- The message for a reader. -/
def message : FormatError → Text
  | unknownStandard format =>
    "unknown standard format specifier '".toList ++ format ++ ['\'']

end FormatError

/-- A custom format: its sections and how they are chosen. -/
structure CustomFormat where
  texts : SignTexts
  positive : Section
  negative : Section
  zero : Section
  /-- The number of sections in use, from one to three. -/
  sectionsUsed : Nat
  /-- Negative numbers have a section of their own, which takes care of
  their sign. -/
  ownNegative : Bool

namespace CustomFormat

/-- The custom format that a text writes. -/
def ofText (format : Text) : CustomFormat :=
  let sections := sectionTexts format
  let texts := SignTexts.ofFormat format
  { texts
    positive := .ofText texts.positive
    negative := .ofText texts.negative
    zero := .ofText texts.zero
    sectionsUsed := min 3 sections.length
    ownNegative := (sections[1]?.getD []) ≠ [] }

/-- A third section takes care of zero. -/
def ownZero (f : CustomFormat) : Bool :=
  3 ≤ f.sectionsUsed

/-- The section for a number, by its sign. -/
def select (f : CustomFormat) (value : Float) : Section :=
  if 0.0 < value then f.positive
  else if value < 0.0 then (if f.ownNegative then f.negative else f.positive)
  else f.zero

end CustomFormat

/-- A format that has been read. -/
inductive NumberFormat where
  | standard (format : StandardFormat)
  | custom (format : CustomFormat)

namespace NumberFormat

/-- The standard format that a letter and digits write. -/
def readStandard (letter : Char) (digits : Text) : Except FormatError StandardFormat :=
  match StandardStyle.ofLetter? letter with
  | none => .error (.unknownStandard (letter :: digits))
  | some style =>
    .ok ⟨style, letter.isLower, if digits = [] then none else some (readNumeral digits)⟩

/-- Reads a format. -/
def parse (format : Text) : Except FormatError NumberFormat :=
  match format with
  | [] => .ok (.standard .general)
  | letter :: digits =>
    if readsAsStandard format then (readStandard letter digits).map .standard
    else .ok (.custom (.ofText format))

end NumberFormat

end TickLabels
