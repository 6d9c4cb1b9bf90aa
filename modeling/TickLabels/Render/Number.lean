import TickLabels.Options
import TickLabels.Pattern.NumberFormat
import TickLabels.Render.Section
import TickLabels.Render.Standard

/-!
# Formatting numbers

A number is shown by the section for its sign, or in the notation of a
standard format. A template, if one is given, receives the number in its
slot; then exponent markers of custom formats are ignored. What is not a
finite number is shown by a symbol of the culture in any case.
-/

namespace TickLabels

namespace CustomFormat

/-- The text of a finite number. One that is rounded to zero is shown by the
section for zero, if there is one of its own, and never has a sign. -/
def render (f : CustomFormat) (c : Culture) (template? : Option Text) (value : Float) : Text :=
  let rendered := (f.select value).render c template?.isSome value.abs
  if value != 0.0 && rendered.isZero && f.ownZero then
    ((f.select 0.0).render c template?.isSome 0.0).text template?
  else
    withSign c (value < 0.0 && !f.ownNegative && !rendered.isZero) (rendered.text template?)

end CustomFormat

namespace NumberFormat

/-- The text of a number in a culture. -/
def format (f : NumberFormat) (c : Culture) (template? : Option Text) (value : Float) : Text :=
  match c.symbolFor? value with
  | some symbol => symbol
  | none =>
    match f with
    | .standard f =>
      let text := f.render c value
      match template? with
      | some template => fillTemplate text template
      | none => text
    | .custom f => f.render c template? value

end NumberFormat

/-- Reads a format and formats a number by it, with the number put into a
template if there is one. -/
def formatWith (options : FormatOptions) (template? : Option Text) (format : Text)
    (value : Float) : Except FormatError Text :=
  (NumberFormat.parse (options.formatInUse format)).map
    fun f => f.format options.culture template? value

/-- Reads a format and formats a number by it. -/
def formatNumber (options : FormatOptions) (format : Text) (value : Float) :
    Except FormatError Text :=
  formatWith options none format value

end TickLabels
