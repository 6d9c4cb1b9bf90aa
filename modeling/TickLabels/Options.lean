import TickLabels.Culture.Known

/-!
# Formatting options
-/

namespace TickLabels

/-- How numbers are formatted: in which culture, and whether verbose percent
formats are replaced by compact ones. -/
structure FormatOptions where
  culture : Culture
  compact : Bool
deriving DecidableEq, Repr

namespace FormatOptions

/-- United States English, formats as they are. -/
def standard : FormatOptions :=
  ⟨.enUS, false⟩

/-- Verbose percent formats, each with a compact one that shows `100%`
rather than `100.00 %`. -/
def compactFormats : List (Text × Text) :=
  [("0.00 %;-0.00 %;0.00 %".toList, "0.##%".toList), ("0.0 %;-0.0 %;0.0 %".toList, "0.#%".toList)]

/-- The format that is used in place of `format`. -/
def formatInUse (options : FormatOptions) (format : Text) : Text :=
  if options.compact then (compactFormats.lookup format).getD format else format

end FormatOptions

end TickLabels
