import TickLabels.Cache.Recent
import TickLabels.Pattern.NumberFormat

/-!
# A cache of formats

The formats read last. Formats that are refused are not stored.
-/

namespace TickLabels

/-- The formats read last, by their text. -/
structure RecentFormats where
  entries : RecentMap Text NumberFormat

namespace RecentFormats

/-- The number of formats that are kept. -/
def capacity : Nat := 100

/-- A cache without entries. -/
def empty : RecentFormats :=
  ⟨.empty capacity⟩

/-- Reads a format, or finds it among those read before. -/
def parse (cache : RecentFormats) (format : Text) :
    Except FormatError NumberFormat × RecentFormats :=
  let (result, entries) := cache.entries.fetch format NumberFormat.parse
  (result, ⟨entries⟩)

end RecentFormats

end TickLabels
