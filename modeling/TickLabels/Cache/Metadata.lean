import TickLabels.Cache.Recent
import TickLabels.Pattern.Metadata

/-!
# A cache of metadata

The metadata of the formats used last. What is stored is always the full
metadata, so an entry serves every later selection of it.
-/

namespace TickLabels

/-- The full metadata of the formats used last. -/
structure RecentMetadata where
  entries : RecentMap Text Metadata

namespace RecentMetadata

/-- The room a cache has where none is asked for: a single format. -/
def defaultCapacity : Nat := 1

/-- A cache without entries. -/
def empty (capacity : Nat) : RecentMetadata :=
  ⟨.empty capacity⟩

/-- The metadata of a format, restricted to the selection. -/
def get (cache : RecentMetadata) (format : Text) (selection : MetadataSelection) :
    Metadata × RecentMetadata :=
  let full := (cache.entries.find? format).getD (.ofFormat format .all)
  (full.restrict selection, ⟨cache.entries.touch format full⟩)

/-- Whether a format is stored. This is not a use of it. -/
def contains (cache : RecentMetadata) (format : Text) : Bool :=
  cache.entries.contains format

/-- The number of formats stored. -/
def size (cache : RecentMetadata) : Nat :=
  cache.entries.size

/-- The cache without its entries. -/
def clear (cache : RecentMetadata) : RecentMetadata :=
  ⟨cache.entries.clear⟩

end RecentMetadata

end TickLabels
