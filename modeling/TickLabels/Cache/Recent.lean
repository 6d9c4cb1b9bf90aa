/-!
# Maps that keep the most recent entries

A `RecentMap` holds at most `capacity` entries in the order of their last
use. Reading an entry and storing one are uses; asking whether one is there
is not. When a new entry finds the map full, the entry that has gone longest
without use makes room for it.
-/

namespace TickLabels

/-- Entries by key, the most recently used first. -/
structure RecentMap (κ ν : Type) where
  capacity : Nat
  entries : List (κ × ν)

namespace RecentMap

variable {κ ν : Type} [DecidableEq κ]

/-- A map without entries. -/
def empty (capacity : Nat) : RecentMap κ ν :=
  ⟨capacity, []⟩

/-- The number of entries. -/
def size (m : RecentMap κ ν) : Nat :=
  m.entries.length

/-- The keys, the most recently used first. -/
def keys (m : RecentMap κ ν) : List κ :=
  m.entries.map Prod.fst

/-- The value of a key. -/
def find? (m : RecentMap κ ν) (key : κ) : Option ν :=
  m.entries.lookup key

/-- Whether a key has an entry. -/
def contains (m : RecentMap κ ν) (key : κ) : Bool :=
  (m.find? key).isSome

/-- The map after a use of `key`, which now has the value `value`. -/
def touch (m : RecentMap κ ν) (key : κ) (value : ν) : RecentMap κ ν :=
  { m with
    entries := ((key, value) :: m.entries.filter fun entry => entry.1 ≠ key).take m.capacity }

/-- The map without its entries. -/
def clear (m : RecentMap κ ν) : RecentMap κ ν :=
  { m with entries := [] }

/-- The stored value of `key`, or the value of `compute`, which is stored if
there is one. -/
def fetch {ε : Type} (m : RecentMap κ ν) (key : κ) (compute : κ → Except ε ν) :
    Except ε ν × RecentMap κ ν :=
  match m.find? key with
  | some value => (.ok value, m.touch key value)
  | none =>
    match compute key with
    | .ok value => (.ok value, m.touch key value)
    | .error e => (.error e, m)

/-! ## What a use does -/

/-- The key in use comes first, and the others keep their order. -/
theorem keys_touch (m : RecentMap κ ν) (key : κ) (value : ν) :
    (m.touch key value).keys = (key :: m.keys.filter (· ≠ key)).take m.capacity := by
  simp [touch, keys, List.map_take, List.filter_map, Function.comp_def]

theorem size_touch_le (m : RecentMap κ ν) (key : κ) (value : ν) :
    (m.touch key value).size ≤ m.capacity :=
  List.length_take_le ..

/-- What was used last is found, if there is room for anything. -/
theorem find?_touch (m : RecentMap κ ν) (h : 0 < m.capacity) (key : κ) (value : ν) :
    (m.touch key value).find? key = some value := by
  obtain ⟨n, hn⟩ := Nat.exists_eq_succ_of_ne_zero (Nat.ne_of_gt h)
  simp [touch, find?, hn]

end RecentMap

end TickLabels
