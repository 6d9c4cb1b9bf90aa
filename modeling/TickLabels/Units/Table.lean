import TickLabels.Units.Unit

/-!
# Unit tables

The units of a system in ascending order. The range of a unit ends where
that of the next one starts, and the last range has no end.
-/

namespace TickLabels

/-- The systems of units. -/
inductive UnitSystemKind where
  /-- Thousands to trillions. A unit far above the one before it starts at a
  tenth of its value. -/
  | default
  /-- Thousands to trillions, each from its own value on. -/
  | wholeUnits
  /-- No units. -/
  | verbose
  /-- The two entries of data labels that do not scale, then whole units. -/
  | dataLabels
deriving DecidableEq, Repr

/-- The magnitude without an end. -/
def infinity : Float := 1.0 / 0.0

namespace DisplayUnit

/-- The distance to the unit before from which a unit starts early. -/
def earlyDistance : Float := 1000.0

/-- Where the range of a unit starts, given the value of the unit before
it. -/
def rangeStart (early : Bool) (previous? : Option Float) (value : Float) : Float :=
  match previous? with
  | some previous =>
    if early && earlyDistance ≤ value - previous then value / 10.0 else value
  | none => value

/-- The units with the given values and names, each with its range. -/
def withRanges (early : Bool) (previous? : Option Float) :
    List (Float × UnitName) → List DisplayUnit
  | [] => []
  | (value, name) :: rest =>
    { value, name
      rangeMin := rangeStart early previous? value
      rangeMax :=
        match rest with
        | [] => infinity
        | (next, _) :: _ => rangeStart early (some value) next } ::
      withRanges early (some value) rest

end DisplayUnit

namespace UnitName

/-- A unit without title and label is left out. -/
def isEmpty (name : UnitName) : Bool :=
  name.title = [] && name.template = []

end UnitName

namespace UnitSystemKind

/-- The powers of ten that scale, in ascending order. -/
def scalingExponents : List Int :=
  (List.range 21).map fun (n : Nat) => n + 3

/-- The powers of ten that a system offers for naming, with the values of
their units. -/
def offered : UnitSystemKind → List (Int × Float)
  | default | wholeUnits => scalingExponents.map fun e => (e, powerOfTen e)
  | verbose => []
  | dataLabels =>
    (NameLookup.autoKey, 0.0) :: (NameLookup.plainKey, 1.0) ::
      scalingExponents.map fun e => (e, powerOfTen e)

/-- Units start early only in the default system. -/
def startsEarly (kind : UnitSystemKind) : Bool :=
  kind = default

/-- The units that are offered and named. -/
def named (kind : UnitSystemKind) (naming : NameLookup) : List (Float × UnitName) :=
  kind.offered.filterMap fun (exponent, value) =>
    ((naming exponent).filter (!·.isEmpty)).map fun name => (value, name)

/-- The table of a system. -/
def table (kind : UnitSystemKind) (naming : NameLookup) : List DisplayUnit :=
  DisplayUnit.withRanges kind.startsEarly none (kind.named naming)

end UnitSystemKind

/-- Tables that are built when they are first asked for, and kept until the
next reset, whatever happens to the names. -/
structure UnitTables where
  naming : NameLookup
  built : UnitSystemKind → Option (List DisplayUnit)

namespace UnitTables

/-- Names, and no table yet. -/
def ofNaming (naming : NameLookup) : UnitTables :=
  ⟨naming, fun _ => none⟩

/-- The table of a system. It is kept from then on. -/
def get (tables : UnitTables) (kind : UnitSystemKind) : List DisplayUnit × UnitTables :=
  let table := (tables.built kind).getD (kind.table tables.naming)
  (table, { tables with built := fun k => if k = kind then some table else tables.built k })

/-- Other names from now on. -/
def rename (tables : UnitTables) (naming : NameLookup) : UnitTables :=
  { tables with naming }

/-- Forgets all tables. -/
def reset (tables : UnitTables) : UnitTables :=
  ofNaming tables.naming

end UnitTables

end TickLabels
