import Mathlib.Data.List.DropRight
import Mathlib.Data.List.Induction
import TickLabels.Units.System

/-!
# Tables while names change

A table is built from the names that are in force when it is asked for first, and kept
until the next reset. Names, tables and systems change by requests here, and after any
number of them the table of a kind is the one that its first request since the last reset
has led to (`ServesTables`). What is asked for other kinds does not matter, and a system
that was made has its table for good.
-/

namespace TickLabels

/-! ## Requests -/

/-- A request to unit tables, or to one of the systems made from them. -/
inductive TableRequest where
  /-- Names are looked up in `naming` from now on. -/
  | rename (naming : NameLookup)
  | units (kind : UnitSystemKind)
  /-- A new system. -/
  | system (kind : UnitSystemKind)
  /-- The system with this number picks the unit for a value. -/
  | pick (number : Nat) (value : Float)
  | reset

namespace TableRequest

/-- The names that a request brings. -/
def naming? : TableRequest → Option NameLookup
  | rename naming => some naming
  | _ => none

def isReset : TableRequest → Bool
  | reset => true
  | _ => false

/-- The kind whose table is asked for. -/
def kind? : TableRequest → Option UnitSystemKind
  | units kind | system kind => some kind
  | _ => none

def asksFor (kind : UnitSystemKind) (request : TableRequest) : Bool :=
  request.kind? = some kind

/-- The table of another kind is asked for. -/
def asksOther (kind : UnitSystemKind) (request : TableRequest) : Bool :=
  request.kind?.any (· ≠ kind)

end TableRequest

/-- Tables, and the systems that were made from them, in the order of their making. -/
structure UnitSystems where
  tables : UnitTables
  systems : List UnitSystem

namespace UnitSystems

/-- Names, no table and no system yet. -/
def start (naming : NameLookup) : UnitSystems :=
  ⟨.ofNaming naming, []⟩

def step (u : UnitSystems) : TableRequest → UnitSystems
  | .rename naming => { u with tables := u.tables.rename naming }
  | .units kind => { u with tables := (u.tables.get kind).2 }
  | .system kind =>
    let (system, tables) := UnitSystem.make u.tables kind
    ⟨tables, u.systems ++ [system]⟩
  | .pick number value => { u with systems := u.systems.modify number (·.pickFor value) }
  | .reset => { u with tables := u.tables.reset }

/-- Tables and systems after requests, in the order of time. -/
def run (u : UnitSystems) (history : List TableRequest) : UnitSystems :=
  history.foldl step u

/-- The table that a request for a kind is answered with. -/
def table (u : UnitSystems) (kind : UnitSystemKind) : List DisplayUnit :=
  (u.tables.get kind).1

theorem run_append (u : UnitSystems) (history later : List TableRequest) :
    u.run (history ++ later) = (u.run history).run later :=
  List.foldl_append

end UnitSystems

/-! ## What a history says about names -/

/-- The names in force after a history, `naming` if none were brought. -/
def namesInForce (naming : NameLookup) (history : List TableRequest) : NameLookup :=
  (history.reverse.findSome? TableRequest.naming?).getD naming

/-- A history up to its last reset. -/
def upToReset (history : List TableRequest) : List TableRequest :=
  history.rdropWhile (!·.isReset)

/-- A history from behind its last reset on. -/
def sinceReset (history : List TableRequest) : List TableRequest :=
  history.rtakeWhile (!·.isReset)

/-- **What has happened before the table of a kind was asked for** first since the last
reset. All of the history, if it was not. -/
def untilAsked (kind : UnitSystemKind) (history : List TableRequest) : List TableRequest :=
  upToReset history ++ (sinceReset history).takeWhile (!·.asksFor kind)

/-- **Tables follow the names in force** when they are asked for first, whatever is asked
for other kinds, and systems keep theirs. -/
structure ServesTables (naming : NameLookup) : Prop where
  table_eq (history : List TableRequest) (kind : UnitSystemKind) :
    ((UnitSystems.start naming).run history).table kind =
      kind.table (namesInForce naming (untilAsked kind history))
  independent (history : List TableRequest) (kind : UnitSystemKind) :
    ((UnitSystems.start naming).run (history.filter (!·.asksOther kind))).table kind =
      ((UnitSystems.start naming).run history).table kind
  keeps_table (history : List TableRequest) (kind : UnitSystemKind)
    (later : List TableRequest) :
    let before := (UnitSystems.start naming).run history
    ∃ s, ((UnitSystems.start naming).run
          (history ++ .system kind :: later)).systems[before.systems.length]? = some s ∧
      s.kind = kind ∧ s.units = before.table kind

/-! ## One more request -/

section History

variable {naming : NameLookup} {history : List TableRequest} {request : TableRequest}
  {kind : UnitSystemKind}

theorem upToReset_append_sinceReset (history : List TableRequest) :
    upToReset history ++ sinceReset history = history :=
  List.rdropWhile_append_rtakeWhile ..

theorem namesInForce_append (naming : NameLookup) (history : List TableRequest)
    (request : TableRequest) :
    namesInForce naming (history ++ [request]) =
      request.naming?.getD (namesInForce naming history) := by
  rw [namesInForce, List.reverse_concat, List.findSome?_cons]
  cases request.naming? <;> rfl

theorem sinceReset_append_reset : sinceReset (history ++ [.reset]) = [] :=
  List.rtakeWhile_concat_neg _ _ _ (by decide)

theorem upToReset_append (h : request.isReset = false) :
    upToReset (history ++ [request]) = upToReset history :=
  List.rdropWhile_concat_pos _ _ _ (by simpa using h)

theorem sinceReset_append (h : request.isReset = false) :
    sinceReset (history ++ [request]) = sinceReset history ++ [request] :=
  List.rtakeWhile_concat_pos _ _ _ (by simpa using h)

/-- The table of a kind was asked for since the last reset. -/
def asked (kind : UnitSystemKind) (history : List TableRequest) : Bool :=
  (sinceReset history).any (·.asksFor kind)

theorem not_asksFor_of_not_asked (h : asked kind history = false) :
    ∀ request ∈ sinceReset history, (!request.asksFor kind) = true := by
  simpa [asked] using h

theorem asked_append (h : request.isReset = false) :
    asked kind (history ++ [request]) = (asked kind history || request.asksFor kind) := by
  rw [asked, sinceReset_append h, List.any_append, List.any_cons, List.any_nil, Bool.or_false,
    asked]

/-- Where a table was not asked for, all of the history is before that. -/
theorem untilAsked_of_not_asked (h : asked kind history = false) :
    untilAsked kind history = history := by
  rw [untilAsked, List.takeWhile_eq_self_iff.2 (not_asksFor_of_not_asked h),
    upToReset_append_sinceReset]

/-- The request that asks for it first is not before itself. -/
theorem untilAsked_append_of_not_asked (hreset : request.isReset = false)
    (h : asked kind history = false) (hasks : request.asksFor kind) :
    untilAsked kind (history ++ [request]) = history := by
  rw [untilAsked, upToReset_append hreset, sinceReset_append hreset,
    List.takeWhile_append_of_pos (not_asksFor_of_not_asked h),
    List.takeWhile_cons_of_neg (by simpa using hasks), List.append_nil,
    upToReset_append_sinceReset]

/-- And what comes later does not count. -/
theorem untilAsked_append_of_asked (hreset : request.isReset = false)
    (h : asked kind history = true) :
    untilAsked kind (history ++ [request]) = untilAsked kind history := by
  have hshorter : ((sinceReset history).takeWhile (!·.asksFor kind)).length ≠
      (sinceReset history).length := fun heq => by
    have hself := (List.takeWhile_prefix _).eq_of_length heq
    obtain ⟨request, hmem, hasks⟩ := List.any_eq_true.1 h
    have := List.takeWhile_eq_self_iff.1 hself request hmem
    simp [hasks] at this
  rw [untilAsked, upToReset_append hreset, sinceReset_append hreset, List.takeWhile_append,
    if_neg hshorter, untilAsked]

/-- The table that is kept for a kind after a history, if there is one. -/
def keptTable (naming : NameLookup) (kind : UnitSystemKind) (history : List TableRequest) :
    Option (List DisplayUnit) :=
  if asked kind history then some (kind.table (namesInForce naming (untilAsked kind history)))
  else none

theorem keptTable_reset : keptTable naming kind (history ++ [.reset]) = none := by
  rw [keptTable, asked, sinceReset_append_reset]
  rfl

/-- A request that does not ask for a table leaves it as it is. -/
theorem keptTable_of_not_asksFor (hreset : request.isReset = false)
    (hasks : request.asksFor kind = false) :
    keptTable naming kind (history ++ [request]) = keptTable naming kind history := by
  rw [keptTable, asked_append hreset, hasks, Bool.or_false, keptTable]
  split
  · next h => rw [untilAsked_append_of_asked hreset h]
  · rfl

/-- **A request that asks for a table** finds the one that is kept, or builds it from the
names in force. -/
theorem keptTable_of_asksFor (hreset : request.isReset = false) (hasks : request.asksFor kind) :
    keptTable naming kind (history ++ [request]) =
      some ((keptTable naming kind history).getD (kind.table (namesInForce naming history))) := by
  rw [keptTable, asked_append hreset, hasks, Bool.or_true, if_pos rfl, keptTable]
  split
  · next h => rw [untilAsked_append_of_asked hreset h]; rfl
  · next h => rw [untilAsked_append_of_not_asked hreset (by simpa using h) hasks]; rfl

/-- What is kept, or would be built, is the table of the names at the first request. -/
theorem keptTable_getD (naming : NameLookup) (kind : UnitSystemKind)
    (history : List TableRequest) :
    (keptTable naming kind history).getD (kind.table (namesInForce naming history)) =
      kind.table (namesInForce naming (untilAsked kind history)) := by
  unfold keptTable
  split
  · rfl
  · next h => rw [untilAsked_of_not_asked (by simpa using h)]; rfl

end History

namespace UnitSystems

/-! ## What a step does -/

section Step

variable (u : UnitSystems) (request : TableRequest)

theorem naming_step : (u.step request).tables.naming = request.naming?.getD u.tables.naming := by
  cases request <;> rfl

/-- **A reset forgets the table of every kind, and a request for a kind keeps its table.**
Nothing else has to do with what is kept. -/
theorem built_step (kind : UnitSystemKind) :
    (u.step request).tables.built kind =
      if request.isReset then none
      else if request.asksFor kind then some (u.table kind)
      else u.tables.built kind := by
  have hget (other : UnitSystemKind) : (u.tables.get other).2.built kind =
      if decide (some other = some kind) then some (u.table kind) else u.tables.built kind := by
    by_cases h : other = kind
    · subst h
      simp [UnitTables.get, table]
    · simp [UnitTables.get, h, Ne.symm h]
  cases request with
  | units other | system other => exact hget other
  | rename | pick | reset => rfl

/-- A system keeps its kind and its table in every step. -/
theorem exists_system_step {number : Nat} {s : UnitSystem} (h : u.systems[number]? = some s) :
    ∃ t, (u.step request).systems[number]? = some t ∧ t.kind = s.kind ∧ t.units = s.units := by
  cases request with
  | rename | units | reset => exact ⟨s, h, rfl, rfl⟩
  | system kind =>
    refine ⟨s, ?_, rfl, rfl⟩
    obtain ⟨hlt, -⟩ := List.getElem?_eq_some_iff.1 h
    exact (List.getElem?_append_left hlt).trans h
  | pick other value =>
    by_cases heq : other = number
    · refine ⟨s.pickFor value, ?_, rfl, rfl⟩
      subst heq
      simp [step, h]
    · refine ⟨s, ?_, rfl, rfl⟩
      simp [step, heq, h]

end Step

theorem exists_system_run {u : UnitSystems} {number : Nat} {s : UnitSystem}
    (h : u.systems[number]? = some s) (later : List TableRequest) :
    ∃ t, (u.run later).systems[number]? = some t ∧ t.kind = s.kind ∧ t.units = s.units := by
  induction later generalizing u s with
  | nil => exact ⟨s, h, rfl, rfl⟩
  | cons request later ih =>
    obtain ⟨t, ht, hkind, hunits⟩ := u.exists_system_step request h
    obtain ⟨r, hr, hkind', hunits'⟩ := ih ht
    exact ⟨r, hr, hkind'.trans hkind, hunits'.trans hunits⟩

/-! ## Runs -/

section Run

variable {naming : NameLookup} {history : List TableRequest} {u v : UnitSystems}
  {kind : UnitSystemKind}

/-- The names and tables are those of the history. -/
structure Follows (u : UnitSystems) (naming : NameLookup) (history : List TableRequest) :
    Prop where
  naming_eq : u.tables.naming = namesInForce naming history
  built_eq (kind : UnitSystemKind) : u.tables.built kind = keptTable naming kind history

theorem Follows.table_eq (h : u.Follows naming history) (kind : UnitSystemKind) :
    u.table kind = kind.table (namesInForce naming (untilAsked kind history)) := by
  rw [← keptTable_getD, ← h.naming_eq, ← h.built_eq]
  rfl

/-- **One request** keeps names and tables those of the history. -/
theorem Follows.step (h : u.Follows naming history) (request : TableRequest) :
    (u.step request).Follows naming (history ++ [request]) where
  naming_eq := by rw [naming_step, h.naming_eq, namesInForce_append]
  built_eq kind := by
    rw [built_step]
    split
    · next hreset =>
      cases request with
      | reset => exact keptTable_reset.symm
      | rename | units | system | pick => contradiction
    · next hreset =>
      have hreset : request.isReset = false := by simpa using hreset
      split
      · next hasks => rw [keptTable_of_asksFor hreset hasks, keptTable_getD, h.table_eq]
      · next hasks => rw [keptTable_of_not_asksFor hreset (by simpa using hasks), h.built_eq]

/-- **And so does every run.** -/
theorem follows_run (naming : NameLookup) (history : List TableRequest) :
    ((start naming).run history).Follows naming history := by
  induction history using List.reverseRecOn with
  | nil => exact ⟨rfl, fun _ => rfl⟩
  | append_singleton history request ih =>
    rw [run_append]
    exact ih.step request

/-- The names are the same, and what is kept of a kind. -/
structure AgreesOn (kind : UnitSystemKind) (u v : UnitSystems) : Prop where
  naming_eq : u.tables.naming = v.tables.naming
  built_eq : u.tables.built kind = v.tables.built kind

theorem AgreesOn.table_eq (h : AgreesOn kind u v) : u.table kind = v.table kind := by
  unfold table UnitTables.get
  rw [h.naming_eq, h.built_eq]

theorem AgreesOn.step (h : AgreesOn kind u v) (request : TableRequest) :
    AgreesOn kind (u.step request) (v.step request) where
  naming_eq := by rw [naming_step, naming_step, h.naming_eq]
  built_eq := by rw [built_step, built_step, h.table_eq, h.built_eq]

/-- A request for another kind has no part in it. -/
theorem AgreesOn.skip (h : AgreesOn kind u v) {request : TableRequest}
    (hother : request.asksOther kind) : AgreesOn kind u (v.step request) := by
  have hrequest : request.naming? = none ∧ request.isReset = false ∧
      request.asksFor kind = false := by
    cases request <;> simp_all [TableRequest.asksOther, TableRequest.asksFor, TableRequest.kind?,
      TableRequest.naming?, TableRequest.isReset]
  obtain ⟨hnaming, hreset, hasks⟩ := hrequest
  refine ⟨?_, ?_⟩
  · rw [naming_step, hnaming, h.naming_eq]
    rfl
  · rw [built_step, hreset, hasks, h.built_eq]
    rfl

theorem agreesOn_run (h : AgreesOn kind u v) (history : List TableRequest) :
    AgreesOn kind (u.run (history.filter (!·.asksOther kind))) (v.run history) := by
  induction history generalizing u v with
  | nil => exact h
  | cons request history ih =>
    by_cases hother : request.asksOther kind
    · rw [List.filter_cons_of_neg (by simpa using hother)]
      exact ih (h.skip hother)
    · rw [List.filter_cons_of_pos (by simpa using hother)]
      exact ih (h.step request)

end Run

end UnitSystems

/-- **Tables follow their names, and systems keep their tables**, whatever names there are
to begin with. -/
theorem servesTables (naming : NameLookup) : ServesTables naming where
  table_eq history kind := (UnitSystems.follows_run naming history).table_eq kind
  independent history kind := (UnitSystems.agreesOn_run ⟨rfl, rfl⟩ history).table_eq
  keeps_table history kind later := by
    rw [UnitSystems.run_append]
    refine UnitSystems.exists_system_run
      (s := .ofTable kind (((UnitSystems.start naming).run history).table kind)) ?_ later
    exact List.getElem?_concat_length

/-- One cache holds tables of different names: those of the default system were in force
when it was asked for, and the whole units have none. -/
theorem servesTables_renamed :
    let u := (UnitSystems.start .english).run
      [.units .default, .rename fun _ => none, .system .wholeUnits]
    u.table .default = UnitSystemKind.default.table .english ∧ u.table .wholeUnits = [] :=
  have h := servesTables .english
  ⟨h.table_eq _ _, h.table_eq _ _⟩

end TickLabels
