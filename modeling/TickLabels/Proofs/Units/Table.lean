import Mathlib
import TickLabels.Units.Table

/-!
# The ranges of a table

The units of a table are read as exact powers of ten here, and their ranges as intervals
of natural numbers (`ExactUnit`). A table is built of those units that are offered and
named, and its ranges leave no gap between the first one and infinity, whatever the names
are (`exists_isLadder_table`).
-/

namespace TickLabels

/-- A unit in exact numbers. -/
structure ExactUnit where
  exponent : Int
  name : UnitName
  rangeMin : Nat
  /-- Nothing, if the range has no end. -/
  rangeMax? : Option Nat

/-- The power of ten that an exponent stands for. The unit that is found by itself has the
value zero. -/
def unitValue (exponent : Int) : Nat :=
  if exponent = NameLookup.autoKey then 0 else 10 ^ exponent.toNat

namespace ExactUnit

def value (u : ExactUnit) : Nat :=
  unitValue u.exponent

/-- The unit in doubles. -/
def toDisplay (u : ExactUnit) : DisplayUnit where
  value := .ofNat u.value
  name := u.name
  rangeMin := .ofNat u.rangeMin
  rangeMax := (u.rangeMax?.map Float.ofNat).getD infinity

end ExactUnit

namespace UnitSystemKind

/-- The exponents that a system offers for naming. -/
def Offers : UnitSystemKind → Int → Prop
  | default, e | wholeUnits, e => 3 ≤ e ∧ e ≤ 23
  | verbose, _ => False
  | dataLabels, e => e = -1 ∨ e = 0 ∨ 3 ≤ e ∧ e ≤ 23

/-- **The units make up a ladder**: one for each exponent that is offered and named, and
each range ends where the next one starts. -/
structure IsLadder (kind : UnitSystemKind) (naming : NameLookup) (units : List ExactUnit) :
    Prop where
  mem_iff (exponent : Int) (name : UnitName) :
    (∃ u ∈ units, u.exponent = exponent ∧ u.name = name) ↔
      kind.Offers exponent ∧ naming exponent = some name ∧ ¬(name.title = [] ∧ name.template = [])
  /-- So no exponent has two units. -/
  ascending : units.Pairwise fun u v => u.value < v.value
  starts_ascending : units.Pairwise fun u v => u.rangeMin ≤ v.rangeMin
  start_bounds : ∀ u ∈ units, u.value ≤ 10 * u.rangeMin ∧ u.rangeMin ≤ u.value
  contiguous : units.IsChain fun u v => u.rangeMax? = some v.rangeMin
  endless : ∀ u ∈ units.getLast?, u.rangeMax? = none

end UnitSystemKind

/-! ## Powers of ten -/

theorem unitValue_of_nonneg {e : Int} (h : 0 ≤ e) : unitValue e = 10 ^ e.toNat :=
  if_neg fun heq => by
    rw [heq] at h
    exact absurd h (by decide)

theorem unitValue_lt {e f : Int} (h : -1 ≤ e) (hlt : e < f) : unitValue e < unitValue f := by
  rw [unitValue_of_nonneg (by omega : 0 ≤ f)]
  by_cases hauto : e = -1
  · subst hauto
    exact Nat.pow_pos (by norm_num)
  · rw [unitValue_of_nonneg (by omega)]
    exact Nat.pow_lt_pow_right (by norm_num) (by omega)

/-- A power of ten is at least ten times a lower one. -/
theorem ten_mul_unitValue_le {e f : Int} (h : 0 ≤ e) (hlt : e < f) :
    10 * unitValue e ≤ unitValue f := by
  rw [unitValue_of_nonneg h, unitValue_of_nonneg (by omega), ← Nat.pow_succ']
  exact Nat.pow_le_pow_right (by norm_num) (by omega)

theorem ten_dvd_unitValue {e : Int} (h : 1 ≤ e) : 10 ∣ unitValue e := by
  rw [unitValue_of_nonneg (by omega)]
  exact dvd_pow_self 10 (by omega)

/-! ## Exact ranges -/

namespace ExactUnit

/-- Where a range starts. Only the first one never starts early. -/
def start (early first : Bool) (exponent : Int) : Nat :=
  if early && !first then unitValue exponent / 10 else unitValue exponent

/-- The units with the given exponents and names, each with its range. -/
def withRanges (early first : Bool) : List (Int × UnitName) → List ExactUnit
  | [] => []
  | (exponent, name) :: rest =>
    { exponent, name
      rangeMin := start early first exponent
      rangeMax? := rest.head?.map fun next => start early false next.1 } ::
      withRanges early false rest

variable {early first : Bool} {l : List (Int × UnitName)}

theorem map_withRanges (early first : Bool) (l : List (Int × UnitName)) :
    (withRanges early first l).map (fun u => (u.exponent, u.name)) = l := by
  induction l generalizing first with
  | nil => rfl
  | cons p rest ih => rw [withRanges, List.map_cons, ih]

theorem rangeMin_withRanges :
    ∀ u ∈ withRanges early false l, u.rangeMin = start early false u.exponent := by
  induction l with
  | nil => simp [withRanges]
  | cons p rest ih => exact List.forall_mem_cons.2 ⟨rfl, ih⟩

/-- Every range starts where its exponent says, the first one never early. -/
theorem exists_start_withRanges :
    ∀ u ∈ withRanges early first l, ∃ isFirst, u.rangeMin = start early isFirst u.exponent := by
  cases l with
  | nil => simp [withRanges]
  | cons p rest =>
    exact List.forall_mem_cons.2 ⟨⟨first, rfl⟩, fun u hu => ⟨false, rangeMin_withRanges u hu⟩⟩

theorem start_bounds {e : Int} (h : early → 1 ≤ e) :
    unitValue e ≤ 10 * start early first e ∧ start early first e ≤ unitValue e := by
  unfold start
  split
  · next hearly =>
    have := Nat.mul_div_cancel' (ten_dvd_unitValue (h (by simp_all)))
    omega
  · omega

/-- A range starts before the next one, also if that starts early. -/
theorem start_le_start {e f : Int} (h : -1 ≤ e) (hearly : early → 1 ≤ e) (hlt : e < f) :
    start early first e ≤ start early false f := by
  refine (start_bounds hearly).2.trans ?_
  unfold start
  split
  · next heq =>
    have := ten_mul_unitValue_le (by have := hearly (by simp_all); omega) hlt
    omega
  · exact (unitValue_lt h hlt).le

/-- What a property of the exponents in order becomes of the units. -/
theorem pairwise_withRanges {R : Int → Int → Prop} {S : ExactUnit → ExactUnit → Prop}
    (h : l.Pairwise fun p q => R p.1 q.1)
    (hunits : ∀ u ∈ withRanges early first l, ∀ v ∈ withRanges early first l,
      R u.exponent v.exponent → S u v) :
    (withRanges early first l).Pairwise S := by
  rw [← map_withRanges early first l, List.pairwise_map] at h
  exact h.imp_of_mem fun hu hv => hunits _ hu _ hv

theorem exponent_withRanges {u : ExactUnit} (hu : u ∈ withRanges early first l) :
    ∃ p ∈ l, p.1 = u.exponent := by
  refine ⟨(u.exponent, u.name), ?_, rfl⟩
  rw [← map_withRanges early first l]
  exact List.mem_map_of_mem hu

/-- **No range starts before the one in front of it.** -/
theorem pairwise_starts (h : l.Pairwise fun p q => p.1 < q.1) (hmin : ∀ p ∈ l, -1 ≤ p.1)
    (hearly : early → ∀ p ∈ l, 1 ≤ p.1) :
    (withRanges early first l).Pairwise fun u v => u.rangeMin ≤ v.rangeMin := by
  induction l generalizing first with
  | nil => exact .nil
  | cons p rest ih =>
    obtain ⟨hhead, hrest⟩ := List.pairwise_cons.1 h
    obtain ⟨hmin, hmins⟩ := List.forall_mem_cons.1 hmin
    refine .cons (fun v hv => ?_) (ih hrest hmins fun h => (List.forall_mem_cons.1 (hearly h)).2)
    obtain ⟨q, hq, hexponent⟩ := exponent_withRanges hv
    rw [rangeMin_withRanges v hv, ← hexponent]
    exact start_le_start hmin (fun h => (List.forall_mem_cons.1 (hearly h)).1) (hhead q hq)

theorem start_bounds_withRanges (hearly : early → ∀ p ∈ l, 1 ≤ p.1) :
    ∀ u ∈ withRanges early first l, u.value ≤ 10 * u.rangeMin ∧ u.rangeMin ≤ u.value := by
  induction l generalizing first with
  | nil => simp [withRanges]
  | cons p rest ih =>
    exact List.forall_mem_cons.2 ⟨start_bounds fun h => (List.forall_mem_cons.1 (hearly h)).1,
      ih fun h => (List.forall_mem_cons.1 (hearly h)).2⟩

/-- **Each range ends where the next one starts.** -/
theorem isChain_withRanges :
    (withRanges early first l).IsChain fun u v => u.rangeMax? = some v.rangeMin := by
  induction l generalizing first with
  | nil => exact .nil
  | cons p rest ih =>
    cases rest with
    | nil => exact .singleton _
    | cons q rest => exact .cons_cons rfl ih

/-- And the last one does not end. -/
theorem getLast?_withRanges :
    ∀ u ∈ (withRanges early first l).getLast?, u.rangeMax? = none := by
  induction l generalizing first with
  | nil => simp [withRanges]
  | cons p rest ih =>
    cases rest with
    | nil => simp [withRanges]
    | cons q rest =>
      rw [withRanges, withRanges, List.getLast?_cons_cons, ← withRanges]
      exact ih

end ExactUnit

/-! ## Tables -/

namespace UnitSystemKind

variable (kind : UnitSystemKind) (naming : NameLookup)

/-- The exponents that are offered and named, with their names. -/
def namedPowers : List (Int × UnitName) :=
  (kind.offered.map Prod.fst).filterMap fun exponent =>
    ((naming exponent).filter (!·.isEmpty)).map fun name => (exponent, name)

/-- The units of a system in exact numbers. -/
def exactTable : List ExactUnit :=
  ExactUnit.withRanges kind.startsEarly true (kind.namedPowers naming)

/-- The value of a unit is the double of its power of ten. -/
theorem offered_eq (kind : UnitSystemKind) :
    kind.offered = (kind.offered.map Prod.fst).map fun e => (e, Float.ofNat (unitValue e)) := by
  cases kind <;> decide +kernel

theorem named_eq : kind.named naming =
    (kind.namedPowers naming).map fun p => (Float.ofNat (unitValue p.1), p.2) := by
  rw [named, namedPowers, offered_eq, List.map_map, List.filterMap_map, List.map_filterMap]
  simp [Function.comp_def]

theorem mem_scalingExponents {e : Int} : e ∈ scalingExponents ↔ 3 ≤ e ∧ e ≤ 23 := by
  unfold scalingExponents
  simp only [List.mem_map, List.mem_range]
  constructor
  · rintro ⟨n, hn, rfl⟩
    omega
  · intro h
    exact ⟨(e - 3).toNat, by omega, by omega⟩

variable {kind naming}

theorem mem_offered_iff {e : Int} : e ∈ kind.offered.map Prod.fst ↔ kind.Offers e := by
  have hscaling : (scalingExponents.map fun e => (e, powerOfTen e)).map Prod.fst =
      scalingExponents := by
    rw [List.map_map]
    exact List.map_id _
  cases kind with
  | default | wholeUnits => rw [offered, hscaling, mem_scalingExponents]; rfl
  | verbose => exact iff_of_false (List.not_mem_nil) id
  | dataLabels =>
    rw [offered, List.map_cons, List.map_cons, hscaling, List.mem_cons, List.mem_cons,
      mem_scalingExponents]
    rfl

theorem pairwise_offered (kind : UnitSystemKind) :
    (kind.offered.map Prod.fst).Pairwise (· < ·) := by
  cases kind <;> decide +kernel

theorem mem_namedPowers_iff {e : Int} {name : UnitName} :
    (e, name) ∈ kind.namedPowers naming ↔
      kind.Offers e ∧ naming e = some name ∧ ¬(name.title = [] ∧ name.template = []) := by
  have hempty : (!name.isEmpty) ↔ ¬(name.title = [] ∧ name.template = []) := by
    simp [UnitName.isEmpty, imp_iff_not_or]
  rw [namedPowers, List.mem_filterMap]
  simp only [mem_offered_iff, Option.map_eq_some_iff, Option.filter_eq_some_iff, Prod.mk.injEq]
  constructor
  · rintro ⟨e, hoffers, name, ⟨hname, hkept⟩, rfl, rfl⟩
    exact ⟨hoffers, hname, hempty.1 hkept⟩
  · rintro ⟨hoffers, hname, hkept⟩
    exact ⟨e, hoffers, name, ⟨hname, hempty.2 hkept⟩, rfl, rfl⟩

theorem offers_namedPowers {p : Int × UnitName} (h : p ∈ kind.namedPowers naming) :
    kind.Offers p.1 :=
  (mem_namedPowers_iff.1 h).1

theorem pairwise_namedPowers (kind : UnitSystemKind) (naming : NameLookup) :
    (kind.namedPowers naming).Pairwise fun p q => p.1 < q.1 := by
  refine List.Pairwise.filterMap _ (fun e f hlt p hp q hq => ?_) (pairwise_offered kind)
  obtain ⟨name, -, rfl⟩ := Option.mem_map.1 hp
  obtain ⟨other, -, rfl⟩ := Option.mem_map.1 hq
  exact hlt

theorem Offers.min_le {e : Int} (h : kind.Offers e) : -1 ≤ e := by
  cases kind <;> simp only [Offers] at h <;> omega

/-- Where units start early, they all scale. -/
theorem Offers.one_le {e : Int} (h : kind.Offers e) (hearly : kind.startsEarly) : 1 ≤ e := by
  cases kind <;> simp only [Offers, startsEarly] at h hearly <;> first | omega | contradiction

/-! ## Tables in doubles -/

/-- Behind another unit, a unit is far enough away to start early, and a tenth of its
value is exact. -/
theorem rangeStart_early : ∀ m < 21, ∀ n < m,
    DisplayUnit.rangeStart true (some (.ofNat (unitValue (n + 3 : Nat))))
      (.ofNat (unitValue (m + 3 : Nat))) =
        .ofNat (unitValue (m + 3 : Nat) / 10) := by
  decide +kernel

/-- **Ranges start where they do in exact numbers.** -/
theorem rangeStart_eq {e : Int} (h : kind.Offers e) (previous? : Option Int)
    (hprevious : ∀ f ∈ previous?, kind.Offers f ∧ f < e) :
    DisplayUnit.rangeStart kind.startsEarly (previous?.map fun f => .ofNat (unitValue f))
        (.ofNat (unitValue e)) =
      .ofNat (ExactUnit.start kind.startsEarly previous?.isNone e) := by
  cases previous? with
  | none => simp [DisplayUnit.rangeStart, ExactUnit.start]
  | some f =>
    obtain ⟨hf, hlt⟩ := hprevious f rfl
    cases kind with
    | default =>
      simp only [Offers] at h hf
      have hstart := rangeStart_early (e - 3).toNat (by omega) (f - 3).toNat (by omega)
      rw [show (((f - 3).toNat + 3 : Nat) : Int) = f by omega,
        show (((e - 3).toNat + 3 : Nat) : Int) = e by omega] at hstart
      exact hstart
    | wholeUnits | dataLabels => rfl
    | verbose => exact h.elim

/-- **The units of a list in doubles are its exact units.** -/
theorem withRanges_eq {l : List (Int × UnitName)} (hoffers : ∀ p ∈ l, kind.Offers p.1)
    (hsorted : l.Pairwise fun p q => p.1 < q.1) (previous? : Option Int)
    (hprevious : ∀ f ∈ previous?, kind.Offers f ∧ ∀ p ∈ l, f < p.1) :
    DisplayUnit.withRanges kind.startsEarly (previous?.map fun f => .ofNat (unitValue f))
        (l.map fun p => (.ofNat (unitValue p.1), p.2)) =
      (ExactUnit.withRanges kind.startsEarly previous?.isNone l).map ExactUnit.toDisplay := by
  induction l generalizing previous? with
  | nil => rfl
  | cons p rest ih =>
    obtain ⟨hoffer, hoffers⟩ := List.forall_mem_cons.1 hoffers
    obtain ⟨hhead, hrest⟩ := List.pairwise_cons.1 hsorted
    have hnext := ih hoffers hrest (some p.1) fun f hf => by
      obtain rfl := Option.some.inj hf
      exact ⟨hoffer, hhead⟩
    rw [List.map_cons, DisplayUnit.withRanges.eq_def, ExactUnit.withRanges, List.map_cons]
    refine congrArg₂ _ ?_ hnext
    unfold ExactUnit.toDisplay
    dsimp only
    rw [rangeStart_eq hoffer previous? fun f hf => ⟨(hprevious f hf).1, (hprevious f hf).2 p
      (List.mem_cons_self ..)⟩]
    congr 1
    cases rest with
    | nil => rfl
    | cons q rest =>
      refine rangeStart_eq (hoffers q (List.mem_cons_self ..)) (some p.1) fun f hf => ?_
      obtain rfl := Option.some.inj hf
      exact ⟨hoffer, hhead q (List.mem_cons_self ..)⟩

/-- **The table of a system**, unit by unit. -/
theorem table_eq (kind : UnitSystemKind) (naming : NameLookup) :
    kind.table naming = (kind.exactTable naming).map ExactUnit.toDisplay := by
  rw [table, named_eq]
  exact withRanges_eq (fun _ => offers_namedPowers) (pairwise_namedPowers kind naming) none nofun

theorem isLadder_exactTable (kind : UnitSystemKind) (naming : NameLookup) :
    kind.IsLadder naming (kind.exactTable naming) where
  mem_iff exponent name := by
    rw [← mem_namedPowers_iff, ← ExactUnit.map_withRanges kind.startsEarly true
      (kind.namedPowers naming), List.mem_map]
    simp [exactTable]
  ascending := ExactUnit.pairwise_withRanges (pairwise_namedPowers kind naming)
    fun u hu v _ hlt => by
      obtain ⟨p, hp, hexponent⟩ := ExactUnit.exponent_withRanges hu
      exact unitValue_lt (hexponent ▸ (offers_namedPowers hp).min_le) hlt
  starts_ascending := ExactUnit.pairwise_starts (pairwise_namedPowers kind naming)
    (fun _ hp => (offers_namedPowers hp).min_le) fun hearly _ hp =>
      (offers_namedPowers hp).one_le hearly
  start_bounds := ExactUnit.start_bounds_withRanges fun hearly _ hp =>
    (offers_namedPowers hp).one_le hearly
  contiguous := ExactUnit.isChain_withRanges
  endless := ExactUnit.getLast?_withRanges

/-- **The table of every system is a ladder of units**, whatever their names are. -/
theorem exists_isLadder_table (kind : UnitSystemKind) (naming : NameLookup) :
    ∃ units, kind.table naming = units.map ExactUnit.toDisplay ∧ kind.IsLadder naming units :=
  ⟨_, table_eq kind naming, isLadder_exactTable kind naming⟩

end UnitSystemKind

end TickLabels
