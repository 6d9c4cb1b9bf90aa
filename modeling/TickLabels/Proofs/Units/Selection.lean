import Mathlib
import TickLabels.Proofs.Binary64.Tolerance
import TickLabels.Proofs.Units.Table
import TickLabels.Units.System
/-!
# The unit of a number

A number reaches a unit if its magnitude is at least the start of the range, but for the
tolerance of the comparison (`DisplayUnit.Reached`). The last unit that it reaches is the
one it is shown in, and it is in the range of no other (`pickFor_spec`). Where one range
ends and the next one starts the same two doubles are compared with the same tolerance,
so the ends fit together, however the tolerance comes out.
-/

namespace TickLabels

namespace DisplayUnit

/-- **The magnitude of a number reaches the range of a unit** within its tolerance, in
exact numbers. -/
def Reached (u : DisplayUnit) (x : Float) : Prop :=
  exactMagnitude u.rangeMin ≤ exactMagnitude x ∨
    exactMagnitude u.rangeMin - exactMagnitude x < exactMagnitude (tolerance x.abs)

/-- **The range starts just above a number**, which reaches it only within the tolerance. -/
def StartsJustAbove (u : DisplayUnit) (x : Float) : Prop :=
  exactMagnitude x < exactMagnitude u.rangeMin ∧ u.Reached x

end DisplayUnit

/-! ## The starts of ranges -/

/-- The numbers at which ranges start. -/
def IsStart (n : ℕ) : Prop :=
  n = 0 ∨ ∃ k < 24, n = 10 ^ k

/-- The double of a start. Only the greatest one is not exact. -/
def storedStart (n : ℕ) : ℕ :=
  if n = 10 ^ 23 then 99999999999999991611392 else n

theorem isNat_start : ∀ k < 24, isNat (.ofNat (10 ^ k)) (storedStart (10 ^ k)) := by
  decide +kernel

section Start

variable {m n : ℕ}

theorem IsStart.isValue (h : IsStart n) :
    IsValue (Float.ofNat n).toModel.unpack .positive (storedStart n) := by
  obtain rfl | ⟨k, hk, rfl⟩ := h
  · exact isValue_ofNat (by norm_num)
  · exact isValue_of_isNat (isNat_start k hk)

theorem IsStart.storedStart_le (h : IsStart n) : storedStart n ≤ 10 ^ 23 := by
  unfold storedStart
  split
  · norm_num
  · obtain rfl | ⟨k, hk, rfl⟩ := h
    · norm_num
    · exact Nat.pow_le_pow_right (by norm_num) (by omega)

/-- The order of starts is kept by their doubles. -/
theorem IsStart.storedStart_mono (hm : IsStart m) (hn : IsStart n) (hle : m ≤ n) :
    storedStart m ≤ storedStart n := by
  unfold storedStart
  split
  · next hmax =>
    subst hmax
    obtain rfl | ⟨k, hk, rfl⟩ := hn
    · omega
    · have := (Nat.pow_le_pow_iff_right (by norm_num)).1 hle
      rw [if_pos (congrArg _ (by omega))]
  · split
    · next hne _ =>
      obtain rfl | ⟨k, hk, rfl⟩ := hm
      · norm_num
      · have hk' : k ≠ 23 := fun h => hne (h ▸ rfl)
        have : 10 ^ k ≤ 10 ^ 22 := Nat.pow_le_pow_right (by norm_num) (by omega)
        omega
    · exact hle

end Start

/-- Every range starts at a power of ten or at zero. -/
theorem ExactUnit.isStart {early first : Bool} {e : ℤ} (h : -1 ≤ e ∧ e ≤ 23)
    (hearly : early → 1 ≤ e) : IsStart (ExactUnit.start early first e) := by
  unfold ExactUnit.start
  split
  · next heq =>
    have hpos : 1 ≤ e := hearly (by simp_all)
    refine .inr ⟨(e - 1).toNat, by omega, ?_⟩
    rw [unitValue_of_nonneg (by omega), show e.toNat = (e - 1).toNat + 1 by omega, Nat.pow_succ,
      Nat.mul_div_cancel _ (by norm_num)]
  · by_cases hauto : e = -1
    · subst hauto
      exact .inl rfl
    · exact .inr ⟨e.toNat, by omega, unitValue_of_nonneg (by omega)⟩

/-! ## Ranges and what they hold -/

section Range

variable {x : Float} {m n : ℕ}

/-- **A range is reached in doubles if it is in exact numbers.** -/
theorem atLeastWithin_start_iff (hx : x.isFinite) {u : DisplayUnit} (hn : IsStart n)
    (hu : u.rangeMin = .ofNat n) :
    atLeastWithin (DisplayUnit.tolerance x.abs) x.abs u.rangeMin ↔ u.Reached x := by
  have hmagnitude := isValue_abs_exactMagnitude hx
  have hstart := hn.isValue
  have hle := hn.storedStart_le
  unfold DisplayUnit.Reached
  rw [hu, exactMagnitude_eq hstart]
  generalize exactMagnitude x = a at *
  generalize storedStart n = b at *
  rcases le_or_gt (b : ℚ) a with hba | hab
  · exact iff_of_true (atLeastWithin_of_le _ hmagnitude hstart hba) (.inl hba)
  · rw [or_iff_right hab.not_ge]
    have hmax : (b : ℚ) ≤ 10 ^ 23 := by exact_mod_cast hle
    obtain ⟨q, hq, hsmall⟩ := exists_isValue_tolerance hmagnitude (hab.trans_le hmax)
    rw [exactMagnitude_eq hq]
    refine atLeastWithin_iff_of_lt hq hmagnitude hstart hab (hmax.trans_lt (by norm_num)) ?_
    intro hclose
    -- A start above the number is a whole number.
    have hone : (1 : ℚ) ≤ b := by
      have : (0 : ℚ) < b := hmagnitude.nonneg.trans_lt hab
      exact_mod_cast this
    rcases hsmall with hsmall | hsmall <;> linarith

/-- A number that reaches a range reaches those that start before it. -/
theorem DisplayUnit.Reached.of_le {u w : DisplayUnit} (hm : IsStart m) (hn : IsStart n)
    (hu : u.rangeMin = .ofNat m) (hw : w.rangeMin = .ofNat n) (hle : m ≤ n) (h : w.Reached x) :
    u.Reached x := by
  have hstored : (storedStart m : ℚ) ≤ storedStart n := by
    exact_mod_cast hm.storedStart_mono hn hle
  unfold DisplayUnit.Reached at h ⊢
  rw [hu, exactMagnitude_eq hm.isValue]
  rw [hw, exactMagnitude_eq hn.isValue] at h
  rcases h with h | h
  · exact .inl (hstored.trans h)
  · exact .inr (by linarith)

/-- **A range holds the numbers that reach it, but not the next one.** -/
theorem appliesTo_iff_of_next (hx : x.isFinite) {u w : DisplayUnit} (hm : IsStart m)
    (hn : IsStart n) (hu : u.rangeMin = .ofNat m) (hw : w.rangeMin = .ofNat n)
    (hnext : u.rangeMax = w.rangeMin) : u.appliesTo x ↔ u.Reached x ∧ ¬ w.Reached x := by
  have hless := lessWithin_eq_not (DisplayUnit.tolerance x.abs) (isValue_abs_exactMagnitude hx)
    hn.isValue
  unfold DisplayUnit.appliesTo
  dsimp only
  rw [Bool.and_eq_true, atLeastWithin_start_iff hx hm hu, ← atLeastWithin_start_iff hx hn hw,
    hnext, hw, hless, Bool.not_eq_true', Bool.not_eq_true]

/-- The last range has no end. -/
theorem appliesTo_iff_of_last (hx : x.isFinite) {u : DisplayUnit} (hm : IsStart m)
    (hu : u.rangeMin = .ofNat m) (hlast : u.rangeMax = infinity) :
    u.appliesTo x ↔ u.Reached x := by
  have hless := lessWithin_infinity (DisplayUnit.tolerance x.abs) (isValue_abs_exactMagnitude hx)
  unfold DisplayUnit.appliesTo
  dsimp only
  rw [Bool.and_eq_true, atLeastWithin_start_iff hx hm hu, hlast, hless]
  exact and_iff_left rfl

end Range

/-! ## The unit in a table -/

/-- **The unit of a number** in a table of units before it and behind it: the last one
that is reached, and the only one in whose range the number is. -/
structure IsUnitOf (x : Float) (front : List DisplayUnit) (u : DisplayUnit)
    (back : List DisplayUnit) : Prop where
  reached : u.Reached x
  last : ∀ w ∈ back, ¬ w.Reached x
  applies : u.appliesTo x
  only : ∀ w ∈ front ++ back, ¬ w.appliesTo x

/-- Units whose ranges follow each other up to infinity. -/
structure Consecutive (units : List ExactUnit) : Prop where
  isStart : ∀ u ∈ units, IsStart u.rangeMin
  ascending : units.Pairwise fun u w => u.rangeMin ≤ w.rangeMin
  contiguous : units.IsChain fun u w => u.rangeMax? = some w.rangeMin
  endless : ∀ u ∈ units.getLast?, u.rangeMax? = none

namespace Consecutive

variable {u w : ExactUnit} {units : List ExactUnit} {x : Float}

theorem tail (h : Consecutive (u :: w :: units)) : Consecutive (w :: units) where
  isStart := (List.forall_mem_cons.1 h.isStart).2
  ascending := (List.pairwise_cons.1 h.ascending).2
  contiguous := (List.isChain_cons_cons.1 h.contiguous).2
  endless := by
    have hlast := h.endless
    rwa [List.getLast?_cons_cons] at hlast

theorem reached_of_appliesTo (h : Consecutive units) (hx : x.isFinite) (hu : u ∈ units)
    (happlies : u.toDisplay.appliesTo x) : u.toDisplay.Reached x :=
  (atLeastWithin_start_iff hx (h.isStart u hu) rfl).1 (Bool.and_eq_true_iff.1 happlies).1

/-- Behind a unit that is not reached, none is. -/
theorem not_reached (h : Consecutive (u :: units)) (hu : ¬ u.toDisplay.Reached x) :
    ∀ w ∈ units, ¬ w.toDisplay.Reached x := by
  intro w hw hreached
  have hmem : w ∈ u :: units := List.mem_cons_of_mem u hw
  exact hu (hreached.of_le (h.isStart u (List.mem_cons_self ..)) (h.isStart w hmem) rfl rfl
    ((List.pairwise_cons.1 h.ascending).1 w hw))

/-- So a number that does not reach the first unit is outside of all ranges. -/
theorem outside (h : Consecutive (u :: units)) (hx : x.isFinite) (hu : ¬ u.toDisplay.Reached x) :
    ∀ w ∈ (u :: units).map ExactUnit.toDisplay, ¬ w.Reached x ∧ ¬ w.appliesTo x := by
  rintro _ hmap
  obtain ⟨w, hw, rfl⟩ := List.mem_map.1 hmap
  have hnot : ¬ w.toDisplay.Reached x := by
    rcases List.mem_cons.1 hw with rfl | hrest
    · exact hu
    · exact h.not_reached hu w hrest
  exact ⟨hnot, fun happlies => hnot (h.reached_of_appliesTo hx hw happlies)⟩

theorem rangeMax_eq (h : Consecutive (u :: w :: units)) :
    u.toDisplay.rangeMax = w.toDisplay.rangeMin := by
  have hnext := (List.isChain_cons_cons.1 h.contiguous).1
  simp [ExactUnit.toDisplay, hnext]

/-- **A number that reaches the first unit has a unit.** -/
theorem exists_isUnitOf (h : Consecutive (u :: units)) (hx : x.isFinite)
    (hu : u.toDisplay.Reached x) :
    ∃ front v back, (u :: units).map ExactUnit.toDisplay = front ++ v :: back ∧
      IsUnitOf x front v back := by
  induction units generalizing u with
  | nil =>
    have hmax : u.rangeMax? = none := h.endless u rfl
    have happlies := (appliesTo_iff_of_last hx (h.isStart u (List.mem_singleton.2 rfl)) rfl
      (by simp [ExactUnit.toDisplay, hmax])).2 hu
    exact ⟨[], u.toDisplay, [], rfl, hu, by simp, happlies, by simp⟩
  | cons w rest ih =>
    obtain ⟨hstart, hstarts⟩ := List.forall_mem_cons.1 h.isStart
    have happlies := appliesTo_iff_of_next hx hstart (hstarts w (List.mem_cons_self ..)) rfl rfl
      h.rangeMax_eq
    by_cases hw : w.toDisplay.Reached x
    · obtain ⟨front, v, back, heq, hunit⟩ := ih h.tail hw
      refine ⟨u.toDisplay :: front, v, back, ?_, hunit.reached, hunit.last, hunit.applies, ?_⟩
      · rw [List.map_cons, heq, List.cons_append]
      · exact List.forall_mem_cons.2 ⟨fun hthis => (happlies.1 hthis).2 hw, hunit.only⟩
    · have hback := h.tail.outside hx hw
      exact ⟨[], u.toDisplay, _, rfl, hu, fun v hv => (hback v hv).1, happlies.2 ⟨hu, hw⟩,
        fun v hv => (hback v hv).2⟩

/-- **What is reached starts at the unit of the number at the latest.** -/
theorem rangeMin_le_of_reached (h : Consecutive units) (hx : x.isFinite) (hu : u ∈ units)
    (hw : w ∈ units) (happlies : u.toDisplay.appliesTo x) (hreached : w.toDisplay.Reached x) :
    w.rangeMin ≤ u.rangeMin := by
  induction units with
  | nil => contradiction
  | cons first rest ih =>
    have hascending := List.pairwise_cons.1 h.ascending
    rcases List.mem_cons.1 hw with rfl | hwrest
    · rcases List.mem_cons.1 hu with rfl | hurest
      · exact Nat.le_refl _
      · exact hascending.1 u hurest
    rcases rest with - | ⟨next, rest⟩
    · contradiction
    rcases List.mem_cons.1 hu with rfl | hurest
    · -- The range behind that of the number is not reached, and no other one behind it.
      obtain ⟨hstart, hstarts⟩ := List.forall_mem_cons.1 h.isStart
      have hnext := (appliesTo_iff_of_next hx hstart (hstarts next (List.mem_cons_self ..)) rfl rfl
        h.rangeMax_eq).1 happlies
      rcases List.mem_cons.1 hwrest with rfl | hwrest
      · exact absurd hreached hnext.2
      · exact absurd hreached (h.tail.not_reached hnext.2 w hwrest)
    · exact ih h.tail hurest hwrest

end Consecutive

namespace UnitSystemKind

theorem Offers.le_max {kind : UnitSystemKind} {e : Int} (h : kind.Offers e) : e ≤ 23 := by
  cases kind <;> simp only [Offers] at h <;> omega

theorem consecutive_exactTable (kind : UnitSystemKind) (naming : NameLookup) :
    Consecutive (kind.exactTable naming) where
  isStart u hu := by
    obtain ⟨isFirst, hstart⟩ := ExactUnit.exists_start_withRanges u hu
    obtain ⟨p, hp, hexponent⟩ := ExactUnit.exponent_withRanges hu
    have hoffers : kind.Offers u.exponent := hexponent ▸ offers_namedPowers hp
    rw [hstart]
    exact ExactUnit.isStart ⟨hoffers.min_le, hoffers.le_max⟩ hoffers.one_le
  ascending := (isLadder_exactTable kind naming).starts_ascending
  contiguous := (isLadder_exactTable kind naming).contiguous
  endless := (isLadder_exactTable kind naming).endless

end UnitSystemKind

namespace UnitSystem

/-- **A number is shown in the last unit that it reaches**, and in none if it does not
reach the first. -/
theorem pickFor_spec (naming : NameLookup) {s : UnitSystem}
    (hs : s.units = s.kind.table naming) {x : Float} (hx : x.isFinite) :
    ((∀ u ∈ s.units.head?, ¬ u.Reached x) →
      (∀ u ∈ s.units, ¬ u.appliesTo x) ∧ (s.pickFor x).unit? = none) ∧
    ∀ first ∈ s.units.head?, first.Reached x →
      ∃ front u back, s.units = front ++ u :: back ∧ IsUnitOf x front u back ∧
        (s.pickFor x).unit? = some u := by
  have hunits := hs.trans (UnitSystemKind.table_eq s.kind naming)
  have hconsecutive := s.kind.consecutive_exactTable naming
  generalize s.kind.exactTable naming = units at hunits hconsecutive
  rw [hunits]
  cases units with
  | nil => exact ⟨fun _ => ⟨by simp, by simp [pickFor, hunits]⟩, by simp⟩
  | cons u rest =>
    constructor
    · intro hhead
      have houtside := hconsecutive.outside hx (hhead _ rfl)
      refine ⟨fun w hw => (houtside w hw).2, ?_⟩
      change s.units.find? (·.appliesTo x) = none
      rw [hunits]
      exact List.find?_eq_none.2 fun w hw => (houtside w hw).2
    · intro first hfirst hreached
      obtain rfl : u.toDisplay = first := Option.some.inj hfirst
      obtain ⟨front, v, back, heq, hunit⟩ := hconsecutive.exists_isUnitOf hx hreached
      refine ⟨front, v, back, heq, hunit, ?_⟩
      have hfront : front.find? (·.appliesTo x) = none :=
        List.find?_eq_none.2 fun w hw => hunit.only w (List.mem_append_left _ hw)
      change s.units.find? (·.appliesTo x) = some v
      rw [hunits, heq, List.find?_append, hfront, Option.none_or]
      exact List.find?_cons_of_pos hunit.applies

/-- Just below a hundred thousand a number is shown in millions, within the tolerance. -/
theorem pickFor_spec_millions :
    let s : UnitSystem := .ofTable .default (UnitSystemKind.default.table .english)
    ∃ front u back, s.units = front ++ u :: back ∧ IsUnitOf 99999.9 front u back ∧
      u.name.title = "Millions".toList := by
  intro s
  have hfinite : (99999.9 : Float).isFinite := by decide +kernel
  have hfirst : ∀ u ∈ s.units.head?, exactMagnitude u.rangeMin ≤ exactMagnitude 99999.9 := by
    decide +kernel
  have hmillions : (s.pickFor 99999.9).unit?.map (·.name.title) = some "Millions".toList := by
    decide +kernel
  obtain ⟨front, u, back, heq, hunit, hpick⟩ :=
    (pickFor_spec .english (s := s) rfl hfinite).2 _ rfl (.inl (hfirst _ rfl))
  rw [hpick] at hmillions
  exact ⟨front, u, back, heq, hunit, Option.some.inj hmillions⟩

end UnitSystem

end TickLabels
