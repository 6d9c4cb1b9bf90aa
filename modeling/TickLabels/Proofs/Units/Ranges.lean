import TickLabels.Proofs.Units.Selection
/-!
# Units that are picked

A range that is not empty holds the number at which it starts, and this number picks the
unit. Ranges start in ascending order, but two of them may start together: in a table whose
units start early the second one starts at a tenth of its value, which is the start of the
first if that has the next lower power of ten. Then the first unit is never picked
(`UnitSystemKind.isPicked_unless_overtaken`).
-/

namespace TickLabels

open Float.Model (UnpackedFloat)
open Float.Model.UnpackedFloat

namespace UnitSystemKind

variable (kind : UnitSystemKind) (naming : NameLookup)

/-- The power of ten has a unit. -/
def Names (exponent : Int) : Prop :=
  kind.Offers exponent ∧
    ∃ name, naming exponent = some name ∧ ¬(name.title = [] ∧ name.template = [])

/-- **The next unit starts where this one does**: units start early, none is below this
one, and the next power of ten has a unit. -/
def Overtaken (exponent : Int) : Prop :=
  kind = default ∧ (∀ e < exponent, ¬ kind.Names naming e) ∧ kind.Names naming (exponent + 1)

end UnitSystemKind

/-- Names of thousands and of ten thousands. -/
def NameLookup.myriads : NameLookup := fun exponent =>
  if exponent = 3 then some ⟨"Thousands".toList, ['{', '0', '}', 'K']⟩
  else if exponent = 4 then some ⟨"Ten thousands".toList, ['{', '0', '}', 'W']⟩
  else none

/-! ## Where ranges start -/

namespace ExactUnit

variable {early first : Bool} {l : List (Int × UnitName)} {u : ExactUnit}
variable {front back : List ExactUnit}

/-- Only the first unit never starts early. -/
theorem rangeMin_of_split (h : withRanges early first l = front ++ u :: back) :
    u.rangeMin = start early (first && front.isEmpty) u.exponent := by
  cases front with
  | nil =>
    cases l with
    | nil => cases h
    | cons p rest =>
      obtain ⟨rfl, -⟩ := List.cons_eq_cons.1 h
      simp
  | cons v front =>
    cases l with
    | nil => cases h
    | cons p rest =>
      have hu : u ∈ withRanges early false rest := by
        rw [(List.cons_eq_cons.1 h).2]
        exact List.mem_append_right _ (List.mem_cons_self ..)
      rw [rangeMin_withRanges u hu, List.isEmpty_cons, Bool.and_false]

/-- **A range starts before the next one**, unless that starts early at the start of the
first. -/
theorem start_lt_start_iff (first : Bool) {e f : Int} (h : -1 ≤ e) (hearly : early → 1 ≤ e)
    (hlt : e < f) :
    start early first e < start early false f ↔ ¬(early = true ∧ first = true ∧ f = e + 1) := by
  cases early with
  | false => exact iff_of_true (unitValue_lt h hlt) (by simp)
  | true =>
    have hone : 1 ≤ e := hearly rfl
    have htenth {g : Int} (hg : 1 ≤ g) : unitValue g / 10 = unitValue (g - 1) := by
      rw [unitValue_of_nonneg (by omega), unitValue_of_nonneg (by omega),
        show g.toNat = (g - 1).toNat + 1 by omega, Nat.pow_succ, Nat.mul_div_cancel _ (by norm_num)]
    have hnext : start true false f = unitValue (f - 1) := htenth (by omega)
    rw [hnext]
    cases first with
    | false =>
      have hthis : start true false e = unitValue (e - 1) := htenth hone
      rw [hthis]
      exact iff_of_true (unitValue_lt (by omega) (by omega)) (by simp)
    | true =>
      have hthis : start true true e = unitValue e := rfl
      rw [hthis]
      by_cases hadjacent : f = e + 1
      · subst hadjacent
        simp
      · exact iff_of_true (unitValue_lt h (by omega)) (by simp [hadjacent])

end ExactUnit

namespace UnitSystemKind

variable {kind : UnitSystemKind} {naming : NameLookup} {u : ExactUnit}
variable {front back : List ExactUnit}

theorem names_iff {e : Int} :
    kind.Names naming e ↔ ∃ u ∈ kind.exactTable naming, u.exponent = e := by
  have hmem := (isLadder_exactTable kind naming).mem_iff e
  constructor
  · rintro ⟨hoffers, name, hname⟩
    obtain ⟨u, hu, hexponent, -⟩ := (hmem name).2 ⟨hoffers, hname⟩
    exact ⟨u, hu, hexponent⟩
  · rintro ⟨u, hu, hexponent⟩
    obtain ⟨hoffers, hname⟩ := (hmem u.name).1 ⟨u, hu, hexponent, rfl⟩
    exact ⟨hoffers, u.name, hname⟩

theorem pairwise_exponents (kind : UnitSystemKind) (naming : NameLookup) :
    (kind.exactTable naming).Pairwise fun u v => u.exponent < v.exponent :=
  ExactUnit.pairwise_withRanges (pairwise_namedPowers kind naming) fun _ _ _ _ h => h

/-- A unit is overtaken by the one behind it. -/
theorem overtaken_iff (h : kind.exactTable naming = front ++ u :: back) :
    kind.Overtaken naming u.exponent ↔
      kind = default ∧ front = [] ∧ ∃ w ∈ back.head?, w.exponent = u.exponent + 1 := by
  have hsorted := pairwise_exponents kind naming
  rw [h, List.pairwise_append, List.pairwise_cons] at hsorted
  obtain ⟨-, ⟨hbehind, hsorted⟩, hbefore⟩ := hsorted
  unfold Overtaken
  simp only [names_iff, h, List.mem_append, List.mem_cons]
  refine and_congr_right' (and_congr ⟨fun hfirst => ?_, ?_⟩ ⟨?_, ?_⟩)
  · refine List.eq_nil_iff_forall_not_mem.2 fun v hv => ?_
    exact hfirst v.exponent (hbefore v hv u (List.mem_cons_self ..)) ⟨v, .inl hv, rfl⟩
  · rintro rfl e hlt ⟨v, hv, rfl⟩
    obtain hv | rfl | hv := hv
    · cases hv
    · exact hlt.false
    · exact (hbehind v hv).asymm hlt
  · rintro ⟨v, hv | rfl | hv, hnext⟩
    · have := hbefore v hv u (List.mem_cons_self ..)
      omega
    · omega
    · cases back with
      | nil => cases hv
      | cons w back =>
        refine ⟨w, rfl, ?_⟩
        have hw := hbehind w (List.mem_cons_self ..)
        obtain rfl | hv := List.mem_cons.1 hv
        · exact hnext
        · have := (List.pairwise_cons.1 hsorted).1 v hv
          omega
  · rintro ⟨w, hw, hnext⟩
    exact ⟨w, .inr (.inr (List.mem_of_mem_head? hw)), hnext⟩

/-- **The next range starts later**, unless the unit is overtaken. -/
theorem rangeMin_lt_next_iff (h : kind.exactTable naming = front ++ u :: back) :
    (∀ w ∈ back.head?, u.rangeMin < w.rangeMin) ↔ ¬ kind.Overtaken naming u.exponent := by
  rw [overtaken_iff h]
  cases back with
  | nil => simp
  | cons w back =>
    have hsplit : kind.exactTable naming = (front ++ [u]) ++ w :: back := by simp [h]
    have hempty : (front ++ [u]).isEmpty = false := by simp
    have hw := ExactUnit.rangeMin_of_split hsplit
    rw [hempty, Bool.and_false] at hw
    have hmem : u ∈ kind.exactTable naming := by simp [h]
    obtain ⟨p, hp, hexponent⟩ := ExactUnit.exponent_withRanges hmem
    have hoffers : kind.Offers u.exponent := hexponent ▸ offers_namedPowers hp
    have hlt : u.exponent < w.exponent := by
      have hsorted := pairwise_exponents kind naming
      rw [h, List.pairwise_append] at hsorted
      exact (List.pairwise_cons.1 hsorted.2.1).1 w (List.mem_cons_self ..)
    have hstarts := ExactUnit.start_lt_start_iff front.isEmpty hoffers.min_le
      hoffers.one_le hlt
    rw [← hw, ← Bool.true_and front.isEmpty, ← ExactUnit.rangeMin_of_split h] at hstarts
    simpa [startsEarly] using hstarts

end UnitSystemKind

/-! ## The number at which a range starts -/

/-- Only finite numbers are in a range. -/
theorem isFinite_of_appliesTo {u : DisplayUnit} {x : Float} (h : u.appliesTo x) : x.isFinite := by
  unfold DisplayUnit.appliesTo lessWithin at h
  simp only [Bool.and_eq_true, decide_eq_true_eq] at h
  obtain ⟨-, hless, -⟩ := h
  change decide ((x.abs.toModel.unpack.compare u.rangeMax.toModel.unpack == some .lt) = true) =
    true at hless
  rw [unpack_abs, decide_eq_true_eq, beq_iff_eq] at hless
  change x.toModel.unpack.isFinite = true
  cases hu : x.toModel.unpack with
  | notANumber => rw [hu] at hless; cases hless
  | infinity s =>
    rw [hu] at hless
    cases hmax : u.rangeMax.toModel.unpack with
    | infinity t => rw [hmax] at hless; cases t <;> cases hless
    | _ => rw [hmax] at hless; cases hless
  | zero | finite => rfl

section Start

variable {m n : ℕ}

/-- A start is at least twice the one before it. -/
theorem IsStart.two_mul_lt_storedStart (hm : IsStart m) (hn : IsStart n) (hlt : m < n) :
    storedStart m = m ∧ 2 * m < storedStart n := by
  obtain rfl | ⟨k, hk, rfl⟩ := hn
  · omega
  obtain rfl | ⟨j, hj, rfl⟩ := hm
  · exact ⟨rfl, by unfold storedStart; split <;> simp⟩
  · have hjk : j < k := (Nat.pow_lt_pow_iff_right (by norm_num)).1 hlt
    have hten : 10 * 10 ^ j ≤ 10 ^ k := by
      rw [← Nat.pow_succ']
      exact Nat.pow_le_pow_right (by norm_num) hjk
    have hmax : 10 ^ k ≤ 10 ^ 23 := Nat.pow_le_pow_right (by norm_num) (by omega)
    have hpos : 0 < 10 ^ j := Nat.pow_pos (by norm_num)
    -- The last start loses less than the factor of ten leaves.
    generalize 10 ^ j = m at *
    generalize 10 ^ k = n at *
    unfold storedStart
    refine ⟨if_neg (by omega), ?_⟩
    split <;> omega

theorem IsStart.isFinite (h : IsStart m) : (Float.ofNat m).isFinite :=
  h.isValue.isFinite

/-- **The start of a range does not reach a later one.** -/
theorem IsStart.not_reached (hm : IsStart m) (hn : IsStart n) (hlt : m < n) {w : DisplayUnit}
    (hw : w.rangeMin = .ofNat n) : ¬ w.Reached (.ofNat m) := by
  obtain ⟨hstored, hdouble⟩ := hm.two_mul_lt_storedStart hn hlt
  have hmagnitude := isValue_abs_exactMagnitude hm.isFinite
  have hvalue : exactMagnitude (.ofNat m) = m := by rw [exactMagnitude_eq hm.isValue, hstored]
  rw [hvalue] at hmagnitude
  have hmax : (m : ℚ) < 10 ^ 23 := by
    have := hn.storedStart_le
    exact_mod_cast (by omega : m < 10 ^ 23)
  obtain ⟨q, hq, hsmall⟩ := exists_isValue_tolerance hmagnitude hmax
  have hdouble' : (2 : ℚ) * m + 1 ≤ storedStart n := by exact_mod_cast hdouble
  have hnonneg : (0 : ℚ) ≤ m := Nat.cast_nonneg m
  unfold DisplayUnit.Reached
  rw [hw, exactMagnitude_eq hn.isValue, hvalue, exactMagnitude_eq hq]
  rcases hsmall with hsmall | hsmall <;> rintro (h | h) <;> linarith

/-- It reaches its own. -/
theorem DisplayUnit.reached_start {u : DisplayUnit} (hu : u.rangeMin = .ofNat m) :
    u.Reached (.ofNat m) :=
  .inl (by rw [hu])

end Start

theorem lt_infinity {x : Float} {q : ℚ} (h : IsValue x.toModel.unpack .positive q) :
    x < infinity := by
  have hless := lessWithin_infinity 0.0 h
  unfold lessWithin at hless
  simp only [Bool.and_eq_true, decide_eq_true_eq] at hless
  exact hless.1

theorem find?_eq_some_of_unique {α : Type*} {p : α → Bool} {l : List α} {a : α} (ha : a ∈ l)
    (hp : p a = true) (honly : ∀ b ∈ l, p b = true → b = a) : l.find? p = some a := by
  cases hfind : l.find? p with
  | none => exact absurd hp (by simp [List.find?_eq_none.1 hfind a ha])
  | some b => rw [honly b (List.mem_of_find?_eq_some hfind) (List.find?_some hfind)]

namespace Consecutive

variable {u w : ExactUnit} {front back units : List ExactUnit} {x : Float}

theorem drop (h : Consecutive (front ++ u :: back)) : Consecutive (u :: back) := by
  induction front with
  | nil => exact h
  | cons v front ih =>
    cases front with
    | nil => exact h.tail
    | cons w front => exact ih h.tail

theorem isStart_next (h : Consecutive (front ++ u :: back)) (hw : w ∈ back.head?) :
    IsStart w.rangeMin :=
  h.isStart w (by simp [List.mem_of_mem_head? hw])

theorem rangeMax_next (h : Consecutive (front ++ u :: w :: back)) :
    u.toDisplay.rangeMax = w.toDisplay.rangeMin :=
  h.drop.rangeMax_eq

theorem rangeMax_last (h : Consecutive (front ++ [u])) : u.toDisplay.rangeMax = infinity := by
  have hmax : u.rangeMax? = none := h.endless u (by simp)
  simp [ExactUnit.toDisplay, hmax]

/-- **A range holds the numbers that reach it**, but not the next one. -/
theorem appliesTo_iff (h : Consecutive (front ++ u :: back)) (hx : x.isFinite) :
    u.toDisplay.appliesTo x ↔
      u.toDisplay.Reached x ∧ ∀ w ∈ back.head?, ¬ w.toDisplay.Reached x := by
  have hstart := h.isStart u (by simp)
  cases back with
  | nil =>
    rw [appliesTo_iff_of_last hx hstart rfl h.rangeMax_last]
    simp
  | cons w back =>
    rw [appliesTo_iff_of_next hx hstart (h.isStart_next rfl) rfl rfl h.rangeMax_next]
    simp

/-- **A number in the range of a unit picks this unit.** -/
theorem find?_of_appliesTo (h : Consecutive units) (hx : x.isFinite) (hu : u ∈ units)
    (happlies : u.toDisplay.appliesTo x) :
    (units.map ExactUnit.toDisplay).find? (·.appliesTo x) = some u.toDisplay := by
  have hreached := h.reached_of_appliesTo hx hu happlies
  have hmem : u.toDisplay ∈ units.map ExactUnit.toDisplay := List.mem_map_of_mem hu
  cases units with
  | nil => cases hu
  | cons first rest =>
    have hfirst : first.toDisplay.Reached x := by
      obtain rfl | hrest := List.mem_cons.1 hu
      · exact hreached
      · exact hreached.of_le (h.isStart first (List.mem_cons_self ..)) (h.isStart u hu) rfl rfl
          ((List.pairwise_cons.1 h.ascending).1 u hrest)
    obtain ⟨front, v, back, heq, hunit⟩ := h.exists_isUnitOf hx hfirst
    rw [heq] at hmem ⊢
    -- Units may be equal as doubles, so the unit is found as the only one that applies.
    have honly : ∀ w ∈ front ++ v :: back, w.appliesTo x = true → w = v := by
      intro w hw happlies
      by_contra hne
      refine hunit.only w ?_ happlies
      simpa [hne] using hw
    rw [honly _ hmem happlies]
    exact find?_eq_some_of_unique (by simp) hunit.applies honly

end Consecutive

namespace UnitSystemKind

variable {kind : UnitSystemKind} {naming : NameLookup} {u : ExactUnit}
variable {front back : List ExactUnit} {x : Float}

/-- The unit of a number is the one in whose range it is. -/
theorem unit?_pickFor_iff (hu : u ∈ kind.exactTable naming) :
    ((UnitSystem.ofTable kind (kind.table naming)).pickFor x).unit? = some u.toDisplay ↔
      u.toDisplay.appliesTo x := by
  change (kind.table naming).find? (·.appliesTo x) = _ ↔ _
  rw [table_eq]
  constructor
  · exact List.find?_some
  · intro happlies
    exact (consecutive_exactTable kind naming).find?_of_appliesTo
      (isFinite_of_appliesTo happlies) hu happlies

/-- **A unit is picked by some number**, unless it is overtaken. -/
theorem exists_appliesTo_iff (h : kind.exactTable naming = front ++ u :: back) :
    (∃ x, u.toDisplay.appliesTo x) ↔ ¬ kind.Overtaken naming u.exponent := by
  have hconsecutive := consecutive_exactTable kind naming
  rw [h] at hconsecutive
  rw [← rangeMin_lt_next_iff h]
  constructor
  · rintro ⟨x, happlies⟩ w hw
    have hx := isFinite_of_appliesTo happlies
    obtain ⟨hreached, hnot⟩ := (hconsecutive.appliesTo_iff hx).1 happlies
    by_contra hle
    exact hnot w hw (hreached.of_le (hconsecutive.isStart_next hw)
      (hconsecutive.isStart u (by simp)) rfl rfl (not_lt.1 hle))
  · intro hnext
    have hstart := hconsecutive.isStart u (by simp)
    refine ⟨.ofNat u.rangeMin, (hconsecutive.appliesTo_iff hstart.isFinite).2
      ⟨DisplayUnit.reached_start rfl, fun w hw => ?_⟩⟩
    exact hstart.not_reached (hconsecutive.isStart_next hw) (hnext w hw) rfl

/-- **A range is not empty**, unless the unit is overtaken. -/
theorem rangeMin_lt_rangeMax_iff (h : kind.exactTable naming = front ++ u :: back) :
    u.toDisplay.rangeMin < u.toDisplay.rangeMax ↔ ¬ kind.Overtaken naming u.exponent := by
  have hconsecutive := consecutive_exactTable kind naming
  rw [h] at hconsecutive
  have hstart := hconsecutive.isStart u (by simp)
  rw [← rangeMin_lt_next_iff h]
  cases back with
  | nil =>
    rw [hconsecutive.rangeMax_last]
    exact iff_of_true (lt_infinity hstart.isValue) (by simp)
  | cons w back =>
    have hstart' := hconsecutive.isStart_next (w := w) rfl
    have hlt := lt_iff hstart.isValue hstart'.isValue
    rw [hconsecutive.rangeMax_next]
    simp only [ExactUnit.toDisplay, hlt, List.head?_cons, Option.mem_some_iff, forall_eq',
      Nat.cast_lt]
    refine ⟨fun hlt => ?_, fun hlt => ?_⟩
    · by_contra hle
      exact (hstart'.storedStart_mono hstart (not_lt.1 hle)).not_gt hlt
    · have := hstart.two_mul_lt_storedStart hstart' hlt
      omega

/-- **Every unit can be picked**, unless it is overtaken: exactly then its range is empty, and
exactly then no number picks it. Only the first of the units that start early can be
overtaken, by the unit of the next power of ten. -/
theorem isPicked_unless_overtaken (kind : UnitSystemKind) (naming : NameLookup) :
    ∃ units : List ExactUnit, kind.table naming = units.map ExactUnit.toDisplay ∧ ∀ u ∈ units,
      (u.toDisplay.rangeMin < u.toDisplay.rangeMax ↔ ¬ kind.Overtaken naming u.exponent) ∧
      ((∃ x, ((UnitSystem.ofTable kind (kind.table naming)).pickFor x).unit? =
        some u.toDisplay) ↔ ¬ kind.Overtaken naming u.exponent) := by
  refine ⟨kind.exactTable naming, table_eq kind naming, fun u hu => ?_⟩
  obtain ⟨front, back, hsplit⟩ := List.append_of_mem hu
  refine ⟨rangeMin_lt_rangeMax_iff hsplit, ?_⟩
  simp only [unit?_pickFor_iff hu]
  exact exists_appliesTo_iff hsplit

/-- **Ten thousands overtake thousands**: their range starts early at one thousand, and none
is left for the thousands. -/
theorem not_isPicked_thousands :
    ∃ u ∈ default.table .myriads, u.name.title = "Thousands".toList ∧
      ¬ u.rangeMin < u.rangeMax ∧
      ∀ x, ((UnitSystem.ofTable default (default.table .myriads)).pickFor x).unit? ≠ some u := by
  have hnames {e : Int} (h : e = 3 ∨ e = 4) : default.Names .myriads e := by
    have hoffered : default.Offers e := ⟨by omega, by omega⟩
    rcases h with rfl | rfl <;> exact ⟨hoffered, _, rfl, by decide⟩
  have hovertaken : default.Overtaken .myriads 3 := by
    refine ⟨rfl, fun e hlt hnamed => ?_, hnames (.inr rfl)⟩
    obtain ⟨hmin, -⟩ := hnamed.1
    omega
  obtain ⟨u, hu, hexponent⟩ := names_iff.1 (hnames (.inl rfl))
  obtain ⟨front, back, hsplit⟩ := List.append_of_mem hu
  rw [← hexponent] at hovertaken
  refine ⟨u.toDisplay, ?_, ?_, ?_, fun x hx => ?_⟩
  · rw [table_eq]
    exact List.mem_map_of_mem hu
  · obtain ⟨-, hname, -⟩ := ((isLadder_exactTable default .myriads).mem_iff 3 u.name).1
      ⟨u, hu, hexponent, rfl⟩
    exact congrArg UnitName.title (Option.some.inj hname).symm
  · exact fun hlt => (rangeMin_lt_rangeMax_iff hsplit).1 hlt hovertaken
  · exact (exists_appliesTo_iff hsplit).1 ⟨x, (unit?_pickFor_iff hu).1 hx⟩ hovertaken

end UnitSystemKind

end TickLabels
