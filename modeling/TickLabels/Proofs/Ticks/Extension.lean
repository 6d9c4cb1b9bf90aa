import Mathlib.Data.List.Chain
import Mathlib.Logic.Relation
import TickLabels.Proofs.Binary64.Arithmetic
import TickLabels.Proofs.Calendar.Spans
import TickLabels.Ticks.Cover
/-!
# Extending ticks

Ticks are extended by two loops. Each pass adds a tick at an end, and a loop stops where the
end reaches its bound or the next tick would not lie beyond it. Amounts that are not zero
lead somewhere else, except at the ends of the calendar (`Instant.lt_shift_or`), so only
there a loop stops short of its bound. What a pass keeps, the loops keep
(`LoopsTo.preserves`), and so the ticks stay in order with the old ones among them
(`DateTicks.extendedTo_extend`), and to extend them twice is to extend them once to the
outer bounds.
-/

namespace TickLabels

/-! ## Loops -/

/-- A loop repeats a pass from `a` on and ends at `b`, where there is no other pass. -/
structure LoopsTo {α : Type} (pass : α → Option α) (a b : α) : Prop where
  reaches : Relation.ReflTransGen (fun x y => pass x = some y) a b
  stops : pass b = none

namespace LoopsTo

variable {α : Type} {pass : α → Option α} {a b c : α}

theorem refl (h : pass a = none) : LoopsTo pass a a :=
  ⟨.refl, h⟩

theorem head (h : pass a = some b) (hb : LoopsTo pass b c) : LoopsTo pass a c :=
  ⟨.head h hb.reaches, hb.stops⟩

/-- **What every pass keeps**, the loop keeps. -/
theorem preserves {P : α → Prop} (h : LoopsTo pass a b)
    (hpass : ∀ x y, pass x = some y → P x → P y) (ha : P a) : P b := by
  obtain ⟨hreaches, -⟩ := h
  induction hreaches with
  | refl => exact ha
  | tail _ hstep ih => exact hpass _ _ hstep ih

end LoopsTo

/-- A pass behind a guard ends its loop only where the guard fails. -/
theorem not_of_ite_eq_none {α : Type} {p : Prop} [Decidable p] {a : α}
    (h : (if p then some a else none) = none) : ¬ p :=
  fun hp => Option.some_ne_none a (ite_eq_right_iff.1 h hp)

/-- The last of two lists is that of the second, if it has one. -/
theorem getLastD_append {α : Type} (as bs : List α) (a : α) :
    (as ++ bs).getLastD a = bs.getLastD (as.getLastD a) := by
  simp only [List.getLastD_eq_getLast?, List.getLast?_append]
  cases bs.getLast? <;> rfl

variable {cal : Calendar}

namespace Instant

/-- The earlier of two instants. -/
def earlier (i j : Instant cal) : Instant cal :=
  if i ≤ j then i else j

/-- The later of two instants. -/
def later (i j : Instant cal) : Instant cal :=
  if i ≤ j then j else i

theorem earlier_lt_iff {i j k : Instant cal} : earlier i j < k ↔ i < k ∨ j < k := by
  simp only [earlier, lt_iff, le_iff]
  split <;> omega

theorem lt_later_iff {i j k : Instant cal} : k < later i j ↔ k < i ∨ k < j := by
  simp only [later, lt_iff, le_iff]
  split <;> omega

/-- **Two walks down** are one to the earlier bound. -/
theorem stepsDown_earlier (i : Instant cal) (step : Instant cal → Instant cal) (a b : Instant cal) :
    i.stepsDown step (earlier a b) =
      i.stepsDown step a ++ ((i.stepsDown step a).getLastD i).stepsDown step b := by
  fun_induction stepsDown i step a with
  | case1 i h ih =>
    rw [stepsDown, if_pos ⟨earlier_lt_iff.2 (.inl h.1), h.2⟩, ih, List.cons_append,
      List.getLastD_cons]
  | case2 i h =>
    -- The first walk has ended, so only the second bound counts.
    rw [List.nil_append, List.getLastD_nil]
    by_cases hb : b < i ∧ step i < i
    · have ha : i ≤ a := Std.not_lt.1 fun ha => h ⟨ha, hb.2⟩
      have hearlier : earlier a b = b := if_neg (Std.not_le.2 (Std.lt_of_lt_of_le hb.1 ha))
      rw [hearlier]
    · have hstop : ¬ (earlier a b < i ∧ step i < i) := by
        rw [earlier_lt_iff]
        tauto
      rw [stepsDown, if_neg hstop, stepsDown, if_neg hb]

/-- Two walks up are one to the later bound. -/
theorem stepsUp_later (i : Instant cal) (step : Instant cal → Instant cal) (a b : Instant cal) :
    i.stepsUp step (later a b) =
      i.stepsUp step a ++ ((i.stepsUp step a).getLastD i).stepsUp step b := by
  fun_induction stepsUp i step a with
  | case1 i h ih =>
    rw [stepsUp, if_pos ⟨lt_later_iff.2 (.inl h.1), h.2⟩, ih, List.cons_append,
      List.getLastD_cons]
  | case2 i h =>
    rw [List.nil_append, List.getLastD_nil]
    by_cases hb : i < b ∧ i < step i
    · have ha : a ≤ i := Std.not_lt.1 fun ha => h ⟨ha, hb.2⟩
      have hlater : later a b = b := if_pos (Std.le_trans ha (Std.le_of_lt hb.1))
      rw [hlater]
    · have hstop : ¬ (i < later a b ∧ i < step i) := by
        rw [lt_later_iff]
        tauto
      rw [stepsUp, if_neg hstop, stepsUp, if_neg hb]

variable {i bound : Instant cal} {n : Int} {unit : TimeUnit}

/-- **A walk down** by a negative amount always ends at its bound. -/
theorem le_of_stops_down (hn : n < 0) (hstops : ¬ (bound < i ∧ i.shift n unit < i)) :
    i ≤ bound := by
  rcases i.shift_lt_or hn unit with hback | ⟨-, hearliest⟩
  · exact Std.not_lt.1 fun hgo => hstops ⟨hgo, hback⟩
  · rw [hearliest]
    exact bound.earliest_le_self

/-- **A walk up** by a positive amount ends at its bound, or at the end of the calendar. -/
theorem le_or_of_stops_up (hn : 0 < n) (hstops : ¬ (i < bound ∧ i < i.shift n unit)) :
    bound ≤ i ∨ latest < bound ∧ latest ≤ i := by
  rcases i.lt_shift_or hn unit with hahead | ⟨-, hlatest⟩
  · exact .inl (Std.not_lt.1 fun hgo => hstops ⟨hgo, hahead⟩)
  · rcases i.lt_or_le bound with hgo | hbound
    · exact .inr ⟨Std.lt_of_le_of_lt hlatest hgo, hlatest⟩
    · exact .inl hbound

end Instant

namespace DateTicks

variable {t u v : DateTicks cal} {step : Instant cal → Instant cal} {min max : Instant cal}

/-! ## Passes -/

/-- A pass of the loop that adds ticks before the first. -/
def passBelow (step : Instant cal → Instant cal) (min : Instant cal) (t : DateTicks cal) :
    Option (DateTicks cal) :=
  if min < t.min ∧ step t.min < t.min then
    some { t with min := step t.min, ticks := step t.min :: t.ticks }
  else none

/-- A pass of the loop that adds ticks behind the last. -/
def passAbove (step : Instant cal → Instant cal) (max : Instant cal) (t : DateTicks cal) :
    Option (DateTicks cal) :=
  if t.max < max ∧ t.max < step t.max then
    some { t with max := step t.max, ticks := t.ticks ++ [step t.max] }
  else none

/-- The ticks with all that are added before the first. -/
def growBelow (step : Instant cal → Instant cal) (min : Instant cal) (t : DateTicks cal) :
    DateTicks cal :=
  { t with
    min := (t.min.stepsDown step min).getLastD t.min
    ticks := (t.min.stepsDown step min).reverse ++ t.ticks }

/-- The ticks with all that are added behind the last. -/
def growAbove (step : Instant cal → Instant cal) (max : Instant cal) (t : DateTicks cal) :
    DateTicks cal :=
  { t with
    max := (t.max.stepsUp step max).getLastD t.max
    ticks := t.ticks ++ t.max.stepsUp step max }

theorem loopsTo_growBelow (step : Instant cal → Instant cal) (min : Instant cal)
    (t : DateTicks cal) :
    LoopsTo (passBelow step min) t (t.growBelow step min) := by
  generalize hi : t.min = i
  fun_induction Instant.stepsDown i step min generalizing t with
  | case1 i h ih =>
    subst hi
    let next : DateTicks cal := { t with min := step t.min, ticks := step t.min :: t.ticks }
    have hgrow : next.growBelow step min = t.growBelow step min := by
      unfold growBelow
      rw [Instant.stepsDown.eq_1 t.min, if_pos h, List.getLastD_cons, List.reverse_cons,
        List.append_assoc]
      rfl
    exact hgrow ▸ LoopsTo.head (if_pos h) (ih next rfl)
  | case2 i h =>
    subst hi
    have hgrow : t.growBelow step min = t := by
      unfold growBelow
      rw [Instant.stepsDown.eq_1 t.min, if_neg h]
      rfl
    rw [hgrow]
    exact .refl (if_neg h)

theorem loopsTo_growAbove (step : Instant cal → Instant cal) (max : Instant cal)
    (t : DateTicks cal) :
    LoopsTo (passAbove step max) t (t.growAbove step max) := by
  generalize hi : t.max = i
  fun_induction Instant.stepsUp i step max generalizing t with
  | case1 i h ih =>
    subst hi
    let next : DateTicks cal := { t with max := step t.max, ticks := t.ticks ++ [step t.max] }
    have hgrow : next.growAbove step max = t.growAbove step max := by
      unfold growAbove
      rw [Instant.stepsUp.eq_1 t.max, if_pos h, List.getLastD_cons, List.append_cons]
    exact hgrow ▸ LoopsTo.head (if_pos h) (ih next rfl)
  | case2 i h =>
    subst hi
    have hgrow : t.growAbove step max = t := by
      unfold growAbove
      rw [Instant.stepsUp.eq_1 t.max, if_neg h, List.append_nil]
      rfl
    rw [hgrow]
    exact .refl (if_neg h)

/-- Where the next tick goes. -/
def onward (t : DateTicks cal) (i : Instant cal) : Instant cal :=
  i.addRounded (Float.ofInt t.interval) t.unit

/-- Where the tick before goes. -/
def back (t : DateTicks cal) (i : Instant cal) : Instant cal :=
  i.addRounded (-Float.ofInt t.interval) t.unit

theorem onward_eq (h : t.interval.natAbs < 2 ^ 53) (i : Instant cal) :
    t.onward i = i.shift t.interval t.unit := by
  rw [onward, Instant.addRounded, toInt64_ofInt h]

theorem back_eq (h : t.interval.natAbs < 2 ^ 53) (i : Instant cal) :
    t.back i = i.shift (-t.interval) t.unit := by
  rw [back, Instant.addRounded, toInt64_neg_ofInt h]

/-- **To extend ticks** is to run both loops. -/
theorem extend_eq (t : DateTicks cal) (min max : Instant cal) :
    t.extend min max = (t.growBelow t.back min).growAbove t.onward max := rfl

/-- **Two extensions** are one to the outer bounds. -/
theorem extend_extend (t : DateTicks cal) (min max a b : Instant cal) :
    (t.extend min max).extend a b = t.extend (min.earlier a) (max.later b) := by
  let below := t.min.stepsDown t.back min
  let above := t.max.stepsUp t.onward max
  let below' := (below.getLastD t.min).stepsDown t.back a
  let above' := (above.getLastD t.max).stepsUp t.onward b
  have hbelow : t.min.stepsDown t.back (min.earlier a) = below ++ below' :=
    Instant.stepsDown_earlier ..
  have habove : t.max.stepsUp t.onward (max.later b) = above ++ above' :=
    Instant.stepsUp_later ..
  calc (t.extend min max).extend a b
      = { t with
          min := below'.getLastD (below.getLastD t.min)
          max := above'.getLastD (above.getLastD t.max)
          ticks := below'.reverse ++ (below.reverse ++ t.ticks ++ above) ++ above' } := rfl
    _ = t.extend (min.earlier a) (max.later b) := by
        rw [extend_eq t (min.earlier a)]
        unfold growAbove growBelow
        dsimp only
        rw [hbelow, habove, getLastD_append, getLastD_append, List.reverse_append]
        simp only [List.append_assoc]

/-! ## What the passes keep -/

/-- Ticks in order, from the first to the last. -/
structure Ascending (t : DateTicks cal) : Prop where
  pairwise_lt : t.ticks.Pairwise (· < ·)
  head?_eq : t.ticks.head? = some t.min
  getLast?_eq : t.ticks.getLast? = some t.max

namespace Ascending

variable (h : t.Ascending)
include h

theorem min_le {i : Instant cal} (hi : i ∈ t.ticks) : t.min ≤ i := by
  have hpairwise := h.pairwise_lt
  have hhead := h.head?_eq
  cases hticks : t.ticks with
  | nil => simp [hticks] at hi
  | cons first rest =>
    rw [hticks] at hi hpairwise hhead
    obtain rfl : first = t.min := Option.some.inj hhead
    rcases List.mem_cons.1 hi with rfl | hi
    · exact Std.le_refl _
    · exact Std.le_of_lt ((List.pairwise_cons.1 hpairwise).1 i hi)

theorem le_max {i : Instant cal} (hi : i ∈ t.ticks) : i ≤ t.max := by
  have hpairwise := h.pairwise_lt
  rw [← List.dropLast_append_getLast? t.max h.getLast?_eq] at hi hpairwise
  rcases List.mem_append.1 hi with hi | hi
  · exact Std.le_of_lt ((List.pairwise_append.1 hpairwise).2.2 i hi t.max (by simp))
  · rw [List.mem_singleton.1 hi]
    exact Std.le_refl _

/-- A tick before all others goes in front. -/
theorem consMin {i : Instant cal} (hi : i < t.min) :
    Ascending { t with min := i, ticks := i :: t.ticks } where
  pairwise_lt := List.pairwise_cons.2
    ⟨fun _ hj => Std.lt_of_lt_of_le hi (h.min_le hj), h.pairwise_lt⟩
  head?_eq := rfl
  getLast?_eq := by rw [List.getLast?_cons, h.getLast?_eq]; rfl

/-- And a tick behind all others goes to the end. -/
theorem appendMax {i : Instant cal} (hi : t.max < i) :
    Ascending { t with max := i, ticks := t.ticks ++ [i] } where
  pairwise_lt := by
    refine List.pairwise_append.2 ⟨h.pairwise_lt, List.pairwise_singleton .., ?_⟩
    intro j hj k hk
    rw [List.mem_singleton.1 hk]
    exact Std.lt_of_le_of_lt (h.le_max hj) hi
  head?_eq := by rw [List.head?_append, h.head?_eq]; rfl
  getLast?_eq := List.getLast?_concat

end Ascending

/-- `u` are the ticks `t` with others before and behind them, `n` units apart. -/
structure Extends (t u : DateTicks cal) (n : Int) (min max : Instant cal)
    (below above : List (Instant cal)) : Prop where
  ticks_eq : u.ticks = below ++ t.ticks ++ above
  unit_eq : u.unit = t.unit
  interval_eq : u.interval = t.interval
  offset_eq : u.offset = t.offset
  ascending : u.Ascending
  /-- They go on from the old ends. -/
  isChain_below : (below ++ [t.min]).IsChain fun a b => b.shift (-n) t.unit = a
  isChain_above : (t.max :: above).IsChain fun a b => a.shift n t.unit = b
  /-- None is added beyond the first that reaches its bound. -/
  min_lt : ∀ i ∈ (below ++ [t.min]).tail, min < i
  lt_max : ∀ i ∈ (t.max :: above).dropLast, i < max

namespace Extends

variable {n : Int} {below above : List (Instant cal)}

theorem refl (ht : t.Ascending) : Extends t t n min max [] [] where
  ticks_eq := (List.append_nil _).symm
  unit_eq := rfl
  interval_eq := rfl
  offset_eq := rfl
  ascending := ht
  isChain_below := List.isChain_singleton _
  isChain_above := List.isChain_singleton _
  min_lt := by simp
  lt_max := by simp

theorem head?_below (h : Extends t u n min max below above) (ht : t.Ascending) :
    (below ++ [t.min]).head? = some u.min := by
  have hhead := h.ascending.head?_eq
  rw [h.ticks_eq, List.append_assoc, List.head?_append, List.head?_append, ht.head?_eq] at hhead
  rw [List.head?_append, ← hhead]
  rfl

theorem getLast?_above (h : Extends t u n min max below above) (ht : t.Ascending) :
    (t.max :: above).getLast? = some u.max := by
  have hlast := h.ascending.getLast?_eq
  rw [h.ticks_eq, List.getLast?_append, List.getLast?_append, ht.getLast?_eq] at hlast
  rw [List.getLast?_cons, ← hlast]
  cases above.getLast? <;> rfl

/-- A pass at the lower end. -/
theorem passBelow (h : Extends t u n min max below above) (ht : t.Ascending)
    (hstep : ∀ i, step i = i.shift (-n) t.unit) (hpass : passBelow step min u = some v) :
    Extends t v n min max (v.min :: below) above := by
  obtain ⟨⟨hmin, hlt⟩, hv⟩ := Option.ite_some_none_eq_some.1 hpass
  have hhead := h.head?_below ht
  subst hv
  refine ⟨?_, h.unit_eq, h.interval_eq, h.offset_eq, h.ascending.consMin hlt, ?_,
    h.isChain_above, ?_, h.lt_max⟩
  · rw [List.cons_append, List.cons_append, ← h.ticks_eq]
  · refine List.isChain_cons.2 ⟨fun first hfirst => ?_, h.isChain_below⟩
    obtain rfl : u.min = first := Option.some.inj (hhead.symm.trans hfirst)
    exact (hstep _).symm
  · intro i hi
    have hi : i ∈ below ++ [t.min] := hi
    rw [← List.cons_head?_tail hhead] at hi
    rcases List.mem_cons.1 hi with rfl | hi
    · exact hmin
    · exact h.min_lt i hi

/-- A pass at the upper end. -/
theorem passAbove (h : Extends t u n min max below above) (ht : t.Ascending)
    (hstep : ∀ i, step i = i.shift n t.unit) (hpass : passAbove step max u = some v) :
    Extends t v n min max below (above ++ [v.max]) := by
  obtain ⟨⟨hmax, hlt⟩, hv⟩ := Option.ite_some_none_eq_some.1 hpass
  have hlast := h.getLast?_above ht
  subst hv
  refine ⟨?_, h.unit_eq, h.interval_eq, h.offset_eq, h.ascending.appendMax hlt,
    h.isChain_below, ?_, h.min_lt, ?_⟩
  · rw [← List.append_assoc, ← h.ticks_eq]
  · rw [← List.cons_append, List.isChain_append]
    refine ⟨h.isChain_above, List.isChain_singleton _, fun last hlast' next hnext => ?_⟩
    obtain rfl : u.max = last := Option.some.inj (hlast.symm.trans hlast')
    obtain rfl : step u.max = next := Option.some.inj hnext
    exact (hstep _).symm
  · intro i hi
    rw [← List.cons_append, List.dropLast_concat, ← List.dropLast_append_getLast? _ hlast] at hi
    rcases List.mem_append.1 hi with hi | hi
    · exact h.lt_max i hi
    · rw [List.mem_singleton.1 hi]
      exact hmax

end Extends

/-- Ticks with the old ones among them, and new ones at their interval. -/
def Retains (t u : DateTicks cal) (min max : Instant cal) : Prop :=
  ∃ below above, Extends t u t.interval min max below above

/-- **Both loops retain** the old ticks, since each pass does. -/
theorem retains_extend (ht : t.Ascending) (hinterval : t.interval.natAbs < 2 ^ 53)
    (min max : Instant cal) : Retains t (t.extend min max) min max := by
  have hbelow : ∀ x y, passBelow t.back min x = some y →
      Retains t x min max → Retains t y min max := by
    rintro x y hpass ⟨below, above, hx⟩
    exact ⟨_, _, hx.passBelow ht (back_eq hinterval) hpass⟩
  have habove : ∀ x y, passAbove t.onward max x = some y →
      Retains t x min max → Retains t y min max := by
    rintro x y hpass ⟨below, above, hx⟩
    exact ⟨_, _, hx.passAbove ht (onward_eq hinterval) hpass⟩
  have hbetween := (loopsTo_growBelow t.back min t).preserves hbelow ⟨[], [], .refl ht⟩
  exact (loopsTo_growAbove t.onward max _).preserves habove hbetween

/-! ## Intervals that add nothing -/

/-- Amounts that do not lead back add nothing below. -/
theorem growBelow_eq_self (h : t.min ≤ step t.min) : t.growBelow step min = t := by
  unfold growBelow
  rw [Instant.stepsDown, if_neg fun hgo => Std.not_lt.2 h hgo.2]
  rfl

theorem growAbove_eq_self (h : step t.max ≤ t.max) : t.growAbove step max = t := by
  unfold growAbove
  rw [Instant.stepsUp, if_neg fun hgo => Std.not_lt.2 h hgo.2, List.append_nil]
  rfl

/-! ## Extensions -/

/-- What is expected of ticks `t` that are extended to `u`. -/
structure ExtendedTo (t u : DateTicks cal) (min max : Instant cal) : Prop where
  /-- The loops end, one after the other. -/
  loopsTo : ∃ between,
    LoopsTo (passBelow t.back min) t between ∧ LoopsTo (passAbove t.onward max) between u
  /-- The old ticks are among the new ones. -/
  retains : Retains t u min max
  /-- Intervals that are not positive add nothing. In the leap second at the end of the
  calendar a negative one may lead back to the last instant before it. -/
  eq_self : t.interval ≤ 0 → (t.interval < 0 → t.min ≤ .latest) → u = t
  min_le : 0 < t.interval → u.min ≤ min
  /-- Short of the range only where the calendar ends, before the leap second behind it. -/
  le_max : 0 < t.interval → max ≤ u.max ∨ .latest < max ∧ .latest ≤ u.max
  /-- To extend twice is to extend once. -/
  extend_extend : ∀ a b, u.extend a b = t.extend (min.earlier a) (max.later b)

/-- **Extended ticks** keep the old ones and cover the range, as far as the calendar goes. -/
theorem extendedTo_extend (ht : t.Ascending) (hinterval : t.interval.natAbs < 2 ^ 53)
    (min max : Instant cal) : ExtendedTo t (t.extend min max) min max where
  loopsTo := ⟨_, loopsTo_growBelow t.back min t, loopsTo_growAbove t.onward max _⟩
  retains := retains_extend ht hinterval min max
  eq_self := by
    intro hnonpos hlatest
    have hbelow : t.min ≤ t.back t.min := by
      rw [back_eq hinterval]
      rcases Int.lt_or_eq_of_le hnonpos with hneg | hzero
      · exact Instant.self_le_shift (hlatest hneg) (by omega) t.unit
      · rw [hzero, Int.neg_zero, Instant.shift_zero]
        exact Std.le_refl _
    have habove : t.onward t.max ≤ t.max := by
      rw [onward_eq hinterval]
      exact t.max.shift_le_self hnonpos t.unit
    rw [extend_eq, growBelow_eq_self hbelow, growAbove_eq_self habove]
  min_le := by
    intro hpos
    have hstops := not_of_ite_eq_none (loopsTo_growBelow t.back min t).stops
    rw [back_eq hinterval] at hstops
    exact Instant.le_of_stops_down (by omega) hstops
  le_max := by
    intro hpos
    have hstops := not_of_ite_eq_none
      (loopsTo_growAbove t.onward max (t.growBelow t.back min)).stops
    rw [onward_eq hinterval] at hstops
    exact Instant.le_or_of_stops_up hpos hstops
  extend_extend := t.extend_extend min max

/-- The two quarters from January to July 2020. -/
def halfYear : DateTicks where
  min := .ofDate ⟨2020, 1, 1⟩
  max := .ofDate ⟨2020, 7, 1⟩
  unit := .month
  interval := 3
  offset := 0
  ticks := [.ofDate ⟨2020, 1, 1⟩, .ofDate ⟨2020, 4, 1⟩, .ofDate ⟨2020, 7, 1⟩]

/-- They are extended to the winter before and the next spring. -/
theorem extendedTo_extend_halfYear :
    halfYear.Ascending ∧ halfYear.interval.natAbs < 2 ^ 53 ∧
      ExtendedTo halfYear
        (halfYear.extend (.ofDate ⟨2019, 11, 15⟩) (.ofDate ⟨2021, 3, 15⟩))
        (.ofDate ⟨2019, 11, 15⟩) (.ofDate ⟨2021, 3, 15⟩) := by
  have hpairwise : halfYear.ticks.Pairwise (· < ·) := by decide +kernel
  have ht : halfYear.Ascending := ⟨hpairwise, rfl, rfl⟩
  have hinterval : halfYear.interval.natAbs < 2 ^ 53 := by decide
  exact ⟨ht, hinterval, extendedTo_extend ht hinterval _ _⟩

/-- A single tick in the last second of the calendar, or in the leap second behind it. -/
def lastTick (nanosecond : Int) (unit : TimeUnit) (interval : Int) : DateTicks civil :=
  let i := Instant.endOfCalendar nanosecond
  ⟨i, i, unit, interval, 0, [i]⟩

/-- In the leap second at the end of the calendar, a negative interval leads back, and a
bound is not reached. -/
theorem not_covered_in_last_leap_second :
    (lastTick 1500000000 .second (-1)).extend (.ofDate ⟨2000, 1, 1⟩)
        (.endOfCalendar 1500000000) ≠ lastTick 1500000000 .second (-1) ∧
    ¬ .endOfCalendar 1000000000 ≤
      ((lastTick 999000000 .millisecond 1).extend (.endOfCalendar 999000000)
        (.endOfCalendar 1000000000)).max := by
  decide +kernel

end DateTicks

end TickLabels
