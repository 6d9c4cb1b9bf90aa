import TickLabels.Proofs.Binary64.Monotone
import TickLabels.Proofs.Calendar.Instants
import TickLabels.Ticks.Inference
/-!
# The unit for a range

Each unit has thresholds, and the coarsest unit whose thresholds are passed is taken
(`TimeUnit.ofLength?_eq`). A longer range passes all that a shorter one does, and so does a
smaller number of ticks (`TimeUnit.Admits.mono`). So the unit never gets finer as a range grows,
and never coarser as more ticks are wanted (`TimeUnit.infer_mono`).

Only the whole milliseconds of a range are compared with the thresholds. Where there are none the
unit is that of the first end, so a short range may have another unit elsewhere, or turned around.
-/

namespace TickLabels

namespace TimeUnit

/-! ## Thresholds -/

/-- The place of a unit among the units, with the coarsest one first. -/
def fineness : TimeUnit → ℕ
  | year => 0
  | month => 1
  | week => 2
  | day => 3
  | hour => 4
  | minute => 5
  | second => 6
  | millisecond => 7

theorem fineness_inj {u v : TimeUnit} : u.fineness = v.fineness ↔ u = v := by
  cases u <;> cases v <;> decide

/-- All units, with the coarsest one first. -/
def all : List TimeUnit :=
  [year, month, week, day, hour, minute, second, millisecond]

theorem mem_all (u : TimeUnit) : u ∈ all := by
  cases u <;> decide

def inSeconds (millis : Float) : Float :=
  millis / 1000.0

def inMinutes (millis : Float) : Float :=
  inSeconds millis / 60.0

def inHours (millis : Float) : Float :=
  inMinutes millis / 60.0

def inDays (millis : Float) : Float :=
  inHours millis / 24.0

/-- A range of so many milliseconds is long enough for a unit, and for so many ticks of it. -/
def Admits (millis count : Float) : TimeUnit → Prop
  | year => 356.0 < inDays millis ∧ 180.0 * count ≤ inDays millis
  | month => 60.0 < inDays millis ∧ 7.0 * count < inDays millis
  | week => 14.0 < inDays millis ∧ 2.0 * count < inDays millis
  | day => 2.0 < inDays millis ∧ 12.0 * count < inHours millis
  | hour => 24.0 ≤ inHours millis ∧ count ≤ inHours millis
  | minute => 2.0 < inMinutes millis ∧ count ≤ inMinutes millis
  | second => 2.0 < inSeconds millis ∧ 0.8 * count ≤ inSeconds millis
  | millisecond => 0.0 < millis

instance (millis count : Float) : DecidablePred (Admits millis count)
  | year | month | week | day | hour | minute | second => inferInstanceAs (Decidable (_ ∧ _))
  | millisecond => inferInstanceAs (Decidable ((0.0 : Float) < millis))

theorem find?_cons_decide {α : Type*} (p : α → Prop) [DecidablePred p] (a : α) (l : List α) :
    (a :: l).find? (p ·) = if p a then some a else l.find? (p ·) := by
  rw [List.find?_cons]
  by_cases h : p a <;> simp [h]

/-- **The coarsest unit whose thresholds are passed.** -/
theorem ofLength?_eq (millis count : Float) :
    ofLength? millis count = all.find? (Admits millis count ·) := by
  simp only [all, find?_cons_decide, List.find?_nil]
  rfl

/-- The first one that is found in a list in order is the least one. -/
theorem fineness_le_of_find? {l : List TimeUnit} (hl : l.Pairwise (fineness · < fineness ·))
    {p : TimeUnit → Bool} {u v : TimeUnit} (hu : l.find? p = some u) (hv : v ∈ l) (hp : p v) :
    u.fineness ≤ v.fineness := by
  obtain ⟨-, front, back, rfl, hfront⟩ := List.find?_eq_some_iff_append.1 hu
  rcases List.mem_append.1 hv with hv | hv
  · exact absurd hp (by simpa using hfront v hv)
  · rcases List.mem_cons.1 hv with rfl | hv
    · exact le_rfl
    · exact (List.rel_of_pairwise_cons (List.pairwise_append.1 hl).2.1 hv).le

/-- Where a unit is admitted, no finer one is taken. -/
theorem fineness_ofLength?_le {millis count : Float} {u v : TimeUnit}
    (hu : ofLength? millis count = some u) (hv : Admits millis count v) :
    u.fineness ≤ v.fineness := by
  rw [ofLength?_eq] at hu
  exact fineness_le_of_find? (by decide) hu (mem_all v) (by simpa using hv)

theorem admits_of_ofLength? {millis count : Float} {u : TimeUnit}
    (h : ofLength? millis count = some u) : Admits millis count u := by
  rw [ofLength?_eq] at h
  simpa using List.find?_some h

/-! ## Longer ranges and fewer ticks -/

theorem isValue_four_fifths :
    ∃ q, IsValue (0.8 : Float).toModel.unpack .positive q ∧ 0 < q := by
  refine ⟨7205759403792794 * 2 ^ (-53 : ℤ), ?_, by positivity⟩
  have hparts : (0.8 : Float).toModel.unpack =
    .finite .positive 7205759403792794 (-53) (by decide) := rfl
  rw [hparts]
  exact .finite (by norm_num)

section Mono

variable {millis millis' count count' : Float} {p q : ℚ}

/-- **What a range passes, a longer one passes**, also with fewer ticks. -/
theorem Admits.mono (hmillis : Ascends millis millis')
    (hcount' : IsValue count'.toModel.unpack .positive p)
    (hcount : IsValue count.toModel.unpack .positive q) (hpq : p ≤ q) {u : TimeUnit}
    (h : Admits millis count u) : Admits millis' count' u := by
  have hnat {x : Float} {n : ℕ} (h : isNat x n) : IsValue x.toModel.unpack .positive n :=
    isValue_of_isNat h
  have hseconds : Ascends (inSeconds millis) (inSeconds millis') :=
    hmillis.div (hnat (n := 1000) (by decide)) (by norm_num)
  have hminutes : Ascends (inMinutes millis) (inMinutes millis') :=
    hseconds.div (hnat (n := 60) (by decide)) (by norm_num)
  have hhours : Ascends (inHours millis) (inHours millis') :=
    hminutes.div (hnat (n := 60) (by decide)) (by norm_num)
  have hdays : Ascends (inDays millis) (inDays millis') :=
    hhours.div (hnat (n := 24) (by decide)) (by norm_num)
  have hfixed {x : Float} (n : ℕ) (h : isNat x n) : Precedes x x := precedes_self (hnat h)
  have hscaled {x : Float} (n : ℕ) (hn : 0 < n) (h : isNat x n) :
      Precedes (x * count') (x * count) :=
    precedes_mul (hnat h) (by exact_mod_cast hn) hcount' hcount hpq
  have hplain : Precedes count' count := precedes_of_le hcount' hcount hpq
  cases u with
  | year =>
    exact ⟨(hfixed 356 (by decide) _ _ hdays).2 h.1,
      (hscaled 180 (by decide) (by decide) _ _ hdays).1 h.2⟩
  | month =>
    exact ⟨(hfixed 60 (by decide) _ _ hdays).2 h.1,
      (hscaled 7 (by decide) (by decide) _ _ hdays).2 h.2⟩
  | week =>
    exact ⟨(hfixed 14 (by decide) _ _ hdays).2 h.1,
      (hscaled 2 (by decide) (by decide) _ _ hdays).2 h.2⟩
  | day =>
    exact ⟨(hfixed 2 (by decide) _ _ hdays).2 h.1,
      (hscaled 12 (by decide) (by decide) _ _ hhours).2 h.2⟩
  | hour => exact ⟨(hfixed 24 (by decide) _ _ hhours).1 h.1, (hplain _ _ hhours).1 h.2⟩
  | minute => exact ⟨(hfixed 2 (by decide) _ _ hminutes).2 h.1, (hplain _ _ hminutes).1 h.2⟩
  | second =>
    obtain ⟨r, hr, hpos⟩ := isValue_four_fifths
    exact ⟨(hfixed 2 (by decide) _ _ hseconds).2 h.1,
      (precedes_mul hr hpos hcount' hcount hpq _ _ hseconds).1 h.2⟩
  | millisecond => exact (hfixed 0 (by decide) _ _ hmillis).2 h

end Mono

/-! ## Counts and lengths -/

/-- The number of ticks that is reckoned with. -/
def reckonedCount (count : Float) : ℕ :=
  max 2 ⌊exactValue count⌋₊

theorem isValue_effectiveCount {count : Float} (h : count.isFinite) :
    IsValue (effectiveCount count).toModel.unpack .positive (reckonedCount count) := by
  obtain ⟨s, q, hq⟩ := exists_isValue h
  have hleast : IsValue leastCount.toModel.unpack .positive (2 : ℕ) :=
    isValue_of_isNat (by decide)
  rw [reckonedCount, exactValue_eq hq]
  unfold effectiveCount
  dsimp only
  cases s with
  | positive =>
    have hfloor := isValue_floor hq
    have hlt : leastCount < floor count ↔ 2 < ⌊q⌋₊ := by
      rw [lt_iff hleast hfloor]
      exact Nat.cast_lt
    rw [signedBy]
    split
    · next h => rwa [max_eq_right (hlt.1 h).le]
    · next h => rwa [max_eq_left (not_lt.1 (mt hlt.2 h))]
  | negative =>
    -- A negative number has no whole part, and its floor is below two.
    obtain ⟨n, hfloor, -⟩ := exists_isValue_floor hq
    have hnonpos : -q ≤ 0 := neg_nonpos.2 hq.nonneg
    have hlt : ¬ leastCount < floor count := by
      rw [lt_iff_signedBy hleast hfloor]
      simp only [signedBy]
      have : (0 : ℚ) ≤ n := n.cast_nonneg
      push_cast
      linarith
    rwa [if_neg hlt, signedBy, Nat.floor_of_nonpos hnonpos, max_eq_left (by decide)]

variable {cal : Calendar}

/-- The whole milliseconds between the ends of a range. -/
def lengthOf (a b : Instant cal) : ℕ :=
  (a.millisUntil b).natAbs

theorem lengthOf_swap (a b : Instant cal) : lengthOf b a = lengthOf a b := by
  rw [lengthOf, Instant.millisUntil_swap, Int.natAbs_neg, lengthOf]

/-- The calendar is short enough for doubles. -/
theorem lengthOf_lt (a b : Instant cal) : lengthOf a b < 2 ^ 54 :=
  a.natAbs_millisUntil_lt b

theorem infer_eq (a b : Instant cal) (count : Float) :
    infer a b count =
      (ofLength? (Float.ofNat (lengthOf a b)) (effectiveCount count)).getD (finestOf a) :=
  rfl

theorem ofLength?_zero (count : Float) : ofLength? (Float.ofNat 0) count = none := by
  cases h : ofLength? (Float.ofNat 0) count with
  | none => rfl
  | some u =>
    have hadmits := admits_of_ofLength? h
    cases u with
    | millisecond =>
      exact absurd (show (0.0 : Float) < Float.ofNat 0 from hadmits) (by decide +kernel)
    | year | month | week | day | hour | minute | second =>
      exact absurd hadmits.1 (by decide +kernel)

/-- A range of a whole millisecond is not empty. -/
theorem exists_ofLength? {n : ℕ} (hn : 0 < n) (hlt : n < 2 ^ 54) (count : Float) :
    ∃ u, ofLength? (Float.ofNat n) count = some u := by
  have hadmits : Admits (Float.ofNat n) count .millisecond := by
    have hn' : (n : ℚ) < 2 ^ 64 := by exact_mod_cast (show n < 2 ^ 64 by omega)
    obtain ⟨f, hf, hside⟩ := (isRounded_ofNat n).exists_isValue hn'
    have hone : ((1 : ℕ) : ℚ) ≤ f :=
      (hside _ (isShort_natCast (by norm_num))).2 (by exact_mod_cast hn)
    have hzero : IsValue (0.0 : Float).toModel.unpack .positive (0 : ℕ) :=
      isValue_of_isNat (by decide)
    refine (lt_iff hzero hf).2 ?_
    push_cast at hone ⊢
    linarith
  cases h : ofLength? (Float.ofNat n) count with
  | some u => exact ⟨u, rfl⟩
  | none =>
    rw [ofLength?_eq] at h
    exact absurd hadmits (by simpa using List.find?_eq_none.1 h _ (mem_all _))

/-! ## What the unit depends on -/

variable {a b a' b' : Instant cal} {count count' : Float}

/-- Longer ranges and fewer ticks lead to no finer units. -/
theorem fineness_infer_le (hcount : count.isFinite) (hcount' : count'.isFinite)
    (hreckoned : reckonedCount count' ≤ reckonedCount count) (hpos : 0 < lengthOf a b)
    (hlength : lengthOf a b ≤ lengthOf a' b') :
    (infer a' b' count').fineness ≤ (infer a b count).fineness := by
  obtain ⟨u, hu⟩ := exists_ofLength? hpos (lengthOf_lt a b) (effectiveCount count)
  obtain ⟨v, hv⟩ := exists_ofLength? (hpos.trans_le hlength) (lengthOf_lt a' b')
    (effectiveCount count')
  rw [infer_eq, infer_eq, hu, hv, Option.getD_some, Option.getD_some]
  refine fineness_ofLength?_le hv ?_
  exact (admits_of_ofLength? hu).mono (ascends_ofNat hlength (lengthOf_lt a' b'))
    (isValue_effectiveCount hcount') (isValue_effectiveCount hcount)
    (by exact_mod_cast hreckoned)

/-- A range without a whole millisecond has the unit of its first end. -/
theorem infer_of_zero (h : lengthOf a b = 0) (count : Float) : infer a b count = finestOf a := by
  rw [infer_eq, h, ofLength?_zero, Option.getD_none]

theorem reckonedCount_le (hcount : count.isFinite) (hcount' : count'.isFinite)
    (h : count' ≤ count) : reckonedCount count' ≤ reckonedCount count :=
  max_le_max le_rfl (Nat.floor_mono ((le_iff_exactValue hcount' hcount).1 h))

/-- Ranges of one length have one unit, if they have a whole millisecond or their first ends
have one unit. -/
theorem infer_eq_iff (hcount : count.isFinite) (hcount' : count'.isFinite)
    (hreckoned : reckonedCount count = reckonedCount count')
    (hlength : lengthOf a b = lengthOf a' b') :
    infer a b count = infer a' b' count' ↔ 0 < lengthOf a b ∨ finestOf a = finestOf a' := by
  rcases Nat.eq_zero_or_pos (lengthOf a b) with hzero | hpos
  · rw [infer_of_zero hzero, infer_of_zero (hlength ▸ hzero), hzero]
    simp
  · refine iff_of_true (fineness_inj.1 (le_antisymm ?_ ?_)) (.inl hpos)
    · exact fineness_infer_le hcount' hcount hreckoned.le (hlength ▸ hpos) hlength.ge
    · exact fineness_infer_le hcount hcount' hreckoned.ge hpos hlength.le

/-- A range and the same one turned around have one unit, if they have a whole millisecond or
their ends have one unit. -/
theorem infer_swap_iff (a b : Instant cal) (count : Float) :
    infer b a count = infer a b count ↔ 0 < lengthOf a b ∨ finestOf b = finestOf a := by
  rcases Nat.eq_zero_or_pos (lengthOf a b) with hzero | hpos
  · rw [infer_of_zero hzero, infer_of_zero (lengthOf_swap a b ▸ hzero), hzero]
    simp
  · refine iff_of_true ?_ (.inl hpos)
    obtain ⟨u, hu⟩ := exists_ofLength? hpos (lengthOf_lt a b) (effectiveCount count)
    rw [infer_eq, infer_eq, lengthOf_swap, hu]
    rfl

/-- **What the unit of a range depends on.** Of ranges of at least a whole millisecond the longer
one has no finer unit, and with more ticks a range has no coarser one. Only the length in whole
milliseconds counts, and the whole number of ticks from two on, but not the place of the range and
not its direction, unless the range has no whole millisecond and its ends differ in their units. -/
theorem infer_mono (a b a' b' : Instant cal) (count count' : Float) :
    (count.isFinite → count'.isFinite → count' ≤ count → 0 < lengthOf a b →
      lengthOf a b ≤ lengthOf a' b' →
      (infer a' b' count').fineness ≤ (infer a b count).fineness) ∧
    (count.isFinite → count'.isFinite → reckonedCount count = reckonedCount count' →
      lengthOf a b = lengthOf a' b' →
      (infer a b count = infer a' b' count' ↔ 0 < lengthOf a b ∨ finestOf a = finestOf a')) ∧
    (infer b a count = infer a b count ↔ 0 < lengthOf a b ∨ finestOf b = finestOf a) :=
  ⟨fun hcount hcount' hle hpos hlength =>
      fineness_infer_le hcount hcount' (reckonedCount_le hcount hcount' hle) hpos hlength,
    fun hcount hcount' hreckoned hlength => infer_eq_iff hcount hcount' hreckoned hlength,
    infer_swap_iff a b count⟩

/-- Nine days and a year, of which only the first range is to have as many as ten ticks, and a
range of an hour on two days. -/
theorem infer_mono_2020 :
    (infer (.ofDate ⟨2020, 1, 1⟩) (.ofDate ⟨2021, 1, 1⟩) 5.0).fineness ≤
      (infer (.ofDate ⟨2020, 1, 1⟩) (.ofDate ⟨2020, 1, 10⟩) 10.0).fineness ∧
    infer (.ofDate ⟨2020, 1, 1⟩) (.ofClock ⟨2020, 1, 1⟩ 1 0 0 0) 5.0 =
      infer (.ofDate ⟨2020, 1, 2⟩) (.ofClock ⟨2020, 1, 2⟩ 1 0 0 0) 5.0 :=
  ⟨(infer_mono _ _ _ _ 10.0 5.0).1 (by decide) (by decide) (by decide +kernel)
      (by decide +kernel) (by decide +kernel),
    ((infer_mono _ _ _ _ 5.0 5.0).2.1 (by decide) (by decide) rfl (by decide +kernel)).2
      (.inl (by decide +kernel))⟩

/-- Half a microsecond around the turn of a year: ahead it starts with a fraction of a second,
and back with a year. -/
theorem infer_ne_swap :
    Instant.ofDate ⟨2016, 1, 1⟩ ≠ .ofClock ⟨2015, 12, 31⟩ 23 59 59 999999500 ∧
    infer (.ofDate ⟨2016, 1, 1⟩) (.ofClock ⟨2015, 12, 31⟩ 23 59 59 999999500) 5.0 = year ∧
    infer (.ofClock ⟨2015, 12, 31⟩ 23 59 59 999999500) (.ofDate ⟨2016, 1, 1⟩) 5.0 =
      millisecond := by
  decide +kernel

end TimeUnit

end TickLabels
