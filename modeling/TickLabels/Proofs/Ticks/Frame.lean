import TickLabels.Proofs.Ticks.Coverage
import TickLabels.Proofs.Ticks.Enclosure
/-!
# The ticks at the start of a range

The numbers of the ticks enclose the numbers of the range, whatever the unit is
(`TickRange.encloses_numeric`). So there are two ticks at least, and to know where the
range starts is to compare it with the places of the first two
(`TickRange.startsAround_iff`).
-/

namespace TickLabels

variable {cal : Calendar}

/-- The range starts at the first tick or behind it, and before the second. -/
def DateTicks.StartsAround (t : DateTicks cal) (min : Instant cal) : Prop :=
  ∃ first second rest, t.ticks = first :: second :: rest ∧ first ≤ min ∧ min < second

/-- **A range of positive length has a second tick.** -/
theorem NumericTicks.Encloses.exists_second {t : NumericTicks} {low high : ℤ}
    (h : t.Encloses low high) (hlt : low < high) :
    ∃ rest, t.toList = t.first :: (t.first + t.interval) :: rest := by
  have hfirst := h.first_le
  have hlast := h.le_last
  have hchain := h.isChain
  unfold last at hlast
  unfold toList at hchain ⊢
  cases hrest : t.rest with
  | nil =>
    -- A single tick would be on both sides of the range.
    rw [hrest, List.getLastD_nil] at hlast
    omega
  | cons second rest =>
    rw [hrest, List.isChain_cons_cons] at hchain
    have hsecond : second = t.first + t.interval := by
      have := hchain.1
      omega
    exact ⟨rest, by rw [hsecond]⟩

namespace TickRange

variable {r : TickRange cal}

/-- **The numbers of the ticks enclose those of the range.** -/
theorem encloses_numeric (h : r.Unsaturated) (hle : r.min ≤ r.max) :
    r.numeric.Encloses (Min.min r.first r.last) (NumericTicks.upper r.first r.last) := by
  have hpos := interval_pos h
  have hroom := upper_add_interval_le h hle
  have hceil := (ceilDiv_mul_bounds hpos (NumericTicks.upper r.first r.last)).2
  have hfirst := inside_numeric h _ r.numeric.first_mem_toList
  rw [(numeric_spec h).2.1] at hfirst
  have hfit : NumericTicks.MultiplesFit (Min.min r.first r.last)
      (NumericTicks.upper r.first r.last) r.numeric.interval := by
    unfold NumericTicks.MultiplesFit
    omega
  exact (NumericTicks.encloses_cover hfit).2

/-- All of them are multiples of the interval. -/
theorem dvd_of_mem_numeric (h : r.Unsaturated) {n : ℤ} (hn : n ∈ r.numeric.toList) :
    r.numeric.interval ∣ n := by
  have hlist : r.numeric.toList =
      (List.range (NumericTicks.stepsUntil r.numeric.first (NumericTicks.upper r.first r.last)
        r.numeric.interval + 1)).map fun i : ℕ => r.numeric.first + i * r.numeric.interval :=
    NumericTicks.toList_withStep _ _ _
  rw [hlist] at hn
  obtain ⟨i, -, rfl⟩ := List.mem_map.1 hn
  rw [(numeric_spec h).2.1]
  exact Int.dvd_add (dvd_mul_left _ _) (dvd_mul_left _ _)

/-- The ticks are the places of multiples of the interval. -/
theorem exists_of_mem_ticks (h : r.Unsaturated) {i : Instant cal} (hi : i ∈ r.ticks.ticks) :
    ∃ n, r.ticks.interval ∣ n ∧ Representable (r.place n) ∧ i = .ofNanos (r.place n) := by
  rw [ticks_ticks h] at hi
  obtain ⟨n, hn, rfl⟩ := List.mem_map.1 hi
  exact ⟨n, dvd_of_mem_numeric h hn, h n hn, rfl⟩

/-- The number of the second tick. -/
def second (r : TickRange cal) : ℤ :=
  r.numeric.first + r.numeric.interval

theorem exists_ticks_eq (h : r.Unsaturated) (hle : r.min ≤ r.max) :
    (∃ rest, r.ticks.ticks =
        .ofNanos (r.place r.numeric.first) :: .ofNanos (r.place r.second) :: rest) ∧
      Representable (r.place r.second) := by
  obtain ⟨rest, hlist⟩ := (encloses_numeric h hle).exists_second
    (NumericTicks.lower_lt_upper r.first_lt_maxInt64 r.last)
  refine ⟨⟨_, by rw [ticks_ticks h, hlist]; rfl⟩, h _ ?_⟩
  rw [hlist]
  exact List.mem_cons_of_mem _ List.mem_cons_self

/-- **Where a range starts** is told by the first two ticks. -/
theorem startsAround_iff (h : r.Unsaturated) (hle : r.min ≤ r.max) {i : Instant cal} :
    r.ticks.StartsAround i ↔
      .ofNanos (r.place r.numeric.first) ≤ i ∧ i < .ofNanos (r.place r.second) := by
  obtain ⟨⟨rest, hticks⟩, -⟩ := exists_ticks_eq h hle
  unfold DateTicks.StartsAround
  rw [hticks]
  constructor
  · rintro ⟨first, second, rest', heq, hstart⟩
    obtain ⟨rfl, rfl, -⟩ : _ = first ∧ _ = second ∧ _ := by simpa using heq
    exact hstart
  · exact fun hstart => ⟨_, _, _, rfl, hstart⟩

/-- The second tick is behind the number in which the range starts. -/
theorem lt_second (h : r.Unsaturated) (hle : r.min ≤ r.max) (hfirst : r.first ≤ r.last) :
    r.first < r.second := by
  have := (encloses_numeric h hle).lt_second
  unfold second
  omega

end TickRange

end TickLabels
