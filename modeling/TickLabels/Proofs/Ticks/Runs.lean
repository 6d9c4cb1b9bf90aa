import Mathlib
import TickLabels.Proofs.Ticks.Jump
/-!
# Ticks that follow a range

Ticks are extended and moved any number of times, to any bounds. Each call adds
intervals to instants (`DateTicks.additions`). As long as every such addition leads to
an instant and its span has less than `2 ^ 53` milliseconds, the ticks are a stretch of
the grid that they started on. One call keeps this (`TickRange.extend_stretch`,
`TickRange.move_stretch`), so a run of calls does, and everything that is asked of the
ticks is read off the stretch (`TickRange.onGridOf_stretch`).
-/

namespace TickLabels

variable {cal : Calendar}

/-! ## Requests and calls -/

/-- A way to ask for ticks. -/
inductive TickRequest (cal : Calendar) where
  /-- Ticks between two instants, in a unit that is inferred unless it is given. -/
  | cover (a b : Instant cal) (count : Nat) (unit? : Option TimeUnit) (firstDay : Weekday)
  /-- Ticks of a unit from one instant to another, in the order in which they are
  given. Only weeks have a first day. -/
  | ofUnit (unit : TimeUnit) (min max : Instant cal) (count : Nat) (firstDay : Weekday)

namespace TickRequest

/-- The ticks that are calculated. -/
def ticks : TickRequest cal → DateTicks cal
  | cover a b count unit? firstDay => .cover a b count unit? firstDay
  | ofUnit .year min max count _ => .years min max count
  | ofUnit .month min max count _ => .months min max count
  | ofUnit .week min max count firstDay => .weeks min max count firstDay
  | ofUnit .day min max count _ => .days min max count
  | ofUnit .hour min max count _ => .hours min max count
  | ofUnit .minute min max count _ => .minutes min max count
  | ofUnit .second min max count _ => .seconds min max count
  | ofUnit .millisecond min max count _ => .milliseconds min max count

/-- The range that they are laid out for. -/
def range : TickRequest cal → TickRange cal
  | cover a b count unit? firstDay => .between a b count unit? firstDay
  | ofUnit unit min max count firstDay => ⟨min, max, count, unit, firstDay⟩

theorem ticks_eq (q : TickRequest cal) : q.ticks = q.range.ticks := by
  cases q with
  | cover a b count unit? firstDay => exact TickRange.cover_eq_ticks a b count unit? firstDay
  | ofUnit unit min max count firstDay => cases unit <;> rfl

end TickRequest

/-- A call that fits ticks to a range. -/
inductive CoverCall (cal : Calendar) where
  | extend (min max : Instant cal)
  | move (min max : Instant cal)

namespace DateTicks

/-- The ticks after a call. -/
def apply (t : DateTicks cal) : CoverCall cal → DateTicks cal
  | .extend min max => t.extend min max
  | .move min max => t.move min max

/-- The ticks after some calls. -/
def run (t : DateTicks cal) (calls : List (CoverCall cal)) : DateTicks cal :=
  calls.foldl apply t

/-! ## The additions of a call -/

/-- The units between two ticks, at least one, as a double. -/
def pace (t : DateTicks cal) : Float :=
  Float.ofInt (Max.max t.interval 1)

/-- A tick further. -/
def forward (t : DateTicks cal) (i : Instant cal) : Instant cal :=
  i.addRounded t.pace t.unit

/-- A tick back. -/
def backward (t : DateTicks cal) (i : Instant cal) : Instant cal :=
  i.addRounded (-t.pace) t.unit

/-- The units by which a move jumps. -/
def jump (t : DateTicks cal) (min : Instant cal) : Float :=
  floor (t.delta t.min min / t.pace) * t.pace

/-- Where a move jumps to. -/
def landing (t : DateTicks cal) (min : Instant cal) : Instant cal :=
  t.min.addRounded (t.jump min) t.unit

/-- The lowest instant that a move meets from there. -/
def lowest (t : DateTicks cal) (min : Instant cal) : Instant cal :=
  ((t.landing min).stepsDown t.backward min).getLastD (t.landing min)

/-- The first tick after a move. -/
def start (t : DateTicks cal) (min : Instant cal) : Instant cal :=
  (t.lowest min).lastUpTo t.forward min

theorem move_eq (t : DateTicks cal) (min max : Instant cal) :
    t.move min max = ⟨t.start min, ((t.start min).stepsUp t.forward max).getLastD (t.start min),
      t.unit, t.interval, t.offset, t.start min :: (t.start min).stepsUp t.forward max⟩ := rfl

/-- The additions that a call makes, each an instant with the units that are added
to it. Ends are extended from every instant short of a bound. A move adds the jump,
goes down from every instant behind the start of the range, looks ahead from every
instant on the way up to it, and goes on from every instant before the end. -/
def additions (t : DateTicks cal) : CoverCall cal → List (Instant cal × Float)
  | .extend min max =>
    let interval := Float.ofInt t.interval
    let below := t.min.stepsDown (·.addRounded (-interval) t.unit) min
    let above := t.max.stepsUp (·.addRounded interval t.unit) max
    ((t.min :: below).filter (min < ·)).map (·, -interval) ++
      ((t.max :: above).filter (· < max)).map (·, interval)
  | .move min max =>
    let below := (t.landing min).stepsDown t.backward min
    let rest := (t.start min).stepsUp t.forward max
    (t.min, t.jump min) :: ((t.landing min :: below).filter (min < ·)).map (·, -t.pace) ++
      ((t.lowest min).climb t.forward min).map (·, t.pace) ++
      ((t.start min :: rest).filter (· < max)).map (·, t.pace)

theorem mem_map_filter {is : List (Instant cal)} {p : Instant cal → Prop} [DecidablePred p]
    {amount : Float} {i : Instant cal} (hi : i ∈ is) (hp : p i) :
    (i, amount) ∈ (is.filter p).map (·, amount) :=
  List.mem_map.2 ⟨i, List.mem_filter.2 ⟨hi, by simpa using hp⟩, rfl⟩

/-- An addition does not run into an end of the calendar, and it spans less than
`2 ^ 53` milliseconds. -/
structure ExactAddition (unit : TimeUnit) (addition : Instant cal × Float) : Prop where
  hasShift : addition.1.HasShift (toInt64 (roundHalfAway addition.2)) unit
  span_lt : (addition.1.millisUntil (addition.1.addRounded addition.2 unit)).natAbs < 2 ^ 53

instance (unit : TimeUnit) (addition : Instant cal × Float) :
    Decidable (ExactAddition unit addition) :=
  decidable_of_iff (_ ∧ _) ⟨fun h => ⟨h.1, h.2⟩, fun h => ⟨h.hasShift, h.span_lt⟩⟩

/-- All additions of a call are exact. -/
def ExactCall (t : DateTicks cal) (call : CoverCall cal) : Prop :=
  ∀ addition ∈ t.additions call, ExactAddition t.unit addition

instance (t : DateTicks cal) (call : CoverCall cal) : Decidable (t.ExactCall call) :=
  inferInstanceAs (Decidable (∀ addition ∈ t.additions call, _))

/-- All calls of a run are exact. -/
def ExactRun (t : DateTicks cal) : List (CoverCall cal) → Prop
  | [] => True
  | call :: calls => t.ExactCall call ∧ (t.apply call).ExactRun calls

instance decidableExactRun (t : DateTicks cal) : (calls : List (CoverCall cal)) →
    Decidable (t.ExactRun calls)
  | [] => inferInstanceAs (Decidable True)
  | call :: calls =>
    haveI := decidableExactRun (t.apply call) calls
    inferInstanceAs (Decidable (_ ∧ _))

end DateTicks

namespace TickRange

variable {r : TickRange cal}

/-! ## Stretches of the grid -/

/-- The ticks at `n + 1` points in a row. -/
noncomputable def stretch (r : TickRange cal) (j : Int) (n : Nat) : DateTicks cal where
  min := r.point j
  max := r.point (j + n)
  unit := r.unit
  interval := r.numeric.interval
  offset := r.numeric.offset
  ticks := r.points j (n + 1)

/-- The calendar has the first and the last point of a stretch, and so all of them. -/
def HasStretch (r : TickRange cal) (j : Int) (n : Nat) : Prop :=
  r.HasPoint j ∧ r.HasPoint (j + n)

theorem HasStretch.hasPoint (h : r.Unsaturated) {j : Int} {n k : Nat} (hs : r.HasStretch j n)
    (hk : k ≤ n) : r.HasPoint (j + k) :=
  hs.1.between h hs.2 (by omega) (by omega)

theorem getLast?_points (j : Int) (n : Nat) :
    (r.points j (n + 1)).getLast? = some (r.point (j + n)) := by
  unfold points
  rw [List.range_succ, List.map_append, List.getLast?_append]
  rfl

/-- **The ticks of a range are a stretch** from the first point on. -/
theorem ticks_eq_stretch (h : r.Unsaturated) :
    ∃ n, r.ticks = r.stretch 0 n ∧ r.HasStretch 0 n := by
  have hwell := wellFormed_ticks h
  have hnumbers : ∃ n : ℕ, r.numeric.toList =
      (List.range (n + 1)).map fun k : ℕ => r.number (0 + k) := by
    obtain ⟨n, hn⟩ : ∃ n : ℕ, r.numeric.toList =
        (List.range (n + 1)).map fun k : ℕ => r.numeric.first + k * r.numeric.interval :=
      ⟨_, NumericTicks.toList_withStep _ _ _⟩
    refine ⟨n, hn.trans (List.map_congr_left fun k _ => ?_)⟩
    rw [number, Int.zero_add]
  obtain ⟨n, hn⟩ := hnumbers
  have hticks : r.ticks.ticks = r.points 0 (n + 1) := by
    rw [ticks_ticks h, hn, List.map_map]
    rfl
  have hmem : ∀ k : ℕ, k ≤ n → r.HasPoint (0 + k) := fun k hk => by
    refine h _ ?_
    rw [hn]
    exact List.mem_map.2 ⟨k, List.mem_range.2 (by omega), rfl⟩
  have hmin := hwell.head?_eq
  have hmax := hwell.getLast?_eq
  rw [hticks, points_succ] at hmin
  rw [hticks, getLast?_points] at hmax
  refine ⟨n, ?_, by simpa using hmem 0 (Nat.zero_le n), hmem n (Nat.le_refl n)⟩
  calc r.ticks = ⟨r.ticks.min, r.ticks.max, r.unit, r.numeric.interval, r.numeric.offset,
        r.ticks.ticks⟩ := rfl
    _ = r.stretch 0 n := by
        rw [← Option.some.inj hmin, ← Option.some.inj hmax, hticks]
        rfl

/-! ## Extending -/

/-- What reaches a bound already is not extended. -/
theorem extend_eq_self {t : DateTicks cal} {min max : Instant cal} (hmin : t.min ≤ min)
    (hmax : max ≤ t.max) : t.extend min max = t := by
  have hbelow : ∀ step, t.min.stepsDown step min = [] := fun step => by
    rw [Instant.stepsDown, if_neg fun h => Std.not_lt.2 hmin h.1]
  have habove : ∀ step, t.max.stepsUp step max = [] := fun step => by
    rw [Instant.stepsUp, if_neg fun h => Std.not_lt.2 hmax h.1]
  unfold DateTicks.extend
  dsimp only
  rw [hbelow, habove]
  simp

/-- **An extended stretch** is a stretch that reaches its bounds. -/
theorem extend_stretch (h : r.Unsaturated) {j : Int} {n : ℕ} (hs : r.HasStretch j n)
    {min max : Instant cal} (hexact : (r.stretch j n).ExactCall (.extend min max)) :
    ∃ k m, (r.stretch j n).extend min max = r.stretch k m ∧ r.HasStretch k m ∧
      r.point k ≤ min ∧ max ≤ r.point (k + m) := by
  have hdown : ∀ k, r.HasPoint k →
      r.point k ∈ r.point j :: (r.point j).stepsDown r.down min →
      min < r.point k → r.HasPoint (k - 1) := fun k hk hmem hlt =>
    hasPoint_of_hasShift hk (toInt64_neg_interval h)
      (hexact _ (List.mem_append_left _ (DateTicks.mem_map_filter hmem hlt))).hasShift
  have hup : ∀ k, r.HasPoint k →
      r.point k ∈ r.point (j + n) :: (r.point (j + n)).stepsUp r.up max →
      r.point k < max → r.HasPoint (k + 1) := fun k hk hmem hlt =>
    hasPoint_of_hasShift hk (toInt64_interval h)
      (hexact _ (List.mem_append_right _ (DateTicks.mem_map_filter hmem hlt))).hasShift
  obtain ⟨a, hbelow, hfirst, hlow, hmin, -⟩ := stepsDown_point h hs.1 hdown
  obtain ⟨b, habove, hhigh, hmax⟩ := stepsUp_point h hs.2 hup
  have hend : j - a + ((a + n + b : ℕ) : ℤ) = j + n + b := by push_cast; omega
  have hlast : (r.points (j + n + 1) b).getLastD (r.point (j + n)) = r.point (j + n + b) := by
    have := getLast?_points (r := r) (j + n) b
    rw [points_succ, List.getLast?_cons] at this
    rw [List.getLastD_eq_getLast?]
    exact Option.some.inj this
  refine ⟨j - a, a + n + b, ?_, ⟨hlow, by rwa [hend]⟩, hmin, by rwa [hend]⟩
  calc (r.stretch j n).extend min max
      = ⟨((r.point j).stepsDown r.down min).getLastD (r.point j),
          ((r.point (j + n)).stepsUp r.up max).getLastD (r.point (j + n)), r.unit,
          r.numeric.interval, r.numeric.offset, ((r.point j).stepsDown r.down min).reverse ++
            r.points j (n + 1) ++ (r.point (j + n)).stepsUp r.up max⟩ := rfl
    _ = r.stretch (j - a) (a + n + b) := by
        rw [hfirst, hbelow, habove, hlast, stretch, hend]
        congr 1
        have hfrom : j - a + ((a : ℕ) : ℤ) = j := by omega
        have hto : j - a + ((a + (n + 1) : ℕ) : ℤ) = j + n + 1 := by push_cast; omega
        rw [show a + n + b + 1 = a + (n + 1) + b by omega, points_add _ (a + (n + 1)),
          points_add _ a, hfrom, hto]

/-! ## Moving -/

theorem pace_stretch (h : r.Unsaturated) (j : Int) (n : ℕ) :
    (r.stretch j n).pace = Float.ofInt r.numeric.interval :=
  congrArg Float.ofInt (Int.max_eq_left (interval_pos h))

theorem forward_stretch (h : r.Unsaturated) (j : Int) (n : ℕ) :
    (r.stretch j n).forward = r.up := by
  funext i
  rw [DateTicks.forward, pace_stretch h]
  rfl

theorem backward_stretch (h : r.Unsaturated) (j : Int) (n : ℕ) :
    (r.stretch j n).backward = r.down := by
  funext i
  rw [DateTicks.backward, pace_stretch h]
  rfl

theorem jump_stretch (h : r.Unsaturated) (j : Int) (n : ℕ) (min : Instant cal) :
    (r.stretch j n).jump min = r.jump j min := by
  rw [DateTicks.jump, pace_stretch h]
  rfl

/-- A stretch that is moved to a point is a stretch. -/
theorem move_of_start (h : r.Unsaturated) {j k : Int} {n m : ℕ} {min max : Instant cal}
    (hstart : (r.stretch j n).start min = r.point k)
    (hsteps : (r.point k).stepsUp r.up max = r.points (k + 1) m) :
    (r.stretch j n).move min max = r.stretch k m := by
  have hlast := getLast?_points (r := r) k m
  rw [points_succ, List.getLast?_cons] at hlast
  rw [DateTicks.move_eq, hstart, forward_stretch h, hsteps, List.getLastD_eq_getLast?,
    Option.some.inj hlast, ← points_succ]
  rfl

/-- **A moved stretch** is the stretch from the last point that is not after the start
of the range. -/
theorem move_stretch (h : r.Unsaturated) {j : Int} {n : ℕ} (hs : r.HasStretch j n)
    {min max : Instant cal} (hexact : (r.stretch j n).ExactCall (.move min max)) :
    ∃ k m, (r.stretch j n).move min max = r.stretch k m ∧ r.HasStretch k m ∧
      r.HasPoint (k + 1) ∧ r.point k ≤ min ∧ min < r.point (k + 1) ∧
      (r.point k).stepsUp r.up max = r.points (k + 1) m ∧
      ((r.point k).millisUntil (r.point (k + 1))).natAbs < 2 ^ 53 := by
  unfold DateTicks.ExactCall DateTicks.additions at hexact
  dsimp only at hexact
  rw [pace_stretch h, jump_stretch h, forward_stretch h, backward_stretch h] at hexact
  -- The jump leads to a point.
  have hjump := hexact _ (List.mem_append_left _ (List.mem_append_left _ List.mem_cons_self))
  obtain ⟨i, hnear, hpoint⟩ := jump_point h hs.1 hjump.hasShift hjump.span_lt
  have hlanding : (r.stretch j n).landing min = r.point (j + i) := by
    rw [DateTicks.landing, jump_stretch h]
    exact hnear
  rw [hlanding] at hexact
  -- From there the walk goes down, but not beyond the first point that is not after
  -- the start of the range.
  obtain ⟨a, -, hlow, hpoint', hmin, -⟩ := stepsDown_point h hpoint fun k hk hmem hlt =>
    hasPoint_of_hasShift hk (toInt64_neg_interval h) (hexact _ (List.mem_append_left _
      (List.mem_append_left _
        (List.mem_cons_of_mem _ (DateTicks.mem_map_filter hmem hlt))))).hasShift
  have hlowest : (r.stretch j n).lowest min = r.point (j + i - a) := by
    rw [DateTicks.lowest, hlanding, backward_stretch h, hlow]
  rw [hlowest] at hexact
  -- Then it goes up, to the last such point.
  obtain ⟨k, hclimb, hk, hk', hmem, hkmin, hkmin'⟩ := lastUpTo_point h hpoint' hmin
    fun k hk hmem => hasPoint_of_hasShift hk (toInt64_interval h) (hexact _
      (List.mem_append_left _ (List.mem_append_right _
        (List.mem_map.2 ⟨_, hmem, rfl⟩)))).hasShift
  have hstart : (r.stretch j n).start min = r.point k := by
    rw [DateTicks.start, hlowest, forward_stretch h, hclimb]
  have hspan := (hexact _ (List.mem_append_left _ (List.mem_append_right _
    (List.mem_map.2 ⟨_, hmem, rfl⟩)))).span_lt
  change ((r.point k).millisUntil (r.up (r.point k))).natAbs < 2 ^ 53 at hspan
  rw [up_point h hk hk'] at hspan
  rw [hstart] at hexact
  obtain ⟨m, hsteps, hend, -⟩ := stepsUp_point h hk fun i hi hmem hlt =>
    hasPoint_of_hasShift hi (toInt64_interval h) (hexact _ (List.mem_append_right _
      (DateTicks.mem_map_filter hmem hlt))).hasShift
  exact ⟨k, m, move_of_start h hstart hsteps, ⟨hk, hend⟩, hk', hkmin, hkmin', hsteps, hspan⟩

/-- **To move once more changes nothing.** -/
theorem move_again (h : r.Unsaturated) {k : Int} {m : ℕ} {min max : Instant cal}
    (hs : r.HasStretch k m) (hnext : r.HasPoint (k + 1)) (hle : r.point k ≤ min)
    (hlt : min < r.point (k + 1)) (hsteps : (r.point k).stepsUp r.up max = r.points (k + 1) m)
    (hspan : ((r.point k).millisUntil (r.point (k + 1))).natAbs < 2 ^ 53) :
    (r.stretch k m).move min max = r.stretch k m := by
  obtain ⟨i, hnear, hpoint⟩ := jump_again h hs.1 hnext hle hlt hspan
  have hlanding : (r.stretch k m).landing min = r.point (k + i) := by
    rw [DateTicks.landing, jump_stretch h]
    exact hnear
  have hlowest : (r.stretch k m).lowest min = r.point k := by
    obtain ⟨a, -, hlow, hpoint', hmin, hbefore⟩ := stepsDown_point h hpoint
      fun l hl _ (hlt' : min < r.point l) => by
        have hkl : k < l := (point_lt_iff h hs.1 hl).1 (Std.lt_of_le_of_lt hle hlt')
        exact hs.1.between h hl (by omega) (by omega)
    -- The walk down from there ends where it started from.
    have hhigh : k + i - a < k + 1 :=
      (point_lt_iff h hpoint' hnext).1 (Std.lt_of_le_of_lt hmin hlt)
    have hend : k + i - a = k := by
      rcases hbefore with rfl | hbefore
      · omega
      · have hnext' : r.HasPoint (k + i - a + 1) := hpoint'.between h hnext (by omega) (by omega)
        have : k < k + i - a + 1 :=
          (point_lt_iff h hs.1 hnext').1 (Std.lt_of_le_of_lt hle hbefore)
        omega
    rw [DateTicks.lowest, hlanding, backward_stretch h, hlow, hend]
  have hstart : (r.stretch k m).start min = r.point k := by
    rw [DateTicks.start, hlowest, forward_stretch h, Instant.lastUpTo, if_neg]
    rintro ⟨-, hup⟩
    rw [up_point h hs.1 hnext] at hup
    exact absurd hlt (Std.not_lt.2 hup)
  exact move_of_start h hstart hsteps

/-! ## Runs -/

/-- **A call** leads from stretch to stretch, and to repeat it changes nothing. -/
theorem apply_stretch (h : r.Unsaturated) {j : Int} {n : ℕ} (hs : r.HasStretch j n)
    {call : CoverCall cal} (hexact : (r.stretch j n).ExactCall call) :
    ∃ k m, (r.stretch j n).apply call = r.stretch k m ∧ r.HasStretch k m ∧
      (r.stretch k m).apply call = r.stretch k m := by
  cases call with
  | extend min max =>
    obtain ⟨k, m, hextend, hs', hmin, hmax⟩ := extend_stretch h hs hexact
    exact ⟨k, m, hextend, hs', extend_eq_self hmin hmax⟩
  | move min max =>
    obtain ⟨k, m, hmove, hs', hnext, hle, hlt, hsteps, hspan⟩ := move_stretch h hs hexact
    exact ⟨k, m, hmove, hs', move_again h hs' hnext hle hlt hsteps hspan⟩

/-- **A run** does so as well. -/
theorem run_stretch (h : r.Unsaturated) {calls : List (CoverCall cal)} {j : Int} {n : ℕ}
    (hs : r.HasStretch j n) (hexact : (r.stretch j n).ExactRun calls) :
    ∃ k m, (r.stretch j n).run calls = r.stretch k m ∧ r.HasStretch k m ∧
      ∀ call ∈ calls.getLast?, (r.stretch k m).apply call = r.stretch k m := by
  induction calls generalizing j n with
  | nil => exact ⟨j, n, rfl, hs, by simp⟩
  | cons call calls ih =>
    obtain ⟨hcall, hcalls⟩ := hexact
    obtain ⟨k, m, happly, hs', hagain⟩ := apply_stretch h hs hcall
    rw [happly] at hcalls
    obtain ⟨k', m', hrun, hs'', hlast⟩ := ih hs' hcalls
    refine ⟨k', m', ?_, hs'', ?_⟩
    · rw [← hrun, ← happly]
      rfl
    · cases calls with
      | nil =>
        -- No call comes after this one, so the ticks are those that it leaves.
        have hsame : r.stretch k m = r.stretch k' m' := hrun
        rw [← hsame]
        simpa using hagain
      | cons next calls =>
        rw [List.getLast?_cons_cons]
        exact hlast

end TickRange

/-! ## What a reader expects of ticks that follow a range -/

/-- Ticks are on the grid of the original ones. -/
structure DateTicks.OnGridOf (t original : DateTicks cal) : Prop where
  ne_nil : t.ticks ≠ []
  /-- Every tick is later than those before it. -/
  pairwise_lt : t.ticks.Pairwise (· < ·)
  head?_eq : t.ticks.head? = some t.min
  getLast?_eq : t.ticks.getLast? = some t.max
  unit_eq : t.unit = original.unit
  interval_eq : t.interval = original.interval
  offset_eq : t.offset = original.offset
  /-- The next tick is an interval away. -/
  isChain_up : t.ticks.IsChain fun a b => a.addRounded (Float.ofInt t.interval) t.unit = b
  /-- And so is the one before. -/
  isChain_down : t.ticks.IsChain fun a b => b.addRounded (-Float.ofInt t.interval) t.unit = a
  /-- Every tick is a whole number of intervals away from the first of the original
  ticks. -/
  exists_intervals : ∀ i ∈ t.ticks, ∃ j : Int,
    original.min.addRounded (Float.ofInt (j * original.interval)) original.unit = i

namespace TickRange

variable {r : TickRange cal}

/-- Points in a row are a list of points. -/
theorem exists_of_mem_points {j : Int} {n : ℕ} {i : Instant cal} (hi : i ∈ r.points j (n + 1)) :
    ∃ k : ℕ, k ≤ n ∧ r.point (j + k) = i := by
  obtain ⟨k, hk, hi⟩ := List.mem_map.1 hi
  exact ⟨k, Nat.le_of_lt_succ (List.mem_range.1 hk), hi⟩

theorem pairwise_points (h : r.Unsaturated) {j : Int} {n : ℕ} (hs : r.HasStretch j n) :
    (r.points j (n + 1)).Pairwise (· < ·) := by
  unfold points
  rw [List.pairwise_map]
  refine List.pairwise_lt_range.imp_of_mem fun {k l} hk hl hlt => ?_
  rw [List.mem_range] at hk hl
  rw [point_lt_iff h (hs.hasPoint h (by omega)) (hs.hasPoint h (by omega))]
  omega

/-- What holds from each point to the next holds all along. -/
theorem isChain_points {R : Instant cal → Instant cal → Prop} (h : r.Unsaturated) {j : Int} {n : ℕ}
    (hs : r.HasStretch j n)
    (hR : ∀ k, r.HasPoint k → r.HasPoint (k + 1) → R (r.point k) (r.point (k + 1))) :
    (r.points j (n + 1)).IsChain R := by
  unfold points
  rw [List.isChain_map, List.isChain_range_succ]
  intro k hk
  have hnext : j + ((k + 1 : ℕ) : ℤ) = j + k + 1 := by push_cast; omega
  have hk' := hs.hasPoint h (show k + 1 ≤ n by omega)
  rw [hnext] at hk' ⊢
  exact hR _ (hs.hasPoint h (by omega)) hk'

/-- **A stretch is on the grid**, and its ticks are whole intervals from the first
point if their spans from there are short. -/
theorem onGridOf_stretch (h : r.Unsaturated) {j : Int} {n m : ℕ} (hs : r.HasStretch j n)
    (hzero : r.HasPoint 0)
    (hspans : ∀ i ∈ r.points j (n + 1), ((r.point 0).millisUntil i).natAbs < 2 ^ 53) :
    (r.stretch j n).OnGridOf (r.stretch 0 m) where
  ne_nil := by
    rw [stretch, points_succ]
    simp
  pairwise_lt := pairwise_points h hs
  head?_eq := by
    rw [stretch, points_succ]
    rfl
  getLast?_eq := getLast?_points j n
  unit_eq := rfl
  interval_eq := rfl
  offset_eq := rfl
  isChain_up := isChain_points h hs fun _ hk hnext => up_point h hk hnext
  isChain_down := isChain_points h hs fun k hk hnext => by
    have hdown := down_point h (j := k + 1) hnext (by rwa [Int.add_sub_cancel])
    rwa [Int.add_sub_cancel] at hdown
  exists_intervals := by
    intro i hi
    obtain ⟨k, hk, rfl⟩ := exists_of_mem_points hi
    have hspan := hspans _ hi
    have hpoint := hs.hasPoint h hk
    generalize j + (k : ℤ) = l at *
    rw [← Int.zero_add l] at hspan hpoint
    -- A short span has so few units that their number is exact.
    have hsmall := natAbs_lt_of_span_point hzero hpoint hspan
    refine ⟨l, ?_⟩
    have hadd := addRounded_point hzero (toInt64_ofInt hsmall) hpoint
    rwa [Int.zero_add] at hadd

end TickRange

/-- **Ticks stay on their grid**, whatever calls are made and whatever their bounds
are, as long as no addition runs into an end of the calendar and all spans are shorter
than `2 ^ 53` milliseconds. To repeat the last call changes nothing. -/
theorem TickRequest.onGridOf_run (q : TickRequest cal) (calls : List (CoverCall cal))
    (h : q.range.Unsaturated) (hexact : q.ticks.ExactRun calls)
    (hspans : ∀ i ∈ (q.ticks.run calls).ticks, (q.ticks.min.millisUntil i).natAbs < 2 ^ 53) :
    (q.ticks.run calls).OnGridOf q.ticks ∧
      ∀ call ∈ calls.getLast?, (q.ticks.run calls).apply call = q.ticks.run calls := by
  rw [q.ticks_eq] at *
  obtain ⟨n, hticks, hs⟩ := TickRange.ticks_eq_stretch h
  rw [hticks] at hexact hspans ⊢
  obtain ⟨k, m, hrun, hs', hagain⟩ := TickRange.run_stretch h hs hexact
  rw [hrun] at hspans ⊢
  exact ⟨TickRange.onGridOf_stretch h hs' hs.1 hspans, hagain⟩

/-- The quarters of 2020. -/
def TickRequest.quarters : TickRequest civil :=
  .cover (.ofDate ⟨2020, 1, 31⟩) (.ofDate ⟨2021, 3, 15⟩) 5 (some .month) .monday

/-- The range is scrolled back and forth. -/
def CoverCall.scrolling : List (CoverCall civil) :=
  [.extend (.ofDate ⟨2019, 11, 15⟩) (.ofDate ⟨2021, 5, 1⟩),
    .move (.ofDate ⟨2022, 8, 20⟩) (.ofDate ⟨2023, 2, 1⟩)]

/-- Quarters stay quarters. -/
theorem TickRequest.onGridOf_run_quarters :
    quarters.range.Unsaturated ∧ quarters.ticks.ExactRun CoverCall.scrolling ∧
      (∀ i ∈ (quarters.ticks.run CoverCall.scrolling).ticks,
        (quarters.ticks.min.millisUntil i).natAbs < 2 ^ 53) ∧
      (quarters.ticks.run CoverCall.scrolling).OnGridOf quarters.ticks ∧
      ∀ call ∈ CoverCall.scrolling.getLast?,
        (quarters.ticks.run CoverCall.scrolling).apply call =
          quarters.ticks.run CoverCall.scrolling := by
  have hunsaturated : quarters.range.Unsaturated := by
    unfold TickRange.Unsaturated
    decide +kernel
  have hexact : quarters.ticks.ExactRun CoverCall.scrolling := by decide +kernel
  have hspans : ∀ i ∈ (quarters.ticks.run CoverCall.scrolling).ticks,
      (quarters.ticks.min.millisUntil i).natAbs < 2 ^ 53 := by decide +kernel
  exact ⟨hunsaturated, hexact, hspans, onGridOf_run quarters _ hunsaturated hexact hspans⟩

end TickLabels
