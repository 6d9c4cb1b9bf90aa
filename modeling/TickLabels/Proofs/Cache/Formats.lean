import TickLabels.Cache.Format
import TickLabels.Proofs.Cache.Recency
import TickLabels.Render.Number

/-!
# The cache of formats is not seen

Formats are read by way of one cache for all callers, and nobody can tell: every format is
answered with what reading it anew gives, success or error, whatever was read before. The
invariant is that every entry is what its key reads as (`RecentMap.Computed`). A format
that is refused leaves no entry, and what is found or stored keeps the invariant. It is all
the same which store keeps the entries, and that it is made when it is first needed.
-/

namespace TickLabels

/-! ## Maps in front of a function -/

namespace RecentMap

variable {κ ν ε : Type} [DecidableEq κ]

/-- The entries are values of `compute`, and there is room for all of them. -/
structure Computed (m : RecentMap κ ν) (compute : κ → Except ε ν) : Prop where
  size_le : m.size ≤ m.capacity
  entry_eq : ∀ entry ∈ m.entries, compute entry.1 = .ok entry.2

variable {m : RecentMap κ ν} {compute : κ → Except ε ν} {key : κ} {value : ν}

omit [DecidableEq κ] in
theorem computed_empty (capacity : Nat) (compute : κ → Except ε ν) :
    (empty capacity : RecentMap κ ν).Computed compute :=
  ⟨Nat.zero_le _, nofun⟩

theorem mem_of_find? (h : m.find? key = some value) : (key, value) ∈ m.entries := by
  obtain ⟨front, back, heq, -⟩ := List.lookup_eq_some_iff.1 h
  simp [heq]

namespace Computed

/-- What is found is what would be computed. -/
theorem compute_eq (hm : m.Computed compute) (h : m.find? key = some value) :
    compute key = .ok value :=
  hm.entry_eq _ (mem_of_find? h)

/-- **A use keeps the entries computed**, if its own value is. -/
theorem touch (hm : m.Computed compute) (h : compute key = .ok value) :
    (m.touch key value).Computed compute where
  size_le := m.size_touch_le key value
  entry_eq entry hentry := by
    rcases List.mem_cons.1 (List.mem_of_mem_take hentry) with rfl | hentry
    · exact h
    · exact hm.entry_eq _ (List.mem_filter.1 hentry).1

/-- **Fetching is computing**, found or not. -/
theorem fetch_fst (hm : m.Computed compute) (key : κ) :
    (m.fetch key compute).1 = compute key := by
  unfold fetch
  split
  · next h => exact (hm.compute_eq h).symm
  · split <;> simp_all

/-- And keeps the entries computed. What cannot be computed leaves them as they are. -/
theorem fetch_snd (hm : m.Computed compute) (key : κ) :
    (m.fetch key compute).2.Computed compute := by
  unfold fetch
  split
  · next h => exact hm.touch (hm.compute_eq h)
  · split
    · next h => exact hm.touch h
    · exact hm

end Computed

theorem capacity_fetch (m : RecentMap κ ν) (key : κ) (compute : κ → Except ε ν) :
    (m.fetch key compute).2.capacity = m.capacity := by
  unfold fetch
  split
  · rfl
  · split <;> rfl

end RecentMap

/-! ## Caches of formats -/

/-- A cache of formats as its users see it, and the entries it holds. -/
structure FormatCache where
  State : Type
  start : State
  parse : State → Text → Except FormatError NumberFormat × State
  entries : State → List (Text × NumberFormat)

namespace FormatCache

variable (cache : FormatCache)

/-- The cache after the formats of a history were asked for, in the order of time. -/
def after (history : List Text) : cache.State :=
  history.foldl (fun state format => (cache.parse state format).2) cache.start

theorem after_append (history : List Text) (format : Text) :
    cache.after (history ++ [format]) = (cache.parse (cache.after history) format).2 := by
  rw [after, after, List.foldl_append]
  rfl

/-- What a format is answered with after a history. -/
def answer (history : List Text) (format : Text) : Except FormatError NumberFormat :=
  (cache.parse (cache.after history) format).1

/-- A number formatted with the help of the cache. -/
def formatWith (history : List Text) (options : FormatOptions) (template? : Option Text)
    (format : Text) (value : Float) : Except FormatError Text :=
  (cache.answer history (options.formatInUse format)).map
    fun f => f.format options.culture template? value

/-- **The cache is not seen**: reading and formatting give what they give without it. It
never holds more than a hundred entries, each of which is what its key reads as, and so
none of a format that is refused. -/
structure IsUnobservable : Prop where
  answer_eq (history : List Text) (format : Text) :
    cache.answer history format = NumberFormat.parse format
  formatWith_eq (history : List Text) (options : FormatOptions) (template? : Option Text)
    (format : Text) (value : Float) :
    cache.formatWith history options template? format value =
      TickLabels.formatWith options template? format value
  length_le (history : List Text) : (cache.entries (cache.after history)).length ≤ 100
  entry_eq (history : List Text) :
    ∀ entry ∈ cache.entries (cache.after history), NumberFormat.parse entry.1 = .ok entry.2
  not_held_of_refused (history : List Text) {format : Text} {e : FormatError}
    (h : NumberFormat.parse format = .error e) :
    ∀ entry ∈ cache.entries (cache.after history), entry.1 ≠ format

section View

variable {cache} (view : cache.State → RecentMap Text NumberFormat)
  (hstart : view cache.start = .empty RecentFormats.capacity)
  (hparse : ∀ state format, (view state).fetch format NumberFormat.parse =
    ((cache.parse state format).1, view (cache.parse state format).2))

include hstart hparse

/-- **What a run keeps**: the room there is, and that the entries are computed. -/
theorem computed_after (history : List Text) :
    (view (cache.after history)).Computed NumberFormat.parse ∧
      (view (cache.after history)).capacity = RecentFormats.capacity := by
  induction history using List.reverseRecOn with
  | nil =>
    change (view cache.start).Computed _ ∧ (view cache.start).capacity = _
    rw [hstart]
    exact ⟨RecentMap.computed_empty _ _, rfl⟩
  | append_singleton history format ih =>
    obtain ⟨hcomputed, hcapacity⟩ := ih
    have hview := congrArg Prod.snd (hparse (cache.after history) format)
    dsimp only at hview
    rw [after_append, ← hview]
    exact ⟨hcomputed.fetch_snd format, (RecentMap.capacity_fetch _ _ _).trans hcapacity⟩

/-- **A cache that fetches from the map it shows is not seen.** -/
theorem IsUnobservable.of_view (hentries : ∀ state, cache.entries state = (view state).entries) :
    cache.IsUnobservable := by
  have hanswer (history : List Text) (format : Text) :
      cache.answer history format = NumberFormat.parse format := by
    have hcomputed := (computed_after view hstart hparse history).1
    rw [← hcomputed.fetch_fst format, hparse]
    rfl
  have hentry (history : List Text) :
      ∀ entry ∈ cache.entries (cache.after history), NumberFormat.parse entry.1 = .ok entry.2 := by
    rw [hentries]
    exact (computed_after view hstart hparse history).1.entry_eq
  refine ⟨hanswer, fun history options template? format value => ?_, fun history => ?_, hentry,
    fun history format e h entry hmem heq => ?_⟩
  · rw [formatWith, hanswer]
    rfl
  · obtain ⟨hcomputed, hcapacity⟩ := computed_after view hstart hparse history
    rw [hentries]
    exact Nat.le_trans hcomputed.size_le (Nat.le_of_eq hcapacity)
  · have hok := hentry history entry hmem
    rw [heq, h] at hok
    contradiction

end View

end FormatCache

/-- The formats read last, as their users see them. -/
def RecentFormats.cache : FormatCache where
  State := RecentFormats
  start := .empty
  parse := RecentFormats.parse
  entries state := state.entries.entries

namespace RecencyStore

variable (store : RecencyStore Text NumberFormat)

/-- A format read by way of a store, which is made when it is first needed. A format that
is not found there is stored, if it is not refused. -/
def parseFormat (state? : Option store.State) (format : Text) :
    Except FormatError NumberFormat × Option store.State :=
  match store.get (state?.getD (store.empty RecentFormats.capacity)) format with
  | (some f, state) => (.ok f, some state)
  | (none, state) =>
    match NumberFormat.parse format with
    | .ok f => (.ok f, some (store.put state format f))
    | .error e => (.error e, some state)

/-- The entries in a store, none if there is no store yet. -/
def shown (state? : Option store.State) : RecentMap Text NumberFormat :=
  (state?.map store.map).getD (.empty RecentFormats.capacity)

/-- The cache of formats over the store. -/
def formatCache : FormatCache where
  State := Option store.State
  start := none
  parse := store.parseFormat
  entries state? := (store.shown state?).entries

/-- A store that is not there yet is like one without entries. -/
theorem map_getD (state? : Option store.State) :
    store.map (state?.getD (store.empty RecentFormats.capacity)) = store.shown state? := by
  cases state? with
  | none => exact store.map_empty _
  | some state => rfl

/-- **Reading by way of a store** is fetching from the entries it shows. -/
theorem fetch_shown (state? : Option store.State) (format : Text) :
    (store.shown state?).fetch format NumberFormat.parse =
      ((store.parseFormat state? format).1, store.shown (store.parseFormat state? format).2) := by
  rw [← map_getD]
  unfold parseFormat
  generalize state?.getD (store.empty RecentFormats.capacity) = state
  have hfound := store.get_fst state format
  have hsome (f : NumberFormat) : (store.map state).find? format = some f →
      store.map (store.get state format).2 = (store.map state).touch format f :=
    store.map_get_of_some
  have hnone : (store.map state).find? format = none →
      store.map (store.get state format).2 = store.map state := store.map_get_of_none
  generalize store.get state format = read at hfound hsome hnone ⊢
  obtain ⟨_ | f, next⟩ := read
  · -- The entries are touched only if the format is not refused.
    have hkept := hnone hfound.symm
    unfold RecentMap.fetch
    rw [← hfound]
    dsimp only
    cases NumberFormat.parse format with
    | error e => exact congrArg _ hkept.symm
    | ok f =>
      refine congrArg (Except.ok f, ·) ?_
      change _ = store.map (store.put next format f)
      rw [store.map_put, hkept]
  · unfold RecentMap.fetch
    rw [← hfound]
    exact congrArg _ (hsome f hfound.symm).symm

end RecencyStore

/-- **The cache of formats is not seen**, over the formats read last and over any store
that keeps recency. -/
theorem isUnobservable_formatCache :
    RecentFormats.cache.IsUnobservable ∧
      ∀ store : RecencyStore Text NumberFormat, store.formatCache.IsUnobservable :=
  ⟨.of_view RecentFormats.entries rfl (fun _ _ => rfl) fun _ => rfl,
    fun store => .of_view store.shown rfl store.fetch_shown fun _ => rfl⟩

/-- Formats that are refused are answered with their error each time, and are not held. -/
theorem isUnobservable_formatCache_refused :
    let cache := (RecencyStore.ofMap Text NumberFormat).formatCache
    cache.answer [['Q'], ['0'], ['Q']] ['Q'] = .error (.unknownStandard ['Q']) ∧
      ∀ entry ∈ cache.entries (cache.after [['Q'], ['0'], ['Q']]), entry.1 ≠ ['Q'] :=
  have h := isUnobservable_formatCache.2 (.ofMap Text NumberFormat)
  ⟨h.answer_eq _ _, h.not_held_of_refused _ rfl⟩

end TickLabels
