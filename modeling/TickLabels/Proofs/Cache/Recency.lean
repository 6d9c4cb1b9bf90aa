import Mathlib.Data.List.Basic
import Mathlib.Data.List.Induction
import Mathlib.Data.List.Nodup
import Mathlib.Data.Nat.Init
import TickLabels.Cache.Metadata

/-!
# The cache of metadata follows its history

A cache of metadata answers as if it computed everything anew, and what it holds is
decided by the history of its requests: the formats gotten last since it was cleared, as
many as there is room for (`recentFormats`). Asking whether a format is held, or how many
are, leaves no trace. All this needs of the store behind the cache is that reading and
storing renew an entry and that the entry that has gone longest without use makes room
(`RecencyStore`).
-/

namespace TickLabels

/-! ## Requests and their history -/

/-- A request to a cache of metadata. -/
inductive CacheRequest where
  | get (format : Text) (selection : MetadataSelection)
  | contains (format : Text)
  | size
  | clear
deriving DecidableEq

/-- What a cache answers. -/
inductive CacheAnswer where
  | metadata (m : Metadata)
  | isHeld (held : Bool)
  | count (n : Nat)
  | done
deriving DecidableEq

namespace CacheRequest

/-- Requests that only look at the cache. -/
def isQuery : CacheRequest → Bool
  | contains _ | size => true
  | _ => false

end CacheRequest

/-- The formats gotten since the last clear, the newest first, as often as they were
gotten. The history is in the order of time. -/
def gottenFormats (history : List CacheRequest) : List Text :=
  history.foldl (fun formats request =>
    match request with
    | .get format _ => format :: formats
    | .clear => []
    | .contains _ | .size => formats) []

/-- The distinct formats gotten since the last clear, the most recently gotten first. -/
def recentFormats (history : List CacheRequest) : List Text :=
  (gottenFormats history).eraseDups

/-- **What a request is answered with** after a history, if there is room for `capacity`
formats. -/
def CacheRequest.expected (capacity : Nat) (history : List CacheRequest) :
    CacheRequest → CacheAnswer
  | get format selection => .metadata (.ofFormat format selection)
  | contains format => .isHeld (format ∈ (recentFormats history).take capacity)
  | size => .count (min capacity (recentFormats history).length)
  | clear => .done

/-- A cache of metadata as its users see it. -/
structure MetadataCache where
  State : Type
  empty : Nat → State
  serve : State → CacheRequest → CacheAnswer × State

namespace MetadataCache

variable (cache : MetadataCache) (capacity : Nat) (history : List CacheRequest)

/-- The cache after a history. -/
def after : cache.State :=
  history.foldl (fun state request => (cache.serve state request).2) (cache.empty capacity)

theorem after_append (request : CacheRequest) :
    cache.after capacity (history ++ [request]) =
      (cache.serve (cache.after capacity history) request).2 := by
  rw [after, after, List.foldl_append]
  rfl

/-- The answer to a request after a history. -/
def answer (request : CacheRequest) : CacheAnswer :=
  (cache.serve (cache.after capacity history) request).1

/-- A get of `format` drives `other` out: it is held before, and not after. -/
def Evicts (format other : Text) : Prop :=
  cache.answer capacity history (.contains other) = .isHeld true ∧
    ∀ selection,
      cache.answer capacity (history ++ [.get format selection]) (.contains other) = .isHeld false

/-- **The cache follows its history.** Every request is answered with what is expected, a
query does not change what is driven out next, and that is the entry gotten least
recently, when a format that is not held finds no room. -/
structure FollowsHistory : Prop where
  answer_eq (history : List CacheRequest) (request : CacheRequest) :
    cache.answer capacity history request = request.expected capacity history
  evicts_query (history : List CacheRequest) {query : CacheRequest} (h : query.isQuery)
    (format other : Text) :
    cache.Evicts capacity (history ++ [query]) format other ↔
      cache.Evicts capacity history format other
  evicts_iff (history : List CacheRequest) (format other : Text) :
    cache.Evicts capacity history format other ↔
      format ∉ (recentFormats history).take capacity ∧
        (recentFormats history)[capacity - 1]? = some other

end MetadataCache

/-! ## Caches over a store -/

/-- **A store that keeps recency**, with the operations that a cache needs. `map` shows
its entries, the most recently used first. -/
structure RecencyStore (κ ν : Type) [DecidableEq κ] where
  State : Type
  map : State → RecentMap κ ν
  empty : Nat → State
  get : State → κ → Option ν × State
  put : State → κ → ν → State
  contains : State → κ → Bool
  size : State → Nat
  clear : State → State
  map_empty (capacity : Nat) : map (empty capacity) = .empty capacity
  get_fst (state : State) (key : κ) : (get state key).1 = (map state).find? key
  /-- Reading an entry is a use of it. -/
  map_get_of_some {state : State} {key : κ} {value : ν} (h : (map state).find? key = some value) :
    map (get state key).2 = (map state).touch key value
  map_get_of_none {state : State} {key : κ} (h : (map state).find? key = none) :
    map (get state key).2 = map state
  /-- So is storing one, for which the least recently used one makes room. -/
  map_put (state : State) (key : κ) (value : ν) :
    map (put state key value) = (map state).touch key value
  contains_eq (state : State) (key : κ) : contains state key = (map state).contains key
  size_eq (state : State) : size state = (map state).size
  map_clear (state : State) : map (clear state) = (map state).clear

namespace RecencyStore

/-- Recent maps are such a store. -/
def ofMap (κ ν : Type) [DecidableEq κ] : RecencyStore κ ν where
  State := RecentMap κ ν
  map := id
  empty := .empty
  get m key :=
    match m.find? key with
    | some value => (some value, m.touch key value)
    | none => (none, m)
  put := .touch
  contains := RecentMap.contains
  size := RecentMap.size
  clear := .clear
  map_empty _ := rfl
  get_fst m key := by split <;> simp_all
  map_get_of_some h := by simp_all
  map_get_of_none h := by simp_all
  map_put _ _ _ := rfl
  contains_eq _ _ := rfl
  size_eq _ := rfl
  map_clear _ := rfl

variable (store : RecencyStore Text Metadata)

/-- The metadata of a format by way of the store: an entry that is found is restricted to
the selection, and a missing one is computed in full and stored. -/
def getMetadata (state : store.State) (format : Text) (selection : MetadataSelection) :
    Metadata × store.State :=
  match store.get state format with
  | (some full, state) => (full.restrict selection, state)
  | (none, state) =>
    ((Metadata.ofFormat format .all).restrict selection,
      store.put state format (.ofFormat format .all))

/-- The cache of metadata over the store. -/
def cache : MetadataCache where
  State := store.State
  empty := store.empty
  serve state
    | .get format selection =>
      (.metadata (store.getMetadata state format selection).1,
        (store.getMetadata state format selection).2)
    | .contains format => (.isHeld (store.contains state format), state)
    | .size => (.count (store.size state), state)
    | .clear => (.done, store.clear state)

end RecencyStore

namespace RecentMetadata

/-- The cache of the formats used last, as its users see it. -/
def cache : MetadataCache where
  State := RecentMetadata
  empty := .empty
  serve state
    | .get format selection =>
      (.metadata (state.get format selection).1, (state.get format selection).2)
    | .contains format => (.isHeld (state.contains format), state)
    | .size => (.count state.size, state)
    | .clear => (.done, state.clear)

end RecentMetadata

/-! ## The most recent formats -/

section Recent

variable {history : List CacheRequest}

theorem gottenFormats_append (request : CacheRequest) :
    gottenFormats (history ++ [request]) =
      match request with
      | .get format _ => format :: gottenFormats history
      | .clear => []
      | .contains _ | .size => gottenFormats history := by
  rw [gottenFormats, List.foldl_append]
  cases request <;> rfl

theorem filter_eraseDups (p : Text → Bool) (formats : List Text) :
    (formats.filter p).eraseDups = formats.eraseDups.filter p := by
  induction hlength : formats.length using Nat.strong_induction_on generalizing formats with
  | _ n ih =>
    cases formats with
    | nil => rfl
    | cons format formats =>
      have hshorter (q : Text → Bool) : (formats.filter q).length < n := by
        have := List.length_filter_le q formats
        rw [List.length_cons] at hlength
        omega
      have hrest := ih _ (hshorter fun b => !b == format) (formats.filter fun b => !b == format) rfl
      rw [List.eraseDups_cons]
      by_cases hp : p format
      · rw [List.filter_cons_of_pos hp, List.filter_cons_of_pos hp, List.eraseDups_cons, ← hrest,
          List.filter_filter, List.filter_filter]
        simp only [Bool.and_comm]
      · rw [List.filter_cons_of_neg hp, List.filter_cons_of_neg hp, ← hrest, List.filter_filter]
        congr 1
        refine List.filter_congr fun b _ => ?_
        by_cases hb : b = format
        · simp [hb, hp]
        · simp [hb]

theorem nodup_eraseDups (formats : List Text) : formats.eraseDups.Nodup := by
  induction hlength : formats.length using Nat.strong_induction_on generalizing formats with
  | _ n ih =>
    cases formats with
    | nil => exact List.nodup_nil
    | cons format formats =>
      have := List.length_filter_le (fun b => !b == format) formats
      rw [List.length_cons] at hlength
      rw [List.eraseDups_cons, List.nodup_cons]
      exact ⟨by simp, ih _ (by omega) _ rfl⟩

theorem nodup_recentFormats (history : List CacheRequest) : (recentFormats history).Nodup :=
  nodup_eraseDups _

/-- **A format that is gotten comes first**, and the others keep their order. -/
theorem recentFormats_get (format : Text) (selection : MetadataSelection) :
    recentFormats (history ++ [.get format selection]) =
      format :: (recentFormats history).filter (· ≠ format) := by
  rw [recentFormats, gottenFormats_append, List.eraseDups_cons, filter_eraseDups]
  congr 1
  exact List.filter_congr fun b _ => by simp [beq_eq_decide]

theorem recentFormats_nil : recentFormats [] = [] := by
  rw [recentFormats, gottenFormats, List.foldl_nil, List.eraseDups_nil]

theorem recentFormats_clear : recentFormats (history ++ [.clear]) = [] := by
  rw [recentFormats, gottenFormats_append, List.eraseDups_nil]

theorem recentFormats_query {query : CacheRequest} (h : query.isQuery) :
    recentFormats (history ++ [query]) = recentFormats history := by
  rw [recentFormats, gottenFormats_append]
  cases query <;> first | rfl | contradiction

theorem filter_ne_of_notMem {formats : List Text} {format : Text} (h : format ∉ formats) :
    formats.filter (· ≠ format) = formats :=
  List.filter_eq_self.2 fun other hother => by
    simpa using fun heq : other = format => h (heq ▸ hother)

/-- One element at most is left out, so a longer front has enough to make up for it. -/
theorem take_filter_take {formats : List Text} (h : formats.Nodup) (format : Text) (n : Nat) :
    ((formats.take (n + 1)).filter (· ≠ format)).take n =
      (formats.filter (· ≠ format)).take n := by
  induction formats generalizing n with
  | nil => simp
  | cons other formats ih =>
    obtain ⟨hother, hrest⟩ := List.nodup_cons.1 h
    rw [List.take_succ_cons]
    by_cases heq : other = format
    · subst heq
      rw [List.filter_cons_of_neg (by simp), List.filter_cons_of_neg (by simp),
        filter_ne_of_notMem hother, filter_ne_of_notMem fun h => hother (List.mem_of_mem_take h),
        List.take_take, Nat.min_self]
    · rw [List.filter_cons_of_pos (by simpa using heq),
        List.filter_cons_of_pos (by simpa using heq)]
      cases n with
      | zero => rfl
      | succ n => rw [List.take_succ_cons, List.take_succ_cons, ih hrest]

end Recent

/-! ## What a cache holds -/

/-- The entries of formats. -/
def metadataEntries (formats : List Text) : List (Text × Metadata) :=
  formats.map fun format => (format, .ofFormat format .all)

namespace RecentMap

variable {κ ν : Type} [DecidableEq κ] (capacity : Nat) (value : κ → ν) {keys : List κ} {key : κ}

theorem find?_map_of_mem (h : key ∈ keys) :
    (RecentMap.mk capacity (keys.map fun key => (key, value key))).find? key = some (value key) :=
  List.lookup_graph value h

theorem find?_map_of_notMem (h : key ∉ keys) :
    (RecentMap.mk capacity (keys.map fun key => (key, value key))).find? key = none := by
  refine List.lookup_eq_none_iff.2 fun _ hentry => ?_
  obtain ⟨other, hother, rfl⟩ := List.mem_map.1 hentry
  simpa using fun heq : key = other => h (heq ▸ hother)

end RecentMap

namespace RecentMetadata

variable {capacity : Nat}

/-- The metadata of the most recent formats is held, as far as there is room for it. -/
def holding (capacity : Nat) (formats : List Text) : RecentMetadata :=
  ⟨capacity, metadataEntries (formats.take capacity)⟩

theorem holding_nil : holding capacity [] = .empty capacity := by
  rw [holding, List.take_nil]
  rfl

theorem find?_holding (formats : List Text) (format : Text) :
    (holding capacity formats).entries.find? format =
      if format ∈ formats.take capacity then some (.ofFormat format .all) else none := by
  split
  · next h => exact RecentMap.find?_map_of_mem _ _ h
  · next h => exact RecentMap.find?_map_of_notMem _ _ h

/-- **Every answer is the metadata itself**, found or not. -/
theorem get_holding_fst (formats : List Text) (format : Text) (selection : MetadataSelection) :
    ((holding capacity formats).get format selection).1 = .ofFormat format selection := by
  unfold RecentMetadata.get
  rw [find?_holding]
  split <;> exact Metadata.restrict_ofFormat format selection

/-- A get brings its format to the front. -/
theorem get_holding_snd (hcapacity : 0 < capacity) {formats : List Text} (h : formats.Nodup)
    (format : Text) (selection : MetadataSelection) :
    ((holding capacity formats).get format selection).2 =
      holding capacity (format :: formats.filter (· ≠ format)) := by
  obtain ⟨n, rfl⟩ : ∃ n, capacity = n + 1 := ⟨capacity - 1, by omega⟩
  have hfull : ((holding (n + 1) formats).entries.find? format).getD (.ofFormat format .all) =
      .ofFormat format .all := by
    rw [find?_holding]
    split <;> rfl
  have hothers : (metadataEntries (formats.take (n + 1))).filter (fun entry => entry.1 ≠ format) =
      metadataEntries ((formats.take (n + 1)).filter (· ≠ format)) := by
    rw [metadataEntries, List.filter_map]
    rfl
  unfold RecentMetadata.get
  dsimp only
  rw [hfull]
  unfold RecentMap.touch holding
  rw [hothers, List.take_succ_cons, List.take_succ_cons, ← take_filter_take h]
  simp only [metadataEntries, List.map_cons, List.map_take]

/-- **The cache holds the formats gotten last.** -/
theorem after_eq (hcapacity : 0 < capacity) (history : List CacheRequest) :
    cache.after capacity history = holding capacity (recentFormats history) := by
  induction history using List.reverseRecOn with
  | nil => rw [recentFormats_nil, holding_nil]; rfl
  | append_singleton history request ih =>
    rw [MetadataCache.after_append, ih]
    cases request with
    | get format selection =>
      rw [recentFormats_get]
      exact get_holding_snd hcapacity (nodup_recentFormats history) format selection
    | contains | size => rw [recentFormats_query rfl]; rfl
    | clear => rw [recentFormats_clear, holding_nil]; rfl

/-- **Every request is answered with what is expected.** -/
theorem answer_eq (hcapacity : 0 < capacity) (history : List CacheRequest)
    (request : CacheRequest) :
    cache.answer capacity history request = request.expected capacity history := by
  rw [MetadataCache.answer, after_eq hcapacity]
  cases request with
  | get format selection => exact congrArg CacheAnswer.metadata (get_holding_fst _ format selection)
  | contains format =>
    refine congrArg CacheAnswer.isHeld ?_
    unfold RecentMetadata.contains RecentMap.contains
    rw [find?_holding]
    split <;> simp_all
  | size =>
    refine congrArg CacheAnswer.count ?_
    change (metadataEntries _).length = _
    rw [metadataEntries, List.length_map, List.length_take]
  | clear => rfl

end RecentMetadata

namespace RecencyStore

variable (store : RecencyStore Text Metadata)

/-- Getting metadata by way of a store is getting it from the entries the store shows. -/
theorem getMetadata_eq (state : store.State) (format : Text) (selection : MetadataSelection) :
    RecentMetadata.get ⟨store.map state⟩ format selection =
      ((store.getMetadata state format selection).1,
        ⟨store.map (store.getMetadata state format selection).2⟩) := by
  have hfound := store.get_fst state format
  have hsome (full : Metadata) : (store.map state).find? format = some full →
      store.map (store.get state format).2 = (store.map state).touch format full :=
    store.map_get_of_some
  have hnone : (store.map state).find? format = none →
      store.map (store.get state format).2 = store.map state := store.map_get_of_none
  unfold RecentMetadata.get getMetadata
  generalize store.get state format = read at hfound hsome hnone ⊢
  obtain ⟨_ | full, next⟩ := read
  · simp only [← hfound, store.map_put, hnone hfound.symm, Option.getD_none]
  · simp only [← hfound, hsome full hfound.symm, Option.getD_some]

/-- **One step of any store** is a step on the entries it shows. -/
theorem serve_eq (state : store.State) (request : CacheRequest) :
    RecentMetadata.cache.serve (RecentMetadata.mk (store.map state)) request =
      ((store.cache.serve state request).1,
        RecentMetadata.mk (store.map (store.cache.serve state request).2)) := by
  cases request with
  | get format selection =>
    change (CacheAnswer.metadata (RecentMetadata.get _ format selection).1,
      (RecentMetadata.get _ format selection).2) = _
    rw [getMetadata_eq]
    rfl
  | contains format =>
    exact congrArg (fun held => (CacheAnswer.isHeld held, RecentMetadata.mk (store.map state)))
      (store.contains_eq state format).symm
  | size =>
    exact congrArg (fun n => (CacheAnswer.count n, RecentMetadata.mk (store.map state)))
      (store.size_eq state).symm
  | clear =>
    exact congrArg (fun entries => (CacheAnswer.done, RecentMetadata.mk entries))
      (store.map_clear state).symm

/-- **A run of any store** is a run on the entries it shows. -/
theorem after_eq (capacity : Nat) (history : List CacheRequest) :
    RecentMetadata.cache.after capacity history =
      RecentMetadata.mk (store.map (store.cache.after capacity history)) := by
  induction history using List.reverseRecOn with
  | nil => exact congrArg RecentMetadata.mk (store.map_empty capacity).symm
  | append_singleton history request ih =>
    rw [MetadataCache.after_append, MetadataCache.after_append, ih]
    exact congrArg Prod.snd (store.serve_eq _ request)

theorem answer_eq (capacity : Nat) (history : List CacheRequest) (request : CacheRequest) :
    store.cache.answer capacity history request =
      RecentMetadata.cache.answer capacity history request := by
  rw [MetadataCache.answer, MetadataCache.answer, after_eq store]
  exact congrArg Prod.fst (store.serve_eq _ request).symm

end RecencyStore

/-! ## What is driven out -/

namespace MetadataCache

variable {cache : MetadataCache} {capacity : Nat}

/-- What a get drives out, if the answers are as expected. -/
theorem evicts_iff_of_answer_eq (h : ∀ history request,
      cache.answer capacity history request = request.expected capacity history)
    (history : List CacheRequest) (format other : Text) :
    cache.Evicts capacity history format other ↔
      other ∈ (recentFormats history).take capacity ∧
        other ∉ (format :: (recentFormats history).filter (· ≠ format)).take capacity := by
  have : Nonempty MetadataSelection := ⟨.all⟩
  simp only [Evicts, h, CacheRequest.expected, recentFormats_get, CacheAnswer.isHeld.injEq,
    decide_eq_true_eq, decide_eq_false_iff_not, forall_const]

/-- **A new format drives the oldest out.** -/
theorem mem_take_and_notMem_iff {formats : List Text} (h : formats.Nodup) (format other : Text)
    (n : Nat) :
    other ∈ formats.take (n + 1) ∧ other ∉ (format :: formats.filter (· ≠ format)).take (n + 1) ↔
      format ∉ formats.take (n + 1) ∧ formats[n]? = some other := by
  rw [List.take_succ_cons, ← take_filter_take h, List.mem_cons, not_or]
  by_cases hformat : format ∈ formats.take (n + 1)
  · -- What is left besides the format has room.
    refine iff_of_false (fun ⟨hother, hne, hout⟩ => ?_) fun hnew => hnew.1 hformat
    have hshorter : ((formats.take (n + 1)).filter (· ≠ format)).length < n + 1 :=
      Nat.lt_of_lt_of_le (List.length_filter_lt_length_iff_exists.2 ⟨format, hformat, by simp⟩)
        (List.length_take_le _ _)
    rw [List.take_of_length_le (by omega)] at hout
    exact hout (List.mem_filter.2 ⟨hother, by simpa using hne⟩)
  · rw [filter_ne_of_notMem hformat, List.take_take, Nat.min_eq_left (Nat.le_succ n)]
    refine Iff.trans ?_ (and_iff_right hformat).symm
    constructor
    · rintro ⟨hother, -, hout⟩
      rw [List.take_add_one, List.mem_append] at hother
      exact (Option.mem_toList.1 (hother.resolve_left hout))
    · intro hlast
      have hother : other ∈ formats.take (n + 1) := by
        rw [List.take_add_one, hlast]
        simp
      refine ⟨hother, fun heq => hformat (heq ▸ hother), fun hearlier => ?_⟩
      obtain ⟨i, hi, hget⟩ := List.mem_take_iff_getElem.1 hearlier
      obtain ⟨hn, hget'⟩ := List.getElem?_eq_some_iff.1 hlast
      exact absurd (h.getElem_inj_iff.1 (hget.trans hget'.symm)) (by omega)

/-- **Answers that are as expected** decide what is driven out. -/
theorem FollowsHistory.of_answer_eq (hcapacity : 0 < capacity) (h : ∀ history request,
      cache.answer capacity history request = request.expected capacity history) :
    cache.FollowsHistory capacity where
  answer_eq := h
  evicts_query history query hquery format other := by
    rw [evicts_iff_of_answer_eq h, evicts_iff_of_answer_eq h, recentFormats_query hquery]
  evicts_iff history format other := by
    obtain ⟨n, rfl⟩ : ∃ n, capacity = n + 1 := ⟨capacity - 1, by omega⟩
    rw [evicts_iff_of_answer_eq h]
    exact mem_take_and_notMem_iff (nodup_recentFormats history) format other n

end MetadataCache

/-- **Every cache of metadata with room for a format follows its history**, over the most
recent entries and over any store that keeps recency. -/
theorem followsHistory_cache {capacity : Nat} (h : 0 < capacity) :
    RecentMetadata.cache.FollowsHistory capacity ∧
      ∀ store : RecencyStore Text Metadata, store.cache.FollowsHistory capacity :=
  ⟨.of_answer_eq h (RecentMetadata.answer_eq h), fun store => .of_answer_eq h fun history request =>
    (store.answer_eq capacity history request).trans (RecentMetadata.answer_eq h history request)⟩

/-- With room for two formats, a third one drives out the one gotten before the last,
although it was asked for since. -/
theorem followsHistory_cache_two :
    RecentMetadata.cache.FollowsHistory 2 ∧
      (RecencyStore.ofMap Text Metadata).cache.Evicts 2
        [.get ['0'] .all, .get ['#'] .all, .get ['0'] .all, .contains ['#']] ['%'] ['#'] :=
  have h := followsHistory_cache Nat.two_pos
  ⟨h.1, ((h.2 (.ofMap Text Metadata)).evicts_iff _ _ _).2 (by decide)⟩

end TickLabels
