import Mathlib.Data.List.Nodup
import BrewFs.Chunk.Slice
import BrewFs.Library.Run
import BrewFs.Library.Slots
import BrewFs.Library.Snapshot

/-! `meta/client`: the slice lists that a metadata client caches. `get_slices` probes the cache,
reads the store and fills the cache; `write` writes to the store and then appends to the cached
list. One chunk and one client; each store call and each cache call is a step. -/

namespace BrewFs.Meta.Client

open BrewFs.Slots BrewFs.Log
open BrewFs.Chunk (SliceDesc)
open List (mem_map)

structure CachedSlices where
  version : Option Nat
  slices : List SliceDesc
deriving DecidableEq, Repr

/-- A slice with its place in the store's list. -/
structure StoredSlice where
  place : Nat
  desc : SliceDesc
deriving DecidableEq, Repr

/-- Where a call of `get_slices` stands. -/
inductive GetStage where
  | probe
  /-- The cached list has this version and is due for a check. -/
  | checkVersion (version : Nat)
  /-- The store has another version. -/
  | dropVersion (version : Nat)
  | cacheRead
  | storeRead
  | fill (version : Option Nat) (slices : List SliceDesc)
  | done (slices : List SliceDesc)
deriving DecidableEq, Repr

/-- The list that is to fill the cache. -/
def GetStage.filling : GetStage → Option (List SliceDesc)
  | .fill _ slices => some slices
  | .probe | .checkVersion _ | .dropVersion _ | .cacheRead | .storeRead | .done _ => none

/-- The list that the call has got hold of. -/
def GetStage.list? : GetStage → Option (List SliceDesc)
  | .fill _ slices | .done slices => some slices
  | .probe | .checkVersion _ | .dropVersion _ | .cacheRead | .storeRead => none

structure GetCall where
  /-- The slices of the writes that had returned when the call began. -/
  before : List StoredSlice
  stage : GetStage
deriving DecidableEq, Repr

structure SliceCache where
  store : List SliceDesc
  /-- The inode's cache entry, and in it the list of the chunk. -/
  node : Option (Option CachedSlices)
  gets : Nat → Option GetCall
  /-- Writes between the store and the cache, by their writers. -/
  pending : List (Nat × StoredSlice)
  returned : List StoredSlice

inductive SliceCacheAction where
  | startGet (get : Nat)
  /-- The next step of a call; `expired`: a version check is due. -/
  | advance (get : Nat) (expired : Bool)
  | storeWrite (writer : Nat) (desc : SliceDesc)
  | appendSlice (writer : Nat)
  | insertNode
  | evictNode
  | invalidateSlices

namespace SliceCache

/- The version that the store gives to a list; stores without versions give none. -/
variable (version : List SliceDesc → Option Nat)

def init (base : List SliceDesc) : SliceCache where
  store := base
  node := none
  gets := fun _ => none
  pending := []
  returned := []

variable (s : SliceCache)

/-- The cached list. -/
def cached : Option CachedSlices := s.node.join

def setGet (get : Nat) (call : GetCall) (stage : GetStage) : SliceCache :=
  { s with gets := Function.update s.gets get (some { call with stage := stage }) }

/-- Drop the cached list and keep the inode. -/
def removeSlices : SliceCache := { s with node := s.node.map fun _ => none }

/-- `get_slices` -/
def stepGet (get : Nat) (expired : Bool) (call : GetCall) : Option SliceCache :=
  match call.stage with
  | .probe =>
    match s.cached with
    | none => some (s.setGet get call .storeRead)
    | some list =>
      match list.version, expired with
      | some version, true => some (s.setGet get call (.checkVersion version))
      | _, _ => some (s.setGet get call .cacheRead)
  | .checkVersion expected =>
    if version s.store = some expected then some (s.setGet get call .cacheRead)
    else some (s.setGet get call (.dropVersion expected))
  | .dropVersion expected =>
    if s.cached.bind CachedSlices.version = some expected then
      some (s.removeSlices.setGet get call .cacheRead)
    else some (s.setGet get call .cacheRead)
  | .cacheRead =>
    match s.cached with
    | some list => some (s.setGet get call (.done list.slices))
    | none => some (s.setGet get call .storeRead)
  | .storeRead => some (s.setGet get call (.fill (version s.store) s.store))
  | .fill found slices =>
    -- `cache_slices_if_absent`
    match s.node with
    | none => some (s.setGet get call (.done slices))
    | some (some list) => some (s.setGet get call (.done list.slices))
    | some none => some { s.setGet get call (.done slices) with node := some (some ⟨found, slices⟩)
        }
  | .done _ => none

/-- The write is in the store and goes on to the cache. -/
def pendingOf (writer : Nat) : Option StoredSlice :=
  (s.pending.find? fun entry => entry.1 = writer).map Prod.snd

def step : SliceCacheAction → Option SliceCache
  | .startGet get =>
    if (s.gets get).isSome then none
    else some (s.setGet get ⟨s.returned, .probe⟩ .probe)
  | .advance get expired => (s.gets get).bind (s.stepGet version get expired)
  | .storeWrite writer desc =>
    if (s.pendingOf writer).isSome then none
    else some { s with
      store := s.store ++ [desc]
      pending := s.pending ++ [(writer, ⟨s.store.length, desc⟩)] }
  | .appendSlice writer => (s.pendingOf writer).map fun write =>
    { s with
      node := s.node.map fun list => list.map fun cached =>
        { cached with slices := cached.slices ++ [write.desc] }
      pending := s.pending.filter fun entry => entry.1 ≠ writer
      returned := write :: s.returned }
  | .insertNode => some { s with node := s.node.or (some none) }
  | .evictNode => some { s with node := none }
  | .invalidateSlices => some s.removeSlices

/-- The places of the writes on their way to the cache. -/
def pendingPlaces : List Nat := s.pending.map fun entry => entry.2.place

/-- The list lacks exactly the writes on their way to the cache. -/
def Awaits (slices : List SliceDesc) : Prop :=
  ∀ place < s.store.length, place ∈ s.pendingPlaces ↔ slices.length ≤ place

instance (slices : List SliceDesc) : Decidable (s.Awaits slices) :=
  inferInstanceAs (Decidable (∀ place < s.store.length, _ ↔ _))

/-- The cache is filled only with a list that lacks exactly the writes on their way to it, and
writes reach a cached list in the order in which they reached the store. -/
def InStep : SliceCacheAction → Prop
  | .advance get _ => ∀ call ∈ s.gets get, ∀ slices ∈ call.stage.filling, s.node = some none →
      s.Awaits slices
  | .appendSlice writer => s.cached.isSome = true → ∀ write ∈ s.pendingOf writer,
      ∀ place ∈ s.pendingPlaces, write.place ≤ place
  | .startGet _ | .storeWrite _ _ | .insertNode | .evictNode | .invalidateSlices => True

instance (action : SliceCacheAction) : Decidable (InStep s action) := by
  cases action <;> unfold InStep <;> infer_instance

/-! ### The invariant -/

structure Coherent (s : SliceCache) : Prop where
  pending : ∀ entry ∈ s.pending, s.store[entry.2.place]? = some entry.2.desc
  writers : (s.pending.map Prod.fst).Nodup
  places : s.pendingPlaces.Nodup
  returned : ∀ write ∈ s.returned, s.store[write.place]? = some write.desc ∧
    write.place ∉ s.pendingPlaces
  /-- A cached list has what the store has, up to writes on their way. -/
  cached : ∀ list ∈ s.cached, list.slices <+: s.store ∧ s.Awaits list.slices
  before : ∀ get, ∀ call ∈ s.gets get, ∀ write ∈ call.before, write ∈ s.returned
  held : ∀ get, ∀ call ∈ s.gets get, ∀ slices ∈ call.stage.list?,
    Snapshot s.store (call.before.map StoredSlice.place) slices

variable {version} {s next : SliceCache} {call : GetCall} {get writer : Nat}

theorem coherent_init (base : List SliceDesc) : Coherent (init base) where
  pending := nofun
  writers := .nil
  places := .nil
  returned := nofun
  cached := nofun
  before := nofun
  held := nofun

section

variable (coherent : Coherent s)

include coherent

/-- A cached list has all the writes that have returned. -/
theorem Coherent.snapshot {slices : List SliceDesc}
    (tracks : slices <+: s.store ∧ s.Awaits slices) {writes : List StoredSlice}
    (before : ∀ write ∈ writes, write ∈ s.returned) :
    Snapshot s.store (writes.map StoredSlice.place) slices := by
  refine ⟨tracks.1, fun place listed => ?_⟩
  obtain ⟨write, member, rfl⟩ := mem_map.mp listed
  obtain ⟨stands, settled⟩ := coherent.returned write (before write member)
  have inside := (List.getElem?_eq_some_iff.mp stands).1
  exact not_le.mp fun beyond => settled ((tracks.2 write.place inside).mpr beyond)

theorem Coherent.setGet {stage : GetStage} (before : ∀ write ∈ call.before, write ∈ s.returned)
    (held : ∀ slices ∈ stage.list?, Snapshot s.store (call.before.map StoredSlice.place) slices) :
    Coherent (s.setGet get call stage) := by
  refine { coherent with before := fun other found here => ?_, held := fun other found here => ?_ }
  · rcases mem_put here with ⟨_, rfl⟩ | ⟨_, old⟩
    · exact before
    · exact coherent.before other found old
  rcases mem_put here with ⟨_, rfl⟩ | ⟨_, old⟩
  · exact held
  · exact coherent.held other found old

theorem Coherent.setNode {node : Option (Option CachedSlices)}
    (cached : ∀ list ∈ node.join, list.slices <+: s.store ∧ s.Awaits list.slices) :
    Coherent { s with node := node } :=
  { coherent with cached := cached }

theorem Coherent.removeSlices : Coherent s.removeSlices := by
  refine coherent.setNode fun list found => ?_
  cases present : s.node with
  | none | some => rw [present] at found; cases found

end

/-! ### Steps -/

theorem Coherent.stepGet (coherent : Coherent s) {expired : Bool} (found : s.gets get = some call)
    (current : ∀ slices ∈ call.stage.filling, s.node = some none → s.Awaits slices)
    (taken : s.stepGet version get expired call = some next) : Coherent next := by
  have before := coherent.before get call found
  have move : ∀ {stage}, stage.list? = none → Coherent (s.setGet get call stage) :=
    fun blank => coherent.setGet before fun _ has => by rw [blank] at has; cases has
  have finish : ∀ {list}, s.cached = some list → Coherent (s.setGet get call (.done list.slices)) :=
    fun here => coherent.setGet before fun _ same => by
      cases same
      exact coherent.snapshot (coherent.cached _ here) before
  unfold SliceCache.stepGet at taken
  split at taken
  · split at taken
    · cases taken
      exact move rfl
    split at taken <;> (cases taken; exact move rfl)
  · split at taken <;> (cases taken; exact move rfl)
  · split at taken <;> cases taken
    · exact coherent.removeSlices.setGet before nofun
    · exact move rfl
  · split at taken
    · rename_i list here
      cases taken
      exact finish here
    · cases taken
      exact move rfl
  · cases taken
    refine coherent.setGet before fun _ same => ?_
    cases same
    refine Snapshot.whole fun place listed => ?_
    obtain ⟨write, member, rfl⟩ := mem_map.mp listed
    exact (List.getElem?_eq_some_iff.mp (coherent.returned write (before write member)).1).1
  · rename_i version slices stage
    have held := coherent.held get call found slices (by rw [stage]; rfl)
    have done : Coherent (s.setGet get call (.done slices)) :=
      coherent.setGet before fun _ same => by
        cases same
        exact held
    split at taken
    · cases taken
      exact done
    · rename_i list here
      cases taken
      exact finish (by rw [SliceCache.cached, here]; rfl)
    · rename_i here
      cases taken
      refine done.setNode fun list same => ?_
      cases same
      exact ⟨held.early, current slices (by rw [stage]; rfl) here⟩
  · cases taken

theorem Coherent.storeWrite (coherent : Coherent s) (free : s.pendingOf writer = none)
    (desc : SliceDesc) : Coherent { s with
      store := s.store ++ [desc]
      pending := s.pending ++ [(writer, ⟨s.store.length, desc⟩)] } := by
  have below : ∀ place ∈ s.pendingPlaces, place < s.store.length := by
    intro place listed
    obtain ⟨entry, member, rfl⟩ := mem_map.mp listed
    exact (List.getElem?_eq_some_iff.mp (coherent.pending entry member)).1
  have unused : ∀ entry ∈ s.pending, entry.1 ≠ writer := by
    simpa [pendingOf] using free
  have mem : ∀ {place}, place ∈ (s.pending ++ [(writer, StoredSlice.mk s.store.length desc)]).map
      (fun entry => entry.2.place) ↔ place ∈ s.pendingPlaces ∨ place = s.store.length := by
    intro place
    rw [List.map_append, List.mem_append, List.map_singleton, List.mem_singleton]
    rfl
  refine ⟨?_, ?_, ?_, fun write listed => ?_, fun list found => ?_, coherent.before,
    fun get call found slices has => (coherent.held get call found slices has).append desc⟩
  · rw [List.forall_mem_append]
    refine ⟨fun entry listed => getElem?_append_some desc (coherent.pending entry listed), ?_⟩
    simp
  · rw [List.map_append, List.nodup_append]
    refine ⟨coherent.writers, List.nodup_singleton _, fun other listed new single => ?_⟩
    obtain ⟨entry, member, rfl⟩ := mem_map.mp listed
    obtain rfl := List.mem_singleton.mp single
    exact unused entry member
  · rw [pendingPlaces, List.map_append, List.nodup_append]
    refine ⟨coherent.places, List.nodup_singleton _, fun place listed new single => ?_⟩
    obtain rfl := List.mem_singleton.mp single
    exact (below place listed).ne
  · obtain ⟨stands, settled⟩ := coherent.returned write listed
    refine ⟨getElem?_append_some desc stands, fun waits => ?_⟩
    have inside := (List.getElem?_eq_some_iff.mp stands).1
    rcases mem.mp waits with old | last
    · exact settled old
    · exact Nat.ne_of_lt inside last
  · obtain ⟨early, awaits⟩ := coherent.cached list found
    refine ⟨early.trans (List.prefix_append _ _), fun place inside => mem.trans ?_⟩
    rw [List.length_append] at inside
    have short := early.length_le
    rcases Nat.lt_succ_iff_lt_or_eq.mp inside with old | rfl
    · rw [awaits place old]
      omega
    · exact ⟨fun _ => short, fun _ => .inr rfl⟩

theorem prefix_concat {list log : List SliceDesc} {item : SliceDesc} (early : list <+: log)
    (next : log[list.length]? = some item) : list ++ [item] <+: log := by
  obtain ⟨rest, rfl⟩ := early
  rw [List.getElem?_append_right (le_rfl), Nat.sub_self] at next
  cases rest with
  | nil => cases next
  | cons first rest =>
    cases next
    exact ⟨rest, by rw [List.append_assoc, List.singleton_append]⟩

theorem Coherent.appendSlice (coherent : Coherent s) {write : StoredSlice}
    (found : s.pendingOf writer = some write)
    (ordered : s.cached.isSome = true → ∀ place ∈ s.pendingPlaces, write.place ≤ place) :
    Coherent { s with
      node := s.node.map fun list => list.map fun cached =>
        { cached with slices := cached.slices ++ [write.desc] }
      pending := s.pending.filter fun entry => entry.1 ≠ writer
      returned := write :: s.returned } := by
  have member : (writer, write) ∈ s.pending := by
    obtain ⟨entry, first, rfl⟩ := Option.map_eq_some_iff.mp found
    have same : entry.1 = writer := by simpa using List.find?_some first
    rw [← same]
    exact List.mem_of_find?_eq_some first
  have stands : s.store[write.place]? = some write.desc := coherent.pending _ member
  have listed : write.place ∈ s.pendingPlaces := List.mem_map_of_mem member
  -- the writer's entry is the one with its place
  have mem : ∀ {place}, place ∈ (s.pending.filter fun entry => entry.1 ≠ writer).map
      (fun entry => entry.2.place) ↔ place ∈ s.pendingPlaces ∧ place ≠ write.place := by
    intro place
    simp only [pendingPlaces, mem_map, List.mem_filter, decide_eq_true_eq]
    constructor
    · rintro ⟨entry, ⟨waits, other⟩, rfl⟩
      refine ⟨⟨entry, waits, rfl⟩, fun same => other ?_⟩
      rw [List.inj_on_of_nodup_map coherent.places waits member same]
    rintro ⟨⟨entry, waits, rfl⟩, other⟩
    refine ⟨entry, ⟨waits, fun same => other ?_⟩, rfl⟩
    rw [List.inj_on_of_nodup_map coherent.writers waits member same]
  have fewer : (s.pending.filter fun entry => entry.1 ≠ writer).Sublist s.pending :=
    List.filter_sublist
  refine ⟨fun entry waits => coherent.pending entry (fewer.subset waits),
    coherent.writers.sublist (fewer.map _), coherent.places.sublist (fewer.map _), ?_,
    fun list cached => ?_,
    fun get call here other early => List.mem_cons_of_mem _
      (coherent.before get call here other early),
    coherent.held⟩
  · rw [List.forall_mem_cons]
    refine ⟨⟨stands, fun waits => (mem.mp waits).2 rfl⟩, fun other known => ?_⟩
    obtain ⟨before, settled⟩ := coherent.returned other known
    exact ⟨before, fun waits => settled (mem.mp waits).1⟩
  obtain ⟨old, here, rfl⟩ : ∃ old ∈ s.cached,
      { old with slices := old.slices ++ [write.desc] } = list := by
    cases node : s.node with
    | none => simp [SliceCache.cached, node] at cached
    | some entry => simpa [SliceCache.cached, node] using cached
  obtain ⟨early, awaits⟩ := coherent.cached old here
  have first := ordered (Option.isSome_of_mem here)
  have inside := (List.getElem?_eq_some_iff.mp stands).1
  -- the cached list ends where the first of the pending writes stands
  have place : write.place = old.slices.length := by
    have behind := (awaits write.place inside).mp listed
    have waits := (awaits old.slices.length (by omega)).mpr (le_rfl)
    have := first _ waits
    omega
  refine ⟨prefix_concat early (by rw [← place]; exact stands), fun other below => mem.trans ?_⟩
  rw [awaits other below, List.length_append, List.length_singleton]
  omega

theorem Coherent.step (s : SliceCache) (action : SliceCacheAction) (next : SliceCache)
    (coherent : Coherent s) (inStep : InStep s action)
    (taken : s.step version action = some next) : Coherent next := by
  cases action with
  | startGet get =>
    obtain ⟨_, ⟨⟩⟩ := Option.ite_none_left_eq_some.mp taken
    exact coherent.setGet (fun _ => id) nofun
  | advance get expired =>
    obtain ⟨call, found, taken⟩ := Option.bind_eq_some_iff.mp taken
    exact coherent.stepGet found (inStep call found) taken
  | storeWrite writer desc =>
    simp only [SliceCache.step, Option.ite_none_left_eq_some, Option.some.injEq,
      Option.not_isSome_iff_eq_none] at taken
    obtain ⟨free, rfl⟩ := taken
    exact coherent.storeWrite free desc
  | appendSlice writer =>
    obtain ⟨write, found, rfl⟩ := Option.map_eq_some_iff.mp taken
    exact coherent.appendSlice found fun present => inStep present write found
  | insertNode =>
    cases taken
    refine coherent.setNode fun list found => coherent.cached list ?_
    cases node : s.node with
    | none => simp [node] at found
    | some entry => simpa [SliceCache.cached, node] using found
  | evictNode =>
    cases taken
    exact coherent.setNode nofun
  | invalidateSlices =>
    cases taken
    exact coherent.removeSlices

/-- In a run that keeps the cache in step with the store, `get_slices` returns a list with the slice
of every write that had returned when the call began, at the store's place. -/
theorem get_slices_sees_writes (version : List SliceDesc → Option Nat) (base : List SliceDesc)
    (actions : List SliceCacheAction) (final : SliceCache)
    (inStep : Run.Along (step version) InStep (init base) actions)
    (run : Run.exec (step version) (init base) actions = some final) :
    ∀ get, ∀ call ∈ final.gets get, ∀ slices, call.stage = .done slices →
      ∀ write ∈ call.before, slices[write.place]? = some write.desc ∧
        final.store[write.place]? = some write.desc := by
  have coherent : Coherent final :=
    Run.invariant_along Coherent.step (coherent_init base) inStep run
  intro get call found slices stage write listed
  have held := coherent.held get call found slices (by rw [stage]; rfl)
  have stands := (coherent.returned write (coherent.before get call found write listed)).1
  exact ⟨(held.getElem? (List.mem_map_of_mem listed)).trans stands, stands⟩

/-- A call reads the store, and a write goes through before it fills the cache. -/
def lateFill : List SliceCacheAction :=
  [.insertNode, .startGet 0, .advance 0 false, .advance 0 false, .storeWrite 0 ⟨7, 0, 0, 1⟩,
    .appendSlice 0]

theorem get_slices_sees_write : ∃ final call slices, Run.exec (step fun _ => none) (init [])
        (lateFill ++ [.startGet 1, .advance 1 false, .advance 1 false, .advance 1 false]) =
          some final ∧
      final.gets 1 = some call ∧ call.stage = .done slices ∧ slices[0]? = some ⟨7, 0, 0, 1⟩ :=
  have run : Run.exec (step fun _ => none) (init [])
    (lateFill ++ [.startGet 1, .advance 1 false, .advance 1 false, .advance 1 false]) =
    some _ := rfl
  ⟨_, _, _, run, rfl, rfl, (get_slices_sees_writes _ [] _ _ (by decide +kernel) run 1 _ rfl _ rfl
    ⟨0, ⟨7, 0, 0, 1⟩⟩ (by decide)).1⟩

/-- The first call fills the cache with the list read before the write; the second, which begins
after the write has returned, gets it. -/
theorem stale_fill : ∃ final, Run.exec (step fun _ => none) (init [])
        (lateFill ++ [.advance 0 false, .startGet 1, .advance 1 false, .advance 1 false]) =
          some final ∧
      final.store = [⟨7, 0, 0, 1⟩] ∧ final.gets 1 = some ⟨[⟨0, ⟨7, 0, 0, 1⟩⟩], .done []⟩ :=
  Run.reaches (by decide +kernel)

end SliceCache

end BrewFs.Meta.Client
