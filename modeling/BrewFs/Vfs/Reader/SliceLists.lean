import BrewFs.Library.Snapshot
import BrewFs.Vfs.Writer.Overlay

/-! `vfs/io/reader.rs`: the slice lists that a reader keeps for its chunks. A read looks its list
up; on a miss it fetches the list from the metadata and inserts it. A commit writes its slice to the
metadata and then removes the lists of its range. -/

namespace BrewFs.Vfs

open BrewFs.Slots BrewFs.Log List Option
open BrewFs.Chunk (SliceDesc Span)
open Function (update update_of_ne update_self)

/-- A slice in the metadata, with its place in its chunk's list. -/
structure PlacedSlice where
  chunk : Nat
  place : Nat
  desc : SliceDesc
deriving DecidableEq, Repr

/-- Where `read_chunk_span_into` stands. -/
inductive ReadStage where
  | lookup
  | fetch
  | insert (slices : List SliceDesc)
  | use (slices : List SliceDesc)
deriving DecidableEq, Repr

/-- The list that was fetched and is to be inserted. -/
def ReadStage.fetched : ReadStage → Option (List SliceDesc)
  | .insert slices => some slices
  | .lookup | .fetch | .use _ => none

structure ChunkRead where
  chunk : Nat
  /-- The writes whose `invalidate` had returned when the read began. -/
  before : List PlacedSlice
  stage : ReadStage
deriving DecidableEq, Repr

structure SliceLists where
  metadata : Nat → List SliceDesc
  /-- `chunk_slices` -/
  cache : Nat → Option (List SliceDesc)
  reads : Nat → Option ChunkRead
  /-- Slices in the metadata that have not been invalidated yet. -/
  committing : Nat → Option PlacedSlice
  invalidated : List PlacedSlice

inductive SliceListAction where
  | metaWrite (writer chunk : Nat) (desc : SliceDesc)
  | invalidate (writer : Nat)
  | start (read chunk : Nat)
  | lookup (read : Nat)
  | fetch (read : Nat)
  | insert (read : Nat)
  /-- The read has failed; it drops the list and begins again. -/
  | retry (read : Nat)
  /-- `invalidate_all` -/
  | clear

namespace SliceLists

variable (cfg : WriteConfig)

def init : SliceLists where
  metadata := fun _ => []
  cache := fun _ => none
  reads := fun _ => none
  committing := fun _ => none
  invalidated := []

/-- The lists after `FileReader::invalidate`. -/
def invalidateRange (cache : Nat → Option (List SliceDesc)) (offset len : Nat) :
    Nat → Option (List SliceDesc) :=
  if len = 0 then cache
  else (splitChunkSpans cfg offset len).foldl
    (fun cache span => update cache span.index none) cache

def setRead (s : SliceLists) (read : Nat) (state : ChunkRead) : SliceLists :=
  { s with reads := update s.reads read (some state) }

def step (s : SliceLists) : SliceListAction → Option SliceLists
  | .metaWrite writer chunk desc =>
    if (s.committing writer).isSome ∨ desc.length = 0 ∨
        cfg.chunkSize < desc.offset + desc.length then none
    else some { s with
      metadata := update s.metadata chunk (s.metadata chunk ++ [desc])
      committing := update s.committing writer (some ⟨chunk, (s.metadata chunk).length, desc⟩) }
  | .invalidate writer => (s.committing writer).map fun write =>
    { s with
      cache := invalidateRange cfg s.cache (write.chunk * cfg.chunkSize + write.desc.offset)
        write.desc.length
      committing := update s.committing writer none
      invalidated := write :: s.invalidated }
  | .start read chunk =>
    if (s.reads read).isSome then none
    else some (s.setRead read
      ⟨chunk, s.invalidated.filter (fun write => write.chunk = chunk), .lookup⟩)
  | .lookup read => (s.reads read).bind fun state =>
    if state.stage = .lookup then
      match s.cache state.chunk with
      | some slices => some (s.setRead read { state with stage := .use slices })
      | none => some (s.setRead read { state with stage := .fetch })
    else none
  | .fetch read => (s.reads read).bind fun state =>
    if state.stage = .fetch then
      some (s.setRead read { state with stage := .insert (s.metadata state.chunk) })
    else none
  | .insert read => (s.reads read).bind fun state =>
    match state.stage with
    | .insert slices => some { s.setRead read { state with stage := .use slices } with
        cache := update s.cache state.chunk (some slices) }
    | .lookup | .fetch | .use _ => none
  | .retry read => (s.reads read).bind fun state =>
    match state.stage with
    | .use _ => some { s.setRead read { state with stage := .lookup } with
        cache := update s.cache state.chunk none }
    | .lookup | .fetch | .insert _ => none
  | .clear => some { s with cache := fun _ => none }

/-- A fetched list is inserted only while it has every invalidated slice of its chunk. -/
def NotOutdated (s : SliceLists) : SliceListAction → Prop
  | .insert read => ∀ state ∈ s.reads read, ∀ slices ∈ state.stage.fetched,
      ∀ write ∈ s.invalidated, write.chunk = state.chunk → write.place < slices.length
  | .metaWrite _ _ _ | .invalidate _ | .start _ _ | .lookup _ | .fetch _ | .retry _ | .clear => True

instance (s : SliceLists) (action : SliceListAction) : Decidable (NotOutdated s action) := by
  cases action <;> unfold NotOutdated <;> infer_instance

/-! ### Invalidation -/

variable {cfg}

theorem foldl_remove (spans : List Span) (cache : Nat → Option (List SliceDesc)) (k : Nat) :
    (spans.foldl (fun (cache : Nat → Option (List SliceDesc)) span =>
      update cache span.index none) cache) k =
      if k ∈ spans.map Span.index then none else cache k := by
  induction spans generalizing cache with
  | nil => rfl
  | cons span rest ih =>
    rw [foldl_cons, ih]
    by_cases here : k = span.index
    · subst here
      simp
    · simp [here]

theorem mem_invalidateRange {cache : Nat → Option (List SliceDesc)} {chunk offset len k : Nat}
    {slices : List SliceDesc} (filled : len ≠ 0) (fits : offset + len ≤ cfg.chunkSize)
    (found : slices ∈ invalidateRange cfg cache (chunk * cfg.chunkSize + offset) len k) :
    k ≠ chunk ∧ slices ∈ cache k := by
  have pos : 0 < cfg.chunkSize := by omega
  have tiles := FileWriter.splitChunkSpans_tiles pos (chunk * cfg.chunkSize + offset) len
  rw [invalidateRange, if_neg filled, foldl_remove] at found
  split at found
  · cases found
  rename_i missed
  refine ⟨?_, found⟩
  rintro rfl
  apply missed
  generalize splitChunkSpans cfg (k * cfg.chunkSize + offset) len = spans at tiles
  cases tiles with
  | done => exact absurd rfl filled
  | block _ _ _ rest _ _ _ _ =>
    have index : (k * cfg.chunkSize + offset) / cfg.chunkSize = k := by
      rw [Nat.add_comm, Nat.add_mul_div_right _ _ pos, Nat.div_eq_of_lt (by omega),
        Nat.zero_add]
    rw [index]
    exact mem_cons_self

/-! ### The invariant -/

/-- The places of a chunk in a list of writes. -/
def places (chunk : Nat) (writes : List PlacedSlice) : List Nat :=
  (writes.filter fun write => write.chunk = chunk).map PlacedSlice.place

theorem mem_places {chunk place : Nat} {writes : List PlacedSlice} :
    place ∈ places chunk writes ↔ ∃ write ∈ writes, write.chunk = chunk ∧ write.place = place := by
  simp only [places, List.mem_map, mem_filter, decide_eq_true_eq, and_assoc]

end SliceLists

/-- The list that a read has got hold of. -/
def ReadStage.list? : ReadStage → Option (List SliceDesc)
  | .lookup | .fetch => none
  | .insert slices | .use slices => some slices

namespace SliceLists

variable {cfg : WriteConfig}

/-- A write stands in the metadata. -/
def Stands (metadata : Nat → List SliceDesc) (write : PlacedSlice) : Prop :=
  (metadata write.chunk)[write.place]? = some write.desc

/-- Every list, cached or in a read's hands, has the writes it must have. -/
structure Fresh (cfg : WriteConfig) (s : SliceLists) : Prop where
  stored : ∀ write ∈ s.invalidated, Stands s.metadata write
  pending : ∀ writer, ∀ write ∈ s.committing writer, Stands s.metadata write ∧
    write.desc.length ≠ 0 ∧ write.desc.offset + write.desc.length ≤ cfg.chunkSize
  cached : ∀ k, ∀ slices ∈ s.cache k, Snapshot (s.metadata k) (places k s.invalidated) slices
  known : ∀ read, ∀ state ∈ s.reads read, ∀ write ∈ state.before,
    write.chunk = state.chunk ∧ write ∈ s.invalidated
  held : ∀ read, ∀ state ∈ s.reads read, ∀ slices ∈ state.stage.list?,
    Snapshot (s.metadata state.chunk) (state.before.map PlacedSlice.place) slices

variable {s next : SliceLists}

theorem fresh_init : Fresh cfg init where
  stored := nofun
  pending := nofun
  cached := nofun
  known := nofun
  held := nofun

section

variable (fresh : Fresh cfg s)

include fresh

theorem Fresh.setRead {read : Nat} {state : ChunkRead}
    (known : ∀ write ∈ state.before, write.chunk = state.chunk ∧ write ∈ s.invalidated)
    (held : ∀ slices ∈ state.stage.list?,
      Snapshot (s.metadata state.chunk) (state.before.map PlacedSlice.place) slices) :
    Fresh cfg (s.setRead read state) := by
  refine { fresh with known := fun other found here => ?_, held := fun other found here => ?_ }
  · rcases mem_put here with ⟨_, rfl⟩ | ⟨_, old⟩
    · exact known
    · exact fresh.known other found old
  rcases mem_put here with ⟨_, rfl⟩ | ⟨_, old⟩
  · exact held
  · exact fresh.held other found old

theorem Fresh.setCache {cache : Nat → Option (List SliceDesc)}
    (cached : ∀ k, ∀ slices ∈ cache k, Snapshot (s.metadata k) (places k s.invalidated) slices) :
    Fresh cfg { s with cache := cache } :=
  { fresh with cached := cached }

theorem Fresh.metaWrite (writer chunk : Nat) {desc : SliceDesc} (filled : desc.length ≠ 0)
    (fits : desc.offset + desc.length ≤ cfg.chunkSize) : Fresh cfg { s with
      metadata := update s.metadata chunk (s.metadata chunk ++ [desc])
      committing := update s.committing writer
        (some ⟨chunk, (s.metadata chunk).length, desc⟩) } := by
  have stands : ∀ write, Stands s.metadata write →
      Stands (update s.metadata chunk (s.metadata chunk ++ [desc])) write := by
    intro write before
    unfold Stands at before ⊢
    by_cases here : write.chunk = chunk
    · rw [here] at before
      rw [here, update_self]
      exact getElem?_append_some desc before
    · rw [update_of_ne here]
      exact before
  have grows : ∀ {k listed slices}, Snapshot (s.metadata k) listed slices →
      Snapshot (update s.metadata chunk (s.metadata chunk ++ [desc]) k) listed slices := by
    intro k listed slices snapshot
    by_cases here : k = chunk
    · subst here
      rw [update_self]
      exact snapshot.append desc
    · rw [update_of_ne here]
      exact snapshot
  refine ⟨fun write listed => stands write (fresh.stored write listed), fun other write found => ?_,
    fun k slices found => grows (fresh.cached k slices found), fresh.known,
    fun read state found slices has => grows (fresh.held read state found slices has)⟩
  rcases mem_put found with ⟨_, rfl⟩ | ⟨_, old⟩
  · refine ⟨?_, filled, fits⟩
    simp [Stands]
  · obtain ⟨before, rest⟩ := fresh.pending other write old
    exact ⟨stands write before, rest⟩

theorem Fresh.invalidate {writer : Nat} {write : PlacedSlice}
    (found : s.committing writer = some write) : Fresh cfg { s with
      cache := invalidateRange cfg s.cache (write.chunk * cfg.chunkSize + write.desc.offset)
        write.desc.length
      committing := update s.committing writer none
      invalidated := write :: s.invalidated } := by
  obtain ⟨stands, filled, fits⟩ := fresh.pending writer write found
  refine ⟨forall_mem_cons.mpr ⟨stands, fresh.stored⟩, fun other pending here => ?_,
    fun k slices here => ?_, fun read state here old listed => ?_, fresh.held⟩
  · exact fresh.pending other pending (mem_free here).2
  · obtain ⟨apart, before⟩ := mem_invalidateRange filled fits here
    refine (fresh.cached k slices before).anti fun place listed => ?_
    obtain ⟨other, mem, chunk, rfl⟩ := mem_places.mp listed
    rcases mem_cons.mp mem with rfl | old
    · exact absurd chunk.symm apart
    · exact mem_places.mpr ⟨other, old, chunk, rfl⟩
  · obtain ⟨chunk, mem⟩ := fresh.known read state here old listed
    exact ⟨chunk, mem_cons_of_mem _ mem⟩

end

theorem Fresh.step (s : SliceLists) (action : SliceListAction) (next : SliceLists)
    (fresh : Fresh cfg s) (current : NotOutdated s action)
    (taken : s.step cfg action = some next) : Fresh cfg next := by
  cases action with
  | metaWrite writer chunk desc =>
    simp only [SliceLists.step, ite_none_left_eq_some, not_or, Option.some.injEq] at taken
    obtain ⟨⟨_, filled, fits⟩, rfl⟩ := taken
    exact fresh.metaWrite writer chunk filled (not_lt.mp fits)
  | invalidate writer =>
    obtain ⟨write, found, rfl⟩ := map_eq_some_iff.mp taken
    exact fresh.invalidate found
  | start read chunk =>
    obtain ⟨_, ⟨⟩⟩ := ite_none_left_eq_some.mp taken
    refine fresh.setRead (fun write listed => ?_) nofun
    simpa [and_comm] using listed
  | lookup read =>
    obtain ⟨state, found, done⟩ := bind_eq_some_iff.mp taken
    rw [ite_none_right_eq_some] at done
    obtain ⟨_, done⟩ := done
    have known := fresh.known read state found
    split at done
    · rename_i slices hit
      cases done
      refine fresh.setRead known fun _ same => ?_
      cases same
      refine (fresh.cached state.chunk slices hit).anti fun place listed => ?_
      obtain ⟨write, mem, rfl⟩ := mem_map.mp listed
      exact mem_places.mpr ⟨write, (known write mem).2, (known write mem).1, rfl⟩
    · cases done
      exact fresh.setRead known nofun
  | fetch read =>
    obtain ⟨state, found, done⟩ := bind_eq_some_iff.mp taken
    rw [ite_none_right_eq_some, Option.some.injEq] at done
    obtain ⟨_, rfl⟩ := done
    have known := fresh.known read state found
    refine fresh.setRead known fun _ same => ?_
    cases same
    refine Snapshot.whole fun place listed => ?_
    obtain ⟨write, mem, rfl⟩ := mem_map.mp listed
    have stands := fresh.stored write (known write mem).2
    rw [Stands, (known write mem).1] at stands
    exact (List.getElem?_eq_some_iff.mp stands).1
  | insert read =>
    obtain ⟨state, found, done⟩ := bind_eq_some_iff.mp taken
    split at done
    · rename_i slices stage
      cases done
      have current := current state found slices (by rw [stage]; rfl)
      have held := fresh.held read state found slices (by rw [stage]; rfl)
      have used : Fresh cfg (s.setRead read { state with stage := .use slices }) := by
        refine fresh.setRead (fresh.known read state found) fun _ same => ?_
        cases same
        exact held
      refine used.setCache fun k listed here => ?_
      rcases mem_put here with ⟨rfl, rfl⟩ | ⟨_, old⟩
      · refine ⟨held.early, fun place listed => ?_⟩
        obtain ⟨write, mem, chunk, rfl⟩ := mem_places.mp listed
        exact current write mem chunk
      · exact fresh.cached k listed old
    all_goals cases done
  | retry read =>
    obtain ⟨state, found, done⟩ := bind_eq_some_iff.mp taken
    split at done
    · cases done
      have again : Fresh cfg (s.setRead read { state with stage := .lookup }) :=
        fresh.setRead (fresh.known read state found) nofun
      exact again.setCache fun k slices here => fresh.cached k slices (mem_free here).2
    all_goals cases done
  | clear =>
    cases taken
    exact fresh.setCache nofun

/-- In a run in which no outdated list is inserted, a read uses a list with every write whose
invalidation had returned when the read began, at the metadata's place. -/
theorem read_uses_invalidated_writes (actions : List SliceListAction) (final : SliceLists)
    (current : Run.Along (step cfg) NotOutdated init actions)
    (run : Run.exec (step cfg) init actions = some final) :
    ∀ read, ∀ state ∈ final.reads read, ∀ slices, state.stage = .use slices →
      ∀ write ∈ state.before, slices[write.place]? = some write.desc ∧
        (final.metadata state.chunk)[write.place]? = some write.desc := by
  have fresh : Fresh cfg final := Run.invariant_along Fresh.step fresh_init current run
  intro read state found slices stage write listed
  have held := fresh.held read state found slices (by rw [stage]; rfl)
  obtain ⟨chunk, mem⟩ := fresh.known read state found write listed
  have stands := fresh.stored write mem
  rw [Stands, chunk] at stands
  exact ⟨(held.getElem? (mem_map_of_mem listed)).trans stands, stands⟩

/-- A read fetches its list, a slice is committed and invalidated, and the read inserts its list or
not before the next begins. -/
def lateInsert : List SliceListAction :=
  [.start 0 0, .lookup 0, .fetch 0, .metaWrite 0 0 ⟨7, 0, 0, 1⟩, .invalidate 0]

theorem read_uses_invalidated_write : ∃ final state slices, Run.exec (step Uploads.tinyConfig) init
        (lateInsert ++ [.start 1 0, .lookup 1, .fetch 1, .insert 1]) = some final ∧
      final.reads 1 = some state ∧ state.stage = .use slices ∧ slices[0]? = some ⟨7, 0, 0, 1⟩ :=
  have run : Run.exec (step Uploads.tinyConfig) init
    (lateInsert ++ [.start 1 0, .lookup 1, .fetch 1, .insert 1]) = some _ := rfl
  ⟨_, _, _, run, rfl, rfl, (read_uses_invalidated_writes _ _ (by decide +kernel) run 1 _ rfl _ rfl
    ⟨0, 0, ⟨7, 0, 0, 1⟩⟩ (by decide)).1⟩

/-- The first read inserts the list fetched before the commit; the second, which begins after the
invalidation, finds it and misses the slice. -/
theorem stale_list_after_invalidate : ∃ final, Run.exec (step Uploads.tinyConfig) init
        (lateInsert ++ [.insert 0, .start 1 0, .lookup 1]) = some final ∧
      final.reads 1 = some ⟨0, [⟨0, 0, ⟨7, 0, 0, 1⟩⟩], .use []⟩ :=
  Run.reaches (by decide +kernel)

end SliceLists

end BrewFs.Vfs
