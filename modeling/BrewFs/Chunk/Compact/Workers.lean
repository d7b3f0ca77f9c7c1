import BrewFs.Chunk.Compact.Clients

/- Steps of compactors and collectors: they keep the invariant and change nothing a client sees. -/
namespace BrewFs.Chunk.Compact

open BrewFs.Meta BrewFs.Meta.Database List State
open SliceDesc (stop)
open Function (comp update)
open List (append_nil map_nil mem_append mem_cons_of_mem mem_cons_self mem_filter mem_map
  mem_singleton replicate)

section

variable {layout : ChunkLayout} {own : Option Nat} {s next : State}

/-- The worker's step keeps the invariant and what clients see. -/
def Hidden (layout : ChunkLayout) (s next : State) : Prop :=
  Inv layout next ∧ next.contents layout = s.contents layout

variable {worker : Nat} {job : Compaction}

section

variable (inv : Inv layout s)

include inv

theorem Inv.moved (own : Option Nat) (change : SliceDesc → Option SliceDesc)
    (added : List SliceDesc) (moves : Moves layout own s next change added)
    (bytes : ∀ chunkId p, next.byteAt layout chunkId p = s.byteAt layout chunkId p)
    (sizes : next.db.fileSize = s.db.fileSize)
    (compactors : next.compactors = update s.compactors worker job)
    (collectors : next.collectors = s.collectors)
    (mine : ∀ id, own = some id → (s.compactors worker).Owns id)
    (owned : ∀ id, job.Owns id → (s.compactors worker).Owns id ∨ id ∉ s.taken)
    (jobInv : Evolves layout own s next → job.Inv layout next) : Hidden layout s next :=
  ⟨inv.compactor moves.evolves (moves.tidy inv.tidy) compactors collectors mine owned
    (jobInv moves.evolves), contents_eq bytes sizes⟩

theorem Inv.quietCompactor (quiet : Quiet own s next) (sizes : next.db.fileSize = s.db.fileSize)
    (compactors : next.compactors = update s.compactors worker job)
    (collectors : next.collectors = s.collectors)
    (mine : ∀ id, own = some id → (s.compactors worker).Owns id)
    (owned : ∀ id, job.Owns id → (s.compactors worker).Owns id)
    (jobInv : Evolves layout own s next → job.Inv layout next) : Hidden layout s next :=
  inv.moved own some [] (quiet.moves inv.tidy) quiet.byteAt sizes compactors collectors mine
    (fun id owns => .inl (owned id owns)) jobInv

theorem Inv.quietCollector {job : Collection} (quiet : Quiet none s next)
    (sizes : next.db.fileSize = s.db.fileSize) (compactors : next.compactors = s.compactors)
    (collectors : next.collectors = update s.collectors worker job)
    (jobInv : Evolves layout none s next → Tidy layout next → job.Inv next) :
    Hidden layout s next := by
  have moves := quiet.moves inv.tidy
  have tidy := moves.tidy inv.tidy
  exact ⟨inv.collector moves.evolves tidy compactors collectors (jobInv moves.evolves tidy),
    contents_eq quiet.byteAt sizes⟩

variable {id : Nat}

omit inv in
theorem Tidy.not_pending (tidy : Tidy layout s) (live : s.Live id) : ¬ s.Pending id := by
  intro pending
  rcases pending with ⟨row, mem, same, _⟩
  exact (tidy.reserved row mem).2 (by rw [same]; exact live)

/-! ### Compactors -/

theorem hidden_job (jobInv : Evolves layout none s (s.setCompactor worker job) →
      job.Inv layout (s.setCompactor worker job))
    (owned : ∀ id, job.Owns id → (s.compactors worker).Owns id) :
    Hidden layout s (s.setCompactor worker job) :=
  inv.quietCompactor (quiet_local inv.tidy rfl rfl rfl rfl rfl) rfl rfl rfl nofun owned jobInv

theorem hidden_idle : Hidden layout s (s.setCompactor worker .idle) :=
  hidden_job inv (fun _ => trivial) fun _ owns => owns.elim

theorem hidden_snapshot (worker chunkId : Nat) : Hidden layout s
      (s.setCompactor worker (.planned chunkId (getSlices s.db.sliceMeta chunkId))) := by
  have fits : ∀ row ∈ s.db.sliceMeta, row.stop < 2 ^ 64 := fun row mem =>
    (inv.tidy.bounded row mem).trans_lt layout.chunkFits
  refine hidden_job inv (fun _ => ⟨snapshot_getSlices inv.tidy.ids fits chunkId, ?_, ?_⟩)
    fun _ owns => owns.elim
  · intro slice mem
    have row := (mem_getSlices.mp mem).1
    exact ⟨(inv.tidy.mapped slice row).1, inv.tidy.not_pending ⟨slice, row, rfl⟩⟩
  intro slice mem
  have row := (mem_getSlices.mp mem).1
  exact ⟨(inv.tidy.mapped slice row).2, inv.tidy.bounded slice row⟩

end

/-- What a compaction's transaction decodes from its own record list. -/
def replacedRecords (slices : List SliceDesc) (replacedIds : List Nat) : List (Nat × Nat × Nat) :=
  (slices.filter fun slice => replacedIds.contains slice.sliceId).map
    fun slice => (slice.sliceId, slice.offset, min slice.length u32Max)

variable {chunkId : Nat} {slices rows : List SliceDesc}

theorem Held.decode (held : Held layout s chunkId slices) (replacedIds : List Nat) :
    decodeDelayedData (encodeDelayedData slices replacedIds) =
      some (replacedRecords slices replacedIds) := by
  apply decode_encodeDelayedData
  · exact fun slice mem => (held.bounded slice mem).1
  intro slice mem
  have bound := (held.bounded slice mem).2
  have fits := layout.chunkFits
  simp only [stop] at bound
  omega

/-- The rows a compaction leaves. -/
def keptBy (chunkId : Nat) (ids : List Nat) (row : SliceDesc) : Bool :=
  !(row.chunkId == chunkId && ids.contains row.sliceId)

/-- The rows that stay when a compaction replaces the ids. -/
def spared (chunkId : Nat) (slices : List SliceDesc) (replacedIds : List Nat) : SliceDesc → Bool :=
  keptBy chunkId ((replacedRecords slices replacedIds).map fun record => record.1)

variable {replacedIds : List Nat} {db : Tables}

theorem spared_eq_false {row : SliceDesc} : spared chunkId slices replacedIds row = false ↔
    row.chunkId = chunkId ∧
      ∃ slice ∈ slices, slice.sliceId ∈ replacedIds ∧ slice.sliceId = row.sliceId := by
  simp [spared, keptBy, replacedRecords, and_assoc]

/-- The records of a compaction's transaction. -/
def stagedReplaced (chunkId : Nat) (slices : List SliceDesc) (replacedIds : List Nat) :
    List (SliceDesc × Bool) :=
  (replacedRecords slices replacedIds).map fun record =>
    (⟨record.1, chunkId, record.2.1, record.2.2⟩, false)

theorem mem_stagedReplaced {item : SliceDesc × Bool} :
    item ∈ stagedReplaced chunkId slices replacedIds ↔
      ∃ slice ∈ slices, slice.sliceId ∈ replacedIds ∧
        (⟨slice.sliceId, chunkId, slice.offset, min slice.length u32Max⟩, false) = item := by
  simp only [stagedReplaced, replacedRecords, map_map, mem_map, mem_filter, comp,
    contains_eq_mem, decide_eq_true_eq, and_assoc]

theorem extends_reclaim {table : DelayedTable} {newSlices : List SliceDesc}
    {records : List (Nat × Nat × Nat)} (delayed : db.delayed = table) :
    table.Extends (reclaimReplaced db chunkId newSlices records).delayed := by
  rw [reclaimReplaced_delayed, delayed]
  exact extends_stageAll _ _

/-- A staged slice of the snapshot has neither row nor reservation. -/
theorem retired_replaced (held : Held layout s chunkId slices) (added : List SliceDesc)
    (rows : next.db.sliceMeta = s.db.sliceMeta.filter (spared chunkId slices replacedIds) ++ added)
    (new : ∀ row ∈ added, ¬ row.sliceId ∈ s.taken ∨ s.Pending row.sliceId)
    (taken : next.taken = s.taken) (pending : ∀ id, next.Pending id → s.Pending id)
    {slice : SliceDesc} (mem : slice ∈ slices) (replaced : slice.sliceId ∈ replacedIds) :
    next.Retired slice.sliceId := by
  have settled := held.settled slice mem
  refine ⟨by rw [taken]; exact settled.1, ?_, fun now => settled.2 (pending _ now)⟩
  rintro ⟨row, rowMem, same⟩
  rw [rows] at rowMem
  rcases mem_append.mp rowMem with old | added
  · have facts := mem_filter.mp old
    have chunk := (held.snapshot.shrunk slice mem row facts.1 same).1
    rw [spared_eq_false.mpr ⟨chunk, slice, mem, replaced, same.symm⟩] at facts
    exact Bool.false_ne_true facts.2
  have facts := new row added
  rw [same] at facts
  exact facts.elim (· settled.1) settled.2

theorem doomed_reclaim (tidy : Tidy layout s) (newSlices : List SliceDesc) {record : DelayedRow}
    (mem : record ∈ (reclaimReplaced s.db chunkId newSlices
      (replacedRecords slices replacedIds)).delayed.rows) (status : record.status ≠ .retained)
    (retired : ∀ slice ∈ slices, slice.sliceId ∈ replacedIds → next.Retired slice.sliceId) :
    s.Retired record.sliceId ∨ next.Retired record.sliceId := by
  rw [reclaimReplaced_delayed] at mem
  rcases mem_stageAll mem status with old | ⟨item, itemMem, _, same⟩
  · exact .inl (tidy.doomed record old status)
  rcases mem_stagedReplaced.mp itemMem with ⟨slice, sliceMem, replaced, rfl⟩
  rw [same]
  exact .inr (retired slice sliceMem replaced)

theorem getSlices_filter (rows : List SliceDesc) (keep : SliceDesc → Bool) :
    getSlices (rows.filter keep) chunkId = (getSlices rows chunkId).filter keep := by
  simp only [getSlices, filter_filter, Bool.and_comm]

/-- A light compaction drops only shadowed rows. -/
theorem Held.shadowed_light (held : Held layout s chunkId slices) : ∀ row ∈ s.db.sliceMeta,
    spared chunkId slices (lightReplaced slices) row = false → Shadowed s.db.sliceMeta row := by
  intro row mem gone
  rcases (spared_eq_false.mp gone).2 with ⟨slice, sliceMem, replaced, same⟩
  exact held.snapshot.shadowed slice sliceMem replaced row mem same.symm

variable {newId : Nat} {written : Nat} {data merged : List UInt8}

/-- What a successful publication has checked. -/
theorem publish_inversion (held : Held layout s chunkId slices) {newSlice : SliceDesc}
    (published : replaceSlicesForCompactWithVersion s.db chunkId [newSlice]
      (encodeDelayedData slices (slices.map (·.sliceId))) slices = some db) :
    ∃ left, consumeReservation s.db.uncommitted.rows newSlice.sliceId chunkId = some left ∧
      versionMatches (getSlices s.db.sliceMeta chunkId) slices = true ∧
      db = reclaimReplaced { s.db with uncommitted := { s.db.uncommitted with rows := left } }
        chunkId
        [newSlice] (replacedRecords slices (slices.map (·.sliceId))) := by
  simp only [replaceSlicesForCompactWithVersion, held.decode] at published
  split at published
  · rename_i version
    rcases Option.map_eq_some_iff.mp published with ⟨left, consumed, made⟩
    have single : consumeReservation s.db.uncommitted.rows newSlice.sliceId chunkId =
        some left := by
      rcases Option.bind_eq_some_iff.mp consumed with ⟨after, first, rest⟩
      cases rest
      exact first
    exact ⟨left, single, version, made.symm⟩
  · cases published

/-- With the chunk still as listed, being replaced means being in the chunk. -/
theorem spared_all (current : getSlices rows chunkId = slices) :
    ∀ row ∈ rows, spared chunkId slices (slices.map (·.sliceId)) row =
      !(row.chunkId == chunkId) := by
  intro row mem
  by_cases inChunk : row.chunkId = chunkId
  · have listed : row ∈ slices := by
      rw [← current]
      exact mem_getSlices.mpr ⟨mem, inChunk⟩
    rw [spared_eq_false.mpr ⟨inChunk, row, listed, mem_map.mpr ⟨row, listed, rfl⟩, rfl⟩]
    simp [inChunk]
  · simp [spared, keptBy, inChunk]

theorem reworks_all (current : getSlices rows chunkId = slices) :
    Reworks (keepRow (spared chunkId slices (slices.map (·.sliceId)))) rows := by
  apply reworks_chunks
  intro row rowMem other otherMem same
  rw [spared_all current row rowMem, spared_all current other otherMem, same]

/-- The merged slice reads as the slices it replaces. -/
theorem chunkByte_merged {store : BlockStore} (sized : occupiedEnd layout slices = some data.length)
    (drained : drain store (mergeReads layout slices) (replicate data.length 0) = some data)
    (readable : ∀ slice ∈ slices, Readable layout store slice)
    (stored : ∀ i < data.length, sliceByte layout store newId i = data[i]?) (p : Nat) :
    chunkByte layout store [⟨newId, chunkId, 0, data.length⟩] p =
      chunkByte layout store slices p := by
  have occupied := occupiedEnd_spec sized
  rcases drain_mergeReads slices readable occupied.2.2 occupied.1 with ⟨merged, done, _, bytes⟩
  have same : merged = data := by
    rw [drained] at done
    exact (Option.some.inj done).symm
  rw [← nil_append [(⟨newId, chunkId, 0, data.length⟩ : SliceDesc)], chunkByte_concat]
  by_cases inside : p < data.length
  · rw [if_pos ⟨Nat.zero_le _, by simpa [stop] using inside⟩, ← bytes p inside, same]
    exact stored p inside
  rw [if_neg (by simp [SliceDesc.Covers, stop, inside])]
  refine (chunkByte_of_hole (owner_eq_none.mpr ?_)).symm
  intro slice mem covers
  have stop := occupied.1 slice mem
  have below := covers.2
  omega

theorem quiet_forget (tidy : Tidy layout s) {ids : List Nat}
    (db : next.db = deleteUncommittedSlices s.db ids) (store : next.store = s.store)
    (taken : next.taken = s.taken) : Quiet none s next where
  rows := by
    rw [db]
    rfl
  taken := taken
  reservations := by
    rw [db]
    exact (filter_sublist).map _
  reserved := by
    intro row mem
    rw [db] at mem
    exact ⟨row, (mem_filter.mp mem).1, rfl, fun _ => rfl⟩
  blocks := fun id _ index => by rw [store]
  delayed := by
    rw [db]
    exact .refl _
  doomed := by
    rw [db]
    exact tidy.doomed

section

variable (inv : Inv layout s)

include inv

theorem hidden_light (job : s.compactors worker = .planned chunkId slices) :
    Hidden layout s ((s.commit (replaceSlicesForCompact s.db chunkId []
      (encodeDelayedData slices (lightReplaced slices)))).setCompactor worker .idle) := by
  have held : Held layout s chunkId slices := (job ▸ inv.compactors worker :)
  simp only [commit, replaceSlicesForCompact, held.decode, Option.map_some, Option.getD_some]
  have shadowed := held.shadowed_light
  have nodup := nodup_of_ids inv.tidy.ids
  refine inv.moved none (keepRow (spared chunkId slices (lightReplaced slices))) []
    ⟨?_, reworks_keep nodup shadowed, (by simp), .nil, (by simp), fun _ => id,
      inv.tidy.reservations, ?_, fun id _ _ index => rfl, extends_reclaim rfl, ?_⟩
    ?_ rfl rfl rfl (by simp) (fun id owns => owns.elim) (fun _ => trivial)
  · rw [filterMap_keepRow]
    rfl
  · intro row mem
    have facts := inv.tidy.reserved row mem
    refine ⟨facts.1, ?_, fun pending _ => ⟨row, mem, rfl, pending⟩⟩
    rintro ⟨other, otherMem, same⟩
    simp only [reclaimReplaced, map_nil, append_nil] at otherMem
    exact facts.2 ⟨other, (mem_filter.mp otherMem).1, same⟩
  · intro record mem status
    refine doomed_reclaim inv.tidy [] mem status fun slice sliceMem replaced => ?_
    refine retired_replaced held [] ?_ ?_ ?_ ?_ sliceMem replaced
    · rfl
    · simp
    · rfl
    · exact fun _ => id
  · intro chunk p
    simp only [byteAt, setCompactor, reclaimReplaced, map_nil, append_nil]
    rw [getSlices_filter, chunkByte, chunkByte, owner_filter]
    · exact nodup.sublist filter_sublist
    intro row mem gone
    rcases shadowed row (mem_getSlices.mp mem).1 gone with ⟨later, before, covering⟩
    refine ⟨later, ?_, covering.2⟩
    have inChunk := (mem_getSlices.mp mem).2
    have both := before.filter (fun row : SliceDesc => row.chunkId == chunk)
    rw [filter_cons_of_pos (by simpa using inChunk),
      filter_cons_of_pos (by rw [covering.1]; simpa using inChunk)] at both
    exact both

theorem hidden_heavy {total : Nat} (job : s.compactors worker = .planned chunkId slices)
    (occupied : occupiedEnd layout slices = some total) : Hidden layout s (s.setCompactor worker
      (.merging chunkId slices (mergeReads layout slices) (replicate total 0))) := by
  have held : Held layout s chunkId slices := (job ▸ inv.compactors worker :)
  refine hidden_job inv (fun evolves =>
    ⟨[], nil_append _, evolves.held held, ?_, nofun, fun _ => ?_⟩) fun _ owns => owns.elim <;>
    rw [length_replicate]
  · exact occupied
  · rfl

theorem hidden_readBlock {read : BlockRead} {todo : List BlockRead} {result : List UInt8}
    (job : s.compactors worker = .merging chunkId slices (read :: todo) merged)
    (done : read.complete s.store merged = some result) :
    Hidden layout s (s.setCompactor worker (.merging chunkId slices todo result)) := by
  obtain ⟨finished, split, before⟩ := job ▸ inv.compactors worker
  have planned : read ∈ mergeReads layout slices := by
    rw [← split]
    exact mem_append_right _ mem_cons_self
  rcases mem_flatMap.mp planned with ⟨slice, sliceMem, inSlice⟩
  have inside := Nat.le_trans
    (blockReads_inside (blockSpanIterRange_tiles layout 0 slice.length) inSlice)
    ((occupiedEnd_spec before.sized).1 slice sliceMem)
  have length := complete_length inside done
  refine hidden_job inv (fun evolves => ⟨finished ++ [read],
    by rw [append_assoc]; exact split, evolves.held before.held, ?_, ?_, ?_⟩)
    fun _ owns => owns.elim
  · rw [length]
    exact before.sized
  · intro other mem
    rcases mem_append.mp mem with old | new
    · exact before.inSlices other old
    · rw [mem_singleton.mp new]
      exact ⟨slice, sliceMem, blockReads_key inSlice⟩
  · intro live
    have drained := before.drained (evolves.allLive before.held live)
    show drain s.store (finished ++ [read]) (replicate result.length 0) = some result
    rw [length, drain_append, drained, Option.bind_some, drain, done]
    rfl

theorem hidden_reserve (job : s.compactors worker = .merging chunkId slices [] merged)
    (fresh : newId ∉ s.taken) (small : newId < 2 ^ 64) :
    Hidden layout s (setCompactor { s with
      db := recordUncommittedSlice s.db newId chunkId merged.length
      taken := newId :: s.taken } worker
      (.uploading chunkId slices newId merged (blockSpanIterChunk 0 merged.length layout) 0)) := by
  obtain ⟨finished, split, before⟩ := job ▸ inv.compactors worker
  rw [append_nil] at split
  subst split
  have unmapped : ¬ s.Live newId := fun ⟨row, mem, same⟩ =>
    fresh (same ▸ (inv.tidy.mapped row mem).1)
  refine inv.moved none some [] ⟨?_, reworks_refl _, nofun, .nil,
      nofun, fun id mem => mem_cons_of_mem _ mem, ?_, ?_,
      fun id _ _ index => rfl, .refl _,
      fun record mem status => .inl (inv.tidy.doomed record mem status)⟩
    (fun chunk p => rfl) rfl rfl rfl nofun ?_ ?_
  · rw [filterMap_some, append_nil]
    rfl
  · simp only [setCompactor, recordUncommittedSlice, map_append, nodup_append]
    refine ⟨inv.tidy.reservations, nodup_singleton _, ?_⟩
    intro id old other new clash
    rcases mem_map.mp old with ⟨row, rowMem, rfl⟩
    rw [mem_singleton.mp new] at clash
    have known := (inv.tidy.reserved row rowMem).1
    rw [clash] at known
    exact fresh known
  · intro row mem
    rcases mem_append.mp mem with old | new
    · have known := inv.tidy.reserved row old
      exact ⟨mem_cons_of_mem _ known.1, known.2, fun pending _ => ⟨row, old, rfl, pending⟩⟩
    · rw [mem_singleton.mp new]
      exact ⟨mem_cons_self, unmapped, fun _ known => absurd known fresh⟩
  · intro id owns
    right
    rw [← show newId = id from owns]
    exact fresh
  · intro evolves
    refine ⟨evolves.merged before, mem_cons_self, small, unmapped, Nat.zero_le _, ?_, ?_⟩
    · exact blockSpanIterRange_tiles layout 0 merged.length
    · exact fun _ i below => absurd below (Nat.not_lt_zero i)

theorem hidden_writeBlock {span : Span} {todo : List Span}
    (job : s.compactors worker = .uploading chunkId slices newId data (span :: todo) written) :
    Hidden layout s (setCompactor { s with store := writeSpan s.store newId data written span
      } worker (.uploading chunkId slices newId data todo
        (written + min span.len (data.length - written)))) := by
  obtain ⟨merged, uploaded⟩ := job ▸ inv.compactors worker
  have bound := (occupiedEnd_spec merged.sized).2.1
  refine inv.quietCompactor (quiet_blocks inv.tidy rfl rfl
    (fun other different index => writeSpan_other written span different index)
    uploaded.unmapped (.inl rfl)) rfl rfl rfl ?_ ?_ ?_
  · intro id mine
    rw [job]
    exact Option.some.inj mine
  · intro id owns
    rw [job]
    exact owns
  · intro evolves
    rcases uploaded.tiles.uncons with ⟨take, pos, bounded, fits, same, tail⟩
    subst same
    have piece : min take (data.length - written) = take := by omega
    have rest : data.length - (written + take) = data.length - written - take := by omega
    rw [piece] at evolves ⊢
    refine ⟨evolves.merged merged, evolves.taken newId uploaded.taken, uploaded.small,
      uploaded.unmapped, by omega, ?_, ?_⟩
    · rw [rest]
      exact tail
    · intro pending
      exact writeSpan_spec bound pos fits (by omega) (uploaded.stored pending)

/-- Heavy compaction: the chunk is still the snapshot, and the merged slice reads like it. -/
theorem hidden_publish (job : s.compactors worker = .uploading chunkId slices newId data [] written)
    (published : replaceSlicesForCompactWithVersion s.db chunkId [⟨newId, chunkId, 0, data.length⟩]
      (encodeDelayedData slices (slices.map (·.sliceId))) slices = some db)
    (history : List SliceDesc) : Hidden layout s
      (setCompactor { s with db := db, history := history } worker (.published newId)) := by
  obtain ⟨merged, uploaded⟩ := job ▸ inv.compactors worker
  have complete : written = data.length := by
    have rest := uploaded.tiles.nil_length
    have front := uploaded.bounded
    omega
  rcases publish_inversion merged.held published with ⟨left, consumed, version, rfl⟩
  rcases consumeReservation_spec consumed with ⟨⟨mine, mineMem, mineId, mineChunk, minePending⟩,
    fewer, spent⟩
  have reserved : s.Pending newId := ⟨mine, mineMem, mineId, minePending⟩
  have stored : ∀ i < data.length, sliceByte layout s.store newId i = data[i]? := by
    have before := uploaded.stored reserved
    rwa [complete] at before
  have current := merged.held.snapshot.current inv.tidy.ids version
  have bound := (occupiedEnd_spec merged.sized).2.1
  have kept := spared_all current
  refine inv.moved (some newId) (keepRow (spared chunkId slices (slices.map (·.sliceId))))
    [⟨newId, chunkId, 0, data.length⟩]
    ⟨?_, reworks_all current, ?_, nodup_singleton _, ?_, fun _ => id,
      inv.tidy.reservations.sublist (fewer.map _), ?_, fun id _ _ index => rfl,
      extends_reclaim rfl, ?_⟩ ?_ rfl rfl rfl ?_ (fun id owns => owns.elim) (fun _ => trivial)
  · rw [filterMap_keepRow]
    rfl
  · intro row mem
    rw [mem_singleton.mp mem]
    exact .inr ⟨reserved, rfl⟩
  · intro row mem
    rw [mem_singleton.mp mem]
    refine ⟨uploaded.taken, uploaded.small, by simpa [stop] using bound, ?_⟩
    intro i upper
    have some : (data[i]?).isSome := by simpa using upper
    rwa [← stored i upper] at some
  · intro row mem
    have before := inv.tidy.reserved row (fewer.subset mem)
    refine ⟨before.1, ?_, fun status _ => ⟨row, fewer.subset mem, rfl, status⟩⟩
    rintro ⟨other, otherMem, same⟩
    rcases mem_append.mp otherMem with old | new
    · exact before.2 ⟨other, (mem_filter.mp old).1, same⟩
    -- the reservation of the new slice has been consumed
    rw [mem_singleton.mp new] at same
    have only : row = mine := inj_on_of_nodup_map inv.tidy.reservations
      (fewer.subset mem) mineMem (by rw [mineId]; exact same.symm)
    exact spent row mem (by rw [only]; exact ⟨mineId, mineChunk, minePending⟩)
  · intro record mem status
    refine doomed_reclaim inv.tidy [⟨newId, chunkId, 0, data.length⟩] mem status
      fun slice sliceMem replaced => ?_
    refine retired_replaced merged.held [⟨newId, chunkId, 0, data.length⟩] ?_ ?_ ?_ ?_ sliceMem
      replaced
    · rfl
    · intro row mem
      rw [mem_singleton.mp mem]
      exact .inr reserved
    · rfl
    · rintro id ⟨row, mem, same, status⟩
      exact ⟨row, fewer.subset mem, same, status⟩
  · intro chunk p
    show chunkByte layout s.store (getSlices (s.db.sliceMeta.filter (spared _ _ _) ++
      [⟨newId, chunkId, 0, data.length⟩]) chunk) p = _
    rw [getSlices_concat, getSlices_filter]
    by_cases same : chunkId = chunk
    · subst same
      have listed : ∀ slice ∈ slices, slice ∈ s.db.sliceMeta := by
        intro slice mem
        rw [← current] at mem
        exact (mem_getSlices.mp mem).1
      rw [if_pos rfl, byteAt, filter_eq_nil_iff.mpr, current]
      · exact chunkByte_merged merged.sized
          (merged.drained fun slice mem => ⟨slice, listed slice mem, rfl⟩)
          (fun slice mem => inv.tidy.readable slice (listed slice mem)) stored p
      intro row mem
      have inChunk := mem_getSlices.mp mem
      simp [kept row inChunk.1, inChunk.2]
    · rw [if_neg same, filter_eq_self.mpr, byteAt]
      intro row mem
      have inChunk := mem_getSlices.mp mem
      simp [kept row inChunk.1, inChunk.2, Ne.symm same]
  · intro id acting
    rw [job]
    exact Option.some.inj acting

theorem compactorStep_spec {action : CompactorAction}
    (taken : compactorStep layout s worker action = some next) : Hidden layout s next := by
  cases action <;> simp only [compactorStep] at taken
  case snapshot chunkId =>
    cases taken
    exact hidden_snapshot inv worker chunkId
  case light =>
    split at taken
    · rename_i chunkId slices job
      split at taken <;> cases taken
      · exact ⟨inv, rfl⟩
      · exact hidden_light inv job
    · cases taken
  case heavy =>
    split at taken
    · rename_i chunkId slices job
      split at taken
      · cases taken
        exact hidden_idle inv
      rename_i total occupied
      cases taken
      exact hidden_heavy inv job occupied
    · cases taken
  case readBlock =>
    split at taken
    · rename_i chunkId slices read todo merged job
      split at taken
      · cases taken
        exact hidden_idle inv
      rename_i result done
      cases taken
      exact hidden_readBlock inv job done
    · cases taken
  case reserve newId =>
    split at taken
    · rename_i chunkId slices merged job
      obtain ⟨fresh, ⟨⟩⟩ := Option.ite_none_right_eq_some.mp taken
      exact hidden_reserve inv job fresh.1 fresh.2
    · cases taken
  case writeBlock =>
    split at taken
    · rename_i chunkId slices newId data span todo written job
      cases taken
      exact hidden_writeBlock inv job
    · cases taken
  case publish =>
    split at taken
    · rename_i chunkId slices newId data written job
      split at taken
      · rename_i db published
        cases taken
        exact hidden_publish inv job published _
      cases taken
      have facts := job ▸ inv.compactors worker
      refine hidden_job inv (fun _ => ⟨facts.2.taken, facts.2.unmapped⟩) ?_
      rw [job]
      exact fun _ => id
    · cases taken
  case confirm =>
    split at taken
    · cases taken
      exact inv.quietCompactor (quiet_forget inv.tidy rfl rfl rfl) rfl rfl rfl
        (by simp) (fun id owns => owns.elim) (fun _ => trivial)
    · cases taken
  case cleanup outcome =>
    split at taken
    · rename_i newId size job
      cases taken
      have facts := job ▸ inv.compactors worker
      refine inv.quietCompactor (quiet_blocks inv.tidy rfl rfl
        (fun other different index => deleteExtent_other layout s.store newId size outcome different
          index)
        facts.2 (.inl rfl)) rfl rfl rfl ?_ (fun id owns => owns.elim) (fun _ => trivial)
      intro id mine
      rw [job]
      exact Option.some.inj mine
    · cases taken
  case crash =>
    cases taken
    exact hidden_idle inv

/-! ### Collectors -/

theorem hidden_collection (worker : Nat) (job : Collection)
    (jobInv : Evolves layout none s (s.setCollector worker job) →
      job.Inv (s.setCollector worker job)) : Hidden layout s (s.setCollector worker job) :=
  inv.quietCollector (quiet_local inv.tidy rfl rfl rfl rfl rfl) rfl rfl rfl fun evolves _ =>
    jobInv evolves

theorem hidden_delete {job : Collection} {sliceId size : Nat} {outcome : Outcome}
    (retired : s.Retired sliceId) (jobInv : ∀ next, Evolves layout none s next → job.Inv next) :
    Hidden layout s (setCollector { s with
      store := deleteExtent layout s.store sliceId size outcome } worker job) :=
  inv.quietCollector (quiet_blocks inv.tidy rfl rfl
    (fun _ different index => deleteExtent_other layout s.store sliceId size outcome different
      index)
    retired.2.1 (.inr retired.2.2)) rfl rfl rfl fun evolves _ => jobInv _ evolves

theorem hidden_select (worker : Nat) (ids : List Nat) :
    Hidden layout s (s.setCollector worker (.selected (selectDelayed s.db.delayed ids))) := by
  apply hidden_collection inv worker
  intro evolves row mem
  have facts := mem_filter.mp mem
  have status : row.status ≠ .retained := by
    intro retained
    simp [retained] at facts
  have agrees : Agrees s row.id row.sliceId row.size := by
    refine ⟨inv.tidy.records row facts.1, ?_⟩
    intro record recordMem same
    rw [inj_on_of_nodup_map inv.tidy.distinct recordMem facts.1 same]
    exact ⟨rfl, rfl, status⟩
  exact ⟨evolves.retired (inv.tidy.doomed row facts.1 status), evolves.agrees inv.tidy agrees⟩

theorem hidden_process {rows : List DelayedRow} (job : s.collectors worker = .selected rows) :
    Hidden layout s (setCollector { s with db := (processDelayedSlices rows s.db).1 } worker
      (.deleting (processDelayedSlices rows s.db).2 [])) := by
  have held := job ▸ inv.collectors worker
  have collects := processDelayedSlices_spec rows s.db
  refine inv.quietCollector ⟨?_, rfl, ?_, ?_, fun id _ index => rfl, collects.extend, ?_⟩
    collects.sizes rfl rfl ?_
  · apply collects.mappings
    intro record mem row rowMem same
    exact (held record mem).1.2.1 ⟨row, rowMem, same⟩
  · simp only [setCollector, collects.uncommitted]
    exact .refl _
  · simp only [setCollector, collects.uncommitted]
    exact fun row mem => ⟨row, mem, rfl, fun _ => rfl⟩
  · intro record mem status
    rcases collects.marked mem with ⟨before, beforeMem, same | ⟨same, chosen, chosenMem, id⟩⟩
    · rw [same] at status ⊢
      exact inv.tidy.doomed before beforeMem status
    rw [same]
    exact inv.tidy.doomed before beforeMem
      ((held chosen chosenMem).2.2 before beforeMem id.symm).2.2
  · intro evolves _ item mem
    rcases collects.listed item mem with ⟨record, recordMem, same⟩
    rw [same]
    exact ⟨evolves.retired (held record recordMem).1,
      evolves.agrees inv.tidy (held record recordMem).2⟩

theorem hidden_confirm (worker : Nat) (confirmed : List Nat) (reached : Bool) :
    Hidden layout s (setCollector { s with
      db := if reached then confirmDelayedDeleted s.db confirmed else s.db } worker .scanning) := by
  cases reached with
  | false => exact hidden_collection inv worker .scanning (fun _ => trivial)
  | true =>
    refine inv.quietCollector ⟨rfl, rfl, .refl _, ?_, fun id _ index => rfl,
      extends_filter _ _, ?_⟩ rfl rfl rfl (fun _ _ => trivial)
    · exact fun row mem => ⟨row, mem, rfl, fun _ => rfl⟩
    · exact fun record mem => inv.tidy.doomed record (mem_filter.mp mem).1

theorem hidden_claim (worker : Nat) (aged orphaned : List Nat) :
    Hidden layout s (setCollector { s with
      db := (cleanupOrphanUncommittedSlices s.db aged orphaned).1 } worker
      (.deletingOrphans (cleanupOrphanUncommittedSlices s.db aged orphaned).2 [])) := by
  refine inv.quietCollector ⟨rfl, rfl, claimOrphans_ids _ _ _, fun row mem => mem_claimOrphans mem,
    fun id _ index => rfl, .refl _, inv.tidy.doomed⟩ rfl rfl rfl ?_
  intro _ tidy item mem
  rcases orphan_of_cleanup mem with ⟨row, rowMem, same, orphan⟩
  have facts := tidy.reserved row rowMem
  rw [same] at facts
  refine ⟨facts.1, facts.2, ?_⟩
  -- a slice has one reservation, and this one is an orphan
  intro pending
  rcases pending with ⟨other, otherMem, otherId, status⟩
  have only : other = row := inj_on_of_nodup_map tidy.reservations otherMem rowMem
    (by rw [otherId, same])
  rw [only, orphan] at status
  cases status

theorem collectorStep_spec {action : CollectorAction}
    (taken : collectorStep layout s worker action = some next) : Hidden layout s next := by
  have held := inv.collectors worker
  cases action <;> simp only [collectorStep] at taken
  case select ids =>
    split at taken
    · cases taken
      exact hidden_select inv worker ids
    · cases taken
  case process =>
    split at taken
    · rename_i rows job
      cases taken
      exact hidden_process inv job
    · cases taken
  case deleteBlocks outcome =>
    split at taken
    · rename_i item ready confirmed job
      rw [job] at held
      have rest : ∀ other confirmed, Evolves layout none s other →
          (Collection.deleting ready confirmed).Inv other :=
        fun other confirmed evolves => evolves.collection inv.tidy fun later mem =>
          held later (mem_cons_of_mem _ mem)
      have retired := (held item mem_cons_self).1
      split at taken <;>
        (cases taken; exact hidden_delete inv retired fun other => rest other _)
    · cases taken
  case confirm reached =>
    split at taken
    · rename_i confirmed job
      cases taken
      exact hidden_confirm inv worker confirmed reached
    · cases taken
  case claim aged orphaned =>
    split at taken
    · cases taken
      exact hidden_claim inv worker aged orphaned
    · cases taken
  case deleteOrphan outcome =>
    split at taken
    · rename_i sliceId size orphans cleaned job
      rw [job] at held
      have rest : ∀ other cleaned, Evolves layout none s other →
          (Collection.deletingOrphans orphans cleaned).Inv other :=
        fun other cleaned evolves => evolves.collection inv.tidy fun later mem =>
          held later (mem_cons_of_mem _ mem)
      have retired := held (sliceId, size) mem_cons_self
      split at taken <;>
        (cases taken; exact hidden_delete inv retired fun other => rest other _)
    · cases taken
  case forget reached =>
    split at taken
    · cases taken
      cases reached with
      | false => exact hidden_collection inv worker .idle (fun _ => trivial)
      | true =>
        exact inv.quietCollector (quiet_forget inv.tidy rfl rfl rfl) rfl rfl rfl
          (fun _ _ => trivial)
    · cases taken
  case crash =>
    cases taken
    exact hidden_collection inv worker .idle (fun _ => trivial)

end

end

end BrewFs.Chunk.Compact
