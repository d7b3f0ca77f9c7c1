import BrewFs.Chunk.Compact.Blocks
import BrewFs.Chunk.Compact.Transactions

/- The invariant of the shared tables and of every worker, and what a worker may rely on while
the others move. -/
namespace BrewFs.Chunk.Compact

open BrewFs.Meta BrewFs.Meta.Database
open Function (update update_apply update_eq_self)

variable (s : State) (sliceId : Nat)

/-- Some mapping names the slice. -/
def State.Live : Prop := ∃ row ∈ s.db.sliceMeta, row.sliceId = sliceId

/-- The slice has a reservation that may still be published. -/
def State.Pending : Prop :=
  ∃ row ∈ s.db.uncommitted.rows, row.sliceId = sliceId ∧ row.status = .pending

/-- The slice was handed out, is not mapped, and never will be again. -/
def State.Retired : Prop :=
  sliceId ∈ s.taken ∧ ¬ s.Live sliceId ∧ ¬ s.Pending sliceId

/-- A worker's copy of a chunk's slices. -/
structure Held (layout : ChunkLayout) (s : State) (chunkId : Nat)
    (slices : List SliceDesc) : Prop where
  snapshot : Snapshot s.db.sliceMeta chunkId slices
  settled : ∀ slice ∈ slices, slice.sliceId ∈ s.taken ∧ ¬ s.Pending slice.sliceId
  bounded : ∀ slice ∈ slices, slice.sliceId < 2 ^ 64 ∧ slice.stop ≤ layout.chunkSize

def AllLive (s : State) (slices : List SliceDesc) : Prop := ∀ slice ∈ slices, s.Live slice.sliceId

/-- While all its slices are mapped, a merge has read what the blocks hold. -/
structure Merged (layout : ChunkLayout) (s : State) (chunkId : Nat) (slices : List SliceDesc)
    (finished : List BlockRead) (buf : List UInt8) : Prop where
  held : Held layout s chunkId slices
  sized : occupiedEnd layout slices = some buf.length
  inSlices : ∀ read ∈ finished, ∃ slice ∈ slices, read.key.1 = slice.sliceId
  drained : AllLive s slices → drain s.store finished (List.replicate buf.length 0) = some buf

/-- While its reservation is pending, an upload has written the front of its data. -/
structure Uploaded (layout : ChunkLayout) (s : State) (newId : Nat) (data : List UInt8)
    (todo : List Span) (written : Nat) : Prop where
  taken : newId ∈ s.taken
  small : newId < 2 ^ 64
  unmapped : ¬ s.Live newId
  bounded : written ≤ data.length
  tiles : Tiles layout.blockSize written (data.length - written) todo
  stored : s.Pending newId → ∀ i < written, sliceByte layout s.store newId i = data[i]?

def Compaction.Inv (layout : ChunkLayout) (s : State) : Compaction → Prop
  | .idle => True
  | .planned chunkId slices => Held layout s chunkId slices
  | .merging chunkId slices todo merged =>
    ∃ finished, finished ++ todo = mergeReads layout slices ∧
      Merged layout s chunkId slices finished merged
  | .uploading chunkId slices newId data todo written =>
    Merged layout s chunkId slices (mergeReads layout slices) data ∧
      Uploaded layout s newId data todo written
  | .published _ => True
  | .conflicted newId _ => newId ∈ s.taken ∧ ¬ s.Live newId

/-- The slice id whose blocks a compaction may write or clean up. -/
def Compaction.Owns : Compaction → Nat → Prop
  | .uploading _ _ newId _ _ _, id => newId = id
  | .conflicted newId _, id => newId = id
  | _, _ => False

/-- A collector's copy of a record still describes the record, if it exists. -/
def Agrees (s : State) (id sliceId size : Nat) : Prop :=
  id < s.db.delayed.seq ∧ ∀ record ∈ s.db.delayed.rows, record.id = id →
    record.sliceId = sliceId ∧ record.size = size ∧ record.status ≠ .retained

def Collection.Inv (s : State) : Collection → Prop
  | .idle => True
  | .selected rows => ∀ row ∈ rows, s.Retired row.sliceId ∧ Agrees s row.id row.sliceId row.size
  | .deleting ready _ => ∀ item ∈ ready,
      s.Retired item.sliceId ∧ Agrees s item.delayedId item.sliceId item.size
  | .scanning => True
  | .deletingOrphans orphans _ => ∀ item ∈ orphans, s.Retired item.1

structure Tidy (layout : ChunkLayout) (s : State) : Prop where
  ids : (s.db.sliceMeta.map (·.sliceId)).Nodup
  mapped : ∀ row ∈ s.db.sliceMeta, row.sliceId ∈ s.taken ∧ row.sliceId < 2 ^ 64
  bounded : ∀ row ∈ s.db.sliceMeta, row.stop ≤ layout.chunkSize
  readable : ∀ row ∈ s.db.sliceMeta, Readable layout s.store row
  reservations : (s.db.uncommitted.rows.map (·.sliceId)).Nodup
  reserved : ∀ row ∈ s.db.uncommitted.rows, row.sliceId ∈ s.taken ∧ ¬ s.Live row.sliceId
  doomed : ∀ record ∈ s.db.delayed.rows, record.status ≠ .retained → s.Retired record.sliceId
  records : ∀ record ∈ s.db.delayed.rows, record.id < s.db.delayed.seq
  distinct : (s.db.delayed.rows.map (·.id)).Nodup

structure Inv (layout : ChunkLayout) (s : State) : Prop where
  tidy : Tidy layout s
  compactors : ∀ worker, (s.compactors worker).Inv layout s
  owners : ∀ worker other id, worker ≠ other → (s.compactors worker).Owns id →
    ¬ (s.compactors other).Owns id
  collectors : ∀ worker, (s.collectors worker).Inv s

theorem inv_init (layout : ChunkLayout) : Inv layout State.init where
  tidy := by
    refine ⟨?_, ?_, ?_, ?_, ?_, ?_, ?_, ?_, ?_⟩ <;> simp [State.init, Tables.empty]
  compactors := fun _ => trivial
  owners := fun _ _ _ _ owns => owns.elim
  collectors := fun _ => trivial

/-- What a step does to the shared state, for all but the owner of `own`. -/
structure Evolves (layout : ChunkLayout) (own : Option Nat) (s next : State) : Prop where
  taken : ∀ id ∈ s.taken, id ∈ next.taken
  live : ∀ id ∈ s.taken, next.Live id → s.Live id ∨ s.Pending id ∧ own = some id
  pending : ∀ id ∈ s.taken, next.Pending id → s.Pending id
  blocks : ∀ id ∈ s.taken, (s.Live id ∧ next.Live id) ∨ (own ≠ some id ∧ next.Pending id) →
    ∀ index, next.store (id, index) = s.store (id, index)
  snapshot : ∀ chunkId slices, Held layout s chunkId slices →
    Snapshot next.db.sliceMeta chunkId slices
  delayed : s.db.delayed.Extends next.db.delayed

section

variable {layout : ChunkLayout} {own : Option Nat} {s next : State} {id : Nat}

theorem Evolves.retired (evolves : Evolves layout own s next) (retired : s.Retired id) :
    next.Retired id := by
  refine ⟨evolves.taken id retired.1, ?_, ?_⟩
  · intro live
    rcases evolves.live id retired.1 live with before | ⟨pending, _⟩
    · exact retired.2.1 before
    · exact retired.2.2 pending
  · intro pending
    exact retired.2.2 (evolves.pending id retired.1 pending)

variable {chunkId worker : Nat} {slices : List SliceDesc} {job : Collection}

section

variable (evolves : Evolves layout own s next)

include evolves

theorem Evolves.held (held : Held layout s chunkId slices) : Held layout next chunkId slices where
  snapshot := evolves.snapshot chunkId slices held
  settled := by
    intro slice mem
    have facts := held.settled slice mem
    exact ⟨evolves.taken _ facts.1, fun pending => facts.2 (evolves.pending _ facts.1 pending)⟩
  bounded := held.bounded

theorem Evolves.allLive
    (held : Held layout s chunkId slices) (live : AllLive next slices) : AllLive s slices := by
  intro slice mem
  have facts := held.settled slice mem
  rcases evolves.live _ facts.1 (live slice mem) with before | ⟨pending, _⟩
  · exact before
  · exact absurd pending facts.2

theorem Evolves.merged {finished : List BlockRead}
    {buf : List UInt8} (merged : Merged layout s chunkId slices finished buf) :
    Merged layout next chunkId slices finished buf where
  held := evolves.held merged.held
  sized := merged.sized
  inSlices := merged.inSlices
  drained := by
    intro live
    have before := evolves.allLive merged.held live
    rw [← merged.drained before]
    apply drain_congr
    intro read mem
    rcases merged.inSlices read mem with ⟨slice, sliceMem, key⟩
    have taken := (merged.held.settled slice sliceMem).1
    have same := evolves.blocks slice.sliceId taken
      (.inl ⟨before slice sliceMem, live slice sliceMem⟩) read.key.2
    rwa [← key] at same

theorem Evolves.unmapped (taken : id ∈ s.taken)
    (foreign : own ≠ some id) (unmapped : ¬ s.Live id) : ¬ next.Live id := by
  intro live
  rcases evolves.live id taken live with before | ⟨_, mine⟩
  · exact unmapped before
  · exact foreign mine

theorem Evolves.uploaded {newId : Nat} {data : List UInt8} {todo : List Span} {written : Nat}
    (foreign : own ≠ some newId) (uploaded : Uploaded layout s newId data todo written) :
    Uploaded layout next newId data todo written where
  taken := evolves.taken newId uploaded.taken
  small := uploaded.small
  unmapped := evolves.unmapped uploaded.taken foreign uploaded.unmapped
  bounded := uploaded.bounded
  tiles := uploaded.tiles
  stored := by
    intro pending i upper
    rw [sliceByte_congr (evolves.blocks newId uploaded.taken (.inr ⟨foreign, pending⟩))]
    exact uploaded.stored (evolves.pending newId uploaded.taken pending) i upper

theorem Evolves.compaction {job : Compaction} (foreign : ∀ id, own = some id → ¬ job.Owns id)
    (inv : job.Inv layout s) : job.Inv layout next := by
  cases job with
  | idle => trivial
  | planned chunkId slices => exact evolves.held inv
  | merging chunkId slices todo merged =>
    rcases inv with ⟨finished, split, facts⟩
    exact ⟨finished, split, evolves.merged facts⟩
  | uploading chunkId slices newId data todo written =>
    refine ⟨evolves.merged inv.1, evolves.uploaded ?_ inv.2⟩
    intro mine
    exact foreign newId mine rfl
  | published newId => trivial
  | conflicted newId size =>
    refine ⟨evolves.taken newId inv.1, evolves.unmapped inv.1 ?_ inv.2⟩
    intro mine
    exact foreign newId mine rfl

theorem Evolves.agrees (tidy : Tidy layout s)
    {sliceId size : Nat} (agrees : Agrees s id sliceId size) : Agrees next id sliceId size := by
  refine ⟨agrees.1.trans_le evolves.delayed.seq, ?_⟩
  intro record mem same
  rcases evolves.delayed.kept tidy.records record mem (by rw [same]; exact agrees.1) with
    ⟨before, beforeMem, id, how⟩
  have facts := agrees.2 before beforeMem (by omega)
  rcases how with retained | ⟨slice, length, status⟩
  · exact absurd retained facts.2.2
  · exact ⟨by rw [slice, facts.1], by rw [length, facts.2.1], status⟩

theorem Evolves.collection (tidy : Tidy layout s) (inv : job.Inv s) : job.Inv next := by
  cases job with
  | idle => trivial
  | selected rows =>
    intro row mem
    exact ⟨evolves.retired (inv row mem).1, evolves.agrees tidy (inv row mem).2⟩
  | deleting ready confirmed =>
    intro item mem
    exact ⟨evolves.retired (inv item mem).1, evolves.agrees tidy (inv item mem).2⟩
  | scanning => trivial
  | deletingOrphans orphans cleaned =>
    intro item mem
    exact evolves.retired (inv item mem)

end

/-- A compactor's step: it acts on blocks it owned, and newly owns at most a fresh id. -/
theorem Inv.compactor (inv : Inv layout s) {job : Compaction} (evolves : Evolves layout own s next)
    (tidy : Tidy layout next) (compactors : next.compactors = update s.compactors worker job)
    (collectors : next.collectors = s.collectors)
    (mine : ∀ id, own = some id → (s.compactors worker).Owns id)
    (owned : ∀ id, job.Owns id → (s.compactors worker).Owns id ∨ id ∉ s.taken)
    (jobInv : job.Inv layout next) : Inv layout next where
  tidy := tidy
  compactors := by
    rw [compactors]
    refine (Function.forall_update_iff _ fun _ job => Compaction.Inv layout next job).mpr
      ⟨jobInv, fun other differs => evolves.compaction ?_ (inv.compactors other)⟩
    exact fun id acting => inv.owners worker other id differs.symm (mine id acting)
  owners := by
    -- owned ids have been handed out, so a fresh one is nobody else's
    have known : ∀ other id, (s.compactors other).Owns id → id ∈ s.taken := by
      intro other id owns
      have facts := inv.compactors other
      cases held : s.compactors other with
      | uploading chunkId slices newId data todo written =>
        rw [held] at facts owns
        rw [← show newId = id from owns]
        exact facts.2.taken
      | conflicted newId size =>
        rw [held] at facts owns
        rw [← show newId = id from owns]
        exact facts.1
      | _ =>
        rw [held] at owns
        exact owns.elim
    have apart : ∀ other id, other ≠ worker → job.Owns id → ¬ (s.compactors other).Owns id := by
      intro other id differs owns theirs
      rcases owned id owns with before | fresh
      · exact inv.owners worker other id differs.symm before theirs
      · exact fresh (known other id theirs)
    intro first second id different owns theirs
    rw [compactors, update_apply] at owns theirs
    split_ifs at owns theirs with isFirst isSecond isSecond
    · exact different (isFirst.trans isSecond.symm)
    · exact apart second id isSecond owns theirs
    · exact apart first id isFirst theirs owns
    · exact inv.owners first second id different owns theirs
  collectors := by
    intro other
    rw [collectors]
    exact evolves.collection inv.tidy (inv.collectors other)

section

variable (inv : Inv layout s) (evolves : Evolves layout none s next) (tidy : Tidy layout next)
  (compactors : next.compactors = s.compactors)

include inv evolves tidy compactors

theorem Inv.collector (collectors : next.collectors = update s.collectors worker job)
    (jobInv : job.Inv next) : Inv layout next where
  tidy := tidy
  compactors := by
    intro other
    rw [compactors]
    exact evolves.compaction nofun (inv.compactors other)
  owners := by
    rw [compactors]
    exact inv.owners
  collectors := by
    rw [collectors]
    exact (Function.forall_update_iff _ fun _ job => Collection.Inv next job).mpr
      ⟨jobInv, fun other _ => evolves.collection inv.tidy (inv.collectors other)⟩

theorem Inv.client (collectors : next.collectors = s.collectors) : Inv layout next :=
  inv.collector evolves tidy compactors (collectors.trans (update_eq_self 0 _).symm)
    (evolves.collection inv.tidy (inv.collectors 0))

end

end

end BrewFs.Chunk.Compact
