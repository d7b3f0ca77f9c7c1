import BrewFs.Chunk.Compact.Invariant

/- One shape for all steps: rows are reworked, rows are added, blocks of mapped slices stay. -/
namespace BrewFs.Chunk.Compact

open BrewFs.Meta BrewFs.Meta.Database List

/-- The byte a reader sees in a chunk. -/
def State.byteAt (layout : ChunkLayout) (s : State) (chunkId p : Nat) : Option UInt8 :=
  chunkByte layout s.store (getSlices s.db.sliceMeta chunkId) p

/-- A new mapping that is complete when it appears. -/
structure Complete (layout : ChunkLayout) (s : State) (row : SliceDesc) : Prop where
  taken : row.sliceId ∈ s.taken
  small : row.sliceId < 2 ^ 64
  bounded : row.stop ≤ layout.chunkSize
  readable : Readable layout s.store row

structure Moves (layout : ChunkLayout) (own : Option Nat) (s next : State)
    (change : SliceDesc → Option SliceDesc) (added : List SliceDesc) : Prop where
  rows : next.db.sliceMeta = s.db.sliceMeta.filterMap change ++ added
  reworks : Reworks change s.db.sliceMeta
  fresh : ∀ row ∈ added, row.sliceId ∉ s.taken ∨ s.Pending row.sliceId ∧ own = some row.sliceId
  distinct : (added.map (·.sliceId)).Nodup
  complete : ∀ row ∈ added, Complete layout next row
  taken : ∀ id ∈ s.taken, id ∈ next.taken
  reservations : (next.db.uncommitted.rows.map (·.sliceId)).Nodup
  reserved : ∀ row ∈ next.db.uncommitted.rows, row.sliceId ∈ next.taken ∧ ¬ next.Live row.sliceId ∧
    (row.status = .pending → row.sliceId ∈ s.taken → s.Pending row.sliceId)
  blocks : ∀ id ∈ s.taken, s.Live id ∨ (own ≠ some id ∧ s.Pending id) →
    ∀ index, next.store (id, index) = s.store (id, index)
  delayed : s.db.delayed.Extends next.db.delayed
  doomed : ∀ record ∈ next.db.delayed.rows, record.status ≠ .retained →
    s.Retired record.sliceId ∨ next.Retired record.sliceId

section

variable {layout : ChunkLayout} {own : Option Nat} {s next : State}
  {change : SliceDesc → Option SliceDesc} {added : List SliceDesc} {id : Nat}

section

variable (moves : Moves layout own s next change added)

include moves

/-- A row is an old one, reworked, or an added one. -/
theorem Moves.row {row : SliceDesc} (mem : row ∈ next.db.sliceMeta) :
    (∃ before ∈ s.db.sliceMeta, row.sliceId = before.sliceId ∧ row.offset = before.offset ∧
      row.length ≤ before.length) ∨ row ∈ added := by
  rw [moves.rows] at mem
  rcases mem_append.mp mem with old | new
  · rcases moves.reworks.mem old with ⟨before, beforeMem, _, same, _, offset, length⟩
    exact .inl ⟨before, beforeMem, same, offset, length⟩
  · exact .inr new

theorem Moves.live (taken : id ∈ s.taken) (live : next.Live id) :
    s.Live id ∨ s.Pending id ∧ own = some id := by
  rcases live with ⟨row, mem, rfl⟩
  rcases moves.row mem with ⟨before, beforeMem, same, _⟩ | new
  · exact .inl ⟨before, beforeMem, same.symm⟩
  rcases moves.fresh row new with unknown | mine
  · exact absurd taken unknown
  · exact .inr mine

theorem Moves.pending (taken : id ∈ s.taken) (pending : next.Pending id) : s.Pending id := by
  rcases pending with ⟨row, mem, rfl, status⟩
  exact (moves.reserved row mem).2.2 status taken

theorem Moves.evolves : Evolves layout own s next where
  taken := moves.taken
  live := fun id taken live => moves.live taken live
  pending := fun id taken pending => moves.pending taken pending
  blocks := by
    intro id taken how
    rcases how with ⟨before, _⟩ | ⟨foreign, pending⟩
    · exact moves.blocks id taken (.inl before)
    · exact moves.blocks id taken (.inr ⟨foreign, moves.pending taken pending⟩)
  snapshot := by
    intro chunkId slices held
    rw [moves.rows]
    apply held.snapshot.rework moves.reworks
    intro row mem slice sliceMem same
    have settled := held.settled slice sliceMem
    rw [← same] at settled
    rcases moves.fresh row mem with unknown | ⟨pending, _⟩
    · exact unknown settled.1
    · exact settled.2 pending
  delayed := moves.delayed

end

theorem Moves.tidy (moves : Moves layout own s next change added) (tidy : Tidy layout s) :
    Tidy layout next where
  ids := by
    rw [moves.rows, map_append, nodup_append]
    refine ⟨tidy.ids.sublist moves.reworks.ids, moves.distinct, ?_⟩
    intro id old other new clash
    rcases mem_map.mp new with ⟨row, rowMem, rfl⟩
    have before := moves.reworks.ids.subset old
    rcases mem_map.mp before with ⟨earlier, earlierMem, rfl⟩
    rcases moves.fresh row rowMem with unknown | ⟨pending, _⟩
    · rw [← clash] at unknown
      exact unknown (tidy.mapped earlier earlierMem).1
    · rcases pending with ⟨reservation, resMem, same, _⟩
      exact (tidy.reserved reservation resMem).2 ⟨earlier, earlierMem, by rw [clash, same]⟩
  mapped := by
    intro row mem
    rcases moves.row mem with ⟨before, beforeMem, same, _⟩ | new
    · rw [same]
      exact ⟨moves.taken _ (tidy.mapped before beforeMem).1, (tidy.mapped before beforeMem).2⟩
    · exact ⟨(moves.complete row new).taken, (moves.complete row new).small⟩
  bounded := by
    intro row mem
    rcases moves.row mem with ⟨before, beforeMem, _, offset, length⟩ | new
    · have bound := tidy.bounded before beforeMem
      simp only [SliceDesc.stop] at bound ⊢
      omega
    · exact (moves.complete row new).bounded
  readable := by
    intro row mem
    rcases moves.row mem with ⟨before, beforeMem, same, _, length⟩ | new
    · intro i upper
      rw [same, sliceByte_congr
        (moves.blocks _ (tidy.mapped before beforeMem).1 (.inl ⟨before, beforeMem, rfl⟩))]
      exact tidy.readable before beforeMem i (by omega)
    · exact (moves.complete row new).readable
  reservations := moves.reservations
  reserved := fun row mem => ⟨(moves.reserved row mem).1, (moves.reserved row mem).2.1⟩
  doomed := by
    intro record mem status
    rcases moves.doomed record mem status with before | after
    · exact moves.evolves.retired before
    · exact after
  records := moves.delayed.below tidy.records
  distinct := moves.delayed.distinct tidy.records tidy.distinct

/-- The steps that leave the mappings and the allocator alone. -/
structure Quiet (own : Option Nat) (s next : State) : Prop where
  rows : next.db.sliceMeta = s.db.sliceMeta
  taken : next.taken = s.taken
  reservations : (next.db.uncommitted.rows.map (·.sliceId)).Sublist
    (s.db.uncommitted.rows.map (·.sliceId))
  reserved : ∀ row ∈ next.db.uncommitted.rows, ∃ before ∈ s.db.uncommitted.rows,
    before.sliceId = row.sliceId ∧ (row.status = .pending → before = row)
  blocks : ∀ id, s.Live id ∨ (own ≠ some id ∧ s.Pending id) →
    ∀ index, next.store (id, index) = s.store (id, index)
  delayed : s.db.delayed.Extends next.db.delayed
  doomed : ∀ record ∈ next.db.delayed.rows, record.status ≠ .retained → s.Retired record.sliceId

theorem Quiet.moves (quiet : Quiet own s next) (tidy : Tidy layout s) :
    Moves layout own s next some [] where
  rows := by rw [quiet.rows, filterMap_some, append_nil]
  reworks := reworks_refl _
  fresh := nofun
  distinct := .nil
  complete := nofun
  taken := fun id mem => by rw [quiet.taken]; exact mem
  reservations := tidy.reservations.sublist quiet.reservations
  reserved := by
    intro row mem
    rcases quiet.reserved row mem with ⟨before, beforeMem, same, status⟩
    have facts := tidy.reserved before beforeMem
    rw [same] at facts
    refine ⟨by rw [quiet.taken]; exact facts.1, ?_, ?_⟩
    · rw [State.Live, quiet.rows]
      exact facts.2
    · intro pending _
      exact ⟨before, beforeMem, same, by rw [status pending]; exact pending⟩
  blocks := fun id _ how => quiet.blocks id how
  delayed := quiet.delayed
  doomed := fun record mem status => .inl (quiet.doomed record mem status)

theorem Quiet.byteAt (quiet : Quiet own s next) (chunkId p : Nat) :
    next.byteAt layout chunkId p = s.byteAt layout chunkId p := by
  rw [State.byteAt, quiet.rows]
  apply chunkByte_congr
  intro slice mem
  exact quiet.blocks _ (.inl ⟨slice, (mem_getSlices.mp mem).1, rfl⟩)

theorem quiet_local (tidy : Tidy layout s) (rows : next.db.sliceMeta = s.db.sliceMeta)
    (taken : next.taken = s.taken) (uncommitted : next.db.uncommitted = s.db.uncommitted)
    (store : next.store = s.store) (delayed : next.db.delayed = s.db.delayed) :
    Quiet none s next where
  rows := rows
  taken := taken
  reservations := by rw [uncommitted]
  reserved := by
    rw [uncommitted]
    exact fun row mem => ⟨row, mem, rfl, fun _ => rfl⟩
  blocks := fun id _ index => by rw [store]
  delayed := by
    rw [delayed]
    exact .refl _
  doomed := by
    rw [delayed]
    exact tidy.doomed

/-- Only blocks of one unmapped slice change: its owner acts, or it is retired. -/
theorem quiet_blocks (tidy : Tidy layout s) (rows : next.db = s.db) (taken : next.taken = s.taken)
    (others : ∀ other, other ≠ id → ∀ index, next.store (other, index) = s.store (other, index))
    (unmapped : ¬ s.Live id) (reach : own = some id ∨ ¬ s.Pending id) : Quiet own s next where
  rows := by rw [rows]
  taken := taken
  reservations := by rw [rows]
  reserved := by
    rw [rows]
    exact fun row mem => ⟨row, mem, rfl, fun _ => rfl⟩
  blocks := by
    intro other how index
    apply others
    intro same
    subst same
    rcases how with live | ⟨foreign, pending⟩
    · exact unmapped live
    rcases reach with mine | settled
    · exact foreign mine
    · exact settled pending
  delayed := by
    rw [rows]
    exact .refl _
  doomed := by
    rw [rows]
    exact tidy.doomed

end

end BrewFs.Chunk.Compact
