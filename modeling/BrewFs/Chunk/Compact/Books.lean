import BrewFs.Chunk.Compact.Ledger

/- Keeping the books: for every slice ever mapped, its blocks are covered by a mapping of full
length or by a record. -/
namespace BrewFs.Chunk.Compact

open BrewFs.Meta BrewFs.Meta.Database List

/-- The ledger's shared part. `history` gives a slice's physical length. -/
structure Books (layout : ChunkLayout) (s : State) : Prop where
  untouched : ∀ id, id ∉ s.taken → ∀ index, s.store (id, index) = none
  known : ∀ slice ∈ s.history, slice.sliceId ∈ s.taken
  once : (s.history.map (·.sliceId)).Nodup
  fits : ∀ slice ∈ s.history, slice.length ≤ layout.chunkSize
  extent : ∀ slice ∈ s.history, ∀ index, (s.store (slice.sliceId, index)).isSome →
    index * layout.blockSize < slice.length
  published : ∀ row ∈ s.db.sliceMeta, ∃ slice ∈ s.history, slice.sliceId = row.sliceId
  recorded : ∀ record ∈ s.db.delayed.rows, ∃ slice ∈ s.history, slice.sliceId = record.sliceId
  live : ∀ row ∈ s.db.sliceMeta, ∀ slice ∈ s.history, slice.sliceId = row.sliceId →
    row.length ≤ slice.length ∧ (row.length = slice.length ∨
      ∃ record ∈ s.db.delayed.rows, retainedFor row record = true ∧ slice.length ≤ record.size)
  dead : ∀ slice ∈ s.history, ¬ s.Live slice.sliceId →
    ∀ index, (s.store (slice.sliceId, index)).isSome →
      ∃ record ∈ s.db.delayed.rows, record.status ≠ .retained ∧ record.sliceId = slice.sliceId ∧
        slice.length ≤ record.size
  single : SingleRetained s.db.delayed
  sizes : ∀ record ∈ s.db.delayed.rows, record.size ≤ layout.chunkSize

/-- A worker's copy claims no more than the physical length. -/
def Copies (s : State) (slices : List SliceDesc) : Prop :=
  ∀ slice ∈ slices, ∃ original ∈ s.history, original.sliceId = slice.sliceId ∧
    slice.length ≤ original.length

variable (layout : ChunkLayout) (s : State)

def Compaction.Account : Compaction → Prop
  | .planned _ slices => Copies s slices
  | .merging _ slices _ _ => Copies s slices
  | .uploading _ slices newId data _ _ => Copies s slices ∧
      (∀ slice ∈ s.history, slice.sliceId ≠ newId) ∧
      ∀ index, (s.store (newId, index)).isSome → index * layout.blockSize < data.length
  | _ => True

/-- The blocks a record asks to delete are gone. -/
def Cleared (id : Nat) : Prop :=
  id < s.db.delayed.seq ∧ ∀ record ∈ s.db.delayed.rows, record.id = id → record.status ≠ .retained ∧
    ∀ index, (s.store (record.sliceId, index)).isSome → record.size ≤ index * layout.blockSize

def Collection.Account : Collection → Prop
  | .deleting _ confirmed => ∀ id ∈ confirmed, Cleared layout s id
  | _ => True

structure Ledger (layout : ChunkLayout) (s : State) : Prop where
  books : Books layout s
  compactors : ∀ worker, (s.compactors worker).Account layout s
  collectors : ∀ worker, (s.collectors worker).Account layout s

theorem ledger_init (layout : ChunkLayout) : Ledger layout State.init where
  books := by
    refine ⟨?_, ?_, ?_, ?_, ?_, ?_, ?_, ?_, ?_, ?_, ?_⟩ <;>
      simp [State.init, Tables.empty, SingleRetained]
  compactors := fun _ => trivial
  collectors := fun _ => trivial

/-- What a step leaves of history and blocks, for all but the owner of `own`. -/
structure Spares (own : Option Nat) (s next : State) : Prop where
  history : ∀ slice ∈ s.history, slice ∈ next.history
  newer : ∀ slice ∈ next.history,
    slice ∈ s.history ∨ slice.sliceId ∉ s.taken ∨ own = some slice.sliceId
  blocks : ∀ id ∈ s.taken, own ≠ some id →
    ∀ index, (next.store (id, index)).isSome → (s.store (id, index)).isSome
  ownFree : ∀ id, own = some id → ∀ slice ∈ s.history, slice.sliceId ≠ id

section

variable {layout : ChunkLayout} {own : Option Nat} {s next : State} {job : Collection}
  {worker : Nat}

section

variable (spares : Spares own s next)

include spares

theorem Spares.copies {slices : List SliceDesc} (copies : Copies s slices) :
    Copies next slices := by
  intro slice mem
  rcases copies slice mem with ⟨original, originalMem, facts⟩
  exact ⟨original, spares.history original originalMem, facts⟩

/-- Blocks of a slice that was ever mapped never come back. -/
theorem Spares.gone (books : Books layout s) {slice : SliceDesc} (mem : slice ∈ s.history)
    {index : Nat} (present : (next.store (slice.sliceId, index)).isSome) :
    (s.store (slice.sliceId, index)).isSome := by
  refine spares.blocks _ (books.known slice mem) ?_ index present
  intro mine
  exact spares.ownFree _ mine slice mem rfl

theorem Spares.compaction {job : Compaction} (foreign : ∀ id, own = some id → ¬ job.Owns id)
    (inv : job.Inv layout s) (account : job.Account layout s) : job.Account layout next := by
  cases job with
  | planned | merging => exact spares.copies account
  | uploading chunkId slices newId data todo written =>
    rcases account with ⟨copies, unpublished, extent⟩
    have other : own ≠ some newId := fun mine => foreign newId mine rfl
    refine ⟨spares.copies copies, ?_, ?_⟩
    · intro slice mem same
      rcases spares.newer slice mem with old | fresh | mine
      · exact unpublished slice old same
      · rw [same] at fresh
        exact fresh inv.2.taken
      · rw [same] at mine
        exact other mine
    · intro index present
      exact extent index (spares.blocks newId inv.2.taken other index present)
  | idle | published newId | conflicted newId size => trivial

section

variable (delayed : s.db.delayed.Extends next.db.delayed) (tidy : Tidy layout s)
  (books : Books layout s)

include delayed tidy books

theorem Spares.cleared {id : Nat} (cleared : Cleared layout s id) : Cleared layout next id := by
  refine ⟨cleared.1.trans_le delayed.seq, ?_⟩
  intro record mem same
  rcases delayed.kept tidy.records record mem (by rw [same]; exact cleared.1) with
    ⟨before, beforeMem, beforeId, how⟩
  have facts := cleared.2 before beforeMem (by omega)
  rcases how with retained | ⟨slice, size, status⟩
  · exact absurd retained facts.1
  refine ⟨status, ?_⟩
  intro index present
  rcases books.recorded before beforeMem with ⟨original, originalMem, originalId⟩
  rw [slice, ← originalId] at present
  have earlier := spares.gone books originalMem present
  rw [originalId] at earlier
  rw [size]
  exact facts.2 index earlier

theorem Spares.collection (account : job.Account layout s) : job.Account layout next := by
  cases job with
  | deleting ready confirmed =>
    exact fun id mem => spares.cleared delayed tidy books (account id mem)
  | idle | selected rows | scanning | deletingOrphans orphans cleaned => trivial

end

end

section

variable (ledger : Ledger layout s) (inv : Inv layout s)
  (delayed : s.db.delayed.Extends next.db.delayed)

include ledger inv delayed

theorem Ledger.compactor (own : Option Nat) {job : Compaction} (spares : Spares own s next)
    (books : Spares own s next → Books layout next)
    (compactors : next.compactors = Function.update s.compactors worker job)
    (collectors : next.collectors = s.collectors)
    (mine : ∀ id, own = some id → (s.compactors worker).Owns id)
    (account : job.Account layout next) : Ledger layout next where
  books := books spares
  compactors := by
    rw [compactors]
    refine (Function.forall_update_iff _ fun _ job => Compaction.Account layout next job).mpr
      ⟨account, fun other differs => ?_⟩
    refine spares.compaction ?_ (inv.compactors other) (ledger.compactors other)
    exact fun id acting => inv.owners worker other id differs.symm (mine id acting)
  collectors := by
    intro other
    rw [collectors]
    exact spares.collection delayed inv.tidy ledger.books (ledger.collectors other)

section

variable (spares : Spares none s next) (books : Spares none s next → Books layout next)
  (compactors : next.compactors = s.compactors)

include spares books compactors

theorem Ledger.collector (collectors : next.collectors = Function.update s.collectors worker job)
    (account : job.Account layout next) : Ledger layout next where
  books := books spares
  compactors := by
    intro other
    rw [compactors]
    exact spares.compaction nofun (inv.compactors other) (ledger.compactors other)
  collectors := by
    rw [collectors]
    exact (Function.forall_update_iff _ fun _ job => Collection.Account layout next job).mpr
      ⟨account,
      fun other _ => spares.collection delayed inv.tidy ledger.books (ledger.collectors other)⟩

theorem Ledger.client (collectors : next.collectors = s.collectors) : Ledger layout next :=
  ledger.collector inv delayed spares books compactors
    (collectors.trans (Function.update_eq_self 0 _).symm)
    (spares.collection delayed inv.tidy ledger.books (ledger.collectors 0))

end

end

/-- Steps without a new mapping: the books follow blocks and records. -/
theorem Books.quiet (books : Books layout s) (spares : Spares own s next)
    (rows : next.db.sliceMeta = s.db.sliceMeta) (history : next.history = s.history)
    (taken : ∀ id ∈ s.taken, id ∈ next.taken)
    (untouched : ∀ id, id ∉ next.taken → ∀ index, next.store (id, index) = none)
    (recorded : ∀ record ∈ next.db.delayed.rows, ∃ before ∈ s.db.delayed.rows,
      before.sliceId = record.sliceId ∧ before.size = record.size)
    (retained : ∀ record ∈ s.db.delayed.rows, record.status = .retained →
      record ∈ next.db.delayed.rows)
    (collectable : ∀ record ∈ s.db.delayed.rows, record.status ≠ .retained →
      ∀ index, (next.store (record.sliceId, index)).isSome →
        index * layout.blockSize < record.size →
        ∃ after ∈ next.db.delayed.rows, after.status ≠ .retained ∧ after.sliceId = record.sliceId ∧
          after.size = record.size)
    (single : SingleRetained next.db.delayed) : Books layout next where
  untouched := untouched
  known := by
    rw [history]
    exact fun slice mem => taken _ (books.known slice mem)
  once := by
    rw [history]
    exact books.once
  fits := by
    rw [history]
    exact books.fits
  extent := by
    rw [history]
    exact fun slice mem index present =>
      books.extent slice mem index (spares.gone books mem present)
  published := by
    rw [rows, history]
    exact books.published
  recorded := by
    intro record mem
    rcases recorded record mem with ⟨before, beforeMem, same, _⟩
    rw [history, ← same]
    exact books.recorded before beforeMem
  live := by
    rw [rows, history]
    intro row rowMem slice mem same
    have facts := books.live row rowMem slice mem same
    refine ⟨facts.1, ?_⟩
    rcases facts.2 with full | ⟨record, recordMem, matched, size⟩
    · exact .inl full
    · exact .inr ⟨record, retained record recordMem (retainedFor_iff.mp matched).2.2, matched, size⟩
  dead := by
    rw [history]
    intro slice mem gone index present
    have earlier := spares.gone books mem present
    have unmapped : ¬ s.Live slice.sliceId := by
      rw [State.Live, ← rows]
      exact gone
    rcases books.dead slice mem unmapped index earlier with ⟨record, recordMem, status, same, size⟩
    have inside := books.extent slice mem index earlier
    rcases collectable record recordMem status index (by rw [same]; exact present) (by omega) with
      ⟨after, afterMem, afterStatus, afterId, afterSize⟩
    exact ⟨after, afterMem, afterStatus, by rw [afterId, same], by omega⟩
  single := single
  sizes := by
    intro record mem
    rcases recorded record mem with ⟨before, beforeMem, _, same⟩
    rw [← same]
    exact books.sizes before beforeMem

/-- Every row stays untouched, or the staged slices answer for it. -/
def Accounted (s : State) (change : SliceDesc → Option SliceDesc)
    (staged : List (SliceDesc × Bool)) : Prop :=
  ∀ row ∈ s.db.sliceMeta, (change row = some row ∧ ∀ item ∈ staged, item.1.sliceId ≠ row.sliceId) ∨
    ∃ item ∈ staged, item.1.sliceId = row.sliceId ∧ item.1.chunkId = row.chunkId ∧
      (∀ slice ∈ s.history, slice.sliceId = row.sliceId → row.length = slice.length →
        slice.length ≤ item.1.length) ∧
      (item.2 = true ∧ (change row).isSome ∨ item.2 = false ∧ change row = none)

/-- A row that a step changes leaves a record as long as its slice. -/
theorem Books.answered (books : Books layout s) (tidy : Tidy layout s)
    {change : SliceDesc → Option SliceDesc} {staged : List (SliceDesc × Bool)}
    (ids : (staged.map (·.1.sliceId)).Nodup) (accounted : Accounted s change staged)
    {row slice : SliceDesc} (rowMem : row ∈ s.db.sliceMeta) (mem : slice ∈ s.history)
    (same : slice.sliceId = row.sliceId) :
    (change row = some row ∧ ∀ item ∈ staged, item.1.sliceId ≠ row.sliceId) ∨
      ∃ record ∈ (stageAll s.db.delayed staged).rows, record.sliceId = row.sliceId ∧
        record.chunkId = row.chunkId ∧ slice.length ≤ record.size ∧
        (record.status = .retained ∧ (change row).isSome ∨
          record.status = .pending ∧ change row = none) := by
  refine (accounted row rowMem).imp_right ?_
  rintro ⟨item, itemMem, itemId, itemChunk, full, how⟩
  rcases stageAll_covers tidy.records tidy.distinct books.single ids itemMem with
    ⟨record, recordMem, recordId, recordChunk, status, size, covering⟩
  refine ⟨record, recordMem, recordId.trans itemId, recordChunk.trans itemChunk, ?_, ?_⟩
  · rcases (books.live row rowMem slice mem same).2 with whole | ⟨previous, previousMem, matched,
      longer⟩
    · exact (full slice mem same whole).trans size
    have earlier := retainedFor_iff.mp matched
    exact longer.trans (covering previous previousMem (retainedFor_iff.mpr
      ⟨by rw [earlier.1, itemChunk], by rw [earlier.2.1, itemId], earlier.2.2⟩))
  rcases how with ⟨keeps, kept⟩ | ⟨drops, gone⟩
  · exact .inl ⟨by rw [status, keeps]; rfl, kept⟩
  · exact .inr ⟨by rw [status, drops]; rfl, gone⟩

/-- Steps that drop or shorten rows, stage them, and map new slices. -/
theorem Books.stage (books : Books layout s) (tidy : Tidy layout s) (spares : Spares own s next)
    {change : SliceDesc → Option SliceDesc} {added : List SliceDesc}
    {staged : List (SliceDesc × Bool)}
    (rows : next.db.sliceMeta = s.db.sliceMeta.filterMap change ++ added)
    (reworks : Reworks change s.db.sliceMeta)
    (delayed : next.db.delayed = stageAll s.db.delayed staged)
    (history : next.history = added ++ s.history)
    (taken : ∀ id ∈ s.taken, id ∈ next.taken)
    (untouched : ∀ id, id ∉ next.taken → ∀ index, next.store (id, index) = none)
    (ids : (staged.map (·.1.sliceId)).Nodup)
    (small : ∀ item ∈ staged, item.1.length ≤ layout.chunkSize)
    (stagedKnown : ∀ item ∈ staged, ∃ slice ∈ s.history, slice.sliceId = item.1.sliceId)
    (accounted : Accounted s change staged)
    (fresh : ∀ row ∈ added, (∀ slice ∈ s.history, slice.sliceId ≠ row.sliceId) ∧
      row.sliceId ∈ next.taken ∧ row.length ≤ layout.chunkSize ∧
      ∀ index, (next.store (row.sliceId, index)).isSome → index * layout.blockSize < row.length)
    (distinct : (added.map (·.sliceId)).Nodup) : Books layout next where
  untouched := untouched
  known := by
    rw [history, forall_mem_append]
    exact ⟨fun slice new => (fresh slice new).2.1, fun slice old => taken _ (books.known slice old)⟩
  once := by
    rw [history, map_append, nodup_append]
    refine ⟨distinct, books.once, ?_⟩
    intro id new other old clash
    rcases mem_map.mp new with ⟨row, rowMem, rfl⟩
    rcases mem_map.mp old with ⟨slice, sliceMem, rfl⟩
    exact (fresh row rowMem).1 slice sliceMem clash.symm
  fits := by
    rw [history, forall_mem_append]
    exact ⟨fun slice new => (fresh slice new).2.2.1, books.fits⟩
  extent := by
    rw [history, forall_mem_append]
    exact ⟨fun slice new => (fresh slice new).2.2.2,
      fun slice old index present => books.extent slice old index (spares.gone books old present)⟩
  published := by
    intro row mem
    rw [rows] at mem
    rw [history]
    rcases mem_append.mp mem with old | new
    · rcases reworks.mem old with ⟨before, beforeMem, _, same, _⟩
      rcases books.published before beforeMem with ⟨slice, sliceMem, id⟩
      exact ⟨slice, mem_append_right _ sliceMem, by rw [id, same]⟩
    · exact ⟨row, mem_append_left _ new, rfl⟩
  recorded := by
    intro record mem
    rw [delayed] at mem
    rw [history]
    rcases stageAll_source mem with before | ⟨item, itemMem, same, _⟩
    · rcases books.recorded record before with ⟨slice, sliceMem, id⟩
      exact ⟨slice, mem_append_right _ sliceMem, id⟩
    · rcases stagedKnown item itemMem with ⟨slice, sliceMem, id⟩
      exact ⟨slice, mem_append_right _ sliceMem, by rw [id, same]⟩
  live := by
    intro row' mem slice sliceMem same
    rw [rows] at mem
    rw [history] at sliceMem
    rw [delayed]
    rcases mem_append.mp mem with old | new
    · rcases reworks.mem old with ⟨row, rowMem, kept, id, chunk, _, length⟩
      have original : slice ∈ s.history := by
        rcases mem_append.mp sliceMem with added | before
        · rcases books.published row rowMem with ⟨known, knownMem, knownId⟩
          exact absurd (by rw [knownId, ← id, same]) ((fresh slice added).1 known knownMem)
        · exact before
      have facts := books.live row rowMem slice original (by rw [same, id])
      refine ⟨by omega, ?_⟩
      rcases books.answered tidy ids accounted rowMem original (by rw [same, id]) with
        ⟨unchanged, apart⟩ |
          ⟨record, recordMem, recordId, recordChunk, size, ⟨status, _⟩ | ⟨_, gone⟩⟩
      · rw [unchanged] at kept
        cases kept
        rcases facts.2 with whole | ⟨record, recordMem, matched, size⟩
        · exact .inl whole
        refine .inr ⟨record, ?_, matched, size⟩
        apply stageAll_keeps tidy.records tidy.distinct recordMem
        intro item itemMem clash
        exact apart item itemMem ((retainedFor_iff.mp clash).2.1.symm.trans
          (retainedFor_iff.mp matched).2.1)
      · exact .inr ⟨record, recordMem,
          retainedFor_iff.mpr ⟨by rw [recordChunk, chunk], by rw [recordId, id], status⟩, size⟩
      · rw [gone] at kept
        cases kept
    · have self : slice = row' := by
        rcases mem_append.mp sliceMem with added | before
        · exact inj_on_of_nodup_map distinct added new same
        · exact absurd same ((fresh row' new).1 slice before)
      rw [self]
      exact ⟨le_rfl, .inl rfl⟩
  dead := by
    intro slice mem gone index present
    rw [history] at mem
    rw [delayed]
    rcases mem_append.mp mem with new | old
    · refine absurd ⟨slice, ?_, rfl⟩ gone
      rw [rows]
      exact mem_append_right _ new
    have earlier := spares.gone books old present
    by_cases mapped : s.Live slice.sliceId
    · rcases mapped with ⟨row, rowMem, rowId⟩
      have lost : change row = none := by
        cases kept : change row with
        | none => rfl
        | some row' =>
          exfalso
          apply gone
          refine ⟨row', ?_, by rw [(reworks.shrinks row rowMem row' kept).1, rowId]⟩
          rw [rows]
          exact mem_append_left _ (mem_filterMap.mpr ⟨row, rowMem, kept⟩)
      rw [← rowId]
      rcases books.answered tidy ids accounted rowMem old rowId.symm with ⟨unchanged, _⟩ |
        ⟨record, recordMem, recordId, _, size, ⟨_, kept⟩ | ⟨status, _⟩⟩
      · rw [lost] at unchanged
        cases unchanged
      · rw [lost] at kept
        cases kept
      · exact ⟨record, recordMem, by rw [status]; decide, recordId, size⟩
    · rcases books.dead slice old mapped index earlier with ⟨record, recordMem, status, same, size⟩
      refine ⟨record, ?_, status, same, size⟩
      apply stageAll_keeps tidy.records tidy.distinct recordMem
      intro item _ matched
      exact status (retainedFor_iff.mp matched).2.2
  single := by
    rw [delayed]
    exact stageAll_single tidy.records tidy.distinct books.single
  sizes := by
    rw [delayed]
    exact stageAll_sizes small books.sizes

end

end BrewFs.Chunk.Compact
