import BrewFs.Chunk.Compact.Workers

/- Whole runs: compaction and collection can be deleted from a run without a reader noticing. -/
namespace BrewFs.Chunk.Compact

open BrewFs.Run BrewFs.Meta.Database

variable {layout : ChunkLayout} {action : Action}

theorem step_inv {s next : State} (inv : Inv layout s) (taken : step layout s action = some next) :
    Inv layout next := by
  cases action with
  | client action => exact (clientStep_spec inv taken).1
  | compactor worker action => exact (compactorStep_spec inv taken).1
  | collector worker action => exact (collectorStep_spec inv taken).1

/-- The two runs: both keep the invariant and show the same contents, and the one without workers
has handed out no other ids. -/
structure Matches (layout : ChunkLayout) (s t : State) : Prop where
  left : Inv layout s
  right : Inv layout t
  contents : s.contents layout = t.contents layout
  fewer : ∀ id ∈ t.taken, id ∈ s.taken

theorem Matches.hidden {s t next : State} (same : Matches layout s t)
    (worker : action.isClient = false) (taken : step layout s action = some next) :
    Matches layout next t := by
  have evolves : Hidden layout s next ∧ ∀ id ∈ s.taken, id ∈ next.taken := by
    cases action with
    | client action => cases worker
    | compactor worker action =>
      refine ⟨compactorStep_spec same.left taken, ?_⟩
      intro id mem
      simp only [step] at taken
      cases action <;> simp only [compactorStep] at taken <;>
        (repeat' split at taken) <;> cases taken <;>
        first | exact mem | exact List.mem_cons_of_mem _ mem
    | collector worker action =>
      refine ⟨collectorStep_spec same.left taken, ?_⟩
      intro id mem
      simp only [step] at taken
      cases action <;> simp only [collectorStep] at taken <;>
        (repeat' split at taken) <;> cases taken <;> exact mem
  refine ⟨evolves.1.1, same.right, ?_, fun id mem => evolves.2 id (same.fewer id mem)⟩
  rw [evolves.1.2]
  exact same.contents

theorem Matches.client {s t next : State} {action : ClientAction} (same : Matches layout s t)
    (taken : clientStep layout s action = some next) :
    ∃ matched, clientStep layout t action = some matched ∧ Matches layout next matched := by
  rcases clientStep_enabled same.fewer taken with ⟨matched, answered, fewer⟩
  have left := clientStep_spec same.left taken
  have right := clientStep_spec same.right answered
  refine ⟨matched, answered, left.1, right.1, ?_, fewer⟩
  rw [left.2, right.2, same.contents]

theorem Inv.read {s : State} (inv : Inv layout s) (schedule : Schedule) (chunkId : Nat)
    {offset len : Nat} (bound : offset + len ≤ layout.chunkSize) :
    ∃ buf, readAtFromSlices layout s.store schedule (getSlices s.db.sliceMeta chunkId) offset len =
        some buf ∧ buf.length = len ∧
      ∀ i < len, buf[i]? = s.byteAt layout chunkId (offset + i) :=
  readAtFromSlices_spec (fun slice mem => inv.tidy.readable slice (mem_getSlices.mp mem).1)
    (fun slice mem => inv.tidy.fits slice (mem_getSlices.mp mem).1) bound schedule

/-- Compaction and collection are transparent. In every run, with any number of compactors and
collectors among the clients, every byte of every chunk is that of the run with only the client
steps, every chunk read returns the same bytes in both, and every block of a mapped slice is there.
-/
theorem compaction_transparent (layout : ChunkLayout) (actions : List Action) (s : State)
    (run : exec (step layout) State.init actions = some s) :
    ∃ t, exec (step layout) State.init (actions.filter Action.isClient) = some t ∧
      (∀ chunkId p, chunkByte layout s.store (getSlices s.db.sliceMeta chunkId) p =
        chunkByte layout t.store (getSlices t.db.sliceMeta chunkId) p) ∧
      (∀ schedule schedule' chunkId offset len, offset + len ≤ layout.chunkSize →
        ∃ buf, readAtFromSlices layout s.store schedule (getSlices s.db.sliceMeta chunkId)
            offset len = some buf ∧
          readAtFromSlices layout t.store schedule' (getSlices t.db.sliceMeta chunkId)
            offset len = some buf) ∧
      ∀ row ∈ s.db.sliceMeta, ∀ i < row.length,
        ∃ block, s.store (row.sliceId, i / layout.blockSize) = some block ∧
          i % layout.blockSize < block.length := by
  have start : Matches layout State.init State.init :=
    ⟨inv_init layout, inv_init layout, rfl, fun _ => id⟩
  have shown : ∀ s t action next, Matches layout s t → action.isClient = true →
      step layout s action = some next →
      ∃ matched, step layout t action = some matched ∧ Matches layout next matched := by
    intro s t action next same client taken
    cases action with
    | client action => exact same.client taken
    | compactor worker action | collector worker action => cases client
  rcases simulate Action.isClient (fun s t action next same worker taken =>
    same.hidden worker taken)
    shown start run with ⟨t, ends, same⟩
  have bytes : ∀ chunkId p, s.byteAt layout chunkId p = t.byteAt layout chunkId p :=
    fun chunkId p =>
    congrFun (congrFun (congrArg Contents.byteAt same.contents) chunkId) p
  refine ⟨t, ends, bytes, ?_, ?_⟩
  · intro schedule schedule' chunkId offset len bound
    rcases same.left.read schedule chunkId bound with ⟨buf, read, length, each⟩
    rcases same.right.read schedule' chunkId bound with ⟨other, read', length', each'⟩
    have equal : other = buf := by
      apply List.ext_getElem?
      intro i
      by_cases inside : i < len
      · rw [each i inside, each' i inside, bytes]
      · rw [List.getElem?_eq_none (by omega), List.getElem?_eq_none (by omega)]
    rw [equal] at read'
    exact ⟨buf, read, read'⟩
  · intro row mem i inside
    have present := same.left.tidy.readable row mem i inside
    rw [sliceByte] at present
    cases found : s.store (row.sliceId, i / layout.blockSize) with
    | none => simp [found] at present
    | some block =>
      rw [found] at present
      exact ⟨block, rfl, by simpa using present⟩

/-- Two overlapping writes, a light compaction dropping the covered one, and its collection. -/
def coveredRun : List Action := [.client (.append 7 1 0 [1, 2]), .client (.append 7 2 0 [3, 4, 5]),
   .compactor 0 (.snapshot 7), .compactor 0 .light,
   .collector 0 (.select [1]), .collector 0 .process, .collector 0 (.deleteBlocks .deleted),
   .collector 0 (.confirm true)]

theorem compaction_transparent_covered :
    ∃ s t, exec (step smallLayout) State.init coveredRun = some s ∧
      exec (step smallLayout) State.init (coveredRun.filter Action.isClient) = some t ∧
      s.db.sliceMeta.length = 1 ∧ t.db.sliceMeta.length = 2 ∧
      ∀ chunkId p, s.byteAt smallLayout chunkId p = t.byteAt smallLayout chunkId p := by
  have run : exec (step smallLayout) State.init coveredRun = some _ := rfl
  obtain ⟨t, ends, bytes, -⟩ := compaction_transparent smallLayout coveredRun _ run
  cases ends
  exact ⟨_, _, run, rfl, rfl, rfl, bytes⟩

end BrewFs.Chunk.Compact
