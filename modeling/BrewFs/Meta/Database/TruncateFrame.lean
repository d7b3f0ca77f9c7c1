import BrewFs.Chunk.Compact.Clients

/- Which rows a truncate reaches: chunk ids are `ino * CHUNK_ID_BASE + index`, so the range it
drops stays inside the inode only while the indices stay below the base. -/
namespace BrewFs.Meta.Database

open BrewFs.Run BrewFs.Chunk BrewFs.Chunk.Compact List Option
open Function (update update_of_ne)

/-- Chunks of a file of this size. -/
def chunkCount (size chunkSize : Nat) : Nat :=
  size / chunkSize + (if size % chunkSize = 0 then 0 else 1)

variable {size chunkSize index : Nat}

theorem lt_chunkCount (pos : 0 < chunkSize) :
    index < chunkCount size chunkSize ↔ index * chunkSize < size := by
  have split := Nat.div_add_mod size chunkSize
  have rest := Nat.mod_lt size pos
  rw [Nat.mul_comm] at split
  rw [chunkCount]
  split
  · rw [Nat.add_zero]
    constructor
    · intro below
      have scaled := (Nat.mul_lt_mul_right pos).mpr below
      omega
    intro below
    apply (Nat.mul_lt_mul_right pos).mp
    omega
  · constructor
    · intro below
      have scaled := Nat.mul_le_mul_right chunkSize (Nat.lt_succ_iff.mp below)
      omega
    by_contra past
    have scaled := Nat.mul_le_mul_right chunkSize (show size / chunkSize + 1 ≤ index by omega)
    rw [Nat.succ_mul] at scaled
    omega

/-- Id of the first chunk of a file. -/
def firstChunk (ino : Int) : Nat := ino.toNat * chunkIdBase

variable {ino : Int}

theorem rowChunkId_eq_some {id : Nat} (found : rowChunkId ino index = some id) :
    0 ≤ ino ∧ id = firstChunk ino + index := by
  rw [rowChunkId, chunkIdFor] at found
  split at found
  · cases found
  next signed =>
    rcases bind_eq_some_iff.mp found with ⟨wide, fits, narrow⟩
    simp only at fits
    split at fits
    · split at narrow
      · cases fits
        cases narrow
        exact ⟨by omega, rfl⟩
      · cases narrow
    · cases fits

/-- First chunk a truncate drops as a whole. -/
def dropStart (newSize chunkSize : Nat) : Nat :=
  if newSize % chunkSize = 0 then newSize / chunkSize else newSize / chunkSize + 1

/-- The cut of the chunk the new size ends in; `base`: the id of the file's first chunk. -/
def cutoffCut (base newSize chunkSize : Nat) : Nat → Option Nat := fun chunkId =>
  if 0 < newSize % chunkSize ∧ chunkId = base + newSize / chunkSize then
    some (newSize % chunkSize)
  else none

/-- The cut of the chunks behind it. -/
def dropCut (base newSize oldSize chunkSize : Nat) : Nat → Option Nat := fun chunkId =>
  if base + dropStart newSize chunkSize ≤ chunkId ∧
    chunkId < base + chunkCount oldSize chunkSize then
    some 0
  else none

variable {newSize oldSize : Nat}

theorem dropStart_le (shrinks : newSize < oldSize) (pos : 0 < chunkSize) :
    newSize / chunkSize < chunkCount oldSize chunkSize := by
  rw [lt_chunkCount pos]
  have below := Nat.div_mul_le_self newSize chunkSize
  omega

/-- The cuts of a shrinking truncate whose chunk ids fit. -/
theorem truncateCuts_eq {cuts : (Nat → Option Nat) × (Nat → Option Nat)}
    (shrinks : newSize < oldSize) (pos : 0 < chunkSize)
    (made : truncateCuts ino newSize oldSize chunkSize = some cuts) :
    0 ≤ ino ∧ cuts = (cutoffCut (firstChunk ino) newSize chunkSize,
      dropCut (firstChunk ino) newSize oldSize chunkSize) := by
  have planned : truncatePlan newSize oldSize chunkSize = some
      ⟨newSize / chunkSize, newSize % chunkSize, dropStart newSize chunkSize,
        chunkCount oldSize chunkSize⟩ := by
    rw [truncatePlan, if_neg (by omega)]
    rfl
  have behind := dropStart_le shrinks pos
  simp only [truncateCuts, planned] at made
  rcases bind_eq_some_iff.mp made with ⟨first, rewritten, dropped⟩
  have front : (0 < newSize % chunkSize → 0 ≤ ino) ∧
      first = cutoffCut (firstChunk ino) newSize chunkSize := by
    split at rewritten
    · rename_i trims
      rcases map_eq_some_iff.mp rewritten with ⟨chunkId, found, rfl⟩
      rcases rowChunkId_eq_some found with ⟨signed, rfl⟩
      refine ⟨fun _ => signed, ?_⟩
      funext other
      simp only [cutoffCut, trims, true_and]
    rename_i whole
    cases rewritten
    refine ⟨fun trims => absurd trims whole, ?_⟩
    funext other
    rw [cutoffCut, if_neg (fun both => whole both.1)]
    rfl
  have back : (dropStart newSize chunkSize < chunkCount oldSize chunkSize → 0 ≤ ino) ∧
      cuts = (first, dropCut (firstChunk ino) newSize oldSize chunkSize) := by
    split at dropped
    · rcases bind_eq_some_iff.mp dropped with ⟨start, startFound, rest⟩
      rcases map_eq_some_iff.mp rest with ⟨stop, stopFound, rfl⟩
      rcases rowChunkId_eq_some startFound with ⟨signed, rfl⟩
      rcases rowChunkId_eq_some stopFound with ⟨_, rfl⟩
      exact ⟨fun _ => signed, rfl⟩
    rename_i empty
    cases dropped
    refine ⟨fun some => absurd some empty, ?_⟩
    congr 1
    funext other
    rw [dropCut, if_neg (by omega)]
    rfl
  refine ⟨?_, by rw [back.2, front.2]⟩
  by_cases trims : 0 < newSize % chunkSize
  · exact front.1 trims
  apply back.1
  rw [dropStart, if_pos (by omega)]
  exact behind

theorem truncateCuts_noop (grows : oldSize ≤ newSize) :
    truncateCuts ino newSize oldSize chunkSize = some (noCut, noCut) := by
  rw [truncateCuts, truncatePlan, if_pos (.inl grows)]

/-! ### Rows of other inodes -/

/-- The inode a row's chunk id names. -/
def rowInode (chunkId : Nat) : Int := (extractInoAndChunkIndex chunkId).1

/-- Other inodes' rows are unchanged, and none of their slices is staged. -/
structure Isolated (ino : Int) (before after : Tables) : Prop where
  rows : ∀ other, other ≠ ino →
    after.sliceMeta.filter (fun row => decide (rowInode row.chunkId = other)) =
      before.sliceMeta.filter fun row => decide (rowInode row.chunkId = other)
  staged : ∀ record ∈ after.delayed.rows, rowInode record.chunkId ≠ ino →
    record ∈ before.delayed.rows

theorem Isolated.trans {first second third : Tables} (early : Isolated ino first second)
    (late : Isolated ino second third) : Isolated ino first third where
  rows := fun other different => (late.rows other different).trans (early.rows other different)
  staged := fun record mem different =>
    early.staged record (late.staged record mem different) different

theorem filter_filterMap_keeps {change : SliceDesc → Option SliceDesc} {keep : SliceDesc → Bool}
    (kept : ∀ row, keep row = true → change row = some row)
    (apart : ∀ row row', change row = some row' → keep row' = true → keep row = true)
    (rows : List SliceDesc) : (rows.filterMap change).filter keep = rows.filter keep := by
  rw [filter_filterMap, ← filterMap_eq_filter]
  refine filterMap_congr fun row _ => ?_
  by_cases mine : keep row = true
  · rw [kept row mine, filter_some, Option.guard]
  have none : Option.guard keep row = none := by simp [mine]
  rw [none, filter_eq_none_iff]
  exact fun row' changed now => mine (apart row row' changed now)

/-- A cut inside one inode's chunk ids leaves the others alone. -/
theorem isolated_prune {cut : Nat → Option Nat}
    (inside : ∀ chunkId cutoff, cut chunkId = some cutoff → rowInode chunkId = ino) (db : Tables) :
    Isolated ino db (pruneTables (cutAction cut) db) where
  rows := by
    intro other different
    simp only [pruneTables, pruneRows_eq]
    apply filter_filterMap_keeps
    · intro row mine
      cases found : cut row.chunkId with
      | none => simp only [trimRow, cutAction, found]
      | some cutoff =>
        have here := inside row.chunkId cutoff found
        rw [of_decide_eq_true mine] at here
        exact absurd here different
    · intro row row' kept mine
      rw [trimRow] at kept
      split at kept <;> cases kept
      · exact mine
      · exact mine
  staged := by
    intro record mem different
    simp only [pruneTables, pruneRows_eq] at mem
    rcases stageAll_source mem with before | ⟨item, itemMem, _, chunk⟩
    · exact before
    exfalso
    rcases mem_filterMap.mp itemMem with ⟨row, _, staged⟩
    have facts := stagedBy_eq_some staged
    rw [facts.1] at chunk
    cases found : cut row.chunkId with
    | none => exact facts.2 (by rw [cutAction, found])
    | some cutoff => exact different (by rw [chunk]; exact inside row.chunkId cutoff found)

theorem rowInode_of_index (signed : 0 ≤ ino) :
    rowInode (firstChunk ino + index) = ino ↔ index < chunkIdBase := by
  have pos : 0 < chunkIdBase := by decide
  have quotient : (firstChunk ino + index) / chunkIdBase = ino.toNat + index / chunkIdBase := by
    rw [firstChunk, Nat.add_comm, Nat.add_mul_div_right _ _ pos, Nat.add_comm]
  simp only [rowInode, extractInoAndChunkIndex]
  rw [← Nat.div_eq_zero_iff_lt pos]
  omega

theorem isolated_applyCuts (signed : 0 ≤ ino) (shrinks : newSize < oldSize)
    (pos : 0 < chunkSize) (few : chunkCount oldSize chunkSize ≤ chunkIdBase) (db : Tables) :
    Isolated ino db
      (applyCuts (cutoffCut (firstChunk ino) newSize chunkSize,
        dropCut (firstChunk ino) newSize oldSize chunkSize) db) := by
  have behind := dropStart_le shrinks pos
  apply (isolated_prune ?_ db).trans (isolated_prune ?_ _) <;> intro chunkId cutoff found
  · obtain ⟨here, _⟩ := ite_none_right_eq_some.mp found
    rw [here.2, rowInode_of_index signed]
    omega
  obtain ⟨range, _⟩ := ite_none_right_eq_some.mp found
  rcases Nat.exists_eq_add_of_le ((Nat.le_add_right _ _).trans range.1) with ⟨index, same⟩
  rw [same, rowInode_of_index signed]
  omega

/-- A truncate within `CHUNK_ID_BASE` chunks keeps to its inode. -/
theorem isolated_truncate {current : Int} {db after : Tables} (pos : 0 < chunkSize)
    (found : db.fileSize ino = some current)
    (few : asU64 current ≤ size ∨ chunkCount (asU64 current) chunkSize ≤ chunkIdBase)
    (done : truncate db ino size chunkSize = some after) : Isolated ino db after := by
  rw [truncate, found, bind_some, pruneSlicesForTruncate_eq] at done
  rcases map_eq_some_iff.mp done with ⟨cuts, made, rfl⟩
  by_cases shrinks : size < asU64 current
  · rcases truncateCuts_eq shrinks pos made with ⟨signed, rfl⟩
    have facts := isolated_applyCuts signed shrinks pos (by omega)
      { db with fileSize := update db.fileSize ino (some (asI64 size)) }
    exact ⟨facts.rows, facts.staged⟩
  rw [truncateCuts_noop (by omega)] at made
  cases made
  simp only [applyCuts, pruneTables_noCut]
  exact ⟨fun _ _ => rfl, fun _ mem _ => mem⟩

theorem asU64_asI64 {n : Nat} (fits : n < 2 ^ 64) : asU64 (asI64 n) = n := by
  rw [asI64, asU64]
  split <;> omega

/-- One chunk, one block: a layout for any chunk size. -/
def plainLayout (chunkSize : Nat) (pos : 0 < chunkSize) (fits : chunkSize < 2 ^ 64) : ChunkLayout :=
  ⟨chunkSize, chunkSize, pos, Nat.dvd_refl _, by rw [Nat.div_self pos]; decide, fits⟩

/-- Two files; a byte is written to the second, then the first gets a size. -/
def neighbourRun (ino owner : Int) (chunkId offset oldSize chunkSize : Nat) : List Action :=
  [.client (.create ino), .client (.create owner),
   .client (.write owner chunkId 1 offset [0] (chunkId % chunkIdBase * chunkSize + offset + 1)),
   .client (.truncate ino oldSize chunkSize)]

theorem neighbourRun_spec {layout : ChunkLayout} {owner : Int} (different : owner ≠ ino)
    {offset : Nat} (inside : offset < layout.chunkSize) (chunkId oldSize chunkSize : Nat) :
    ∃ s, exec (step layout) State.init (neighbourRun ino owner chunkId offset oldSize chunkSize) =
        some s ∧
      s.db.fileSize ino = some (asI64 oldSize) ∧ s.db.sliceMeta = [⟨1, chunkId, offset, 1⟩] := by
  have fresh : ∀ s : State, s.taken = [] → Fresh layout s 1 offset [0] := fun s taken =>
    ⟨by simp [taken], by decide, inside⟩
  have unsized : truncateCuts ino oldSize (asU64 0) chunkSize = some (noCut, noCut) :=
    truncateCuts_noop (Nat.zero_le _)
  simp only [neighbourRun, exec, step, clientStep, State.init, Tables.empty, isSome_none,
    Bool.false_eq_true, if_false, bind_some, update_of_ne different]
  rw [if_pos (fresh _ rfl)]
  simp only [Database.write, growFile, Function.update_self, map_some, State.commit, truncate,
    pruneSlicesForTruncate_eq]
  split_ifs <;>
    simp [update_of_ne different.symm, unsized, applyCuts, pruneTables_noCut, appendSlice]

theorem applyCuts_last {base : Nat} {row : SliceDesc} (pos : 0 < chunkSize)
    (shrinks : size < oldSize) (last : row.chunkId = base + (chunkCount oldSize chunkSize - 1))
    (behind : size % chunkSize ≤ row.offset) {db : Tables} (rows : db.sliceMeta = [row]) :
    (applyCuts (cutoffCut base size chunkSize, dropCut base size oldSize chunkSize) db).sliceMeta =
      [] := by
  have count := dropStart_le shrinks pos
  have nonempty : 0 < chunkCount oldSize chunkSize := (Nat.zero_le _).trans_lt count
  simp only [applyCuts, pruneTables, pruneRows_eq, rows]
  by_cases cutoff : 0 < size % chunkSize ∧ row.chunkId = base + size / chunkSize
  · have gone : trimRow (cutAction (cutoffCut base size chunkSize)) row = none := by
      have here : cutoffCut base size chunkSize row.chunkId = some (size % chunkSize) :=
        if_pos cutoff
      simp only [trimRow, cutAction, here, trimAction, if_pos behind]
    rw [filterMap_cons_none gone]
    rfl
  have kept : trimRow (cutAction (cutoffCut base size chunkSize)) row = some row := by
    have none : cutoffCut base size chunkSize row.chunkId = none := if_neg cutoff
    simp only [trimRow, cutAction, none]
  have start : dropStart size chunkSize ≤ chunkCount oldSize chunkSize - 1 := by
    rw [dropStart]
    split <;> omega
  have gone : trimRow (cutAction (dropCut base size oldSize chunkSize)) row = none := by
    have range : base + dropStart size chunkSize ≤ row.chunkId ∧
        row.chunkId < base + chunkCount oldSize chunkSize := by omega
    have zero : dropCut base size oldSize chunkSize row.chunkId = some 0 := if_pos range
    simp only [trimRow, cutAction, zero, trimAction, if_pos (Nat.zero_le _)]
  rw [filterMap_cons_some kept, filterMap_cons_none gone]
  rfl

/-- Past the base, some state loses another inode's row. -/
theorem truncate_escapes (ino : Int) (oldSize size chunkSize : Nat) (pos : 0 < chunkSize)
    (oldFits : oldSize < 2 ^ 64) (chunkFits : chunkSize < 2 ^ 64)
    (accepted : pruneSlicesForTruncate Tables.empty ino size oldSize chunkSize ≠ none)
    (shrinks : size < oldSize) (many : chunkIdBase < chunkCount oldSize chunkSize) :
    ∃ actions s db, exec (step (plainLayout chunkSize pos chunkFits)) State.init actions = some s ∧
      s.db.fileSize ino = some (asI64 oldSize) ∧ truncate s.db ino size chunkSize = some db ∧
      ¬ Isolated ino s.db db := by
  rw [pruneSlicesForTruncate_eq] at accepted
  rcases ne_none_iff_exists'.mp accepted with ⟨_, mapped⟩
  rcases map_eq_some_iff.mp mapped with ⟨cuts, made, _⟩
  rcases truncateCuts_eq shrinks pos made with ⟨signed, rfl⟩
  -- the last chunk the truncate reaches, named by another inode
  have other : rowInode (firstChunk ino + (chunkCount oldSize chunkSize - 1)) ≠ ino := by
    rw [Ne, rowInode_of_index signed]
    omega
  have offset : size % chunkSize < (plainLayout chunkSize pos chunkFits).chunkSize :=
    Nat.mod_lt _ pos
  rcases neighbourRun_spec other offset
    (firstChunk ino + (chunkCount oldSize chunkSize - 1)) oldSize chunkSize with
    ⟨s, run, current, rows⟩
  have done : truncate s.db ino size chunkSize = some (applyCuts
      (cutoffCut (firstChunk ino) size chunkSize, dropCut (firstChunk ino) size oldSize chunkSize)
      { s.db with fileSize := update s.db.fileSize ino (some (asI64 size)) }) := by
    rw [truncate, current, bind_some, pruneSlicesForTruncate_eq, asU64_asI64 oldFits, made]
    rfl
  refine ⟨_, s, _, run, current, done, ?_⟩
  intro isolated
  have lost := isolated.rows _ other
  have gone := applyCuts_last pos shrinks rfl (le_rfl)
    (show { s.db with fileSize := update s.db.fileSize ino (some (asI64 size)) }.sliceMeta =
      [⟨1, firstChunk ino + (chunkCount oldSize chunkSize - 1), size % chunkSize, 1⟩] from rows)
  rw [gone, rows] at lost
  simp at lost

/-- A truncate keeps to its inode, in every state, exactly when it does not shrink the file or the
file has at most `CHUNK_ID_BASE` chunks. -/
theorem truncate_isolated_iff (ino : Int) (oldSize size chunkSize : Nat) (pos : 0 < chunkSize)
    (oldFits : oldSize < 2 ^ 64) (chunkFits : chunkSize < 2 ^ 64)
    (accepted : pruneSlicesForTruncate Tables.empty ino size oldSize chunkSize ≠ none) :
    (∀ layout actions s db, exec (step layout) State.init actions = some s →
      s.db.fileSize ino = some (asI64 oldSize) → truncate s.db ino size chunkSize = some db →
      Isolated ino s.db db) ↔
    oldSize ≤ size ∨ chunkCount oldSize chunkSize ≤ chunkIdBase := by
  constructor
  · intro isolates
    by_contra neither
    rcases truncate_escapes ino oldSize size chunkSize pos oldFits chunkFits accepted (by omega)
      (by omega) with
      ⟨actions, s, db, run, current, done, escapes⟩
    exact escapes (isolates _ actions s db run current done)
  intro few layout actions s db _ current done
  rw [← asU64_asI64 oldFits] at few
  exact isolated_truncate pos current few done

def smallFiles : List Action :=
  [.client (.create 2), .client (.create 3), .client (.write 3 3000000000 1 0 [7] 1),
   .client (.extend 2 9)]

theorem truncate_isolated_iff_small :
    ∃ s db, exec (step (plainLayout 4 (by decide) (by decide))) State.init smallFiles = some s ∧
      truncate s.db 2 1 4 = some db ∧ Isolated 2 s.db db :=
  ⟨_, _, rfl, rfl, (truncate_isolated_iff 2 9 1 4 (by decide) (by decide) (by decide)
    (by decide)).mpr (.inr (by decide)) (plainLayout 4 (by decide) (by decide)) smallFiles _ _ rfl
      rfl
      rfl⟩

/-- With 64 MiB chunks, shrinking a sparse file of more than 64 PB drops the data of the next inode
number. -/
theorem truncate_reaches_neighbour :
    ∃ layout actions s db, exec (step layout) State.init actions = some s ∧
      s.db.fileSize 2 = some 67108864000000001 ∧
      truncate s.db 2 0 67108864 = some db ∧ ¬ Isolated 2 s.db db := by
  rcases truncate_escapes 2 67108864000000001 0 67108864 (by decide) (by decide) (by decide)
    (by decide) (by decide) (by decide) with
    ⟨actions, s, db, run, current, done, escapes⟩
  exact ⟨_, actions, s, db, run, current, done, escapes⟩

end BrewFs.Meta.Database
