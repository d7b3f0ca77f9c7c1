import BrewFs.Chunk.Compact.Rows

/- What each transaction does to the tables. -/
namespace BrewFs.Meta.Database

open BrewFs.Chunk BrewFs.Chunk.Compact List
open SliceDesc (stop)

/-! ### Truncation -/

/-- The row a trim decision leaves. -/
def trimRow (action : SliceDesc → TrimAction) (row : SliceDesc) : Option SliceDesc :=
  match action row with
  | .keep => some row
  | .drop => none
  | .truncate newLen => some { row with length := newLen }

/-- A cut gives each chunk the offset from which its bytes go, if any. -/
def cutAction (cut : Nat → Option Nat) (row : SliceDesc) : TrimAction :=
  match cut row.chunkId with
  | none => .keep
  | some cutoff => trimAction row.offset row.length cutoff

def noCut : Nat → Option Nat := fun _ => none

/-- The cuts of the rewrite and of the delete closure, or a chunk id's error. -/
def truncateCuts (ino : Int) (newSize oldSize chunkSize : Nat) :
    Option ((Nat → Option Nat) × (Nat → Option Nat)) :=
  match truncatePlan newSize oldSize chunkSize with
  | none => some (noCut, noCut)
  | some plan =>
    let rewritten :=
      if 0 < plan.cutoffOffset then
        (rowChunkId ino plan.cutoffChunk).map fun chunkId =>
          fun other => if other = chunkId then some plan.cutoffOffset else none
      else some noCut
    rewritten.bind fun first =>
      if plan.dropStart < plan.oldChunkCount then
        (rowChunkId ino plan.dropStart).bind fun start =>
          (rowChunkId ino plan.oldChunkCount).map fun stop =>
            (first, fun other => if start ≤ other ∧ other < stop then some 0 else none)
      else some (first, noCut)

theorem pruneTables_noCut (db : Tables) : pruneTables (cutAction noCut) db = db := by
  have same : ∀ (rows : List SliceDesc) (table : DelayedTable),
      pruneRows (cutAction noCut) rows table = (rows, table) := by
    intro rows
    induction rows with
    | nil => exact fun table => rfl
    | cons row rest ih =>
      intro table
      rw [pruneRows]
      simp only [cutAction, noCut] at ih ⊢
      rw [ih]
  simp only [pruneTables, same]

theorem rewrite_action (chunkId cutoff : Nat) :
    (fun row : SliceDesc => if row.chunkId = chunkId then trimAction row.offset row.length cutoff
      else TrimAction.keep) =
    cutAction fun other => if other = chunkId then some cutoff else none := by
  funext row
  by_cases same : row.chunkId = chunkId <;> simp [cutAction, same]

/-- Dropping is cutting at offset zero. -/
theorem delete_action (start stop : Nat) :
    (fun row : SliceDesc => if start ≤ row.chunkId ∧ row.chunkId < stop then TrimAction.drop
      else TrimAction.keep) =
    cutAction fun other => if start ≤ other ∧ other < stop then some 0 else none := by
  funext row
  by_cases inside : start ≤ row.chunkId ∧ row.chunkId < stop <;>
    simp [cutAction, inside, trimAction]

/-- The rewrite and then the delete. -/
def applyCuts (cuts : (Nat → Option Nat) × (Nat → Option Nat)) (db : Tables) : Tables :=
  pruneTables (cutAction cuts.2) (pruneTables (cutAction cuts.1) db)

/-- Truncation prunes twice, by cuts independent of the tables. -/
theorem pruneSlicesForTruncate_eq (db : Tables) (ino : Int) (newSize oldSize chunkSize : Nat) :
    pruneSlicesForTruncate db ino newSize oldSize chunkSize =
      (truncateCuts ino newSize oldSize chunkSize).map fun cuts => applyCuts cuts db := by
  unfold pruneSlicesForTruncate applyTruncatePlan truncateCuts applyCuts
  cases planned : truncatePlan newSize oldSize chunkSize with
  | none => simp [pruneTables_noCut]
  | some plan =>
    simp only [rewriteChunk, deleteChunks, rewrite_action, delete_action]
    -- two guards and three ids of chunks
    by_cases trims : 0 < plan.cutoffOffset <;>
      by_cases drops : plan.dropStart < plan.oldChunkCount <;>
      cases rowChunkId ino plan.cutoffChunk <;> cases rowChunkId ino plan.dropStart <;>
      cases rowChunkId ino plan.oldChunkCount <;> simp [trims, drops, pruneTables_noCut]

/-- A row under a cut: gone, shortened to the cutoff, or untouched. -/
def cutRow (cut : Nat → Option Nat) (row : SliceDesc) : Option SliceDesc :=
  match cut row.chunkId with
  | none => some row
  | some cutoff =>
    if cutoff ≤ row.offset then none
    else some { row with length := min row.length (cutoff - row.offset) }

theorem trimRow_cutAction (cut : Nat → Option Nat) (row : SliceDesc) (fits : row.stop < 2 ^ 64) :
    trimRow (cutAction cut) row = cutRow cut row := by
  unfold trimRow cutAction cutRow
  cases cut row.chunkId with
  | none => rfl
  | some cutoff =>
    have stop : saturatingAdd row.offset row.length = row.offset + row.length := by
      simp only [stop] at fits
      simp only [saturatingAdd]
      omega
    dsimp only [trimAction]
    rw [stop]
    by_cases gone : cutoff ≤ row.offset
    · simp only [if_pos gone]
    simp only [if_neg gone]
    by_cases shorter : cutoff < row.offset + row.length
    · simp only [if_pos shorter]
      congr 2
      omega
    simp only [if_neg shorter]
    congr 1
    cases row
    dsimp only at gone shorter ⊢
    congr 1
    omega

theorem reworks_cut (cut : Nat → Option Nat) (rows : List SliceDesc)
    (fits : ∀ row ∈ rows, row.stop < 2 ^ 64) : Reworks (trimRow (cutAction cut)) rows where
  shrinks := by
    intro row mem row' kept
    rw [trimRow_cutAction cut row (fits row mem)] at kept
    unfold cutRow at kept
    split at kept
    · cases kept
      exact ⟨rfl, rfl, rfl, le_rfl⟩
    · cases (Option.ite_none_left_eq_some.mp kept).2
      exact ⟨rfl, rfl, rfl, Nat.min_le_left _ _⟩
  shadows := by
    intro row later row' before covering kept
    have members := before.mem
    rw [trimRow_cutAction cut row (fits row members.1)] at kept
    have laterCut := trimRow_cutAction cut later (fits later members.2)
    have ranges := covering.2
    simp only [SliceDesc.Encloses, stop] at ranges
    unfold cutRow at kept laterCut
    rw [covering.1] at laterCut
    cases chunkCut : cut row.chunkId with
    | none =>
      simp only [chunkCut] at kept laterCut
      cases kept
      exact ⟨later, later, before, laterCut, covering⟩
    | some cutoff =>
      simp only [chunkCut] at kept laterCut
      split at kept
      · cases kept
      next above =>
        cases kept
        rw [if_neg (by omega)] at laterCut
        refine ⟨later, _, before, laterCut, rfl, ?_⟩
        simp only [SliceDesc.Encloses, stop]
        omega

/-! ### Delayed records -/

variable {table : DelayedTable} {record : DelayedRow} {row : UncommittedRow}
  {staged : List (SliceDesc × Bool)} {item : Nat × Nat}

/-- Records are old ones or the staged one: a new record, for which the counter moves on, or the
slice's retained record under its old id. -/
theorem mem_stage {slice : SliceDesc} {retained : Bool}
    (mem : record ∈ (stageSliceReclamation table slice retained).rows) : record ∈ table.rows ∨
      record.sliceId = slice.sliceId ∧ record.chunkId = slice.chunkId ∧ slice.length ≤ record.size ∧
        record.status = (if retained then .retained else .pending) ∧
        (record.id = table.seq ∧ table.seq < (stageSliceReclamation table slice retained).seq ∨
          ∃ previous ∈ table.rows, previous.id = record.id ∧ previous.status = .retained) := by
  unfold stageSliceReclamation at mem ⊢
  cases found : table.rows.find? (retainedFor slice) with
  | some previous =>
    simp only [found] at mem
    rcases mem_map.mp mem with ⟨row, rowMem, made⟩
    split at made
    · right
      subst made
      have status : previous.status = .retained := by
        have matched := find?_some found
        simp only [retainedFor, Bool.and_eq_true, beq_iff_eq] at matched
        exact matched.2
      exact ⟨rfl, rfl, Nat.le_max_left _ _, rfl,
        .inr ⟨previous, mem_of_find?_eq_some found, rfl, status⟩⟩
    · rw [← made]
      exact .inl rowMem
  | none =>
    simp only [found] at mem
    rcases mem_append.mp mem with old | new
    · exact .inl old
    · rw [mem_singleton.mp new]
      exact .inr ⟨rfl, rfl, le_rfl, rfl, .inl ⟨rfl, Nat.lt_succ_self _⟩⟩

theorem seq_stage (table : DelayedTable) (slice : SliceDesc) (retained : Bool) :
    table.seq ≤ (stageSliceReclamation table slice retained).seq := by
  unfold stageSliceReclamation
  dsimp only
  split
  · exact le_rfl
  · exact Nat.le_succ _

/-- How a table of delayed records may change: a record open to collectors keeps its meaning while
it exists. -/
structure DelayedTable.Extends (older newer : DelayedTable) : Prop where
  seq : older.seq ≤ newer.seq
  below : (∀ row ∈ older.rows, row.id < older.seq) → ∀ row ∈ newer.rows, row.id < newer.seq
  kept : (∀ row ∈ older.rows, row.id < older.seq) → ∀ row ∈ newer.rows, row.id < older.seq →
    ∃ before ∈ older.rows, before.id = row.id ∧ (before.status = .retained ∨
        row.sliceId = before.sliceId ∧ row.size = before.size ∧ row.status ≠ .retained)
  distinct : (∀ row ∈ older.rows, row.id < older.seq) → (older.rows.map (·.id)).Nodup →
    (newer.rows.map (·.id)).Nodup

theorem DelayedTable.Extends.refl (table : DelayedTable) : table.Extends table where
  seq := le_rfl
  below := id
  kept := by
    intro _ row mem _
    refine ⟨row, mem, rfl, ?_⟩
    by_cases retained : row.status = .retained
    · exact .inl retained
    · exact .inr ⟨rfl, rfl, retained⟩
  distinct := fun _ => id

theorem DelayedTable.Extends.trans {first second third : DelayedTable}
    (early : first.Extends second) (late : second.Extends third) : first.Extends third where
  seq := early.seq.trans late.seq
  below := fun ids => late.below (early.below ids)
  kept := by
    intro ids row mem small
    rcases late.kept (early.below ids) row mem (small.trans_le early.seq) with
      ⟨middle, middleMem, middleId, how⟩
    rcases early.kept ids middle middleMem (by omega) with ⟨before, beforeMem, beforeId, first⟩
    refine ⟨before, beforeMem, by omega, ?_⟩
    rcases first with retained | ⟨slice, size, status⟩
    · exact .inl retained
    rcases how with retained | ⟨slice', size', status'⟩
    · exact absurd retained status
    · exact .inr ⟨by rw [slice', slice], by rw [size', size], status'⟩
  distinct := fun ids nodup => late.distinct (early.below ids) (early.distinct ids nodup)

/-- Rewriting records under their ids leaves the ids alone. -/
theorem map_ids_of_rewrite (rows : List DelayedRow) {id : Nat} (rewrite : DelayedRow → DelayedRow)
    (keeps : ∀ row, row.id = id → (rewrite row).id = id) :
    (rows.map fun row => if row.id = id then rewrite row else row).map (·.id) =
      rows.map (·.id) := by
  rw [map_map]
  apply map_congr_left
  intro row _
  by_cases same : row.id = id
  · simp [same, keeps row same]
  · simp [same]

theorem extends_stage (table : DelayedTable) (slice : SliceDesc) (retained : Bool) :
    table.Extends (stageSliceReclamation table slice retained) where
  seq := seq_stage table slice retained
  below := by
    intro ids row mem
    rcases mem_stage mem with old | ⟨_, _, _, _, fresh | ⟨previous, previousMem, same, _⟩⟩
    · exact (ids row old).trans_le (seq_stage table slice retained)
    · exact fresh.1 ▸ fresh.2
    · have bound := ids previous previousMem
      have step := seq_stage table slice retained
      omega
  kept := by
    intro ids row mem small
    rcases mem_stage mem with old | ⟨_, _, _, _, fresh | ⟨previous, previousMem, same, status⟩⟩
    · exact (DelayedTable.Extends.refl table).kept ids row old small
    · omega
    · exact ⟨previous, previousMem, same, .inl status⟩
  distinct := by
    intro ids nodup
    unfold stageSliceReclamation
    dsimp only
    split
    · rename_i previous found
      have same := map_ids_of_rewrite table.rows
        (fun _ => ⟨previous.id, slice.sliceId, slice.chunkId, slice.offset,
          max slice.length previous.size, if retained then .retained else .pending⟩)
        (fun _ _ => rfl)
      exact same ▸ nodup
    rw [map_append, nodup_append]
    refine ⟨nodup, nodup_singleton _, ?_⟩
    intro id old other new clash
    rcases mem_map.mp old with ⟨row, rowMem, rfl⟩
    have bound := ids row rowMem
    have fresh : other = table.seq := mem_singleton.mp new
    omega

/-- Staging several slices in turn. -/
def stageAll (table : DelayedTable) (staged : List (SliceDesc × Bool)) : DelayedTable :=
  staged.foldl (fun table item => stageSliceReclamation table item.1 item.2) table

theorem extends_stageAll (table : DelayedTable) (staged : List (SliceDesc × Bool)) :
    table.Extends (stageAll table staged) := by
  induction staged generalizing table with
  | nil => exact .refl table
  | cons item rest ih => exact (extends_stage table item.1 item.2).trans (ih _)

/-- A record was there before or is about a staged slice. -/
theorem stageAll_source (mem : record ∈ (stageAll table staged).rows) : record ∈ table.rows ∨
      ∃ item ∈ staged, record.sliceId = item.1.sliceId ∧ record.chunkId = item.1.chunkId := by
  induction staged generalizing table with
  | nil => exact .inl mem
  | cons item rest ih =>
    rcases ih mem with before | ⟨other, otherMem, same⟩
    · rcases mem_stage before with old | ⟨slice, chunk, _⟩
      · exact .inl old
      · exact .inr ⟨item, mem_cons_self, slice, chunk⟩
    · exact .inr ⟨other, mem_cons_of_mem _ otherMem, same⟩

/-- A record collectable after staging was so before, or is a dropped slice's. -/
theorem mem_stageAll (mem : record ∈ (stageAll table staged).rows)
    (status : record.status ≠ .retained) :
    record ∈ table.rows ∨ ∃ item ∈ staged, item.2 = false ∧ record.sliceId = item.1.sliceId := by
  induction staged generalizing table with
  | nil => exact .inl mem
  | cons item rest ih =>
    rcases ih mem with early | ⟨other, otherMem, drops, same⟩
    · rcases mem_stage early with old | ⟨slice, _, _, made, _⟩
      · exact .inl old
      refine .inr ⟨item, mem_cons_self, ?_, slice⟩
      by_contra kept
      rw [Bool.not_eq_false] at kept
      simp only [kept] at made
      exact status made
    · exact .inr ⟨other, mem_cons_of_mem _ otherMem, drops, same⟩

/-- What pruning stages: dropped rows as pending, shortened ones as retained. -/
def stagedBy (action : SliceDesc → TrimAction) (row : SliceDesc) : Option (SliceDesc × Bool) :=
  match action row with
  | .keep => none
  | .drop => some (row, false)
  | .truncate _ => some (row, true)

theorem stagedBy_eq_some {action : SliceDesc → TrimAction} {row : SliceDesc}
    {item : SliceDesc × Bool}
    (staged : stagedBy action row = some item) :
    item.1 = row ∧ action row ≠ .keep := by
  rw [stagedBy] at staged
  cases decision : action row with
  | keep =>
    rw [decision] at staged
    cases staged
  | drop =>
    rw [decision] at staged
    cases staged
    exact ⟨rfl, by decide⟩
  | truncate newLen =>
    rw [decision] at staged
    cases staged
    exact ⟨rfl, nofun⟩

theorem pruneRows_eq (action : SliceDesc → TrimAction) (rows : List SliceDesc)
    (table : DelayedTable) : pruneRows action rows table =
      (rows.filterMap (trimRow action), stageAll table (rows.filterMap (stagedBy action))) := by
  induction rows generalizing table with
  | nil => rfl
  | cons row rest ih =>
    simp only [pruneRows]
    cases decided : action row with
    | keep => simp [trimRow, stagedBy, decided, ih]
    | drop | truncate => simp [trimRow, stagedBy, decided, ih, stageAll]

theorem reclaimReplaced_delayed (db : Tables) (chunkId : Nat) (newSlices : List SliceDesc)
    (records : List (Nat × Nat × Nat)) : (reclaimReplaced db chunkId newSlices records).delayed =
      stageAll db.delayed (records.map fun record =>
        (⟨record.1, chunkId, record.2.1, record.2.2⟩, false)) := by
  simp only [reclaimReplaced, stageAll, foldl_map]

/-! ### Collection -/

theorem extends_mark (id : Nat) : table.Extends { table with rows := table.rows.map fun row =>
      if row.id = id then { row with status := .metaDeleted } else row } where
  seq := le_rfl
  below := by
    intro ids row mem
    rcases mem_map.mp mem with ⟨before, beforeMem, made⟩
    have bound := ids before beforeMem
    split at made <;> rw [← made] <;> exact bound
  kept := by
    intro ids row mem small
    rcases mem_map.mp mem with ⟨before, beforeMem, made⟩
    split at made
    · subst made
      exact ⟨before, beforeMem, rfl, .inr ⟨rfl, rfl, by simp⟩⟩
    · subst made
      exact (DelayedTable.Extends.refl table).kept ids before beforeMem small
  distinct := by
    intro _ nodup
    rw [map_ids_of_rewrite table.rows (fun row => { row with status := .metaDeleted })
      (fun _ same => same)]
    exact nodup

theorem extends_filter (table : DelayedTable) (keep : DelayedRow → Bool) :
    table.Extends { table with rows := table.rows.filter keep } where
  seq := le_rfl
  below := fun ids row mem => ids row (mem_filter.mp mem).1
  kept := fun ids row mem small =>
    (DelayedTable.Extends.refl table).kept ids row (mem_filter.mp mem).1 small
  distinct := fun _ nodup => nodup.sublist ((filter_sublist).map _)

/-- The record as the collector's transaction marks it. -/
def DelayedRow.marked (row : DelayedRow) : DelayedRow := { row with status := .metaDeleted }

/-- The collector's transaction marks the selected records only. -/
def Marks (selected : List DelayedRow) (before after : DelayedRow) : Prop :=
  after = before ∨ after = before.marked ∧ ∃ record ∈ selected, record.id = before.id

/-- The collector's transaction: mappings go only for selected records, records are only marked, and
all it returns was selected. -/
structure Collects (selected : List DelayedRow) (db db' : Tables) (ready : List ReadyDeletion) :
    Prop where
  extend : db.delayed.Extends db'.delayed
  uncommitted : db'.uncommitted = db.uncommitted
  sizes : db'.fileSize = db.fileSize
  mappings : (∀ record ∈ selected, ∀ row ∈ db.sliceMeta, row.sliceId ≠ record.sliceId) →
    db'.sliceMeta = db.sliceMeta
  gone : ∀ row ∈ db'.sliceMeta, row ∈ db.sliceMeta ∧
    ∀ record ∈ selected, record.status = .pending → row.sliceId ≠ record.sliceId
  listed : ∀ item ∈ ready, ∃ record ∈ selected, item = ⟨record.sliceId, record.size, record.id⟩
  rows : ∃ mark : DelayedRow → DelayedRow, (∀ row, Marks selected row (mark row)) ∧
    db'.delayed.rows = db.delayed.rows.map mark

namespace Collects

variable {record row : DelayedRow} {selected rest : List DelayedRow} {db db' : Tables}
  {ready : List ReadyDeletion}

theorem later (collects : Collects rest db db' ready)
    (settled : record.status = .pending → ∀ row ∈ db.sliceMeta, row.sliceId ≠ record.sliceId) :
    Collects (record :: rest) db db' ready where
  __ := collects
  mappings dead := collects.mappings fun other mem => dead other (mem_cons_of_mem _ mem)
  gone row mem := by
    obtain ⟨before, others⟩ := collects.gone row mem
    refine ⟨before, fun other otherMem pending => ?_⟩
    rcases mem_cons.mp otherMem with rfl | tail
    · exact settled pending row before
    · exact others other tail pending
  listed item mem := by
    obtain ⟨other, otherMem, same⟩ := collects.listed item mem
    exact ⟨other, mem_cons_of_mem _ otherMem, same⟩
  rows := by
    obtain ⟨mark, marks, rows⟩ := collects.rows
    refine ⟨mark, fun row => (marks row).imp_right ?_, rows⟩
    rintro ⟨marked, other, otherMem, id⟩
    exact ⟨marked, other, mem_cons_of_mem _ otherMem, id⟩

theorem emit (collects : Collects (record :: rest) db db' ready) :
    Collects (record :: rest) db db' (⟨record.sliceId, record.size, record.id⟩ :: ready) where
  __ := collects
  listed item mem := by
    rcases mem_cons.mp mem with here | tail
    · exact ⟨record, mem_cons_self, here⟩
    · exact collects.listed item tail

theorem unmap (collects : Collects (record :: rest) { db with
      sliceMeta := db.sliceMeta.filter fun row => !(row.sliceId == record.sliceId) } db' ready) :
    Collects (record :: rest) db db' ready where
  __ := collects
  mappings dead := by
    have same : db.sliceMeta.filter (fun row => !(row.sliceId == record.sliceId)) =
        db.sliceMeta := by
      rw [filter_eq_self]
      intro row mem
      simpa using dead record mem_cons_self row mem
    exact (collects.mappings (same.symm ▸ dead)).trans same
  gone row mem := (collects.gone row mem).imp_left fun kept => (mem_filter.mp kept).1

theorem mark (collects : Collects (record :: rest) { db with
      delayed := { db.delayed with rows := db.delayed.rows.map fun row =>
        if row.id = record.id then { row with status := .metaDeleted } else row } } db' ready) :
    Collects (record :: rest) db db' ready where
  __ := collects
  extend := (extends_mark record.id).trans collects.extend
  rows := by
    obtain ⟨mark, marks, rows⟩ := collects.rows
    refine ⟨_, fun row => ?_, rows.trans map_map⟩
    by_cases same : row.id = record.id
    · -- marking again changes nothing
      have again := marks row.marked
      simp only [Function.comp, if_pos same]
      exact .inr ⟨again.elim id And.left, record, mem_cons_self, same.symm⟩
    · simp only [Function.comp, if_neg same]
      exact marks row

theorem marked (collects : Collects selected db db' ready) (mem : row ∈ db'.delayed.rows) :
    ∃ before ∈ db.delayed.rows, Marks selected before row := by
  obtain ⟨mark, marks, rows⟩ := collects.rows
  rw [rows] at mem
  obtain ⟨before, beforeMem, rfl⟩ := mem_map.mp mem
  exact ⟨before, beforeMem, marks before⟩

theorem keeps (collects : Collects selected db db' ready) (mem : row ∈ db.delayed.rows) :
    ∃ after ∈ db'.delayed.rows, Marks selected row after := by
  obtain ⟨mark, marks, rows⟩ := collects.rows
  exact ⟨mark row, rows ▸ mem_map_of_mem mem, marks row⟩

end Collects

theorem processDelayedSlices_spec (selected : List DelayedRow) (db : Tables) :
    Collects selected db (processDelayedSlices selected db).1
      (processDelayedSlices selected db).2 := by
  induction selected generalizing db with
  | nil =>
    exact {
      extend := .refl _
      uncommitted := rfl
      sizes := rfl
      mappings := fun _ => rfl
      gone := fun row mem => ⟨mem, nofun⟩
      listed := nofun
      rows := ⟨id, fun _ => .inl rfl, (map_id _).symm⟩ }
  | cons record rest ih =>
    cases status : record.status with
    | metaDeleted =>
      simp only [processDelayedSlices, status]
      exact ((ih db).later (by simp [status])).emit
    | retained =>
      simp only [processDelayedSlices, status]
      exact (ih db).later (by simp [status])
    | pending =>
      have settled : ∀ row ∈ db.sliceMeta.filter fun row => !(row.sliceId == record.sliceId),
          row.sliceId ≠ record.sliceId :=
        fun row mem => by simpa using (mem_filter.mp mem).2
      simp only [processDelayedSlices, status]
      split
      · exact ((ih _).later fun _ => settled).mark.unmap.emit
      · exact ((ih _).later fun _ => settled).unmap

/-! ### Reservations -/

theorem claimOrphans_ids (sliceMeta : List SliceDesc) (aged : List Nat)
    (rows : List UncommittedRow) :
    ((claimOrphans sliceMeta aged rows).1.map (·.sliceId)).Sublist (rows.map (·.sliceId)) := by
  induction rows with
  | nil => exact .refl _
  | cons row rest ih =>
    simp only [claimOrphans]
    split
    · split
      · exact ih.cons _
      · exact ih.cons_cons _
    · exact ih.cons_cons _

variable {sliceMeta : List SliceDesc} {aged : List Nat} {rows : List UncommittedRow}

/-- Claiming keeps a reservation, or orphans a pending one of an unmapped slice. -/
theorem claimOrphans_cases (mem : row ∈ (claimOrphans sliceMeta aged rows).1) :
    row ∈ rows ∨ row.status = .orphan ∧ (∀ slice ∈ sliceMeta, slice.sliceId ≠ row.sliceId) ∧
      ∃ before ∈ rows, before.sliceId = row.sliceId ∧ before.status = .pending := by
  induction rows with
  | nil => cases mem
  | cons first rest ih =>
    have deeper (tail : row ∈ (claimOrphans sliceMeta aged rest).1) :=
      (ih tail).imp (mem_cons_of_mem first) (And.imp_right (And.imp_right
        (Exists.imp fun _ => And.imp_left (mem_cons_of_mem first))))
    simp only [claimOrphans] at mem
    split at mem
    · rename_i chosen
      split at mem
      · exact deeper mem
      rename_i unmapped
      rcases mem_cons.mp mem with rfl | tail
      · refine .inr ⟨rfl, ?_, first, mem_cons_self, rfl, chosen.1⟩
        intro slice listed same
        exact unmapped (any_eq_true.mpr ⟨slice, listed, beq_iff_eq.mpr same⟩)
      · exact deeper tail
    · rcases mem_cons.mp mem with rfl | tail
      · exact .inl mem_cons_self
      · exact deeper tail

theorem mem_claimOrphans (mem : row ∈ (claimOrphans sliceMeta aged rows).1) :
    ∃ before ∈ rows, before.sliceId = row.sliceId ∧ (row.status = .pending → before = row) := by
  rcases claimOrphans_cases mem with old | ⟨orphan, _, before, beforeMem, same, _⟩
  · exact ⟨row, old, rfl, fun _ => rfl⟩
  · exact ⟨before, beforeMem, same, by simp [orphan]⟩

theorem orphan_of_claimed (mem : item ∈ (claimOrphans sliceMeta aged rows).2) :
    ∃ row ∈ (claimOrphans sliceMeta aged rows).1, row.sliceId = item.1 ∧ row.status = .orphan := by
  induction rows with
  | nil => cases mem
  | cons first rest ih =>
    simp only [claimOrphans] at mem ⊢
    split at mem
    · rename_i aged
      rw [if_pos aged]
      split at mem
      · rename_i mapped
        rw [if_pos mapped]
        exact ih mem
      next unmapped =>
        rw [if_neg unmapped]
        rcases mem_cons.mp mem with here | tail
        · rw [here]
          exact ⟨_, mem_cons_self, rfl, rfl⟩
        · rcases ih tail with ⟨row, rowMem, facts⟩
          exact ⟨row, mem_cons_of_mem _ rowMem, facts⟩
    · rename_i young
      rw [if_neg young]
      rcases ih mem with ⟨row, rowMem, facts⟩
      exact ⟨row, mem_cons_of_mem _ rowMem, facts⟩

theorem orphan_kept (mem : row ∈ rows) (orphan : row.status = .orphan) :
    row ∈ (claimOrphans sliceMeta aged rows).1 := by
  induction rows with
  | nil => cases mem
  | cons first rest ih =>
    simp only [claimOrphans]
    rcases mem_cons.mp mem with here | tail
    · subst here
      rw [if_neg (by simp [orphan])]
      exact mem_cons_self
    split
    · split
      · exact ih tail
      · exact mem_cons_of_mem _ (ih tail)
    · exact mem_cons_of_mem _ (ih tail)

/-- Every slice handed to a collector as an orphan is one in the tables. -/
theorem orphan_of_cleanup {db : Tables} {orphaned : List Nat}
    (mem : item ∈ (cleanupOrphanUncommittedSlices db aged orphaned).2) :
    ∃ row ∈ (cleanupOrphanUncommittedSlices db aged orphaned).1.uncommitted.rows,
      row.sliceId = item.1 ∧ row.status = .orphan := by
  rcases mem_append.mp mem with claimed | listed
  · exact orphan_of_claimed claimed
  rcases mem_map.mp listed with ⟨row, rowMem, rfl⟩
  have facts := mem_filter.mp rowMem
  have orphan : row.status = .orphan := by
    have both := facts.2
    simp only [Bool.and_eq_true, beq_iff_eq] at both
    exact both.1
  exact ⟨row, orphan_kept facts.1 orphan, rfl, orphan⟩

/-- A consumed reservation was pending, and none of that slice and chunk still is. -/
theorem consumeReservation_spec {left : List UncommittedRow} {sliceId chunkId : Nat}
    (consumed : consumeReservation rows sliceId chunkId = some left) :
    (∃ row ∈ rows, row.sliceId = sliceId ∧ row.chunkId = chunkId ∧ row.status = .pending) ∧
    left.Sublist rows ∧
    ∀ row ∈ left, ¬ (row.sliceId = sliceId ∧ row.chunkId = chunkId ∧ row.status = .pending) := by
  obtain ⟨single, ⟨⟩⟩ := Option.ite_none_right_eq_some.mp consumed
  refine ⟨?_, filter_sublist, ?_⟩
  · rcases length_eq_one_iff.mp single with ⟨row, only⟩
    have mem : row ∈ [row] := mem_singleton.mpr rfl
    rw [← only] at mem
    have facts := mem_filter.mp mem
    simp only [Bool.and_eq_true, beq_iff_eq] at facts
    exact ⟨row, facts.1, facts.2.1.1, facts.2.1.2, facts.2.2⟩
  intro row mem clash
  have facts := (mem_filter.mp mem).2
  simp [clash.1, clash.2.1, clash.2.2] at facts

end BrewFs.Meta.Database
