import BrewFs.Chunk.Slice
import BrewFs.Meta.TruncatePlan

/- `meta/stores/database/mod.rs`: the tables behind slices and file sizes. Every function here
is one transaction; `none` is an error, after which the transaction rolls back. -/
namespace BrewFs.Meta.Database

open BrewFs.Chunk

inductive DelayedStatus where
  | retained
  | pending
  | metaDeleted
  deriving DecidableEq, Repr

/-- A row of `delayed_slice`; its timestamp and reason steer nothing modelled here. -/
structure DelayedRow where
  id : Nat
  sliceId : Nat
  chunkId : Nat
  offset : Nat
  size : Nat
  status : DelayedStatus
  deriving DecidableEq, Repr

inductive UncommittedStatus where
  | pending
  | orphan
  deriving DecidableEq, Repr

structure UncommittedRow where
  id : Nat
  sliceId : Nat
  chunkId : Nat
  size : Nat
  status : UncommittedStatus
  deriving DecidableEq, Repr

/-- A table of delayed slices and its auto-increment counter. -/
structure DelayedTable where
  rows : List DelayedRow
  seq : Nat

structure UncommittedTable where
  rows : List UncommittedRow
  seq : Nat

structure Tables where
  /-- `slice_meta` in the order of its auto-increment key. -/
  sliceMeta : List SliceDesc
  delayed : DelayedTable
  uncommitted : UncommittedTable
  /-- `file_meta.size` by inode, an `i64` column. -/
  fileSize : Int → Option Int

def Tables.empty : Tables := ⟨[], ⟨[], 1⟩, ⟨[], 1⟩, fun _ => none⟩

/-- `as i64`. -/
def asI64 (n : Nat) : Int :=
  if n % 2 ^ 64 < 2 ^ 63 then (n % 2 ^ 64 : Nat) else (n % 2 ^ 64 : Nat) - 2 ^ 64

/-- `as u64` of an `i64`. -/
def asU64 (z : Int) : Nat := (z % 2 ^ 64).toNat

/-- `get_slices`. -/
def getSlices (sliceMeta : List SliceDesc) (chunkId : Nat) : List SliceDesc :=
  sliceMeta.filter fun row => row.chunkId == chunkId

variable (db : Tables)

/-- `append_slice`: the row takes the chunk id of the call. -/
def appendSlice (chunkId : Nat) (slice : SliceDesc) : Tables :=
  { db with sliceMeta := db.sliceMeta ++ [{ slice with chunkId := chunkId }] }

/-- Grow the file to `size` if it is smaller; an unknown inode is `NotFound`. -/
def growFile (fileSize : Int → Option Int) (ino : Int) (size : Nat) : Option (Int → Option Int) :=
  (fileSize ino).map fun current =>
    if current < asI64 size then Function.update fileSize ino (some (asI64 size)) else fileSize

variable (ino : Int)

/-- `write_with_coalesced_reservation` for an ordinary slice. -/
def write (chunkId : Nat) (slice : SliceDesc) (newSize : Nat) : Option Tables :=
  (growFile db.fileSize ino newSize).map fun fileSize =>
    { appendSlice db chunkId slice with fileSize := fileSize }

def extendFileSize (size : Nat) : Option Tables :=
  (growFile db.fileSize ino size).map fun fileSize => { db with fileSize := fileSize }

/-- The retained record owning the extent of a shortened live slice. -/
def retainedFor (slice : SliceDesc) (row : DelayedRow) : Bool :=
  row.chunkId == slice.chunkId && row.sliceId == slice.sliceId && row.status == .retained

/-- `stage_slice_reclamation`: reuse the slice's retained record, or insert one. -/
def stageSliceReclamation (table : DelayedTable) (slice : SliceDesc) (retained : Bool) :
    DelayedTable :=
  let status := if retained then DelayedStatus.retained else DelayedStatus.pending
  match table.rows.find? (retainedFor slice) with
  | some previous =>
    let record : DelayedRow :=
      ⟨previous.id, slice.sliceId, slice.chunkId, slice.offset, max slice.length previous.size,
        status⟩
    { table with rows := table.rows.map fun row => if row.id = previous.id then record else row }
  | none =>
    let record : DelayedRow :=
      ⟨table.seq, slice.sliceId, slice.chunkId, slice.offset, slice.length, status⟩
    ⟨table.rows ++ [record], table.seq + 1⟩

/-- Apply a trim to each row in key order, staging what it drops or shortens. -/
def pruneRows (action : SliceDesc → TrimAction) :
    List SliceDesc → DelayedTable → List SliceDesc × DelayedTable
  | [], table => ([], table)
  | row :: rest, table =>
    match action row with
    | .keep =>
      let pruned := pruneRows action rest table
      (row :: pruned.1, pruned.2)
    | .drop => pruneRows action rest (stageSliceReclamation table row false)
    | .truncate newLen =>
      let pruned := pruneRows action rest (stageSliceReclamation table row true)
      ({ row with length := newLen } :: pruned.1, pruned.2)

def pruneTables (action : SliceDesc → TrimAction) (db : Tables) : Tables :=
  let pruned := pruneRows action db.sliceMeta db.delayed
  { db with sliceMeta := pruned.1, delayed := pruned.2 }

/-- The rewrite closure: trim the rows of the cutoff chunk. -/
def rewriteChunk (cutoffChunk cutoffOffset : Nat) (db : Tables) : Option Tables :=
  (rowChunkId ino cutoffChunk).map fun chunkId =>
    pruneTables (fun row =>
      if row.chunkId = chunkId then trimAction row.offset row.length cutoffOffset else .keep) db

/-- The delete closure: drop every row of a range of chunk ids. -/
def deleteChunks (start stop : Nat) (db : Tables) : Option Tables :=
  (rowChunkId ino start).bind fun startChunkId =>
    (rowChunkId ino stop).map fun endChunkId =>
      pruneTables (fun row =>
        if startChunkId ≤ row.chunkId ∧ row.chunkId < endChunkId then .drop else .keep) db

def pruneSlicesForTruncate (newSize oldSize chunkSize : Nat) : Option Tables :=
  applyTruncatePlan newSize oldSize chunkSize (rewriteChunk ino) (deleteChunks ino) db

def truncate (size chunkSize : Nat) : Option Tables :=
  (db.fileSize ino).bind fun current =>
    let oldSize := asU64 current
    let fileSize := Function.update db.fileSize ino (some (asI64 size))
    pruneSlicesForTruncate { db with fileSize := fileSize } ino size oldSize chunkSize

variable (chunkId : Nat) (newSlices : List SliceDesc)

/-- Delete the mappings a compaction replaces, staging a pending record for each. -/
def reclaimReplaced (delayedSlices : List (Nat × Nat × Nat)) : Tables :=
  let sliceIdsToDelete := delayedSlices.map fun record => record.1
  let kept := db.sliceMeta.filter fun row =>
    !(row.chunkId == chunkId && sliceIdsToDelete.contains row.sliceId)
  { db with
    sliceMeta := kept ++ newSlices.map fun slice => { slice with chunkId := chunkId }
    delayed := delayedSlices.foldl (fun table record =>
        stageSliceReclamation table ⟨record.1, chunkId, record.2.1, record.2.2⟩ false) db.delayed }

/-- `replace_slices_for_compact`: no version check. -/
def replaceSlicesForCompact (oldSlicesToDelay : List UInt8) : Option Tables :=
  (decodeDelayedData oldSlicesToDelay).map (reclaimReplaced db chunkId newSlices)

/-- The last row of a slice id, as a map of the rows keeps it. -/
def currentEntry (current : List SliceDesc) (sliceId : Nat) : Option SliceDesc :=
  current.reverse.find? fun row => row.sliceId == sliceId

/-- Count and each expected slice's id, offset and length agree with the rows. -/
def versionMatches (current expected : List SliceDesc) : Bool :=
  current.length == expected.length && expected.all fun slice =>
      match currentEntry current slice.sliceId with
      | some row => row.offset == slice.offset && row.length == slice.length
      | none => false

/-- Take a slice's pending reservation; anything but exactly one row is a conflict. -/
def consumeReservation (rows : List UncommittedRow) (sliceId chunkId : Nat) :
    Option (List UncommittedRow) :=
  let matching := fun row : UncommittedRow =>
    row.sliceId == sliceId && row.chunkId == chunkId && row.status == .pending
  if (rows.filter matching).length = 1 then some (rows.filter fun row => !matching row) else none

/-- `replace_slices_for_compact_with_version`; `none`: the conflict that asks for a retry. -/
def replaceSlicesForCompactWithVersion
    (oldSlicesToDelay : List UInt8) (expected : List SliceDesc) : Option Tables :=
  (decodeDelayedData oldSlicesToDelay).bind fun delayedSlices =>
    if versionMatches (getSlices db.sliceMeta chunkId) expected then
      (newSlices.foldlM (fun rows slice => consumeReservation rows slice.sliceId chunkId)
          db.uncommitted.rows).map fun rows =>
        reclaimReplaced { db with uncommitted := { db.uncommitted with rows := rows } } chunkId
          newSlices delayedSlices
    else none

def recordUncommittedSlice (sliceId chunkId size : Nat) : Tables := { db with
    uncommitted := ⟨db.uncommitted.rows ++ [⟨db.uncommitted.seq, sliceId, chunkId, size, .pending⟩],
        db.uncommitted.seq + 1⟩ }

/-- `delete_uncommitted_slices`; `confirm_slice_committed` deletes the records of one slice. -/
def deleteUncommittedSlices (sliceIds : List Nat) : Tables := { db with
    uncommitted := { db.uncommitted with
      rows := db.uncommitted.rows.filter fun row => !sliceIds.contains row.sliceId } }

def confirmSliceCommitted (sliceId : Nat) : Tables :=
  deleteUncommittedSlices db [sliceId]

/-- What a collector must delete: slice id, size, and the asking record. -/
structure ReadyDeletion where
  sliceId : Nat
  size : Nat
  delayedId : Nat
  deriving DecidableEq, Repr

/-- `process_delayed_slices`: the transaction over the rows selected before. -/
def processDelayedSlices : List DelayedRow → Tables → Tables × List ReadyDeletion
  | [], db => (db, [])
  | delayed :: rest, db =>
    match delayed.status with
    | .metaDeleted =>
      let processed := processDelayedSlices rest db
      (processed.1, ⟨delayed.sliceId, delayed.size, delayed.id⟩ :: processed.2)
    | .retained => processDelayedSlices rest db
    | .pending =>
      let db := { db with
        sliceMeta := db.sliceMeta.filter fun row => !(row.sliceId == delayed.sliceId) }
      -- the update fails when another collector has confirmed the record meanwhile
      if db.delayed.rows.any fun row => row.id == delayed.id then
        let rows := db.delayed.rows.map fun row =>
          if row.id = delayed.id then { row with status := .metaDeleted } else row
        let processed := processDelayedSlices rest { db with
          delayed := { db.delayed with rows := rows } }
        (processed.1, ⟨delayed.sliceId, delayed.size, delayed.id⟩ :: processed.2)
      else processDelayedSlices rest db

def confirmDelayedDeleted (delayedIds : List Nat) : Tables := { db with
    delayed := { db.delayed with
      rows := db.delayed.rows.filter fun row => !delayedIds.contains row.id } }

/-- `cleanup_orphan_uncommitted_slices` over the aged pending records: one whose slice is mapped is
deleted, the others become orphans and are returned. -/
def claimOrphans (sliceMeta : List SliceDesc) (aged : List Nat) :
    List UncommittedRow → List UncommittedRow × List (Nat × Nat)
  | [] => ([], [])
  | row :: rest =>
    let claimed := claimOrphans sliceMeta aged rest
    if row.status = .pending ∧ row.id ∈ aged then
      if sliceMeta.any fun slice => slice.sliceId == row.sliceId then claimed
      else ({ row with status := .orphan } :: claimed.1, (row.sliceId, row.size) :: claimed.2)
    else (row :: claimed.1, claimed.2)

def cleanupOrphanUncommittedSlices (aged orphaned : List Nat) : Tables × List (Nat × Nat) :=
  let orphans := db.uncommitted.rows.filter fun row =>
    row.status == .orphan && orphaned.contains row.id
  let claimed := claimOrphans db.sliceMeta aged db.uncommitted.rows
  ({ db with uncommitted := { db.uncommitted with rows := claimed.1 } },
    claimed.2 ++ orphans.map fun row => (row.sliceId, row.size))

end BrewFs.Meta.Database
