import BrewFs.Chunk.DataFetcher
import BrewFs.Library.Run
import BrewFs.Meta.Database.SliceTables

/- `chunk/compact/compactor.rs` and `chunk/compact/gc.rs` over the SQL store: any number of
clients, compactors and collectors share the tables and the block store. A transaction or one
block read, write or delete call is one step; a worker keeps its own stale copies between steps. -/
namespace BrewFs.Chunk.Compact

open BrewFs.Buffer BrewFs.Meta BrewFs.Meta.Database

variable (layout : ChunkLayout)

/-- End of the occupied part of a chunk; a slice past the chunk is invalid data. -/
def occupiedEnd (slices : List SliceDesc) : Option Nat :=
  slices.foldlM (fun occupied slice =>
    let stop := slice.offset + slice.length
    if stop < 2 ^ 64 ∧ stop ≤ layout.chunkSize then some (max occupied stop) else none) 0

/-- The block reads of `read_and_merge_slices`, in publication order. -/
def mergeReads (slices : List SliceDesc) : List BlockRead :=
  slices.flatMap fun slice =>
    blockReads slice.sliceId slice.offset (blockSpanIterSlice 0 slice.length layout)

/-- One iteration of `write_merged_data`: the block of `span` receives its part of `data`. -/
def writeSpan (store : BlockStore) (sliceId : Nat) (data : List UInt8) (written : Nat)
    (span : Span) : BlockStore :=
  let take := min span.len (data.length - written)
  writeFreshRange store (sliceId, asU32 span.index) span.offset ((data.drop written).take take)

def writeSpans (store : BlockStore) (sliceId : Nat) (data : List UInt8) : Nat → List Span →
    BlockStore
  | _, [] => store
  | written, span :: rest =>
    writeSpans (writeSpan store sliceId data written span) sliceId data
      (written + min span.len (data.length - written)) rest

/-- Upload of a whole slice, block by block from its first byte. -/
def uploadSlice (store : BlockStore) (sliceId : Nat) (data : List UInt8) : BlockStore :=
  writeSpans store sliceId data 0 (blockSpanIterChunk 0 data.length layout)

/-- `size.div_ceil(block_size)`. -/
def blockCount (size : Nat) : Nat :=
  (size + layout.blockSize - 1) / layout.blockSize

/-- How a block deletion ends: completely, or with an error after some blocks. -/
inductive Outcome where
  | deleted
  | failed (removed : List Nat)

/-- `delete_range` from block 0 over the extent of a slice. -/
def deleteExtent (store : BlockStore) (sliceId size : Nat) : Outcome → BlockStore
  | .deleted => deleteRange store (sliceId, 0) (blockCount layout size)
  | .failed removed => fun key =>
    if key.1 = sliceId ∧ key.2 ∈ removed ∧ key.2 < asU32 (blockCount layout size) then none
    else store key

inductive Compaction where
  | idle
  | planned (chunkId : Nat) (slices : List SliceDesc)
  | merging (chunkId : Nat) (slices : List SliceDesc) (todo : List BlockRead) (merged : List UInt8)
  | uploading (chunkId : Nat) (slices : List SliceDesc) (newId : Nat) (data : List UInt8)
      (todo : List Span) (written : Nat)
  | published (newId : Nat)
  | conflicted (newId size : Nat)

inductive Collection where
  | idle
  | selected (rows : List DelayedRow)
  | deleting (ready : List ReadyDeletion) (confirmed : List Nat)
  | scanning
  | deletingOrphans (orphans : List (Nat × Nat)) (cleaned : List Nat)

structure State where
  db : Tables
  store : BlockStore
  /-- Slice ids the allocator has handed out. -/
  taken : List Nat
  /-- Every mapping row ever inserted, at its original length; no step reads it. -/
  history : List SliceDesc
  compactors : Nat → Compaction
  collectors : Nat → Collection

def State.init : State := ⟨Tables.empty, fun _ => none, [], [], fun _ => .idle, fun _ => .idle⟩

/-- Client operations. A new slice has a fresh id and fits in its chunk, as the writer checks. -/
inductive ClientAction where
  | create (ino : Int)
  | append (chunkId sliceId offset : Nat) (data : List UInt8)
  | write (ino : Int) (chunkId sliceId offset : Nat) (data : List UInt8) (newSize : Nat)
  | truncate (ino : Int) (size chunkSize : Nat)
  | extend (ino : Int) (size : Nat)

variable (s : State)

/-- The allocator hands out an id once, and a slice stays inside its chunk. -/
def Fresh (sliceId offset : Nat) (data : List UInt8) : Prop :=
  sliceId ∉ s.taken ∧ sliceId < 2 ^ 64 ∧ offset + data.length ≤ layout.chunkSize

instance (sliceId offset : Nat) (data : List UInt8) :
    Decidable (Fresh layout s sliceId offset data) :=
  inferInstanceAs (Decidable (_ ∧ _))

/-- A failed transaction leaves the tables as they were. -/
def State.commit (result : Option Tables) : State := { s with db := result.getD s.db }

def clientStep : ClientAction → Option State
  | .create ino =>
    if (s.db.fileSize ino).isSome then some s
    else some { s with
      db := { s.db with fileSize := Function.update s.db.fileSize ino (some 0) } }
  | .append chunkId sliceId offset data =>
    if Fresh layout s sliceId offset data then
      let slice : SliceDesc := ⟨sliceId, chunkId, offset, data.length⟩
      some { s with
        db := appendSlice s.db chunkId slice
        store := uploadSlice layout s.store sliceId data
        taken := sliceId :: s.taken
        history := slice :: s.history }
    else none
  | .write ino chunkId sliceId offset data newSize =>
    if Fresh layout s sliceId offset data then
      let slice : SliceDesc := ⟨sliceId, chunkId, offset, data.length⟩
      let uploaded := { s with
        store := uploadSlice layout s.store sliceId data
        taken := sliceId :: s.taken }
      match write s.db ino chunkId slice newSize with
      | none => some uploaded
      | some db => some { uploaded with db := db, history := slice :: s.history }
    else none
  | .truncate ino size chunkSize => some (s.commit (truncate s.db ino size chunkSize))
  | .extend ino size => some (s.commit (extendFileSize s.db ino size))

inductive CompactorAction where
  | snapshot (chunkId : Nat)
  | light
  | heavy
  | readBlock
  | reserve (newId : Nat)
  | writeBlock
  | publish
  | confirm
  | cleanup (outcome : Outcome)
  | crash

def State.setCompactor (worker : Nat) (job : Compaction) : State :=
  { s with compactors := Function.update s.compactors worker job }

/-- `compact_light_inner` on a snapshot: the ids it replaces. -/
def lightReplaced (slices : List SliceDesc) : List Nat :=
  if slices.length ≤ 1 then [] else findReplacedIds slices (removeFullyCovered slices)

def compactorStep (worker : Nat) : CompactorAction → Option State
  | .snapshot chunkId =>
    some (s.setCompactor worker (.planned chunkId (getSlices s.db.sliceMeta chunkId)))
  | .light =>
    match s.compactors worker with
    | .planned chunkId slices =>
      let replacedIds := lightReplaced slices
      if replacedIds = [] then some s
      else
        let delayed := encodeDelayedData slices replacedIds
        some ((s.commit (replaceSlicesForCompact s.db chunkId [] delayed)).setCompactor worker
          .idle)
    | _ => none
  | .heavy =>
    match s.compactors worker with
    | .planned chunkId slices =>
      match occupiedEnd layout slices with
      | none => some (s.setCompactor worker .idle)
      | some mergedLen =>
        some (s.setCompactor worker
          (.merging chunkId slices (mergeReads layout slices) (List.replicate mergedLen 0)))
    | _ => none
  | .readBlock =>
    match s.compactors worker with
    | .merging chunkId slices (read :: todo) merged =>
      match read.complete s.store merged with
      | none => some (s.setCompactor worker .idle)
      | some merged => some (s.setCompactor worker (.merging chunkId slices todo merged))
    | _ => none
  | .reserve newId =>
    match s.compactors worker with
    | .merging chunkId slices [] merged =>
      if newId ∉ s.taken ∧ newId < 2 ^ 64 then
        let reserved := { s with
          db := recordUncommittedSlice s.db newId chunkId merged.length
          taken := newId :: s.taken }
        some (reserved.setCompactor worker
          (.uploading chunkId slices newId merged (blockSpanIterChunk 0 merged.length layout) 0))
      else none
    | _ => none
  | .writeBlock =>
    match s.compactors worker with
    | .uploading chunkId slices newId data (span :: todo) written =>
      let uploaded := { s with store := writeSpan s.store newId data written span }
      some (uploaded.setCompactor worker (.uploading chunkId slices newId data todo
          (written + min span.len (data.length - written))))
    | _ => none
  | .publish =>
    match s.compactors worker with
    | .uploading chunkId slices newId data [] _ =>
      let newSlice : SliceDesc := ⟨newId, chunkId, 0, data.length⟩
      let allIds := slices.map (·.sliceId)
      let delayed := encodeDelayedData slices allIds
      match replaceSlicesForCompactWithVersion s.db chunkId [newSlice] delayed slices with
      | some db =>
        some ({ s with db := db, history := newSlice :: s.history }.setCompactor worker
          (.published newId))
      | none => some (s.setCompactor worker (.conflicted newId data.length))
    | _ => none
  | .confirm =>
    match s.compactors worker with
    | .published newId =>
      some ({ s with db := confirmSliceCommitted s.db newId }.setCompactor worker .idle)
    | _ => none
  | .cleanup outcome =>
    match s.compactors worker with
    | .conflicted newId size =>
      some ({ s with store := deleteExtent layout s.store newId size outcome }.setCompactor worker
        .idle)
    | _ => none
  | .crash => some (s.setCompactor worker .idle)

inductive CollectorAction where
  | select (ids : List Nat)
  | process
  | deleteBlocks (outcome : Outcome)
  | confirm (reached : Bool)
  | claim (aged orphaned : List Nat)
  | deleteOrphan (outcome : Outcome)
  | forget (reached : Bool)
  | crash

def State.setCollector (worker : Nat) (job : Collection) : State :=
  { s with collectors := Function.update s.collectors worker job }

/-- Records old enough and within the batch are the chosen ids; retained ones never qualify. -/
def selectDelayed (table : DelayedTable) (ids : List Nat) : List DelayedRow :=
  table.rows.filter fun row =>
    (row.status == .pending || row.status == .metaDeleted) && ids.contains row.id

def collectorStep (worker : Nat) : CollectorAction → Option State
  | .select ids =>
    match s.collectors worker with
    | .idle => some (s.setCollector worker (.selected (selectDelayed s.db.delayed ids)))
    | _ => none
  | .process =>
    match s.collectors worker with
    | .selected rows =>
      let processed := processDelayedSlices rows s.db
      some ({ s with db := processed.1 }.setCollector worker (.deleting processed.2 []))
    | _ => none
  | .deleteBlocks outcome =>
    match s.collectors worker with
    | .deleting (item :: ready) confirmed =>
      let deleted := { s with store := deleteExtent layout s.store item.sliceId item.size outcome }
      match outcome with
      | .deleted =>
        some (deleted.setCollector worker (.deleting ready (confirmed ++ [item.delayedId])))
      | .failed _ => some (deleted.setCollector worker (.deleting ready confirmed))
    | _ => none
  | .confirm reached =>
    match s.collectors worker with
    | .deleting [] confirmed =>
      let db := if reached then confirmDelayedDeleted s.db confirmed else s.db
      some ({ s with db := db }.setCollector worker .scanning)
    | _ => none
  | .claim aged orphaned =>
    match s.collectors worker with
    | .scanning =>
      let claimed := cleanupOrphanUncommittedSlices s.db aged orphaned
      some ({ s with db := claimed.1 }.setCollector worker (.deletingOrphans claimed.2 []))
    | _ => none
  | .deleteOrphan outcome =>
    match s.collectors worker with
    | .deletingOrphans ((sliceId, size) :: orphans) cleaned =>
      let deleted := { s with store := deleteExtent layout s.store sliceId size outcome }
      match outcome with
      | .deleted =>
        some (deleted.setCollector worker (.deletingOrphans orphans (cleaned ++ [sliceId])))
      | .failed _ => some (deleted.setCollector worker (.deletingOrphans orphans cleaned))
    | _ => none
  | .forget reached =>
    match s.collectors worker with
    | .deletingOrphans [] cleaned =>
      let db := if reached then deleteUncommittedSlices s.db cleaned else s.db
      some ({ s with db := db }.setCollector worker .idle)
    | _ => none
  | .crash => some (s.setCollector worker .idle)

inductive Action where
  | client (action : ClientAction)
  | compactor (worker : Nat) (action : CompactorAction)
  | collector (worker : Nat) (action : CollectorAction)

def Action.isClient : Action → Bool
  | .client _ => true
  | _ => false

def step : Action → Option State
  | .client action => clientStep layout s action
  | .compactor worker action => compactorStep layout s worker action
  | .collector worker action => collectorStep layout s worker action

end BrewFs.Chunk.Compact
