import BrewFs.Chunk.Slice
import BrewFs.Vfs.Cache.Page

/-! `vfs/io/writer.rs`: a dirty slice and what happens to it under its lock. Counters are natural
numbers; wake-ups, usage accounting and statistics are left out. -/

namespace BrewFs.Vfs

open BrewFs.Chunk (SliceDesc)

inductive SliceStatus where
  | writable
  | readonly
  | uploaded
  | failed
  | committed
deriving DecidableEq, Repr

structure SliceState where
  state : SliceStatus
  chunkId : Nat
  sliceId : Option Nat
  /-- Offset relative to the chunk start. -/
  offset : Nat
  /-- All blocks below this byte have been uploaded. -/
  uploaded : Nat
  /-- The blocks below it have been handed out for upload. -/
  dispatchedEnd : Nat
  /-- A bit for each uploaded block, the first 64 only. -/
  blockDone : Nat
  inFlight : Nat
  uploadTaskActive : Bool
  data : CacheSlice
  err : Option String
  frozenEpoch : Nat
  metaWriteStarted : Bool
  creationUnique : Nat
  writeOrder : Nat
  maxWriteUnique : Nat

/-- What `prepare_upload` hands to an upload task. -/
structure UploadPlan where
  chunkId : Nat
  data : List (Nat × List UInt8)
  sliceId : Option Nat
  uploaded : Nat

namespace SliceState

def new (chunkId offset creationUnique : Nat) : SliceState where
  state := .writable
  chunkId := chunkId
  sliceId := none
  offset := offset
  uploaded := 0
  dispatchedEnd := 0
  blockDone := 0
  inFlight := 0
  uploadTaskActive := false
  data := .empty
  err := none
  frozenEpoch := 0
  metaWriteStarted := false
  creationUnique := creationUnique
  writeOrder := creationUnique
  maxWriteUnique := creationUnique

variable (cfg : WriteConfig)

/-! ### Writing -/

variable (s : SliceState)

/-- The slice's first byte not handed out yet. -/
def pendingStart : Nat := max (s.dispatchedEnd * cfg.blockSize) s.uploaded

def canWrite (offset len : Nat) (allowGapFrom : Option Nat) : Option WriteAction :=
  if s.state ≠ .writable ∨ offset < s.offset then none
  else if offset - s.offset < s.pendingStart cfg then none
  else s.data.canWriteWithGap cfg (offset - s.offset) len
    (allowGapFrom.any fun safeFrom => safeFrom ≤ s.offset + s.data.len)

/-- `try_write`: false when the slice refuses the write, `none` on an error. -/
def tryWrite (offset : Nat) (buf : List UInt8) (allowGapFrom : Option Nat) :
    Option (Bool × SliceState) :=
  match s.canWrite cfg offset buf.length allowGapFrom with
  | none => some (false, s)
  | some action => (s.data.write cfg (offset - s.offset) buf action).map fun data =>
    (true, { s with data := data })

def writeRangeHasWrittenOverlap (offset len : Nat) : Bool :=
  let overlapStart := max offset s.offset
  let overlapEnd := min (offset + len) (s.offset + s.data.len)
  if overlapStart < overlapEnd then
    s.data.hasWrittenOverlap (overlapStart - s.offset) (overlapEnd - overlapStart)
  else false

/-! ### Uploading -/

def uploadReadyLen : Nat :=
  if s.state = .writable then s.data.contiguousWrittenLen else s.data.len

/-- The states in which the last, partial block is uploaded too. -/
def uploadsTail : Bool :=
  s.state = .readonly || s.state = .failed || s.state = .committed

def hasIdleBlock : Bool :=
  let remaining := s.uploadReadyLen - s.pendingStart cfg
  if s.uploadsTail then 0 < remaining else cfg.blockSize ≤ remaining

def idxNeedUpload : Nat × Nat := (s.dispatchedEnd,
    if s.uploadsTail then (s.uploadReadyLen + cfg.blockSize - 1) / cfg.blockSize
    else s.uploadReadyLen / cfg.blockSize)

def uploadComplete : Bool := s.inFlight = 0 && !s.hasIdleBlock cfg

def canOverlayRead : Bool :=
  if s.state = .committed then !s.uploadComplete cfg else true

/-- `prepare_upload`. The pages are frozen before their collection, which cannot fail. -/
def prepareUpload : Option (UploadPlan × SliceState) :=
  if s.state = .failed ∨ s.hasIdleBlock cfg = false then none
  else
    let (start, stop) := s.idxNeedUpload cfg
    if stop ≤ start then none
    else
      let data := s.data.freezeBlocks cfg start stop
      some (⟨s.chunkId, data.collectPages cfg start stop, s.sliceId, start * cfg.blockSize⟩,
        { s with data := data, dispatchedEnd := stop, inFlight := s.inFlight + 1 })

/-- The block range an upload task reads off its plan. -/
def planRange (plan : UploadPlan) : Nat × Nat :=
  plan.data.foldl (fun range entry => (min range.1 entry.1, max range.2 (entry.1 + 1)))
    (2 ^ 64 - 1, 0)

/-- Set the bits of `[start, stop)`, the first 64 blocks only. -/
def markBlocks (done start stop : Nat) : Nat := (List.range' start (stop - start)).foldl
    (fun done idx => if idx < 64 then done ||| 1 <<< idx else done) done

/-- The first block from `current` on not done; `fuel` bounds the loop. -/
def doneUpTo (done : Nat) : Nat → Nat → Nat
  | 0, current => current
  | fuel + 1, current =>
    if current < 64 ∧ done.testBit current = true then doneUpTo done fuel (current + 1) else current

/-- The counters after a batch has been uploaded. -/
def recordRange (start stop : Nat) : SliceState :=
  let done := markBlocks s.blockDone start stop
  let current := doneUpTo done 64 (s.uploaded / cfg.blockSize)
  { s with
    blockDone := done
    inFlight := s.inFlight - 1
    uploaded := max s.uploaded (current * cfg.blockSize) }

/-- A sealed slice with nothing in flight and nothing to hand out counts as uploaded. -/
def settleUpload : SliceState :=
  if (s.state = .readonly ∨ s.state = .failed) ∧ s.inFlight = 0 ∧ s.hasIdleBlock cfg = false then
    { s with state := .uploaded, err := none }
  else s

/-- `clear_recent_pending_if_complete`: a committed slice needs its pages until its upload is
complete. -/
def releaseIfComplete : SliceState :=
  if s.state = .committed ∧ s.uploadComplete cfg = true then
    { s with data := s.data.releaseAll }
  else s

/-- `advance_upload_range`: a batch has been uploaded. -/
def advanceUploadRange (start stop : Nat) : SliceState :=
  ((s.recordRange cfg start stop).settleUpload cfg).releaseIfComplete cfg

/-! ### Status changes -/

/-- `freeze`: whether the slice was frozen, and the slice. -/
def freeze (dataEpoch : Nat) : Bool × SliceState :=
  if s.state ≠ .writable then (false, s)
  else if s.data.len = 0 then (false, { s with state := .committed, err := none })
  else
    let frozen := { s with state := .readonly, frozenEpoch := dataEpoch, data := s.data.freeze }
    (true, frozen.settleUpload cfg)

def markFailed (message : String) : SliceState :=
  { s with state := .failed, inFlight := 0, uploadTaskActive := false, err := some message }

def markCommitted : SliceState := { s with state := .committed }

def setSliceId (id : Nat) : SliceState :=
  if s.sliceId = none then { s with sliceId := some id } else s

def descForCommit : Option SliceDesc := s.sliceId.bind fun id =>
    if s.data.len = 0 then none else some ⟨id, s.chunkId, s.offset, s.data.len⟩

/-- `split_uploaded_prefix_tail` for a chunk's front slice: the uploaded prefix, and a new writable
slice with the rest. -/
def splitUploadedPrefixTail : Option (SliceState × SliceState) :=
  if s.state ≠ .writable ∨ s.inFlight ≠ 0 ∨ s.metaWriteStarted = true ∨ s.sliceId = none then none
  else if s.uploaded = 0 ∨ s.data.len ≤ s.uploaded ∨
      s.uploaded ≠ s.dispatchedEnd * cfg.blockSize ∨ s.uploaded % cfg.blockSize ≠ 0 then none
  else if cfg.blockSize ≤ s.data.len - s.uploaded then none
  else
    let tail := { SliceState.new s.chunkId (s.offset + s.uploaded) s.creationUnique with
      writeOrder := s.writeOrder
      maxWriteUnique := s.maxWriteUnique }
    let rest := s.data.copyInto cfg s.uploaded (s.data.len - s.uploaded)
    (tail.data.append cfg rest).bind fun tailData =>
      (s.data.truncate cfg s.uploaded).map fun data =>
        ({ s with state := .uploaded, data := data }, { tail with data := tailData })

variable {cfg}

theorem canWrite_new (cfg : WriteConfig) (chunkId offset creationUnique writeOrder len : Nat)
    (allowGapFrom : Option Nat) :
    canWrite cfg { SliceState.new chunkId offset creationUnique with
      writeOrder := writeOrder } offset len allowGapFrom = some .append := by
  simp [canWrite, new, pendingStart, CacheSlice.canWriteWithGap,
    CacheSlice.canAppend, CacheSlice.empty]

theorem splitUploadedPrefixTail_spec {s : SliceState} {parts : SliceState × SliceState}
    (done : s.splitUploadedPrefixTail cfg = some parts) :
    (s.state = .writable ∧ s.inFlight = 0 ∧ s.metaWriteStarted = false ∧ s.sliceId ≠ none) ∧
    (0 < s.uploaded ∧ s.uploaded < s.data.len ∧ s.uploaded = s.dispatchedEnd * cfg.blockSize) ∧
    ∃ data tailData, s.data.truncate cfg s.uploaded = some data ∧ CacheSlice.empty.append cfg
        (s.data.copyInto cfg s.uploaded (s.data.len - s.uploaded)) = some tailData ∧
      parts = ({ s with state := .uploaded, data := data },
        { SliceState.new s.chunkId (s.offset + s.uploaded) s.creationUnique with
          writeOrder := s.writeOrder
          maxWriteUnique := s.maxWriteUnique
          data := tailData }) := by
  unfold splitUploadedPrefixTail at done
  split at done
  · cases done
  rename_i able
  simp only [not_or, not_not, Bool.not_eq_true] at able
  split at done
  · cases done
  rename_i bounds
  simp only [not_or, not_not] at bounds
  split at done
  · cases done
  simp only [Option.bind_eq_some_iff, Option.map_eq_some_iff] at done
  obtain ⟨tailData, appended, data, truncated, rfl⟩ := done
  exact ⟨able, ⟨by omega, by omega, bounds.2.2.1⟩, data, tailData, truncated, appended, rfl⟩

end SliceState

end BrewFs.Vfs
