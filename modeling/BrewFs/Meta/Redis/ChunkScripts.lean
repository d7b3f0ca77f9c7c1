import BrewFs.Library.Versioned
import BrewFs.Meta.Database.Coalesced
import BrewFs.Meta.Redis.Store

/-! `meta/stores/redis/mod.rs`: the slice list of one chunk, its version key, and every client step
that writes them. A script and a `MULTI` are one step each; a plain pipeline is one step for each
of its commands. Numbers are exact: a version is while it is below 2^53, a size while it is below
10^14, as `cjson.encode` writes 14 digits; the times it rounds are in no result. -/

namespace BrewFs.Meta.Redis.Chunk

open BrewFs.Chunk BrewFs.Meta
open BrewFs.Meta.Database (DelayedStatus UncommittedStatus)
open BrewFs.Meta.Database.Coalesce (decodeId)
open Function (update)

local instance : LawfulBEq (Nat × List SliceDesc) := inferInstance

/-- The hash of a delayed slice. `HSET` on a missing hash creates it with that field. -/
structure DelayedHash where
  sid : Option Nat
  off : Option Nat
  sz : Option Nat
  st : Option DelayedStatus
  ca : Option Int
  cid : Option Nat
deriving DecidableEq, Repr

structure UncommittedHash where
  st : UncommittedStatus
  cid : Nat
  sz : Nat
deriving DecidableEq, Repr

/-- The hash `write_coalesce/{group}`: whether `n` exists, and `p` and `d` by slot. -/
structure GroupHash where
  registered : Bool
  published : Nat → Bool
  dead : Nat → Bool

/-- The keys beside the list and the version that the chunk's scripts read or write. -/
structure Records where
  /-- `{chunk_key}:physical_sizes` -/
  physicalSizes : Nat → Option Nat
  delayedCounter : Nat
  delayed : Nat → Option DelayedHash
  /-- The scores of `DELAYED_INDEX_KEY`. -/
  delayedIndex : Nat → Option Int
  uncommitted : Nat → Option UncommittedHash
  groups : Nat → GroupHash
  /-- The node of the file the chunk belongs to. -/
  node : Option StoredAttr

structure ChunkStore where
  slices : List SliceDesc
  /-- The version key; it does not exist before the first write. -/
  version : Option Nat
  records : Records

namespace ChunkStore

variable (s : ChunkStore)

/-- `get_chunk_version` -/
def getChunkVersion : Nat := s.version.getD 0

/-- `get_slices_with_version`, one `MULTI`. -/
def getSlicesWithVersion : Versioned.Cell (List SliceDesc) :=
  ⟨s.slices, s.getChunkVersion⟩

/-- `INCR` of the version key. -/
def incr : ChunkStore := { s with version := some (s.getChunkVersion + 1) }

/-- `RPUSH` and `INCR`. -/
def appendSlice (slice : SliceDesc) : ChunkStore :=
  ({ s with slices := s.slices ++ [slice] } : ChunkStore).incr

end ChunkStore

/-! ### `WRITE_SLICE_LUA` -/

inductive WriteReply where
  | done (updated : Bool)
  | corruptChunkVersion
  | coalescedReservationLost
  | nodeNotFound
  | corruptNode
  | coalescedWritePermissionDenied
deriving DecidableEq, Repr

/-- The largest integer whose successor a Lua number still holds. -/
def maxInteger : Nat := 9007199254740991

variable (chunkId : Nat) (s : ChunkStore) (slice : SliceDesc)

/-- The checks and bookkeeping of a coalesced publication; an error ends the script. The key types
are right, so `corrupt_coalesced_metadata` does not occur. -/
def publishCoalesced (group slot : Nat) (permitted : Bool) : Except WriteReply ChunkStore := do
  let ledger := s.records.groups group
  Guard.check (∀ version ∈ s.version, version < maxInteger) .corruptChunkVersion
  Guard.check (ledger.published slot = false) (.done false)
  Guard.check (s.records.uncommitted slice.sliceId = some ⟨.pending, chunkId, slice.length⟩ ∧
      ledger.registered = true ∧ ledger.dead slot = false)
    .coalescedReservationLost
  let node ← Guard.need s.records.node .nodeNotFound
  Guard.check (node.size ≤ maxInteger ∧ ∀ blocks ∈ node.blocks, blocks ≤ maxInteger) .corruptNode
  Guard.check (permitted = true) .coalescedWritePermissionDenied
  return { s with records := { s.records with
    groups := update s.records.groups group
      { ledger with published := update ledger.published slot true }
    uncommitted := update s.records.uncommitted slice.sliceId none } }

/-- `ceil(n / 512)` -/
def blocksOf (n : Nat) : Nat := (n + 511) / 512

/-- The node after a write, `none` when the script leaves it alone. -/
def extendNode (attr : StoredAttr) (newSize : Nat) (now : Int) (delta : Nat) : Option StoredAttr :=
  let full := blocksOf attr.size
  let current := attr.blocks.getD full
  if newSize ≤ attr.size ∧ (attr.blocks = none ∨ delta = 0 ∨ full ≤ current) then none
  else
    let size := max newSize attr.size
    let blocks :=
      if 0 < delta ∧ (attr.size < newSize ∨ current < full) then
        min (current + delta) (blocksOf size)
      else current
    if attr.size < newSize ∨ current < blocks then
      some { attr with
        size := size
        blocks := if current < blocks then some blocks else attr.blocks
        mtime := now
        ctime := now
        mode := attr.mode &&& ~~~6144 }
    else none

/-- What comes before the push: nothing for an ordinary slice. -/
def checkMember (mem : Option (Nat × Nat)) (permitted : Bool) : Except WriteReply ChunkStore :=
  match mem with
  | some (group, slot) => publishCoalesced chunkId s slice group slot permitted
  | none => .ok s

/-- `WRITE_SLICE_LUA`. The list grows before the node is looked at. -/
def writeSlice (newSize : Nat) (now : Int)
    (mem : Option (Nat × Nat)) (permitted : Bool) : WriteReply × ChunkStore :=
  match checkMember chunkId s slice mem permitted with
  | .error reply => (reply, s)
  | .ok s =>
    let s := s.appendSlice slice
    match s.records.node with
    | none => (.nodeNotFound, s)
    | some attr =>
      match extendNode attr newSize now (blocksOf slice.length) with
      | none => (.done false, s)
      | some attr => (.done true, { s with records := { s.records with node := some attr } })

inductive WriteFailure where
  | invalidCoalescedId
  | script (reply : WriteReply)
deriving DecidableEq, Repr

/-- What the caller makes of the reply. A node key holding `unreadable` is no node here: the script
tests the text right after the key. -/
def WriteReply.report (unreadable : Bool) : WriteReply → Except WriteFailure Unit
  | .done _ => .ok ()
  | .nodeNotFound => .error (.script (if unreadable then .corruptNode else .nodeNotFound))
  | reply => .error (.script reply)

def writeWithCoalescedReservation (unreadable : Bool) (slice : SliceDesc) (newSize : Nat)
    (now : Int) (coalesced permitted : Bool) : Except WriteFailure Unit × ChunkStore :=
  let run mem :=
    let (reply, s) := writeSlice chunkId s slice newSize now mem permitted
    (reply.report unreadable, s)
  if coalesced then
    match decodeId slice.sliceId with
    | none => (.error .invalidCoalescedId, s)
    | some mem => run (some mem)
  else run none

/-! ### `CHUNK_COMPACT_LUA` -/

/-- The arguments of the script. -/
structure Replacement where
  expected : Nat
  newVersion : Nat
  now : Int
  /-- Slice id, offset and size of every slice to delete later. -/
  delayed : List (Nat × Nat × Nat)
  newIds : List Nat
  requirePending : Bool
  /-- Slice id and former length of every slice that was cut. -/
  retained : List (Nat × Nat)
  final : List SliceDesc

inductive CompactReply where
  /-- 0: the version has moved. -/
  | moved
  /-- -1: a new slice has no pending reservation. -/
  | unreserved
  | delayedIdCollision
  /-- 1 -/
  | replaced
deriving DecidableEq, Repr

/-- The table `sizes`: for each slice the largest size known. -/
def resolveSizes (previous : Nat → Option Nat) (bounds : List (Nat × Nat)) : Nat → Nat :=
  bounds.foldl (fun sizes bound => update sizes bound.1
    (max bound.2 (max ((previous bound.1).getD 0) (sizes bound.1)))) fun _ => 0

def Records.reserved (records : Records) (chunkId sliceId : Nat) : Bool :=
  match records.uncommitted sliceId with
  | some hash => hash.st = .pending && hash.cid = chunkId
  | none => false

/-- The records after a replacement has gone through. -/
def Records.replaced (records : Records) (chunkId : Nat) (r : Replacement) : Records :=
  let sizes := resolveSizes records.physicalSizes
    (r.delayed.map (fun entry => (entry.1, entry.2.2)) ++ r.retained)
  let firstId := records.delayedCounter + 1
  let kept : Nat → Option Nat := r.retained.foldl
    (fun table bound => update table bound.1 (some (sizes bound.1))) records.physicalSizes
  { records with
    physicalSizes := r.delayed.foldl (fun table entry => update table entry.1 none) kept
    delayedCounter := records.delayedCounter + r.delayed.length
    delayed := r.delayed.zipIdx.foldl (fun table entry => update table (firstId + entry.2)
      (some ⟨some entry.1.1, some entry.1.2.1, some (sizes entry.1.1), some .pending, some r.now,
        some chunkId⟩)) records.delayed
    delayedIndex := r.delayed.zipIdx.foldl
      (fun table entry => update table (firstId + entry.2) (some r.now))
      records.delayedIndex
    uncommitted := r.newIds.foldl (fun table id => update table id none) records.uncommitted }

def chunkCompact (r : Replacement) : CompactReply × ChunkStore :=
  if s.getChunkVersion ≠ r.expected then (.moved, s)
  else if r.requirePending = true ∧ ¬ ∀ id ∈ r.newIds, s.records.reserved chunkId id = true then
    (.unreserved, s)
  else if ∃ i < r.delayed.length, (s.records.delayed (s.records.delayedCounter + 1 + i)).isSome then
    -- the ids are spent, nothing else has changed
    (.delayedIdCollision, { s with records := { s.records with
      delayedCounter := s.records.delayedCounter + r.delayed.length } })
  else
    (.replaced, {
      slices := r.final
      version := if 0 < r.newVersion then some r.newVersion else none
      records := s.records.replaced chunkId r })

/-! ### The callers of `CHUNK_COMPACT_LUA`

Each of them reads the version and then the list, computes the arguments from what it read and
invokes the script; on a moved version it starts again. One attempt is modelled, from the version
and the list it read. -/

/-- A version and a list, read in this order. -/
abbrev View := Nat × List SliceDesc

def trimSlicesInPlace (slices : List SliceDesc) (cutoffOffset : Nat) : List SliceDesc :=
  (slices.filter fun slice => slice.offset < cutoffOffset).map fun slice =>
    if cutoffOffset < addU64 slice.offset slice.length then
      { slice with length := cutoffOffset - slice.offset }
    else slice

/-- `rewrite_trimmed_slices` -/
def rewriteTrimmedSlices (view : View) (cutoffOffset : Nat) (now : Int) : Replacement where
  expected := view.1
  newVersion := view.1 + if view.2.isEmpty then 0 else 1
  now := now
  delayed := (view.2.filter fun slice => cutoffOffset ≤ slice.offset).map fun slice =>
    (slice.sliceId, slice.offset, slice.length)
  newIds := []
  requirePending := false
  retained := (view.2.filter fun slice => slice.offset < cutoffOffset &&
    cutoffOffset < saturatingAdd slice.offset slice.length).map fun slice =>
      (slice.sliceId, slice.length)
  final := trimSlicesInPlace view.2 cutoffOffset

variable (view : View) (newSlices : List SliceDesc) (delayed : List (Nat × Nat × Nat))

/-- `replace_slices_for_compact`: the list without the delayed slices, and the new ones. -/
def replaceSlicesForCompact (now : Int) : Replacement where
  expected := view.1
  newVersion := view.1 + 1
  now := now
  delayed := delayed
  newIds := newSlices.map (·.sliceId)
  requirePending := false
  retained := []
  final := (view.2.filter fun slice => !(delayed.map (·.1)).contains slice.sliceId) ++ newSlices

/-- The range that the current list's table has for a slice id: a later entry replaces an earlier
one. -/
def rangeIn (current : List SliceDesc) (sliceId : Nat) : Option (Nat × Nat) :=
  (current.reverse.find? fun slice => slice.sliceId = sliceId).map fun slice =>
    (slice.offset, slice.length)

/-- The comparison of `replace_slices_for_compact_with_version`. -/
def matchesExpected (current expected : List SliceDesc) : Bool :=
  current.length = expected.length &&
    expected.all fun slice => rangeIn current slice.sliceId = some (slice.offset, slice.length)

/-- The script call of `replace_slices_for_compact_with_version`. -/
def replaceAll
    (now : Int) : Replacement where
  expected := view.1
  newVersion := view.1 + 1
  now := now
  delayed := delayed
  newIds := newSlices.map (·.sliceId)
  requirePending := true
  retained := []
  final := newSlices

inductive HeavyReply where
  | invalidDelayedData
  /-- The list differs from the expected one. -/
  | compactConflict
  | script (reply : CompactReply)
deriving DecidableEq, Repr

/-- An attempt of `replace_slices_for_compact_with_version`. -/
def replaceSlicesForCompactWithVersion (view : View)
    (newSlices : List SliceDesc) (oldSlicesToDelay : List UInt8) (expected : List SliceDesc)
    (now : Int) : HeavyReply × ChunkStore :=
  match decodeDelayedData oldSlicesToDelay with
  | none => (.invalidDelayedData, s)
  | some delayed =>
    if matchesExpected view.2 expected then
      let result := chunkCompact chunkId s (replaceAll view newSlices delayed now)
      (.script result.1, result.2)
    else (.compactConflict, s)

/-! ### `process_delayed_slices` -/

/-- The read half of the collector for one record: the entry to remove, or an inner `none` when no
entry has the slice's id. -/
def findTarget (delayedId : Nat) : Option (Option SliceDesc) :=
  (s.records.delayed delayedId).bind fun hash =>
    hash.sid.bind fun sliceId =>
      if hash.st = some .pending ∧ hash.cid.getD 0 = chunkId then
        some (s.slices.find? fun slice => slice.sliceId = sliceId)
      else none

/-- The write half: `LREM`, `INCR` and `HSET` in one `MULTI`. -/
def deleteMeta (delayedId : Nat) (target : Option SliceDesc) : ChunkStore :=
  let removed := match target with
    | some entry => ({ s with slices := s.slices.filter (· ≠ entry) } : ChunkStore).incr
    | none => s
  let hash := (s.records.delayed delayedId).getD ⟨none, none, none, none, none, none⟩
  { removed with records := { removed.records with
    delayed := update removed.records.delayed delayedId
      (some { hash with st := some .metaDeleted }) } }

/-! ### The chunk with its clients -/

structure System where
  store : ChunkStore
  /-- Versions clients have read without a read of the list since. -/
  versions : List Nat
  /-- Snapshots that clients hold. -/
  views : List View
  /-- Entries that collectors have found. -/
  targets : List (Nat × Option SliceDesc)

/-- A client step on the chunk's keys. -/
inductive Mutation where
  | append (slice : SliceDesc)
  | write (slice : SliceDesc) (newSize : Nat) (now : Int) (coalesced permitted : Bool)
  | truncate (view : View) (cutoffOffset : Nat) (now : Int)
  | compactLight (view : View) (newSlices : List SliceDesc) (oldSlicesToDelay : List UInt8)
      (now : Int)
  | compactHeavy (view : View) (newSlices : List SliceDesc) (oldSlicesToDelay : List UInt8)
      (expected : List SliceDesc) (now : Int)
  | deleteMeta (delayedId : Nat) (target : Option SliceDesc)
  /-- Any other operation: it leaves the list and the version alone. -/
  | elsewhere (records : Records)

inductive Action where
  | mutate (mutation : Mutation)
  | getVersion
  | lrange (version : Nat)
  | findTarget (delayedId : Nat) (cutoff : Int)

/-- The store after a mutation; `none` when no client can make it. -/
def System.mutate (s : System) : Mutation → Option ChunkStore
  | .append slice => some (s.store.appendSlice slice)
  | .write slice newSize now coalesced permitted =>
    if coalesced then
      (decodeId slice.sliceId).map fun mem =>
        (writeSlice chunkId s.store slice newSize now (some mem) permitted).2
    else some (writeSlice chunkId s.store slice newSize now none permitted).2
  | .truncate view cutoffOffset now =>
    if view ∈ s.views then
      some (chunkCompact chunkId s.store (rewriteTrimmedSlices view cutoffOffset now)).2
    else none
  | .compactLight view newSlices oldSlicesToDelay now =>
    if view ∈ s.views then
      (decodeDelayedData oldSlicesToDelay).map fun delayed =>
        (chunkCompact chunkId s.store (replaceSlicesForCompact view newSlices delayed now)).2
    else none
  | .compactHeavy view newSlices oldSlicesToDelay expected now =>
    if view ∈ s.views then
      some (replaceSlicesForCompactWithVersion chunkId s.store view newSlices oldSlicesToDelay
        expected now).2
    else none
  | .deleteMeta delayedId target =>
    if (delayedId, target) ∈ s.targets then some (deleteMeta s.store delayedId target) else none
  | .elsewhere records => some { s.store with records := records }

def step (s : System) : Action → Option System
  | .mutate mutation => (s.mutate chunkId mutation).map fun store => { s with store := store }
  | .getVersion => some { s with versions := s.store.getChunkVersion :: s.versions }
  | .lrange version =>
    if version ∈ s.versions then some { s with views := (version, s.store.slices) :: s.views }
    else none
  | .findTarget delayedId cutoff =>
    if ∃ score ∈ s.store.records.delayedIndex delayedId, score ≤ cutoff then
      (findTarget chunkId s.store delayedId).map fun target =>
        { s with targets := (delayedId, target) :: s.targets }
    else none

/-- A chunk without writes, whatever the other keys hold. -/
def System.init (records : Records) : System := ⟨⟨[], none, records⟩, [], [], []⟩

end BrewFs.Meta.Redis.Chunk
