import BrewFs.Chunk.CacheIntegrity
import BrewFs.Library.Keys
import BrewFs.Library.Run

/-! `ChunksCache` and `DiskStorage` of `chunk/cache.rs`: two memory tiers, the index of files and
the files themselves. Operations run step by step, a step being what happens between two awaits
that another operation can see. The gate of a shard is held across steps by removals only: every
other section under it publishes at one point. -/

namespace BrewFs.Chunk.ChunksCache

open CacheIntegrity
open Function (update)

abbrev CacheKey := String

/-- The tiers have the directory's keys, so a key stands for its file name. -/
structure Config where
  crc32c : List UInt8 → UInt32
  integrityMode : CacheIntegrityMode
  maxDiskBytes : Nat
  maxWriteHotBytes : Nat
  /-- `key_shard_index` -/
  shard : CacheKey → Nat

/-- Bytes, and the operation that brought them. -/
structure Entry where
  bytes : List UInt8
  origin : Nat
deriving DecidableEq, Repr

/-- What `finish_store` writes: the header, the data and the checksums. -/
def storedFile (cfg : Config) (data : List UInt8) : List UInt8 :=
  match cfg.integrityMode with
  | .full => encode cfg.crc32c data
  | .none => data

/-- What an operation does after `insert_hot_at_generation`. -/
inductive AfterHot where
  | finish
  | store
  | persist
deriving DecidableEq, Repr

/-- Where `remove` stands: waiting for the gate, or about to clear this tier. -/
inductive RemoveStage where
  | gate
  | writeHot
  | hot
  | cold
  | file
deriving DecidableEq, Repr

/-- What an operation does next. -/
inductive Work where
  | insertHot (entry : Entry) (next : AfterHot)
  | insertWriteHot (entry : Entry) (persist : Bool)
  | persist (entry : Entry) (spawned : Bool)
  | store (entry : Entry)
  | evict (entry : Entry)
  | evicting (entry : Entry) (toFree freed : Nat) (files : List CacheKey)
  | write (entry : Entry)
  | publish (entry : Entry)
  | marker (origin : Nat)
  | lookup (range : Option (Nat × Nat))
  | promote (origin : Nat)
  | discard (commit : Option Nat)
  | commit (origin : Nat) (promote : Option Entry)
  | remove (stage : RemoveStage)
deriving DecidableEq, Repr

/-- A running operation, with its shard's generation at its beginning. -/
structure Pending where
  key : CacheKey
  generation : Nat
  work : Work
deriving DecidableEq, Repr

structure State where
  /-- The generation of each shard; the source's `u64` is taken never to wrap. -/
  generation : Nat → Nat
  /-- The removal that holds the gate of a shard. -/
  gate : Nat → Option Nat
  files : AList fun _ : CacheKey => Entry
  bytesUsed : Nat
  hot : CacheKey → Option Entry
  writeHot : CacheKey → Option Entry
  /-- The markers, each with the operation that brought the file. -/
  cold : CacheKey → Option Nat
  pending : AList fun _ : Nat => Pending
  nextId : Nat

/-- The calls. `storeToDisk` also serves a permit that was taken earlier. -/
inductive Request where
  | insert (data : List UInt8)
  | insertHot (data : List UInt8)
  | insertRecentWriteHot (data : List UInt8)
  | insertOpportunistic (data : List UInt8)
  | insertRecentWriteOpportunistic (data : List UInt8)
  | storeToDisk (data : List UInt8)
  | get
  | getRangeInto (offset len : Nat)
  | remove
deriving DecidableEq, Repr

/-- What the rest of the system decides in a step: whether the disk's health, the permits and the
sets of running stores let it go on; whether the file operation and `metadata` succeed; whether a
hit is promoted; the directory by age. -/
structure Choice where
  proceed : Bool := true
  io : Bool := true
  stat : Bool := true
  promote : Bool := true
  listing : List CacheKey := []
deriving DecidableEq, Repr

inductive Event where
  | begin (key : CacheKey) (request : Request)
  | step (id : Nat) (choice : Choice)
  | cancel (id : Nat)
  | damage (key : CacheKey) (bytes : List UInt8)
  | evictHot (key : CacheKey)
  | evictWriteHot (key : CacheKey)
  | evictCold (key : CacheKey)
deriving DecidableEq, Repr

def u64Max : Nat := 2 ^ 64 - 1

namespace State

variable (s : State)

def saturatingFetchAddBytes (value : Nat) : State :=
  { s with bytesUsed := min (s.bytesUsed + value) u64Max }

def saturatingFetchSubBytes (value : Nat) : State := { s with bytesUsed := s.bytesUsed - value }

variable (key : CacheKey)

def setHot (entry : Option Entry) : State :=
  { s with hot := update s.hot key entry }

def setWriteHot (entry : Option Entry) : State :=
  { s with writeHot := update s.writeHot key entry }

def setCold (origin : Option Nat) : State :=
  { s with cold := update s.cold key origin }

def putFile (entry : Entry) : State := { s with files := s.files.insert key entry }

def removeFile : State := { s with files := s.files.erase key }

/-- The operation goes on with other work. -/
def goOn (id : Nat) (p : Pending) (work : Work) : State :=
  { s with pending := s.pending.insert id { p with work := work } }

/-- The operation ends and drops the gate it holds. -/
def finish (id : Nat) : State := { s with
    pending := s.pending.erase id
    gate := fun shard => if s.gate shard = some id then none else s.gate shard }

/-- `remove` takes the gate and advances the generation. -/
def lock (id shard : Nat) : State := { s with
    gate := update s.gate shard (some id)
    generation := update s.generation shard (s.generation shard + 1) }

/-- The size `metadata` gives for a file, nothing when it is absent. -/
def fileSize : Nat :=
  Keys.weigh (fun entry : Entry => entry.bytes.length) s.files key

end State

section Steps

variable (cfg : Config) (s : State) (id : Nat) (p : Pending)

/-- The gate of the key is free. -/
def unlocked (key : CacheKey) : Bool := (s.gate (cfg.shard key)).isNone

/-- A section under the key's gate; it waits while the gate is held. -/
def locked (key : CacheKey) (next : State) : Option State :=
  if unlocked cfg s key then some next else none

/-- The check of the generation under the gate. -/
def current : Bool := s.generation (cfg.shard p.key) = p.generation

/-! ### Memory tiers -/

variable (entry : Entry)

def insertHotAtGeneration : State × Bool :=
  if current cfg s p then (s.setHot p.key (some entry), true) else (s, false)

def afterHot (inserted : State × Bool) : AfterHot → State
  | .finish => inserted.1.finish id
  | .store =>
    if cfg.maxDiskBytes = 0 then inserted.1.finish id
    else inserted.1.goOn id p (.store entry)
  | .persist =>
    if inserted.2 then inserted.1.goOn id p (.persist entry false) else inserted.1.finish id

/-- `RecentWriteHotCache::insert`; `Event.evictWriteHot` keeps the tier's budget. -/
def recentWriteEntry : Option Entry :=
  if cfg.maxWriteHotBytes = 0 ∨ cfg.maxWriteHotBytes < entry.bytes.length then none
  else some entry

def insertRecentWrite (persist : Bool) : State :=
  if current cfg s p then
    let inserted := s.setWriteHot p.key (recentWriteEntry cfg entry)
    if persist then inserted.goOn id p (.persist entry false) else inserted.finish id
  else s.finish id

/-- A marker without its file is dropped. -/
def coldMarkerHasFile (key : CacheKey) (choice : Choice) : Option (State × Bool) :=
  if (s.cold key).isNone then some (s, false)
  else if unlocked cfg s key then
    if choice.stat then
      match s.files.lookup key with
      | some _ => some (s, true)
      | none => some (s.setCold key none, false)
    else some (s, false)
  else none

/-- `persist_opportunistic`, before and in the task it spawns. -/
def persistOpportunistic (spawned : Bool) (choice : Choice) : Option State :=
  if cfg.maxDiskBytes = 0 then some (s.finish id)
  else
    (coldMarkerHasFile cfg s p.key choice).map fun checked =>
      if checked.2 ∨ ¬ choice.proceed then checked.1.finish id
      else checked.1.goOn id p (if spawned then .store entry else .persist entry true)

/-! ### Stores -/

/-- `total_len` of `finish_store`. -/
def totalLen : Nat := (storedFile cfg entry.bytes).length

variable (choice : Choice)

/-- A store that goes on reserves its bytes. -/
def reserve : State :=
  if choice.proceed then
    let total := totalLen cfg entry
    if 0 < cfg.maxDiskBytes ∧ cfg.maxDiskBytes - total < s.bytesUsed then
      (s.saturatingFetchAddBytes total).goOn id p (.evict entry)
    else (s.saturatingFetchAddBytes total).goOn id p (.write entry)
  else s.finish id

/-- `evict_lru` up to its loop. -/
def evictLru : State :=
  let target := cfg.maxDiskBytes - totalLen cfg entry
  if s.bytesUsed ≤ target ∨ ¬ choice.io then s.goOn id p (.write entry)
  else s.goOn id p (.evicting entry (s.bytesUsed - target) 0 choice.listing)

/-- One file of the loop of `evict_lru`. -/
def evictNext (s : State) (id : Nat) (p : Pending) (entry : Entry) (toFree freed : Nat)
    (choice : Choice) : List CacheKey → Option State
  | [] => some (s.goOn id p (.write entry))
  | key :: rest =>
    if toFree ≤ freed then some (s.goOn id p (.write entry))
    else
      locked cfg s key (if (s.files.lookup key).isSome ∧ choice.stat ∧ choice.io then
          ((s.removeFile key).saturatingFetchSubBytes (s.fileSize key)).goOn id p
            (.evicting entry toFree (min (freed + s.fileSize key) u64Max) rest)
        else s.goOn id p (.evicting entry toFree freed rest))

/-- The private file is written; a failure gives the reservation back. -/
def writeTemp : State :=
  if choice.io then s.goOn id p (.publish entry)
  else (s.saturatingFetchSubBytes (totalLen cfg entry)).finish id

/-- The section of `finish_store` under the gate. -/
def publish : State :=
  if current cfg s p ∧ choice.io then
    let oldSize := if choice.stat then s.fileSize p.key else 0
    ((s.putFile p.key { entry with bytes := storedFile cfg entry.bytes }).saturatingFetchSubBytes
      oldSize).goOn id p (.marker entry.origin)
  else (s.saturatingFetchSubBytes (totalLen cfg entry)).finish id

variable (origin : Nat)

def insertColdMarkerIfCurrent : State :=
  if current cfg s p then (s.setCold p.key (some origin)).finish id else s.finish id

/-! ### Hits on the disk -/

/-- After a load: a damaged file is deleted, an empty one is a miss. -/
def afterLoad (promote : Bool) (loaded : Option (List UInt8))
    (damaged miss : Option Work) : Option Work :=
  match loaded with
  | none => damaged
  | some value =>
    if value.isEmpty then miss
    else some (.commit origin (if promote then some ⟨value, origin⟩ else none))

/-- The lookup of `get` and of `get_range_into`. -/
def lookupWork : Option (Nat × Nat) → Option Work
  | none =>
    match s.files.lookup p.key with
    | none => none
    | some file =>
      afterLoad file.origin choice.promote (load cfg.crc32c cfg.integrityMode file.bytes)
        (some (.discard none)) none
  | some (offset, len) =>
    match s.files.lookup p.key with
    | none => none
    | some file =>
      match loadRange cfg.crc32c cfg.integrityMode file.bytes offset len with
      | none => some (.discard none)
      | some bytes =>
        if bytes.length ≠ len then none
        else if choice.promote then some (.promote file.origin)
        else some (.commit file.origin none)

/-- `get_range_into` loads the file once more to promote it. -/
def promoteWork (choice : Choice) : Work :=
  let plain := Work.commit origin none
  match s.hot p.key, s.files.lookup p.key with
  | none, some file =>
    if choice.proceed ∧ choice.io then
      (afterLoad file.origin true (load cfg.crc32c cfg.integrityMode file.bytes)
        (some (.discard (some origin))) (some plain)).getD plain
    else plain
  | _, _ => plain

def continueWith : Option Work → State
  | none => s.finish id
  | some work => s.goOn id p work

/-- The deletion of a damaged file, outside the gate and without the counter. -/
def discard (commit : Option Nat) (choice : Choice) : State :=
  continueWith (if choice.io then s.removeFile p.key else s) id p
    (commit.map fun origin => .commit origin none)

def commitDiskHit (promote : Option Entry) : State :=
  if current cfg s p then
    match promote with
    | some entry => ((s.setCold p.key (some origin)).setHot p.key (some entry)).finish id
    | none => (s.setCold p.key (some origin)).finish id
  else s.finish id

/-! ### Removal -/

def removeFileLocked (key : CacheKey) (choice : Choice) : State :=
  if (s.files.lookup key).isSome ∧ choice.stat ∧ choice.io then
    (s.removeFile key).saturatingFetchSubBytes (s.fileSize key)
  else s

/-- The steps of `remove`; the gate is held after the first. -/
def removeStep : RemoveStage → Option State
  | .gate => locked cfg s p.key ((s.lock id (cfg.shard p.key)).goOn id p (.remove .writeHot))
  | .writeHot => some ((s.setWriteHot p.key none).goOn id p (.remove .hot))
  | .hot => some ((s.setHot p.key none).goOn id p (.remove .cold))
  | .cold => some ((s.setCold p.key none).goOn id p (.remove .file))
  | .file => some ((removeFileLocked s p.key choice).finish id)

/-! ### The system -/

def advance : Option State :=
  match p.work with
  | .insertHot entry next =>
    locked cfg s p.key (afterHot cfg id p entry (insertHotAtGeneration cfg s p entry) next)
  | .insertWriteHot entry persist =>
    locked cfg s p.key (insertRecentWrite cfg s id p entry persist)
  | .persist entry spawned => persistOpportunistic cfg s id p entry spawned choice
  | .store entry => some (reserve cfg s id p entry choice)
  | .evict entry => some (evictLru cfg s id p entry choice)
  | .evicting entry toFree freed files => evictNext cfg s id p entry toFree freed choice files
  | .write entry => some (writeTemp cfg s id p entry choice)
  | .publish entry => locked cfg s p.key (publish cfg s id p entry choice)
  | .marker origin => locked cfg s p.key (insertColdMarkerIfCurrent cfg s id p origin)
  | .lookup range =>
    some (continueWith s id p
      (if choice.proceed ∧ choice.io then lookupWork cfg s p choice range else none))
  | .promote origin => some (s.goOn id p (promoteWork cfg s p origin choice))
  | .discard commit => some (discard s id p commit choice)
  | .commit origin promote => locked cfg s p.key (commitDiskHit cfg s id p origin promote)
  | .remove stage => removeStep cfg s id p choice stage

/-- The first work of a call; a lookup without a disk tier or of no bytes has none. -/
def firstWork : Request → Option Work
  | .insert data => some (.insertHot ⟨data, id⟩ .store)
  | .insertHot data => some (.insertHot ⟨data, id⟩ .finish)
  | .insertRecentWriteHot data => some (.insertWriteHot ⟨data, id⟩ false)
  | .insertOpportunistic data => some (.insertHot ⟨data, id⟩ .persist)
  | .insertRecentWriteOpportunistic data => some (.insertWriteHot ⟨data, id⟩ true)
  | .storeToDisk data => some (.store ⟨data, id⟩)
  | .get => if cfg.maxDiskBytes = 0 then none else some (.lookup none)
  | .getRangeInto offset len =>
    if cfg.maxDiskBytes = 0 ∨ len = 0 then none else some (.lookup (some (offset, len)))
  | .remove => some (.remove .gate)

/-- The bytes an operation has reserved. -/
def Work.reservation : Work → Nat
  | .evict entry | .evicting entry _ _ _ | .write entry | .publish entry => totalLen cfg entry
  | _ => 0

/-- A store runs in its own task from its reservation to its end. -/
def Work.owned : Work → Bool
  | .evict _ | .evicting _ _ _ _ | .write _ | .publish _ => true
  | _ => false

def beginCall (key : CacheKey) (request : Request) : State :=
  let counted := { s with nextId := s.nextId + 1 }
  match firstWork cfg s.nextId request with
  | none => counted
  | some work => counted.goOn s.nextId ⟨key, s.generation (cfg.shard key), work⟩ work

def step : Event → Option State
  | .begin key request => some (beginCall cfg s key request)
  | .step id choice => (s.pending.lookup id).bind fun p => advance cfg s id p choice
  | .cancel id =>
    (s.pending.lookup id).bind fun p => if p.work.owned then none else some (s.finish id)
  | .damage key bytes =>
    (s.files.lookup key).bind fun file =>
      if bytes.length = file.bytes.length then some (s.putFile key { file with bytes := bytes })
      else none
  | .evictHot key => some (s.setHot key none)
  | .evictWriteHot key => some (s.setWriteHot key none)
  | .evictCold key => some (s.setCold key none)

end Steps

/-- The weight of a file is its length. -/
def fileTotal (files : AList fun _ : CacheKey => Entry) : Nat :=
  Keys.total (fun entry : Entry => entry.bytes.length) files

variable (found : List (CacheKey × List UInt8))

/-- The files found in the directory, of no operation. -/
def scanned : AList fun _ : CacheKey => Entry :=
  found.foldr (fun file table => table.insert file.1 ⟨file.2, 0⟩) ∅

/-- A cache over the files of an earlier run. -/
def initial : State where
  generation _ := 0
  gate _ := none
  files := scanned found
  bytesUsed := min (fileTotal (scanned found)) u64Max
  hot _ := none
  writeHot _ := none
  cold _ := none
  pending := ∅
  nextId := 1

end BrewFs.Chunk.ChunksCache
