import BrewFs.Chunk.Compress
import BrewFs.Library.Routine
import BrewFs.Meta.Database.Coalesced

/-! `chunk/store.rs`, `chunk/cache.rs`, `chunk/singleflight.rs`: reads of blocks through the caches.
A routine is interleaved with others at each of its calls. -/

namespace BrewFs.Chunk.ObjectBlockStore

open BrewFs.Buffer BrewFs.Routine
open BrewFs.Meta.Database.Coalesce (decodeId)

inductive ObjectLayout where
  | versioned (compression : Compression)
  | legacy
deriving DecidableEq, Repr

inductive ReadFetchPolicy where
  | backendDefault
  | wholeObject
  | sparse
deriving DecidableEq, Repr

structure BlockStoreConfig where
  blockSize : Nat
  pageSize : Nat
  /-- `range_size_threshold`, computed with floats in the source. -/
  rangeSizeThreshold : Nat
  rangeBackgroundPrefetch : Bool
  compression : Compression
  populateWriteCacheAfterUpload : Bool
  persistWriteCacheAfterUpload : Bool
  persistentSliceCache : Bool
  createOnlyWrites : Bool
  versionedObjectsOnly : Bool
  versionedObjectsUncompressed : Bool
  legacyDeleteAllowed : Bool
  readFetchPolicy : ReadFetchPolicy
  /-- `prefers_full_object_reads` of the backend. -/
  prefersFullObjectReads : Bool
  maxDiskBytes : Nat
  pageSize_pos : 0 < pageSize
  /-- The block size of a chunk layout is a `u32`. -/
  blockSize_lt : blockSize < 2 ^ 32

/-- The names of the objects of a block. -/
inductive ObjectName where
  | versioned (key : BlockKey)
  | legacy (key : BlockKey)
deriving DecidableEq, Repr

inductive ReadError where
  | incomplete (key : BlockKey) (offset expected actual : Nat)
  | backend
  | header
  | decode
  | coalesced
deriving DecidableEq, Repr

/-- `object_key_for` -/
def objectKeyFor (key : BlockKey) : ObjectLayout → ObjectName
  | .versioned _ => .versioned key
  | .legacy => .legacy key

def decodeObject (codec : Codec) (layout : ObjectLayout) (currentCompression : Compression)
    (bytes : List UInt8) (blockSize : Nat) : Option (List UInt8) :=
  match layout with
  | .versioned _ => codec.decompressFramed bytes blockSize
  | .legacy => if currentCompression = .none then some bytes else codec.decompress bytes blockSize

def rangeBaseOffset (layout : ObjectLayout) (currentCompression : Compression) : Option Nat :=
  match layout with
  | .versioned .none => some persistedHeaderLen
  | .versioned _ => none
  | .legacy => if currentCompression = .none then some 0 else none

/-- The tiers of `ChunksCache`. -/
inductive Tier where
  | writeHot
  | hot
  | disk
deriving DecidableEq, Repr

/-- `(slice_id, block_index, page_index)` -/
abbrev PageKey := BlockKey × Nat

def pageKey (key : BlockKey) (page : Nat) : PageKey := (key, asU32 page)

/-- What a flight is for: `read_flight`, `range_flight`, `format_flight`. -/
inductive FlightKey where
  | read (key : BlockKey)
  | range (key : BlockKey) (first last : Nat)
  | format (key : BlockKey)
deriving DecidableEq, Repr

/-- What a flight shares. -/
abbrev FlightKey.Out : FlightKey → Type
  | .read _ => List UInt8
  | .range _ _ _ => List UInt8
  | .format _ => ObjectLayout

/-- The flights for a key: at most one in the air; those that ended have published. -/
structure Flights (V : Type) where
  inAir : Bool
  published : List (Option V)

/-- Work that is spawned. -/
inductive Background where
  | persist (key : BlockKey) (data : List UInt8)
  | prefetch (key : BlockKey) (layout : ObjectLayout)

inductive Call where
  | tierGet (tier : Tier) (key : BlockKey)
  /-- Left out when the generation has moved on. -/
  | tierInsert (tier : Tier) (key : BlockKey) (data : List UInt8)
  | pageGet (page : PageKey)
  | pageInsert (page : PageKey) (data : List UInt8)
  | layoutGet (key : BlockKey)
  | layoutInsert (key : BlockKey) (layout : ObjectLayout)
  | getRange (name : ObjectName) (offset len : Nat)
  | getFull (name : ObjectName)
  /-- The decoded member of a coalesced object (`chunk/store/coalesce.rs`). -/
  | getMember (sliceId : Nat)
  | put (name : ObjectName) (data : List UInt8)
  /-- A promoted slice of the write-back cache. -/
  | openSlice (sliceId : Nat)
  /-- Join the flight for the key, or lead a new one. -/
  | enter (flight : FlightKey)
  | peek (flight : FlightKey)
  | await (flight : FlightKey) (number : Nat)
  | finish (flight : FlightKey) (result : Option flight.Out)
  | spawn (work : Background)
  | choose

abbrev Ans : Call → Type
  | .tierGet _ _ => Option (List UInt8)
  | .tierInsert _ _ _ => Bool
  | .pageGet _ => Option (List UInt8)
  | .pageInsert _ _ => Unit
  | .layoutGet _ => Option ObjectLayout
  | .layoutInsert _ _ => Unit
  | .getRange _ _ _ => Option (List UInt8)
  | .getFull _ => Option (Option (List UInt8))
  | .getMember _ => Option (Option (List UInt8))
  | .put _ _ => Bool
  | .openSlice _ => Option (List UInt8)
  | .enter _ => Option Nat
  | .peek _ => Option Nat
  | .await flight _ => Option flight.Out
  | .finish _ _ => Unit
  | .spawn _ => Unit
  | .choose => Bool

abbrev Reads (α : Type) := Routine Call Ans ReadError α

abbrev ask (call : Call) : Reads (Ans call) := perform call

abbrev tierGet (tier : Tier) (key : BlockKey) : Reads (Option (List UInt8)) :=
  ask (.tierGet tier key)

abbrev tierInsert (tier : Tier) (key : BlockKey) (data : List UInt8) : Reads Bool :=
  ask (.tierInsert tier key data)

variable (key : BlockKey)

abbrev pageGet (page : Nat) : Reads (Option (List UInt8)) :=
  ask (.pageGet (pageKey key page))

abbrev pageInsert (page : Nat) (data : List UInt8) : Reads Unit :=
  ask (.pageInsert (pageKey key page) data)

abbrev layoutGet : Reads (Option ObjectLayout) := ask (.layoutGet key)

abbrev layoutInsert (layout : ObjectLayout) : Reads Unit :=
  ask (.layoutInsert key layout)

abbrev getObjectRange (name : ObjectName) (offset len : Nat) : Reads (Option (List UInt8)) :=
  ask (.getRange name offset len)

abbrev spawn (work : Background) : Reads Unit := ask (.spawn work)

abbrev finish (flight : FlightKey) (result : Option flight.Out) : Reads Unit :=
  ask (.finish flight result)

/-- A policy that only decides what is cached or prefetched. -/
abbrev choose : Reads Bool := ask .choose

/-! ### `ChunksCache` -/

variable (cfg : BlockStoreConfig) (codec : Codec) (key : BlockKey)

/-- `persist_opportunistic` is spawned. -/
def insertOpportunistic (data : List UInt8) : Reads Unit := do
  let current ← tierInsert .hot key data
  if current then spawn (.persist key data) else done ()

def insertRecentWriteOpportunistic (data : List UInt8) : Reads Unit := do
  let current ← tierInsert .writeHot key data
  if current then spawn (.persist key data) else done ()

/-- `commit_disk_hit` -/
def commitDiskHit (promote : Option (List UInt8)) : Reads Unit :=
  match promote with
  | none => done ()
  | some value => do
      let _ ← tierInsert .hot key value
      done ()

/-- A value of the disk tier; an empty one is a miss. -/
def loadDisk : Reads (Option (List UInt8)) := do
  let value ← tierGet .disk key
  done (value.filter fun value => value ≠ [])

/-- `ChunksCache::get` -/
def cacheGet : Reads (Option (List UInt8)) := do
  match ← tierGet .writeHot key with
  | some value => done (some value)
  | none =>
    match ← tierGet .hot key with
    | some value => done (some value)
    | none =>
      if cfg.maxDiskBytes = 0 then done none
      else do
        match ← loadDisk key with
        | none => done none
        | some value => do
            let promoted ← choose
            commitDiskHit key (if promoted then some value else none)
            done (some value)

/-- `copy_full_cached_range` -/
def copyFullCachedRange (value : List UInt8) (offset len : Nat) : Option (List UInt8) :=
  if offset + len ≤ value.length then some ((value.drop offset).take len) else none

variable (offset len : Nat)

/-- `get_cached_range`: the tiers in memory. -/
def getCachedRange : Reads (Option (List UInt8)) := do
  let recent ← tierGet .writeHot key
  match recent.bind fun value => copyFullCachedRange value offset len with
  | some bytes => done (some bytes)
  | none => do
      let value ← tierGet .hot key
      done (value.bind fun value => copyFullCachedRange value offset len)

def getRangeInto : Reads (Option (List UInt8)) := do
  match ← getCachedRange key offset len with
  | some bytes => done (some bytes)
  | none =>
    if cfg.maxDiskBytes = 0 then done none
    else do
      let value ← tierGet .disk key
      match value.bind fun value => copyFullCachedRange value offset len with
      | none => done none
      | some bytes => do
          let promoted ← choose
          if promoted then do
            match ← tierGet .hot key with
            | some _ => done (some bytes)
            | none => do
                commitDiskHit key (← loadDisk key)
                done (some bytes)
          else done (some bytes)

/-! ### Flights and objects -/

/-- `SingleFlight::wait_for_result` -/
def waitForResult (flight : FlightKey) (number : Nat) : Reads flight.Out := do
  match ← (ask (.await flight number) : Reads (Option flight.Out)) with
  | some result => done result
  | none => fail .backend

/-- `SingleFlight::execute` -/
def execute (flight : FlightKey) (body : Reads flight.Out) : Reads flight.Out := do
  match ← (ask (.enter flight) : Reads (Option Nat)) with
  | some number => waitForResult flight number
  | none =>
    match ← body.attempt with
    | .ok result => do
        finish flight (some result)
        done result
    | .error error => do
        finish flight none
        fail error

def requireCompleteRead (offset expected actual : Nat) : Reads Unit :=
  if actual = expected then done () else fail (.incomplete key offset expected actual)

/-- The copy out of a whole block. -/
def copyBlock (block : List UInt8) : Reads (List UInt8) := do
  let bytes := (block.drop offset).take len
  requireCompleteRead key offset len bytes.length
  done bytes

/-- The loop that reads the header; each round but the last gets at least a byte. -/
def readHeader (name : ObjectName) : Nat → List UInt8 → Reads (Option (List UInt8))
  | 0, header => done (some header)
  | rounds + 1, header => do
      match ← getObjectRange name header.length (persistedHeaderLen - header.length) with
      | none => fail .backend
      | some bytes =>
        if bytes = [] then
          if header = [] then done none else fail .header
        else if header.length + bytes.length = persistedHeaderLen then done (some (header ++ bytes))
        else readHeader name rounds (header ++ bytes)

def probeObjectLayout : Reads ObjectLayout := do
  match ← readHeader (.versioned key) persistedHeaderLen [] with
  | none => do
      layoutInsert key .legacy
      done .legacy
  | some header =>
    match parsePersistedHeader header with
    | .framed compression => do
        layoutInsert key (.versioned compression)
        done (.versioned compression)
    | .incomplete | .notFramed | .invalid => fail .header

def resolveObjectLayout : Reads ObjectLayout := do
  match ← layoutGet key with
  | some layout => done layout
  | none =>
    if cfg.versionedObjectsOnly then do
      let layout := .versioned (if cfg.versionedObjectsUncompressed then .none else .lz4)
      layoutInsert key layout
      done layout
    else execute (.format key) (probeObjectLayout key)

/-- `observed_full` -/
def observedFull (name : ObjectName) (layout : ObjectLayout) : Reads (Option (List UInt8)) := do
  match ← (ask (.getFull name) : Reads (Option (Option (List UInt8)))) with
  | none => fail .backend
  | some none => done none
  | some (some bytes) =>
    if cfg.blockSize * 2 + 2 ^ 20 < bytes.length then fail .backend
    else match decodeObject codec layout cfg.compression bytes cfg.blockSize with
      | none => fail .decode
      | some decoded =>
        if cfg.blockSize < decoded.length then fail .decode else done (some decoded)

/-- A block that was fetched is cached, unless there is nothing. -/
def publishBlock (fetched : Option (List UInt8)) : Reads (List UInt8) :=
  match fetched with
  | none => done []
  | some data =>
    if data = [] then done data
    else do
      insertOpportunistic key data
      done data

namespace BlockStoreConfig

def preferFullObjects : Bool :=
  match cfg.readFetchPolicy with
  | .backendDefault => cfg.prefersFullObjectReads
  | .wholeObject => true
  | .sparse => false

def skipFullReadProbe : Bool := cfg.preferFullObjects || cfg.readFetchPolicy = .sparse

def supportsCoalescedObjects : Bool :=
  cfg.legacyDeleteAllowed && !cfg.createOnlyWrites && !cfg.versionedObjectsOnly

end BlockStoreConfig

/-- The layout a whole object is read with. Its own header says more, so a probe can be left out. -/
def layoutForDownload : Option ObjectLayout → Reads ObjectLayout
  | some layout => done layout
  | none =>
    if cfg.skipFullReadProbe then do
      let cached ← layoutGet key
      done (cached.getD (.versioned .none))
    else resolveObjectLayout cfg key

/-- A whole object, or the older layout's if there was no probe. -/
def fetchBlock (layout : ObjectLayout) : Reads (List UInt8) := do
  match ← observedFull cfg codec (objectKeyFor key layout) layout with
  | some data => publishBlock key (some data)
  | none =>
    if cfg.skipFullReadProbe ∧ cfg.versionedObjectsOnly = false ∧ layout ≠ .legacy then do
      let fetched ← observedFull cfg codec (.legacy key) .legacy
      layoutInsert key .legacy
      publishBlock key fetched
    else publishBlock key none

/-- The body of a read flight. -/
def downloadBlock (layout : Option ObjectLayout) : Reads (List UInt8) := do
  match ← cacheGet cfg key with
  | some data => done data
  | none => do
      let layout ← layoutForDownload cfg key layout
      fetchBlock cfg codec key layout

/-- `prefetch_full_block_background` -/
def prefetchFullBlock (layout : ObjectLayout) : Reads Unit := do
  match ← cacheGet cfg key with
  | some _ => done ()
  | none => do
      let permitted ← choose
      if permitted then do
        let _ ← execute (.read key) do
          match ← cacheGet cfg key with
          | some data => done data
          | none => do
              let fetched ← observedFull cfg codec (objectKeyFor key layout) layout
              publishBlock key fetched
        done ()
      else done ()

/-- `persist_opportunistic`: the store on disk, if there is room and nobody else does it. -/
def persistOpportunistic (data : List UInt8) : Reads Unit :=
  if cfg.maxDiskBytes = 0 then done ()
  else do
    let wanted ← choose
    if wanted then do
      let _ ← tierInsert .disk key data
      done ()
    else done ()

def Background.routine : Background → Reads Unit
  | .persist key data => persistOpportunistic cfg key data
  | .prefetch key layout => prefetchFullBlock cfg codec key layout

/-! ### Pages -/

/-- The copied part of a page, with its place in the buffer. -/
def copyOfPage (pageSize offset len startPage endPage middleEnd page : Nat) (data : List UInt8) :
    Option (Nat × List UInt8) :=
  let pageStart := page * pageSize
  let copyStart := if page = startPage then offset - pageStart else 0
  let requestedEnd := if page = endPage then offset + len - pageStart else middleEnd
  let copyEnd := min requestedEnd data.length
  if copyStart < copyEnd then
    some (pageStart + copyStart - offset, (data.drop copyStart).take (copyEnd - copyStart))
  else none

/-- The copies out of consecutive pages. -/
def copiesOfPages (pageSize offset len startPage endPage : Nat) (middleEnd : Nat → Nat) :
    Nat → List (List UInt8) → List (Nat × List UInt8)
  | _, [] => []
  | page, data :: rest =>
    (copyOfPage pageSize offset len startPage endPage (middleEnd page) page data).toList ++
      copiesOfPages pageSize offset len startPage endPage middleEnd (page + 1) rest

variable (offset len : Nat)

/-- All pages copied into the buffer, which they must fill. -/
def copyPages (middleEnd : Nat → Nat) (pages : List (List UInt8)) : Reads (List UInt8) := do
  let startPage := offset / cfg.pageSize
  let endPage := (offset + len - 1) / cfg.pageSize
  let copies := copiesOfPages cfg.pageSize offset len startPage endPage middleEnd startPage pages
  requireCompleteRead key offset len (copies.map fun copy => copy.2.length).sum
  done (applyPatches (List.replicate len 0) copies)

/-- The pages from the first one on, until one is missing. -/
def cachedPages (key : BlockKey) : Nat → Nat → Reads (Option (List (List UInt8)))
  | _, 0 => done (some [])
  | page, count + 1 => do
      match ← pageGet key page with
      | none => done none
      | some data => do
          match ← cachedPages key (page + 1) count with
          | none => done none
          | some rest => done (some (data :: rest))

/-- `try_promote_page_cache_to_block_cache` -/
def tryPromotePageCacheToBlockCache : Reads Bool := do
  let pageCount := (cfg.blockSize + cfg.pageSize - 1) / cfg.pageSize
  match ← cachedPages key 0 pageCount with
  | none => done false
  | some pages => do
      insertOpportunistic key (pages.flatten.take cfg.blockSize)
      done true

/-- What follows a range read that missed. -/
def afterRangeMiss (layout : ObjectLayout) : Reads Unit :=
  if cfg.rangeBackgroundPrefetch then do
    let promoted ← tryPromotePageCacheToBlockCache cfg key
    if promoted then done ()
    else do
      -- `allow_range_prefetch || dense_slice`
      let prefetch ← choose
      if prefetch then spawn (.prefetch key layout) else done ()
  else done ()

/-- The complete pages of a fetched range are cached. -/
def admitPages (fetched : List UInt8) (rangeStart : Nat) (pageStart pageEnd : Nat → Nat)
    (pages : List Nat) : Reads Unit :=
  visit (fun page =>
    let localStart := pageStart page - rangeStart
    let pageLen := pageEnd page - pageStart page
    if localStart + pageLen ≤ fetched.length then
      pageInsert key page ((fetched.drop localStart).take pageLen)
    else done ()) pages

/-- The page-aligned read of missing pages straight into the buffer. -/
def directTargetRead (name : ObjectName) (rangeBase offset len : Nat) : Reads (List UInt8) :=
  let startPage := offset / cfg.pageSize
  let endPage := (offset + len - 1) / cfg.pageSize
  execute (.range key startPage endPage) do
    match ← getObjectRange name (rangeBase + offset) len with
    | none => fail .backend
    | some fetched => do
        admitPages key fetched (startPage * cfg.pageSize) (fun page => page * cfg.pageSize)
          (fun page => page * cfg.pageSize + cfg.pageSize)
          (List.range' startPage (endPage - startPage + 1))
        done fetched

/-- The end of a page inside the block. -/
def BlockStoreConfig.pageEnd (page : Nat) : Nat :=
  min (page * cfg.pageSize + cfg.pageSize) cfg.blockSize

/-- The fetch of a run of missing pages. -/
def fetchRun (name : ObjectName) (rangeBase runStart runEnd : Nat) : Reads (List UInt8) :=
  execute (.range key runStart runEnd) do
    let rangeStart := runStart * cfg.pageSize
    let rangeLen := cfg.pageEnd runEnd - rangeStart
    match ← getObjectRange name (rangeBase + rangeStart) rangeLen with
    | none => fail .backend
    | some fetched => do
        admitPages key fetched rangeStart (fun page => page * cfg.pageSize) cfg.pageEnd
          (List.range' runStart (runEnd - runStart + 1))
        done fetched

/-- The pages of a run, from the cache or from what was fetched. -/
def pagesOfRun (runStart runEnd : Nat) (fetched : List UInt8) : Reads (List (List UInt8)) :=
  collect (fun page => do
    let localStart := page * cfg.pageSize - runStart * cfg.pageSize
    let pageLen := cfg.pageEnd page - page * cfg.pageSize
    match ← pageGet key page with
    | some cached => done cached
    | none => done ((fetched.drop localStart).take pageLen))
    (List.range' runStart (runEnd - runStart + 1))

/-- The loop over the runs of missing pages; each round ends at least one page. -/
def fillRuns (cfg : BlockStoreConfig) (key : BlockKey) (name : ObjectName) (rangeBase : Nat) :
    Nat → Nat → List (Option (List UInt8)) → Reads (List (List UInt8))
  | 0, _, _ => done []
  | _ + 1, _, [] => done []
  | rounds + 1, page, some data :: rest => do
      let more ← fillRuns cfg key name rangeBase rounds (page + 1) rest
      done (data :: more)
  | rounds + 1, page, none :: rest => do
      let following := (rest.takeWhile Option.isNone).length
      let fetched ← fetchRun cfg key name rangeBase page (page + following)
      let pages ← pagesOfRun cfg key page (page + following) fetched
      let more ← fillRuns cfg key name rangeBase rounds (page + following + 1)
        (rest.drop following)
      done (pages ++ more)

/-- The read of a range of an object addressed by bytes. -/
def readObjectRange (layout : ObjectLayout) (rangeBase offset len : Nat) : Reads (List UInt8) := do
  let startPage := offset / cfg.pageSize
  let endPage := (offset + len - 1) / cfg.pageSize
  let name := objectKeyFor key layout
  let pages ← collect (fun page => pageGet key page)
    (List.range' startPage (endPage - startPage + 1))
  if offset % cfg.pageSize = 0 ∧ len % cfg.pageSize = 0 ∧ pages.all Option.isNone then do
    let fetched ← directTargetRead cfg key name rangeBase offset len
    let bytes := fetched.take len
    requireCompleteRead key offset len bytes.length
    afterRangeMiss cfg key layout
    done bytes
  else do
    let filled ← fillRuns cfg key name rangeBase pages.length startPage pages
    let bytes ← copyPages cfg key offset len
      (fun page => cfg.pageEnd page - page * cfg.pageSize) filled
    if pages.any Option.isNone then do
      afterRangeMiss cfg key layout
      done bytes
    else done bytes

/-! ### `read_range` -/

/-- `read_coalesced` -/
def readCoalesced : Reads (Option (List UInt8)) := do
  match ← getCachedRange key offset len with
  | some bytes => done (some bytes)
  | none =>
    match ← (ask (.getMember key.1) : Reads (Option (Option (List UInt8)))) with
    | none => fail .backend
    | some none => done none
    | some (some decoded) =>
      if key.2 ≠ 0 then fail .coalesced
      else match copyFullCachedRange decoded offset len with
        | none => fail (.incomplete key offset len 0)
        | some bytes => do
            insertOpportunistic key decoded
            done (some bytes)

/-- `read_persistent_slice_cache` -/
def readPersistentSliceCache : Reads (Option (List UInt8)) :=
  if cfg.persistentSliceCache then do
    let file ← (ask (.openSlice key.1) : Reads (Option (List UInt8)))
    done (file.bind fun file => copyFullCachedRange file (key.2 * cfg.blockSize + offset) len)
  else done none

/-- `full_block_read` -/
def BlockStoreConfig.fullBlockRead : Bool :=
  offset = 0 && cfg.blockSize ≤ len

/-- The lookups that need no object. -/
def readBlockCache : Reads (Option (List UInt8)) :=
  if cfg.fullBlockRead offset len then do
    let cached ← cacheGet cfg key
    done (cached.bind fun cached => copyFullCachedRange cached offset len)
  else getRangeInto cfg key offset len

/-- The read flight for the whole block. -/
def readWholeBlock (layout : Option ObjectLayout) : Reads (List UInt8) := do
  let block ← execute (.read key) (downloadBlock cfg codec key layout)
  copyBlock key offset len block

/-- `read_range` after all caches of blocks have missed. -/
def readMissed : Reads (List UInt8) :=
  if len ≤ cfg.rangeSizeThreshold ∧ cfg.preferFullObjects = false then do
    match ← (ask (.peek (.read key)) : Reads (Option Nat)) with
    | some number => do
        let block ← waitForResult (.read key) number
        copyBlock key offset len block
    | none => do
        let startPage := offset / cfg.pageSize
        let endPage := (offset + len - 1) / cfg.pageSize
        match ← cachedPages key startPage (endPage - startPage + 1) with
        | some pages => copyPages cfg key offset len (fun _ => cfg.pageSize) pages
        | none => do
            let layout ← resolveObjectLayout cfg key
            match rangeBaseOffset layout cfg.compression with
            | some rangeBase => readObjectRange cfg key layout rangeBase offset len
            | none => readWholeBlock cfg codec key offset len (some layout)
  else readWholeBlock cfg codec key offset len none

/-- `read_range` for objects that are not coalesced. -/
def readBlockRange : Reads (List UInt8) := do
  match ← readBlockCache cfg key offset len with
  | some bytes => done bytes
  | none =>
    match ← readPersistentSliceCache cfg key offset len with
    | some bytes =>
      if cfg.fullBlockRead offset len then do
        insertRecentWriteOpportunistic key bytes
        done bytes
      else done bytes
    | none => readMissed cfg codec key offset len

def readRange : Reads (List UInt8) :=
  if len = 0 then done []
  else if cfg.supportsCoalescedObjects ∧ (decodeId key.1).isSome then do
    match ← readCoalesced key offset len with
    | some bytes => done bytes
    | none => readBlockRange cfg codec key offset len
  else readBlockRange cfg codec key offset len

/-- `write_fresh_vectored_inner`, with the frame of `prepare_persisted_upload`. -/
def writeFreshVectored (offset : Nat) (chunks : List (List UInt8)) : Reads Unit :=
  if chunks.flatten = [] then done ()
  else do
    let block := List.replicate offset 0 ++ chunks.flatten
    let frame := codec.encodePersistedBlock block cfg.compression
    let stored ← (ask (.put (.versioned key) frame) : Reads Bool)
    if stored then
      match parsePersistedHeader frame with
      | .framed compression => do
          layoutInsert key (.versioned compression)
          if cfg.populateWriteCacheAfterUpload ∧ block.length ≤ cfg.blockSize then do
            let _ ← tierInsert .writeHot key block
            if cfg.persistWriteCacheAfterUpload then do
              let _ ← tierInsert .disk key block
              done ()
            else done ()
          else done ()
      | .incomplete | .notFramed | .invalid => done ()
    else fail .backend

end BrewFs.Chunk.ObjectBlockStore
