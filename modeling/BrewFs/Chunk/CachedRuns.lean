import BrewFs.Chunk.CachedReads

/-! Any number of reads, writes and background jobs of a block store, interleaved at their calls,
with evictions, deletions and cancelled callers in between. -/

namespace BrewFs.Chunk.ObjectBlockStore

open BrewFs.Routine List Option

inductive Job where
  | read (key : BlockKey) (offset len : Nat)
  | write (key : BlockKey) (offset : Nat) (chunks : List (List UInt8))
  | background (work : Background)

def Job.routine (cfg : BlockStoreConfig) (codec : Codec) : Job → Reads (List UInt8)
  | .read key offset len => readRange cfg codec key offset len
  | .write key offset chunks => do
      writeFreshVectored cfg codec key offset chunks
      done []
  | .background work => do
      work.routine cfg codec
      done []

structure Thread where
  job : Job
  routine : Reads (List UInt8)
  /-- The flights that wait for this thread. -/
  leads : List FlightKey

/-- What a thread returned. -/
def Thread.result (thread : Thread) : Option (List UInt8) :=
  match thread.routine with
  | .done bytes => some bytes
  | .fail _ => none
  | .call _ _ => none

structure System where
  store : Store
  threads : List Thread

inductive Event where
  | start (job : Job)
  | startSpawned
  | step (thread : Nat) (choice : Choice)
  | cancel (thread : Nat)
  | evictBlock (tier : Tier) (key : BlockKey)
  | evictPage (page : PageKey)
  | evictLayout (key : BlockKey)
  | delete (name : ObjectName)

/-- The flights that a thread leads after a call. -/
def leadsAfter : (Σ call, Ans call) → List FlightKey → List FlightKey
  | ⟨.enter flight, none⟩, leads => flight :: leads
  | ⟨.finish flight _, _⟩, leads => leads.erase flight
  | _, leads => leads

namespace System

def spawn (cfg : BlockStoreConfig) (codec : Codec) (s : System) (job : Job) : System :=
  { s with threads := s.threads ++ [⟨job, job.routine cfg codec, []⟩] }

variable {cfg : BlockStoreConfig} {codec : Codec} (archive : Archive cfg codec)

/-- A newly opened store, with what earlier mounts left on disk and in the object store. -/
def opened (kept : BlockKey → Bool) (written : ObjectName → Bool) : System where
  store :=
    { tiers := fun tier key => if tier = .disk ∧ kept key then some (archive.block key) else none
      pages := fun _ => none
      layouts := fun _ => none
      written := written
      flights := fun _ => ⟨false, []⟩
      spawned := [] }
  threads := []

def apply (s : System) : Event → Option System
  | .start job =>
    match job with
    | .read _ offset len =>
      if offset + len ≤ cfg.blockSize then some (spawn cfg codec s job) else none
    | .write _ _ _ => some (spawn cfg codec s job)
    | .background _ => none
  | .startSpawned =>
    match s.store.spawned with
    | [] => none
    | work :: rest =>
      some (spawn cfg codec { s with store := { s.store with spawned := rest } } (.background work))
  | .step thread choice => do
      let running ← s.threads[thread]?
      let (store, later, made) ← running.routine.advance (Store.respond archive) s.store choice
      some
        { store := store
          threads := s.threads.set thread
            { running with routine := later, leads := leadsAfter made running.leads } }
  | .cancel thread => do
      let running ← s.threads[thread]?
      some
        { store := running.leads.foldl (fun store flight => store.publish flight none) s.store
          threads := s.threads.eraseIdx thread }
  | .evictBlock tier key => some { s with store := s.store.setTier tier key none }
  | .evictPage page =>
    some { s with store := { s.store with pages := Function.update s.store.pages page none } }
  | .evictLayout key =>
    some { s with store := { s.store with layouts := Function.update s.store.layouts key none } }
  | .delete name => some { s with store := s.store.setWritten name false }

end System

/-! ### Every run -/

/-- What a job may return. -/
def Job.Returns {cfg : BlockStoreConfig} {codec : Codec} (archive : Archive cfg codec) :
    Job → List UInt8 → Prop
  | .read key offset len, bytes => archive.Slice key offset len bytes
  | .write _ _ _, _ => True
  | .background _, _ => True

namespace System

variable {cfg : BlockStoreConfig} {codec : Codec} {archive : Archive cfg codec} {s next : System}
  {store : Store}

structure Valid (archive : Archive cfg codec) (s : System) : Prop where
  coherent : archive.Coherent s.store
  keeps : ∀ thread ∈ s.threads, Keeps archive thread.routine (thread.job.Returns archive)

theorem valid_opened (kept : BlockKey → Bool) (written : ObjectName → Bool) :
    Valid archive (opened archive kept written) := by
  refine ⟨⟨fun tier key data found => ?_, nofun, nofun, nofun, nofun⟩, nofun⟩
  simp only [opened, ite_none_right_eq_some, Option.some.injEq] at found
  exact found.2.symm

section

variable (valid : Valid archive s)

include valid

theorem Valid.spawn {job : Job}
    (keeps : Keeps archive (job.routine cfg codec) (job.Returns archive)) :
    Valid archive (System.spawn cfg codec s job) := by
  refine ⟨valid.coherent, fun thread listed => ?_⟩
  rcases mem_append.mp listed with old | new
  · exact valid.keeps thread old
  · obtain rfl := mem_singleton.mp new
    exact keeps

theorem Valid.evict (coherent : archive.Coherent store) : Valid archive { s with store := store } :=
  ⟨coherent, valid.keeps⟩

omit valid in
/-- Flights whose leader was dropped end with an error. -/
theorem coherent_abandon (coherent : archive.Coherent store) (leads : List FlightKey) :
    archive.Coherent (leads.foldl (fun store flight => store.publish flight none) store) := by
  induction leads generalizing store with
  | nil => exact coherent
  | cons flight rest ih => exact ih (coherent.publish nofun)

theorem Valid.step {thread : Nat} {choice : Choice}
    (taken : System.apply archive s (.step thread choice) = some next) : Valid archive next := by
  simp only [System.apply, bind_eq_bind, bind_eq_some_iff] at taken
  obtain ⟨running, listed, ⟨store, later, made⟩, moved, same⟩ := taken
  cases same
  obtain ⟨coherent, keeps⟩ := Safe.advance Archive.Coherent.respond valid.coherent
    (valid.keeps running (mem_of_getElem? listed)) moved
  refine ⟨coherent, fun other member => ?_⟩
  rcases mem_or_eq_of_mem_set member with old | new
  · exact valid.keeps other old
  · exact new ▸ keeps

theorem Valid.apply {event : Event} (taken : System.apply archive s event = some next) :
    Valid archive next := by
  cases event with
  | start job =>
    cases job with
    | read key offset len =>
      obtain ⟨inside, ⟨⟩⟩ := ite_none_right_eq_some.mp taken
      exact valid.spawn (readRange_keeps inside)
    | write key offset chunks =>
      cases taken
      exact valid.spawn ((writeFreshVectored_keeps offset chunks).bind fun _ _ => trivial)
    | background work => cases taken
  | startSpawned =>
    simp only [System.apply] at taken
    split at taken
    · cases taken
    rename_i work rest spawned
    cases taken
    have listed : ∀ other ∈ work :: rest, archive.WorkOk other := by
      rw [← spawned]
      exact valid.coherent.spawned
    rw [forall_mem_cons] at listed
    have coherent : archive.Coherent { s.store with spawned := rest } :=
      { valid.coherent with spawned := listed.2 }
    exact (valid.evict coherent).spawn ((background_keeps listed.1).bind fun _ _ => trivial)
  | step thread choice => exact valid.step taken
  | cancel thread =>
    simp only [System.apply, bind_eq_bind, bind_eq_some_iff] at taken
    obtain ⟨running, _, same⟩ := taken
    cases same
    exact ⟨coherent_abandon valid.coherent running.leads,
      fun other member => valid.keeps other (mem_of_mem_eraseIdx member)⟩
  | evictBlock tier key =>
    cases taken
    exact valid.evict (valid.coherent.setTier nofun)
  | evictPage page =>
    cases taken
    exact valid.evict { valid.coherent with
      pages := fun other data found => valid.coherent.pages other data (Slots.mem_free found).2 }
  | evictLayout key =>
    cases taken
    exact valid.evict { valid.coherent with
      layouts := fun other layout found =>
        valid.coherent.layouts other layout (Slots.mem_free found).2 }
  | delete name =>
    cases taken
    exact valid.evict { valid.coherent with }

end

end System

/-- In every run a successful read returns the bytes asked for, and a cached page is the page of its
block. -/
theorem cached_reads_exact (cfg : BlockStoreConfig) (codec : Codec) (archive : Archive cfg codec)
    (kept : BlockKey → Bool) (written : ObjectName → Bool) (events : List Event) (final : System)
    (run : Run.exec (System.apply archive) (System.opened archive kept written) events =
      some final) :
    (∀ thread ∈ final.threads, ∀ key offset len bytes, thread.job = .read key offset len →
      thread.result = some bytes →
        bytes.length = len ∧ bytes = ((archive.block key).drop offset).take len) ∧
    ∀ key page data, final.store.pages (key, page) = some data →
      data = ((archive.block key).take ((page + 1) * cfg.pageSize)).drop (page * cfg.pageSize) := by
  have valid := Run.invariant (fun s event next valid taken => System.Valid.apply valid taken)
    (System.valid_opened kept written) run
  refine ⟨fun thread listed key offset len bytes reads returned => ?_, fun key page data cached =>
    ?_⟩
  · have keeps := valid.keeps thread listed
    rw [reads] at keeps
    simp only [Thread.result] at returned
    split at returned
    · rename_i result finished
      cases returned
      rw [finished] at keeps
      obtain ⟨length, piece⟩ := keeps
      exact ⟨length, by rw [← length]; exact prefix_iff_eq_take.mp piece⟩
    · cases returned
    · cases returned
  · rw [valid.coherent.pages (key, page) data cached, Archive.page, drop_take,
      Nat.add_one_mul, Nat.add_sub_cancel_left]

def plainCodec : Codec where
  lz4 := id
  lz4Size := fun data => some data.length
  unlz4 := some
  zstd := fun _ _ => none
  unzstd := fun _ _ => none
  lz4Size_lz4 := fun _ => rfl
  unlz4_lz4 := fun _ => rfl
  unzstd_zstd := nofun

def smallConfig : BlockStoreConfig where
  blockSize := 6
  pageSize := 2
  rangeSizeThreshold := 6
  rangeBackgroundPrefetch := true
  compression := .none
  populateWriteCacheAfterUpload := false
  persistWriteCacheAfterUpload := false
  persistentSliceCache := false
  createOnlyWrites := false
  versionedObjectsOnly := false
  versionedObjectsUncompressed := false
  legacyDeleteAllowed := true
  readFetchPolicy := .sparse
  prefersFullObjectReads := false
  maxDiskBytes := 0
  pageSize_pos := by decide
  blockSize_lt := by decide

/-- One block, stored as it is. -/
def smallArchive : Archive smallConfig plainCodec where
  block := fun key => if key = (1, 0) then [1, 2, 3, 4, 5] else []
  fits := fun key => by split <;> decide
  object := fun name =>
    if name = .versioned (1, 0) then some (plainCodec.encodePersistedBlock [1, 2, 3, 4, 5] .none)
      else none
  framed := fun key bytes there => by
    simp only [ObjectName.versioned.injEq, ite_none_right_eq_some, Option.some.injEq] at there
    exact ⟨.none, by rw [if_pos there.1, there.2]⟩
  legacy := fun key bytes there => by simp at there
  uncompressed := nofun
  member := fun _ => none
  member_eq := nofun
  slice := fun _ => none
  slice_eq := nofun

/-- A read of two bytes out of two pages. -/
def smallRead : List Event := .start (.read (1, 0) 1 2) :: replicate 23 (.step 0 ⟨true, 9⟩)

theorem cached_reads_exact_two_pages : ∃ final,
    Run.exec (System.apply smallArchive)
      (System.opened smallArchive (fun _ => false) (fun _ => true)) smallRead = some final ∧
      final.threads.map Thread.result = [some [2, 3]] ∧
      ∀ key page data, final.store.pages (key, page) = some data →
        data = ((smallArchive.block key).take ((page + 1) * 2)).drop (page * 2) :=
  have run : Run.exec (System.apply smallArchive)
    (System.opened smallArchive (fun _ => false) (fun _ => true)) smallRead = some _ := rfl
  ⟨_, run, rfl, (cached_reads_exact _ _ smallArchive _ _ smallRead _ run).2⟩

end BrewFs.Chunk.ObjectBlockStore
