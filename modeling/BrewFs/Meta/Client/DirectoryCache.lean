import BrewFs.Meta.Client.Tree

/-! `meta/client`: directory operations of the concurrent tasks of one client. Each call of the
store and each call of the cache is a step. Generations are `u64` in the source and taken never to
wrap. -/

namespace BrewFs.Meta.Client

open BrewFs.Slots List Option InodeCache
open Function (update update_of_ne update_self)

variable {Name : Type}

/-- The cache calls of an operation after its store call. -/
inductive CacheCall (Name : Type) where
  | insertNode (ino : Nat)
  | ensureNodeInCache (ino : Nat)
  | markChildrenCompleteEmpty (ino : Nat)
  | addChild (parent : Nat) (name : Name) (child : Nat)
  | removeChild (parent : Nat) (name : Name)
  | removeChildButKeepInode (parent : Nat) (name : Name)
  | invalidateInode (ino : Nat)
  /-- `invalidate_inode` of a directory whose names have changed. -/
  | invalidateParent (parent : Nat) (names : List Name)

/-- The directory entries the call brings up to date. -/
def CacheCall.entries : CacheCall Name → List (Nat × Name)
  | .addChild parent name _ | .removeChild parent name | .removeChildButKeepInode parent name =>
    [(parent, name)]
  | .invalidateParent parent names => names.map fun name => (parent, name)
  | .insertNode _ | .ensureNodeInCache _ | .markChildrenCompleteEmpty _ | .invalidateInode _ => []

inductive Request (Name : Type) where
  | readdir (dir : Nat)
  | lookup (parent : Nat) (name : Name) (withAttr : Bool)
  /-- `ino`: the inode the store will give; `attr`: the store returns its attributes. -/
  | createFile (parent : Nat) (name : Name) (ino : Nat) (attr : Bool)
  | mkdir (parent : Nat) (name : Name) (ino : Nat) (attr : Bool)
  | symlink (parent : Nat) (name : Name) (ino : Nat)
  | link (ino parent : Nat) (name : Name)
  /-- `target`: what the lookup before the store call found. -/
  | unlink (parent : Nat) (name : Name) (target : Option Nat)
  | rmdir (parent : Nat) (name : Name)
  | rename (oldParent : Nat) (oldName : Name) (newParent : Nat) (newName : Name) (noreplace : Bool)
  | renameExchange (oldParent : Nat) (oldName : Name) (newParent : Nat) (newName : Name)

/-- Where an operation stands. -/
inductive Task (Name : Type) where
  | request (request : Request Name)
  | ensureDir (dir : Nat)
  | probeGeneration (dir : Nat)
  | storeReaddir (dir generation : Nat)
  | ensureListed (dir generation : Nat) (entries : ChildrenMap Name)
  | loadChildren (dir generation : Nat) (entries : ChildrenMap Name)
  | getAttr (parent : Nat) (name : Name) (ino : Nat)
  | statChild (parent : Nat) (name : Name) (ino : Nat)
  | storeLookup (parent : Nat) (name : Name) (withAttr : Bool)
  | resolveCase (parent : Nat) (name : Name) (withAttr : Bool)
  | calls (todo : List (CacheCall Name))

/-- The entries the operation has yet to bring up to date in the cache. -/
def Task.entries : Task Name → List (Nat × Name)
  | .calls todo => todo.flatMap CacheCall.entries
  | .request _ | .ensureDir _ | .probeGeneration _ | .storeReaddir _ _ | .ensureListed _ _ _
  | .loadChildren _ _ _ | .getAttr _ _ _ | .statChild _ _ _ | .storeLookup _ _ _
  | .resolveCase _ _ _ => []

structure DirectoryCache (Name : Type) where
  store : DirStore Name
  cache : InodeCache Name
  tasks : Nat → Option (Task Name)
  /-- The tasks that have been started. -/
  ids : List Nat

structure MetaClientOptions (Name : Type) where
  caseInsensitive : Bool
  eqIgnoreAsciiCase : Name → Name → Bool

inductive DirAction (Name : Type) where
  | start (id : Nat) (request : Request Name)
  /-- The next step of a task; `yes`: the answer to a question left open. -/
  | advance (id : Nat) (yes : Bool)
  /-- `resolve_case` finds the name in another spelling; `yes`: the store has its attributes. -/
  | resolveAs (id : Nat) (spelling : Name) (yes : Bool)
  | cachedStat (ino : Nat)
  | evict (ino : Nat)

/-- `cache_lookup_attr` -/
def cacheLookupAttr (parent : Nat) (name : Name) (ino : Nat) : List (CacheCall Name) :=
  [.insertNode ino, .addChild parent name ino]

/-- The task is over when no call is left. -/
def Task.ofCalls : List (CacheCall Name) → Option (Task Name)
  | [] => none
  | todo@(_ :: _) => some (.calls todo)

/-- A step of a task: the store, the cache and what is left of the task. -/
structure TaskStep (Name : Type) where
  store : DirStore Name
  cache : InodeCache Name
  task : Option (Task Name)

namespace DirectoryCache

def init (store : DirStore Name) : DirectoryCache Name where
  store := store
  cache := fun _ => none
  tasks := fun _ => none
  ids := []

variable (s : DirectoryCache Name)

def setTask (id : Nat) (task : Option (Task Name)) : DirectoryCache Name :=
  { s with tasks := update s.tasks id task }

def take (id : Nat) (taken : TaskStep Name) : DirectoryCache Name :=
  { s.setTask id taken.task with store := taken.store, cache := taken.cache }

/-- The task goes on; store and cache stay. -/
def goesOn (task : Option (Task Name)) : TaskStep Name :=
  ⟨s.store, s.cache, task⟩

/-- The store call fails, or changes the store before some cache calls. -/
def afterStore (store : Option (DirStore Name)) (todo : List (CacheCall Name)) : TaskStep Name :=
  match store with
  | none => s.goesOn none
  | some store => ⟨store, s.cache, some (.calls todo)⟩

end DirectoryCache

section

variable [DecidableEq Name]

/-- `yes`: the store has the inode that is to be cached. -/
def CacheCall.perform (cache : InodeCache Name) (yes : Bool) : CacheCall Name → InodeCache Name
  | .insertNode ino => cache.insertNode ino
  | .ensureNodeInCache ino => if yes then cache.insertNode ino else cache
  | .markChildrenCompleteEmpty ino => cache.markChildrenCompleteEmpty ino
  | .addChild parent name child => cache.addChild parent name child
  | .removeChild parent name => cache.removeChild parent name
  | .removeChildButKeepInode parent name => cache.removeChildButKeepInode parent name
  | .invalidateInode ino => cache.invalidateInode ino
  | .invalidateParent parent _ => cache.invalidateInode parent

namespace DirectoryCache

variable (options : MetaClientOptions Name) (s : DirectoryCache Name)

variable (oldParent : Nat) (oldName : Name) (newParent : Nat) (newName : Name)

/-- `rename_cached` -/
def stepRename (noreplace : Bool) : TaskStep Name :=
  if oldParent = newParent ∧ oldName = newName then s.goesOn none
  else
    match s.store oldParent oldName with
    | none => s.goesOn none
    | some src =>
      if noreplace ∧ (s.store newParent newName).isSome then s.goesOn none
      else if s.store newParent newName = some src then
        -- both names are links to the same inode: nothing is renamed
        s.goesOn (some (.calls [.invalidateInode src, .removeChild oldParent oldName,
          .removeChild newParent newName, .ensureNodeInCache oldParent,
          .ensureNodeInCache newParent, .ensureNodeInCache src, .addChild oldParent oldName src,
          .addChild newParent newName src]))
      else
        s.afterStore (some ((s.store.set oldParent oldName none).set newParent newName (some src)))
          [.removeChild oldParent oldName, .removeChild newParent newName, .invalidateInode src,
            .ensureNodeInCache newParent, .ensureNodeInCache src,
            .addChild newParent newName src]

/-- `rename_exchange` -/
def stepRenameExchange : TaskStep Name :=
  match s.store oldParent oldName, s.store newParent newName with
  | some old, some new =>
    s.afterStore
      (some ((s.store.set oldParent oldName (some new)).set newParent newName (some old)))
      ([.invalidateInode old, .invalidateInode new] ++
        if oldParent = newParent then [.invalidateParent oldParent [oldName, newName]]
        else [.invalidateParent oldParent [oldName], .invalidateParent newParent [newName]])
  | _, _ => s.goesOn none

def stepRequest (yes : Bool) : Request Name → TaskStep Name
  | .readdir dir =>
    -- `yes`: the children's attributes are cached too
    if (s.cache.completeOf dir).isSome ∧ yes then s.goesOn none
    else s.goesOn (some (.ensureDir dir))
  | .lookup parent name withAttr =>
    match s.cache.lookupIfLoaded parent name with
    | some (some ino) => s.goesOn (if withAttr then some (.getAttr parent name ino) else none)
    | some none =>
      s.goesOn (if options.caseInsensitive then some (.storeLookup parent name withAttr) else none)
    | none => s.goesOn (some (.storeLookup parent name withAttr))
  | .createFile parent name ino attr =>
    s.afterStore (s.store.create parent name ino)
      ((if attr then [.insertNode ino] else []) ++ [.addChild parent name ino])
  | .mkdir parent name ino attr =>
    s.afterStore (s.store.create parent name ino)
      ((if attr then [.insertNode ino, .markChildrenCompleteEmpty ino] else []) ++
        [.addChild parent name ino])
  | .symlink parent name ino | .link ino parent name =>
    s.afterStore (s.store.create parent name ino)
      [.ensureNodeInCache parent, .insertNode ino, .addChild parent name ino]
  | .unlink parent name target =>
    s.afterStore (s.store.remove parent name)
      (.removeChild parent name :: target.toList.map .invalidateInode)
  | .rmdir parent name =>
    s.afterStore (s.store.remove parent name) [.removeChildButKeepInode parent name]
  | .rename oldParent oldName newParent newName noreplace =>
    s.stepRename oldParent oldName newParent newName noreplace
  | .renameExchange oldParent oldName newParent newName =>
    s.stepRenameExchange oldParent oldName newParent newName

def stepTask (yes : Bool) : Task Name → TaskStep Name
  | .request request => s.stepRequest options yes request
  | .ensureDir dir =>
    ⟨s.store, (CacheCall.ensureNodeInCache dir).perform s.cache yes, some (.probeGeneration dir)⟩
  | .probeGeneration dir =>
    s.goesOn (some (.storeReaddir dir ((s.cache.childrenGeneration dir).getD 0)))
  | .storeReaddir dir generation => s.goesOn (some (.ensureListed dir generation (s.store dir)))
  | .ensureListed dir generation entries =>
    ⟨s.store, (CacheCall.ensureNodeInCache dir).perform s.cache yes,
      some (.loadChildren dir generation entries)⟩
  | .loadChildren dir generation entries =>
    ⟨s.store, s.cache.loadChildrenIfFresh dir entries generation, none⟩
  | .getAttr parent name ino =>
    s.goesOn (if (s.cache ino).isSome then none else some (.statChild parent name ino))
  -- `yes`: the store has the inode
  | .statChild parent name ino =>
    s.goesOn (if yes then some (.calls (cacheLookupAttr parent name ino)) else none)
  | .storeLookup parent name withAttr =>
    match s.store parent name with
    | some ino => s.goesOn (some (.calls (cacheLookupAttr parent name ino)))
    | none =>
      s.goesOn (if options.caseInsensitive then some (.resolveCase parent name withAttr) else none)
  | .resolveCase _ _ _ => s.goesOn none
  | .calls [] => s.goesOn none
  | .calls (call :: rest) =>
    ⟨s.store, call.perform s.cache yes, Task.ofCalls rest⟩

/-- `resolve_case`: the store has the name in another spelling. A caller that wants the attributes
also caches the spelling asked for. -/
def stepResolve (spelling : Name) (yes : Bool) : Task Name → Option (Task Name)
  | .resolveCase parent name withAttr =>
    if options.eqIgnoreAsciiCase spelling name then
      (s.store parent spelling).map fun ino =>
        .calls ([.ensureNodeInCache ino, .addChild parent spelling ino] ++
          if withAttr ∧ yes then .insertNode ino :: cacheLookupAttr parent name ino else [])
    else none
  | _ => none

def step : DirAction Name → Option (DirectoryCache Name)
  | .start id request =>
    if id ∈ s.ids then none
    else some { s.setTask id (some (.request request)) with ids := id :: s.ids }
  | .advance id yes => (s.tasks id).map fun task => s.take id (s.stepTask options yes task)
  | .resolveAs id spelling yes => ((s.tasks id).bind (s.stepResolve options spelling yes)).map
      fun task =>
    s.setTask id (some task)
  | .cachedStat ino => some { s with cache := s.cache.insertNode ino }
  | .evict ino => some { s with cache := s.cache.invalidateInode ino }

end DirectoryCache

end

/-! ### What is kept up to date -/

namespace DirectoryCache

variable (s : DirectoryCache Name)

/-- A task has yet to bring the entry up to date. -/
def Pending (dir : Nat) (name : Name) : Prop :=
  ∃ id ∈ s.ids, ∃ task ∈ s.tasks id, (dir, name) ∈ task.entries

/-- The entry is the store's, or another task has yet to bring it up to date. -/
def Settled (dir : Nat) (name : Name) (entry : Option Nat) : Prop :=
  entry = s.store dir name ∨ s.Pending dir name

/-- The condition on a cache call, in the state where the task has gone on. -/
def CallInStep (s rest : DirectoryCache Name) : CacheCall Name → Prop
  | .addChild parent name child =>
    (s.cache.completeOf parent).isSome → rest.Settled parent name (some child)
  | .removeChild parent name | .removeChildButKeepInode parent name =>
    (s.cache.completeOf parent).isSome → rest.Settled parent name none
  | .markChildrenCompleteEmpty ino =>
    (s.cache ino).map InodeEntry.children = some .notLoaded → ∀ name, rest.Settled ino name none
  | .insertNode _ | .ensureNodeInCache _ | .invalidateInode _ | .invalidateParent _ _ => True

/-- Only entries the store still has are written into a complete directory or loaded as one, apart
from those another task has yet to bring up to date. -/
def InStep : DirAction Name → Prop
  | .advance id _ => ∀ task ∈ s.tasks id,
      match task with
      | .calls (call :: rest) => s.CallInStep (s.setTask id (Task.ofCalls rest)) call
      | .loadChildren dir generation entries =>
        s.cache.childrenGeneration dir = some generation → ∀ name, s.Settled dir name (entries name)
      | _ => True
  | .start _ _ | .resolveAs _ _ _ | .cachedStat _ | .evict _ => True

structure Coherent (s : DirectoryCache Name) : Prop where
  known : ∀ id, ∀ task ∈ s.tasks id, id ∈ s.ids
  complete : ∀ dir, ∀ children ∈ s.cache.completeOf dir, ∀ name, s.Settled dir name (children name)

variable {options : MetaClientOptions Name} {s : DirectoryCache Name}

theorem coherent_init (store : DirStore Name) : Coherent (init store) where
  known := nofun
  complete := nofun

section

variable {id dir : Nat} {name : Name} {task : Task Name} {next : Option (Task Name)}

section

variable (found : s.tasks id = some task)

include found

/-- What was pending still is, unless it was up to the task that goes on. -/
theorem Pending.setTask (pending : s.Pending dir name) :
    (s.setTask id next).Pending dir name ∨ (dir, name) ∈ task.entries := by
  obtain ⟨other, started, waiting, running, listed⟩ := pending
  by_cases same : other = id
  · subst same
    cases found.symm.trans running
    exact .inr listed
  · exact .inl ⟨other, started, waiting, (update_of_ne same _ _).trans running, listed⟩

theorem Pending.free (pending : s.Pending dir name) (free : task.entries = []) :
    (s.setTask id next).Pending dir name :=
  (pending.setTask found).resolve_right (by rw [free]; exact not_mem_nil)

theorem Coherent.pending_new (coherent : Coherent s) {new : Task Name}
    (listed : (dir, name) ∈ new.entries) : (s.setTask id (some new)).Pending dir name :=
  ⟨id, coherent.known id task found, new, update_self .., listed⟩

end

/-- A cache call settles its own entries only. -/
theorem Coherent.pending_rest (coherent : Coherent s) {call : CacheCall Name}
    {rest : List (CacheCall Name)} (found : s.tasks id = some (.calls (call :: rest)))
    (other : (dir, name) ∉ call.entries) (pending : s.Pending dir name) :
    (s.setTask id (Task.ofCalls rest)).Pending dir name := by
  refine (pending.setTask found).elim (fun later => later) fun listed => ?_
  rw [Task.entries, flatMap_cons, mem_append] at listed
  have listed := listed.resolve_left other
  cases rest with
  | nil => cases listed
  | cons next rest => exact coherent.pending_new found listed

variable {cache : InodeCache Name}

section

variable (coherent : Coherent s)

include coherent

section

variable (found : s.tasks id = some task)

include found

theorem Coherent.take
    {store : DirStore Name} (complete : ∀ dir, ∀ children ∈ cache.completeOf dir, ∀ name,
      children name = store dir name ∨ (s.setTask id next).Pending dir name ∨
      ∃ old ∈ s.cache.completeOf dir, old name = children name ∧ store dir name = s.store dir name ∧
        (s.Pending dir name → (s.setTask id next).Pending dir name)) :
    Coherent (s.take id ⟨store, cache, next⟩) where
  known := fun other running here => by
    by_cases same : other = id
    · rw [same]
      exact coherent.known id task found
    · exact coherent.known other running ((update_of_ne same ..).symm.trans here)
  complete := fun dir children here name => by
    rcases complete dir children here name with current | pending | ⟨old, before, same, kept, waits⟩
    · exact .inl current
    · exact .inr pending
    · rcases coherent.complete dir old before name with current | pending
      · exact .inl (same.symm.trans (current.trans kept.symm))
      · exact .inr (waits pending)

section

variable (free : task.entries = [])

include free

theorem Coherent.idle
    (same : ∀ dir, ∀ children ∈ cache.completeOf dir, children ∈ s.cache.completeOf dir) :
    Coherent (s.take id ⟨s.store, cache, next⟩) :=
  coherent.take found fun dir children here _ =>
    .inr (.inr ⟨children, same dir children here, rfl, rfl, fun pending => pending.free found free⟩)

theorem Coherent.goesOn : Coherent (s.take id (s.goesOn next)) :=
  coherent.idle found free fun _ _ here => here

/-- A store call is followed by the cache calls for its entries. -/
theorem Coherent.afterStore {store : Option (DirStore Name)} {todo : List (CacheCall Name)}
    (changed : ∀ new ∈ store, ∀ dir name, new dir name ≠ s.store dir name →
      (dir, name) ∈ todo.flatMap CacheCall.entries) :
    Coherent (s.take id (s.afterStore store todo)) := by
  cases store with
  | none => exact coherent.goesOn found free
  | some new =>
    refine coherent.take found fun dir children here name => .inr ?_
    by_cases kept : new dir name = s.store dir name
    · exact .inr ⟨children, here, rfl, kept, fun pending => pending.free found free⟩
    · exact .inl (coherent.pending_new found (changed new rfl dir name kept))

end

end

theorem Coherent.setCache
    (same : ∀ dir, ∀ children ∈ cache.completeOf dir, children ∈ s.cache.completeOf dir) :
    Coherent { s with cache := cache } where
  known := coherent.known
  complete := fun dir children here => coherent.complete dir children (same dir children here)

theorem Coherent.start (request : Request Name) (fresh : id ∉ s.ids) :
    Coherent { s.setTask id (some (.request request)) with ids := id :: s.ids } where
  known := fun other task here => by
    rcases mem_put here with ⟨rfl, _⟩ | ⟨_, running⟩
    · exact mem_cons_self
    · exact mem_cons_of_mem _ (coherent.known other task running)
  complete := fun dir children here name => by
    apply (coherent.complete dir children here name).imp_right
    rintro ⟨other, started, task, running, listed⟩
    have differs : other ≠ id := fun same => fresh (same ▸ started)
    exact ⟨other, mem_cons_of_mem _ started, task,
      (update_of_ne differs ..).trans running, listed⟩

theorem Coherent.resolve {spelling : Name} {yes : Bool} {next : Task Name}
    (found : s.tasks id = some task)
    (resolved : s.stepResolve options spelling yes task = some next) :
    Coherent (s.setTask id (some next)) := by
  cases task with
  | resolveCase parent name withAttr => exact coherent.goesOn found rfl
  | request _ | ensureDir _ | probeGeneration _ | storeReaddir _ _ | ensureListed _ _ _
  | loadChildren _ _ _ | getAttr _ _ _ | statChild _ _ _ | storeLookup _ _ _ | calls _ =>
    cases resolved

end

end

section

variable [DecidableEq Name] {id : Nat} {yes : Bool} {task : Task Name}

section

variable (coherent : Coherent s) (found : s.tasks id = some task) (free : task.entries = [])
  (oldParent : Nat) (oldName : Name) (newParent : Nat) (newName : Name)

include coherent found free

theorem Coherent.stepRename (noreplace : Bool) :
    Coherent (s.take id (s.stepRename oldParent oldName newParent newName noreplace)) := by
  unfold DirectoryCache.stepRename
  split
  · exact coherent.goesOn found free
  split
  · exact coherent.goesOn found free
  split
  · exact coherent.goesOn found free
  split
  · exact coherent.goesOn found free
  refine coherent.afterStore found free fun new same dir name changed => ?_
  cases same
  rcases DirStore.set_set_changes changed with ⟨rfl, rfl⟩ | ⟨rfl, rfl⟩
  · simp [CacheCall.entries]
  · simp [CacheCall.entries]

theorem Coherent.stepRenameExchange :
    Coherent (s.take id (s.stepRenameExchange oldParent oldName newParent newName)) := by
  unfold DirectoryCache.stepRenameExchange
  split
  · refine coherent.afterStore found free fun new same dir name changed => ?_
    cases same
    rcases DirStore.set_set_changes changed with ⟨rfl, rfl⟩ | ⟨rfl, rfl⟩
    · split <;> simp [CacheCall.entries]
    · split <;> simp_all [CacheCall.entries]
  · exact coherent.goesOn found free

end

theorem Coherent.stepRequest (coherent : Coherent s) {request : Request Name}
    (found : s.tasks id = some (.request request)) :
    Coherent (s.take id (s.stepRequest options yes request)) := by
  cases request with
  | readdir dir =>
    simp only [DirectoryCache.stepRequest]
    split <;> exact coherent.goesOn found rfl
  | lookup parent name withAttr =>
    simp only [DirectoryCache.stepRequest]
    split <;> exact coherent.goesOn found rfl
  | createFile | mkdir | symlink | link =>
    refine coherent.afterStore found rfl fun new created dir other changed => ?_
    obtain ⟨rfl, rfl⟩ := DirStore.create_changes created changed
    simp [CacheCall.entries]
  | unlink | rmdir =>
    refine coherent.afterStore found rfl fun new removed dir other changed => ?_
    obtain ⟨rfl, rfl⟩ := DirStore.remove_changes removed changed
    simp [CacheCall.entries]
  | rename oldParent oldName newParent newName noreplace =>
    exact coherent.stepRename found rfl oldParent oldName newParent newName noreplace
  | renameExchange oldParent oldName newParent newName =>
    exact coherent.stepRenameExchange found rfl oldParent oldName newParent newName

theorem mem_ensureNodeInCache {cache : InodeCache Name} {ino dir : Nat}
    {children : ChildrenMap Name}
    (here : children ∈ ((CacheCall.ensureNodeInCache ino).perform cache yes).completeOf dir) :
    children ∈ cache.completeOf dir := by
  simp only [CacheCall.perform] at here
  split at here
  · rwa [completeOf_insertNode] at here
  · exact here

variable {rest : List (CacheCall Name)}

section

variable (coherent : Coherent s)

include coherent

/-- A call that puts one name's entry into a directory. -/
theorem Coherent.putEntry {call : CacheCall Name}
    (found : s.tasks id = some (.calls (call :: rest))) {parent : Nat} {name : Name}
    {entry : Option Nat} (entries : call.entries = [(parent, name)])
    (inStep : (s.cache.completeOf parent).isSome →
      (s.setTask id (Task.ofCalls rest)).Settled parent name entry)
    (effect : ∀ dir, ∀ children ∈ (call.perform s.cache yes).completeOf dir,
      dir = parent ∧ (∃ old ∈ s.cache.completeOf parent, children = update old name entry) ∨
      dir ≠ parent ∧ children ∈ s.cache.completeOf dir) :
    Coherent (s.take id ⟨s.store, call.perform s.cache yes, Task.ofCalls rest⟩) := by
  refine coherent.take found fun dir children here other => ?_
  have apart : (dir, other) ≠ (parent, name) → (dir, other) ∉ call.entries := by
    rw [entries, mem_singleton]
    exact fun differs => differs
  rcases effect dir children here with ⟨rfl, old, before, rfl⟩ | ⟨differs, before⟩
  · by_cases same : other = name
    · subst same
      rw [update_self]
      exact (inStep (isSome_of_mem before)).imp_right .inl
    · refine .inr (.inr ⟨old, before, (update_of_ne same ..).symm, rfl, ?_⟩)
      exact coherent.pending_rest found (apart fun equal => same (Prod.mk.inj equal).2)
  · refine .inr (.inr ⟨children, before, rfl, rfl, ?_⟩)
    exact coherent.pending_rest found (apart fun equal => differs (Prod.mk.inj equal).1)

/-- A call that brings no entry up to date and changes no complete directory. -/
theorem Coherent.keepEntries {call : CacheCall Name}
    (found : s.tasks id = some (.calls (call :: rest))) (entries : call.entries = [])
    (effect : ∀ dir, ∀ children ∈ (call.perform s.cache yes).completeOf dir,
      children ∈ s.cache.completeOf dir) :
    Coherent (s.take id ⟨s.store, call.perform s.cache yes, Task.ofCalls rest⟩) :=
  coherent.take found fun dir children here name => .inr (.inr ⟨children, effect dir children here,
    rfl, rfl, coherent.pending_rest found (by rw [entries]; exact not_mem_nil)⟩)

theorem Coherent.call {call : CacheCall Name} (found : s.tasks id = some (.calls (call :: rest)))
    (inStep : s.CallInStep (s.setTask id (Task.ofCalls rest)) call) :
    Coherent (s.take id ⟨s.store, call.perform s.cache yes, Task.ofCalls rest⟩) := by
  cases call with
  | insertNode ino =>
    refine coherent.keepEntries found rfl fun dir children here => ?_
    rwa [CacheCall.perform, completeOf_insertNode] at here
  | ensureNodeInCache ino =>
    exact coherent.keepEntries found rfl fun _ _ here => mem_ensureNodeInCache here
  | invalidateInode ino =>
    exact coherent.keepEntries found rfl fun _ _ here => (mem_invalidateInode here).2
  | addChild parent name child =>
    exact coherent.putEntry found rfl inStep fun _ _ here => mem_addChild here
  | removeChildButKeepInode parent name =>
    exact coherent.putEntry found rfl inStep fun _ _ here =>
      mem_removeChildButKeepInode here
  | removeChild parent name =>
    exact coherent.putEntry found rfl inStep fun _ _ here =>
      mem_removeChildButKeepInode (mem_removeChild here)
  | markChildrenCompleteEmpty ino =>
    refine coherent.take found fun dir children here name => ?_
    rcases mem_markChildrenCompleteEmpty here with old | ⟨rfl, loaded, rfl⟩
    · exact .inr (.inr ⟨children, old, rfl, rfl, coherent.pending_rest found not_mem_nil⟩)
    · exact (inStep loaded name).imp_right .inl
  | invalidateParent parent names =>
    refine coherent.take found fun dir children here name => ?_
    obtain ⟨differs, old⟩ := mem_invalidateInode here
    refine .inr (.inr ⟨children, old, rfl, rfl, coherent.pending_rest found fun listed => ?_⟩)
    obtain ⟨_, _, same⟩ := mem_map.mp listed
    exact differs (Prod.mk.inj same).1.symm

theorem Coherent.stepTask (found : s.tasks id = some task)
    (inStep : s.InStep (.advance id yes)) : Coherent (s.take id (s.stepTask options yes task)) := by
  have inStep := inStep task found
  cases task with
  | request request => exact coherent.stepRequest found
  | ensureDir dir | ensureListed dir generation entries =>
    exact coherent.idle found rfl fun _ _ here => mem_ensureNodeInCache here
  | probeGeneration dir | storeReaddir dir generation | getAttr parent name ino
  | statChild parent name ino | resolveCase parent name withAttr =>
    exact coherent.goesOn found rfl
  | storeLookup parent name withAttr =>
    simp only [DirectoryCache.stepTask]
    split <;> exact coherent.goesOn found rfl
  | loadChildren dir generation entries =>
    refine coherent.take found fun other children here name => ?_
    rcases mem_loadChildrenIfFresh here with old | ⟨rfl, fresh, rfl⟩
    · exact .inr (.inr ⟨children, old, rfl, rfl, fun pending => pending.free found rfl⟩)
    · exact (inStep fresh name).imp_right fun pending => .inl (pending.free found rfl)
  | calls todo =>
    cases todo with
    | nil => exact coherent.goesOn found rfl
    | cons call rest => exact coherent.call found inStep

end

theorem Coherent.step (s : DirectoryCache Name) (action : DirAction Name)
    (next : DirectoryCache Name) (coherent : Coherent s) (inStep : s.InStep action)
    (taken : s.step options action = some next) : Coherent next := by
  cases action with
  | start id request =>
    obtain ⟨fresh, ⟨⟩⟩ := ite_none_left_eq_some.mp taken
    exact coherent.start request fresh
  | advance id yes =>
    obtain ⟨task, found, rfl⟩ := map_eq_some_iff.mp taken
    exact coherent.stepTask found inStep
  | resolveAs id spelling yes =>
    obtain ⟨resolved, found, rfl⟩ := map_eq_some_iff.mp taken
    obtain ⟨task, found, resolved⟩ := bind_eq_some_iff.mp found
    exact coherent.resolve found resolved
  | cachedStat ino =>
    cases taken
    exact coherent.setCache fun dir children here => by
      rwa [completeOf_insertNode] at here
  | evict ino =>
    cases taken
    exact coherent.setCache fun _ _ here => (mem_invalidateInode here).2

/-- In a run whose cache calls are in step with the store, a directory cached as complete has
exactly the store's entries whenever no operation is in flight. -/
theorem complete_directory_is_the_stores (options : MetaClientOptions Name)
    (store : DirStore Name) (actions : List (DirAction Name)) (final : DirectoryCache Name)
    (inStep : Run.Along (step options) InStep (init store) actions)
    (run : Run.exec (step options) (init store) actions = some final)
    (quiet : ∀ id ∈ final.ids, final.tasks id = none) :
    ∀ dir, ∀ children ∈ final.cache.completeOf dir, children = final.store dir ∧
      ∀ name, final.cache.lookupIfLoaded dir name = some (final.store dir name) := by
  have coherent : Coherent final :=
    Run.invariant_along Coherent.step (coherent_init store) inStep run
  intro dir children complete
  have same : children = final.store dir := by
    funext name
    apply (coherent.complete dir children complete name).elim (id)
    rintro ⟨id, started, task, running, _⟩
    rw [quiet id started] at running
    cases running
  exact ⟨same, fun name => by rw [lookupIfLoaded_of_complete complete, same]⟩

end

/-- A listing of a directory whose only entry is removed from the store before it is loaded. -/
def removedInListing : List (DirAction String) :=
  [.start 0 (.readdir 1), .advance 0 true, .advance 0 true, .advance 0 true, .advance 0 true,
    .advance 0 true, .start 1 (.rmdir 1 "a"), .advance 1 true]

def exactCase : MetaClientOptions String := ⟨false, fun _ _ => false⟩

def oneEntry : DirStore String := fun dir name => if dir = 1 ∧ name = "a" then some 2 else none

/-- The listing is loaded before the removal reaches the cache. -/
theorem removedInListing_inStep : Run.Along (step exactCase) InStep (init oneEntry)
      (removedInListing ++ [.advance 0 true, .advance 1 true]) := by
  have kept : ∀ name ≠ "a", oneEntry 1 name = oneEntry.set 1 "a" none 1 name := fun name other =>
    Classical.byContradiction fun changed => other (DirStore.set_changes (Ne.symm changed)).2
  have gone : none = oneEntry.set 1 "a" none 1 "a" := by decide
  refine ⟨trivial, fun _ taken => ?_⟩
  cases taken
  iterate 5
    refine ⟨fun _ running => ?_, fun _ taken => ?_⟩
    · cases running
      trivial
    cases taken
  refine ⟨trivial, fun _ taken => ?_⟩
  cases taken
  refine ⟨fun _ running => ?_, fun _ taken => ?_⟩
  · cases running
    trivial
  cases taken
  refine ⟨fun _ running => ?_, fun _ taken => ?_⟩
  · cases running
    intro _ name
    by_cases removed : name = "a"
    · exact .inr ⟨1, mem_cons_self, _, rfl, removed ▸ mem_cons_self⟩
    · exact .inl (kept name removed)
  cases taken
  refine ⟨fun _ running => ?_, fun _ _ => trivial⟩
  cases running
  exact fun _ => .inl gone

theorem complete_directory_after_listing : ∃ final, Run.exec (step exactCase) (init oneEntry)
        (removedInListing ++ [.advance 0 true, .advance 1 true]) = some final ∧
      (final.cache.completeOf 1).isSome ∧
      final.cache.lookupIfLoaded 1 "a" = some (final.store 1 "a") :=
  have run : Run.exec (step exactCase) (init oneEntry)
    (removedInListing ++ [.advance 0 true, .advance 1 true]) = some _ := rfl
  ⟨_, run, rfl, (complete_directory_is_the_stores exactCase oneEntry _ _ removedInListing_inStep run
    (by decide) 1 _ rfl).2 "a"⟩

/-- The removal finds no cached entry and leaves the generation, so the older listing is loaded. -/
theorem stale_listing : ∃ final, Run.exec (step exactCase) (init oneEntry)
        (removedInListing ++ [.advance 1 true, .advance 0 true]) = some final ∧
      (∀ id ∈ final.ids, final.tasks id = none) ∧ (final.cache.completeOf 1).isSome ∧
      final.cache.lookupIfLoaded 1 "a" = some (some 2) ∧ final.store 1 "a" = none :=
  Run.reaches (by decide +kernel)

end DirectoryCache

end BrewFs.Meta.Client
