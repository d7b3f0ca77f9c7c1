import BrewFs.Meta.Redis.HardLinks

/-! Any number of clients on one Redis store. A step is one Redis command or script together
with the client's own work up to its next command. `set_attr`, `set_file_size`, `truncate`,
`symlink` and `bump_dir_times` read a node in one step and write it back whole in a later one;
the read may be answered from the client's node cache. -/

namespace BrewFs.Meta.Redis

open BrewFs.Text (Bytes)

/-! ### Attribute changes -/

structure SetAttrRequest where
  mode : Option UInt32
  uid : Option UInt32
  gid : Option UInt32
  size : Option Nat
  atime : Option Int
  mtime : Option Int
  ctime : Option Int

structure SetAttrFlags where
  clearSuid : Bool
  clearSgid : Bool
  setAtimeNow : Bool
  setMtimeNow : Bool

def blocksFor (size : Nat) : Nat := (size + 511) / 512

variable (attr : StoredAttr)

def StoredAttr.clampBlocksToSize : StoredAttr :=
  { attr with blocks := some (min (attr.blocks.getD (blocksFor attr.size)) (blocksFor attr.size)) }

def StoredAttr.withSize (size : Nat) : StoredAttr :=
  let resized := { attr with size := size }
  if size < attr.size then resized.clampBlocksToSize else resized

variable (req : SetAttrRequest) (flags : SetAttrFlags)

def StoredAttr.withMode : StoredAttr :=
  let mode := (req.mode.map fun mode => attr.mode &&& 0o170000 ||| mode &&& 0o7777).getD attr.mode
  let mode := if flags.clearSuid then mode &&& ~~~0o4000 else mode
  let mode := if flags.clearSgid then mode &&& ~~~0o2000 else mode
  { attr with mode := mode }

/-- Whether `set_attr` has changed what moves the change time. -/
def ctimeUpdate : Bool :=
  req.mode.isSome || req.uid.isSome || req.gid.isSome || flags.clearSuid || flags.clearSgid ||
    req.size.isSome || flags.setAtimeNow || req.atime.isSome || flags.setMtimeNow ||
    req.mtime.isSome

def StoredAttr.resized (size : Option Nat) (now : Int) : StoredAttr :=
  match size with
  | none => attr
  | some size =>
    if attr.size ≠ size then { attr.withSize size with mtime := now } else attr

/-- The record `set_attr` saves; only a regular file has its size set. -/
def setAttr (node : StoredNode) (req : SetAttrRequest) (flags : SetAttrFlags) (now : Int) :
    Option StoredNode :=
  if req.size.isSome ∧ node.kind ≠ .file then none
  else
    let attr := node.attr.withMode req flags
    let attr := { attr with uid := req.uid.getD attr.uid, gid := req.gid.getD attr.gid }
    let attr := attr.resized req.size now
    let attr := { attr with
        atime := if flags.setAtimeNow then now else req.atime.getD attr.atime
        mtime := if flags.setMtimeNow then now else req.mtime.getD attr.mtime }
    let attr := { attr with
        ctime := req.ctime.getD (if ctimeUpdate req flags then now else attr.ctime) }
    some { node with attr := attr }

/-- The operations that read a node and write it back. -/
inductive Edit where
  | setAttr (req : SetAttrRequest) (flags : SetAttrFlags)
  /-- `set_file_size` and, apart from the slices, `truncate`. -/
  | setFileSize (size : Nat)
  | symlink (target : Bytes)
  | bumpDirTimes

/-- The record the operation saves, if it comes to saving. -/
def Edit.apply (edit : Edit) (node : StoredNode) (now : Int) : Option StoredNode :=
  match edit with
  | .setAttr req flags => Redis.setAttr node req flags now
  | .setFileSize size =>
    some { node with attr := { node.attr.withSize size with mtime := now, ctime := now } }
  | .symlink target =>
    some { node with
        attr := { node.attr with
            size := target.length, blocks := some (blocksFor target.length)
            atime := now, mtime := now, ctime := now }
        symlinkTarget := some target }
  | .bumpDirTimes => if node.kind = .dir then some (node.touched now) else none

theorem Edit.apply_keeps {edit : Edit} {node node' : StoredNode} {now : Int}
    (applied : edit.apply node now = some node') :
    node'.ino = node.ino ∧ node'.kind = node.kind ∧ node'.attr.nlink = node.attr.nlink ∧
      node'.deleted = node.deleted := by
  have resized : ∀ (attr : StoredAttr) (size : Nat), (attr.withSize size).nlink = attr.nlink := by
    intro attr size
    unfold StoredAttr.withSize
    split <;> rfl
  cases edit with
  | setAttr req flags =>
    simp only [Edit.apply, Redis.setAttr] at applied
    split at applied
    · cases applied
    obtain rfl := Option.some.inj applied
    refine ⟨rfl, rfl, ?_, rfl⟩
    cases size : req.size with
    | none => rfl
    | some size =>
      simp only [StoredAttr.resized]
      split
      · exact resized _ _
      · rfl
  | setFileSize size =>
    obtain rfl := Option.some.inj applied
    exact ⟨rfl, rfl, resized _ _, rfl⟩
  | symlink target =>
    obtain rfl := Option.some.inj applied
    exact ⟨rfl, rfl, rfl, rfl⟩
  | bumpDirTimes =>
    obtain ⟨_, applied⟩ := Option.ite_none_right_eq_some.mp applied
    obtain rfl := Option.some.inj applied
    exact ⟨rfl, rfl, rfl, rfl⟩

/-! ### Clients -/

/-- Where an operation of several commands stands. -/
inductive Phase where
  | getNode (ino : Ino) (edit : Edit)
  | saveNode (node : StoredNode)
  | linkParent (ino : Ino) (place : Place)
  | linkNode (ino : Ino) (place : Place)
  | linkScript (ino : Ino) (place : Place)
  | lookup (place : Place)
  | rmdirScript (place : Place) (child : Ino)
  | symlinkCreate (args : CreateArgs) (target : Bytes)

structure Task where
  client : Nat
  phase : Phase

structure System where
  store : Store
  /-- Each client's node cache; an entry may also record a missing node. -/
  cache : Nat → Ino → Option (Option StoredNode)
  tasks : Nat → Option Task

def initialSystem (now : Int) : System where
  store := initialStore now
  cache := fun _ _ => none
  tasks := fun _ => none

inductive Request where
  | setAttr (ino : Ino) (req : SetAttrRequest) (flags : SetAttrFlags)
  | setFileSize (ino : Ino) (size : Nat)
  | truncate (ino : Ino) (size : Nat)
  | symlink (args : CreateArgs) (target : Bytes)
  | link (ino : Ino) (place : Place)
  | rmdir (place : Place)

/-- The operations that are one script. -/
inductive Call where
  | create (args : CreateArgs)
  | unlink (place : Place)
  | rename (source target : Place) (noreplace : Bool)
  | exchange (old new : Place)
  | restore (ino : Ino) (place : Place)
  | removeFileMetadata (ino : Ino)

inductive Action where
  | start (task client : Nat) (request : Request)
  | advance (task : Nat) (now : Int)
  | call (client : Nat) (call : Call) (now : Int)
  | expire (client : Nat) (ino : Ino)

def Request.phase : Request → Phase
  | .setAttr ino req flags => .getNode ino (.setAttr req flags)
  | .setFileSize ino size => .getNode ino (.setFileSize size)
  | .truncate ino size => .getNode ino (.setFileSize size)
  | .symlink args target => .symlinkCreate { args with kind := .symlink } target
  | .link ino place => .linkParent ino place
  | .rmdir place => .lookup place

namespace System

variable (s : System) (client : Nat)

def remember (ino : Ino) (entry : Option (Option StoredNode)) : System :=
  { s with
    cache := Function.update s.cache client (Function.update (s.cache client) ino entry) }

def invalidate (inodes : List Ino) : System :=
  inodes.foldl (fun s ino => s.remember client ino none) s

def setTask (task : Nat) (state : Option Task) : System :=
  { s with tasks := Function.update s.tasks task state }

/-- `get_node`: the cached answer, or the stored one, which is then cached. -/
def getNode (ino : Ino) : Option StoredNode × System :=
  match s.cache client ino with
  | some cached => (cached, s)
  | none => (s.store.nodes ino, s.remember client ino (some (s.store.nodes ino)))

/-- The client's cache after its own `create_entry`. -/
def rememberCreated (args : CreateArgs) (reply : CreateReply) : System :=
  let created := newNode args reply.ino reply.gid
  let s :=
    match s.cache client args.parent with
    | some (some parent) =>
      s.remember client args.parent
        (some
          (some ((parent.addNlink (if args.kind = NodeKind.dir then 1 else 0)).touched args.now)))
    | _ => s
  s.remember client reply.ino
    (some (some { created with attr := { created.attr with blocks := some 0 } }))

/-- The store and the cache after a client's script. -/
def afterScript {α : Type} (s : System) (script : Script (α × Store))
    (onReply : α → System → System) : System :=
  match script with
  | .error _ => s
  | .ok (reply, store) => onReply reply { s with store := store }

end System

/-- A client's script, with the invalidations after a success. -/
def System.call (s : System) (client : Nat) (now : Int) : Call → System
  | .create args =>
    s.afterScript (createEntry s.store { args with now := now }) fun reply s =>
      s.rememberCreated client { args with now := now } reply
  | .unlink place =>
    s.afterScript (unlink s.store place now) fun child s => s.invalidate client [place.1, child]
  | .rename source target noreplace =>
    s.afterScript (rename s.store source target noreplace now) fun reply s =>
      s.invalidate client ([source.1, target.1, reply.ino] ++ reply.replaced.toList)
  | .exchange old new =>
    s.afterScript (renameExchange s.store old new now) fun inodes s =>
      s.invalidate client [old.1, new.1, inodes.1, inodes.2]
  | .restore ino place =>
    s.afterScript (restoreTrash s.store ino place now) fun _ s => s.invalidate client [ino, place.1]
  | .removeFileMetadata ino =>
    s.afterScript (removeFileMetadata s.store ino) fun _ s => s.invalidate client [ino]

/-- What `ensure_parent_dir` accepts. -/
def acceptsParent (found : Option StoredNode) : Bool :=
  found.any fun parent => decide (parent.kind = .dir)

/-- What `link` asks of the node before its script. -/
def acceptsLink (found : Option StoredNode) : Bool := found.any fun node =>
    decide (node.kind ≠ .dir ∧ node.kind ≠ .symlink ∧ node.deleted = false ∧ node.attr.nlink ≠ 0)

/-- The next command of a task. -/
def System.advance (s : System) (task : Nat) (client : Nat) (now : Int) : Phase → System
  | .getNode ino edit =>
    let (found, s) := s.getNode client ino
    let next := (found.bind fun node => edit.apply node now).map fun node =>
      (⟨client, .saveNode node⟩ : Task)
    s.setTask task next
  | .saveNode node =>
    let s := { s with store := s.store.setNode node.ino node }
    (s.remember client node.ino (some (some node))).setTask task none
  | .linkParent ino place =>
    if ino = rootInode then s.setTask task none
    else
      let (found, s) := s.getNode client place.1
      s.setTask task (if acceptsParent found then some ⟨client, .linkNode ino place⟩ else none)
  | .linkNode ino place =>
    let (found, s) := s.getNode client ino
    s.setTask task (if acceptsLink found then some ⟨client, .linkScript ino place⟩ else none)
  | .linkScript ino place =>
    match link s.store ino place now with
    | .error _ => s.setTask task none
    | .ok (_, store) =>
      let s := { s with store := store }
      (s.invalidate client [ino, place.1]).setTask task
        (some ⟨client, .getNode place.1 .bumpDirTimes⟩)
  | .lookup place =>
    s.setTask task ((s.store.hget place).map fun child => ⟨client, .rmdirScript place child⟩)
  | .rmdirScript place child =>
    (s.afterScript (rmdir s.store place child now) fun _ s =>
      s.invalidate client [place.1, child]).setTask task none
  | .symlinkCreate args target =>
    match createEntry s.store { args with now := now } with
    | .error _ => s.setTask task none
    | .ok (reply, store) =>
      let s := { s with store := store }
      (s.rememberCreated client { args with now := now } reply).setTask task
        (some ⟨client, .getNode reply.ino (.symlink target)⟩)

def step (s : System) : Action → Option System
  | .start task client request =>
    match s.tasks task with
    | none => some (s.setTask task (some ⟨client, request.phase⟩))
    | some _ => none
  | .advance task now =>
    match s.tasks task with
    | none => none
    | some state => some (s.advance task state.client now state.phase)
  | .call client call now => some (s.call client now call)
  | .expire client ino => some (s.remember client ino none)

end BrewFs.Meta.Redis
