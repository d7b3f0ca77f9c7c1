import BrewFs.Library.Guard
import BrewFs.Meta.Redis.Store

/-! The Lua scripts of the Redis metadata store. A script either fails, and then has written
nothing, or answers with its reply and the store after its writes, in the order in which it
issues or stages them. -/

namespace BrewFs.Meta.Redis

open BrewFs.Text (Bytes)

local instance : LawfulBEq Bytes := inferInstance

inductive ErrorCode where
  | nodeNotFound
  | isDirectory
  | isSymlink
  | alreadyExists
  | notFound
  | oldNotFound
  | newNotFound
  | notDirectory
  | dirNotEmpty
  | parentNotFound
  | parentNotDirectory
  | corruptNode
  | circularRename
  | corruptAncestry
  | targetDirNotEmpty
  | targetNotDirectory
  | targetIsDirectory
  | corruptLinkParents
  | linkParentNotFound
  | notDeleted
  | cyclicTrashAncestry
  | invalidTrashAncestry
deriving DecidableEq, Repr

structure ScriptError where
  code : ErrorCode
  ino : Option Ino := none
deriving DecidableEq, Repr

abbrev Script := Except ScriptError

def need {α : Type} (value : Option α) (code : ErrorCode) (ino : Option Ino) : Script α :=
  Guard.need value ⟨code, ino⟩

def check (passed : Prop) [Decidable passed] (code : ErrorCode) (ino : Option Ino) : Script Unit :=
  Guard.check passed ⟨code, ino⟩

/-- How far `validate_ancestry` and `stage_trash` go up. -/
def maxDepth : Nat := 4096

/-- `validate_ancestry`: the parents of `parent` lead to the root and not to `ancestor`. -/
def validateAncestry (s : Store) (ancestor : Ino) : Nat → List Ino → Ino → Script Unit
  | depth, seen, parent =>
    if parent = ancestor then .error ⟨.circularRename, none⟩
    else if parent = rootInode then .ok ()
    else
      match depth with
      | 0 => .error ⟨.corruptAncestry, none⟩
      | depth + 1 =>
        if parent ∈ seen then .error ⟨.corruptAncestry, none⟩
        else
          match s.nodes parent with
          | none => .error ⟨.corruptAncestry, none⟩
          | some node =>
            if node.kind ≠ .dir ∨ node.parent = parent then .error ⟨.corruptAncestry, none⟩
            else validateAncestry s ancestor depth (parent :: seen) node.parent

/-- The path `stage_trash` records, down to the removed entry. -/
def trashPath (s : Store) : Nat → List Ino → Ino → List Bytes → Script (List Bytes)
  | depth, seen, parent, parts =>
    if parent = rootInode then .ok parts
    else
      match depth with
      | 0 => .error ⟨.cyclicTrashAncestry, none⟩
      | depth + 1 =>
        if parent ∈ seen then .error ⟨.cyclicTrashAncestry, none⟩
        else
          match s.nodes parent with
          | none => .error ⟨.invalidTrashAncestry, none⟩
          | some node =>
            if node.kind ≠ .dir ∨ node.deleted = true ∨ node.name = [] ∨ node.parent = 0 then
              .error ⟨.invalidTrashAncestry, none⟩
            else trashPath s depth (parent :: seen) node.parent (node.name :: parts)

variable (s : Store)

/-- `stage_trash`, issued only when the last link goes. -/
def stageTrash (last : Bool) (ino : Ino) (place : Place) : Script Store :=
  if last then do
    let path ← trashPath s maxDepth [] place.1 [place.2.val]
    return s.setTrash ino (some path)
  else return s

/-- What the scripts do to a parent record they have read. -/
def touchParent (ino : Ino) (parent : StoredNode) (delta : Int) (now : Int) : Store :=
  s.setNode ino ((parent.addNlink delta).touched now)

structure CreateArgs where
  parent : Ino
  name : Name
  kind : NodeKind
  now : Int
  mode : UInt32
  uid : UInt32
  gid : UInt32
  rdev : UInt32

structure CreateReply where
  ino : Ino
  gid : UInt32

/-- The node `CREATE_ENTRY_LUA` writes. -/
def newNode (args : CreateArgs) (ino : Ino) (gid : UInt32) : StoredNode where
  ino := ino
  parent := args.parent
  name := args.name.val
  kind := args.kind
  attr :=
    { size := 0, blocks := none, mode := args.mode, rdev := args.rdev, uid := args.uid, gid := gid
      atime := args.now, mtime := args.now, ctime := args.now
      nlink := if args.kind = .dir then 2 else 1 }
  symlinkTarget := none
  deleted := false

/-- `CREATE_ENTRY_LUA` -/
def createEntry (args : CreateArgs) : Script (CreateReply × Store) := do
  let parent ← need (s.nodes args.parent) .parentNotFound none
  check (parent.kind = .dir) .parentNotDirectory none
  check (s.hget (args.parent, args.name) = none) .alreadyExists none
  let ino := s.counter + 1
  let gid := if parent.attr.mode &&& 1024 ≠ 0 then parent.attr.gid else args.gid
  let s := s.incr
  let s := s.setNode ino (newNode args ino gid)
  let s := s.hset (args.parent, args.name) ino
  let s := touchParent s args.parent parent (if args.kind = .dir then 1 else 0) args.now
  return (⟨ino, gid⟩, s)

/-- `LINK_LUA`; it reads no parent record. -/
def link (ino : Ino) (place : Place) (now : Int) : Script (StoredAttr × Store) := do
  let node ← need (s.nodes ino) .nodeNotFound none
  check (¬ (node.deleted = true ∨ node.attr.nlink = 0)) .nodeNotFound none
  check (node.kind ≠ .dir) .isDirectory none
  check (node.kind ≠ .symlink) .isSymlink none
  check (s.hget place = none) .alreadyExists none
  let s := s.setLinkParents ino (addLinkMembers node (s.linkParents ino) place)
  let s := s.hset place node.ino
  let s := s.setNode ino (node.addLink now)
  return ((node.addLink now).attr, s)

/-- `UNLINK_LUA` -/
def unlink (place : Place) (now : Int) : Script (Ino × Store) := do
  let ino ← need (s.hget place) .notFound (some place.1)
  let node ← need (s.nodes ino) .nodeNotFound (some ino)
  check (node.kind ≠ .dir) .isDirectory (some ino)
  let parent := s.nodes place.1
  let members := s.linkParents ino
  let saved := node.dropLink members place now
  let s ← stageTrash s (node.attr.nlink = 1) ino place
  let s := s.hdel place
  let s := s.setLinkParents ino (dropLinkMembers node members place)
  let s := if saved.attr.nlink = 0 then s.setDeleted ino true else s
  let s := s.setNode ino saved
  let s :=
    match parent with
    | some parent => if parent.kind = .dir then touchParent s place.1 parent 0 now else s
    | none => s
  return (ino, s)

/-- `RMDIR_LUA`, called with the inode the caller has looked up. -/
def rmdir (place : Place) (child : Ino) (now : Int) : Script (Unit × Store) := do
  check (s.hget place = some child) .notFound (some place.1)
  let node ← need (s.nodes child) .nodeNotFound (some child)
  check (node.kind = .dir) .notDirectory (some child)
  check (s.hlen child = 0) .dirNotEmpty (some child)
  let s :=
    match s.nodes place.1 with
    | some parent => touchParent s place.1 parent (-1) now
    | none => s
  let s := s.hdel place
  let s := s.delNode child
  let s := s.delDir child
  let s := s.setTrash child none
  return ((), s)

structure RenameReply where
  ino : Ino
  replaced : Option Ino
  sourceIsDir : Bool
  replacedIsDir : Bool
  renamed : Bool

variable (target : Ino)

/-- The other path of a replaced node with two links, as `RENAME_LUA` verifies it. -/
def survivingPath (members : List Bytes) (place : Place) : Script (Ino × Bytes) := do
  let other :=
    match members with
    | first :: second :: _ => if first = place.member then second else first
    | _ => []
  let path ← need (matchMember other) .corruptLinkParents (some target)
  check (0 < path.1 ∧ s.hgetText path.1 path.2 = some target) .corruptLinkParents (some target)
  return path

def remainingPath (nlink : Int) (members : List Bytes) (place : Place) : Script (Ino × Bytes) :=
  if nlink = 2 then survivingPath s target members place else pure (0, [])

/-- The writes of `RENAME_LUA` for a file replaced by a file. -/
def replaceFile (node : StoredNode) (place : Place) (now : Int) : Script Store := do
  let members := s.linkParents target
  let nlink := node.attr.nlink
  check (nlink ≤ 1 ∨ ((members.length : Int) = nlink ∧ place.member ∈ members))
    .corruptLinkParents (some target)
  let remaining ← remainingPath s target nlink members place
  let saved := node.dropTarget remaining now
  let s ← stageTrash s (nlink - 1 ≤ 0) target place
  let s := s.hdel place
  let s := s.setLinkParents target (dropTargetMembers node members place)
  let s := if nlink - 1 ≤ 0 then s.setDeleted target true else s
  return s.setNode target saved

/-- The writes of `RENAME_LUA` for an empty directory replaced by a directory. -/
def replaceDir (place : Place) : Script Store := do
  check (s.hlen target = 0) .targetDirNotEmpty (some target)
  let s := s.hdel place
  let s := s.delNode target
  let s := s.delDir target
  return s.setTrash target none

/-- The writes of `RENAME_LUA` for an existing destination entry. -/
def replaceTarget (child : StoredNode) (target : Ino) (place : Place) (now : Int) :
    Script (Bool × Store) := do
  let node ← need (s.nodes target) .corruptNode none
  if child.kind = .dir then
    check (node.kind = .dir) .targetNotDirectory (some target)
    let s ← replaceDir s target place
    return (true, s)
  else
    check (node.kind ≠ .dir) .targetIsDirectory (some target)
    let s ← replaceFile s target node place now
    return (false, s)

/-- The parent records `RENAME_LUA` writes last, from the values read before any write. -/
def touchParents (s before : Store) (source target : Place) (newParent : StoredNode)
    (childIsDir replacedDir : Bool) (now : Int) : Store :=
  let s :=
    match before.nodes source.1 with
    | some oldParent =>
      if source.1 ≠ target.1 then
        touchParent s source.1 oldParent (if childIsDir then -1 else 0) now
      else s
    | none => s
  touchParent s target.1 newParent
    ((if childIsDir ∧ source.1 ≠ target.1 then 1 else 0) + (if replacedDir then -1 else 0)) now

/-- The writes of `RENAME_LUA` for the moved entry, its node and the parents. -/
def moveEntry (before s : Store) (ino : Ino) (child newParent : StoredNode) (source target : Place)
    (replacedDir : Bool) (now : Int) : Script Store := do
  let members ← need (moveLinkMembers child (before.linkParents ino) source target)
    .linkParentNotFound (some ino)
  let s := s.setLinkParents ino members
  let s := s.hdel source
  let s := s.hset target ino
  let s := s.setNode ino (child.moveLink target now)
  return touchParents s before source target newParent (child.kind = .dir) replacedDir now

/-- A directory may only move to a place outside itself. -/
def checkMove (node : StoredNode) (ino : Ino) (target : Place) : Script Unit :=
  if node.kind = .dir then validateAncestry s ino maxDepth [] target.1 else .ok ()

/-- `RENAME_LUA` -/
def rename (source target : Place) (noreplace : Bool) (now : Int) :
    Script (RenameReply × Store) := do
  let ino ← need (s.hget source) .notFound (some source.1)
  let newParent ← need (s.nodes target.1) .parentNotFound (some target.1)
  check (newParent.kind = .dir) .parentNotDirectory (some target.1)
  let child ← need (s.nodes ino) .nodeNotFound (some ino)
  checkMove s child ino target
  let isDir : Bool := child.kind = .dir
  match s.hget target with
  | none =>
    let moved ← moveEntry s s ino child newParent source target false now
    return (⟨ino, none, isDir, false, true⟩, moved)
  | some replaced =>
    check (noreplace = false) .alreadyExists (some replaced)
    if replaced = ino then return (⟨ino, none, isDir, false, false⟩, s)
    else
      let (replacedDir, cleared) ← replaceTarget s child replaced target now
      let moved ← moveEntry s cleared ino child newParent source target replacedDir now
      return (⟨ino, some replaced, isDir, replacedDir, true⟩, moved)

/-- The parent records `RENAME_EXCHANGE_LUA` writes last. -/
def touchExchanged (old new : Place) (oldParent newParent : StoredNode)
    (oldIsDir newIsDir : Bool) (now : Int) : Store :=
  if old.1 = new.1 then touchParent s old.1 oldParent 0 now
  else
    let delta : Int := (if newIsDir then 1 else 0) - (if oldIsDir then 1 else 0)
    touchParent (touchParent s new.1 newParent (-delta) now) old.1 oldParent delta now

/-- `RENAME_EXCHANGE_LUA` -/
def renameExchange (old new : Place) (now : Int) : Script ((Ino × Ino) × Store) := do
  let oldIno ← need (s.hget old) .oldNotFound (some old.1)
  let newIno ← need (s.hget new) .newNotFound (some new.1)
  if oldIno = newIno then return ((oldIno, newIno), s)
  else
    let oldNode ← need (s.nodes oldIno) .corruptNode none
    let newNode ← need (s.nodes newIno) .corruptNode none
    checkMove s oldNode oldIno new
    checkMove s newNode newIno old
    let oldParent ← need (s.nodes old.1) .corruptAncestry none
    check (oldParent.kind = .dir) .corruptAncestry none
    let newParent ← need (s.nodes new.1) .corruptAncestry none
    check (newParent.kind = .dir) .corruptAncestry none
    check (oldNode.inline = true ∨ old.member ∈ s.linkParents oldIno) .linkParentNotFound none
    check (newNode.inline = true ∨ new.member ∈ s.linkParents newIno) .linkParentNotFound none
    -- From here on the script writes; the two searches below succeed because of the last checks.
    let swapped := (s.hset old newIno).hset new oldIno
    let oldMembers ← need (moveLinkMembers oldNode (s.linkParents oldIno) old new)
      .linkParentNotFound none
    let newMembers ← need (moveLinkMembers newNode (s.linkParents newIno) new old)
      .linkParentNotFound none
    let moved := (swapped.setLinkParents oldIno oldMembers).setLinkParents newIno newMembers
    let saved := (moved.setNode oldIno (oldNode.moveLink new now)).setNode newIno
      (newNode.moveLink old now)
    return ((oldIno, newIno), touchExchanged saved old new oldParent newParent (oldNode.kind = .dir)
        (newNode.kind = .dir) now)

/-- `restore_trash.lua` -/
def restoreTrash (ino : Ino) (place : Place) (now : Int) : Script (Unit × Store) := do
  let node ← need (s.nodes ino) .notFound none
  check (node.deleted = true ∧ node.attr.nlink = 0 ∧ s.deletedSet ino = true) .notDeleted none
  let parent ← need (s.nodes place.1) .parentNotFound none
  check (parent.kind = .dir ∧ parent.deleted = false) .parentNotDirectory none
  check (s.hget place = none) .alreadyExists none
  let s := s.setTrash ino none
  let s := s.setNode ino (node.revived place now)
  let s := s.setDeleted ino false
  let s := s.hset place ino
  return ((), touchParent s place.1 parent 0 now)

/-- `REMOVE_FILE_METADATA_LUA` -/
def removeFileMetadata (ino : Ino) : Script (Unit × Store) :=
  match s.nodes ino with
  | none => return ((), (s.setDeleted ino false).setTrash ino none)
  | some node => do
    check (node.deleted = true) .notDeleted none
    return ((), ((s.setDeleted ino false).delNode ino).setTrash ino none)

end BrewFs.Meta.Redis
