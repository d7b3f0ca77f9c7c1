import BrewFs.Library.Keys
import BrewFs.Library.Text

/-! The keys of the Redis metadata store: node records, directory hashes, link-parent sets,
the deleted set and the inode counter, with the commands the scripts issue on them. -/

namespace BrewFs.Meta.Redis

open BrewFs.Text (Bytes toNumber)
open Function (update)

abbrev Ino := Nat

def rootInode : Ino := 1

/-- An entry name: a non-empty byte string without `/` and NUL. -/
abbrev Name := { bytes : Bytes // bytes ≠ [] ∧ (47 : UInt8) ∉ bytes ∧ (0 : UInt8) ∉ bytes }

/-- A directory entry's place: the directory and the name in it. -/
abbrev Place := Ino × Name

inductive NodeKind where
  | file
  | dir
  | symlink
  | fifo
  | socket
  | charDevice
  | blockDevice
deriving DecidableEq, Repr

structure StoredAttr where
  size : Nat
  blocks : Option Nat
  mode : UInt32
  rdev : UInt32
  uid : UInt32
  gid : UInt32
  atime : Int
  mtime : Int
  ctime : Int
  nlink : Int
deriving DecidableEq

structure StoredNode where
  ino : Ino
  parent : Ino
  name : Bytes
  kind : NodeKind
  attr : StoredAttr
  symlinkTarget : Option Bytes
  deleted : Bool
deriving DecidableEq

/-! ### Link-parent members -/

/-- The separator of a link-parent member. -/
def colon : UInt8 := 58

/-- `parent .. ":" .. name` -/
def member (parent : Ino) (name : Bytes) : Bytes := Text.decimal parent ++ colon :: name

def Place.member (place : Place) : Bytes := Redis.member place.1 place.2.val

/-- A member split at its first colon; both sides must be non-empty. -/
def splitMember (text : Bytes) : Option (Ino × Bytes) :=
  match Text.splitFirst colon text with
  | none => none
  | some (front, back) =>
    if front ≠ [] ∧ back ≠ [] then (toNumber front).map (·, back) else none

/-- `string.match(text, "^(%d+):(.+)$")` -/
def matchMember (text : Bytes) : Option (Ino × Bytes) :=
  match text.dropWhile Text.isDigit with
  | [] => none
  | first :: back =>
    if first = colon ∧ back ≠ [] then
      (toNumber (text.takeWhile Text.isDigit)).map (·, back)
    else none

variable (node : StoredNode) (members : List Bytes)

def sadd (text : Bytes) : List Bytes :=
  if text ∈ members then members else members ++ [text]

def srem (text : Bytes) : List Bytes := members.filter (· ≠ text)

/-! ### One node's link bookkeeping -/

def StoredNode.touched (now : Int) : StoredNode :=
  { node with attr := { node.attr with mtime := now, ctime := now } }

def StoredNode.addNlink (delta : Int) : StoredNode :=
  { node with attr := { node.attr with nlink := node.attr.nlink + delta } }

/-- The node `LINK_LUA` saves. -/
def StoredNode.addLink (now : Int) : StoredNode := { node with
    parent := if node.attr.nlink = 1 then 0 else node.parent
    name := if node.attr.nlink = 1 then [] else node.name
    attr := { node.attr with nlink := node.attr.nlink + 1, ctime := now } }

variable (place : Place)

/-- The link-parent set after `LINK_LUA`: the first hard link records the inline path too. -/
def addLinkMembers : List Bytes :=
  let members :=
    if node.attr.nlink = 1 then sadd members (member node.parent node.name) else members
  sadd members place.member

def unlinkedNlink (nlink : Int) : Int := if nlink > 0 then nlink - 1 else nlink

/-- The members `UNLINK_LUA` finds besides the removed one. -/
def remainingMembers : List Bytes :=
  members.filter (· ≠ place.member)

/-- The path `UNLINK_LUA` restores from the last member: the runs without a colon, the first as the
parent, the others joined as the name. -/
def restoredPath (text : Bytes) : Ino × Bytes :=
  match Text.fields colon text with
  | parent :: first :: rest =>
    ((toNumber parent).getD 0, [colon].intercalate (first :: rest))
  | _ => (node.parent, node.name)

/-- The node `UNLINK_LUA` saves. -/
def StoredNode.dropLink (now : Int) : StoredNode :=
  let nlink := unlinkedNlink node.attr.nlink
  let path :=
    if nlink = 1 then
      match remainingMembers members place with
      | [text] => restoredPath node text
      | _ => (node.parent, node.name)
    else (node.parent, node.name)
  { node with
    parent := path.1
    name := path.2
    attr := { node.attr with nlink := nlink, ctime := now }
    deleted := node.deleted || nlink = 0 }

/-- The link-parent set after `UNLINK_LUA`. -/
def dropLinkMembers : List Bytes :=
  if unlinkedNlink node.attr.nlink = 1 ∧ (remainingMembers members place).length = 1 then []
  else srem members place.member

/-- The replaced node `RENAME_LUA` saves; `remaining`: the path of its other link when it had two.
-/
def StoredNode.dropTarget (remaining : Ino × Bytes) (now : Int) : StoredNode :=
  let nlink := node.attr.nlink - 1
  if nlink ≤ 0 then
    { node with attr := { node.attr with nlink := 0, ctime := now }, deleted := true }
  else
    { node with
      parent := if nlink = 1 then remaining.1 else node.parent
      name := if nlink = 1 then remaining.2 else node.name
      attr := { node.attr with nlink := nlink, ctime := now } }

/-- The replaced node's link-parent set after `RENAME_LUA`. -/
def dropTargetMembers : List Bytes :=
  if node.attr.nlink - 1 ≤ 1 then [] else srem members place.member

/-- Directories and files with one link keep their path in the node. -/
def StoredNode.inline : Bool := node.kind = .dir || node.attr.nlink ≤ 1

/-- The node after one of its links moved to `target`. -/
def StoredNode.moveLink (target : Place) (now : Int) : StoredNode := { node with
    parent := if node.inline then target.1 else 0
    name := if node.inline then target.2.val else []
    attr := { node.attr with mtime := now, ctime := now } }

/-- The members with the one of `source` replaced, or nothing without one. -/
def replaceMember (source target : Place) : Option (List Bytes) :=
  let isSource := fun text => splitMember text = some (source.1, source.2.val)
  if members.any isSource then
    some ((members.map fun text => if isSource text then target.member else text).foldl sadd [])
  else none

/-- The link-parent set after a link moved. -/
def moveLinkMembers (source target : Place) : Option (List Bytes) :=
  if node.inline then some members else replaceMember members source target

/-- The node `restore_trash.lua` saves. -/
def StoredNode.revived (now : Int) : StoredNode := { node with
    deleted := false
    parent := place.1
    name := place.2.val
    attr := { node.attr with nlink := 1, ctime := now } }

/-! ### The store -/

structure Store where
  /-- `i<ino>` -/
  nodes : Ino → Option StoredNode
  /-- The directory hashes `d<ino>`, all in one map. -/
  dirs : AList fun _ : Place => Ino
  /-- `lp<ino>` -/
  linkParents : Ino → List Bytes
  /-- The fields of the deleted-inode hash. -/
  deletedSet : Ino → Bool
  /-- The trash attribute of an inode: the components of its original path. -/
  trash : Ino → Option (List Bytes)
  /-- The last allocated inode number. -/
  counter : Nat

namespace Store

variable (s : Store)

def hget (place : Place) : Option Ino := s.dirs.lookup place

variable (ino : Ino)

def hlen : Nat := Keys.count (fun place : Place => place.1 = ino) s.dirs

/-- The entry a parsed name stands for; a text that is no name is no field. -/
def hgetText (parent : Ino) (text : Bytes) : Option Ino :=
  if valid : text ≠ [] ∧ (47 : UInt8) ∉ text ∧ (0 : UInt8) ∉ text then
    s.hget (parent, ⟨text, valid⟩)
  else none

@[simps -fullyApplied] def setNode (node : StoredNode) : Store :=
  { s with nodes := update s.nodes ino (some node) }

@[simps -fullyApplied] def delNode : Store :=
  { s with nodes := update s.nodes ino none }

@[simps -fullyApplied] def hset (place : Place) (ino : Ino) : Store :=
  { s with dirs := s.dirs.insert place ino }

@[simps -fullyApplied] def hdel (place : Place) : Store :=
  { s with dirs := s.dirs.erase place }

@[simps -fullyApplied] def delDir : Store :=
  { s with dirs := Keys.remove (fun place : Place => place.1 = ino) s.dirs }

@[simps -fullyApplied] def setLinkParents (members : List Bytes) : Store :=
  { s with linkParents := update s.linkParents ino members }

@[simps -fullyApplied] def setDeleted (deleted : Bool) : Store :=
  { s with deletedSet := update s.deletedSet ino deleted }

@[simps -fullyApplied] def setTrash (path : Option (List Bytes)) : Store :=
  { s with trash := update s.trash ino path }

@[simps -fullyApplied] def incr : Store := { s with counter := s.counter + 1 }

end Store

/-- The root node `init_root_directory` writes. -/
def rootNode (now : Int) : StoredNode where
  ino := rootInode
  parent := rootInode
  name := [47]
  kind := .dir
  attr :=
    { size := 0, blocks := some 0, mode := 0o040755, rdev := 0, uid := 0, gid := 0
      atime := now, mtime := now, ctime := now, nlink := 2 }
  symlinkTarget := none
  deleted := false

/-- A freshly initialised store. -/
def initialStore (now : Int) : Store where
  nodes := update (fun _ => none) rootInode (some (rootNode now))
  dirs := ∅
  linkParents := fun _ => []
  deletedSet := fun _ => false
  trash := fun _ => none
  counter := rootInode + 1

end BrewFs.Meta.Redis
