import BrewFs.Library.Guard
import BrewFs.Library.Keys

/-! The namespace tables of the SQL store: directory rows, file rows, directory entries,
link-parent rows and the trash attribute, with the statements the transactions issue. -/

namespace BrewFs.Meta.Database

open Function (update)

abbrev Ino := Nat

def rootIno : Ino := 1

/-- A directory entry's key: the parent directory and the name in it. -/
abbrev Place := Ino × String

inductive FileType where
  | file
  | dir
  | symlink
  | fifo
  | socket
  | charDevice
  | blockDevice
deriving DecidableEq, Repr

namespace FileType

def fromMode (mode : UInt32) : FileType :=
  let bits := mode &&& 0o170000
  if bits = 0o040000 then .dir
  else if bits = 0o120000 then .symlink
  else if bits = 0o010000 then .fifo
  else if bits = 0o140000 then .socket
  else if bits = 0o020000 then .charDevice
  else if bits = 0o060000 then .blockDevice
  else .file

def modeTypeBits : FileType → UInt32
  | file => 0o100000
  | dir => 0o040000
  | symlink => 0o120000
  | fifo => 0o010000
  | socket => 0o140000
  | charDevice => 0o020000
  | blockDevice => 0o060000

variable (kind : FileType)

def isDir : Bool := kind = .dir

def isSymlink : Bool := kind = .symlink

theorem fromMode_modeTypeBits (kind : FileType) (mode : UInt32) :
    fromMode (kind.modeTypeBits ||| (mode &&& 0o7777)) = kind := by
  have bits : (kind.modeTypeBits ||| (mode &&& 0o7777)) &&& 0o170000 = kind.modeTypeBits := by
    apply UInt32.toBitVec_inj.mp
    rw [UInt32.toBitVec_and, UInt32.toBitVec_or, UInt32.toBitVec_and, BitVec.and_or_distrib_right,
      BitVec.and_assoc,
      show (0o7777 : UInt32).toBitVec &&& (0o170000 : UInt32).toBitVec = 0#32 by decide,
      BitVec.and_zero]
    cases kind <;> decide
  unfold fromMode
  simp only [bits]
  cases kind <;> decide

end FileType

inductive EntryType where
  | file
  | directory
  | symlink
  | fifo
  | socket
  | charDevice
  | blockDevice
deriving DecidableEq, Repr

def EntryType.toFileType : EntryType → FileType
  | file => .file
  | directory => .dir
  | symlink => .symlink
  | fifo => .fifo
  | socket => .socket
  | charDevice => .charDevice
  | blockDevice => .blockDevice

def fileTypeToEntryType : FileType → EntryType
  | .file => .file
  | .dir => .directory
  | .symlink => .symlink
  | .fifo => .fifo
  | .socket => .socket
  | .charDevice => .charDevice
  | .blockDevice => .blockDevice

@[simp] theorem toFileType_fileTypeToEntryType (kind : FileType) :
    (fileTypeToEntryType kind).toFileType = kind := by
  cases kind <;> rfl

@[simp] theorem EntryType.toFileType_isDir (type : EntryType) :
    type.toFileType.isDir = true ↔ type = .directory := by
  cases type <;> decide

structure Permission where
  mode : UInt32
  uid : UInt32
  gid : UInt32
deriving DecidableEq, Repr

namespace Permission

variable (permission : Permission)

def fileTypeBits : UInt32 := permission.mode &&& 0o170000

def isDirectory : Bool := permission.fileTypeBits &&& 0o040000 = 0o040000

def defaultDirectory (uid gid : UInt32) : Permission := ⟨0o040755, uid, gid⟩

/-- The group of an entry created under a directory with this permission. -/
def inheritedGid (gid : UInt32) : UInt32 :=
  if permission.mode &&& 0o2000 ≠ 0 then permission.gid else gid

end Permission

/-- A row of `access_meta`: one directory. -/
structure AccessMeta where
  permission : Permission
  accessTime : Int
  modifyTime : Int
  createTime : Int
  nlink : Int
deriving DecidableEq

/-- A row of `file_meta`: one inode that is not a directory. `parent` is 0 when unset. -/
structure FileMeta where
  size : Int
  rdev : Int
  permission : Permission
  accessTime : Int
  modifyTime : Int
  createTime : Int
  nlink : Int
  parent : Ino
  deleted : Bool
  symlinkTarget : Option String
deriving DecidableEq

/-- The kind `file_meta_to_attr` reports. -/
def FileMeta.kind (file : FileMeta) : FileType :=
  if file.symlinkTarget.isSome then .symlink else .fromMode file.permission.mode

/-- A row of `content_meta` without its key. -/
structure Entry where
  inode : Ino
  entryType : EntryType
deriving DecidableEq, Repr

structure Namespace where
  access : Ino → Option AccessMeta
  files : Ino → Option FileMeta
  contents : AList fun _ : Place => Entry
  /-- The rows of `link_parent_meta` by inode; the whole row is the table's key. -/
  linkParents : Ino → Finset Place
  /-- The control-trash attribute in `xattr_meta`: the components of the original path. -/
  trash : Ino → Option (List String)
  /-- The value of the inode counter: the next inode number. -/
  counter : Nat

namespace Namespace

variable (s : Namespace)

def find (place : Place) : Option Entry := s.contents.lookup place

variable (ino : Ino)

/-- The rows of `content_meta` that name an inode. -/
def rowsNaming : List (Σ _ : Place, Entry) :=
  s.contents.entries.filter fun row => row.2.inode = ino

/-- `find().filter(inode).one()`: some row that names the inode. -/
def entryNaming : Option Place := (s.rowsNaming ino).head?.map Sigma.fst

/-- `find().filter(parent_inode).count()` -/
def childCount : Nat :=
  Keys.count (fun place : Place => place.1 = ino) s.contents

/-- The directory entries that name an inode. -/
def links : Finset Place :=
  Keys.keysWhere (fun entry : Entry => entry.inode = ino) s.contents

@[simps -fullyApplied] def setAccess (row : AccessMeta) : Namespace :=
  { s with access := update s.access ino (some row) }

@[simps -fullyApplied] def deleteAccess : Namespace :=
  { s with access := update s.access ino none }

@[simps -fullyApplied] def setFile (row : FileMeta) : Namespace :=
  { s with files := update s.files ino (some row) }

@[simps -fullyApplied] def setEntry (place : Place) (entry : Entry) : Namespace :=
  { s with contents := s.contents.insert place entry }

@[simps -fullyApplied] def deleteEntry (place : Place) : Namespace :=
  { s with contents := s.contents.erase place }

@[simps -fullyApplied] def setLinkParents (rows : Finset Place) : Namespace :=
  { s with linkParents := update s.linkParents ino rows }

@[simps -fullyApplied] def setTrash (path : Option (List String)) : Namespace :=
  { s with trash := update s.trash ino path }

@[simps -fullyApplied] def setCounter (value : Nat) : Namespace :=
  { s with counter := value }

theorem mem_links (ino : Ino) (place : Place) :
    place ∈ s.links ino ↔ ∃ entry, s.find place = some entry ∧ entry.inode = ino := by
  unfold links find
  simp

theorem mem_rowsNaming (ino : Ino) (row : Σ _ : Place, Entry) :
    row ∈ s.rowsNaming ino ↔ s.find row.1 = some row.2 ∧ row.2.inode = ino := by
  unfold rowsNaming find
  rw [← Option.mem_def, AList.mem_lookup_iff]
  simp

theorem mem_links_of_entryNaming {s : Namespace} {ino : Ino} {place : Place}
    (found : s.entryNaming ino = some place) : place ∈ s.links ino := by
  obtain ⟨row, first, rfl⟩ := Option.map_eq_some_iff.mp found
  have row_mem := (s.mem_rowsNaming ino row).mp (List.mem_of_mem_head? first)
  exact (s.mem_links ino row.1).mpr ⟨row.2, row_mem⟩

theorem childCount_eq_zero (ino : Ino) :
    s.childCount ino = 0 ↔ ∀ place : Place, place.1 = ino → s.find place = none := by
  unfold childCount find
  rw [Keys.count_eq_zero]
  simp

end Namespace

/-- The tables after `initialize`: the root's row alone. -/
def initialNamespace (now : Int) : Namespace where
  access := update (fun _ => none) rootIno (some ⟨⟨0o40755, 0, 0⟩, now, now, now, 2⟩)
  files := fun _ => none
  contents := ∅
  linkParents := fun _ => ∅
  trash := fun _ => none
  counter := rootIno + 1

end BrewFs.Meta.Database
