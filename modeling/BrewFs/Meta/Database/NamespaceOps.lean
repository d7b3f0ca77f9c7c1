import BrewFs.Meta.Database.Namespace

/-! The namespace transactions of the SQL store. A transaction either fails, and is rolled
back, or answers with its reply and the tables it commits. -/

namespace BrewFs.Meta.Database

inductive MetaError where
  | parentNotFound (ino : Ino)
  | notFound (ino : Ino)
  | entryNotFound (place : Place)
  | alreadyExists (place : Place)
  | notDirectory (ino : Ino)
  | directoryNotEmpty (ino : Ino)
  | notSupported (text : String)
  | invalidPath (text : String)
  | internal (text : String)
  /-- `Io` with `ErrorKind::NotADirectory` -/
  | ioNotADirectory
  /-- `Io` with `ErrorKind::IsADirectory` -/
  | ioIsADirectory
  /-- `Database`: a statement violated a primary key. -/
  | database
deriving DecidableEq

abbrev Txn := Except MetaError

open Guard (need check)

namespace Namespace

/-! ### Insert statements -/

variable (s : Namespace)

def insertAccess (ino : Ino) (row : AccessMeta) : Txn Namespace := do
  check (s.access ino = none) MetaError.database
  return s.setAccess ino row

def insertFile (ino : Ino) (row : FileMeta) : Txn Namespace := do
  check (s.files ino = none) MetaError.database
  return s.setFile ino row

def insertEntry (place : Place) (entry : Entry) : Txn Namespace := do
  check (s.find place = none) MetaError.database
  return s.setEntry place entry

def insertLinkParent (ino : Ino) (place : Place) : Txn Namespace := do
  check (place ∉ s.linkParents ino) MetaError.database
  return s.setLinkParents ino (insert place (s.linkParents ino))

def deleteLinkParent (ino : Ino) (place : Place) : Namespace :=
  s.setLinkParents ino ((s.linkParents ino).erase place)

end Namespace

/-! ### Shared parts -/

def i64Max : Nat := 2 ^ 63 - 1

def i32Max : Int := 2147483647

variable (s : Namespace)

/-- `alloc_counter_id(INODE_ID_KEY)`, committed before the transaction that uses it. -/
def allocInode : Txn (Ino × Namespace) := do
  check (s.counter < i64Max)
    (.internal "counter missing or overflowed for key brewfs:next_inode_id")
  return (s.counter, s.setCounter (s.counter + 1))

/-- `lock_namespace_for_rename`: the root row is there to be locked. -/
def lockNamespaceForRename : Txn Unit :=
  check ((s.access rootIno).isSome = true) (.parentNotFound rootIno)

/-- Read a directory row again and store its new modification time. -/
def touchParent (ino : Ino) (missing : MetaError) (now : Int) : Txn Namespace := do
  let row ← need (s.access ino) missing
  return s.setAccess ino { row with modifyTime := now }

/-- No ancestry walk is longer: it visits no inode twice, and only those named in `content_meta`. -/
def maxDepth : Nat := s.contents.keys.length + 1

/-- The loop of `record_trash_in_transaction` over the removed entry's parents. -/
def trashPath (s : Namespace) : Nat → List Ino → Ino → List String → Txn (List String)
  | depth, visited, parent, parts =>
    if parent = rootIno then .ok parts
    else
      match depth with
      | 0 => .error (.invalidPath "cyclic trash ancestry")
      | depth + 1 =>
        if parent ∈ visited then .error (.invalidPath "cyclic trash ancestry")
        else
          match s.rowsNaming parent with
          | [row] =>
            if row.2.entryType ≠ .directory then .error (.invalidPath "invalid trash ancestry")
            else trashPath s depth (parent :: visited) row.1.1 (row.1.2 :: parts)
          | _ => .error (.invalidPath "invalid trash ancestry")

/-- `record_trash_in_transaction` -/
def recordTrash (ino : Ino) (place : Place) : Txn Namespace := do
  let path ← trashPath s (maxDepth s) [] place.1 [place.2]
  return s.setTrash ino (some path)

/-- `validate_directory_move_in_transaction`: `parent` is not below `ancestor`. -/
def validateDirectoryMove (s : Namespace) (ancestor : Ino) : Nat → List Ino → Ino → Txn Unit
  | depth, visited, parent =>
    if parent = ancestor then
      .error (.invalidPath s!"cannot move directory inode {ancestor} below itself")
    else if parent = rootIno then .ok ()
    else
      match depth with
      | 0 => .error (.invalidPath s!"directory ancestry contains a cycle at inode {parent}")
      | depth + 1 =>
        if parent ∈ visited then
          .error (.invalidPath s!"directory ancestry contains a cycle at inode {parent}")
        else
          match s.rowsNaming parent with
          | [row] =>
            if row.2.entryType.toFileType.isDir = false ∨ row.1.1 = parent then
              .error (.invalidPath s!"invalid directory ancestry at inode {parent}")
            else validateDirectoryMove s ancestor depth (parent :: visited) row.1.1
          | _ => .error (.invalidPath s!"invalid directory ancestry at inode {parent}")

/-- The ancestry check of a move, made for directories only. -/
def validateMove (entry : Entry) (parent : Ino) : Txn Unit :=
  if entry.entryType.toFileType.isDir = true then
    validateDirectoryMove s entry.inode (maxDepth s) [] parent
  else .ok ()

/-! ### Creation -/

variable (inode : Ino) (place : Place)

/-- The statements that add a file row and its first entry. -/
def addNode (file : FileMeta) (entryType : EntryType) (now : Int) : Txn (Ino × Namespace) := do
  let s ← s.insertFile inode file
  let s ← s.insertEntry place ⟨inode, entryType⟩
  let s ← touchParent s place.1 (.parentNotFound place.1) now
  return (inode, s)

def newFile (place : Place) (permission : Permission) (now : Int) : FileMeta where
  size := 0
  rdev := 0
  permission := permission
  accessTime := now
  modifyTime := now
  createTime := now
  nlink := 1
  parent := place.1
  deleted := false
  symlinkTarget := none

/-- `create_directory` after the allocation -/
def createDirectory (now : Int) : Txn (Ino × Namespace) := do
  let parent ← need (s.access place.1) (.parentNotFound place.1)
  check (s.find place = none) (.alreadyExists place)
  let permission := Permission.defaultDirectory 0 (parent.permission.inheritedGid 0)
  let s ← s.insertAccess inode ⟨permission, now, now, now, 2⟩
  let s ← s.insertEntry place ⟨inode, .directory⟩
  let s ← touchParent s place.1 (.parentNotFound place.1) now
  return (inode, s)

/-- `create_file_internal` after the allocation -/
def createFile (now : Int) : Txn (Ino × Namespace) := do
  let parent ← need (s.access place.1) (.parentNotFound place.1)
  check (s.find place = none) (.alreadyExists place)
  let permission : Permission := ⟨0o100644, 0, parent.permission.inheritedGid 0⟩
  addNode s inode place (newFile place permission now) .file now

structure NodeRequest where
  kind : FileType
  mode : UInt32
  uid : UInt32
  gid : UInt32
  rdev : UInt32

/-- `create_node` after the check of the kind and the allocation -/
def createNode (inode : Ino) (place : Place) (request : NodeRequest) (now : Int) :
    Txn (Ino × Namespace) := do
  let parent ← need (s.access place.1) (.parentNotFound place.1)
  check (s.find place = none) (.alreadyExists place)
  let permission : Permission :=
    ⟨request.kind.modeTypeBits ||| (request.mode &&& 0o7777), request.uid,
      parent.permission.inheritedGid request.gid⟩
  let file := { newFile place permission now with rdev := request.rdev.toInt32.toInt }
  addNode s inode place file (fileTypeToEntryType request.kind) now

/-- `symlink` after the allocation -/
def createSymlink (inode : Ino) (place : Place) (target : String) (now : Int) :
    Txn (Ino × Namespace) := do
  let parent ← need (s.access place.1) (.parentNotFound place.1)
  check (parent.permission.isDirectory = true) (.notDirectory place.1)
  check (s.find place = none) (.alreadyExists place)
  let permission : Permission := ⟨0o120777, parent.permission.uid, parent.permission.gid⟩
  let file := { newFile place permission now with
    size := target.utf8ByteSize, symlinkTarget := some target }
  addNode s inode place file .symlink now

/-! ### Links -/

variable (ino : Ino) (file : FileMeta)

/-- The only entry's name, which `link` looks up for a file with one link. -/
def originalName : Txn (Option String) :=
  if file.nlink = 1 then do
    let place ← need (s.entryNaming ino)
      (.internal s!"ContentMeta entry not found for inode {ino}")
    return some place.2
  else return none

/-- The rows `link` adds to `link_parent_meta`: the first hard link adds two. -/
def recordLink (original : Option String) (place : Place) : Txn Namespace :=
  match original with
  | some name => do
    let s ← s.insertLinkParent ino (file.parent, name)
    s.insertLinkParent ino place
  | none => if 1 < file.nlink then s.insertLinkParent ino place else return s

/-- The file row `link` stores. -/
def FileMeta.addLink (file : FileMeta) (now : Int) : FileMeta := { file with
    nlink := min (file.nlink + 1) i32Max
    modifyTime := now
    createTime := now
    deleted := false
    parent := if file.nlink = 1 then 0 else file.parent }

/-- `link` -/
def link (ino : Ino) (place : Place) (now : Int) : Txn (Unit × Namespace) := do
  lockNamespaceForRename s
  check (ino ≠ 1) (.notSupported "cannot create hard links to the root inode")
  let file ← need (s.files ino) (.notFound ino)
  check (file.symlinkTarget = none)
    (.notSupported "cannot create hard links to symbolic links")
  check (file.deleted = false ∧ 0 < file.nlink)
    (.notSupported "cannot create hard link to deleted file")
  let parent ← need (s.access place.1) (.parentNotFound place.1)
  check (parent.permission.isDirectory = true) (.notDirectory place.1)
  check (s.find place = none) (.alreadyExists place)
  let entryType := if file.symlinkTarget.isSome then .symlink else .file
  let original ← originalName s ino file
  let s ← s.insertEntry place ⟨ino, entryType⟩
  let s ← recordLink s ino file original place
  let s := s.setFile ino (file.addLink now)
  let s ← touchParent s place.1 (.parentNotFound place.1) now
  return ((), s)

/-- What `unlink` and a replacing rename do for the file whose entry at `place` goes; `remaining`:
what their query for another entry finds. -/
def dropLink (place : Place) (remaining : Option Place) (now : Int) : Txn Namespace :=
  let file := { file with modifyTime := now, createTime := now }
  if 1 < file.nlink then
    if file.nlink = 2 then do
      let last ← need remaining
        (.internal s!"No remaining ContentMeta found for inode {ino}")
      let s := (s.deleteLinkParent ino place).setLinkParents ino ∅
      return s.setFile ino { file with nlink := file.nlink - 1, deleted := false, parent := last.1 }
    else
      return (s.deleteLinkParent ino place).setFile ino
        { file with nlink := file.nlink - 1, deleted := false }
  else do
    let s ← recordTrash s ino place
    return s.setFile ino { file with nlink := 0, deleted := true, parent := 0 }

/-- `unlink` -/
def unlink (place : Place) (now : Int) : Txn (Unit × Namespace) := do
  lockNamespaceForRename s
  let entry ← need (s.find place)
    (.internal s!"File '{place.2}' not found in parent {place.1}")
  check (entry.entryType ≠ .directory) (.notDirectory entry.inode)
  let file ← need (s.files entry.inode) (.notFound entry.inode)
  let s := s.deleteEntry place
  let s ← dropLink s entry.inode file place (s.entryNaming entry.inode) now
  let s ← touchParent s place.1 (.parentNotFound place.1) now
  return ((), s)

/-- `rmdir` -/
def rmdir (place : Place) (now : Int) : Txn (Unit × Namespace) := do
  let entry ← need ((s.find place).filter fun entry => entry.entryType = .directory)
    (.notFound place.1)
  check (s.childCount entry.inode = 0) (.directoryNotEmpty entry.inode)
  let s := (s.deleteAccess entry.inode).setTrash entry.inode none
  let s := s.deleteEntry place
  let s ← touchParent s place.1 (.parentNotFound place.1) now
  return ((), s)

/-- The file row `restore_deleted_file` stores. -/
def FileMeta.restored (file : FileMeta) (place : Place) (now : Int) : FileMeta :=
  { file with deleted := false, nlink := 1, parent := place.1, modifyTime := now }

/-- `restore_deleted_file` -/
def restoreDeletedFile (ino : Ino) (place : Place) (now : Int) : Txn (Unit × Namespace) := do
  lockNamespaceForRename s
  let _ ← need (s.access place.1) (.parentNotFound place.1)
  check (s.find place = none) (.alreadyExists place)
  let file ← need (s.files ino) (.notFound ino)
  check (file.deleted = true ∧ file.nlink = 0)
    (.notSupported "file is not marked as deleted")
  let entryType := if file.symlinkTarget.isSome then .symlink else .file
  let s ← s.insertEntry place ⟨ino, entryType⟩
  let s := s.setFile ino (file.restored place now)
  let s := s.setTrash ino none
  let s ← touchParent s place.1 (.parentNotFound place.1) now
  return ((), s)

/-! ### Rename -/

structure RenameOutcome where
  ino : Ino
  replacedIno : Option Ino
  sourceIsDir : Bool
  replacedIsDir : Bool
  renamed : Bool
deriving DecidableEq, Repr

/-- The link count `rename_with_mode` reads: the file row's, else the directory row's. -/
def nlinkOf (ino : Ino) : Option Int :=
  match s.files ino with
  | some file => some file.nlink
  | none => (s.access ino).map AccessMeta.nlink

/-- The query of `rename_with_mode` for another entry of the replaced file. -/
def otherEntry (ino : Ino) (place : Place) : Option Place :=
  ((s.rowsNaming ino).filter fun row => row.1 ≠ place).head?.map Sigma.fst

/-- A rename replaces the entry that is at its target. -/
def replaceTarget (entry existing : Entry) (target : Place) (now : Int) : Txn Namespace :=
  match entry.entryType.toFileType.isDir, existing.entryType.toFileType.isDir with
  | true, true => do
    check (s.childCount existing.inode = 0) (.directoryNotEmpty existing.inode)
    let s := (s.deleteAccess existing.inode).setTrash existing.inode none
    return s.deleteEntry target
  | true, false => .error .ioNotADirectory
  | false, true => .error .ioIsADirectory
  | false, false => do
    let file ← need (s.files existing.inode) (.notFound existing.inode)
    let s ← dropLink s existing.inode file target (otherEntry s existing.inode target) now
    return s.deleteEntry target

/-- The link bookkeeping of the renamed inode. -/
def relink (ino : Ino) (file : Option FileMeta) (nlink : Int)
    (source target : Place) (now : Int) : Txn Namespace :=
  if 1 < nlink then (s.deleteLinkParent ino source).insertLinkParent ino target
  else
    match file with
    | some file =>
      if nlink = 1 then
        return s.setFile ino { file with parent := target.1, modifyTime := now }
      else return s
    | none => return s

def touchParents (source target : Ino) (missing : MetaError) (now : Int) : Txn Namespace := do
  let s ← touchParent s source (.parentNotFound source) now
  if source ≠ target then touchParent s target missing now else return s

/-- The statements of a rename once its target is free. -/
def moveEntry (entry : Entry) (file : Option FileMeta) (nlink : Int)
    (source target : Place) (now : Int) : Txn Namespace := do
  let s := s.deleteEntry source
  let s ← s.insertEntry target entry
  let s ← relink s entry.inode file nlink source target now
  touchParents s source.1 target.1 (.notFound target.1) now

/-- `rename_with_mode` -/
def renameWithMode (source target : Place) (noreplace : Bool) (now : Int) :
    Txn (RenameOutcome × Namespace) := do
  lockNamespaceForRename s
  let newParent ← need (s.access target.1) (.parentNotFound target.1)
  check (newParent.permission.isDirectory = true) (.notDirectory target.1)
  let entry ← need (s.find source)
    (.internal s!"Entry '{source.2}' not found in parent {source.1} for rename")
  validateMove s entry target.1
  let file := s.files entry.inode
  let nlink ← need (nlinkOf s entry.inode) (.notFound entry.inode)
  check (noreplace = false ∨ s.find target = none) (.alreadyExists target)
  let sourceIsDir := entry.entryType.toFileType.isDir
  match s.find target with
  | none =>
    let s ← moveEntry s entry file nlink source target now
    return (⟨entry.inode, none, sourceIsDir, false, true⟩, s)
  | some existing =>
    if existing.inode = entry.inode then
      return (⟨entry.inode, none, sourceIsDir, false, false⟩, s)
    else
      let s ← replaceTarget s entry existing target now
      let s ← moveEntry s entry file nlink source target now
      return (⟨entry.inode, some existing.inode, sourceIsDir,
        existing.entryType.toFileType.isDir, true⟩, s)

/-- The file row of an exchanged entry; directories have none. -/
def exchangedFile (entry : Entry) : Txn (Option FileMeta) :=
  if entry.entryType.toFileType.isDir = true then return none
  else do
    let file ← need (s.files entry.inode) (.notFound entry.inode)
    return some file

/-- The link bookkeeping of one exchanged inode. -/
def relinkExchanged (ino : Ino) (file : Option FileMeta) (source target : Place)
    (now : Int) : Txn Namespace :=
  match file with
  | none => return s
  | some file =>
    if 1 < file.nlink then (s.deleteLinkParent ino source).insertLinkParent ino target
    else return s.setFile ino { file with parent := target.1, modifyTime := now }

/-- The statements of an exchange of two entries. -/
def exchangeEntries (old new : Entry) (oldFile newFile : Option FileMeta)
    (source target : Place) (now : Int) : Txn Namespace := do
  let s := (s.deleteEntry source).deleteEntry target
  let s ← s.insertEntry source new
  let s ← s.insertEntry target old
  let s ← relinkExchanged s old.inode oldFile source target now
  let s ← relinkExchanged s new.inode newFile target source now
  touchParents s source.1 target.1 (.parentNotFound target.1) now

/-- `rename_exchange` -/
def renameExchange (source target : Place) (now : Int) : Txn (Unit × Namespace) :=
  if source = target then return ((), s)
  else do
    lockNamespaceForRename s
    let old ← need (s.find source) (.entryNotFound source)
    let new ← need (s.find target) (.entryNotFound target)
    if old.inode = new.inode then return ((), s)
    else
      validateMove s old target.1
      validateMove s new source.1
      let oldFile ← exchangedFile s old
      let newFile ← exchangedFile s new
      let s ← exchangeEntries s old new oldFile newFile source target now
      return ((), s)

/-! ### Operations -/

inductive Operation where
  | createFile (place : Place) (now : Int)
  | createNode (place : Place) (request : NodeRequest) (now : Int)
  | symlink (place : Place) (target : String) (now : Int)
  | mkdir (place : Place) (now : Int)
  | rmdir (place : Place) (now : Int)
  | link (ino : Ino) (place : Place) (now : Int)
  | unlink (place : Place) (now : Int)
  | rename (source target : Place) (noreplace : Bool) (now : Int)
  | renameExchange (source target : Place) (now : Int)
  | restoreDeletedFile (ino : Ino) (place : Place) (now : Int)

/-- The tables after a transaction: what it committed, or those before. -/
def settle {α : Type} (s : Namespace) (transaction : Txn (α × Namespace)) : Namespace :=
  match transaction with
  | .ok (_, s') => s'
  | .error _ => s

/-- Allocate an inode and run the transaction; the number is spent either way. -/
def allocating (create : Namespace → Ino → Txn (Ino × Namespace)) : Namespace :=
  match allocInode s with
  | .ok (inode, s) => settle s (create s inode)
  | .error _ => s

def perform : Operation → Namespace
  | .createFile place now => allocating s fun s inode => createFile s inode place now
  | .createNode place request now =>
    if request.kind.isDir || request.kind.isSymlink then s
    else allocating s fun s inode => createNode s inode place request now
  | .symlink place target now => allocating s fun s inode => createSymlink s inode place target now
  | .mkdir place now => allocating s fun s inode => createDirectory s inode place now
  | .rmdir place now => settle s (rmdir s place now)
  | .link ino place now => settle s (link s ino place now)
  | .unlink place now => settle s (unlink s place now)
  | .rename source target noreplace now => settle s (renameWithMode s source target noreplace now)
  | .renameExchange source target now => settle s (renameExchange s source target now)
  | .restoreDeletedFile ino place now => settle s (restoreDeletedFile s ino place now)

def operate (operation : Operation) : Option Namespace := some (perform s operation)

end BrewFs.Meta.Database
