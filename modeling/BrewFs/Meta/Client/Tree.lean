import BrewFs.Meta.Client.InodeCache
import BrewFs.Meta.Database.Paths

/-! The directory tree of a metadata store, as far as a client looks at it. -/

namespace BrewFs.Meta.Client

open Function (update update_of_ne update_self)

/-- The entries of the directories. -/
abbrev DirStore (Name : Type) := Nat → ChildrenMap Name

namespace DirStore

variable {Name : Type} [DecidableEq Name]

def set (store : DirStore Name) (dir : Nat) (name : Name) (entry : Option Nat) : DirStore Name :=
  update store dir (update (store dir) name entry)

variable (store : DirStore Name) (parent : Nat) (name : Name)

/-- A new entry, unless the name is taken. -/
def create (ino : Nat) : Option (DirStore Name) :=
  match store parent name with
  | none => some (store.set parent name (some ino))
  | some _ => none

def remove : Option (DirStore Name) :=
  (store parent name).map fun _ => store.set parent name none

variable {store new : DirStore Name} {parent dir ino : Nat} {name other : Name} {entry : Option Nat}

theorem set_changes (changed : store.set parent name entry dir other ≠ store dir other) :
    dir = parent ∧ other = name := by
  by_cases sameDir : dir = parent
  · subst sameDir
    rw [set, update_self] at changed
    exact ⟨rfl, Classical.byContradiction fun differs =>
      changed (update_of_ne differs ..)⟩
  · rw [set, update_of_ne sameDir] at changed
    exact absurd rfl changed

theorem set_set_changes {first second : Nat} {firstName secondName : Name}
    {firstEntry secondEntry : Option Nat}
    (changed : (store.set first firstName firstEntry).set second secondName secondEntry dir other ≠
      store dir other) :
    dir = first ∧ other = firstName ∨ dir = second ∧ other = secondName := by
  by_cases early : store.set first firstName firstEntry dir other = store dir other
  · rw [← early] at changed
    exact .inr (set_changes changed)
  · exact .inl (set_changes early)

theorem mem_set (here : store.set parent name entry dir other = some ino) :
    (dir, other) = (parent, name) ∧ entry = some ino ∨
      (dir, other) ≠ (parent, name) ∧ store dir other = some ino := by
  by_cases changed : store.set parent name entry dir other = store dir other
  · by_cases same : (dir, other) = (parent, name)
    · cases same
      rw [set, update_self, update_self] at here
      exact .inl ⟨rfl, here⟩
    · exact .inr ⟨same, changed.symm.trans here⟩
  obtain ⟨rfl, rfl⟩ := set_changes changed
  rw [set, update_self, update_self] at here
  exact .inl ⟨rfl, here⟩

theorem create_changes (created : store.create parent name ino = some new)
    (changed : new dir other ≠ store dir other) : dir = parent ∧ other = name := by
  rw [create] at created
  split at created
  · cases created
    exact set_changes changed
  · cases created

theorem remove_changes (removed : store.remove parent name = some new)
    (changed : new dir other ≠ store dir other) : dir = parent ∧ other = name := by
  obtain ⟨_, _, rfl⟩ := Option.map_eq_some_iff.mp removed
  exact set_changes changed

end DirStore

/-- A path text by its pieces between the slashes: `/a//b` is `["", "a", "", "b"]`. -/
abbrev Path := List String

inductive FileType where
  | dir
  | file
  | symlink (target : Path)
deriving DecidableEq, Repr

open Database (rootIno)

/-- The entries of the store's directories. An inode keeps its kind and its number. -/
structure Tree where
  entries : DirStore String
  /-- The place of a directory. -/
  parents : Nat → Option (Nat × String)
  kinds : Nat → FileType
  next : Nat
  place : ∀ {parent name dir}, entries parent name = some dir → kinds dir = .dir →
    parents dir = some (parent, name)
  entry_lt : ∀ {parent name ino}, entries parent name = some ino → ino < next
  root_dir : kinds rootIno = .dir
  root_lt : rootIno < next
  not_root : ∀ {parent name}, entries parent name ≠ some rootIno

namespace Tree

/-- A store with an empty root directory. -/
def empty : Tree where
  entries := fun _ _ => none
  parents := fun _ => none
  kinds := update (fun _ => .file) rootIno .dir
  next := rootIno + 1
  place := nofun
  entry_lt := nofun
  root_dir := update_self ..
  root_lt := Nat.lt_succ_self _
  not_root := nofun

variable (t : Tree) (parent : Nat) (name : String)

/-- A new inode. The store refuses more calls than this and those below; a refused call changes
nothing. -/
def addEntry (kind : FileType) : Tree where
  entries := t.entries.set parent name (some t.next)
  parents := update t.parents t.next (some (parent, name))
  kinds := update t.kinds t.next kind
  next := t.next + 1
  place := by
    intro dir other ino here directory
    rcases DirStore.mem_set here with ⟨same, new⟩ | ⟨_, old⟩
    · cases same
      cases new
      exact update_self ..
    have older := (t.entry_lt old).ne
    rw [update_of_ne older] at directory ⊢
    exact t.place old directory
  entry_lt := by
    intro dir other ino here
    rcases DirStore.mem_set here with ⟨_, new⟩ | ⟨_, old⟩
    · cases new
      exact Nat.lt_succ_self _
    · exact Nat.lt_succ_of_lt (t.entry_lt old)
  root_dir := by
    rw [update_of_ne t.root_lt.ne]
    exact t.root_dir
  root_lt := Nat.lt_succ_of_lt t.root_lt
  not_root := by
    intro dir other here
    rcases DirStore.mem_set here with ⟨_, new⟩ | ⟨_, old⟩
    · exact Nat.ne_of_gt t.root_lt (Option.some.inj new)
    · exact t.not_root old

def create (kind : FileType) : Option Tree :=
  if t.kinds parent = .dir ∧ t.entries parent name = none then some (t.addEntry parent name kind)
  else none

theorem entry_unique (t : Tree) {parent other dir : Nat} {name otherName : String}
    (here : t.entries parent name = some dir) (there : t.entries other otherName = some dir)
    (directory : t.kinds dir = .dir) : (other, otherName) = (parent, name) :=
  Option.some.inj ((t.place there directory).symm.trans (t.place here directory))

def dropEntry (t : Tree) (parent : Nat) (name : String) (child : Nat)
    (here : t.entries parent name = some child) : Tree where
  entries := t.entries.set parent name none
  parents := update t.parents child none
  kinds := t.kinds
  next := t.next
  place := by
    intro dir other ino there directory
    rcases DirStore.mem_set there with ⟨_, gone⟩ | ⟨elsewhere, old⟩
    · cases gone
    have differs : ino ≠ child := fun same => by
      subst same
      exact elsewhere (t.entry_unique here old directory)
    rw [update_of_ne differs]
    exact t.place old directory
  entry_lt := by
    intro dir other ino there
    rcases DirStore.mem_set there with ⟨_, gone⟩ | ⟨_, old⟩
    · cases gone
    · exact t.entry_lt old
  root_dir := t.root_dir
  root_lt := t.root_lt
  not_root := by
    intro dir other there
    rcases DirStore.mem_set there with ⟨_, gone⟩ | ⟨_, old⟩
    · cases gone
    · exact t.not_root old

/-- `unlink`, or `rmdir` for a directory. -/
def remove (t : Tree) (parent : Nat) (name : String) (directory : Bool) : Option Tree :=
  match here : t.entries parent name with
  | none => none
  | some child =>
    if decide (t.kinds child = .dir) = directory then some (t.dropEntry parent name child here)
    else none

/-- The places after the inode, if any, has lost its own. -/
def withoutPlace (parents : Nat → Option (Nat × String)) : Option Nat → Nat → Option (Nat × String)
  | none => parents
  | some ino => update parents ino none

variable (t : Tree) (oldParent : Nat) (oldName : String)

def moveEntry (newParent : Nat) (newName : String)
    (src : Nat) (here : t.entries oldParent oldName = some src) : Tree where
  entries := (t.entries.set oldParent oldName none).set newParent newName (some src)
  parents := update (withoutPlace t.parents (t.entries newParent newName)) src
    (some (newParent, newName))
  kinds := t.kinds
  next := t.next
  place := by
    intro dir other ino there directory
    rcases DirStore.mem_set there with ⟨same, moved⟩ | ⟨notNew, there⟩
    · cases same
      cases moved
      exact update_self ..
    rcases DirStore.mem_set there with ⟨_, gone⟩ | ⟨notOld, old⟩
    · cases gone
    have differs : ino ≠ src := fun same => by
      subst same
      exact notOld (t.entry_unique here old directory)
    rw [update_of_ne differs]
    cases found : t.entries newParent newName with
    | none => exact t.place old directory
    | some replaced =>
      have kept : ino ≠ replaced := fun same => by
        subst same
        exact notNew (t.entry_unique found old directory)
      rw [withoutPlace, update_of_ne kept]
      exact t.place old directory
  entry_lt := by
    intro dir other ino there
    rcases DirStore.mem_set there with ⟨_, moved⟩ | ⟨_, there⟩
    · cases moved
      exact t.entry_lt here
    rcases DirStore.mem_set there with ⟨_, gone⟩ | ⟨_, old⟩
    · cases gone
    · exact t.entry_lt old
  root_dir := t.root_dir
  root_lt := t.root_lt
  not_root := by
    intro dir other there
    rcases DirStore.mem_set there with ⟨_, moved⟩ | ⟨_, there⟩
    · cases moved
      exact t.not_root here
    rcases DirStore.mem_set there with ⟨_, gone⟩ | ⟨_, old⟩
    · cases gone
    · exact t.not_root old

/-- Nothing is renamed between two links of one inode. -/
def rename (newParent : Nat) (newName : String) : Option Tree :=
  match here : t.entries oldParent oldName with
  | none => none
  | some src =>
    if t.kinds newParent = .dir ∧ t.entries newParent newName ≠ some src then
      some (t.moveEntry oldParent oldName newParent newName src here)
    else none

/-- The other tree has the same, except in the given directories. -/
structure Changes (t next : Tree) (dirs : List Nat) : Prop where
  entries : ∀ dir ∉ dirs, next.entries dir = t.entries dir
  kinds : ∀ ino < t.next, next.kinds ino = t.kinds ino

variable {t next : Tree} {parent : Nat} {name : String}

theorem create_changes {kind : FileType} (created : t.create parent name kind = some next) :
    t.Changes next [parent] := by
  rw [create, Option.ite_none_right_eq_some] at created
  obtain ⟨_, created⟩ := created
  cases created
  refine ⟨fun dir other => ?_, fun ino older => update_of_ne older.ne ..⟩
  exact update_of_ne (fun same => other (List.mem_singleton.mpr same)) ..

theorem remove_changes {directory : Bool} (removed : t.remove parent name directory = some next) :
    t.Changes next [parent] := by
  unfold remove at removed
  split at removed
  · cases removed
  rw [Option.ite_none_right_eq_some] at removed
  obtain ⟨_, removed⟩ := removed
  cases removed
  refine ⟨fun dir other => ?_, fun _ _ => rfl⟩
  exact update_of_ne (fun same => other (List.mem_singleton.mpr same)) ..

theorem rename_changes {newParent : Nat} {newName : String}
    (renamed : t.rename parent name newParent newName = some next) :
    t.Changes next [parent, newParent] := by
  unfold rename at renamed
  split at renamed
  · cases renamed
  rw [Option.ite_none_right_eq_some] at renamed
  obtain ⟨_, renamed⟩ := renamed
  cases renamed
  refine ⟨fun dir other => ?_, fun _ _ => rfl⟩
  rw [List.mem_pair, not_or] at other
  exact (update_of_ne other.2 ..).trans (update_of_ne other.1 ..)

end Tree

end BrewFs.Meta.Client
