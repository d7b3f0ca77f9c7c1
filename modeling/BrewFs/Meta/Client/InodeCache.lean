import BrewFs.Library.Slots

/-! `meta/client/cache.rs`: the children of the cached inodes. Attributes, parents and slice lists
are left out. -/

namespace BrewFs.Meta.Client

open Option
open Function (update update_of_ne update_self)

variable {Name : Type}

abbrev ChildrenMap (Name : Type) := Name → Option Nat

inductive ChildrenState (Name : Type) where
  | notLoaded
  /-- Some of the entries. -/
  | part (children : ChildrenMap Name)
  | complete (children : ChildrenMap Name)

namespace ChildrenState

def map? : ChildrenState Name → Option (ChildrenMap Name)
  | .notLoaded => none
  | .part children | .complete children => some children

def complete? : ChildrenState Name → Option (ChildrenMap Name)
  | .complete children => some children
  | .notLoaded | .part _ => none

/-- `lookup_if_loaded`; `some none`: the directory has no such entry. -/
def lookup (name : Name) : ChildrenState Name → Option (Option Nat)
  | .notLoaded => none
  | .part children => (children name).map some
  | .complete children => some (children name)

theorem map?_of_complete? {state : ChildrenState Name} {children : ChildrenMap Name}
    (complete : state.complete? = some children) : state.map? = some children := by
  cases state with
  | notLoaded | part _ => cases complete
  | complete _ => exact complete

variable [DecidableEq Name]

def insert (name : Name) (child : Nat) : ChildrenState Name → ChildrenState Name
  | .notLoaded => .part (update (fun _ => none) name (some child))
  | .part children => .part (update children name (some child))
  | .complete children => .complete (update children name (some child))

def erase (name : Name) : ChildrenState Name → ChildrenState Name
  | .notLoaded => .notLoaded
  | .part children => .part (update children name none)
  | .complete children => .complete (update children name none)

@[simp] theorem complete?_insert (name : Name) (child : Nat) (state : ChildrenState Name) :
    (state.insert name child).complete? =
      state.complete?.map fun children => update children name (some child) := by
  cases state <;> rfl

@[simp] theorem complete?_erase (name : Name) (state : ChildrenState Name) :
    (state.erase name).complete? =
      state.complete?.map fun children => update children name none := by
  cases state <;> rfl

end ChildrenState

structure InodeEntry (Name : Type) where
  children : ChildrenState Name
  childrenGeneration : Nat

/-- `InodeEntry::new` -/
def InodeEntry.new : InodeEntry Name := ⟨.notLoaded, 0⟩

abbrev InodeCache (Name : Type) := Nat → Option (InodeEntry Name)

namespace InodeCache

variable (cache : InodeCache Name)

def lookupIfLoaded (parent : Nat) (name : Name) : Option (Option Nat) :=
  (cache parent).bind fun node => node.children.lookup name

/-- The entries of a directory cached as complete. -/
def completeOf (dir : Nat) : Option (ChildrenMap Name) :=
  (cache dir).bind fun node => node.children.complete?

variable (ino : Nat)

def modify (change : InodeEntry Name → InodeEntry Name) : InodeCache Name :=
  update cache ino ((cache ino).map change)

/-- A cached inode keeps its children. -/
def insertNode : InodeCache Name :=
  update cache ino (some ((cache ino).getD .new))

def invalidateInode : InodeCache Name := update cache ino none

def markChildrenCompleteEmpty : InodeCache Name :=
  cache.modify ino fun node =>
    match node.children with
    | .notLoaded => { node with children := .complete fun _ => none }
    | .part _ | .complete _ => node

def childrenGeneration (parent : Nat) : Option Nat :=
  (cache parent).map InodeEntry.childrenGeneration

def loadChildrenIfFresh (parent : Nat) (entries : ChildrenMap Name)
    (expected : Nat) : InodeCache Name :=
  if cache.childrenGeneration parent = some expected then
    cache.modify parent fun node => { node with children := .complete entries }
  else cache

/-! ### The complete directories after a call -/

variable {cache : InodeCache Name} {dir ino parent : Nat} {children : ChildrenMap Name}

theorem mem_completeOf : children ∈ cache.completeOf dir ↔
    ∃ node ∈ cache dir, node.children.complete? = some children :=
  bind_eq_some_iff

theorem lookupIfLoaded_of_complete (complete : children ∈ cache.completeOf dir) (name : Name) :
    cache.lookupIfLoaded dir name = some (children name) := by
  obtain ⟨node, cached, state⟩ := mem_completeOf.mp complete
  rw [lookupIfLoaded, cached, bind_some]
  cases loaded : node.children with
  | notLoaded | part _ => rw [loaded] at state; cases state
  | complete found =>
    rw [loaded] at state
    cases state
    rfl

theorem mem_modify {change : InodeEntry Name → InodeEntry Name}
    (complete : children ∈ (cache.modify ino change).completeOf dir) :
    dir = ino ∧ (∃ node ∈ cache ino, (change node).children.complete? = some children) ∨
      dir ≠ ino ∧ children ∈ cache.completeOf dir := by
  by_cases same : dir = ino
  · subst same
    obtain ⟨_, cached, state⟩ := mem_completeOf.mp complete
    rw [modify, update_self, mem_def, map_eq_some_iff] at cached
    obtain ⟨node, cached, rfl⟩ := cached
    exact .inl ⟨rfl, node, cached, state⟩
  · rw [completeOf, modify, update_of_ne same] at complete
    exact .inr ⟨same, complete⟩

theorem completeOf_insertNode : (cache.insertNode ino).completeOf dir = cache.completeOf dir := by
  by_cases same : dir = ino
  · subst same
    rw [completeOf, completeOf, insertNode, update_self]
    cases cache dir <;> rfl
  · rw [completeOf, insertNode, update_of_ne same, completeOf]

theorem mem_invalidateInode (complete : children ∈ (cache.invalidateInode ino).completeOf dir) :
    dir ≠ ino ∧ children ∈ cache.completeOf dir := by
  obtain ⟨node, cached, state⟩ := mem_completeOf.mp complete
  obtain ⟨other, cached⟩ := Slots.mem_free cached
  exact ⟨other, mem_completeOf.mpr ⟨node, cached, state⟩⟩

theorem mem_markChildrenCompleteEmpty
    (complete : children ∈ (cache.markChildrenCompleteEmpty ino).completeOf dir) :
    children ∈ cache.completeOf dir ∨
      dir = ino ∧ (cache ino).map InodeEntry.children = some .notLoaded ∧
        children = fun _ => none := by
  rcases mem_modify complete with ⟨rfl, node, cached, state⟩ | ⟨_, old⟩
  · split at state
    · rename_i loaded
      cases state
      exact .inr ⟨rfl, by rw [cached, map_some, loaded], rfl⟩
    · exact .inl (mem_completeOf.mpr ⟨node, cached, state⟩)
    · exact .inl (mem_completeOf.mpr ⟨node, cached, state⟩)
  · exact .inl old

theorem mem_loadChildrenIfFresh {entries : ChildrenMap Name} {expected : Nat}
    (complete : children ∈ (cache.loadChildrenIfFresh parent entries expected).completeOf dir) :
    children ∈ cache.completeOf dir ∨
      dir = parent ∧ cache.childrenGeneration parent = some expected ∧ children = entries := by
  rw [loadChildrenIfFresh] at complete
  split at complete
  · rename_i fresh
    rcases mem_modify complete with ⟨rfl, _, _, state⟩ | ⟨_, old⟩
    · cases state
      exact .inr ⟨rfl, fresh, rfl⟩
    · exact .inl old
  · exact .inl complete

variable [DecidableEq Name] (cache parent) (name : Name)

def addChild (child : Nat) : InodeCache Name :=
  cache.modify parent fun node =>
    ⟨node.children.insert name child, node.childrenGeneration + 1⟩

/-- The inode of the name in the cached entries. -/
def child? : Option Nat :=
  (cache parent).bind fun node => node.children.map?.bind fun children => children name

def removeChildButKeepInode : InodeCache Name :=
  match cache.child? parent name with
  -- a missing name does not advance the generation
  | none => cache
  | some _ => cache.modify parent fun node =>
    ⟨node.children.erase name, node.childrenGeneration + 1⟩

def removeChild : InodeCache Name :=
  match cache.child? parent name with
  | none => cache
  | some child => (cache.removeChildButKeepInode parent name).invalidateInode child

variable {cache parent name}

theorem mem_addChild {child : Nat}
    (complete : children ∈ (cache.addChild parent name child).completeOf dir) :
    dir = parent ∧ (∃ old ∈ cache.completeOf parent, children = update old name (some child)) ∨
      dir ≠ parent ∧ children ∈ cache.completeOf dir := by
  refine (mem_modify complete).imp_left fun ⟨same, node, cached, state⟩ => ?_
  rw [ChildrenState.complete?_insert, map_eq_some_iff] at state
  obtain ⟨old, state, rfl⟩ := state
  exact ⟨same, old, mem_completeOf.mpr ⟨node, cached, state⟩, rfl⟩

theorem mem_removeChildButKeepInode
    (complete : children ∈ (cache.removeChildButKeepInode parent name).completeOf dir) :
    dir = parent ∧ (∃ old ∈ cache.completeOf parent, children = update old name none) ∨
      dir ≠ parent ∧ children ∈ cache.completeOf dir := by
  rw [removeChildButKeepInode] at complete
  split at complete
  · rename_i missing
    by_cases same : dir = parent
    · subst same
      obtain ⟨node, cached, state⟩ := mem_completeOf.mp complete
      rw [child?, cached, bind_some, ChildrenState.map?_of_complete? state,
        bind_some] at missing
      exact .inl ⟨rfl, children, complete, by rw [← missing, Function.update_eq_self]⟩
    · exact .inr ⟨same, complete⟩
  · refine (mem_modify complete).imp_left fun ⟨same, node, cached, state⟩ => ?_
    rw [ChildrenState.complete?_erase, map_eq_some_iff] at state
    obtain ⟨old, state, rfl⟩ := state
    exact ⟨same, old, mem_completeOf.mpr ⟨node, cached, state⟩, rfl⟩

theorem mem_removeChild (complete : children ∈ (cache.removeChild parent name).completeOf dir) :
    children ∈ (cache.removeChildButKeepInode parent name).completeOf dir := by
  rw [removeChild] at complete
  split at complete
  · rename_i missing
    rw [removeChildButKeepInode, missing]
    exact complete
  · exact (mem_invalidateInode complete).2

end InodeCache

end BrewFs.Meta.Client
