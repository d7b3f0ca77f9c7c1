import BrewFs.Library.Run
import BrewFs.Meta.Redis.Evolution

/-! Hard-link bookkeeping over sequential runs of the namespace operations. -/

namespace BrewFs.Meta.Redis

open BrewFs.Keys (keysTo)

inductive Operation where
  | create (args : CreateArgs)
  | link (ino : Ino) (place : Place) (now : Int)
  | unlink (place : Place) (now : Int)
  | rmdir (place : Place) (now : Int)
  | rename (source target : Place) (noreplace : Bool) (now : Int)
  | exchange (old new : Place) (now : Int)
  | restore (ino : Ino) (place : Place) (now : Int)

/-- The store a script leaves behind. -/
def settle {α : Type} (s : Store) (script : Script (α × Store)) : Store :=
  match script with
  | .ok (_, s') => s'
  | .error _ => s

variable (s : Store)

/-- `link` calls its script only for a parent `ensure_parent_dir` accepts. -/
def linkCall (ino : Ino) (place : Place) (now : Int) : Store :=
  match s.nodes place.1 with
  | some parent => if parent.kind = .dir then settle s (link s ino place now) else s
  | none => s

/-- `rmdir` looks up its child for the script. -/
def rmdirCall (place : Place) (now : Int) : Store :=
  match s.hget place with
  | some child => settle s (rmdir s place child now)
  | none => s

def perform : Operation → Store
  | .create args => settle s (createEntry s args)
  | .link ino place now => linkCall s ino place now
  | .unlink place now => settle s (unlink s place now)
  | .rmdir place now => rmdirCall s place now
  | .rename source target noreplace now => settle s (rename s source target noreplace now)
  | .exchange old new now => settle s (renameExchange s old new now)
  | .restore ino place now => settle s (restoreTrash s ino place now)

def operate (operation : Operation) : Option Store := some (perform s operation)

/-- No unlink leaves a file one name that begins or ends with a colon or holds two in a row. -/
def ColonSafe : Operation → Prop
  | .unlink place _ =>
    match s.hget place with
    | none => True
    | some ino =>
      match s.nodes ino with
      | none => True
      | some node => KeepsName node (keysTo s.dirs ino) place
  | _ => True

instance decidableKeepsName (node : StoredNode) (links : Finset Place) (place : Place) :
    Decidable (KeepsName node links place) :=
  inferInstanceAs (Decidable (_ → _))

instance decidableColonSafe (s : Store) (operation : Operation) :
    Decidable (ColonSafe s operation) := by
  unfold ColonSafe
  repeat' split
  all_goals infer_instance

/-- Every file's record describes its entries, and new numbers have no links. -/
structure Ordered (s : Store) : Prop where
  typed : ∃ kinds, Typed kinds s
  booked : ∀ i node, s.nodes i = some node → node.kind ≠ .dir →
    Booked node (s.linkParents i) (keysTo s.dirs i)
  unallocated : ∀ i, s.counter < i → s.linkParents i = []

theorem typed_initialStore (now : Int) : Typed (fun _ => .dir) (initialStore now) where
  stored := by
    intro i node found
    by_cases here : i = rootInode
    · subst here
      have root : node = rootNode now := by
        simpa [initialStore, eq_comm] using found
      subst root
      exact ⟨rfl, rfl, Nat.le_succ _, fun _ => rfl⟩
    · simp [initialStore, Function.update_of_ne here] at found
  entries := by
    intro place i entry
    simp [initialStore] at entry

theorem ordered_initialStore (now : Int) : Ordered (initialStore now) where
  typed := ⟨_, typed_initialStore now⟩
  booked := by
    intro i node found file
    have kind := (typed_initialStore now).stored found
    exact absurd kind.2.1 file
  unallocated := fun _ _ => rfl

variable {s : Store} {kinds : Ino → NodeKind}

theorem Ordered.evolve {s' : Store} {fresh : Ino → Prop} (ordered : Ordered s)
    (typed : Typed kinds s) (freshDir : ∀ p, fresh p → kinds p = .dir ∧ p ≤ s.counter)
    (change : Frame fresh s s' ∧ Evolves KeepsName s s') : Ordered s' where
  typed := by
    obtain ⟨kinds', _, typed'⟩ := change.1.typed typed freshDir
    exact ⟨kinds', typed'⟩
  booked := by
    intro i node' found file
    rcases change.2.files i node' found file with
      ⟨node, stored, isFile, ⟨same, members, links⟩ | change⟩ | ⟨above, members, args, gid, new,
        links⟩
    · rw [same, members, links]
      exact ordered.booked i node stored isFile
    · exact (ordered.booked i node stored isFile).step isFile change
    · rw [members, ordered.unallocated i above, links, new]
      have notDir : args.kind ≠ .dir := by
        rw [new] at file
        exact file
      exact Booked.fresh _ _ (if_neg notDir) rfl rfl rfl
  unallocated := by
    intro i above
    rw [change.2.unallocated i above]
    exact ordered.unallocated i (change.1.counter.trans_lt above)

theorem storedDir_kinds (typed : Typed kinds s) :
    ∀ p, StoredDir s p → kinds p = .dir ∧ p ≤ s.counter := by
  rintro p ⟨node, stored, dir⟩
  obtain ⟨_, kind, below, _⟩ := typed.stored stored
  exact ⟨kind ▸ dir, below⟩

/-- A successful script keeps the records in order, so its operation does. -/
theorem Ordered.settle {α : Type} {script : Script (α × Store)} (ordered : Ordered s)
    (keeps : ∀ reply s', script = .ok (reply, s') → Ordered s') :
    Ordered (Redis.settle s script) := by
  cases result : script with
  | error _ => exact ordered
  | ok pair => exact keeps pair.1 pair.2 result

theorem Ordered.perform (ordered : Ordered s) (operation : Operation)
    (safe : ColonSafe s operation) : Ordered (Redis.perform s operation) := by
  obtain ⟨kinds, typed⟩ := ordered.typed
  have dirs := storedDir_kinds typed
  have settle {α : Type} {script : Script (α × Store)} (changes : ∀ reply s',
      script = .ok (reply, s') → Frame (StoredDir s) s s' ∧ Evolves KeepsName s s') :
      Ordered (Redis.settle s script) :=
    ordered.settle fun _ _ ok => ordered.evolve typed dirs (changes _ _ ok)
  cases operation with
  | create args => exact settle fun _ _ ok => createEntry_evolves typed ok
  | link ino place now =>
    change Ordered (linkCall s ino place now)
    unfold linkCall
    split
    · rename_i parent parentStored
      split
      · rename_i dir
        apply ordered.settle
        intro reply s' ok
        apply ordered.evolve typed _ (link_evolves typed ok)
        rintro p rfl
        exact dirs place.1 ⟨parent, parentStored, dir⟩
      · exact ordered
    · exact ordered
  | unlink place now =>
    refine settle fun ino s' ok => unlink_evolves typed ok fun node stored => ?_
    obtain ⟨_, entry, _⟩ := unlink_ok ok
    have found : s.hget place = some ino := entry
    simpa [ColonSafe, found, stored] using safe
  | rmdir place now =>
    change Ordered (rmdirCall s place now)
    unfold rmdirCall
    split
    · exact settle fun _ _ ok => rmdir_evolves typed ok
    · exact ordered
  | rename source target noreplace now => exact settle fun _ _ ok => rename_evolves typed ok
  | exchange old new now => exact settle fun _ _ ok => renameExchange_evolves typed ok
  | restore ino place now => exact settle fun _ _ ok => restoreTrash_evolves typed ok

/-- In every run that never restores a name with a leading, trailing or doubled colon, each file's
node and link-parent set describe exactly its entries. -/
theorem hard_links_booked (now : Int) (operations : List Operation) (s : Store)
    (safe : Run.Along operate ColonSafe (initialStore now) operations)
    (run : Run.exec operate (initialStore now) operations = some s) (i : Ino) (node : StoredNode)
    (stored : s.nodes i = some node) (file : node.kind ≠ .dir) :
    Booked node (s.linkParents i) (keysTo s.dirs i) := by
  have keeps : ∀ before operation next, Ordered before → ColonSafe before operation →
      operate before operation = some next → Ordered next := by
    intro before operation next start meets taken
    obtain rfl := Option.some.inj taken
    exact start.perform operation meets
  have ordered : Ordered s := Run.invariant_along keeps (ordered_initialStore now) safe run
  exact ordered.booked i node stored file

def fileArgs (name : Name) : CreateArgs where
  parent := rootInode
  name := name
  kind := .file
  now := 0
  mode := 0o100644
  uid := 0
  gid := 0
  rdev := 0

def nameA : Name := ⟨[97], by decide⟩

/-- The name `b:c`. -/
def nameBC : Name := ⟨[98, 58, 99], by decide⟩

/-- The name `:c`. -/
def nameColonC : Name := ⟨[58, 99], by decide⟩

/-- A file gets a second name and loses the first. -/
def relinkRun (first second : Name) : List Operation :=
  [.create (fileArgs first), .link 3 (rootInode, second) 1, .unlink (rootInode, first) 2]

theorem hard_links_booked_relinked :
    ∃ s node, Run.exec operate (initialStore 0) (relinkRun nameA nameBC) = some s ∧
      s.nodes 3 = some node ∧ node.attr.nlink = 1 ∧
      Booked node (s.linkParents 3) (keysTo s.dirs 3) := by
  refine ⟨_, _, rfl, rfl, rfl, ?_⟩
  exact hard_links_booked 0 (relinkRun nameA nameBC) _ (by decide) rfl 3 _ rfl (by decide)

/-- With the name `:c` the same run leaves a node that names a missing entry `c`. -/
theorem leading_colon_lost :
    ∃ s node, Run.exec operate (initialStore 0) (relinkRun nameA nameColonC) = some s ∧
      s.nodes 3 = some node ∧ node.kind ≠ .dir ∧ node.attr.nlink = 1 ∧ node.name = [99] ∧
      keysTo s.dirs 3 = {(rootInode, nameColonC)} ∧
      ¬ Booked node (s.linkParents 3) (keysTo s.dirs 3) := by
  refine ⟨_, _, rfl, rfl, by decide, rfl, rfl, by decide, ?_⟩
  intro booked
  obtain ⟨place, only, _, name, _⟩ := booked.single rfl
  have here : (rootInode, nameColonC) = place := by
    apply Finset.mem_singleton.mp
    rw [← only]
    decide
  subst here
  revert name
  decide

end BrewFs.Meta.Redis
