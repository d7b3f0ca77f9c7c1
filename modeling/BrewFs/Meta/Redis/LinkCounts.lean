import BrewFs.Meta.Redis.Coherence

/-! Link counts under concurrent clients. -/

namespace BrewFs.Meta.Redis

open BrewFs.Keys (keysTo)

/-- The node is a directory's, or the stored record has its link count and deleted flag. -/
def SavesOver (store : Store) (node : StoredNode) : Prop :=
  node.kind = .dir ∨ (store.nodes node.ino).any (fun stored =>
    decide (stored.attr.nlink = node.attr.nlink ∧ stored.deleted = node.deleted)) = true

instance decidableSavesOver (store : Store) (node : StoredNode) :
    Decidable (SavesOver store node) :=
  inferInstanceAs (Decidable (_ ∨ _))

/-- A file's record is written back only over the link count and deleted flag it was read with. -/
def SavesCurrent (s : System) (action : Action) : Prop :=
  ∀ node ∈ savedNode s action, SavesOver s.store node

instance decidableSavesCurrent (s : System) (action : Action) : Decidable (SavesCurrent s action) :=
  inferInstanceAs (Decidable (∀ node ∈ savedNode s action, _))

/-- Every file counts its entries. -/
structure Tallied (s : System) : Prop where
  coherent : ∃ kinds, Coherent kinds s
  counted : ∀ i node, s.store.nodes i = some node → node.kind ≠ .dir →
    Counted node (keysTo s.store.dirs i)

theorem tallied_initialSystem (now : Int) : Tallied (initialSystem now) where
  coherent := ⟨_, coherent_initialSystem now⟩
  counted := by
    intro i node found file
    exact absurd ((typed_initialStore now).stored found).2.1 file

theorem Evolves.counted {allowed : StoredNode → Finset Place → Place → Prop} {s s' : Store}
    (evolves : Evolves allowed s s')
    (counted : ∀ i node, s.nodes i = some node → node.kind ≠ .dir →
      Counted node (keysTo s.dirs i)) :
    ∀ i node, s'.nodes i = some node → node.kind ≠ .dir → Counted node (keysTo s'.dirs i) := by
  intro i node' found file
  rcases evolves.files i node' found file with
    ⟨node, stored, isFile, ⟨same, _, links⟩ | change⟩ | ⟨_, _, args, gid, new, links⟩
  · rw [same, links]
    exact counted i node stored isFile
  · exact (counted i node stored isFile).step change
  · have notDir : args.kind ≠ .dir := by
      rw [new] at file
      exact file
    rw [new, links]
    exact (Booked.fresh _ _ (if_neg notDir) rfl rfl rfl).toCounted

theorem Counted.save {s : Store} {node : StoredNode} (current : SavesOver s node)
    (kinds : ∀ stored, s.nodes node.ino = some stored → stored.kind = node.kind)
    (counted : ∀ i node, s.nodes i = some node → node.kind ≠ .dir →
      Counted node (keysTo s.dirs i)) :
    ∀ i record, (s.setNode node.ino node).nodes i = some record → record.kind ≠ .dir →
      Counted record (keysTo s.dirs i) := by
  intro i record found file
  rcases Slots.mem_put found with ⟨rfl, rfl⟩ | ⟨_, old⟩
  · rcases current with dir | same
    · exact absurd dir file
    cases before : s.nodes record.ino with
    | none =>
      rw [before] at same
      cases same
    | some stored =>
      rw [before] at same
      obtain ⟨nlink, deleted⟩ := of_decide_eq_true same
      obtain ⟨count, flag⟩ := counted _ stored before (kinds stored before ▸ file)
      exact ⟨nlink ▸ count, by rw [← deleted, ← nlink]; exact flag⟩
  · exact counted i record old file

theorem Tallied.step {s s' : System} {action : Action} (tallied : Tallied s)
    (current : SavesCurrent s action) (taken : Redis.step s action = some s') : Tallied s' := by
  obtain ⟨kinds, coherent⟩ := tallied.coherent
  obtain ⟨change, kinds', _, later⟩ := step_change coherent taken
  refine ⟨⟨kinds', later⟩, ?_⟩
  generalize s'.store = store at change
  cases change with
  | same => exact tallied.counted
  | script _ evolves => exact evolves.counted tallied.counted
  | link _ _ _ evolves => exact evolves.counted tallied.counted
  | @save node saves sound =>
    apply Counted.save (current node saves) _ tallied.counted
    intro stored before
    rw [(coherent.typed.stored before).2.1, sound.2.1]

/-- In every run in which a file's record is written back only over the link count and deleted flag
it was read with, each file counts exactly its entries and is deleted only without any. -/
theorem link_counts_kept (now : Int) (actions : List Action) (s : System)
    (current : Run.Along step SavesCurrent (initialSystem now) actions)
    (run : Run.exec step (initialSystem now) actions = some s) (i : Ino) (node : StoredNode)
    (stored : s.store.nodes i = some node) (file : node.kind ≠ .dir) :
    node.attr.nlink = (keysTo s.store.dirs i).card ∧
      (node.deleted = true → (keysTo s.store.dirs i).card = 0) := by
  have tallied : Tallied s := Run.invariant_along (fun _ _ _ tallied => tallied.step)
    (tallied_initialSystem now) current run
  obtain ⟨count, flag⟩ := tallied.counted i node stored file
  refine ⟨count, fun deleted => ?_⟩
  have zero := flag.mp deleted
  omega

def chmodRequest : SetAttrRequest where
  mode := some 0o600
  uid := none
  gid := none
  size := none
  atime := none
  mtime := none
  ctime := none

def noFlags : SetAttrFlags where
  clearSuid := false
  clearSgid := false
  setAtimeNow := false
  setMtimeNow := false

/-- A link by client 1, from its two checks to the parent's times. -/
def linkActions (task : Nat) (ino : Ino) (place : Place) : List Action :=
  [.start task 1 (.link ino place), .advance task 1, .advance task 1, .advance task 1,
    .advance task 1, .advance task 1]

/-- A mode change by client 0, over before the link begins. -/
def chmodThenLink : List Action :=
  [.call 0 (.create (fileArgs nameA)) 0, .start 0 0 (.setAttr 3 chmodRequest noFlags),
    .advance 0 1, .advance 0 1] ++ linkActions 1 3 (rootInode, nameBC)

theorem link_counts_kept_chmod : ∃ s node, Run.exec step (initialSystem 0) chmodThenLink = some s ∧
      s.store.nodes 3 = some node ∧ node.attr.nlink = 2 ∧
      node.attr.nlink = (keysTo s.store.dirs 3).card ∧
      (node.deleted = true → (keysTo s.store.dirs 3).card = 0) := by
  refine ⟨_, _, rfl, rfl, rfl, ?_⟩
  exact link_counts_kept 0 chmodThenLink _ (by decide) rfl 3 _ rfl (by decide)

/-- The mode change reads the node before the link and writes it after; then the first name goes. -/
def chmodAroundLink : List Action :=
  [.call 0 (.create (fileArgs nameA)) 0, .start 0 0 (.setAttr 3 chmodRequest noFlags),
    .advance 0 1] ++ linkActions 1 3 (rootInode, nameBC) ++
    [.advance 0 2, .call 0 (.unlink (rootInode, nameA)) 3]

/-- The write-back loses the link: the file is deleted while `b:c` still names it. -/
theorem stale_save_deletes_linked_file :
    ∃ s node, Run.exec step (initialSystem 0) chmodAroundLink = some s ∧
      (∀ task, s.tasks task = none) ∧ s.store.nodes 3 = some node ∧ node.kind ≠ .dir ∧
      node.attr.nlink = 0 ∧ node.deleted = true ∧
      keysTo s.store.dirs 3 = {(rootInode, nameBC)} := by
  refine ⟨_, _, rfl, ?_, rfl, by decide, rfl, rfl, by decide⟩
  intro task
  match task with
  | 0 | 1 | _ + 2 => rfl

end BrewFs.Meta.Redis
