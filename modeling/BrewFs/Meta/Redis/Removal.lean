import BrewFs.Meta.Redis.LinkCounts

/-! Entries and removed directories under concurrent clients. -/

namespace BrewFs.Meta.Redis


variable {s s' : System} {action : Action}

/-- The link script finds its parent stored, and a directory's record is written back only while it
is stored. -/
def Attended (s : System) (action : Action) : Prop :=
  (∀ parent ∈ linkedParent s action, (s.store.nodes parent).isSome = true) ∧
    ∀ node ∈ savedNode s action, node.kind = .dir → (s.store.nodes node.ino).isSome = true

instance decidableAttended (s : System) (action : Action) : Decidable (Attended s action) :=
  inferInstanceAs (Decidable ((∀ parent ∈ linkedParent s action, _) ∧
    ∀ node ∈ savedNode s action, _))

/-- Every entry lies in a stored directory. -/
structure Anchored (kinds : Ino → NodeKind) (s : System) : Prop where
  coherent : Coherent kinds s
  rooted : Rooted s.store

theorem anchored_initialSystem (now : Int) : Anchored (fun _ => .dir) (initialSystem now) where
  coherent := coherent_initialSystem now
  rooted := by
    intro place i entry
    simp [initialSystem, initialStore] at entry

variable {kinds : Ino → NodeKind} {node : StoredNode} {store : Store}

theorem rooted_save (typed : Typed kinds store) (rooted : Rooted store)
    (sound : Sound kinds store.counter node.ino node) : Rooted (store.setNode node.ino node) := by
  intro place i entry
  rw [Store.setNode_nodes]
  by_cases here : place.1 = node.ino
  · refine ⟨node, by rw [here, Function.update_self], ?_⟩
    rw [sound.2.1, ← here]
    exact (typed.entries entry).1
  · rw [Function.update_of_ne here]
    exact rooted place i entry

theorem Anchored.step (anchored : Anchored kinds s) (attended : Attended s action)
    (taken : Redis.step s action = some s') :
    ∃ kinds', (∀ i, i ≤ s.store.counter → kinds' i = kinds i) ∧ Anchored kinds' s' := by
  have coherent := anchored.coherent
  obtain ⟨change, kinds', agree, later⟩ := step_change coherent taken
  refine ⟨kinds', agree, later, ?_⟩
  generalize s'.store = store at change
  cases change with
  | same => exact anchored.rooted
  | script frame _ => exact frame.rooted coherent.typed anchored.rooted fun _ => id
  | @link _ parent links seen frame _ =>
    apply frame.rooted coherent.typed anchored.rooted
    rintro p rfl
    obtain ⟨node, stored⟩ := Option.isSome_iff_exists.mp (attended.1 p links)
    exact ⟨node, stored, (coherent.typed.stored stored).2.1.trans seen.1⟩
  | save _ sound => exact rooted_save coherent.typed anchored.rooted sound

variable {p : Ino}

theorem removed_stays (coherent : Coherent kinds s) (attended : Attended s action)
    (taken : Redis.step s action = some s') (dir : kinds p = .dir) (allocated : p ≤ s.store.counter)
    (gone : s.store.nodes p = none) : s'.store.nodes p = none ∧ p ≤ s'.store.counter := by
  obtain ⟨change, _⟩ := step_change coherent taken
  -- A script stores only numbers that were stored, or the next one.
  have byFrame : ∀ {fresh : Ino → Prop} {store : Store}, Frame fresh s.store store →
      store.nodes p = none ∧ p ≤ store.counter := by
    intro fresh store frame
    refine ⟨?_, allocated.trans frame.counter⟩
    cases found : store.nodes p with
    | none => rfl
    | some node =>
      rcases frame.nodes found with ⟨record, before, _⟩ | ⟨new, _⟩
      · rw [gone] at before
        cases before
      · rw [new] at allocated
        exact absurd allocated (Nat.not_succ_le_self _)
  generalize s'.store = store at change
  cases change with
  | same => exact ⟨gone, allocated⟩
  | script frame _ => exact byFrame frame
  | link _ _ frame _ => exact byFrame frame
  | @save node saves sound =>
    refine ⟨?_, allocated⟩
    rw [Store.setNode_nodes, Function.update_of_ne]
    · exact gone
    rintro rfl
    have stored := attended.2 node saves (sound.2.1.trans dir)
    rw [gone] at stored
    cases stored

theorem StoreChange.counter_le (change : StoreChange kinds s action store) :
    s.store.counter ≤ store.counter := by
  cases change with
  | same | save _ _ => exact le_rfl
  | script frame | link _ _ frame => exact frame.counter

/-- The number was a directory's and has no record now. -/
def Gone (p : Ino) (s : System) : Prop :=
  ∃ kinds, Anchored kinds s ∧ kinds p = .dir ∧ p ≤ s.store.counter ∧ s.store.nodes p = none

theorem Gone.step (gone : Gone p s) (attended : Attended s action)
    (taken : Redis.step s action = some s') : Gone p s' := by
  obtain ⟨kinds, anchored, dir, below, missing⟩ := gone
  obtain ⟨kinds', agree, later⟩ := anchored.step attended taken
  obtain ⟨still, below'⟩ := removed_stays anchored.coherent attended taken dir below missing
  exact ⟨kinds', later, (agree p below).trans dir, below', still⟩

theorem Gone.no_entry (gone : Gone p s) (name : Name) : s.store.dirs.lookup (p, name) = none := by
  obtain ⟨kinds, anchored, _, _, missing⟩ := gone
  cases entry : s.store.dirs.lookup (p, name) with
  | none => rfl
  | some i =>
    obtain ⟨record, found, _⟩ := anchored.rooted (p, name) i entry
    rw [missing] at found
    cases found

theorem Anchored.removes (anchored : Anchored kinds s) (attended : Attended s action)
    (taken : Redis.step s action = some s') (stored : s.store.nodes p = some node)
    (dir : node.kind = .dir) (missing : s'.store.nodes p = none) : Gone p s' := by
  obtain ⟨kinds', agree, later⟩ := anchored.step attended taken
  obtain ⟨_, kind, allocated, _⟩ := anchored.coherent.typed.stored stored
  have grown := (step_change anchored.coherent taken).1.counter_le
  exact ⟨kinds', later, (agree p allocated).trans (kind ▸ dir), allocated.trans grown, missing⟩

/-- In every run whose link scripts find their parent stored and whose directory records are written
back only while stored, every entry lies in an existing directory, and a removed directory never has
an entry again. -/
theorem no_entry_under_removed (now : Int) (actions : List Action) (s : System)
    (attended : Run.Along step Attended (initialSystem now) actions)
    (run : Run.exec step (initialSystem now) actions = some s) :
    (∀ place i, s.store.dirs.lookup place = some i →
      ∃ node, s.store.nodes place.1 = some node ∧ node.kind = .dir) ∧
    ∀ (before after : List Action) (action : Action) (earlier later : System) (p : Ino)
      (node : StoredNode), actions = before ++ action :: after →
      Run.exec step (initialSystem now) before = some earlier →
      step earlier action = some later → earlier.store.nodes p = some node → node.kind = .dir →
      later.store.nodes p = none → ∀ name, s.store.dirs.lookup (p, name) = none := by
  have keeps : ∀ s action next, (∃ kinds, Anchored kinds s) → Attended s action →
      step s action = some next → ∃ kinds, Anchored kinds next := by
    rintro s action next ⟨kinds, anchored⟩ meets taken
    obtain ⟨kinds', _, later⟩ := anchored.step meets taken
    exact ⟨kinds', later⟩
  have start : ∃ kinds, Anchored kinds (initialSystem now) := ⟨_, anchored_initialSystem now⟩
  constructor
  · obtain ⟨kinds, anchored⟩ := Run.invariant_along keeps start attended run
    exact anchored.rooted
  rintro before after action earlier later p node rfl reached taken stored dir missing
  obtain ⟨attendedBefore, attendedAfter⟩ := attended.append reached
  obtain ⟨kinds, anchored⟩ := Run.invariant_along keeps start attendedBefore reached
  have gone := anchored.removes attendedAfter.1 taken stored dir missing
  -- The rest of the run starts in the state after the removal.
  have rest : Run.exec step later after = some s := by
    obtain ⟨middle, first, second⟩ := Run.exec_append.mp run
    rw [reached] at first
    obtain rfl := Option.some.inj first
    obtain ⟨next, taken', later'⟩ := Run.exec_cons_eq_some.mp second
    rw [taken] at taken'
    obtain rfl := Option.some.inj taken'
    exact later'
  have stays : ∀ s action next, Gone p s → Attended s action →
      step s action = some next → Gone p next := fun _ _ _ gone meets taken => gone.step meets taken
  exact (Run.invariant_along stays gone (attendedAfter.2 later taken) rest).no_entry

def dirArgs (name : Name) : CreateArgs := { fileArgs name with kind := .dir, mode := 0o040755 }

/-- Make a directory and begin to remove it. -/
def mkdirRmdir : List Action :=
  [.call 0 (.create (dirArgs nameA)) 0, .start 0 0 (.rmdir (rootInode, nameA)), .advance 0 1]

theorem no_entry_under_removed_rmdir : ∃ s, Run.exec step (initialSystem 0)
        (mkdirRmdir ++ .advance 0 2 :: [.call 0 (.create (fileArgs nameA)) 3]) = some s ∧
      s.store.nodes 3 = none ∧ (∀ name, s.store.dirs.lookup (3, name) = none) ∧
      ∀ place i, s.store.dirs.lookup place = some i →
        ∃ node, s.store.nodes place.1 = some node ∧ node.kind = .dir := by
  have both := no_entry_under_removed 0
    (mkdirRmdir ++ .advance 0 2 :: [.call 0 (.create (fileArgs nameA)) 3]) _ (by decide) rfl
  exact ⟨_, rfl, rfl,
    both.2 mkdirRmdir [.call 0 (.create (fileArgs nameA)) 3] (.advance 0 2) _ _ 3 _ rfl rfl rfl rfl
      rfl rfl, both.1⟩

/-- Client 1 has checked parent and file; client 0 removes the parent; then the link script runs. -/
def linkAroundRmdir : List Action :=
  [.call 0 (.create (fileArgs nameBC)) 0, .call 0 (.create (dirArgs nameA)) 0,
    .start 1 1 (.link 3 (4, nameBC)), .advance 1 1, .advance 1 1,
    .start 0 0 (.rmdir (rootInode, nameA)), .advance 0 2, .advance 0 2, .advance 1 3]

/-- The link script adds an entry under the removed directory. -/
theorem link_enters_removed_directory :
    ∃ s, Run.exec step (initialSystem 0) linkAroundRmdir = some s ∧
      s.store.dirs.lookup (4, nameBC) = some 3 ∧ s.store.nodes 4 = none :=
  ⟨_, rfl, by decide, rfl⟩

end BrewFs.Meta.Redis
