import BrewFs.Meta.Redis.Clients

/-! What one step of any client does to the store. Cached nodes and nodes in hand may be stale,
but they carry the kind their inode number was allocated with. -/

namespace BrewFs.Meta.Redis

open Option Redis.System
open Function (update_of_ne update_self)

variable {kinds kinds' : Ino → NodeKind} {s s' : System} {node : StoredNode} {phase : Phase}

def Sound (kinds : Ino → NodeKind) (counter : Nat) (i : Ino) (node : StoredNode) : Prop :=
  node.ino = i ∧ node.kind = kinds i ∧ i ≤ counter ∧ (node.kind = .dir → node.deleted = false)

theorem Sound.extend {counter counter' : Nat} {i : Ino} (sound : Sound kinds counter i node)
    (agree : ∀ j, j ≤ counter → kinds' j = kinds j) (grows : counter ≤ counter') :
    Sound kinds' counter' i node := by
  obtain ⟨ino, kind, below, live⟩ := sound
  exact ⟨ino, kind.trans (agree i below).symm, below.trans grows, live⟩

/-- What a task in flight holds: a node of the right kind, or a directory seen as parent. -/
def Phase.Sound (kinds : Ino → NodeKind) (counter : Nat) : Phase → Prop
  | .saveNode node => Redis.Sound kinds counter node.ino node
  | .linkNode _ place => kinds place.1 = .dir ∧ place.1 ≤ counter
  | .linkScript _ place => kinds place.1 = .dir ∧ place.1 ≤ counter
  | _ => True

structure Coherent (kinds : Ino → NodeKind) (s : System) : Prop where
  typed : Typed kinds s.store
  cached : ∀ {client i node}, s.cache client i = some (some node) →
    Sound kinds s.store.counter i node
  tasks : ∀ {task state}, s.tasks task = some state → state.phase.Sound kinds s.store.counter

theorem Phase.Sound.extend {counter counter' : Nat} (sound : phase.Sound kinds counter)
    (agree : ∀ j, j ≤ counter → kinds' j = kinds j) (grows : counter ≤ counter') :
    phase.Sound kinds' counter' := by
  cases phase with
  | saveNode node => exact Redis.Sound.extend sound agree grows
  | linkNode | linkScript =>
    exact ⟨(agree _ sound.2).trans sound.1, sound.2.trans grows⟩
  | getNode _ _ | linkParent _ _ | lookup _ | rmdirScript _ _ | symlinkCreate _ _ => trivial

namespace Coherent

theorem remember (coherent : Coherent kinds s) (client : Nat) (ino : Ino)
    (entry : Option (Option StoredNode))
    (sound : ∀ node, entry = some (some node) → Sound kinds s.store.counter ino node) :
    Coherent kinds (s.remember client ino entry) where
  typed := coherent.typed
  cached := by
    intro other i node found
    simp only [System.remember] at found
    by_cases sameClient : other = client
    · subst sameClient
      rw [update_self] at found
      by_cases here : i = ino
      · subst here
        rw [update_self] at found
        exact sound node found
      · rw [update_of_ne here] at found
        exact coherent.cached found
    · rw [update_of_ne sameClient] at found
      exact coherent.cached found
  tasks := coherent.tasks

theorem forget (coherent : Coherent kinds s) (client : Nat) (ino : Ino) :
    Coherent kinds (s.remember client ino none) :=
  coherent.remember client ino none nofun

theorem invalidate (client : Nat) (inodes : List Ino) :
    ∀ {s : System}, Coherent kinds s → Coherent kinds (s.invalidate client inodes) := by
  induction inodes with
  | nil => exact id
  | cons ino rest ih =>
    intro s coherent
    exact ih (coherent.forget client ino)

section

variable (coherent : Coherent kinds s)

include coherent

theorem setTask (task : Nat) (state : Option Task)
    (sound : ∀ next, state = some next → next.phase.Sound kinds s.store.counter) :
    Coherent kinds (s.setTask task state) where
  typed := coherent.typed
  cached := coherent.cached
  tasks := by
    intro other next found
    simp only [System.setTask] at found
    by_cases here : other = task
    · subst here
      rw [update_self] at found
      exact sound next found
    · rw [update_of_ne here] at found
      exact coherent.tasks found

theorem getNode (client : Nat) (ino : Ino) :
    Coherent kinds (s.getNode client ino).2 ∧ (s.getNode client ino).2.store = s.store ∧
      ∀ node, (s.getNode client ino).1 = some node → Sound kinds s.store.counter ino node := by
  unfold System.getNode
  cases cached : s.cache client ino with
  | some entry =>
    refine ⟨coherent, rfl, ?_⟩
    rintro node rfl
    exact coherent.cached cached
  | none =>
    have stored : ∀ node, s.store.nodes ino = some node → Sound kinds s.store.counter ino node :=
      fun _ => coherent.typed.stored
    exact ⟨coherent.remember client ino _ fun node found => stored node (some.inj found),
      rfl, stored⟩

theorem store {store : Store} (agree : ∀ j, j ≤ s.store.counter → kinds' j = kinds j)
    (typed : Typed kinds' store) (grows : s.store.counter ≤ store.counter) :
    Coherent kinds' { s with store := store } where
  typed := typed
  cached := fun found => (coherent.cached found).extend agree grows
  tasks := fun found => (coherent.tasks found).extend agree grows

theorem rememberCreated (client : Nat) (args : CreateArgs) (reply : CreateReply)
    (created : Sound kinds s.store.counter reply.ino (newNode args reply.ino reply.gid)) :
    Coherent kinds (s.rememberCreated client args reply) := by
  apply Coherent.remember
  · split
    · rename_i parent cached
      apply coherent.remember
      intro node found
      obtain rfl := some.inj (some.inj found)
      exact (coherent.cached cached :)
    · exact coherent
  · intro node found
    obtain rfl := some.inj (some.inj found)
    have counter : ∀ s' : System, s'.store = s.store → Sound kinds s'.store.counter reply.ino
        (newNode args reply.ino reply.gid) := by
      intro s' same
      rw [same]
      exact created
    split
    · exact counter _ rfl
    · exact counter _ rfl

end

end Coherent

/-! ### Steps -/

/-- Every unlink is considered. -/
def anyUnlink (_ : StoredNode) (_ : Finset Place) (_ : Place) : Prop := True

/-- The node an action writes back with `save_node`. -/
def savedNode (s : System) : Action → Option StoredNode
  | .advance task _ =>
    match s.tasks task with
    | some ⟨_, .saveNode node⟩ => some node
    | _ => none
  | _ => none

/-- The parent for which an action runs `LINK_LUA`. -/
def linkedParent (s : System) : Action → Option Ino
  | .advance task _ =>
    match s.tasks task with
    | some ⟨_, .linkScript _ place⟩ => some place.1
    | _ => none
  | _ => none

/-- What a step does to the store: nothing, a script that finds its parents stored, the link
script for a parent seen earlier, or the write of a node read earlier. -/
inductive StoreChange (kinds : Ino → NodeKind) (s : System) (action : Action) : Store → Prop
  | same : StoreChange kinds s action s.store
  | script {store : Store} (frame : Frame (StoredDir s.store) s.store store)
      (evolves : Evolves anyUnlink s.store store) : StoreChange kinds s action store
  | link {store : Store} {parent : Ino} (links : linkedParent s action = some parent)
      (seen : kinds parent = .dir ∧ parent ≤ s.store.counter)
      (frame : Frame (fun p => p = parent) s.store store)
      (evolves : Evolves anyUnlink s.store store) : StoreChange kinds s action store
  | save {node : StoredNode} (saves : savedNode s action = some node)
      (sound : Sound kinds s.store.counter node.ino node) :
      StoreChange kinds s action (s.store.setNode node.ino node)

/-- A step keeps the copies sound, for kinds that agree on the older numbers. -/
def Continues (kinds : Ino → NodeKind) (s s' : System) : Prop :=
  ∃ kinds', (∀ i, i ≤ s.store.counter → kinds' i = kinds i) ∧ Coherent kinds' s'

theorem Coherent.continues (coherent : Coherent kinds s) : Continues kinds s s :=
  ⟨kinds, fun _ _ => rfl, coherent⟩

theorem Coherent.frame {fresh : Ino → Prop} {store : Store} (coherent : Coherent kinds s)
    (frame : Frame fresh s.store store)
    (freshDir : ∀ p, fresh p → kinds p = .dir ∧ p ≤ s.store.counter) :
    Continues kinds s { s with store := store } := by
  obtain ⟨kinds', agree, typed⟩ := frame.typed coherent.typed freshDir
  exact ⟨kinds', agree, coherent.store agree typed frame.counter⟩

theorem Continues.invalidate (continues : Continues kinds s s') (client : Nat)
    (inodes : List Ino) : Continues kinds s (s'.invalidate client inodes) := by
  obtain ⟨kinds', agree, coherent⟩ := continues
  exact ⟨kinds', agree, coherent.invalidate client inodes⟩

theorem Continues.setTask (continues : Continues kinds s s') (task : Nat) (state : Option Task)
    (sound : ∀ next, state = some next → ∀ kinds counter, next.phase.Sound kinds counter) :
    Continues kinds s (s'.setTask task state) := by
  obtain ⟨kinds', agree, coherent⟩ := continues
  exact ⟨kinds', agree, coherent.setTask task state fun next found => sound next found _ _⟩

theorem Continues.endTask (continues : Continues kinds s s') (task : Nat) :
    Continues kinds s (s'.setTask task none) :=
  continues.setTask task none fun _ found => by cases found

theorem invalidate_store (s : System) (client : Nat) (inodes : List Ino) :
    (s.invalidate client inodes).store = s.store := by
  induction inodes generalizing s with
  | nil => rfl
  | cons ino rest ih => exact ih (s.remember client ino none)

theorem rememberCreated_store (client : Nat) (args : CreateArgs)
    (reply : CreateReply) : (s.rememberCreated client args reply).store = s.store := by
  unfold rememberCreated
  split <;> rfl

theorem save_typed {kinds : Ino → NodeKind} {s : Store} (typed : Typed kinds s)
    (sound : Sound kinds s.counter node.ino node) : Typed kinds (s.setNode node.ino node) where
  stored := by
    intro i record found
    rcases Slots.mem_put found with ⟨rfl, rfl⟩ | ⟨_, old⟩
    · exact sound
    · exact typed.stored old
  entries := typed.entries

section

variable (coherent : Coherent kinds s)

include coherent

section

variable (action : Action) (client : Nat)

include action client

/-- A script with invalidations only: the shape shared by all calls but `create`. -/
theorem afterScript_change {α : Type} {script : Script (α × Store)} (inodes : α → List Ino)
    (effect : ∀ reply store, script = .ok (reply, store) →
      Frame (StoredDir s.store) s.store store ∧ Evolves anyUnlink s.store store) :
    StoreChange kinds s action
        (s.afterScript script fun reply s => s.invalidate client (inodes reply)).store ∧
      Continues kinds s
        (s.afterScript script fun reply s => s.invalidate client (inodes reply)) := by
  unfold afterScript
  cases result : script with
  | error _ => exact ⟨.same, coherent.continues⟩
  | ok pair =>
    obtain ⟨frame, evolves⟩ := effect pair.1 pair.2 result
    rw [invalidate_store]
    exact ⟨.script frame evolves,
      (coherent.frame frame (storedDir_kinds coherent.typed)).invalidate client _⟩

theorem create_change {args : CreateArgs} {reply : CreateReply} {store : Store}
    (ok : createEntry s.store args = .ok (reply, store)) : StoreChange kinds s action
        (rememberCreated { s with store := store } client args reply).store ∧
      Continues kinds s (rememberCreated { s with store := store } client args reply) := by
  obtain ⟨frame, evolves⟩ := createEntry_evolves coherent.typed ok
  rw [rememberCreated_store]
  refine ⟨.script frame evolves, ?_⟩
  obtain ⟨kinds', agree, later⟩ := coherent.frame frame (storedDir_kinds coherent.typed)
  refine ⟨kinds', agree, later.rememberCreated client args reply ?_⟩
  obtain ⟨_, _, _, _, replyIno, _⟩ := createEntry_ok ok
  rw [replyIno]
  exact later.typed.stored (createEntry_stored coherent.typed ok)

theorem call_change (now : Int) (call : Call) :
    StoreChange kinds s action (s.call client now call).store ∧
      Continues kinds s (s.call client now call) := by
  have typed := coherent.typed
  cases call with
  | create args =>
    simp only [call, afterScript]
    split
    · exact ⟨.same, coherent.continues⟩
    · rename_i reply store ok
      exact create_change coherent action client ok
  | unlink place =>
    exact afterScript_change coherent action client (fun child => [place.1, child])
      fun _ _ ok => unlink_evolves typed ok fun _ _ => trivial
  | rename source target noreplace =>
    exact afterScript_change coherent action client (fun reply : RenameReply =>
        [source.1, target.1, reply.ino] ++ reply.replaced.toList)
      fun _ _ => rename_evolves typed
  | exchange old new =>
    exact afterScript_change coherent action client
      (fun inodes : Ino × Ino => [old.1, new.1, inodes.1, inodes.2])
      fun _ _ => renameExchange_evolves typed
  | restore ino place =>
    exact afterScript_change coherent action client (fun _ => [ino, place.1])
      fun _ _ => restoreTrash_evolves typed
  | removeFileMetadata ino =>
    exact afterScript_change coherent action client (fun _ => [ino])
      fun _ _ => removeFileMetadata_evolves

end

theorem advance_change {task client : Nat} (now : Int)
    (here : s.tasks task = some ⟨client, phase⟩) :
    StoreChange kinds s (.advance task now) (s.advance task client now phase).store ∧
      Continues kinds s (s.advance task client now phase) := by
  have sound : phase.Sound kinds s.store.counter := coherent.tasks here
  cases phase with
  | getNode ino edit =>
    obtain ⟨later, store, read⟩ := coherent.getNode client ino
    refine ⟨?_, kinds, fun _ _ => rfl, ?_⟩
    · change StoreChange kinds s _ (s.getNode client ino).2.store
      rw [store]
      exact .same
    apply later.setTask
    intro next found
    obtain ⟨node', applied, rfl⟩ := map_eq_some_iff.mp found
    obtain ⟨node, hit, edited⟩ := bind_eq_some_iff.mp applied
    obtain ⟨ino', kind, _, deleted⟩ := Edit.apply_keeps edited
    obtain ⟨inoEq, kindEq, below, live⟩ := read node hit
    have nodeIno : node'.ino = ino := ino'.trans inoEq
    rw [store]
    show Sound kinds s.store.counter node'.ino node'
    rw [nodeIno]
    refine ⟨nodeIno, kind.trans kindEq, below, fun dir => ?_⟩
    rw [deleted]
    exact live (kind ▸ dir)
  | saveNode node =>
    refine ⟨.save (by simp [savedNode, here]) sound, kinds, fun _ _ => rfl, ?_⟩
    have written : Coherent kinds { s with store := s.store.setNode node.ino node } :=
      coherent.store (fun _ _ => rfl) (save_typed coherent.typed sound) (le_rfl)
    apply Coherent.setTask
    · apply written.remember
      intro record found
      obtain rfl := some.inj (some.inj found)
      exact sound
    · intro next found
      cases found
  | linkParent ino place =>
    simp only [advance]
    split
    · exact ⟨.same, coherent.continues.endTask task⟩
    obtain ⟨later, store, read⟩ := coherent.getNode client place.1
    refine ⟨?_, kinds, fun _ _ => rfl, ?_⟩
    · change StoreChange kinds s _ (s.getNode client place.1).2.store
      rw [store]
      exact .same
    apply later.setTask
    intro next found
    obtain ⟨accepted, found⟩ := ite_none_right_eq_some.mp found
    obtain rfl := some.inj found
    cases hit : (s.getNode client place.1).1 with
    | none => simp [acceptsParent, hit] at accepted
    | some parent =>
      have dir : parent.kind = .dir := by simpa [acceptsParent, hit] using accepted
      obtain ⟨_, kind, below, _⟩ := read parent hit
      rw [store]
      exact ⟨kind ▸ dir, below⟩
  | linkNode ino place =>
    obtain ⟨later, store, _⟩ := coherent.getNode client ino
    refine ⟨?_, kinds, fun _ _ => rfl, ?_⟩
    · change StoreChange kinds s _ (s.getNode client ino).2.store
      rw [store]
      exact .same
    apply later.setTask
    intro next found
    obtain ⟨_, same⟩ := ite_none_right_eq_some.mp found
    obtain rfl := some.inj same
    rw [store]
    exact sound
  | linkScript ino place =>
    simp only [advance]
    split
    · exact ⟨.same, coherent.continues.endTask task⟩
    rename_i attr store ok
    obtain ⟨frame, evolves⟩ := link_evolves coherent.typed ok
    have continues := coherent.frame frame fun p parent => parent ▸ sound
    constructor
    · exact .link (by simp [linkedParent, here]) sound frame evolves
    apply (continues.invalidate client _).setTask
    intro next found
    obtain rfl := some.inj found
    exact fun _ _ => trivial
  | lookup place =>
    refine ⟨.same, coherent.continues.setTask task _ fun next found => ?_⟩
    obtain ⟨child, _, rfl⟩ := map_eq_some_iff.mp found
    exact fun _ _ => trivial
  | rmdirScript place child =>
    obtain ⟨change, continues⟩ := afterScript_change coherent (.advance task now) client
      (fun _ => [place.1, child])
      fun _ _ (ok : rmdir s.store place child now = .ok _) => rmdir_evolves coherent.typed ok
    exact ⟨change, continues.endTask task⟩
  | symlinkCreate args target =>
    simp only [advance]
    split
    · exact ⟨.same, coherent.continues.endTask task⟩
    rename_i reply store ok
    obtain ⟨change, continues⟩ := create_change coherent (.advance task now) client ok
    refine ⟨change, continues.setTask task _ ?_⟩
    intro next found
    obtain rfl := some.inj found
    exact fun _ _ => trivial

theorem step_change {action : Action} (taken : step s action = some s') :
    StoreChange kinds s action s'.store ∧ Continues kinds s s' := by
  cases action with
  | start task client request =>
    simp only [step] at taken
    split at taken
    · obtain rfl := some.inj taken
      refine ⟨.same, coherent.continues.setTask task _ fun next found => ?_⟩
      obtain rfl := some.inj found
      cases request <;> exact fun _ _ => trivial
    · cases taken
  | advance task now =>
    simp only [step] at taken
    split at taken
    · cases taken
    rename_i state here
    obtain rfl := some.inj taken
    exact advance_change coherent now here
  | call client call now =>
    obtain rfl := some.inj taken
    exact call_change coherent _ client now call
  | expire client ino =>
    obtain rfl := some.inj taken
    exact ⟨.same, kinds, fun _ _ => rfl, coherent.forget client ino⟩

end

theorem coherent_initialSystem (now : Int) : Coherent (fun _ => .dir) (initialSystem now) where
  typed := typed_initialStore now
  cached := nofun
  tasks := nofun

end BrewFs.Meta.Redis
