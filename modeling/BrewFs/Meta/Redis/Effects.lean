import BrewFs.Meta.Redis.LinkRecords

/-! What a successful script has checked and written. Every later invariant is derived from
these descriptions; none of them unfolds a script again. -/

namespace BrewFs.Meta.Redis

open BrewFs.Text (Bytes)
open Function (update)
open Guard (bind_eq_ok check_eq_ok need_eq_ok pure_eq_ok)

variable {kinds : Ino → NodeKind} {s s' : Store}

/-- Records and entries agree with a fixed kind for every inode number, chosen at its allocation. -/
structure Typed (kinds : Ino → NodeKind) (s : Store) : Prop where
  stored : ∀ {i node}, s.nodes i = some node →
    node.ino = i ∧ node.kind = kinds i ∧ i ≤ s.counter ∧ (node.kind = .dir → node.deleted = false)
  entries : ∀ {place i}, s.dirs.lookup place = some i →
    kinds place.1 = .dir ∧ place.1 ≤ s.counter ∧ i ≤ s.counter ∧ i ≠ place.1

variable {place : Place} {node : StoredNode} {i : Ino}

theorem Typed.parent_dir (typed : Typed kinds s) (entry : s.dirs.lookup place = some i)
    (stored : s.nodes place.1 = some node) : node.kind = .dir := by
  rw [(typed.stored stored).2.1]
  exact (typed.entries entry).1

/-- The records `nodes'` are `nodes`, up to times and link counts of directories of `s`. -/
def Touched (s : Store) (nodes nodes' : Ino → Option StoredNode) : Prop :=
  ∀ i, nodes' i = nodes i ∨ ∃ node delta now, s.nodes i = some node ∧ node.kind = .dir ∧
      nodes' i = some ((node.addNlink delta).touched now)

theorem Touched.refl (s : Store) (nodes : Ino → Option StoredNode) : Touched s nodes nodes :=
  fun _ => .inl rfl

theorem Touched.update {nodes nodes' : Ino → Option StoredNode} (touched : Touched s nodes nodes')
    {p : Ino} {parent : StoredNode} (stored : s.nodes p = some parent) (dir : parent.kind = .dir)
    (delta now : Int) :
    Touched s nodes (update nodes' p (some ((parent.addNlink delta).touched now))) := by
  intro i
  by_cases here : i = p
  · subst here
    exact .inr ⟨parent, delta, now, stored, dir, Function.update_self ..⟩
  · rw [Function.update_of_ne here]
    exact touched i

theorem Touched.file {nodes nodes' : Ino → Option StoredNode} (touched : Touched s nodes nodes')
    (typed : Typed kinds s) (file : kinds i ≠ .dir) : nodes' i = nodes i := by
  rcases touched i with same | ⟨node, _, _, stored, dir, _⟩
  · exact same
  · exact absurd ((typed.stored stored).2.1.symm.trans dir) file

variable {ino : Ino}

theorem stageTrash_fields {last : Bool} (staged : stageTrash s last ino place = .ok s') :
    s'.nodes = s.nodes ∧ s'.dirs = s.dirs ∧ s'.linkParents = s.linkParents ∧
      s'.counter = s.counter := by
  unfold stageTrash at staged
  split at staged
  · simp only [bind_eq_ok, pure_eq_ok] at staged
    obtain ⟨path, _, rfl⟩ := staged
    exact ⟨rfl, rfl, rfl, rfl⟩
  simp only [pure_eq_ok] at staged
  subst staged
  exact ⟨rfl, rfl, rfl, rfl⟩

theorem createEntry_ok {args : CreateArgs} {reply : CreateReply}
    (ok : createEntry s args = .ok (reply, s')) :
    ∃ parent, s.nodes args.parent = some parent ∧ parent.kind = .dir ∧
      s.dirs.lookup (args.parent, args.name) = none ∧ reply.ino = s.counter + 1 ∧
      Touched s (update s.nodes (s.counter + 1)
        (some (newNode args (s.counter + 1) reply.gid))) s'.nodes ∧
      s'.dirs = s.dirs.insert (args.parent, args.name) (s.counter + 1) ∧
      s'.linkParents = s.linkParents ∧ s'.counter = s.counter + 1 := by
  simp only [createEntry, need, check, bind_eq_ok, need_eq_ok, check_eq_ok] at ok
  obtain ⟨parent, stored, _, dir, _, free, rfl, rfl⟩ := ok
  refine ⟨parent, stored, dir, free, rfl, ?_, rfl, rfl, rfl⟩
  exact (Touched.refl s _).update stored dir _ _

variable {now : Int}

theorem link_ok {attr : StoredAttr} (ok : link s ino place now = .ok (attr, s')) :
    ∃ node, s.nodes ino = some node ∧ ¬ (node.deleted = true ∨ node.attr.nlink = 0) ∧
      node.kind ≠ .dir ∧ s.dirs.lookup place = none ∧
      s'.nodes = update s.nodes ino (some (node.addLink now)) ∧
      s'.dirs = s.dirs.insert place node.ino ∧
      s'.linkParents = update s.linkParents ino (addLinkMembers node (s.linkParents ino) place) ∧
      s'.counter = s.counter := by
  simp only [link, need, check, bind_eq_ok, need_eq_ok, check_eq_ok] at ok
  obtain ⟨node, stored, _, alive, _, notDir, _, _, _, free, _, rfl⟩ := ok
  exact ⟨node, stored, alive, notDir, free, rfl, rfl, rfl, rfl⟩

theorem unlink_ok (ok : unlink s place now = .ok (ino, s')) :
    ∃ node, s.dirs.lookup place = some ino ∧ s.nodes ino = some node ∧ node.kind ≠ .dir ∧
      Touched s (update s.nodes ino (some (node.dropLink (s.linkParents ino) place now))) s'.nodes ∧
      s'.dirs = s.dirs.erase place ∧
      s'.linkParents = update s.linkParents ino (dropLinkMembers node (s.linkParents ino) place) ∧
      s'.counter = s.counter := by
  simp only [unlink, need, check, bind_eq_ok, need_eq_ok, check_eq_ok,
    pure_eq_ok, Prod.mk.injEq] at ok
  obtain ⟨child, entry, node, stored, _, file, staged, trash, rfl, rfl⟩ := ok
  obtain ⟨nodes, dirs, linkParents, counter⟩ := stageTrash_fields trash
  refine ⟨node, entry, stored, file, ?_⟩
  -- The tombstone and the parent's times are the two optional writes.
  cases parent : s.nodes place.1 with
  | none =>
    dsimp only
    split <;> simp [nodes, dirs, linkParents, counter, Touched.refl]
  | some record =>
    dsimp only
    by_cases dir : record.kind = .dir
    · rw [if_pos dir]
      have touched := (Touched.refl s (update s.nodes child
        (some (node.dropLink (s.linkParents child) place now)))).update parent dir 0 now
      split <;> simpa [touchParent, nodes, dirs, linkParents, counter] using touched
    · rw [if_neg dir]
      split <;> simp [nodes, dirs, linkParents, counter, Touched.refl]

theorem rmdir_ok {child : Ino} (typed : Typed kinds s) (ok : rmdir s place child now = .ok ((), s'))
    : ∃ node, s.dirs.lookup place = some child ∧ s.nodes child = some node ∧ node.kind = .dir ∧
      s.hlen child = 0 ∧
      (∃ nodes, Touched s s.nodes nodes ∧ s'.nodes = update nodes child none) ∧
      s'.dirs = Keys.remove (fun place : Place => place.1 = child) (s.dirs.erase place) ∧
      s'.linkParents = s.linkParents ∧ s'.counter = s.counter := by
  simp only [rmdir, need, check, bind_eq_ok, need_eq_ok, check_eq_ok,
    pure_eq_ok, Prod.mk.injEq, true_and] at ok
  obtain ⟨_, entry, node, stored, _, dir, _, empty, rfl⟩ := ok
  refine ⟨node, entry, stored, dir, empty, ?_⟩
  cases parent : s.nodes place.1 with
  | none => exact ⟨⟨s.nodes, Touched.refl s _, rfl⟩, rfl, rfl, rfl⟩
  | some record =>
    have parentDir := typed.parent_dir entry parent
    exact ⟨⟨_, (Touched.refl s s.nodes).update parent parentDir (-1) now, rfl⟩, rfl, rfl, rfl⟩

variable {target : Place}

theorem checkMove_ok (ok : checkMove s node ino target = .ok ()) :
    node.kind = .dir → ino ≠ target.1 := by
  intro dir same
  unfold checkMove at ok
  rw [if_pos dir] at ok
  unfold validateAncestry at ok
  simp [same] at ok

/-- What `RENAME_LUA` makes of the destination before the move. -/
inductive Cleared (s : Store) (child : StoredNode) (ino : Ino) (target : Place) (now : Int) :
    Store → Prop
  | free (vacant : s.dirs.lookup target = none) : Cleared s child ino target now s
  | file {cleared : Store} {replaced : Ino} {node : StoredNode} {remaining : Ino × Bytes}
      (entry : s.dirs.lookup target = some replaced) (differs : replaced ≠ ino)
      (stored : s.nodes replaced = some node) (isFile : node.kind ≠ .dir)
      (childIsFile : child.kind ≠ .dir)
      (size : 1 < node.attr.nlink → ((s.linkParents replaced).length : Int) = node.attr.nlink)
      (surviving : node.attr.nlink = 2 →
        survivingPath s replaced (s.linkParents replaced) target = .ok remaining)
      (nodes : cleared.nodes = update s.nodes replaced (some (node.dropTarget remaining now)))
      (dirs : cleared.dirs = s.dirs.erase target)
      (linkParents : cleared.linkParents = update s.linkParents replaced
        (dropTargetMembers node (s.linkParents replaced) target))
      (counter : cleared.counter = s.counter) : Cleared s child ino target now cleared
  | dir {cleared : Store} {replaced : Ino} {node : StoredNode}
      (entry : s.dirs.lookup target = some replaced) (differs : replaced ≠ ino)
      (stored : s.nodes replaced = some node) (isDir : node.kind = .dir)
      (childIsDir : child.kind = .dir) (empty : s.hlen replaced = 0)
      (nodes : cleared.nodes = update s.nodes replaced none)
      (dirs : cleared.dirs =
        Keys.remove (fun place : Place => place.1 = replaced) (s.dirs.erase target))
      (linkParents : cleared.linkParents = s.linkParents)
      (counter : cleared.counter = s.counter) : Cleared s child ino target now cleared

theorem replaceTarget_ok {child : StoredNode} {replaced : Ino} {replacedDir : Bool}
    {cleared : Store} (entry : s.dirs.lookup target = some replaced) (differs : replaced ≠ ino)
    (ok : replaceTarget s child replaced target now = .ok (replacedDir, cleared)) :
    Cleared s child ino target now cleared := by
  simp only [replaceTarget, need, bind_eq_ok, need_eq_ok] at ok
  obtain ⟨node, stored, rest⟩ := ok
  split at rest
  · rename_i childIsDir
    simp only [check, replaceDir, bind_eq_ok, check_eq_ok, pure_eq_ok] at rest
    obtain ⟨_, isDir, _, ⟨_, empty, rfl⟩, _, rfl⟩ := rest
    exact .dir entry differs stored isDir childIsDir empty rfl rfl rfl rfl
  rename_i childIsFile
  simp only [check, replaceFile, bind_eq_ok, check_eq_ok, pure_eq_ok] at rest
  obtain ⟨_, isFile, _, ⟨_, sized, remaining, surviving, staged, trash, rfl⟩, _, rfl⟩ := rest
  obtain ⟨nodes, dirs, linkParents, counter⟩ := stageTrash_fields trash
  refine @Cleared.file s child ino target now _ replaced node remaining entry differs stored
    isFile
    childIsFile ?_ ?_ ?_ ?_ ?_ ?_
  · intro more
    rcases sized with few | ⟨size, _⟩
    · omega
    · exact size
  · intro two
    rwa [remainingPath, if_pos two] at surviving
  all_goals split <;> simp [nodes, dirs, linkParents, counter]

@[simp] theorem touchParents_frame (moved before : Store) (source target : Place)
    (newParent : StoredNode) (childIsDir replacedDir : Bool) (now : Int) :
    let s := touchParents moved before source target newParent childIsDir replacedDir now
    s.dirs = moved.dirs ∧ s.linkParents = moved.linkParents ∧ s.counter = moved.counter := by
  unfold touchParents
  split
  · split <;> exact ⟨rfl, rfl, rfl⟩
  · exact ⟨rfl, rfl, rfl⟩

/-- The move itself, after the destination has been cleared. -/
structure Moved (s : Store) (source target : Place) (now : Int) (ino : Ino)
    (child : StoredNode) (cleared s' : Store) : Prop where
  entry : s.dirs.lookup source = some ino
  stored : s.nodes ino = some child
  newParent : ∃ parent, s.nodes target.1 = some parent ∧ parent.kind = .dir
  outside : child.kind = .dir → ino ≠ target.1
  clearing : Cleared s child ino target now cleared
  nodes : Touched s (update cleared.nodes ino (some (child.moveLink target now))) s'.nodes
  dirs : s'.dirs = (cleared.dirs.erase source).insert target ino
  linkParents : ∃ members, moveLinkMembers child (s.linkParents ino) source target = some members ∧
    s'.linkParents = update cleared.linkParents ino members
  counter : s'.counter = cleared.counter

theorem rename_ok {source : Place} {noreplace : Bool} {reply : RenameReply}
    (typed : Typed kinds s) (ok : rename s source target noreplace now = .ok (reply, s')) :
    s' = s ∨ ∃ ino child cleared, Moved s source target now ino child cleared s' := by
  simp only [rename, need, check, bind_eq_ok, need_eq_ok, check_eq_ok] at ok
  obtain ⟨ino, entry, newParent, parentStored, _, dir, child, stored, _, ancestry, rest⟩ := ok
  have outside := checkMove_ok ancestry
  -- The same entry update follows for a vacant and for a cleared destination.
  have finish : ∀ {cleared moved : Store} {replacedDir : Bool},
      Cleared s child ino target now cleared →
      moveEntry s cleared ino child newParent source target replacedDir now = .ok moved →
      Moved s source target now ino child cleared moved := by
    intro cleared moved replacedDir clear entryOk
    simp only [moveEntry, need, bind_eq_ok, need_eq_ok, pure_eq_ok] at entryOk
    obtain ⟨members, found, rfl⟩ := entryOk
    refine ⟨entry, stored, ⟨newParent, parentStored, dir⟩, outside, clear, ?_, ?_, ?_, ?_⟩
    · apply Touched.update _ parentStored dir
      cases oldParent : s.nodes source.1 with
      | none => exact Touched.refl s _
      | some record =>
        dsimp only
        split
        · exact (Touched.refl s _).update oldParent (typed.parent_dir entry oldParent) _ _
        · exact Touched.refl s _
    · simp
    · exact ⟨members, found, by simp⟩
    · simp
  split at rest
  · rename_i vacant
    simp only [bind_eq_ok] at rest
    obtain ⟨moved, entryOk, _, rfl⟩ := rest
    exact .inr ⟨ino, child, s, finish (.free vacant) entryOk⟩
  rename_i replaced occupied
  simp only [bind_eq_ok] at rest
  obtain ⟨_, _, rest⟩ := rest
  split at rest
  · simp only [pure_eq_ok, Prod.mk.injEq] at rest
    exact .inl rest.2.symm
  rename_i differs
  simp only [bind_eq_ok] at rest
  obtain ⟨⟨replacedDir, cleared⟩, clear, moved, entryOk, _, rfl⟩ := rest
  exact .inr ⟨ino, child, cleared, finish (replaceTarget_ok occupied differs clear) entryOk⟩

/-- Two entries exchanged. -/
structure Exchanged (s : Store) (old new : Place) (now : Int) (oldIno newIno : Ino)
    (oldNode newNode : StoredNode) (s' : Store) : Prop where
  oldEntry : s.dirs.lookup old = some oldIno
  newEntry : s.dirs.lookup new = some newIno
  differ : oldIno ≠ newIno
  oldStored : s.nodes oldIno = some oldNode
  newStored : s.nodes newIno = some newNode
  oldParent : ∃ parent, s.nodes old.1 = some parent ∧ parent.kind = .dir
  newParent : ∃ parent, s.nodes new.1 = some parent ∧ parent.kind = .dir
  oldOutside : oldNode.kind = .dir → oldIno ≠ new.1
  newOutside : newNode.kind = .dir → newIno ≠ old.1
  nodes : Touched s (update (update s.nodes oldIno (some (oldNode.moveLink new now))) newIno
    (some (newNode.moveLink old now))) s'.nodes
  dirs : s'.dirs = (s.dirs.insert old newIno).insert new oldIno
  linkParents : ∃ oldMembers newMembers,
    moveLinkMembers oldNode (s.linkParents oldIno) old new = some oldMembers ∧
    moveLinkMembers newNode (s.linkParents newIno) new old = some newMembers ∧
    s'.linkParents = update (update s.linkParents oldIno oldMembers) newIno newMembers
  counter : s'.counter = s.counter

theorem renameExchange_ok {old new : Place} {reply : Ino × Ino}
    (ok : renameExchange s old new now = .ok (reply, s')) :
    s' = s ∨ ∃ oldIno newIno oldNode newNode,
      Exchanged s old new now oldIno newIno oldNode newNode s' := by
  simp only [renameExchange, need, check, bind_eq_ok, need_eq_ok] at ok
  obtain ⟨oldIno, oldEntry, newIno, newEntry, rest⟩ := ok
  split at rest
  · simp only [pure_eq_ok, Prod.mk.injEq] at rest
    exact .inl rest.2.symm
  rename_i differ
  simp only [bind_eq_ok, need_eq_ok, check_eq_ok] at rest
  obtain ⟨oldNode, oldStored, newNode, newStored, _, oldAncestry, _, newAncestry, oldParent,
    oldParentStored, _, oldDir, newParent, newParentStored, _, newDir, _, _, _, _, oldMembers,
    oldMoved, newMembers, newMoved, _, rfl⟩ := rest
  refine .inr ⟨oldIno, newIno, oldNode, newNode, oldEntry, newEntry, differ, oldStored,
    newStored, ⟨oldParent, oldParentStored, oldDir⟩, ⟨newParent, newParentStored, newDir⟩,
    checkMove_ok oldAncestry, checkMove_ok newAncestry, ?_, ?_,
    ⟨oldMembers, newMembers, oldMoved, newMoved, ?_⟩, ?_⟩
  · unfold touchExchanged
    split
    · exact (Touched.refl s _).update oldParentStored oldDir _ _
    · exact ((Touched.refl s _).update newParentStored newDir _ _).update oldParentStored oldDir _ _
  all_goals
    unfold touchExchanged
    split <;> simp [touchParent]

theorem restoreTrash_ok (ok : restoreTrash s ino place now = .ok ((), s')) :
    ∃ node parent, s.nodes ino = some node ∧ node.deleted = true ∧ node.attr.nlink = 0 ∧
      s.nodes place.1 = some parent ∧ parent.kind = .dir ∧ s.dirs.lookup place = none ∧
      Touched s (update s.nodes ino (some (node.revived place now))) s'.nodes ∧
      s'.dirs = s.dirs.insert place ino ∧ s'.linkParents = s.linkParents ∧
      s'.counter = s.counter := by
  simp only [restoreTrash, need, check, bind_eq_ok, need_eq_ok, check_eq_ok,
    pure_eq_ok, Prod.mk.injEq, true_and] at ok
  obtain ⟨node, stored, _, ⟨deleted, zero, _⟩, parent, parentStored, _, ⟨dir, _⟩, _, free, rfl⟩ :=
    ok
  refine ⟨node, parent, stored, deleted, zero, parentStored, dir, free, ?_, rfl, rfl, rfl⟩
  exact (Touched.refl s _).update parentStored dir 0 now

theorem removeFileMetadata_ok (ok : removeFileMetadata s ino = .ok ((), s')) :
    (s'.nodes = s.nodes ∨ ∃ node, s.nodes ino = some node ∧ node.deleted = true ∧
      s'.nodes = update s.nodes ino none) ∧
      s'.dirs = s.dirs ∧ s'.linkParents = s.linkParents ∧ s'.counter = s.counter := by
  unfold removeFileMetadata at ok
  split at ok
  · simp only [pure_eq_ok, Prod.mk.injEq, true_and] at ok
    subst ok
    exact ⟨.inl rfl, rfl, rfl, rfl⟩
  rename_i node stored
  simp only [check, bind_eq_ok, check_eq_ok, pure_eq_ok, Prod.mk.injEq, true_and] at ok
  obtain ⟨_, deleted, rfl⟩ := ok
  exact ⟨.inr ⟨node, stored, deleted, rfl⟩, rfl, rfl, rfl⟩

end BrewFs.Meta.Redis
