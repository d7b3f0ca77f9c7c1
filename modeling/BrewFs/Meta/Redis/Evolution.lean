import BrewFs.Library.Slots
import BrewFs.Meta.Redis.Effects

/-! Each script seen from one inode: what may happen to a file's bookkeeping, to a record's
kind and to the entries of a directory. -/

namespace BrewFs.Meta.Redis

open Function Option
open BrewFs.Text (Bytes)
open BrewFs.Keys (keysTo mem_keysTo keysTo_insert keysTo_erase)
open Function (update_of_ne update_self)
open Keys (lookup_erase_eq lookup_insert_eq lookup_remove mem_erase mem_insert mem_remove)
open Slots (mem_free mem_put)

variable {kinds : Ino → NodeKind} {s s' : Store}

/-! ### Records -/

/-- Every record of `nodes'` continues one of `s`: same number and kind, and no directory marked
deleted. -/
def Keeps (s : Store) (nodes' : Ino → Option StoredNode) : Prop :=
  ∀ i node', nodes' i = some node' → ∃ node, s.nodes i = some node ∧ node'.ino = node.ino ∧
    node'.kind = node.kind ∧ (node'.kind = .dir → node'.deleted = node.deleted)

theorem Keeps.refl (s : Store) : Keeps s s.nodes :=
  fun _ node stored => ⟨node, stored, rfl, rfl, fun _ => rfl⟩

variable {nodes : Ino → Option StoredNode} {i j : Ino} {node node' : StoredNode}

theorem Keeps.update (keeps : Keeps s nodes) (stored : s.nodes i = some node)
    (ino : node'.ino = node.ino) (kind : node'.kind = node.kind)
    (deleted : node'.kind = .dir → node'.deleted = node.deleted) :
    Keeps s (update nodes i (some node')) := by
  intro j record found
  rcases mem_put found with ⟨rfl, rfl⟩ | ⟨_, old⟩
  · exact ⟨node, stored, ino, kind, deleted⟩
  · exact keeps j record old

theorem Keeps.erase (keeps : Keeps s nodes) (i : Ino) : Keeps s (Function.update nodes i none) :=
  fun j record found => keeps j record (mem_free found).2

variable {nodes' : Ino → Option StoredNode}

theorem Keeps.touched (keeps : Keeps s nodes) (touched : Touched s nodes nodes') :
    Keeps s nodes' := by
  intro i record found
  rcases touched i with same | ⟨node, delta, now, stored, _, write⟩
  · rw [same] at found
    exact keeps i record found
  rw [write] at found
  obtain rfl := some.inj found
  exact ⟨node, stored, rfl, rfl, fun _ => rfl⟩

/-- A record still there may be named where it could be before. -/
theorem Keeps.named (keeps : Keeps s nodes') (touched : Touched s nodes nodes')
    (found : nodes i = some node') (stored : s.nodes i = some node) {p : Ino}
    (outside : node.kind = .dir → i ≠ p) :
    ∃ record, nodes' i = some record ∧ (record.kind = .dir → i ≠ p) := by
  obtain ⟨record, here⟩ : ∃ record, nodes' i = some record := by
    rcases touched i with same | ⟨_, _, _, _, _, write⟩
    · exact ⟨_, same.trans found⟩
    · exact ⟨_, write⟩
  obtain ⟨before, old, _, kind, _⟩ := keeps i record here
  rw [stored] at old
  obtain rfl := some.inj old
  exact ⟨record, here, fun dir => outside (kind ▸ dir)⟩

/-- No record of `s` outside `gone` is missing in `nodes'`. -/
def Present (s : Store) (gone : Ino → Prop) (nodes' : Ino → Option StoredNode) : Prop :=
  ∀ i, nodes' i = none → s.nodes i = none ∨ gone i

theorem Present.refl (s : Store) (gone : Ino → Prop) : Present s gone s.nodes :=
  fun _ missing => .inl missing

variable {gone fresh : Ino → Prop}

section

variable (present : Present s gone nodes)

include present

theorem Present.update (i : Ino) (node : StoredNode) :
    Present s gone (update nodes i (some node)) := by
  intro j missing
  by_cases here : j = i
  · subst here
    rw [update_self] at missing
    cases missing
  · rw [update_of_ne here] at missing
    exact present j missing

theorem Present.erase (removed : gone i) : Present s gone (Function.update nodes i none) := by
  intro j missing
  by_cases here : j = i
  · exact .inr (here ▸ removed)
  · rw [update_of_ne here] at missing
    exact present j missing

theorem Present.touched (touched : Touched s nodes nodes') : Present s gone nodes' := by
  intro i missing
  rcases touched i with same | ⟨_, _, _, _, _, write⟩
  · rw [same] at missing
    exact present i missing
  · rw [write] at missing
    cases missing

end

/-! ### Entries -/

/-- What every script leaves alone: records keep their kind, an entry is old or lies in a directory
of `fresh`, and only an empty directory or a deleted file disappears. -/
structure Frame (fresh : Ino → Prop) (s s' : Store) : Prop where
  nodes : ∀ {i node'}, s'.nodes i = some node' →
    (∃ node, s.nodes i = some node ∧ node'.ino = node.ino ∧ node'.kind = node.kind ∧
      (node'.kind = .dir → node'.deleted = node.deleted)) ∨
    (i = s.counter + 1 ∧ s'.counter = s.counter + 1 ∧ node'.ino = i ∧ node'.deleted = false)
  entries : ∀ {place i}, s'.dirs.lookup place = some i → s.dirs.lookup place = some i ∨
      (fresh place.1 ∧ ∃ node', s'.nodes i = some node' ∧ (node'.kind = .dir → i ≠ place.1))
  removed : Present s (fun i => (∀ name, s'.dirs.lookup (i, name) = none) ∨
      ∃ node, s.nodes i = some node ∧ node.deleted = true) s'.nodes
  counter : s.counter ≤ s'.counter

/-- The directories a script may find for a new entry. -/
def StoredDir (s : Store) (p : Ino) : Prop := ∃ node, s.nodes p = some node ∧ node.kind = .dir

theorem Frame.of_keeps (keeps : Keeps s s'.nodes)
    (entries : ∀ {place i}, s'.dirs.lookup place = some i → s.dirs.lookup place = some i ∨
      (fresh place.1 ∧ ∃ node', s'.nodes i = some node' ∧ (node'.kind = .dir → i ≠ place.1)))
    (removed : Present s (fun i => (∀ name, s'.dirs.lookup (i, name) = none) ∨
      ∃ node, s.nodes i = some node ∧ node.deleted = true) s'.nodes)
    (counter : s'.counter = s.counter) : Frame fresh s s' :=
  ⟨fun found => .inl (keeps _ _ found), entries, removed, counter.symm.le⟩

theorem Frame.refl (fresh : Ino → Prop) (s : Store) : Frame fresh s s :=
  .of_keeps (.refl s) .inl (.refl s _) rfl

/-- Along a frame the kinds extend to the new number. -/
theorem Frame.typed (frame : Frame fresh s s') (typed : Typed kinds s)
    (freshDir : ∀ p, fresh p → kinds p = .dir ∧ p ≤ s.counter) :
    ∃ kinds', (∀ i, i ≤ s.counter → kinds' i = kinds i) ∧ Typed kinds' s' := by
  let kinds' : Ino → NodeKind := fun i =>
    if i ≤ s.counter then kinds i else ((s'.nodes i).map StoredNode.kind).getD .file
  have old : ∀ i, i ≤ s.counter → kinds' i = kinds i := fun i below => if_pos below
  have stored : ∀ {i node'}, s'.nodes i = some node' → node'.ino = i ∧ node'.kind = kinds' i ∧
      i ≤ s'.counter ∧ (node'.kind = .dir → node'.deleted = false) := by
    intro i node' found
    rcases frame.nodes found with ⟨node, before, ino, kind, deleted⟩ | ⟨rfl, next, ino, live⟩
    · obtain ⟨sameIno, sameKind, below, live⟩ := typed.stored before
      refine ⟨ino.trans sameIno, ?_, below.trans frame.counter, ?_⟩
      · rw [old i below, kind, sameKind]
      intro dir
      rw [deleted dir]
      exact live (kind ▸ dir)
    refine ⟨ino, ?_, next.symm.le, fun _ => live⟩
    show node'.kind = if s.counter + 1 ≤ s.counter then _ else _
    rw [if_neg (by omega), found]
    rfl
  refine ⟨kinds', old, stored, ?_⟩
  intro place i entry
  rcases frame.entries entry with before | ⟨isFresh, node', found, apart⟩
  · obtain ⟨dir, placeBelow, below, differs⟩ := typed.entries before
    refine ⟨?_, placeBelow.trans frame.counter, below.trans frame.counter, differs⟩
    rw [old _ placeBelow]
    exact dir
  obtain ⟨dir, placeBelow⟩ := freshDir place.1 isFresh
  have placeDir : kinds' place.1 = .dir := (old _ placeBelow).trans dir
  obtain ⟨_, kind, below, _⟩ := stored found
  refine ⟨placeDir, placeBelow.trans frame.counter, below, ?_⟩
  intro same
  exact apart (kind.trans (same ▸ placeDir)) same

/-- Every entry lies in a directory that exists. -/
def Rooted (s : Store) : Prop :=
  ∀ place i, s.dirs.lookup place = some i → ∃ node, s.nodes place.1 = some node ∧ node.kind = .dir

theorem Frame.rooted (frame : Frame fresh s s') (typed : Typed kinds s) (rooted : Rooted s)
    (freshStored : ∀ p, fresh p → StoredDir s p) : Rooted s' := by
  intro place i entry
  obtain ⟨node, stored, dir⟩ : StoredDir s place.1 := by
    rcases frame.entries entry with before | ⟨isFresh, _⟩
    · exact rooted place i before
    · exact freshStored place.1 isFresh
  cases found : s'.nodes place.1 with
  | none =>
    rcases frame.removed place.1 found with missing | empty | ⟨record, before, deleted⟩
    · rw [stored] at missing
      cases missing
    · have none_here := empty place.2
      rw [entry] at none_here
      cases none_here
    · rw [stored] at before
      obtain rfl := some.inj before
      rw [(typed.stored stored).2.2.2 dir] at deleted
      cases deleted
  | some node' =>
    refine ⟨node', rfl, ?_⟩
    rcases frame.nodes found with ⟨record, before, _, kind, _⟩ | ⟨new, _⟩
    · rw [stored] at before
      obtain rfl := some.inj before
      exact kind.trans dir
    have below := (typed.stored stored).2.2.1
    rw [new] at below
    exact absurd below (Nat.not_succ_le_self _)

/-! ### Files -/

/-- One step of a file's bookkeeping. `allowed` restricts the unlinks. -/
inductive RecordStep (allowed : StoredNode → Finset Place → Place → Prop) (node : StoredNode)
    (members : List Bytes) (links : Finset Place) : StoredNode → List Bytes → Finset Place → Prop
  | add (place : Place) (now : Int) (fresh : place ∉ links)
      (alive : ¬ (node.deleted = true ∨ node.attr.nlink = 0)) :
      RecordStep allowed node members links (node.addLink now)
        (addLinkMembers node members place) (insert place links)
  | drop (place : Place) (now : Int) (mem : place ∈ links) (permitted : allowed node links place) :
      RecordStep allowed node members links (node.dropLink members place now)
        (dropLinkMembers node members place) (links.erase place)
  | dropTarget (place : Place) (remaining : Ino × Bytes) (now : Int) (mem : place ∈ links)
      (size : 1 < node.attr.nlink → (members.length : Int) = node.attr.nlink)
      (surviving : node.attr.nlink = 2 →
        ∃ s target, survivingPath s target members place = .ok remaining) :
      RecordStep allowed node members links (node.dropTarget remaining now)
        (dropTargetMembers node members place) (links.erase place)
  | move {members' : List Bytes} (source target : Place) (now : Int) (mem : source ∈ links)
      (fresh : target ∉ links)
      (moved : moveLinkMembers node members source target = some members') :
      RecordStep allowed node members links (node.moveLink target now) members'
        (insert target (links.erase source))
  | revive (place : Place) (now : Int) (zero : node.attr.nlink = 0) (fresh : place ∉ links) :
      RecordStep allowed node members links (node.revived place now) members (insert place links)

theorem Counted.revive {links : Finset Place} (counted : Counted node links)
    (zero : node.attr.nlink = 0) (place : Place) (now : Int) :
    Counted (node.revived place now) (insert place links) := by
  have empty : links = ∅ := by
    have card := counted.count
    exact Finset.card_eq_zero.mp (by omega)
  constructor <;> simp [StoredNode.revived, empty]

variable {allowed : StoredNode → Finset Place → Place → Prop}

theorem Counted.step {members members' : List Bytes} {links links' : Finset Place}
    (counted : Counted node links)
    (change : RecordStep allowed node members links node' members' links') :
    Counted node' links' := by
  cases change with
  | add place now fresh alive => exact counted.add now fresh alive
  | drop place now mem _ => exact counted.drop members now mem
  | dropTarget place remaining now mem _ _ => exact counted.dropTarget remaining now mem
  | move source target now mem fresh _ => exact counted.move now mem fresh
  | revive place now zero _ => exact counted.revive zero place now

/-- The unlinks whose restored name survives the cut at its colons. -/
def KeepsName (node : StoredNode) (links : Finset Place) (place : Place) : Prop :=
  node.attr.nlink = 2 → ∀ other ∈ links.erase place, Text.Separated colon other.2.val

theorem Booked.step {members members' : List Bytes} {links links' : Finset Place}
    (booked : Booked node members links) (file : node.kind ≠ .dir)
    (change : RecordStep KeepsName node members links node' members' links') :
    Booked node' members' links' := by
  cases change with
  | add place now fresh alive => exact booked.add now fresh alive
  | drop place now mem permitted => exact booked.drop now mem permitted
  | dropTarget place remaining now mem size surviving =>
    apply booked.dropTarget now mem remaining
    intro two
    obtain ⟨s, target, found⟩ := surviving two
    exact booked.survivingPath_spec s target two (size (by omega)) found
  | move source target now mem fresh moved => exact booked.move now file mem fresh moved
  | revive place now zero _ =>
    rw [booked.links_eq_empty zero, booked.unlinked zero]
    exact Booked.fresh _ place rfl rfl rfl rfl

/-- Every file of `s'` is one of `s` after at most one bookkeeping step, or new. -/
structure Evolves (allowed : StoredNode → Finset Place → Place → Prop) (s s' : Store) : Prop where
  files : ∀ i node', s'.nodes i = some node' → node'.kind ≠ .dir →
    (∃ node, s.nodes i = some node ∧ node.kind ≠ .dir ∧
      ((node' = node ∧ s'.linkParents i = s.linkParents i ∧ keysTo s'.dirs i = keysTo s.dirs i) ∨
        RecordStep allowed node (s.linkParents i) (keysTo s.dirs i) node' (s'.linkParents i)
          (keysTo s'.dirs i))) ∨
    (s.counter < i ∧ s'.linkParents i = s.linkParents i ∧ ∃ args gid, node' = newNode args i gid ∧
        keysTo s'.dirs i = {(args.parent, args.name)})
  unallocated : ∀ i, s'.counter < i → s'.linkParents i = s.linkParents i

theorem Evolves.refl (allowed : StoredNode → Finset Place → Place → Prop) (s : Store) :
    Evolves allowed s s where
  files := fun _ node' stored file => .inl ⟨node', stored, file, .inl ⟨rfl, rfl, rfl⟩⟩
  unallocated := fun _ _ => rfl

/-! ### The scripts -/

theorem Touched.stored_file (touched : Touched s nodes nodes') (found : nodes' i = some node)
    (file : node.kind ≠ .dir) : nodes i = some node := by
  rcases touched i with same | ⟨record, delta, now, _, dir, write⟩
  · exact same ▸ found
  rw [write] at found
  obtain rfl := some.inj found
  exact absurd dir file

variable {place : Place} {table : AList fun _ : Place => Ino} {ino child : Ino} {now : Int}

theorem keysTo_erase_other (table : AList fun _ : Place => Ino)
    (other : table.lookup place ≠ some i) : (keysTo table i).erase place = keysTo table i :=
  Finset.erase_eq_of_notMem (by simpa using other)

theorem keysTo_erase_ne (entry : table.lookup place = some j) (other : i ≠ j) :
    (keysTo table i).erase place = keysTo table i :=
  keysTo_erase_other _ (by simp [entry, other.symm])

theorem keysTo_erase_free (free : table.lookup place = none) :
    (keysTo table i).erase place = keysTo table i :=
  keysTo_erase_other _ (by simp [free])

theorem Typed.ne_of_above (typed : Typed kinds s) (stored : s.nodes i = some node)
    (above : s.counter < j) : j ≠ i := by
  rintro rfl
  exact absurd (typed.stored stored).2.2.1 (Nat.not_le_of_gt above)

theorem Evolves.one (typed : Typed kinds s) (stored : s.nodes i = some node)
    (file : node.kind ≠ .dir)
    (nodes : Touched s (update s.nodes i (some node')) s'.nodes)
    (others : ∀ j, j ≠ i → s'.linkParents j = s.linkParents j ∧
      keysTo s'.dirs j = keysTo s.dirs j) (counter : s'.counter = s.counter)
    (change : RecordStep allowed node (s.linkParents i) (keysTo s.dirs i) node'
      (s'.linkParents i) (keysTo s'.dirs i)) : Evolves allowed s s' where
  files := by
    intro j record found isFile
    have base := nodes.stored_file found isFile
    left
    rcases mem_put base with ⟨rfl, rfl⟩ | ⟨here, old⟩
    · exact ⟨node, stored, file, .inr change⟩
    · obtain ⟨members, links⟩ := others j here
      exact ⟨record, old, isFile, .inl ⟨rfl, members, links⟩⟩
  unallocated := by
    intro j above
    rw [counter] at above
    exact (others j (typed.ne_of_above stored above)).1

theorem Evolves.none
    (nodes : ∀ i node, s'.nodes i = some node → node.kind ≠ .dir → s.nodes i = some node)
    (linkParents : s'.linkParents = s.linkParents)
    (links : ∀ i node, s.nodes i = some node → node.kind ≠ .dir →
      keysTo s'.dirs i = keysTo s.dirs i) : Evolves allowed s s' where
  files := by
    intro i node found file
    have before := nodes i node found file
    exact .inl ⟨node, before, file, .inl ⟨rfl, by rw [linkParents], links i node before file⟩⟩
  unallocated := fun i _ => by rw [linkParents]

section

variable (typed : Typed kinds s)

include typed

theorem keysTo_unallocated (above : s.counter < i) : keysTo s.dirs i = ∅ := by
  apply Finset.eq_empty_of_forall_notMem
  intro place mem
  exact absurd (typed.entries ((mem_keysTo _ _ _).mp mem)).2.2.1 (Nat.not_le_of_gt above)

theorem Typed.unallocated : s.nodes (s.counter + 1) = none := by
  cases found : s.nodes (s.counter + 1) with
  | none => rfl
  | some node => exact absurd (typed.stored found).2.2.1 (Nat.not_succ_le_self _)

variable {args : CreateArgs} {reply : CreateReply}

theorem createEntry_stored (ok : createEntry s args = .ok (reply, s')) :
    s'.nodes (s.counter + 1) = some (newNode args (s.counter + 1) reply.gid) := by
  obtain ⟨_, _, _, _, _, nodes, _⟩ := createEntry_ok ok
  rcases nodes (s.counter + 1) with same | ⟨node, _, _, stored, _, _⟩
  · rw [same, update_self]
  · rw [typed.unallocated] at stored
    cases stored

theorem createEntry_evolves (ok : createEntry s args = .ok (reply, s')) :
    Frame (StoredDir s) s s' ∧ Evolves allowed s s' := by
  have created := createEntry_stored typed ok
  obtain ⟨parent, parentStored, dir, free, _, nodes, dirs, linkParents, counter⟩ :=
    createEntry_ok ok
  refine ⟨⟨?_, ?_, ?_, by omega⟩, ?_, fun i _ => by rw [linkParents]⟩
  · intro i node' found
    by_cases here : i = s.counter + 1
    · subst here
      rw [created] at found
      obtain rfl := some.inj found
      exact .inr ⟨rfl, counter, rfl, rfl⟩
    left
    rcases nodes i with same | ⟨node, delta, now, stored, _, write⟩
    · rw [same, update_of_ne here] at found
      exact ⟨node', found, rfl, rfl, fun _ => rfl⟩
    rw [write] at found
    obtain rfl := some.inj found
    exact ⟨node, stored, rfl, rfl, fun _ => rfl⟩
  · intro place i entry
    rw [dirs] at entry
    rcases mem_insert entry with ⟨rfl, rfl⟩ | ⟨_, old⟩
    · refine .inr ⟨⟨parent, parentStored, dir⟩, _, created, fun _ same => ?_⟩
      have parentIsNew : s.counter + 1 = args.parent := same
      rw [← parentIsNew, typed.unallocated] at parentStored
      cases parentStored
    · exact .inl old
  · exact ((Present.refl s _).update _ _).touched nodes
  · intro i node' found file
    rcases mem_put (nodes.stored_file found file) with ⟨rfl, new⟩ | ⟨here, old⟩
    · refine .inr ⟨Nat.lt_succ_self _, by rw [linkParents], args, reply.gid, new, ?_⟩
      rw [dirs, keysTo_insert, if_pos rfl, keysTo_unallocated typed (Nat.lt_succ_self _)]
      rfl
    refine .inl ⟨node', old, file, .inl ⟨rfl, by rw [linkParents], ?_⟩⟩
    rw [dirs, keysTo_insert, if_neg here]
    exact keysTo_erase_free free

theorem link_evolves {attr : StoredAttr} (ok : link s ino place now = .ok (attr, s')) :
    Frame (fun p => p = place.1) s s' ∧ Evolves allowed s s' := by
  obtain ⟨node, stored, alive, file, free, nodes, dirs, linkParents, counter⟩ := link_ok ok
  have sameIno := (typed.stored stored).1
  have written : Touched s (update s.nodes ino (some (node.addLink now))) s'.nodes := by
    rw [nodes]
    exact .refl s _
  refine ⟨.of_keeps ?_ ?_ ?_ counter, .one typed stored file written ?_ counter ?_⟩
  · rw [nodes]
    exact (Keeps.refl s).update stored rfl rfl fun _ => rfl
  · intro other i entry
    rw [dirs] at entry
    rcases mem_insert entry with ⟨rfl, rfl⟩ | ⟨_, old⟩
    · refine .inr ⟨rfl, node.addLink now, ?_, fun dir => absurd dir file⟩
      rw [nodes, sameIno, update_self]
    · exact .inl old
  · rw [nodes]
    exact (Present.refl s _).update _ _
  · intro j other
    rw [linkParents, update_of_ne other, dirs, sameIno, keysTo_insert, if_neg other]
    exact ⟨rfl, keysTo_erase_free free⟩
  · rw [linkParents, update_self, dirs, sameIno, keysTo_insert, if_pos rfl]
    exact .add place now (by simp [free]) alive

theorem unlink_evolves (ok : unlink s place now = .ok (ino, s'))
    (permitted : ∀ node, s.nodes ino = some node → allowed node (keysTo s.dirs ino) place) :
    Frame (StoredDir s) s s' ∧ Evolves allowed s s' := by
  obtain ⟨node, entry, stored, file, nodes, dirs, linkParents, counter⟩ := unlink_ok ok
  have keeps : Keeps s (update s.nodes ino
      (some (node.dropLink (s.linkParents ino) place now))) :=
    (Keeps.refl s).update stored rfl rfl fun dir => absurd dir file
  refine ⟨.of_keeps (keeps.touched nodes) ?_ ?_ counter, .one typed stored file nodes ?_ counter ?_⟩
  · intro other i entry
    rw [dirs] at entry
    exact .inl (mem_erase entry).2
  · exact ((Present.refl s _).update _ _).touched nodes
  · intro j other
    rw [linkParents, update_of_ne other, dirs, keysTo_erase]
    exact ⟨rfl, keysTo_erase_ne entry other⟩
  · rw [linkParents, update_self, dirs, keysTo_erase]
    exact .drop place now (by simpa using entry) (permitted node stored)

end

theorem hlen_eq_zero : s.hlen ino = 0 ↔ ∀ name, s.dirs.lookup (ino, name) = none := by
  unfold Store.hlen
  rw [Keys.count_eq_zero]
  constructor
  · intro none name
    exact none (ino, name) (by simp)
  rintro none ⟨p, name⟩ here
  obtain rfl : p = ino := by simpa using here
  exact none name

/-- The table of an empty directory has nothing to lose. -/
theorem keysTo_erase_remove (empty : s.hlen child = 0) :
    keysTo (Keys.remove (fun inner => inner.1 = child) (s.dirs.erase place)) i =
      (keysTo s.dirs i).erase place := by
  have none_left : Keys.count (fun inner : Place => inner.1 = child) (s.dirs.erase place) = 0 := by
    rw [Keys.count_eq_zero]
    intro inner here
    rw [lookup_erase_eq]
    split
    · rfl
    · obtain rfl : inner.1 = child := by simpa using here
      exact hlen_eq_zero.mp empty inner.2
  rw [Keys.keysTo_remove_absent _ _ _ none_left, keysTo_erase]

section

variable (typed : Typed kinds s)

include typed

theorem rmdir_evolves (ok : rmdir s place child now = .ok ((), s')) :
    Frame (StoredDir s) s s' ∧ Evolves allowed s s' := by
  obtain ⟨node, entry, stored, dir, empty, ⟨touched, nodes, after⟩, dirs, linkParents, counter⟩ :=
    rmdir_ok typed ok
  refine ⟨.of_keeps ?_ ?_ ?_ counter, .none ?_ linkParents ?_⟩
  · rw [after]
    exact ((Keeps.refl s).touched nodes).erase child
  · intro other i entry
    rw [dirs] at entry
    exact .inl (mem_erase (mem_remove _ _ entry).2).2
  · rw [after]
    apply ((Present.refl s _).touched nodes).erase
    left
    intro name
    rw [dirs, lookup_remove, if_pos (by simp)]
  · intro i record found file
    rw [after] at found
    exact nodes.stored_file (mem_free found).2 file
  · intro i record before file
    rw [dirs, keysTo_erase_remove empty]
    apply keysTo_erase_ne entry
    rintro rfl
    rw [stored] at before
    obtain rfl := some.inj before
    exact file dir

theorem Typed.file_of_deleted (stored : s.nodes i = some node) (deleted : node.deleted = true) :
    node.kind ≠ .dir := by
  intro isDir
  rw [(typed.stored stored).2.2.2 isDir] at deleted
  cases deleted

theorem restoreTrash_evolves (ok : restoreTrash s ino place now = .ok ((), s')) :
    Frame (StoredDir s) s s' ∧ Evolves allowed s s' := by
  obtain ⟨node, parent, stored, deleted, zero, parentStored, dir, free, nodes, dirs, linkParents,
    counter⟩ := restoreTrash_ok ok
  have file := typed.file_of_deleted stored deleted
  have keeps : Keeps s (update s.nodes ino (some (node.revived place now))) :=
    (Keeps.refl s).update stored rfl rfl fun isDir => absurd isDir file
  refine ⟨.of_keeps (keeps.touched nodes) ?_ ?_ counter, .one typed stored file nodes ?_ counter ?_⟩
  · intro other i entry
    rw [dirs] at entry
    rcases mem_insert entry with ⟨rfl, rfl⟩ | ⟨_, old⟩
    · have isFile : kinds i ≠ .dir := by
        rw [← (typed.stored stored).2.1]
        exact file
      refine .inr ⟨⟨parent, parentStored, dir⟩, node.revived other now, ?_,
        fun isDir => absurd isDir file⟩
      rw [nodes.file typed isFile, update_self]
    · exact .inl old
  · exact ((Present.refl s _).update _ _).touched nodes
  · intro j other
    rw [linkParents, dirs, keysTo_insert, if_neg other]
    exact ⟨rfl, keysTo_erase_free free⟩
  · rw [linkParents, dirs, keysTo_insert, if_pos rfl]
    exact .revive place now zero (by simp [free])

end

section Clearing

variable {child : StoredNode} {ino : Ino} {target : Place} {now : Int} {cleared : Store}

section

variable (clear : Cleared s child ino target now cleared)

include clear

theorem Cleared.keeps : Keeps s cleared.nodes := by
  cases clear with
  | free _ => exact Keeps.refl s
  | @file _ replaced node remaining _ _ stored isFile _ _ _ nodes _ _ _ =>
    have same : (node.dropTarget remaining now).ino = node.ino ∧
        (node.dropTarget remaining now).kind = node.kind := by
      unfold StoredNode.dropTarget
      dsimp only
      split <;> exact ⟨rfl, rfl⟩
    rw [nodes]
    exact (Keeps.refl s).update stored same.1 same.2 fun dir => absurd (same.2 ▸ dir) isFile
  | dir _ _ _ _ _ _ nodes _ _ _ =>
    rw [nodes]
    exact (Keeps.refl s).erase _

theorem Cleared.target_ne : s.dirs.lookup target ≠ some ino := by
  cases clear with
  | free vacant => exact fun h => by rw [vacant] at h; cases h
  | file entry differs | dir entry differs =>
    rw [entry]
    exact fun same => differs (some.inj same)

theorem Cleared.counter_eq : cleared.counter = s.counter := by
  cases clear with
  | free _ => rfl
  | file _ _ _ _ _ _ _ _ _ _ counter => exact counter
  | dir _ _ _ _ _ _ _ _ _ counter => exact counter

theorem Cleared.lookup_target : cleared.dirs.lookup target = none := by
  cases clear with
  | free vacant => exact vacant
  | file _ _ _ _ _ _ _ _ dirs =>
    rw [dirs]
    exact AList.lookup_erase _ _
  | dir _ _ _ _ _ _ _ dirs =>
    rw [dirs, lookup_remove, AList.lookup_erase]
    split <;> rfl

theorem Cleared.lookup_old {place : Place} (entry : cleared.dirs.lookup place = some i) :
    s.dirs.lookup place = some i := by
  cases clear with
  | free _ => exact entry
  | file _ _ _ _ _ _ _ _ dirs =>
    rw [dirs] at entry
    exact (mem_erase entry).2
  | dir _ _ _ _ _ _ _ dirs =>
    rw [dirs] at entry
    exact (mem_erase (mem_remove _ _ entry).2).2

/-- Clearing the destination takes it from the replaced inode's links and changes no others. -/
theorem Cleared.links (i : Ino) : keysTo cleared.dirs i = (keysTo s.dirs i).erase target := by
  cases clear with
  | free vacant => rw [keysTo_erase_free vacant]
  | file _ _ _ _ _ _ _ _ dirs => rw [dirs, keysTo_erase]
  | @dir _ replaced _ _ _ _ _ _ empty _ dirs _ _ =>
    rw [dirs, keysTo_erase_remove empty]

end

end Clearing

section Moving

variable {source target : Place} {now : Int} {ino : Ino} {child : StoredNode} {cleared : Store}

section

variable (moved : Moved s source target now ino child cleared s')

include moved

theorem Moved.frame (typed : Typed kinds s) : Frame (StoredDir s) s s' := by
  have updated : Keeps s (update cleared.nodes ino (some (child.moveLink target now))) :=
    moved.clearing.keeps.update moved.stored rfl rfl fun _ => rfl
  have keeps : Keeps s s'.nodes := updated.touched moved.nodes
  refine .of_keeps keeps ?_ (Present.touched (Present.update ?_ _ _) moved.nodes)
    (moved.counter.trans moved.clearing.counter_eq)
  · intro place i entry
    rw [moved.dirs] at entry
    rcases mem_insert entry with ⟨rfl, rfl⟩ | ⟨_, old⟩
    · exact .inr ⟨moved.newParent,
        keeps.named moved.nodes (update_self ..) moved.stored moved.outside⟩
    · exact .inl (moved.clearing.lookup_old (mem_erase old).2)
  cases clearing : moved.clearing with
  | free _ => exact Present.refl s _
  | file _ _ _ _ _ _ _ nodes _ _ _ =>
    rw [nodes]
    exact (Present.refl s _).update _ _
  | @dir _ replaced _ entry _ _ _ _ _ nodes dirs _ _ =>
    rw [nodes]
    apply (Present.refl s _).erase
    left
    intro name
    have outside : (replaced, name) ≠ target := by
      intro here
      exact (typed.entries entry).2.2.2 (congrArg Prod.fst here)
    rw [moved.dirs, lookup_insert_eq, if_neg outside, lookup_erase_eq]
    split
    · rfl
    · rw [dirs, lookup_remove, if_pos (by simp)]

/-- Only the links of the moved inode and, before, of the replaced one change. -/
theorem Moved.links (other : i ≠ ino) : keysTo s'.dirs i = keysTo cleared.dirs i := by
  have notSource : cleared.dirs.lookup source ≠ some i := by
    intro entry
    have before := moved.clearing.lookup_old entry
    rw [moved.entry] at before
    exact other (some.inj before).symm
  rw [moved.dirs, keysTo_insert, if_neg other, keysTo_erase, keysTo_erase_other _ notSource,
    keysTo_erase_free moved.clearing.lookup_target]

theorem Moved.evolves (typed : Typed kinds s) : Evolves allowed s s' := by
  obtain ⟨members, found, linkParents⟩ := moved.linkParents
  constructor
  · intro i node' stored' file
    have base := moved.nodes.stored_file stored' file
    left
    rcases mem_put base with ⟨rfl, rfl⟩ | ⟨here, base⟩
    · refine ⟨child, moved.stored, file, .inr ?_⟩
      rw [linkParents, update_self, moved.dirs, keysTo_insert, if_pos rfl, keysTo_erase,
        moved.clearing.links, keysTo_erase_other _ moved.clearing.target_ne]
      exact .move source target now (by simpa using moved.entry)
        (by simpa using moved.clearing.target_ne) found
    rw [linkParents, update_of_ne here, moved.links here, moved.clearing.links]
    -- The other file is the replaced one or untouched.
    cases moved.clearing with
    | free vacant => exact ⟨node', base, file, .inl ⟨rfl, rfl, keysTo_erase_free vacant⟩⟩
    | @file _ replaced node remaining entry _ stored isFile _ size surviving nodes _ lp _ =>
      rw [nodes] at base
      rcases mem_put base with ⟨rfl, rfl⟩ | ⟨other, base⟩
      · refine ⟨node, stored, isFile, .inr ?_⟩
        rw [lp, update_self]
        exact .dropTarget target remaining now (by simpa using entry) size
          fun two => ⟨s, i, surviving two⟩
      · rw [lp, update_of_ne other]
        exact ⟨node', base, file, .inl ⟨rfl, rfl, keysTo_erase_ne entry other⟩⟩
    | @dir _ replaced _ entry _ _ _ _ _ nodes _ lp _ =>
      rw [nodes] at base
      obtain ⟨other, base⟩ := mem_free base
      rw [lp]
      exact ⟨node', base, file, .inl ⟨rfl, rfl, keysTo_erase_ne entry other⟩⟩
  · intro i above
    rw [moved.counter, moved.clearing.counter_eq] at above
    rw [linkParents, update_of_ne (typed.ne_of_above moved.stored above)]
    cases moved.clearing with
    | free _ => rfl
    | file _ _ stored _ _ _ _ _ _ lp _ =>
      rw [lp, update_of_ne (typed.ne_of_above stored above)]
    | dir _ _ _ _ _ _ _ _ lp _ => rw [lp]

end

theorem rename_evolves {noreplace : Bool} {reply : RenameReply} (typed : Typed kinds s)
    (ok : rename s source target noreplace now = .ok (reply, s')) :
    Frame (StoredDir s) s s' ∧ Evolves allowed s s' := by
  rcases rename_ok typed ok with rfl | ⟨ino, child, cleared, moved⟩
  · exact ⟨.refl _ _, .refl _ _⟩
  · exact ⟨moved.frame typed, moved.evolves typed⟩

end Moving

section Exchanging

variable {old new : Place} {now : Int} {oldIno newIno : Ino} {oldNode newNode : StoredNode}

section

variable (swap : Exchanged s old new now oldIno newIno oldNode newNode s')

include swap

theorem Exchanged.keeps : Keeps s s'.nodes := by
  have first : Keeps s (update s.nodes oldIno (some (oldNode.moveLink new now))) :=
    (Keeps.refl s).update swap.oldStored rfl rfl fun _ => rfl
  have second : Keeps s (update
      (update s.nodes oldIno (some (oldNode.moveLink new now))) newIno
      (some (newNode.moveLink old now))) :=
    first.update swap.newStored rfl rfl fun _ => rfl
  exact second.touched swap.nodes

theorem Exchanged.frame : Frame (StoredDir s) s s' := by
  refine .of_keeps swap.keeps ?_
    ((((Present.refl s _).update _ _).update _ _).touched swap.nodes) swap.counter
  intro place i entry
  rw [swap.dirs] at entry
  rcases mem_insert entry with ⟨rfl, rfl⟩ | ⟨_, entry⟩
  · exact .inr ⟨swap.newParent, swap.keeps.named swap.nodes
      (by rw [update_of_ne swap.differ, update_self]) swap.oldStored swap.oldOutside⟩
  rcases mem_insert entry with ⟨rfl, rfl⟩ | ⟨_, old⟩
  · exact .inr ⟨swap.oldParent,
      swap.keeps.named swap.nodes (update_self ..) swap.newStored swap.newOutside⟩
  · exact .inl old

theorem Exchanged.evolves (typed : Typed kinds s) : Evolves allowed s s' := by
  obtain ⟨oldMembers, newMembers, oldMoved, newMoved, linkParents⟩ := swap.linkParents
  have places : old ≠ new := by
    rintro rfl
    exact swap.differ (some.inj (swap.oldEntry.symm.trans swap.newEntry))
  constructor
  · intro i node' stored' file
    have base := swap.nodes.stored_file stored' file
    left
    rcases mem_put base with ⟨rfl, rfl⟩ | ⟨isNew, base⟩
    · refine ⟨newNode, swap.newStored, file, .inr ?_⟩
      rw [linkParents, update_self, swap.dirs, keysTo_insert, if_neg swap.differ.symm,
        keysTo_insert, if_pos rfl, Finset.erase_insert_of_ne places]
      refine .move new old now (by simpa using swap.newEntry) ?_ newMoved
      rw [mem_keysTo, swap.oldEntry]
      exact fun same => swap.differ (some.inj same)
    rw [linkParents, update_of_ne isNew]
    rcases mem_put base with ⟨rfl, rfl⟩ | ⟨isOld, base⟩
    · refine ⟨oldNode, swap.oldStored, file, .inr ?_⟩
      rw [update_self, swap.dirs, keysTo_insert, if_pos rfl, keysTo_insert, if_neg swap.differ]
      refine .move old new now (by simpa using swap.oldEntry) ?_ oldMoved
      rw [mem_keysTo, swap.newEntry]
      exact fun same => swap.differ (some.inj same).symm
    refine ⟨node', base, file, .inl ⟨rfl, by rw [update_of_ne isOld], ?_⟩⟩
    rw [swap.dirs, keysTo_insert, if_neg isOld, keysTo_insert, if_neg isNew,
      keysTo_erase_ne swap.oldEntry isOld, keysTo_erase_ne swap.newEntry isNew]
  · intro i above
    rw [swap.counter] at above
    rw [linkParents, update_of_ne (typed.ne_of_above swap.newStored above),
      update_of_ne (typed.ne_of_above swap.oldStored above)]

end

theorem renameExchange_evolves {reply : Ino × Ino} (typed : Typed kinds s)
    (ok : renameExchange s old new now = .ok (reply, s')) :
    Frame (StoredDir s) s s' ∧ Evolves allowed s s' := by
  rcases renameExchange_ok ok with rfl | ⟨_, _, _, _, swap⟩
  · exact ⟨.refl _ _, .refl _ _⟩
  · exact ⟨swap.frame, swap.evolves typed⟩

end Exchanging

theorem removeFileMetadata_evolves (ok : removeFileMetadata s ino = .ok ((), s')) :
    Frame (StoredDir s) s s' ∧ Evolves allowed s s' := by
  obtain ⟨nodes, dirs, linkParents, counter⟩ := removeFileMetadata_ok ok
  suffices Keeps s s'.nodes ∧ Present s _ s'.nodes ∧ ∀ i node, s'.nodes i = some node →
      s.nodes i = some node from ⟨.of_keeps this.1 (fun entry => .inl (dirs ▸ entry))
        this.2.1 counter, .none (fun i node found _ => this.2.2 i node found) linkParents
        fun i _ _ _ => by rw [dirs]⟩
  rcases nodes with same | ⟨node, stored, deleted, erased⟩
  · rw [same]
    exact ⟨.refl s, .refl s _, fun _ _ => id⟩
  rw [erased]
  exact ⟨(Keeps.refl s).erase ino, (Present.refl s _).erase (.inr ⟨node, stored, deleted⟩),
    fun i node found => (mem_free found).2⟩

end BrewFs.Meta.Redis
