import BrewFs.Meta.Client.PathResolution

/-! `meta/client/mod.rs`, `path_trie.rs`: the path cache of a client, with its trie and its reverse
index. The inode cache is left out: lookups and attributes are the store's. -/

namespace BrewFs.Meta.Client

open List Option AList
open Function (update update_of_ne)
open Database (rootIno)

/-- The terminal nodes of the trie by their components. -/
abbrev PathTrie := AList fun _ : List String => List Nat

namespace PathTrie

variable (trie : PathTrie) (path : Path)

def insertPath (ino : Nat) : PathTrie :=
  let inodes := (trie.lookup (segments path)).getD []
  trie.insert (segments path) (if ino ∈ inodes then inodes else inodes ++ [ino])

/-- The text collected for a node below the path. -/
def collected (path : Path) (node : List String) : Path :=
  (if segments path = [] then [""] else path) ++ node.drop (segments path).length

/-- The paths that `remove_by_prefix` returns. -/
def below : List (Path × List Nat) :=
  (trie.entries.filter fun node => (segments path).isPrefixOf node.1).map fun node =>
    (collected path node.1, node.2)

/-- What `remove_by_prefix` leaves. -/
def removeByPrefix : PathTrie :=
  Keys.remove (segments path).isPrefixOf trie

end PathTrie

/-- `inode_to_paths` -/
abbrev PathIndex := Nat → Option (List Path)

namespace PathIndex

variable (index : PathIndex) (ino : Nat) (path : Path)

def push : PathIndex :=
  update index ino (some ((index ino).getD [] ++ [path]))

def forget (path : Path) (index : PathIndex) (ino : Nat) : PathIndex :=
  match index ino with
  | none => index
  | some paths =>
    let kept := paths.filter (· ≠ path)
    update index ino (if kept = [] then none else some kept)

/-- The paths that were removed from the trie. -/
def forgetAll (index : PathIndex) (removed : List (Path × List Nat)) : PathIndex :=
  removed.foldl (fun index node => node.2.foldl (forget node.1) index) index

def Lists : Prop := ∃ paths ∈ index ino, path ∈ paths

end PathIndex

structure PathCache where
  tree : Tree
  cached : AList fun _ : Path => Nat
  trie : PathTrie
  index : PathIndex

inductive PathAction where
  | resolvePath (path : Path)
  | resolvePathFollow (path : Path)
  | createFile (parent : Nat) (name : String)
  | mkdir (parent : Nat) (name : String)
  | symlink (parent : Nat) (name : String) (target : Path)
  | unlink (parent : Nat) (name : String)
  | rmdir (parent : Nat) (name : String)
  | rename (oldParent : Nat) (oldName : String) (newParent : Nat) (newName : String)
  /-- The cache drops the path for reasons of its own. -/
  | evict (path : Path)

namespace PathCache

def init (tree : Tree) : PathCache := ⟨tree, ∅, ∅, fun _ => none⟩

/-- A round of `invalidate_parent_path`. -/
def dropPrefix (s : PathCache) (path : Path) : PathCache := { s with
    cached := Keys.remove (fun other => other ∈ (s.trie.below path).map Prod.fst) s.cached
    trie := s.trie.removeByPrefix path
    index := s.index.forgetAll (s.trie.below path) }

def invalidateParentPath (s : PathCache) (parent : Nat) : PathCache :=
  match s.index parent with
  | none => { s with cached := ∅ }
  | some paths =>
    let dropped := paths.foldl dropPrefix s
    { dropped with index := update dropped.index parent none }

variable (options : ResolveOptions) (s : PathCache)

/-- The resolution after a miss. -/
def resolveMiss (path : Path) (follow : Bool) : Except MetaError Nat × PathCache :=
  match (s.tree.resolve options follow path).answer with
  | .error error => (.error error, s)
  | .ok ino => (.ok ino, { s with
        cached := s.cached.insert path ino
        trie := s.trie.insertPath path ino
        index := s.index.push ino path })

def resolvePathImpl (path : Path) (follow : Bool) : Except MetaError Nat × PathCache :=
  if path = rootPath then (.ok rootIno, s)
  else
    match s.cached.lookup path with
    | some ino =>
      -- a link is served to `resolve_path` only
      if follow ∧ (s.tree.kinds ino).target?.isSome then s.resolveMiss options path follow
      else (.ok ino, s)
    | none => s.resolveMiss options path follow

/-- A call that changes the directories unless the store refuses it. -/
def mutate (parents : List Nat) (changed : Option Tree) : PathCache :=
  match changed with
  | none => s
  | some tree => parents.foldl invalidateParentPath { s with tree := tree }

/-- The store call after the check of the name. -/
def named (name : String) (changed : Option Tree) : Option Tree :=
  match validateEntryName name with
  | some _ => none
  | none => changed

def step : PathAction → Option PathCache
  | .resolvePath path => some (s.resolvePathImpl options path false).2
  | .resolvePathFollow path => some (s.resolvePathImpl options path true).2
  | .createFile parent name =>
      some (s.mutate [parent] (named name (s.tree.create parent name .file)))
  | .mkdir parent name => some (s.mutate [parent] (named name (s.tree.create parent name .dir)))
  | .symlink parent name target =>
    some (s.mutate [parent] (named name (s.tree.create parent name (.symlink target))))
  | .unlink parent name => some (s.mutate [parent] (named name (s.tree.remove parent name false)))
  | .rmdir parent name => some (s.mutate [parent] (named name (s.tree.remove parent name true)))
  | .rename oldParent oldName newParent newName =>
    if oldParent = newParent ∧ oldName = newName then some s
    else some (s.mutate (if oldParent = newParent then [oldParent] else [oldParent, newParent])
      (named newName (s.tree.rename oldParent oldName newParent newName)))
  | .evict path => some { s with cached := s.cached.erase path }

/-! ### When the cache is transparent -/

/-- One slash before each segment and none behind the last. -/
def Canonical (path : Path) : Prop := path = "" :: segments path ∧ segments path ≠ []

instance (path : Path) : Decidable (Canonical path) := inferInstanceAs (Decidable (_ ∧ _))

/-- The last segment of the path names a symbolic link. -/
def endsInLink (t : Tree) (path : Path) : Bool :=
  match (t.resolve options false path).answer with
  | .ok ino => (t.kinds ino).target?.isSome
  | .error _ => false

/-- The index has no path of the directory, or one that begins each cached path through it. -/
def Covered (dir : Nat) : Prop :=
  ∀ paths ∈ s.index dir, ∀ path ∈ s.cached.keys, ∀ follow,
    dir ∈ (s.tree.resolve options follow path).visited → ∃ start ∈ paths, start <+: path

instance (dir : Nat) : Decidable (s.Covered options dir) :=
  inferInstanceAs (Decidable (∀ paths ∈ s.index dir, ∀ path ∈ s.cached.keys, ∀ follow,
    dir ∈ (s.tree.resolve options follow path).visited → ∃ start ∈ paths, start <+: path))

/-- Paths are canonical, `resolve_path` does not find what a followed link left in the cache, and a
directory changes only when the index covers it. -/
def InStep : PathAction → Prop
  | .resolvePath path => (path = rootPath ∨ Canonical path) ∧ ∀ ino ∈ s.cached.lookup path,
        (s.tree.kinds ino).target?.isSome ∨ endsInLink options s.tree path = false
  | .resolvePathFollow path => path = rootPath ∨ Canonical path
  | .createFile parent _ | .mkdir parent _ | .symlink parent _ _ | .unlink parent _
  | .rmdir parent _ => s.Covered options parent
  | .rename oldParent _ newParent _ => s.Covered options oldParent ∧ s.Covered options newParent
  | .evict _ => True

instance (action : PathAction) : Decidable (s.InStep options action) := by
  cases action <;> unfold InStep <;> infer_instance

end PathCache

/-! ### The reverse index -/

namespace PathIndex

variable {index : PathIndex} {ino dir : Nat} {path other : Path}

theorem lists_forget :
    (forget path index ino).Lists dir other ↔ index.Lists dir other ∧
      ¬(dir = ino ∧ other = path) := by
  unfold forget
  cases known : index ino with
  | none =>
    refine ⟨fun listed => ⟨listed, fun same => ?_⟩, And.left⟩
    obtain ⟨paths, found, _⟩ := listed
    cases known.symm.trans (same.1 ▸ found)
  | some paths =>
    by_cases here : dir = ino
    · subst here
      have kept : other ∈ paths.filter (· ≠ path) ↔ other ∈ paths ∧ other ≠ path := by
        simp
      simp only [Lists, Function.update_self, known, true_and]
      split
      · rename_i none
        rw [none] at kept
        constructor
        · rintro ⟨_, found, _⟩
          cases found
        rintro ⟨⟨_, found, listed⟩, differs⟩
        cases found
        cases kept.mpr ⟨listed, differs⟩
      · simp only [mem_some, exists_eq_left', kept]
    · simp only [Lists, update_of_ne here, here, false_and, not_false_eq_true, and_true]

variable {removed : List (Path × List Nat)}

theorem forgetAll_induct {motive : PathIndex → Prop} (start : motive index)
    (step : ∀ node ∈ removed, ∀ ino later, motive later → motive (forget node.1 later ino)) :
    motive (index.forgetAll removed) :=
  foldlRecOn removed _ start fun _ before node listed =>
    foldlRecOn node.2 _ before fun later kept ino _ => step node listed ino later kept

theorem lists_forgetAll : (index.forgetAll removed).Lists dir other → index.Lists dir other :=
  forgetAll_induct (motive := fun later => later.Lists dir other → index.Lists dir other) id
    fun _ _ _ _ kept listed => kept (lists_forget.mp listed).1

theorem forgetAll_lists (listed : index.Lists dir other) (kept : other ∉ removed.map Prod.fst) :
    (index.forgetAll removed).Lists dir other :=
  forgetAll_induct (motive := fun later => later.Lists dir other) listed
    fun _ mem _ _ listed => lists_forget.mpr ⟨listed, fun same =>
      kept (mem_map.mpr ⟨_, mem, same.2.symm⟩)⟩

theorem known_forget (known : (forget path index ino dir).isSome) : (index dir).isSome := by
  unfold forget at known
  cases found : index ino with
  | none =>
    simp only [found] at known
    exact known
  | some paths =>
    simp only [found] at known
    by_cases here : dir = ino
    · rw [here, found]
      rfl
    · rwa [update_of_ne here] at known

theorem known_forgetAll : (index.forgetAll removed dir).isSome → (index dir).isSome :=
  forgetAll_induct (motive := fun later => (later dir).isSome → (index dir).isSome) id
    fun _ _ _ _ kept known => kept (known_forget known)

theorem lists_push (listed : (index.push ino path).Lists dir other) :
    index.Lists dir other ∨ other = path := by
  obtain ⟨paths, found, mem⟩ := listed
  rcases Slots.mem_put found with ⟨rfl, rfl⟩ | ⟨_, old⟩
  · rcases mem_append.mp mem with before | last
    · cases known : index dir with
      | none => rw [known] at before; cases before
      | some old => exact .inl ⟨old, known, by rwa [known] at before⟩
    · exact .inr (mem_singleton.mp last)
  · exact .inl ⟨paths, old, mem⟩

end PathIndex

namespace PathCache

variable {options : ResolveOptions} {s : PathCache} {path other : Path}

/-! ### Invalidation -/

/-- Every cached path has a trie node under which it can be removed. -/
structure Keyed (s : PathCache) : Prop where
  cached : ∀ path ∈ s.cached, Canonical path ∧ segments path ∈ s.trie
  index : ∀ {dir path}, s.index.Lists dir path → Canonical path

variable {start : Path}

/-- A canonical path is spelled as the trie collects it. -/
theorem Canonical.collected (canonical : Canonical path) (canonicalStart : Canonical start)
    (early : start <+: path) :
    segments start <+: segments path ∧ PathTrie.collected start (segments path) = path := by
  have segmentsPrefix : segments start <+: segments path := List.IsPrefix.filter _ early
  refine ⟨segmentsPrefix, ?_⟩
  obtain ⟨rest, same⟩ := segmentsPrefix
  rw [PathTrie.collected, if_neg canonicalStart.2, ← same, drop_left]
  calc start ++ rest = ("" :: segments start) ++ rest := by rw [← canonicalStart.1]
    _ = "" :: segments path := by rw [cons_append, same]
    _ = path := canonical.1.symm

theorem Canonical.begins (canonical : Canonical path) (canonicalStart : Canonical start)
    (early : segments start <+: segments path) : start <+: path := by
  rw [canonical.1, canonicalStart.1]
  exact cons_prefix_cons.mpr ⟨rfl, early⟩

theorem mem_dropPrefix : path ∈ (s.dropPrefix other).cached ↔
    path ∈ s.cached ∧ path ∉ (s.trie.below other).map Prod.fst := by
  rw [← lookup_isSome, ← lookup_isSome, dropPrefix, Keys.lookup_remove]
  split
  · rename_i removed
    simpa using fun _ => mem_map.mp (of_decide_eq_true removed)
  rename_i kept
  rw [decide_eq_true_eq] at kept
  exact ⟨fun here => ⟨here, kept⟩, And.left⟩

/-- The cached paths below a canonical path are dropped. -/
theorem Keyed.dropPrefix_removes (keyed : Keyed s) (canonical : Canonical start)
    (here : path ∈ (s.dropPrefix start).cached) : ¬ start <+: path := by
  intro early
  obtain ⟨cached, kept⟩ := mem_dropPrefix.mp here
  obtain ⟨canonicalPath, node⟩ := keyed.cached path cached
  obtain ⟨below, spelled⟩ := canonicalPath.collected canonical early
  obtain ⟨inodes, found⟩ := isSome_iff_exists.mp (lookup_isSome.mpr node)
  refine kept (mem_map.mpr ⟨(path, inodes), mem_map.mpr ⟨⟨segments path, inodes⟩, ?_, ?_⟩, rfl⟩)
  · exact mem_filter.mpr ⟨mem_lookup_iff.mp found, isPrefixOf_iff_prefix.mpr below⟩
  · rw [spelled]

theorem Keyed.dropPrefix (keyed : Keyed s) (canonical : Canonical start) :
    Keyed (s.dropPrefix start) where
  cached := fun path here => by
    obtain ⟨canonicalPath, node⟩ := keyed.cached path (mem_dropPrefix.mp here).1
    refine ⟨canonicalPath, ?_⟩
    have apart : ¬ (segments start).isPrefixOf (segments path) = true := fun below =>
      keyed.dropPrefix_removes canonical here
        (canonicalPath.begins canonical <| isPrefixOf_iff_prefix.mp below)
    rw [← lookup_isSome] at node ⊢
    rwa [PathCache.dropPrefix, PathTrie.removeByPrefix, Keys.lookup_remove, if_neg apart]
  index := fun listed => keyed.index (PathIndex.lists_forgetAll listed)

/-- The cache keeps a part of what it had. -/
structure Shrinks (s later : PathCache) : Prop where
  tree : later.tree = s.tree
  lookup : ∀ {path ino}, later.cached.lookup path = some ino → s.cached.lookup path = some ino
  known : ∀ dir, (later.index dir).isSome → (s.index dir).isSome

theorem Shrinks.refl (s : PathCache) : Shrinks s s := ⟨rfl, id, fun _ => id⟩

variable {later : PathCache} {tree : Tree} {dir ino : Nat}

theorem Shrinks.trans {last : PathCache} (first : Shrinks s later) (second : Shrinks later last) :
    Shrinks s last where
  tree := second.tree.trans first.tree
  lookup := fun found => first.lookup (second.lookup found)
  known := fun dir known => first.known dir (second.known dir known)

theorem Shrinks.mem (shrinks : Shrinks s later) (here : path ∈ later.cached) : path ∈ s.cached := by
  obtain ⟨ino, found⟩ := isSome_iff_exists.mp (lookup_isSome.mpr here)
  rw [← lookup_isSome, shrinks.lookup found]
  rfl

theorem shrinks_dropPrefix : Shrinks s (s.dropPrefix start) where
  tree := rfl
  lookup := fun found => (Keys.mem_remove _ _ found).2
  known := fun _ known => PathIndex.known_forgetAll known

/-- A listed path stays listed while a path that begins with it is cached. -/
theorem Keyed.lists_dropPrefix (keyed : Keyed s) {listed : Path} (canonical : Canonical start)
    (before : s.index.Lists dir listed) (here : path ∈ (s.dropPrefix start).cached)
    (early : listed <+: path) : (s.dropPrefix start).index.Lists dir listed := by
  refine PathIndex.forgetAll_lists before fun removed => ?_
  obtain ⟨entry, mem, spelled⟩ := mem_map.mp removed
  obtain ⟨node, _, collected⟩ := mem_map.mp mem
  -- what is collected below a path begins with it
  have start_early : start <+: listed := by
    rw [← spelled, ← collected, PathTrie.collected, if_neg canonical.2]
    exact prefix_append _ _
  exact keyed.dropPrefix_removes canonical here (start_early.trans early)

/-- What `invalidate_parent_path` has done after some paths. -/
structure Dropped (s later : PathCache) (paths : List Path) : Prop where
  keyed : Keyed later
  shrinks : Shrinks s later
  gone : ∀ path ∈ later.cached, ∀ start ∈ paths, ¬ start <+: path
  lists : ∀ path ∈ later.cached, ∀ dir start, start <+: path → s.index.Lists dir start →
    later.index.Lists dir start

theorem Keyed.dropAll {paths : List Path} (keyed : Keyed s)
    (canonical : ∀ start ∈ paths, Canonical start) :
    Dropped s (paths.foldl PathCache.dropPrefix s) paths := by
  induction paths generalizing s with
  | nil =>
    exact ⟨keyed, .refl s, nofun, fun _ _ _ _ _ => id⟩
  | cons first rest ih =>
    rw [forall_mem_cons] at canonical
    have dropped := ih (keyed.dropPrefix canonical.1) canonical.2
    refine ⟨dropped.keyed, shrinks_dropPrefix.trans dropped.shrinks,
      fun path here start listed => ?_, fun path here dir start early listed => ?_⟩
    · rcases mem_cons.mp listed with rfl | later
      · exact keyed.dropPrefix_removes canonical.1 (dropped.shrinks.mem here)
      · exact dropped.gone path here start later
    · exact dropped.lists path here dir start early
        (keyed.lists_dropPrefix canonical.1 listed (dropped.shrinks.mem here) early)

/-- The effect of `invalidate_parent_path`. -/
structure Invalidated (s later : PathCache) (parent : Nat) : Prop where
  keyed : Keyed later
  shrinks : Shrinks s later
  listed : ∀ path ∈ later.cached, ∃ paths ∈ s.index parent, ∀ start ∈ paths, ¬ start <+: path
  lists : ∀ path ∈ later.cached, ∀ dir ≠ parent, ∀ start, start <+: path →
    s.index.Lists dir start → later.index.Lists dir start

theorem Keyed.invalidateParentPath (keyed : Keyed s) (parent : Nat) :
    Invalidated s (s.invalidateParentPath parent) parent := by
  unfold PathCache.invalidateParentPath
  cases known : s.index parent with
  | none =>
    exact ⟨⟨nofun, keyed.index⟩, ⟨rfl, nofun, fun _ => id⟩, nofun, nofun⟩
  | some paths =>
    have dropped := keyed.dropAll fun start listed => keyed.index ⟨paths, known, listed⟩
    refine ⟨⟨dropped.keyed.cached, fun ⟨found, here, listed⟩ =>
        dropped.keyed.index ⟨found, (Slots.mem_free here).2, listed⟩⟩,
      ⟨dropped.shrinks.tree, dropped.shrinks.lookup, fun dir known => ?_⟩,
      fun path here => ⟨paths, known, dropped.gone path here⟩,
      fun path here dir other start early listed => ?_⟩
    · obtain ⟨found, here⟩ := isSome_iff_exists.mp known
      exact dropped.shrinks.known dir (isSome_of_mem (Slots.mem_free here).2)
    · obtain ⟨found, known, listed⟩ := dropped.lists path here dir start early listed
      exact ⟨found, (update_of_ne other ..).trans known, listed⟩

/-- Invalidating a covered directory drops the paths through it. -/
theorem Covered.avoids (covered : s.Covered options dir)
    (invalidated : Invalidated { s with tree := tree } later dir) (here : path ∈ later.cached)
    (follow : Bool) : dir ∉ (s.tree.resolve options follow path).visited := by
  intro through
  obtain ⟨paths, known, apart⟩ := invalidated.listed path here
  obtain ⟨start, listed, early⟩ := covered paths known path
    (mem_keys.mp (invalidated.shrinks.mem here)) follow through
  exact apart start listed early

/-! ### Steps -/

/-- A cached path leads where the store leads it in one of the modes. -/
structure Sound (options : ResolveOptions) (s : PathCache) : Prop where
  keyed : Keyed s
  fresh : ∀ {path ino}, s.cached.lookup path = some ino →
    ∃ follow, (s.tree.resolve options follow path).answer = .ok ino

theorem sound_init (options : ResolveOptions) (tree : Tree) : Sound options (init tree) where
  keyed := ⟨nofun, fun ⟨_, found, _⟩ => by cases found⟩
  fresh := nofun

/-- Cached paths keep leading where they led when none runs through a changed directory. -/
theorem Sound.change (sound : Sound options s) {dirs : List Nat}
    (changes : s.tree.Changes tree dirs) (keyed : Keyed later)
    (shrinks : Shrinks { s with tree := tree } later)
    (avoids : ∀ path ∈ later.cached, ∀ follow, ∀ dir ∈ dirs,
      dir ∉ (s.tree.resolve options follow path).visited) : Sound options later where
  keyed := keyed
  fresh {path _} found := by
    have here : path ∈ later.cached := by
      rw [← lookup_isSome, found]
      rfl
    obtain ⟨follow, leads⟩ := sound.fresh (shrinks.lookup found)
    refine ⟨follow, ?_⟩
    rw [shrinks.tree, changes.resolve_eq (avoids path here follow)]
    exact leads

theorem Keyed.setTree (keyed : Keyed s) (tree : Tree) : Keyed { s with tree := tree } :=
  ⟨keyed.cached, keyed.index⟩

variable {changed : Option Tree}

section

variable (sound : Sound options s)

include sound

theorem Sound.mutate_one {parent : Nat} (covered : s.Covered options parent)
    (changes : ∀ tree ∈ changed, s.tree.Changes tree [parent]) :
    Sound options (s.mutate [parent] changed) := by
  cases changed with
  | none => exact sound
  | some tree =>
    have invalidated := (sound.keyed.setTree tree).invalidateParentPath parent
    apply sound.change (changes tree rfl) invalidated.keyed invalidated.shrinks
    intro path here follow dir listed
    obtain rfl := mem_singleton.mp listed
    exact covered.avoids invalidated here follow

theorem Sound.mutate_two {first second : Nat} (coveredFirst : s.Covered options first)
    (coveredSecond : s.Covered options second) (apart : first ≠ second)
    (changes : ∀ tree ∈ changed, s.tree.Changes tree [first, second]) :
    Sound options (s.mutate [first, second] changed) := by
  cases changed with
  | none => exact sound
  | some tree =>
    have early := (sound.keyed.setTree tree).invalidateParentPath first
    have late := early.keyed.invalidateParentPath second
    have shrinks := early.shrinks.trans late.shrinks
    apply sound.change (changes tree rfl) late.keyed shrinks
    intro path here follow dir listed
    rcases mem_pair.mp listed with rfl | rfl
    · exact coveredFirst.avoids early (late.shrinks.mem here) follow
    intro through
    obtain ⟨paths, known, gone⟩ := late.listed path here
    -- the index has lost no path of the second directory that begins a path still cached
    obtain ⟨before, knownBefore⟩ :=
      isSome_iff_exists.mp (early.shrinks.known dir (isSome_of_mem known))
    obtain ⟨start, listed, begins⟩ := coveredSecond before knownBefore path
      (mem_keys.mp (shrinks.mem here)) follow through
    obtain ⟨found, knownStill, listed⟩ := early.lists path (late.shrinks.mem here) dir apart.symm
      start begins ⟨before, knownBefore, listed⟩
    cases knownStill.symm.trans known
    exact gone start listed begins

/-! ### Resolution -/

theorem Sound.insert (canonical : Canonical path) {follow : Bool}
    (leads : (s.tree.resolve options follow path).answer = .ok ino) :
    Sound options { s with
      cached := s.cached.insert path ino
      trie := s.trie.insertPath path ino
      index := s.index.push ino path } where
  keyed := {
    cached := fun other here => by
      rw [← lookup_isSome, PathTrie.insertPath, Keys.lookup_insert_eq]
      rcases (mem_insert _).mp here with rfl | before
      · rw [if_pos rfl]
        exact ⟨canonical, rfl⟩
      obtain ⟨canonicalOther, node⟩ := sound.keyed.cached other before
      refine ⟨canonicalOther, ?_⟩
      split
      · rfl
      · exact lookup_isSome.mpr node
    index := fun listed => by
      rcases PathIndex.lists_push listed with before | rfl
      · exact sound.keyed.index before
      · exact canonical }
  fresh := fun here => by
    rcases Keys.mem_insert here with ⟨rfl, rfl⟩ | ⟨_, old⟩
    · exact ⟨follow, leads⟩
    · exact sound.fresh old

theorem Sound.resolveMiss (canonical : Canonical path) (follow : Bool) :
    Sound options (s.resolveMiss options path follow).2 := by
  unfold PathCache.resolveMiss
  split
  · exact sound
  · rename_i leads
    exact sound.insert canonical leads

end

theorem resolveMiss_answer (follow : Bool) :
    (s.resolveMiss options path follow).1 = (s.tree.resolve options follow path).answer := by
  unfold resolveMiss
  split
  · rename_i failed
    exact failed.symm
  · rename_i leads
    exact leads.symm

theorem Sound.resolvePathImpl (sound : Sound options s)
    (canonical : path = rootPath ∨ Canonical path)
    (follow : Bool) : Sound options (s.resolvePathImpl options path follow).2 := by
  unfold PathCache.resolvePathImpl
  split
  · exact sound
  rename_i below
  have canonical := canonical.resolve_left below
  split
  · split
    · exact sound.resolveMiss canonical follow
    · exact sound
  · exact sound.resolveMiss canonical follow

theorem Sound.evict (sound : Sound options s) (path : Path) :
    Sound options { s with cached := s.cached.erase path } where
  keyed := ⟨fun other here => sound.keyed.cached other (mem_erase.mp here).2,
    sound.keyed.index⟩
  fresh := fun found => by
    rw [Keys.lookup_erase_eq, ite_none_left_eq_some] at found
    exact sound.fresh found.2

theorem named_eq_some {name : String} (done : named name changed = some tree) :
    changed = some tree := by
  unfold named at done
  split at done
  · cases done
  · exact done

theorem Sound.step (s : PathCache) (action : PathAction) (next : PathCache)
    (sound : Sound options s) (inStep : s.InStep options action)
    (taken : s.step options action = some next) : Sound options next := by
  cases action with
  | resolvePath path =>
    cases taken
    exact sound.resolvePathImpl inStep.1 false
  | resolvePathFollow path =>
    cases taken
    exact sound.resolvePathImpl inStep true
  | createFile parent name | mkdir parent name | symlink parent name target =>
    cases taken
    exact sound.mutate_one inStep fun tree done => Tree.create_changes (named_eq_some done)
  | unlink parent name | rmdir parent name =>
    cases taken
    exact sound.mutate_one inStep fun tree done => Tree.remove_changes (named_eq_some done)
  | rename oldParent oldName newParent newName =>
    simp only [PathCache.step] at taken
    split at taken <;> cases taken
    · exact sound
    have changes : ∀ tree ∈ named newName (s.tree.rename oldParent oldName newParent newName),
        s.tree.Changes tree [oldParent, newParent] :=
      fun tree done => Tree.rename_changes (named_eq_some done)
    split
    · rename_i same
      subst same
      refine sound.mutate_one inStep.1 fun tree done => ?_
      have changes := changes tree done
      exact ⟨fun dir other => changes.entries dir (by simpa using other), changes.kinds⟩
    · rename_i apart
      exact sound.mutate_two inStep.1 inStep.2 apart changes
  | evict path =>
    cases taken
    exact sound.evict path

/-- What is found in the cache is the answer of the store. -/
theorem Sound.hit (sound : Sound options s) (found : s.cached.lookup path = some ino) :
    ((s.tree.kinds ino).target?.isSome ∨ endsInLink options s.tree path = false →
      (s.tree.resolve options false path).answer = .ok ino) ∧
    ((s.tree.kinds ino).target? = none → (s.tree.resolve options true path).answer = .ok ino) := by
  obtain ⟨follow, leads⟩ := sound.fresh found
  cases follow with
  | false =>
    refine ⟨fun _ => leads, fun plain => ?_⟩
    rw [← leads]
    refine Tree.resolve_follow fun link reached => ?_
    cases leads.symm.trans reached
    exact plain
  | true =>
    refine ⟨fun kind => ?_, fun _ => leads⟩
    have plain := Tree.resolve_not_link leads
    rw [plain] at kind
    have last := kind.resolve_left (by simp)
    rw [← leads]
    refine (Tree.resolve_follow fun link reached => ?_).symm
    rw [endsInLink, reached] at last
    exact not_isSome_iff_eq_none.mp (by simp [last])

/-- In a run that meets the condition, `resolve_path` and `resolve_path_follow` answer as with an
empty path cache. -/
theorem path_cache_transparent (options : ResolveOptions) (tree : Tree) (actions : List PathAction)
    (final : PathCache) (inStep : Run.Along (step options) (InStep options) (init tree) actions)
    (run : Run.exec (step options) (init tree) actions = some final) (path : Path) :
    (final.InStep options (.resolvePath path) → (final.resolvePathImpl options path false).1 =
        ({ final with cached := ∅ }.resolvePathImpl options path false).1) ∧
    (final.resolvePathImpl options path true).1 =
      ({ final with cached := ∅ }.resolvePathImpl options path true).1 := by
  have sound : Sound options final :=
    Run.invariant_along Sound.step (sound_init options tree) inStep run
  have empty : ∀ follow, path ≠ rootPath →
      ({ final with cached := ∅ }.resolvePathImpl options path follow).1 =
        (final.tree.resolve options follow path).answer := by
    intro follow below
    rw [resolvePathImpl, if_neg below]
    exact resolveMiss_answer follow
  by_cases root : path = rootPath
  · subst root
    exact ⟨fun _ => rfl, rfl⟩
  rw [empty false root, empty true root, resolvePathImpl, if_neg root, resolvePathImpl, if_neg root]
  cases found : final.cached.lookup path with
  | none => exact ⟨fun _ => resolveMiss_answer false, resolveMiss_answer true⟩
  | some ino =>
    obtain ⟨plain, followed⟩ := sound.hit found
    refine ⟨fun asked => ?_, ?_⟩
    · exact (plain (asked.2 ino found)).symm
    simp only [true_and]
    split
    · exact resolveMiss_answer true
    · rename_i kind
      exact (followed (not_isSome_iff_eq_none.mp kind)).symm

def fewLinks : ResolveOptions := ⟨40, 100⟩

/-- A path is cached below a directory the index knows, then the file is removed. -/
def removedFile : List PathAction :=
  [.mkdir 1 "d", .createFile 2 "x", .resolvePath ["", "d"], .resolvePath ["", "d", "x"],
    .unlink 2 "x"]

theorem path_cache_transparent_after_unlink :
    ∃ final, Run.exec (step fewLinks) (init Tree.empty) removedFile = some final ∧
      (final.resolvePathImpl fewLinks ["", "d", "x"] false).1 =
        ({ final with cached := ∅ }.resolvePathImpl fewLinks ["", "d", "x"] false).1 :=
  have run : Run.exec (step fewLinks) (init Tree.empty) removedFile = some _ := rfl
  ⟨_, run, (path_cache_transparent fewLinks Tree.empty removedFile _ (by decide +kernel) run
    ["", "d", "x"]).1 (by decide +kernel)⟩

/-- A link and the file it leads to; the link has been followed. -/
def followedLink : List PathAction :=
  [.createFile 1 "t", .symlink 1 "l" ["", "t"], .resolvePathFollow ["", "l"]]

/-- `resolve_path` answers with the inode the link leads to. -/
theorem link_followed_by_resolve_path :
    ∃ final, Run.exec (step fewLinks) (init Tree.empty) followedLink = some final ∧
      (final.resolvePathImpl fewLinks ["", "l"] false).1 = .ok 2 ∧
      ({ final with cached := ∅ }.resolvePathImpl fewLinks ["", "l"] false).1 = .ok 3 :=
  Run.reaches (by decide +kernel)

end PathCache

end BrewFs.Meta.Client
