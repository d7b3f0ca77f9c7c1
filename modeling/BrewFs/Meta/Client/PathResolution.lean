import BrewFs.Meta.Client.Tree

/-! `meta/client/mod.rs`: the resolution of a path over the directory tree of the store, without the
path cache, for a client whose names are case-sensitive and whose root is the root of the store. -/

namespace BrewFs.Meta.Client

open Database (rootIno climb)

inductive MetaError where
  | notFound (ino : Nat)
  | notDirectory (ino : Nat)
  | invalidFilename
  | filenameTooLong
  | tooManySymlinks
deriving DecidableEq, Repr

def nameMax : Nat := 255

/-- `validate_entry_name` -/
def validateEntryName (name : String) : Option MetaError :=
  if name = "" then some .invalidFilename
  else if name.utf8ByteSize > nameMax then some .filenameTooLong
  else if '/' ∈ name.toList ∨ '\x00' ∈ name.toList then some .invalidFilename
  else none

/-- The path `/`. -/
def rootPath : Path := ["", ""]

/-- `trim_start_matches('/').split('/').filter(|s| !s.is_empty())` -/
def segments (path : Path) : List String := path.filter (· ≠ "")

/-- `starts_with('/')` -/
def isAbsolute : Path → Bool
  | "" :: _ :: _ => true
  | _ => false

def normalizePath (path : Path) : Path :=
  let components := path.foldl (fun components part =>
    if part = "" ∨ part = "." then components
    else if part = ".." then components.dropLast
    else components ++ [part]) []
  if isAbsolute path then
    if components = [] then rootPath else "" :: components
  else if components = [] then [""] else components

/-- The target of a symbolic link. -/
def FileType.target? : FileType → Option Path
  | .symlink target => some target
  | .dir | .file => none

/-- How the pass over the segments ends. -/
inductive WalkEnd where
  | reached (ino : Nat)
  | failed (error : MetaError)
  /-- A symbolic link leads on to another path. -/
  | followLink (path : Path)
deriving DecidableEq, Repr

structure Walk where
  /-- The directories in which a name was looked up. -/
  visited : List Nat
  outcome : WalkEnd

structure Resolution where
  visited : List Nat
  answer : Except MetaError Nat

structure ResolveOptions where
  maxSymlinks : Nat
  /-- A bound on the store's rounds in building a directory's path. -/
  pathRounds : Nat

namespace Tree

/-- The first of `get_paths`. -/
def pathOf (rounds : Nat) (t : Tree) (dir : Nat) : Path :=
  if dir = rootIno then rootPath
  else
    match ((t.parents dir).bind fun place =>
        climb rootIno t.parents rounds place.1 [place.2]).getD [] with
    | [] => rootPath
    | part :: parts => "" :: part :: parts

/-- The path on which a link of the directory leads on. -/
def followPath (rounds : Nat) (t : Tree) (dir : Nat) (target : Path) (rest : List String) : Path :=
  let resolved :=
    if isAbsolute target then target
    else if t.pathOf rounds dir = rootPath then "" :: target
    else t.pathOf rounds dir ++ target
  if rest = [] then normalizePath resolved else normalizePath (resolved ++ rest)

/-- The followed target: of a link before the last segment, or of any. -/
def followed (t : Tree) (follow : Bool) (rest : List String) (child : Nat) : Option Path :=
  if rest ≠ [] ∨ follow then (t.kinds child).target? else none

def walk (rounds : Nat) (t : Tree) (follow : Bool) : List String → Nat → Walk
  | [], current => ⟨[], .reached current⟩
  | segment :: rest, current =>
    if t.kinds current ≠ .dir then ⟨[], .failed (.notDirectory current)⟩
    else
      match validateEntryName segment with
      | some error => ⟨[], .failed error⟩
      | none =>
        match t.entries current segment with
        | none => ⟨[current], .failed (.notFound current)⟩
        | some child =>
          match t.followed follow rest child with
          | some target => ⟨[current], .followLink (t.followPath rounds current target rest)⟩
          | none =>
            let later := t.walk rounds follow rest child
            ⟨current :: later.visited, later.outcome⟩

/-- At most so many passes. -/
def passes (rounds : Nat) (t : Tree) (follow : Bool) : Nat → Path → Resolution
  | 0, _ => ⟨[], .error .tooManySymlinks⟩
  | left + 1, path =>
    let pass := t.walk rounds follow (segments path) rootIno
    match pass.outcome with
    | .reached ino => ⟨pass.visited, .ok ino⟩
    | .failed error => ⟨pass.visited, .error error⟩
    | .followLink next =>
      let later := t.passes rounds follow left next
      ⟨pass.visited ++ later.visited, later.answer⟩

/-- `resolve_path_impl` after a miss in the path cache. -/
def resolve (options : ResolveOptions) (t : Tree) (follow : Bool) (path : Path) : Resolution :=
  t.passes options.pathRounds follow options.maxSymlinks path

/-! ### What a resolution depends on -/

variable {t next : Tree} {rounds : Nat} {follow : Bool}

/-- Both trees have the directory at the same place. -/
inductive Anchored (t next : Tree) : Nat → Prop where
  | root : Anchored t next rootIno
  | entry {dir child : Nat} {name : String} (above : Anchored t next dir)
      (here : t.entries dir name = some child) (there : next.entries dir name = some child)
      (directory : t.kinds child = .dir) (directory' : next.kinds child = .dir) :
      Anchored t next child

variable {dir current ino : Nat} {segments : List String}

section

variable (anchored : Anchored t next dir)

include anchored

theorem Anchored.climb_eq (rounds : Nat) (parts : List String) :
    climb rootIno next.parents rounds dir parts = climb rootIno t.parents rounds dir parts := by
  induction anchored generalizing rounds parts with
  | root =>
    unfold climb
    rw [if_pos rfl, if_pos rfl]
  | entry above here there directory directory' ih =>
    unfold climb
    split
    · rfl
    cases rounds with
    | zero => rfl
    | succ rounds =>
      simp only [t.place here directory, next.place there directory']
      exact ih rounds _

theorem Anchored.pathOf_eq : next.pathOf rounds dir = t.pathOf rounds dir := by
  unfold pathOf
  split
  · rfl
  cases anchored with
  | root => contradiction
  | entry above here there directory directory' =>
    rw [t.place here directory, next.place there directory', Option.bind_some,
      Option.bind_some, above.climb_eq]

end

/-- A pass sees no difference between trees with the same entries in the directories it visits. -/
theorem walk_eq (kinds : ∀ ino < t.next, next.kinds ino = t.kinds ino) (given : current < t.next)
    (anchored : t.kinds current = .dir → Anchored t next current)
    (same : ∀ dir ∈ (t.walk rounds follow segments current).visited,
      next.entries dir = t.entries dir) :
    next.walk rounds follow segments current = t.walk rounds follow segments current := by
  induction segments generalizing current with
  | nil => rfl
  | cons segment rest ih =>
    simp only [walk, kinds current given] at same ⊢
    split
    · rfl
    rename_i directory
    rw [if_neg directory] at same
    have directory := Decidable.not_not.mp directory
    have anchored := anchored directory
    split
    · rfl
    rename_i valid
    simp only [valid] at same
    have here : next.entries current = t.entries current := by
      apply same current
      split
      · exact List.mem_cons_self
      · split <;> exact List.mem_cons_self
    rw [here]
    cases found : t.entries current segment with
    | none => rfl
    | some child =>
      simp only [found] at same ⊢
      have older := t.entry_lt found
      have followed : next.followed follow rest child = t.followed follow rest child := by
        rw [Tree.followed, Tree.followed, kinds child older]
      rw [followed]
      cases leads : t.followed follow rest child with
      | some target => simp only [followPath, anchored.pathOf_eq]
      | none =>
        simp only [leads] at same
        have below : t.kinds child = .dir → Anchored t next child := fun kind =>
          .entry anchored found ((congrFun here segment).trans found) kind
            ((kinds child older).trans kind)
        rw [ih older below fun dir listed => same dir (List.mem_cons_of_mem _ listed)]

variable {path : Path}

theorem passes_eq (kinds : ∀ ino < t.next, next.kinds ino = t.kinds ino) {left : Nat}
    (same : ∀ dir ∈ (t.passes rounds follow left path).visited, next.entries dir = t.entries dir) :
    next.passes rounds follow left path = t.passes rounds follow left path := by
  induction left generalizing path with
  | zero => rfl
  | succ left ih =>
    have pass : next.walk rounds follow (segments path) rootIno =
        t.walk rounds follow (segments path) rootIno := by
      refine walk_eq kinds t.root_lt (fun _ => .root) fun dir listed => same dir ?_
      simp only [passes]
      split
      · exact listed
      · exact listed
      · exact List.mem_append_left _ listed
    simp only [passes, pass] at same ⊢
    split
    · rfl
    · rfl
    · rename_i further outcome
      simp only [outcome] at same
      rw [ih fun dir listed => same dir (List.mem_append_right _ listed)]

variable {options : ResolveOptions}

theorem Changes.resolve_eq {dirs : List Nat} (changes : t.Changes next dirs)
    (avoids : ∀ dir ∈ dirs, dir ∉ (t.resolve options follow path).visited) :
    next.resolve options follow path = t.resolve options follow path :=
  passes_eq changes.kinds fun dir listed =>
    changes.entries dir fun changed => avoids dir changed listed

/-! ### The two modes -/

/-- The modes differ only at a link in the last place. -/
theorem walk_follow (t : Tree) (segments : List String) (current : Nat) :
    (t.walk rounds true segments current).outcome = (t.walk rounds false segments current).outcome ∨
      ∃ link, (t.walk rounds false segments current).outcome = .reached link ∧
        (t.kinds link).target?.isSome := by
  induction segments generalizing current with
  | nil => exact .inl rfl
  | cons segment rest ih =>
    simp only [walk]
    split
    · exact .inl rfl
    split
    · exact .inl rfl
    split
    · exact .inl rfl
    rename_i child _
    cases rest with
    | cons second others =>
      simp only [followed, ne_eq, reduceCtorEq, not_false_eq_true, true_or]
      split
      · exact .inl rfl
      · exact ih child
    | nil =>
      simp only [followed]
      cases link : (t.kinds child).target? with
      | none => exact .inl rfl
      | some target => exact .inr ⟨child, rfl, by rw [link]; rfl⟩

/-- Following to the end never ends at a link. -/
theorem walk_reached (start : segments = [] → (t.kinds current).target? = none)
    (reached : (t.walk rounds true segments current).outcome = .reached ino) :
    (t.kinds ino).target? = none := by
  induction segments generalizing current with
  | nil =>
    cases reached
    exact start rfl
  | cons segment rest ih =>
    simp only [walk, followed, or_true] at reached
    split at reached
    · cases reached
    split at reached
    · cases reached
    split at reached
    · cases reached
    split at reached
    · cases reached
    · rename_i plain
      exact ih (fun _ => plain) reached

theorem resolve_follow (plain : ∀ link, (t.resolve options false path).answer = .ok link →
      (t.kinds link).target? = none) :
    (t.resolve options true path).answer = (t.resolve options false path).answer := by
  unfold resolve at plain ⊢
  generalize options.maxSymlinks = left at plain ⊢
  induction left generalizing path with
  | zero => rfl
  | succ left ih =>
    simp only [passes] at plain ⊢
    rcases t.walk_follow (segments path) rootIno with same | ⟨link, reached, isLink⟩
    · rw [same]
      split
      · rfl
      · rfl
      · rename_i further outcome
        simp only [outcome] at plain
        exact ih plain
    · rw [reached] at plain
      rw [plain link rfl] at isLink
      cases isLink

theorem resolve_not_link (reached : (t.resolve options true path).answer = .ok ino) :
    (t.kinds ino).target? = none := by
  unfold resolve at reached
  generalize options.maxSymlinks = left at reached
  induction left generalizing path with
  | zero => cases reached
  | succ left ih =>
    simp only [passes] at reached
    split at reached
    · rename_i outcome
      cases reached
      exact walk_reached (fun _ => by rw [t.root_dir]; rfl) outcome
    · cases reached
    · exact ih reached

end Tree

end BrewFs.Meta.Client
