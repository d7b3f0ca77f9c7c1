import BrewFs.Meta.Database.Directories

/-! Path construction over the directory tree of the SQL store. -/

namespace BrewFs.Meta.Database

open Relation (ReflTransGen)
open Ascent (Rooted)
open Namespace List Option

variable {s s' : Namespace}

/-- `order_by_asc(parent_inode).order_by_asc(entry_name)` -/
def placeLe (first second : Place) : Bool :=
  first.1 < second.1 || (first.1 = second.1 && first.2 ≤ second.2)

/-- The places of an inode in the order of the queries. -/
def orderedPlaces (s : Namespace) (ino : Ino) : List Place :=
  ((s.rowsNaming ino).map Sigma.fst).mergeSort placeLe

/-- `get_names` -/
def getNames (s : Namespace) (ino : Ino) : List (Option Ino × String) :=
  if ino = rootIno then [(none, "/")]
  else if (s.access ino).isSome then
    (s.entryNaming ino).toList.map fun place => (some place.1, place.2)
  else (orderedPlaces s ino).map fun place => (some place.1, place.2)

/-- The loop of `build_paths_from_names` for one name, at most `fuel` rounds: the components from
the root, or none when a parent has no entry. -/
def climb (root : Ino) (resolveParent : Ino → Option Place) :
    Nat → Ino → List String → Option (List String)
  | fuel, current, parts =>
    if current = root then some parts
    else
      match fuel with
      | 0 => none
      | fuel + 1 =>
        match resolveParent current with
        | none => some []
        | some place => climb root resolveParent fuel place.1 (place.2 :: parts)

/-- `build_paths_from_names`; no answer when a loop needs more than `fuel` rounds. -/
def buildPathsFromNames (root : Ino) (names : List (Option Ino × String))
    (resolveParent : Ino → Option Place) (fuel : Nat) : Option (List String) := do
  let anchored := names.filterMap fun name => name.1.map (·, name.2)
  let paths ← anchored.mapM fun name => climb root resolveParent fuel name.1 [name.2]
  let texts := (paths.filter (· ≠ [])).map fun parts => "/" ++ "/".intercalate parts
  return (texts.mergeSort fun first second => first ≤ second).destutter (· ≠ ·)

/-- `get_paths` -/
def getPaths (s : Namespace) (ino : Ino) (fuel : Nat) : Option (List String) :=
  if ino = rootIno then some ["/"]
  else buildPathsFromNames rootIno (getNames s ino) (fun current => (orderedPlaces s current).head?)
    fuel

theorem mem_orderedPlaces (ino : Ino) (place : Place) :
    place ∈ orderedPlaces s ino ↔ place ∈ s.links ino := by
  unfold orderedPlaces
  rw [mem_mergeSort, List.mem_map, s.mem_links]
  constructor
  · rintro ⟨row, listed, rfl⟩
    exact ⟨row.2, (s.mem_rowsNaming ino row).mp listed⟩
  · rintro ⟨entry, named⟩
    exact ⟨⟨place, entry⟩, (s.mem_rowsNaming ino ⟨place, entry⟩).mpr named, rfl⟩

theorem mem_getNames {ino parent : Ino} {name : String}
    (listed : (some parent, name) ∈ getNames s ino) : (parent, name) ∈ s.links ino := by
  unfold getNames at listed
  split at listed
  · simp at listed
  split at listed <;> obtain ⟨place, found, same⟩ := mem_map.mp listed
  · rw [mem_toList] at found
    obtain ⟨rfl, rfl⟩ := same
    exact mem_links_of_entryNaming found
  · obtain ⟨rfl, rfl⟩ := same
    exact (mem_orderedPlaces ino place).mp found

/-- From a directory of the tree the climb ends, whatever was collected. -/
theorem climb_ends (consistent : s.layout.Consistent) {ino : Ino}
    (rooted : Rooted s.layout.Up rootIno ino) : ∃ enough, ∀ fuel ≥ enough, ∀ parts,
      (climb rootIno (fun current => (orderedPlaces s current).head?) fuel ino parts).isSome := by
  induction rooted using Relation.ReflTransGen.head_induction_on with
  | refl =>
    refine ⟨0, fun fuel _ parts => ?_⟩
    unfold climb
    rfl
  | @head child parent edge _ ih =>
    obtain ⟨enough, ends⟩ := ih
    refine ⟨enough + 1, fun fuel room parts => ?_⟩
    obtain ⟨fuel, rfl⟩ : ∃ less, fuel = less + 1 := ⟨fuel - 1, by omega⟩
    unfold climb
    split
    · rfl
    obtain ⟨name, found⟩ := edge
    -- the entry that names the child is the only one, so the query finds it
    have only : ∀ place ∈ orderedPlaces s child, place = (parent, name) := by
      intro place listed
      obtain ⟨entry, named, same⟩ := (s.mem_links child place).mp
        ((mem_orderedPlaces child place).mp listed)
      exact consistent.unique found named rfl same
    have listed : (parent, name) ∈ orderedPlaces s child :=
      (mem_orderedPlaces child _).mpr ((s.mem_links child _).mpr ⟨_, found, rfl⟩)
    cases places : orderedPlaces s child with
    | nil => rw [places] at listed; cases listed
    | cons first rest =>
      rw [places] at only
      rw [only first (mem_cons_self ..)]
      exact ends fuel (by omega) _

theorem mapM_isSome {α β : Type} {f : Nat → α → Option β} {items : List α}
    (ends : ∀ item ∈ items, ∃ enough, ∀ fuel ≥ enough, (f fuel item).isSome = true) :
    ∃ enough, ∀ fuel ≥ enough, (items.mapM (f fuel)).isSome = true := by
  induction items with
  | nil => exact ⟨0, fun fuel _ => rfl⟩
  | cons item rest ih =>
    obtain ⟨first, here⟩ := ends item (mem_cons_self ..)
    obtain ⟨later, there⟩ := ih fun other listed => ends other (mem_cons_of_mem _ listed)
    refine ⟨max first later, fun fuel room => ?_⟩
    obtain ⟨value, found⟩ := isSome_iff_exists.mp (here fuel (by omega))
    obtain ⟨values, rest_found⟩ := isSome_iff_exists.mp (there fuel (by omega))
    rw [mapM_cons, found, rest_found]
    rfl

theorem getPaths_ends (sound : s.layout.Sound) (ino : Ino) :
    ∃ enough, ∀ fuel ≥ enough, (getPaths s ino fuel).isSome = true := by
  by_cases top : ino = rootIno
  · refine ⟨0, fun fuel _ => ?_⟩
    rw [getPaths, if_pos top]
    rfl
  have climbs : ∀ name ∈ (getNames s ino).filterMap fun name => name.1.map (·, name.2),
      ∃ enough, ∀ fuel ≥ enough,
        (climb rootIno (fun current => (orderedPlaces s current).head?) fuel name.1
          [name.2]).isSome = true := by
    rintro ⟨parent, name⟩ listed
    obtain ⟨⟨holder, text⟩, mem, same⟩ := mem_filterMap.mp listed
    obtain ⟨_, rfl, rfl, rfl⟩ : ∃ p, holder = some p ∧ p = parent ∧ text = name := by
      simpa using same
    obtain ⟨entry, found, _⟩ := (s.mem_links ino _).mp (mem_getNames mem)
    have directory := (sound.consistent.fits found).parent
    obtain ⟨enough, ends⟩ := climb_ends sound.consistent (sound.rooted _ directory)
    exact ⟨enough, fun fuel room => ends fuel room _⟩
  obtain ⟨enough, ends⟩ := mapM_isSome climbs
  refine ⟨enough, fun fuel room => ?_⟩
  obtain ⟨paths, found⟩ := isSome_iff_exists.mp (ends fuel room)
  rw [getPaths, if_neg top, buildPathsFromNames, found]
  rfl

/-! ### The tree -/

/-- The entries of a directory that name directories. -/
def Namespace.subdirectories (s : Namespace) (ino : Ino) : Finset Place :=
  (Keys.keysWhere (fun entry : Entry => entry.entryType = .directory) s.contents).filter
    fun place => place.1 = ino

/-- An entry of `parent` names `child`. -/
def Namespace.ParentOf (s : Namespace) (child parent : Ino) : Prop :=
  ∃ name, (parent, name) ∈ s.links child

/-- Every directory but the root has one entry, the parents of each lead to the root, and building
an inode's paths ends. -/
structure DirectoryTree (s : Namespace) : Prop where
  named : ∀ ino, (s.access ino).isSome = true → ino ≠ rootIno → ∃ place, s.links ino = {place}
  reaches : ∀ ino, (s.access ino).isSome = true → ReflTransGen s.ParentOf ino rootIno
  paths : ∀ ino, ∃ enough, ∀ fuel ≥ enough, (getPaths s ino fuel).isSome = true

theorem directoryTree_of_sound (sound : s.layout.Sound) : DirectoryTree s where
  named ino stored other := by
    obtain ⟨place, only⟩ := sound.named (kindOf_directory stored) other
    refine ⟨place, ?_⟩
    ext place'
    rw [s.mem_links, Finset.mem_singleton]
    exact only place'
  reaches ino stored := by
    apply (sound.rooted ino (kindOf_directory stored)).mono
    rintro child parent ⟨name, found⟩
    exact ⟨name, (s.mem_links child _).mpr ⟨_, found, rfl⟩⟩
  paths := getPaths_ends sound

theorem initialNamespace_tabled (now : Int) : (initialNamespace now).Tabled where
  apart stored := by cases stored
  unused ino above := by
    have elsewhere : ino ≠ rootIno := by
      rintro rfl
      exact Nat.not_succ_le_self rootIno above
    exact ⟨by simp [initialNamespace, Function.update_of_ne elsewhere], rfl⟩
  positive := ⟨rfl, Nat.succ_pos _⟩
  nlink {ino _} stored := by
    by_cases here : ino = rootIno
    · subst here
      simp only [initialNamespace, Function.update_self, Option.some.injEq] at stored
      subst stored
      rfl
    · simp [initialNamespace, Function.update_of_ne here] at stored

theorem initialNamespace_sound (now : Int) : (initialNamespace now).layout.Sound where
  root := rfl
  consistent :=
    { fits := nofun
      unique := nofun }
  rooted ino directory := by
    by_cases here : ino = rootIno
    · exact here ▸ .refl
    · simp [layout, kindOf, initialNamespace, Function.update_of_ne here] at directory

theorem perform_sound (tabled : s.Tabled) (sound : s.layout.Sound) (operation : Operation) :
    (perform s operation).Tabled ∧ (perform s operation).layout.Sound := by
  have advances : Advances (fun _ _ => True) s (perform s operation) := by
    apply perform_advances tabled sound
    cases operation <;> simp [Fitting]
  exact ⟨advances.tabled, layout_sound_of_steps sound advances.steps⟩

theorem run_sound {now : Int} {operations : List Operation} {final : Namespace}
    (run : Run.exec operate (initialNamespace now) operations = some final) :
    final.Tabled ∧ final.layout.Sound := by
  apply Run.invariant ?_ ?_ run
  · rintro s operation next ⟨tabled, sound⟩ taken
    obtain rfl := Option.some.inj taken
    exact perform_sound tabled sound operation
  · exact ⟨initialNamespace_tabled now, initialNamespace_sound now⟩

/-- In every run the directories stay a tree. Their rows keep the link count of their creation,
which is right only for those without sub-directories. -/
theorem directories_stay_tree {now : Int} {operations : List Operation} {final : Namespace}
    (run : Run.exec operate (initialNamespace now) operations = some final) :
    DirectoryTree final ∧ ∀ ino row, final.access ino = some row →
      (row.nlink = 2 + (final.subdirectories ino).card ↔ final.subdirectories ino = ∅) := by
  obtain ⟨tabled, sound⟩ := run_sound run
  refine ⟨directoryTree_of_sound sound, fun ino row stored => ?_⟩
  rw [tabled.nlink stored, ← Finset.card_eq_zero]
  omega

/-- A directory is created in another and moved to the root. -/
def nestedMoved : List Operation :=
  [.mkdir (1, "a") 0, .mkdir (2, "b") 0, .rename (2, "b") (1, "c") true 0]

theorem directories_stay_tree_moved : ∃ final,
    Run.exec operate (initialNamespace 0) nestedMoved = some final ∧ DirectoryTree final ∧
    final.links 3 = {(1, "c")} ∧ ∀ ino row, final.access ino = some row →
      (row.nlink = 2 + (final.subdirectories ino).card ↔ final.subdirectories ino = ∅) :=
  have run : Run.exec operate (initialNamespace 0) nestedMoved = some _ := rfl
  ⟨_, run, (directories_stay_tree run).1, by decide, (directories_stay_tree run).2⟩

/-- `create_directory` does not count the new directory in its parent. -/
theorem mkdir_leaves_parent_nlink : ∃ final row,
    Run.exec operate (initialNamespace 0) [.mkdir (1, "a") 0] = some final ∧
    final.access 1 = some row ∧ row.nlink = 2 ∧ (final.subdirectories 1).card = 1 :=
  ⟨_, _, rfl, rfl, rfl, by decide⟩

end BrewFs.Meta.Database
