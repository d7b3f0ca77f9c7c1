import BrewFs.Library.Ascent
import BrewFs.Library.Slots
import BrewFs.Meta.Database.Namespace

/-! The namespace as a graph: inodes with their kinds and the entries that name them. Every
transaction takes a few of the steps below, and no step breaks the directory tree. -/

namespace BrewFs.Meta.Database

open Function (update update_self update_of_ne)
open Ascent (Rooted Clear)

structure Layout where
  kind : Ino → Option FileType
  entries : Place → Option Entry

namespace Layout

variable {l : Layout}

@[simps -fullyApplied] def put (l : Layout) (place : Place) (entry : Entry) : Layout :=
  { l with entries := update l.entries place (some entry) }

@[simps -fullyApplied] def drop (l : Layout) (place : Place) : Layout :=
  { l with entries := update l.entries place none }

@[simps -fullyApplied] def setKind (l : Layout) (ino : Ino) (kind : Option FileType) : Layout :=
  { l with kind := update l.kind ino kind }

/-- An entry of `parent` names the directory `child`. -/
def Up (l : Layout) (child parent : Ino) : Prop :=
  ∃ name, l.entries (parent, name) = some ⟨child, .directory⟩

/-- One step of a transaction. `allowed` bounds the types a new link may record. -/
inductive Step (allowed : FileType → EntryType → Prop) : Layout → Layout → Prop
  | create {l : Layout} {place : Place} {ino : Ino} {type : EntryType}
      (parent : l.kind place.1 = some .dir) (free : l.entries place = none)
      (unused : l.kind ino = none) :
      Step allowed l ((l.setKind ino (some type.toFileType)).put place ⟨ino, type⟩)
  | link {l : Layout} {place : Place} {ino : Ino} {kind : FileType} {type : EntryType}
      (parent : l.kind place.1 = some .dir) (free : l.entries place = none)
      (stored : l.kind ino = some kind) (file : kind ≠ .dir) (plain : type ≠ .directory)
      (fits : allowed kind type) :
      Step allowed l (l.put place ⟨ino, type⟩)
  | unlink {l : Layout} {place : Place} {entry : Entry} (found : l.entries place = some entry)
      (plain : entry.entryType ≠ .directory) :
      Step allowed l (l.drop place)
  | rmdir {l : Layout} {place : Place} {entry : Entry} (found : l.entries place = some entry)
      (directory : entry.entryType = .directory)
      (empty : ∀ below : Place, below.1 = entry.inode → l.entries below = none) :
      Step allowed l ((l.drop place).setKind entry.inode none)
  | move {l : Layout} {source target : Place} {entry : Entry}
      (found : l.entries source = some entry) (free : l.entries target = none)
      (parent : l.kind target.1 = some .dir)
      (clear : entry.entryType = .directory →
        Clear l.Up rootIno (fun ino => ino = entry.inode) target.1) :
      Step allowed l ((l.drop source).put target entry)
  | exchange {l : Layout} {source target : Place} {old new : Entry}
      (oldFound : l.entries source = some old) (newFound : l.entries target = some new)
      (distinct : old.inode ≠ new.inode)
      (oldClear : old.entryType = .directory →
        Clear l.Up rootIno (fun ino => ino = old.inode) target.1)
      (newClear : new.entryType = .directory →
        Clear l.Up rootIno (fun ino => ino = new.inode) source.1) :
      Step allowed l ((((l.drop source).drop target).put source new).put target old)

/-! ### Entries -/

/-- An entry lies in a directory and names a stored inode other than the root, as a directory
exactly if it is one. -/
structure Fits (kind : Ino → Option FileType) (place : Place) (entry : Entry) : Prop where
  parent : kind place.1 = some .dir
  stored : ∃ type, kind entry.inode = some type ∧ (entry.entryType = .directory ↔ type = .dir)
  unnamed : entry.inode ≠ rootIno

structure Consistent (l : Layout) : Prop where
  fits : ∀ {place entry}, l.entries place = some entry → Fits l.kind place entry
  unique : ∀ {place place' entry entry'}, l.entries place = some entry →
    l.entries place' = some entry' → entry.entryType = .directory →
    entry'.inode = entry.inode → place' = place

variable {place place' : Place} {entry entry' : Entry}

theorem entries_put (found : (l.put place entry).entries place' = some entry') :
    (place' = place ∧ entry' = entry) ∨ l.entries place' = some entry' := by
  exact (Slots.mem_put found).imp_right And.right

theorem entries_drop (found : (l.drop place).entries place' = some entry') :
    place' ≠ place ∧ l.entries place' = some entry' := by
  exact Slots.mem_free found

theorem Fits.entryType_of_kind {kind : Ino → Option FileType} (fits : Fits kind place entry) :
    entry.entryType = .directory ↔ kind entry.inode = some .dir := by
  obtain ⟨type, stored, directory⟩ := fits.stored
  rw [stored, Option.some.injEq]
  exact directory

namespace Consistent

section

variable (consistent : l.Consistent)

include consistent

theorem drop (place : Place) : (l.drop place).Consistent where
  fits found := consistent.fits (entries_drop found).2
  unique found₁ found₂ := consistent.unique (entries_drop found₁).2 (entries_drop found₂).2

theorem put {place : Place} {entry : Entry} (fits : Fits l.kind place entry)
    (alone : entry.entryType = .directory →
      ∀ place' entry', l.entries place' = some entry' → entry'.inode ≠ entry.inode) :
    (l.put place entry).Consistent where
  fits found := by
    obtain ⟨rfl, rfl⟩ | found := entries_put found
    · exact fits
    · exact consistent.fits found
  unique found₁ found₂ directory same := by
    obtain ⟨rfl, rfl⟩ | old₁ := entries_put found₁ <;>
      obtain ⟨rfl, rfl⟩ | old₂ := entries_put found₂
    · rfl
    · exact absurd same (alone directory _ _ old₂)
    · have kind := (consistent.fits old₁).entryType_of_kind.mp directory
      rw [← same] at kind
      exact absurd same.symm (alone (fits.entryType_of_kind.mpr kind) _ _ old₁)
    · exact consistent.unique old₁ old₂ directory same

/-- The kind of an unnamed inode may change. -/
theorem setKind {ino : Ino} (kind : Option FileType)
    (apart : ∀ place entry, l.entries place = some entry → place.1 ≠ ino ∧ entry.inode ≠ ino) :
    (l.setKind ino kind).Consistent where
  fits found := by
    obtain ⟨elsewhere, other⟩ := apart _ _ found
    obtain ⟨parent, stored, unnamed⟩ := consistent.fits found
    constructor
    · rw [setKind_kind, update_of_ne elsewhere]
      exact parent
    · rw [setKind_kind, update_of_ne other]
      exact stored
    · exact unnamed
  unique := consistent.unique

theorem up_functional (child parent parent' : Ino)
    (edge : l.Up child parent) (edge' : l.Up child parent') : parent = parent' := by
  obtain ⟨name, found⟩ := edge
  obtain ⟨name', found'⟩ := edge'
  exact congrArg Prod.fst (consistent.unique found' found rfl rfl)

theorem up_root (parent : Ino) : ¬ l.Up rootIno parent := by
  rintro ⟨name, found⟩
  exact (consistent.fits found).unnamed rfl

end

end Consistent

/-! ### Edges -/

theorem up_of_entry (found : l.entries place = some entry)
    (directory : entry.entryType = .directory) : l.Up entry.inode place.1 := by
  refine ⟨place.2, ?_⟩
  rw [found, ← directory]

theorem up_put (free : l.entries place = none) {a b : Ino} (edge : l.Up a b) :
    (l.put place entry).Up a b := by
  obtain ⟨name, found⟩ := edge
  refine ⟨name, ?_⟩
  rw [put_entries, update_of_ne (fun here => by rw [here, free] at found; cases found), found]

theorem up_put_self (directory : entry.entryType = .directory) :
    (l.put place entry).Up entry.inode place.1 :=
  up_of_entry (by rw [put_entries, update_self]) directory

/-- Dropping an entry loses at most its directory's edge. -/
theorem up_drop (found : l.entries place = some entry) {a b : Ino} (edge : l.Up a b)
    (other : ¬ (a = entry.inode ∧ entry.entryType = .directory)) : (l.drop place).Up a b := by
  obtain ⟨name, named⟩ := edge
  refine ⟨name, ?_⟩
  rw [drop_entries, update_of_ne, named]
  intro here
  rw [here, found] at named
  obtain rfl := Option.some.inj named
  exact other ⟨rfl, rfl⟩

/-! ### The tree -/

/-- The directories form a tree under the root. -/
structure Sound (l : Layout) : Prop where
  root : l.kind rootIno = some .dir
  consistent : l.Consistent
  rooted : ∀ ino, l.kind ino = some .dir → Rooted l.Up rootIno ino

namespace Sound

variable {ino : Ino}

/-- Every directory but the root is named, and by one entry. -/
theorem named (sound : l.Sound) (directory : l.kind ino = some .dir) (other : ino ≠ rootIno) :
    ∃ place, ∀ place',
      (∃ entry, l.entries place' = some entry ∧ entry.inode = ino) ↔ place' = place := by
  obtain same | ⟨parent, ⟨name, found⟩, _⟩ := (sound.rooted ino directory).cases_head
  · exact absurd same other
  refine ⟨(parent, name), fun place' => ⟨?_, ?_⟩⟩
  · rintro ⟨entry, found', names⟩
    exact sound.consistent.unique found found' rfl names
  · rintro rfl
    exact ⟨_, found, rfl⟩

variable {place : Place} {type : EntryType}

section

variable (sound : l.Sound) (parent : l.kind place.1 = some .dir) (free : l.entries place = none)

include sound parent free

theorem create (unused : l.kind ino = none) :
    ((l.setKind ino (some type.toFileType)).put place ⟨ino, type⟩).Sound := by
  have apart : ∀ place entry, l.entries place = some entry → place.1 ≠ ino ∧ entry.inode ≠ ino := by
    intro place' entry found
    obtain ⟨inside, ⟨kind, stored, _⟩, _⟩ := sound.consistent.fits found
    constructor
    · rintro rfl
      rw [unused] at inside
      cases inside
    rintro rfl
    rw [unused] at stored
    cases stored
  have kept : ∀ i, l.kind i = some .dir →
      (l.setKind ino (some type.toFileType)).kind i = some .dir := by
    intro i directory
    rw [setKind_kind, update_of_ne (fun here => by rw [here, unused] at directory; cases directory),
      directory]
  have chains : ∀ i, l.kind i = some .dir →
      Rooted ((l.setKind ino (some type.toFileType)).put place ⟨ino, type⟩).Up rootIno i :=
    fun i directory => (sound.rooted i directory).mono fun a b edge =>
      up_put free edge
  constructor
  case root => exact kept _ sound.root
  case consistent =>
    apply (sound.consistent.setKind _ apart).put
    · constructor
      · exact kept _ parent
      · refine ⟨type.toFileType, update_self .., ?_⟩
        rw [← EntryType.toFileType_isDir, FileType.isDir, decide_eq_true_iff]
      · rintro rfl
        rw [sound.root] at unused
        cases unused
    · intro _ place' entry' found
      exact (apart _ _ found).2
  case rooted =>
    intro i directory
    rw [put_kind, setKind_kind] at directory
    by_cases here : i = ino
    · subst here
      rw [update_self, Option.some.injEq] at directory
      have isDirectory : type = .directory := by
        rw [← EntryType.toFileType_isDir, directory]
        rfl
      exact .head (up_put_self isDirectory) (chains _ parent)
    · rw [update_of_ne here] at directory
      exact chains i directory

theorem link {kind : FileType} (stored : l.kind ino = some kind) (file : kind ≠ .dir)
    (plain : type ≠ .directory) : (l.put place ⟨ino, type⟩).Sound where
  root := sound.root
  consistent := by
    refine sound.consistent.put ⟨parent, ⟨kind, stored, ?_⟩, ?_⟩ fun directory =>
      absurd directory plain
    · exact iff_of_false plain file
    rintro rfl
    rw [sound.root] at stored
    exact file (Option.some.inj stored).symm
  rooted i directory := (sound.rooted i directory).mono fun _ _ edge => up_put free edge

end

variable {entry : Entry}

section

variable (sound : l.Sound)

include sound

theorem unlink (found : l.entries place = some entry) (plain : entry.entryType ≠ .directory) :
    (l.drop place).Sound where
  root := sound.root
  consistent := sound.consistent.drop place
  rooted i directory := (sound.rooted i directory).mono fun _ _ edge =>
    up_drop found edge fun lost => plain lost.2

theorem rmdir (found : l.entries place = some entry) (directory : entry.entryType = .directory)
    (empty : ∀ below : Place, below.1 = entry.inode → l.entries below = none) :
    ((l.drop place).setKind entry.inode none).Sound where
  root := by
    rw [setKind_kind, update_of_ne (sound.consistent.fits found).unnamed.symm]
    exact sound.root
  consistent := by
    apply (sound.consistent.drop place).setKind
    intro place' entry' found'
    obtain ⟨elsewhere, found'⟩ := entries_drop found'
    constructor
    · intro inside
      rw [empty place' inside] at found'
      cases found'
    · intro same
      exact elsewhere (sound.consistent.unique found found' directory same)
  rooted i isDir := by
    rw [setKind_kind] at isDir
    have stays : ¬ i = entry.inode := by
      rintro rfl
      rw [update_self] at isDir
      cases isDir
    rw [update_of_ne stays] at isDir
    refine Ascent.chain_prune (fun a => a = entry.inode) ?_ ?_ stays (sound.rooted i isDir)
    · rintro a b ⟨name, child⟩ rfl
      rw [empty _ rfl] at child
      cases child
    · intro a b edge present
      exact up_drop found edge fun lost => present lost.1

theorem move {source target : Place} (found : l.entries source = some entry)
    (free : l.entries target = none) (parent : l.kind target.1 = some .dir)
    (clear : entry.entryType = .directory →
      Clear l.Up rootIno (fun ino => ino = entry.inode) target.1) :
    ((l.drop source).put target entry).Sound := by
  have freed : (l.drop source).entries target = none := by
    rw [drop_entries]
    by_cases here : target = source
    · rw [here, update_self]
    · rw [update_of_ne here, free]
  have kept : ∀ a b, l.Up a b → ¬ (a = entry.inode ∧ entry.entryType = .directory) →
      ((l.drop source).put target entry).Up a b :=
    fun a b edge other => up_put freed (up_drop found edge other)
  constructor
  case root => exact sound.root
  case consistent =>
    obtain ⟨_, stored, unnamed⟩ := sound.consistent.fits found
    apply (sound.consistent.drop source).put ⟨parent, stored, unnamed⟩
    intro directory place' entry' found' same
    obtain ⟨elsewhere, found'⟩ := entries_drop found'
    exact elsewhere (sound.consistent.unique found found' directory same)
  case rooted =>
    intro i directory
    refine Rooted.rebase (fun a => a = entry.inode ∧ entry.entryType = .directory) kept ?_
      (sound.rooted i directory)
    rintro a ⟨rfl, isDirectory⟩
    exact .head (up_put_self isDirectory)
      ((clear isDirectory).rooted fun a b edge other => kept a b edge fun moved => other moved.1)

/-- The chain above one exchanged entry passes neither of the two exchanged inodes. -/
theorem clear_both {here there : Entry} (found : l.entries place = some here)
    (clear : Clear l.Up rootIno (fun ino => ino = there.inode) place.1) :
    Clear l.Up rootIno (fun ino => ino = there.inode ∨ ino = here.inode) place.1 := by
  by_cases directory : here.entryType = .directory
  · exact Clear.past sound.consistent.up_functional sound.consistent.up_root
      (up_of_entry found directory) clear
  refine Relation.ReflTransGen.mono (fun a b edge => ⟨edge.1, ?_⟩) _ _ clear
  rintro (same | rfl)
  · exact edge.2 same
  obtain ⟨name, up⟩ := edge.1
  have kind := (sound.consistent.fits up).entryType_of_kind.mp rfl
  exact directory ((sound.consistent.fits found).entryType_of_kind.mpr kind)

theorem exchange {source target : Place} {old new : Entry} (oldFound : l.entries source = some old)
    (newFound : l.entries target = some new) (distinct : old.inode ≠ new.inode)
    (oldClear : old.entryType = .directory →
      Clear l.Up rootIno (fun ino => ino = old.inode) target.1)
    (newClear : new.entryType = .directory →
      Clear l.Up rootIno (fun ino => ino = new.inode) source.1) :
    ((((l.drop source).drop target).put source new).put target old).Sound := by
  have places : target ≠ source := by
    rintro rfl
    rw [oldFound] at newFound
    exact distinct (congrArg Entry.inode (Option.some.inj newFound))
  have dropped : (l.drop source).entries target = some new := by
    rw [drop_entries, update_of_ne places, newFound]
  have sourceFree : ((l.drop source).drop target).entries source = none := by
    rw [drop_entries, update_of_ne places.symm, drop_entries, update_self]
  have targetFree : (((l.drop source).drop target).put source new).entries target = none := by
    rw [put_entries, update_of_ne places, drop_entries, update_self]
  have kept : ∀ a b, l.Up a b → ¬ (a = old.inode ∧ old.entryType = .directory) →
      ¬ (a = new.inode ∧ new.entryType = .directory) →
      ((((l.drop source).drop target).put source new).put target old).Up a b :=
    fun a b edge notOld notNew =>
      up_put targetFree (up_put sourceFree (up_drop dropped (up_drop oldFound edge notOld) notNew))
  obtain ⟨oldParent, oldStored, oldUnnamed⟩ := sound.consistent.fits oldFound
  obtain ⟨newParent, newStored, newUnnamed⟩ := sound.consistent.fits newFound
  constructor
  case root => exact sound.root
  case consistent =>
    apply Consistent.put (((sound.consistent.drop source).drop target).put
        ⟨oldParent, newStored, newUnnamed⟩ ?_)
      ⟨newParent, oldStored, oldUnnamed⟩ <;> intro directory place' entry' found' same
    · obtain ⟨_, rfl⟩ | found' := entries_put found'
      · exact distinct same.symm
      obtain ⟨_, found'⟩ := entries_drop found'
      obtain ⟨elsewhere, found'⟩ := entries_drop found'
      exact elsewhere (sound.consistent.unique oldFound found' directory same)
    obtain ⟨elsewhere, found'⟩ := entries_drop found'
    obtain ⟨_, found'⟩ := entries_drop found'
    exact elsewhere (sound.consistent.unique newFound found' directory same)
  case rooted =>
    intro i directory
    refine Rooted.rebase (fun a => (a = old.inode ∧ old.entryType = .directory) ∨
      (a = new.inode ∧ new.entryType = .directory))
      (fun a b edge other => kept a b edge (fun h => other (.inl h)) (fun h => other (.inr h))) ?_
      (sound.rooted i directory)
    rintro a (⟨rfl, isDirectory⟩ | ⟨rfl, isDirectory⟩)
    · refine .head (up_put_self isDirectory)
        ((sound.clear_both newFound (oldClear isDirectory)).rooted ?_)
      exact fun a b edge other =>
        kept a b edge (fun h => other (.inl h.1)) (fun h => other (.inr h.1))
    refine .head (up_put targetFree (up_put_self isDirectory))
      ((sound.clear_both oldFound (newClear isDirectory)).rooted ?_)
    exact fun a b edge other =>
      kept a b edge (fun h => other (.inr h.1)) (fun h => other (.inl h.1))

theorem step {allowed : FileType → EntryType → Prop} {l' : Layout} (taken : Step allowed l l') :
    l'.Sound := by
  cases taken with
  | create parent free unused => exact sound.create parent free unused
  | link parent free stored file plain _ => exact sound.link parent free stored file plain
  | unlink found plain => exact sound.unlink found plain
  | rmdir found directory empty => exact sound.rmdir found directory empty
  | move found free parent clear => exact sound.move found free parent clear
  | exchange oldFound newFound distinct oldClear newClear =>
    exact sound.exchange oldFound newFound distinct oldClear newClear

end

end Sound

end Layout

end BrewFs.Meta.Database
