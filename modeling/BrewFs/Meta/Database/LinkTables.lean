import BrewFs.Meta.Database.Paths

/-! The three records of a file's links: its directory entries, its link count with the inline
parent, and its rows in the link-parent table. -/

namespace BrewFs.Meta.Database

open Function (update_self update_of_ne)
open Finset (card_eq_zero card_singleton erase_eq_of_notMem erase_idem)
open Namespace Finset Option

variable {s s' : Namespace} {file file' : FileMeta} {links rows rows' : Finset Place}
  {place : Place}

/-! ### One file -/

/-- A file's row and link-parent rows describe its entries. -/
structure Booked (file : FileMeta) (links rows : Finset Place) : Prop where
  nlink : file.nlink = links.card
  single : ∀ place, links = {place} → file.parent = place.1
  unset : file.nlink ≠ 1 → file.parent = 0
  deleted : file.deleted = true ↔ file.nlink = 0
  rows : rows = if 1 < file.nlink then links else ∅

namespace Booked

section

variable (booked : Booked file links rows)

include booked

theorem rows_single (single : file.nlink ≤ 1) : rows = ∅ := by
  rw [booked.rows, if_neg (not_lt.mpr single)]

theorem rows_several (several : 1 < file.nlink) : rows = links := by
  rw [booked.rows, if_pos several]

theorem only (single : file.nlink = 1) (listed : place ∈ links) : links = {place} := by
  have one : links.card = 1 := by
    have := booked.nlink
    omega
  obtain ⟨other, rfl⟩ := card_eq_one.mp one
  rw [mem_singleton.mp listed]

end

theorem fresh (nlink : file.nlink = 1) (parent : file.parent = place.1)
    (alive : file.deleted = false) : Booked file {place} ∅ where
  nlink := by rw [nlink]; rfl
  single other same := by rw [parent, singleton_inj.mp same]
  unset several := absurd nlink several
  deleted := by simp [nlink, alive]
  rows := by simp [nlink]

section

variable (booked : Booked file links rows)

include booked

theorem addLink {ino : Ino} (now : Int) (entries : s.links ino = links)
    (stored : s.linkParents ino = rows) (room : file.nlink < i32Max) (alive : 0 < file.nlink)
    (new : place ∉ links) (linked : linkedRows s ino file place rows') :
    Booked (file.addLink now) (insert place links) rows' := by
  have grown : (file.addLink now).nlink = file.nlink + 1 := min_eq_left (by omega)
  have all : rows' = insert place links := by
    obtain ⟨single, only, named, rfl⟩ | ⟨several, rfl⟩ := linked
    · have listed := entries ▸ mem_links_of_entryNaming named
      have alone := booked.only single listed
      have parent : (file.parent, only.2) = only := by rw [booked.single only alone]
      rw [parent, stored, booked.rows_single single.le, alone]
      rfl
    · rw [stored, booked.rows_several several]
  have size : (insert place links).card = links.card + 1 := card_insert_of_notMem new
  have count := booked.nlink
  constructor
  case nlink => omega
  case single =>
    intro other same
    rw [same, card_singleton] at size
    omega
  case unset =>
    intro _
    show (if file.nlink = 1 then 0 else file.parent) = 0
    split
    · rfl
    · rename_i several
      exact booked.unset several
  case deleted =>
    exact iff_of_false Bool.false_ne_true (by omega)
  case rows => rw [all, if_pos (by omega)]

theorem drop {remaining : Option Place} (listed : place ∈ links)
    (other : ∀ last, remaining = some last → last ∈ links ∧ last ≠ place)
    (dropped : Dropped file rows place remaining file' rows') :
    Booked file' (links.erase place) rows' := by
  have count := booked.nlink
  have size : (links.erase place).card + 1 = links.card := card_erase_add_one listed
  obtain ⟨_, ⟨several, nlink, alive, parent, rfl⟩ | ⟨two, nlink, alive, ⟨last, named, parent⟩, rfl⟩
    | ⟨single, nlink, dead, parent, rfl⟩⟩ := dropped
  · constructor
    case nlink => omega
    case single =>
      intro place' same
      rw [same, card_singleton] at size
      omega
    case unset => exact fun _ => parent.trans (booked.unset (by omega))
    case deleted => exact iff_of_false (by simp [alive]) (by omega)
    case rows => rw [booked.rows_several (by omega), if_pos (by omega)]
  · obtain ⟨still, elsewhere⟩ := other last named
    have one : (links.erase place).card = 1 := by omega
    obtain ⟨rest, left⟩ := card_eq_one.mp one
    have here : last ∈ links.erase place := mem_erase.mpr ⟨elsewhere, still⟩
    rw [left, mem_singleton] at here
    rw [left, ← here]
    exact .fresh nlink parent alive
  · have gone : links.erase place = ∅ := by
      rw [← card_eq_zero]
      omega
    constructor
    case nlink => rw [nlink, gone]; rfl
    case single =>
      intro place' same
      rw [gone] at same
      exact absurd same.symm (singleton_ne_empty place')
    case unset => exact fun _ => parent
    case deleted => exact iff_of_true dead nlink
    case rows => rw [booked.rows_single single, if_neg (by omega)]

/-- One entry moved, with its link-parent row. -/
theorem moveRows {source target : Place} (several : 1 < file.nlink)
    (listed : source ∈ links) (new : target ∉ links) :
    Booked file (insert target (links.erase source)) (insert target (rows.erase source)) := by
  have size : (insert target (links.erase source)).card = links.card := by
    rw [card_insert_of_notMem (fun here => new (mem_of_mem_erase here)),
      card_erase_add_one listed]
  have count := booked.nlink
  constructor
  case nlink => rw [size, count]
  case single =>
    intro place' same
    rw [same, card_singleton] at size
    omega
  case unset => exact booked.unset
  case deleted => exact booked.deleted
  case rows => rw [booked.rows_several several, if_pos several]

/-- The only entry moved, with the inline parent. -/
theorem moveInline {source target : Place}
    (single : file.nlink ≤ 1) (listed : source ∈ links) (nlink : file'.nlink = file.nlink)
    (deleted : file'.deleted = file.deleted) (parent : file'.parent = target.1) :
    Booked file' (insert target (links.erase source)) rows := by
  have count := booked.nlink
  have some_link : 0 < links.card := card_pos.mpr ⟨source, listed⟩
  have one : file.nlink = 1 := by omega
  have moved : insert target (links.erase source) = {target} := by
    rw [booked.only one listed]
    simp
  have alive : file'.deleted = false := by
    rw [deleted, Bool.eq_false_iff, ne_eq, booked.deleted]
    omega
  rw [moved, booked.rows_single single]
  exact .fresh (nlink.trans one) parent alive

end

end Booked

/-! ### All files -/

/-- A file's links are booked; an inode without a file row has no link-parent rows. -/
def Entered (file : Option FileMeta) (links rows : Finset Place) : Prop :=
  match file with
  | some file => Booked file links rows
  | none => rows = ∅

def AllEntered (s : Namespace) : Prop :=
  ∀ ino, Entered (s.files ino) (s.links ino) (s.linkParents ino)

variable {ino inode : Ino}

section

variable (all : AllEntered s)

include all

theorem AllEntered.booked (stored : s.files ino = some file) :
    Booked file (s.links ino) (s.linkParents ino) := by
  have entered := all ino
  rw [stored] at entered
  exact entered

theorem AllEntered.no_rows (absent : s.files ino = none) : s.linkParents ino = ∅ := by
  have entered := all ino
  rw [absent] at entered
  exact entered

theorem AllEntered.retimed (change : Retimed s s') : AllEntered s' := by
  intro ino
  have entries : s'.links ino = s.links ino := by
    unfold links
    rw [change.contents]
  rw [change.files, change.linkParents, entries]
  exact all ino

/-- A change to the records of one inode. -/
theorem AllEntered.change (ino : Ino)
    (here : Entered (s'.files ino) (s'.links ino) (s'.linkParents ino))
    (others : ∀ other, other ≠ ino → s'.files other = s.files other ∧
      s'.links other = s.links other ∧ s'.linkParents other = s.linkParents other) :
    AllEntered s' := by
  intro other
  by_cases same : other = ino
  · exact same ▸ here
  obtain ⟨row, entries, rows⟩ := others other same
  rw [row, entries, rows]
  exact all other

end

theorem notMem_links_of_free (free : s.find place = none) : place ∉ s.links ino := by
  rw [s.mem_links]
  rintro ⟨entry, found, _⟩
  rw [free] at found
  cases found

variable {entry : Entry}

theorem notMem_links_of_ne (found : s.find place = some entry) (other : ino ≠ entry.inode) :
    place ∉ s.links ino := by
  rw [s.mem_links]
  rintro ⟨entry', found', names⟩
  rw [found, some.injEq] at found'
  exact other (by rw [found', names])

theorem mem_links_of_find (found : s.find place = some entry) : place ∈ s.links entry.inode :=
  (s.mem_links _ _).mpr ⟨entry, found, rfl⟩

theorem links_setEntry : (s.setEntry place entry).links ino =
      if entry.inode = ino then insert place (s.links ino) else (s.links ino).erase place := by
  unfold links
  rw [setEntry_contents, Keys.keysWhere_insert]
  simp

theorem links_setEntry_self (s : Namespace) (place : Place) (entry : Entry) :
    (s.setEntry place entry).links entry.inode = insert place (s.links entry.inode) := by
  rw [links_setEntry, if_pos rfl]

theorem links_setEntry_of_ne (free : s.find place = none) (other : ino ≠ entry.inode) :
    (s.setEntry place entry).links ino = s.links ino := by
  rw [links_setEntry, if_neg other.symm, erase_eq_of_notMem (notMem_links_of_free free)]

theorem links_deleteEntry_of_ne (found : s.find place = some entry) (other : ino ≠ entry.inode) :
    (s.deleteEntry place).links ino = s.links ino := by
  rw [links_deleteEntry, erase_eq_of_notMem (notMem_links_of_ne found other)]

/-! ### Transactions -/

variable {now : Int} {s₁ : Namespace} {source target : Place} {read : Option FileMeta}

section

variable (all : AllEntered s)

include all

theorem NodeCreated.entered (created : NodeCreated s inode place s') (unnamed : s.links inode = ∅) :
    AllEntered s' := by
  obtain ⟨_, free, unused, file, type, _, _, nlink, parent, alive, retimed⟩ := created
  refine AllEntered.retimed (all.change inode ?_ fun other elsewhere => ?_) retimed
  · have row : ((s.setFile inode file).setEntry place ⟨inode, type⟩).files inode = some file :=
      update_self ..
    rw [links_setEntry_self (s.setFile inode file) place ⟨inode, type⟩, row]
    show Booked file (insert place (s.links inode)) (s.linkParents inode)
    rw [all.no_rows unused, unnamed]
    exact .fresh nlink parent alive
  · exact ⟨update_of_ne elsewhere ..,
      links_setEntry_of_ne (s := s.setFile inode file) free elsewhere, rfl⟩

theorem createDirectory_entered {reply : Ino}
    (ok : createDirectory s inode place now = .ok (reply, s')) (absent : s.files inode = none) :
    AllEntered s' := by
  obtain ⟨_, free, _, row, _, retimed⟩ := createDirectory_ok ok
  refine AllEntered.retimed (all.change inode ?_ fun other elsewhere => ?_) retimed
  · show Entered (s.files inode) _ (s.linkParents inode)
    rw [absent]
    exact all.no_rows absent
  · exact ⟨rfl, links_setEntry_of_ne (s := s.setAccess inode row) free elsewhere, rfl⟩

theorem link_entered (ok : link s ino place now = .ok ((), s'))
    (room : ∀ file ∈ s.files ino, file.nlink < i32Max) : AllEntered s' := by
  obtain ⟨_, free, file, rows, stored, _, alive, linked, retimed⟩ := link_ok ok
  refine AllEntered.retimed (all.change ino ?_ fun other elsewhere => ?_) retimed
  · rw [setFile_files, update_self, setFile_linkParents, setLinkParents_linkParents, update_self]
    show Booked _ ((s.setEntry place ⟨ino, .file⟩).links ino) rows
    rw [links_setEntry_self s place ⟨ino, .file⟩]
    exact (all.booked stored).addLink now rfl rfl (room file stored) alive
      (notMem_links_of_free free) linked
  · exact ⟨update_of_ne elsewhere .., links_setEntry_of_ne free elsewhere,
      update_of_ne elsewhere ..⟩

theorem restoreDeletedFile_entered (ok : restoreDeletedFile s ino place now = .ok ((), s')) :
    AllEntered s' := by
  obtain ⟨_, free, file, stored, _, unlinked, retimed⟩ := restoreDeletedFile_ok ok
  refine AllEntered.retimed (all.change ino ?_ fun other elsewhere => ?_) retimed
  · have booked := all.booked stored
    have unnamed : s.links ino = ∅ := by
      rw [← card_eq_zero]
      have := booked.nlink
      omega
    rw [setTrash_files, setFile_files, update_self]
    show Booked _ ((s.setEntry place ⟨ino, _⟩).links ino) (s.linkParents ino)
    rw [links_setEntry_self s place ⟨ino, _⟩, booked.rows_single (by omega), unnamed]
    exact .fresh rfl rfl rfl
  · exact ⟨update_of_ne elsewhere .., links_setEntry_of_ne free elsewhere, rfl⟩

theorem EntryDropped.entered (dropped : EntryDropped s place entry s') : AllEntered s' := by
  obtain ⟨found, _, file, file', rows, path, remaining, stored, other, change, rfl⟩ := dropped
  refine all.change entry.inode ?_ fun ino elsewhere => ?_
  · rw [setFile_files, update_self, setFile_linkParents, setLinkParents_linkParents, update_self]
    show Booked file' ((s.deleteEntry place).links entry.inode) rows
    rw [links_deleteEntry]
    exact (all.booked stored).drop (mem_links_of_find found) other change
  · exact ⟨update_of_ne elsewhere .., links_deleteEntry_of_ne found elsewhere,
      update_of_ne elsewhere ..⟩

theorem DirectoryDropped.entered (dropped : DirectoryDropped s place entry s')
    (absent : s.files entry.inode = none) : AllEntered s' := by
  obtain ⟨found, _, _, rfl⟩ := dropped
  refine all.change entry.inode ?_ fun ino elsewhere =>
    ⟨rfl, links_deleteEntry_of_ne found elsewhere, rfl⟩
  show Entered (s.files entry.inode) _ (s.linkParents entry.inode)
  rw [absent]
  exact all.no_rows absent

/-- A file's entry moves, with its link-parent row or inline parent. -/
theorem AllEntered.move (stored : s.files ino = some file)
    (listed : source ∈ s.links ino) (new : target ∉ s.links ino)
    (change : (1 < file.nlink ∧ s₁.files ino = some file ∧
        s₁.linkParents ino = insert target ((s.linkParents ino).erase source)) ∨
      (file.nlink ≤ 1 ∧ s₁.linkParents ino = s.linkParents ino ∧
        ∃ file', s₁.files ino = some file' ∧ file'.nlink = file.nlink ∧
          file'.deleted = file.deleted ∧ file'.parent = target.1)) :
    Entered (s₁.files ino) (insert target ((s.links ino).erase source)) (s₁.linkParents ino) := by
  have booked := all.booked stored
  obtain ⟨several, row, rows⟩ | ⟨single, rows, file', row, nlink, deleted, parent⟩ := change
  · rw [row, rows]
    exact booked.moveRows several listed new
  · rw [row, rows]
    exact booked.moveInline single listed nlink deleted parent

theorem moveEntry_entered
    (ok : moveEntry s entry (some file) file.nlink source target now = .ok s')
    (found : s.find source = some entry) (free : s.find target = none)
    (stored : s.files entry.inode = some file) : AllEntered s' := by
  obtain ⟨freed, s₁, relinked, retimed⟩ := moveEntry_ok ok
  have listed := mem_links_of_find found
  refine AllEntered.retimed (all.change entry.inode ?_ fun other elsewhere => ?_) retimed
  · have entries : s₁.links entry.inode = insert target ((s.links entry.inode).erase source) := by
      have moved := links_setEntry_self (s.deleteEntry source) target entry
      rw [links_deleteEntry] at moved
      cases relinked <;> exact moved
    rw [entries]
    apply all.move stored listed (notMem_links_of_free free)
    cases relinked with
    | rows several => exact .inl ⟨several, stored, update_self ..⟩
    | inline single same kind nlink deleted parent =>
      obtain rfl := some.inj same
      exact .inr ⟨single, rfl, _, update_self .., nlink, deleted, parent⟩
    | none single without =>
      have one : file.nlink = 1 := by
        have count := (all.booked stored).nlink
        have some_link : 0 < (s.links entry.inode).card := card_pos.mpr ⟨_, listed⟩
        omega
      exact without.elim nofun (fun several => absurd one several)
  · have same : ((s.deleteEntry source).setEntry target entry).links other = s.links other := by
      rw [links_setEntry_of_ne freed elsewhere, links_deleteEntry_of_ne found elsewhere]
    cases relinked with
    | rows several => exact ⟨rfl, same, update_of_ne elsewhere ..⟩
    | inline single _ kind nlink deleted parent => exact ⟨update_of_ne elsewhere .., same, rfl⟩
    | none single without => exact ⟨rfl, same, rfl⟩

end

/-! ### Exchange -/

theorem RelinkedExchanged.frame (relinked : RelinkedExchanged s₁ ino read source target s') :
    s'.contents = s₁.contents ∧ ∀ other, other ≠ ino →
      s'.files other = s₁.files other ∧ s'.linkParents other = s₁.linkParents other := by
  cases relinked with
  | directory _ => exact ⟨rfl, fun _ _ => ⟨rfl, rfl⟩⟩
  | rows _ _ => exact ⟨rfl, fun other elsewhere => ⟨rfl, update_of_ne elsewhere ..⟩⟩
  | inline _ _ _ _ _ _ => exact ⟨rfl, fun other elsewhere => ⟨update_of_ne elsewhere .., rfl⟩⟩

/-- The records of an inode whose entry went to the other place. -/
theorem RelinkedExchanged.entered
    (relinked : RelinkedExchanged s₁ entry.inode read source target s')
    (ok : exchangedFile s entry = .ok read) (all : AllEntered s)
    (found : s.find source = some entry) (new : target ∉ s.links entry.inode)
    (absent : entry.entryType = .directory → s.files entry.inode = none)
    (row : s₁.files entry.inode = s.files entry.inode)
    (rows : s₁.linkParents entry.inode = s.linkParents entry.inode) :
    Entered (s'.files entry.inode) (insert target ((s.links entry.inode).erase source))
      (s'.linkParents entry.inode) := by
  obtain ⟨directory, rfl⟩ | ⟨_, file, stored, rfl⟩ := exchangedFile_ok ok
  · cases relinked with
    | directory _ =>
      rw [row, rows, absent directory]
      exact all.no_rows (absent directory)
    | rows same _ => cases same
    | inline same _ _ _ _ _ => cases same
  apply all.move stored (mem_links_of_find found) new
  rw [← rows]
  cases relinked with
  | directory without => cases without
  | rows same several =>
    obtain rfl := some.inj same
    exact .inl ⟨several, row.trans stored, update_self ..⟩
  | inline same single kind nlink deleted parent =>
    obtain rfl := some.inj same
    exact .inr ⟨single, rfl, _, update_self .., nlink, deleted, parent⟩

theorem links_exchanged {old new : Entry} (oldFound : s.find source = some old)
    (newFound : s.find target = some new) (distinct : old.inode ≠ new.inode) (ino : Ino) :
    ((((s.deleteEntry source).deleteEntry target).setEntry source new).setEntry target old).links
      ino = if ino = old.inode then insert target ((s.links ino).erase source)
      else if ino = new.inode then insert source ((s.links ino).erase target)
      else s.links ino := by
  have places : source ≠ target := by
    rintro rfl
    rw [oldFound] at newFound
    exact distinct (congrArg Entry.inode (some.inj newFound))
  rw [links_setEntry, links_setEntry, links_deleteEntry, links_deleteEntry]
  by_cases isOld : ino = old.inode
  · subst isOld
    rw [if_pos rfl, if_pos rfl, if_neg distinct.symm, erase_right_comm, erase_idem,
      erase_eq_of_notMem]
    exact fun here => notMem_links_of_ne newFound distinct (mem_of_mem_erase here)
  rw [if_neg (Ne.symm isOld), if_neg isOld]
  have outOfSource := notMem_links_of_ne oldFound isOld
  rw [erase_eq_of_notMem outOfSource]
  by_cases isNew : ino = new.inode
  · rw [if_pos isNew.symm, if_pos isNew, erase_insert_of_ne places, erase_idem]
  rw [if_neg (Ne.symm isNew), if_neg isNew,
    erase_eq_of_notMem (notMem_links_of_ne newFound isNew),
    erase_eq_of_notMem outOfSource,
    erase_eq_of_notMem (notMem_links_of_ne newFound isNew)]

theorem Exchanged.entered {old new : Entry} (exchanged : Exchanged s source target old new s')
    (all : AllEntered s)
    (apart : ∀ place entry, s.find place = some entry → entry.entryType = .directory →
      s.files entry.inode = none) : AllEntered s' := by
  obtain ⟨oldFound, newFound, distinct, _, _, oldFile, newFile, s₁, s₂, oldRead, newRead, relink₁,
    relink₂, retimed⟩ := exchanged
  refine AllEntered.retimed (fun ino => ?_) retimed
  obtain ⟨contents₁, frame₁⟩ := relink₁.frame
  obtain ⟨contents₂, frame₂⟩ := relink₂.frame
  have entries := links_exchanged oldFound newFound distinct ino
  have swapped : s₂.links ino = Namespace.links
      ((((s.deleteEntry source).deleteEntry target).setEntry source new).setEntry target old)
      ino := by
    unfold links
    rw [contents₂, contents₁]
  rw [← swapped] at entries
  by_cases isOld : ino = old.inode
  · subst isOld
    rw [if_pos rfl] at entries
    obtain ⟨row, rows⟩ := frame₂ old.inode distinct
    rw [entries, row, rows]
    exact relink₁.entered oldRead all oldFound (notMem_links_of_ne newFound distinct)
      (apart _ _ oldFound) rfl rfl
  rw [if_neg isOld] at entries
  obtain ⟨rows₁, parents₁⟩ := frame₁ ino isOld
  by_cases isNew : ino = new.inode
  · subst isNew
    rw [if_pos rfl] at entries
    rw [entries]
    exact relink₂.entered newRead all newFound (notMem_links_of_ne oldFound distinct.symm)
      (apart _ _ newFound) rows₁ parents₁
  rw [if_neg isNew] at entries
  obtain ⟨rows₂, parents₂⟩ := frame₂ ino isNew
  rw [entries, rows₂, parents₂, rows₁, parents₁]
  exact all ino

/-! ### Runs -/

/-- No directory is renamed, and no file gets more links than its row can count. -/
def Countable (s : Namespace) : Operation → Prop
  | .link ino _ _ => ∀ file ∈ s.files ino, file.nlink < i32Max
  | .rename source target _ _ =>
    source = target ∨ ∀ entry ∈ s.find source, entry.entryType ≠ .directory
  | _ => True

instance (s : Namespace) (operation : Operation) : Decidable (Countable s operation) := by
  cases operation <;> unfold Countable <;> infer_instance

theorem file_of_entry (sound : s.layout.Sound) (found : s.find place = some entry)
    (plain : entry.entryType ≠ .directory) : ∃ file, s.files entry.inode = some file := by
  obtain ⟨kind, stored, directory⟩ := (sound.consistent.fits found).stored
  have absent : s.access entry.inode = none := by
    by_contra present
    have isDir := kindOf_directory (s := s) (isSome_iff_ne_none.mpr present)
    exact plain (directory.mpr (some.inj (stored.symm.trans isDir)))
  have read : (s.files entry.inode).map FileMeta.kind = some kind :=
    (kindOf_file absent).symm.trans stored
  obtain ⟨file, found, _⟩ := map_eq_some_iff.mp read
  exact ⟨file, found⟩

section

variable (all : AllEntered s)

include all

theorem renameWithMode_entered {noreplace : Bool} {reply : RenameOutcome}
    (ok : renameWithMode s source target noreplace now = .ok (reply, s')) (sound : s.layout.Sound)
    (plain : source = target ∨ ∀ entry ∈ s.find source, entry.entryType ≠ .directory) :
    AllEntered s' := by
  obtain ⟨_, entry, nlink, found, _, counted, renamed⟩ := renameWithMode_ok ok
  by_cases same : source = target
  · subst same
    cases renamed with
    | same => exact all
    | moved free _ => rw [found] at free; cases free
    | replaced there other _ _ =>
      rw [found, some.injEq] at there
      exact absurd (congrArg Entry.inode there.symm) other
  · have nondirectory := plain.resolve_left same entry found
    obtain ⟨file, stored⟩ := file_of_entry sound found nondirectory
    have nlinkFile : nlink = file.nlink := by
      simp only [nlinkOf, stored, some.injEq] at counted
      exact counted.symm
    subst nlinkFile
    cases renamed with
    | same => exact all
    | moved free ok =>
      rw [stored] at ok
      exact moveEntry_entered all ok found free stored
    | replaced there other cleared ok =>
      obtain ⟨directory, _⟩ | ⟨_, dropped⟩ := replaceTarget_ok there cleared
      · exact absurd directory nondirectory
      have entered := dropped.entered all
      obtain ⟨_, _, _, _, _, _, _, _, _, _, rfl⟩ := dropped
      rw [stored] at ok
      apply moveEntry_entered entered ok
      · show (s.contents.erase target).lookup source = some entry
        rw [Keys.lookup_erase_eq, if_neg same]
        exact found
      · show (s.contents.erase target).lookup target = none
        rw [Keys.lookup_erase_eq, if_pos rfl]
      · rw [setFile_files, update_of_ne other.symm]
        exact stored

theorem settle_entered {α : Type} {transaction : Txn (α × Namespace)}
    (keeps : ∀ reply s', transaction = .ok (reply, s') → AllEntered s') :
    AllEntered (settle s transaction) := by
  unfold settle
  split
  · exact keeps _ _ rfl
  · exact all

theorem allocating_entered {create : Namespace → Ino → Txn (Ino × Namespace)} (tabled : s.Tabled)
    (sound : s.layout.Sound)
    (keeps : ∀ s₁ s' inode reply, create s₁ inode = .ok (reply, s') → AllEntered s₁ →
      s₁.files inode = none → s₁.links inode = ∅ → AllEntered s') :
    AllEntered (allocating s create) := by
  unfold allocating
  split
  · rename_i inode s₁ allocated
    simp only [allocInode, Guard.bind_eq_ok, Guard.check_eq_ok, exists_const] at allocated
    obtain ⟨_, rfl, rfl⟩ := allocated
    obtain ⟨absent, unused⟩ := tabled.unused s.counter le_rfl
    have unnamed : s.links s.counter = ∅ := by
      apply eq_empty_of_forall_notMem
      intro place listed
      obtain ⟨entry, found, names⟩ := (s.mem_links _ _).mp listed
      obtain ⟨kind, stored, _⟩ := (sound.consistent.fits found).stored
      rw [names] at stored
      have none_stored : s.kindOf s.counter = none := by
        rw [kindOf_file absent, unused]
        rfl
      exact absurd (none_stored.symm.trans stored) (by simp)
    have spent : AllEntered (s.setCounter (s.counter + 1)) := all
    exact settle_entered spent fun reply s' ok => keeps _ _ _ _ ok spent unused unnamed
  · exact all

theorem perform_entered (tabled : s.Tabled) (sound : s.layout.Sound)
    {operation : Operation} (countable : Countable s operation) :
    AllEntered (perform s operation) := by
  cases operation with
  | createFile place now =>
    refine allocating_entered all tabled sound fun s₁ s' inode reply ok all₁ _ unnamed => ?_
    exact (createFile_ok ok).entered all₁ unnamed
  | createNode place request now =>
    simp only [perform]
    split
    · exact all
    rename_i supported
    rw [Bool.or_eq_true, not_or] at supported
    refine allocating_entered all tabled sound fun s₁ s' inode reply ok all₁ _ unnamed => ?_
    exact (createNode_ok (Bool.eq_false_iff.mpr supported.1) ok).entered all₁ unnamed
  | symlink place target now =>
    refine allocating_entered all tabled sound fun s₁ s' inode reply ok all₁ _ unnamed => ?_
    exact (createSymlink_ok ok).entered all₁ unnamed
  | mkdir place now =>
    refine allocating_entered all tabled sound fun s₁ s' inode reply ok all₁ unused _ => ?_
    exact createDirectory_entered all₁ ok unused
  | rmdir place now =>
    refine settle_entered all fun _ _ ok => ?_
    obtain ⟨entry, found, directory, empty, retimed⟩ := rmdir_ok ok
    have dropped : DirectoryDropped s place entry _ := ⟨found, directory, empty, rfl⟩
    exact (dropped.entered all (tabled.directory_no_file sound found directory)).retimed retimed
  | link ino place now => exact settle_entered all fun _ _ ok => link_entered all ok countable
  | unlink place now =>
    refine settle_entered all fun _ _ ok => ?_
    obtain ⟨entry, s₁, dropped, retimed⟩ := unlink_ok ok
    exact (dropped.entered all).retimed retimed
  | rename source target noreplace now =>
    exact settle_entered all fun _ _ ok => renameWithMode_entered all ok sound countable
  | renameExchange source target now =>
    refine settle_entered all fun _ _ ok => ?_
    obtain rfl | ⟨old, new, exchanged⟩ := renameExchange_ok ok
    · exact all
    · exact exchanged.entered all fun _ _ found directory =>
        tabled.directory_no_file sound found directory
  | restoreDeletedFile ino place now =>
    exact settle_entered all fun _ _ ok => restoreDeletedFile_entered all ok

end

/-- Link counts, inline parents, deletion marks and link-parent rows agree with the entries. -/
structure LinksAgree (s : Namespace) : Prop where
  nlink : ∀ ino file, s.files ino = some file → file.nlink = (s.links ino).card
  parent : ∀ ino file, s.files ino = some file → (file.parent ≠ 0 ↔ file.nlink = 1)
  deleted : ∀ ino file, s.files ino = some file → (file.deleted = true ↔ file.nlink = 0)
  rows : ∀ ino place, place ∈ s.linkParents ino ↔
    place ∈ s.links ino ∧ ∃ file, s.files ino = some file ∧ 1 < file.nlink

theorem linksAgree_of_entered (tabled : s.Tabled) (sound : s.layout.Sound) (all : AllEntered s) :
    LinksAgree s where
  nlink ino file stored := (all.booked stored).nlink
  parent ino file stored := by
    have booked := all.booked stored
    refine ⟨fun set => by_contra fun several => set (booked.unset several), fun single unset => ?_⟩
    have one : (s.links ino).card = 1 := by
      have := booked.nlink
      omega
    obtain ⟨place, alone⟩ := card_eq_one.mp one
    obtain ⟨entry, found, _⟩ := (s.mem_links ino place).mp
      (by rw [alone]; exact mem_singleton_self _)
    have directory := (sound.consistent.fits found).parent
    have zero : s.layout.kind 0 ≠ some .dir := by
      intro isDir
      have kindZero : (s.files 0).map FileMeta.kind = some .dir :=
        (kindOf_file tabled.positive.1).symm.trans isDir
      obtain ⟨file, stored, kind⟩ := map_eq_some_iff.mp kindZero
      exact (tabled.apart stored).2 kind
    rw [← booked.single place alone, unset] at directory
    exact zero directory
  deleted ino file stored := (all.booked stored).deleted
  rows ino place := by
    cases stored : s.files ino with
    | none => simp [all.no_rows stored]
    | some file =>
      rw [(all.booked stored).rows]
      by_cases several : 1 < file.nlink <;> simp [several]

/-- While no directory is renamed and no link count saturates, the SQL store's link tables agree in
every state of a run. -/
theorem link_tables_agree {now : Int} {operations : List Operation} {final : Namespace}
    (countable : Run.Along operate Countable (initialNamespace now) operations)
    (run : Run.exec operate (initialNamespace now) operations = some final) : LinksAgree final := by
  have kept : (final.Tabled ∧ final.layout.Sound) ∧ AllEntered final := by
    apply Run.invariant_along ?_ ?_ countable run
    · rintro s operation next ⟨⟨tabled, sound⟩, all⟩ plain taken
      obtain rfl := some.inj taken
      exact ⟨perform_sound tabled sound operation, perform_entered all tabled sound plain⟩
    · exact ⟨⟨initialNamespace_tabled now, initialNamespace_sound now⟩, fun _ => rfl⟩
  exact linksAgree_of_entered kept.1.1 kept.1.2 kept.2

/-- A file gets a second name, loses the first, goes to the trash and comes back in another
directory, where it changes places with a directory. -/
def fileThroughTrash : List Operation :=
  [.createFile (1, "f") 0, .link 2 (1, "g") 0, .unlink (1, "f") 0, .mkdir (1, "d") 0,
    .unlink (1, "g") 0, .restoreDeletedFile 2 (3, "f") 0, .mkdir (3, "e") 0,
    .renameExchange (3, "e") (3, "f") 0, .rename (3, "e") (1, "h") true 0]

theorem link_tables_agree_trash : ∃ final,
    Run.exec operate (initialNamespace 0) fileThroughTrash = some final ∧
    final.links 2 = {(1, "h")} ∧ LinksAgree final :=
  have run : Run.exec operate (initialNamespace 0) fileThroughTrash = some _ := rfl
  ⟨_, run, by decide, link_tables_agree (by decide) run⟩

/-- Renaming a directory records a link-parent row, which outlives it. -/
theorem renamed_directory_leaves_row : ∃ final, Run.exec operate (initialNamespace 0)
      [.mkdir (1, "a") 0, .rename (1, "a") (1, "b") false 0, .rmdir (1, "b") 0] = some final ∧
    (1, "b") ∈ final.linkParents 2 ∧ final.access 2 = none ∧ final.files 2 = none ∧
    final.links 2 = ∅ :=
  ⟨_, rfl, by decide, rfl, rfl, by decide⟩

end BrewFs.Meta.Database
