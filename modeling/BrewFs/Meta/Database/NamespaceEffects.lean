import BrewFs.Meta.Database.NamespaceOps

/-! What a committed transaction found and what it wrote. -/

namespace BrewFs.Meta.Database

open Namespace EntryType
open Function (update_self update_of_ne)
open Guard (bind_eq_ok need_eq_ok check_eq_ok pure_eq_ok)

variable {s s' : Namespace}

/-! ### Directory times -/

/-- The columns of a directory row that no touch changes. -/
def AccessMeta.fixed (row : AccessMeta) : Permission × Int := (row.permission, row.nlink)

/-- The tables differ in the times of directories at most. -/
structure Retimed (s s' : Namespace) : Prop where
  access : ∀ ino, (s'.access ino).map AccessMeta.fixed = (s.access ino).map AccessMeta.fixed
  files : s'.files = s.files
  contents : s'.contents = s.contents
  linkParents : s'.linkParents = s.linkParents
  counter : s'.counter = s.counter

theorem Retimed.trans {s₁ s₂ s₃ : Namespace} (first : Retimed s₁ s₂) (second : Retimed s₂ s₃) :
    Retimed s₁ s₃ where
  access ino := (second.access ino).trans (first.access ino)
  files := second.files.trans first.files
  contents := second.contents.trans first.contents
  linkParents := second.linkParents.trans first.linkParents
  counter := second.counter.trans first.counter

variable {ino : Ino} {now nlink : Int} {missing : MetaError}

theorem touchParent_ok (ok : touchParent s ino missing now = .ok s') :
    (s.access ino).isSome = true ∧ Retimed s s' := by
  simp only [touchParent, bind_eq_ok, need_eq_ok, pure_eq_ok] at ok
  obtain ⟨row, stored, rfl⟩ := ok
  refine ⟨by rw [stored]; rfl, fun other => ?_, rfl, rfl, rfl, rfl⟩
  by_cases here : other = ino
  · subst here
    rw [setAccess_access, update_self, stored]
    rfl
  · rw [setAccess_access, update_of_ne here]

theorem touchParents_ok {source target : Ino}
    (ok : touchParents s source target missing now = .ok s') : Retimed s s' := by
  simp only [touchParents, bind_eq_ok] at ok
  obtain ⟨s₁, touched, ok⟩ := ok
  have first := (touchParent_ok touched).2
  split at ok
  · exact first.trans (touchParent_ok ok).2
  · rw [pure_eq_ok] at ok
    exact ok ▸ first

/-! ### Inserts -/

variable {place : Place} {entry : Entry}

theorem insertEntry_ok (ok : s.insertEntry place entry = .ok s') :
    s.find place = none ∧ s' = s.setEntry place entry := by
  simp only [insertEntry, bind_eq_ok, check_eq_ok, pure_eq_ok, exists_const] at ok
  exact ⟨ok.1, ok.2.symm⟩

theorem insertLinkParent_ok (ok : s.insertLinkParent ino place = .ok s') :
    s' = s.setLinkParents ino (insert place (s.linkParents ino)) := by
  simp only [insertLinkParent, bind_eq_ok, check_eq_ok, pure_eq_ok, exists_const] at ok
  exact ok.2.symm

theorem setLinkParents_self : s.setLinkParents ino (s.linkParents ino) = s := by
  simp [setLinkParents]

theorem setLinkParents_twice (rows rows' : Finset Place) :
    (s.setLinkParents ino rows).setLinkParents ino rows' = s.setLinkParents ino rows' := by
  simp [setLinkParents]

variable {source target : Place}

theorem replaceLinkParent_ok
    (ok : (s.deleteLinkParent ino source).insertLinkParent ino target = .ok s') :
    s' = s.setLinkParents ino (insert target ((s.linkParents ino).erase source)) := by
  have inserted := insertLinkParent_ok ok
  rw [deleteLinkParent, setLinkParents_twice, setLinkParents_linkParents,
    update_self] at inserted
  exact inserted

theorem setTrash_self : s.setTrash ino (s.trash ino) = s := by
  simp [setTrash]

/-! ### Creation -/

/-- A new file row with its first entry. -/
structure NodeCreated (s : Namespace) (inode : Ino) (place : Place) (s' : Namespace) : Prop where
  parent : (s.access place.1).isSome = true
  free : s.find place = none
  unused : s.files inode = none
  written : ∃ file type, file.kind = toFileType type ∧ type ≠ .directory ∧
    file.nlink = 1 ∧ file.parent = place.1 ∧ file.deleted = false ∧
    Retimed ((s.setFile inode file).setEntry place ⟨inode, type⟩) s'

variable {inode reply : Ino} {file : FileMeta}

theorem addNode_ok {type : EntryType} (ok : addNode s inode place file type now = .ok (reply, s'))
    (parent : (s.access place.1).isSome = true) (kind : file.kind = type.toFileType)
    (plain : type ≠ .directory) (nlink : file.nlink = 1) (inside : file.parent = place.1)
    (alive : file.deleted = false) : NodeCreated s inode place s' := by
  simp only [addNode, insertFile, bind_eq_ok, check_eq_ok, pure_eq_ok, exists_const] at ok
  obtain ⟨_, ⟨unused, rfl⟩, _, inserted, s₃, touched, _, rfl⟩ := ok
  obtain ⟨free, rfl⟩ := insertEntry_ok inserted
  exact ⟨parent, free, unused, file, type, kind, plain, nlink, inside, alive,
    (touchParent_ok touched).2⟩

theorem createFile_ok (ok : createFile s inode place now = .ok (reply, s')) :
    NodeCreated s inode place s' := by
  simp only [createFile, bind_eq_ok, need_eq_ok] at ok
  obtain ⟨parent, stored, _, _, ok⟩ := ok
  apply addNode_ok ok _ _ _ rfl rfl rfl
  · rw [stored]
    rfl
  · simp only [FileMeta.kind, newFile, Option.isSome_none, Bool.false_eq_true]
    decide
  · decide

theorem createNode_ok {request : NodeRequest} (plain : request.kind.isDir = false)
    (ok : createNode s inode place request now = .ok (reply, s')) :
    NodeCreated s inode place s' := by
  simp only [createNode, bind_eq_ok, need_eq_ok] at ok
  obtain ⟨parent, stored, _, _, ok⟩ := ok
  apply addNode_ok ok _ _ _ rfl rfl rfl
  · rw [stored]
    rfl
  · rw [toFileType_fileTypeToEntryType]
    exact FileType.fromMode_modeTypeBits _ _
  · intro directory
    rw [← toFileType_isDir, toFileType_fileTypeToEntryType, plain] at directory
    cases directory

theorem createSymlink_ok {target : String}
    (ok : createSymlink s inode place target now = .ok (reply, s')) :
    NodeCreated s inode place s' := by
  simp only [createSymlink, bind_eq_ok, need_eq_ok] at ok
  obtain ⟨parent, stored, _, _, _, _, ok⟩ := ok
  apply addNode_ok ok _ rfl (by decide) rfl rfl rfl
  rw [stored]
  rfl

theorem createDirectory_ok (ok : createDirectory s inode place now = .ok (reply, s')) :
    (s.access place.1).isSome = true ∧ s.find place = none ∧ s.access inode = none ∧
    ∃ row : AccessMeta, row.nlink = 2 ∧
      Retimed ((s.setAccess inode row).setEntry place ⟨inode, .directory⟩) s' := by
  simp only [createDirectory, insertAccess, bind_eq_ok, need_eq_ok, check_eq_ok,
    pure_eq_ok, exists_const] at ok
  obtain ⟨parent, stored, free, _, ⟨unused, rfl⟩, _, inserted, s₃, touched, _, rfl⟩ := ok
  obtain ⟨_, rfl⟩ := insertEntry_ok inserted
  exact ⟨by rw [stored]; rfl, free, unused, _, rfl, (touchParent_ok touched).2⟩

/-! ### Links -/

/-- The link-parent rows of a file after `link`. -/
def linkedRows (s : Namespace) (ino : Ino) (file : FileMeta) (place : Place) (rows : Finset Place) :
    Prop :=
  (file.nlink = 1 ∧ ∃ only, s.entryNaming ino = some only ∧
    rows = insert place (insert (file.parent, only.2) (s.linkParents ino))) ∨
  (1 < file.nlink ∧ rows = insert place (s.linkParents ino))

theorem link_ok (ok : link s ino place now = .ok ((), s')) :
    (s.access place.1).isSome = true ∧ s.find place = none ∧
    ∃ file rows, s.files ino = some file ∧ file.symlinkTarget = none ∧ 0 < file.nlink ∧
      linkedRows s ino file place rows ∧
      Retimed (((s.setEntry place ⟨ino, .file⟩).setLinkParents ino rows).setFile ino
        (file.addLink now)) s' := by
  simp only [link, bind_eq_ok, need_eq_ok, check_eq_ok, exists_const, lockNamespaceForRename] at ok
  obtain ⟨_, _, file, stored, plain, ⟨_, alive⟩, parent, inside, _, free, original, looked, s₁,
    inserted, s₂, recorded, s₃, touched, _, rfl⟩ := ok
  rw [plain] at inserted
  obtain ⟨_, rfl⟩ := insertEntry_ok inserted
  have retimed := (touchParent_ok touched).2
  refine ⟨by rw [inside]; rfl, free, file, ?_⟩
  unfold originalName at looked
  by_cases single : file.nlink = 1
  · rw [if_pos single] at looked
    simp only [bind_eq_ok, need_eq_ok, pure_eq_ok] at looked
    obtain ⟨only, named, rfl⟩ := looked
    simp only [recordLink, bind_eq_ok] at recorded
    obtain ⟨_, first, second⟩ := recorded
    obtain rfl := insertLinkParent_ok first
    obtain rfl := insertLinkParent_ok second
    rw [setLinkParents_twice, setLinkParents_linkParents, update_self] at retimed
    exact ⟨_, stored, plain, alive, .inl ⟨single, only, named, rfl⟩, retimed⟩
  · have several : 1 < file.nlink := by omega
    rw [if_neg single, pure_eq_ok] at looked
    subst looked
    simp only [recordLink, if_pos several] at recorded
    obtain rfl := insertLinkParent_ok recorded
    exact ⟨_, stored, plain, alive, .inr ⟨several, rfl⟩, retimed⟩

/-- The file row and link-parent rows once the entry at `place` is gone. -/
structure Dropped (file : FileMeta) (rows : Finset Place) (place : Place)
    (remaining : Option Place) (file' : FileMeta) (rows' : Finset Place) : Prop where
  kind : file'.kind = file.kind
  change : (2 < file.nlink ∧ file'.nlink = file.nlink - 1 ∧ file'.deleted = false ∧
      file'.parent = file.parent ∧ rows' = rows.erase place) ∨
    (file.nlink = 2 ∧ file'.nlink = 1 ∧ file'.deleted = false ∧
      (∃ last, remaining = some last ∧ file'.parent = last.1) ∧ rows' = ∅) ∨
    (file.nlink ≤ 1 ∧ file'.nlink = 0 ∧ file'.deleted = true ∧ file'.parent = 0 ∧ rows' = rows)

theorem dropLink_ok {remaining : Option Place}
    (ok : dropLink s ino file place remaining now = .ok s') :
    ∃ file' rows path, Dropped file (s.linkParents ino) place remaining file' rows ∧
      s' = ((s.setTrash ino path).setLinkParents ino rows).setFile ino file' := by
  simp only [dropLink] at ok
  by_cases several : 1 < file.nlink
  · rw [if_pos several] at ok
    by_cases two : file.nlink = 2
    · rw [if_pos two] at ok
      simp only [bind_eq_ok, need_eq_ok, pure_eq_ok] at ok
      obtain ⟨last, other, rfl⟩ := ok
      refine ⟨{ file with
          modifyTime := now
          createTime := now
          nlink := file.nlink - 1
          deleted := false
          parent := last.1 }, ∅, s.trash ino,
        ⟨rfl, .inr (.inl ⟨two, ?_, rfl, ⟨last, other, rfl⟩, rfl⟩)⟩, ?_⟩
      · show file.nlink - 1 = 1
        omega
      · rw [setTrash_self, deleteLinkParent, setLinkParents_twice]
    · rw [if_neg two, pure_eq_ok] at ok
      subst ok
      refine ⟨{ file with
          modifyTime := now
          createTime := now
          nlink := file.nlink - 1
          deleted := false }, _, s.trash ino, ⟨rfl, .inl ⟨by omega, rfl, rfl, rfl, rfl⟩⟩, ?_⟩
      rw [setTrash_self, deleteLinkParent]
  · rw [if_neg several] at ok
    simp only [recordTrash, bind_eq_ok, pure_eq_ok] at ok
    obtain ⟨_, ⟨path, _, rfl⟩, rfl⟩ := ok
    refine ⟨{ file with
        modifyTime := now
        createTime := now
        nlink := 0
        deleted := true
        parent := 0 }, s.linkParents ino, some path,
      ⟨rfl, .inr (.inr ⟨by omega, rfl, rfl, rfl, rfl⟩)⟩, ?_⟩
    have same : (s.setTrash ino (some path)).linkParents ino = s.linkParents ino := rfl
    rw [← same, setLinkParents_self]

/-- A file's entry goes, and its row with it or down by one link. -/
structure EntryDropped (s : Namespace) (place : Place) (entry : Entry) (s' : Namespace) : Prop where
  found : s.find place = some entry
  plain : entry.entryType ≠ .directory
  written : ∃ file file' rows path remaining, s.files entry.inode = some file ∧
    (∀ last, remaining = some last → last ∈ s.links entry.inode ∧ last ≠ place) ∧
    Dropped file (s.linkParents entry.inode) place remaining file' rows ∧
    s' = (((s.deleteEntry place).setTrash entry.inode path).setLinkParents entry.inode rows).setFile
      entry.inode file'

theorem links_deleteEntry (s : Namespace) (place : Place) (ino : Ino) :
    (s.deleteEntry place).links ino = (s.links ino).erase place :=
  Keys.keysWhere_erase _ _ _

theorem unlink_ok (ok : unlink s place now = .ok ((), s')) :
    ∃ entry s₁, EntryDropped s place entry s₁ ∧ Retimed s₁ s' := by
  simp only [unlink, bind_eq_ok, need_eq_ok, check_eq_ok, exists_const, lockNamespaceForRename]
    at ok
  obtain ⟨_, entry, found, plain, file, stored, s₁, dropped, s₂, touched, _, rfl⟩ := ok
  obtain ⟨file', rows, path, change, rfl⟩ := dropLink_ok dropped
  refine ⟨entry, _, ⟨found, plain, file, file', rows, path, _, stored, ?_, change, rfl⟩,
    (touchParent_ok touched).2⟩
  intro last named
  have other := mem_links_of_entryNaming named
  rw [links_deleteEntry, Finset.mem_erase] at other
  exact ⟨other.2, other.1⟩

theorem rmdir_ok (ok : rmdir s place now = .ok ((), s')) :
    ∃ entry, s.find place = some entry ∧ entry.entryType = .directory ∧
      s.childCount entry.inode = 0 ∧
      Retimed (((s.deleteAccess entry.inode).setTrash entry.inode none).deleteEntry place) s' := by
  simp only [rmdir, bind_eq_ok, need_eq_ok, check_eq_ok, exists_const] at ok
  obtain ⟨entry, found, empty, s₁, touched, _, rfl⟩ := ok
  rw [Option.filter_eq_some_iff] at found
  exact ⟨entry, found.1, of_decide_eq_true found.2, empty, (touchParent_ok touched).2⟩

theorem restoreDeletedFile_ok (ok : restoreDeletedFile s ino place now = .ok ((), s')) :
    (s.access place.1).isSome = true ∧ s.find place = none ∧
    ∃ file, s.files ino = some file ∧ file.deleted = true ∧ file.nlink = 0 ∧
      Retimed
        (((s.setEntry place ⟨ino, if file.symlinkTarget.isSome then .symlink else .file⟩).setFile
        ino (file.restored place now)).setTrash ino none) s' := by
  simp only [restoreDeletedFile, bind_eq_ok, need_eq_ok, check_eq_ok, exists_const,
    lockNamespaceForRename] at ok
  obtain ⟨_, parent, inside, free, file, stored, ⟨dead, unlinked⟩, _, inserted, s₂, touched, _,
    rfl⟩ := ok
  obtain ⟨_, rfl⟩ := insertEntry_ok inserted
  exact ⟨by rw [inside]; rfl, free, file, stored, dead, unlinked, (touchParent_ok touched).2⟩

/-! ### Rename -/

theorem mem_links_of_otherEntry {last : Place} (found : otherEntry s ino place = some last) :
    last ∈ s.links ino ∧ last ≠ place := by
  obtain ⟨row, first, rfl⟩ := Option.map_eq_some_iff.mp found
  obtain ⟨listed, elsewhere⟩ := List.mem_filter.mp (List.mem_of_mem_head? first)
  obtain ⟨here, names⟩ := (s.mem_rowsNaming ino row).mp listed
  exact ⟨(s.mem_links ino row.1).mpr ⟨row.2, here, names⟩, of_decide_eq_true elsewhere⟩

/-- A directory without entries goes. -/
structure DirectoryDropped (s : Namespace) (place : Place) (entry : Entry) (s' : Namespace) :
    Prop where
  found : s.find place = some entry
  directory : entry.entryType = .directory
  empty : s.childCount entry.inode = 0
  written : s' = ((s.deleteAccess entry.inode).setTrash entry.inode none).deleteEntry place

theorem replaceTarget_ok {existing : Entry} (found : s.find target = some existing)
    (ok : replaceTarget s entry existing target now = .ok s') :
    (entry.entryType = .directory ∧ DirectoryDropped s target existing s') ∨
    (entry.entryType ≠ .directory ∧ EntryDropped s target existing s') := by
  unfold replaceTarget at ok
  cases sourceIsDir : entry.entryType.toFileType.isDir <;>
    cases targetIsDir : existing.entryType.toFileType.isDir <;>
    simp only [sourceIsDir, targetIsDir, bind_eq_ok, need_eq_ok, check_eq_ok, pure_eq_ok,
      exists_const, reduceCtorEq] at ok
  · right
    have sourceFile : entry.entryType ≠ .directory := by
      rw [ne_eq, ← toFileType_isDir, sourceIsDir]
      decide
    have targetFile : existing.entryType ≠ .directory := by
      rw [ne_eq, ← toFileType_isDir, targetIsDir]
      decide
    obtain ⟨file, stored, _, dropped, rfl⟩ := ok
    obtain ⟨file', rows, path, change, rfl⟩ := dropLink_ok dropped
    exact ⟨sourceFile, found, targetFile, file, file', rows, path, _, stored,
      fun last other => mem_links_of_otherEntry other, change, rfl⟩
  · left
    obtain ⟨empty, rfl⟩ := ok
    exact ⟨(toFileType_isDir _).mp sourceIsDir, found,
      (toFileType_isDir _).mp targetIsDir, empty, rfl⟩

/-- What `relink` writes for the renamed inode. -/
inductive Relinked (s : Namespace) (ino : Ino) (file : Option FileMeta) (nlink : Int)
    (source target : Place) : Namespace → Prop
  | rows (several : 1 < nlink) : Relinked s ino file nlink source target
        (s.setLinkParents ino (insert target ((s.linkParents ino).erase source)))
  | inline {row row' : FileMeta} (single : nlink ≤ 1) (stored : file = some row)
      (kind : row'.kind = row.kind) (nlinkSame : row'.nlink = row.nlink)
      (deletedSame : row'.deleted = row.deleted) (parent : row'.parent = target.1) :
      Relinked s ino file nlink source target (s.setFile ino row')
  | none (single : nlink ≤ 1) (without : file = none ∨ nlink ≠ 1) :
      Relinked s ino file nlink source target s

variable {file : Option FileMeta}

theorem relink_ok (ok : relink s ino file nlink source target now = .ok s') :
    Relinked s ino file nlink source target s' := by
  unfold relink at ok
  by_cases several : 1 < nlink
  · rw [if_pos several] at ok
    rw [replaceLinkParent_ok ok]
    exact .rows several
  rw [if_neg several] at ok
  cases file with
  | none =>
    rw [pure_eq_ok] at ok
    exact ok ▸ .none (by omega) (.inl rfl)
  | some row =>
    by_cases single : nlink = 1
    · simp only [if_pos single, pure_eq_ok] at ok
      exact ok ▸ .inline (by omega) rfl rfl rfl rfl rfl
    · simp only [if_neg single, pure_eq_ok] at ok
      exact ok ▸ .none (by omega) (.inr single)

theorem moveEntry_ok (ok : moveEntry s entry file nlink source target now = .ok s') :
    (s.deleteEntry source).find target = none ∧
    ∃ s₁, Relinked ((s.deleteEntry source).setEntry target entry) entry.inode file nlink source
      target s₁ ∧ Retimed s₁ s' := by
  simp only [moveEntry, bind_eq_ok] at ok
  obtain ⟨_, inserted, s₁, relinked, touched⟩ := ok
  obtain ⟨free, rfl⟩ := insertEntry_ok inserted
  exact ⟨free, s₁, relink_ok relinked, touchParents_ok touched⟩

/-- A committed rename: nothing, a move to a free place, or one after a replacement. -/
inductive Renamed (s : Namespace) (source target : Place) (entry : Entry) (nlink : Int) :
    Namespace → Prop
  | same : Renamed s source target entry nlink s
  | moved {s' : Namespace} {now : Int} (free : s.find target = none)
      (ok : moveEntry s entry (s.files entry.inode) nlink source target now = .ok s') :
      Renamed s source target entry nlink s'
  | replaced {existing : Entry} {s₁ s' : Namespace} {now : Int}
      (found : s.find target = some existing) (other : existing.inode ≠ entry.inode)
      (cleared : replaceTarget s entry existing target now = .ok s₁)
      (ok : moveEntry s₁ entry (s.files entry.inode) nlink source target now = .ok s') :
      Renamed s source target entry nlink s'

theorem renameWithMode_ok {noreplace : Bool} {reply : RenameOutcome}
    (ok : renameWithMode s source target noreplace now = .ok (reply, s')) :
    (s.access target.1).isSome = true ∧ ∃ entry nlink, s.find source = some entry ∧
      validateMove s entry target.1 = .ok () ∧ nlinkOf s entry.inode = some nlink ∧
      Renamed s source target entry nlink s' := by
  simp only [renameWithMode, bind_eq_ok, need_eq_ok, check_eq_ok, lockNamespaceForRename,
    exists_const] at ok
  obtain ⟨_, parent, inside, _, entry, found, _, valid, nlink, counted, _, ok⟩ := ok
  refine ⟨by rw [inside]; rfl, entry, nlink, found, valid, counted, ?_⟩
  cases there : s.find target with
  | none =>
    rw [there] at ok
    simp only [bind_eq_ok] at ok
    obtain ⟨_, moved, _, rfl⟩ := ok
    exact .moved there moved
  | some existing =>
    rw [there] at ok
    by_cases same : existing.inode = entry.inode
    · simp only [if_pos same, pure_eq_ok, Prod.mk.injEq] at ok
      exact ok.2 ▸ .same
    simp only [if_neg same, bind_eq_ok] at ok
    obtain ⟨s₁, cleared, _, moved, _, rfl⟩ := ok
    exact .replaced there same cleared moved

/-! ### Exchange -/

/-- What `relinkExchanged` writes for one inode. -/
inductive RelinkedExchanged (s : Namespace) (ino : Ino) (file : Option FileMeta)
    (source target : Place) : Namespace → Prop
  | directory (without : file = none) : RelinkedExchanged s ino file source target s
  | rows {row : FileMeta} (stored : file = some row) (several : 1 < row.nlink) :
      RelinkedExchanged s ino file source target
        (s.setLinkParents ino (insert target ((s.linkParents ino).erase source)))
  | inline {row row' : FileMeta} (stored : file = some row) (single : row.nlink ≤ 1)
      (kind : row'.kind = row.kind) (nlinkSame : row'.nlink = row.nlink)
      (deletedSame : row'.deleted = row.deleted) (parent : row'.parent = target.1) :
      RelinkedExchanged s ino file source target (s.setFile ino row')

theorem relinkExchanged_ok (ok : relinkExchanged s ino file source target now = .ok s') :
    RelinkedExchanged s ino file source target s' := by
  unfold relinkExchanged at ok
  cases file with
  | none =>
    rw [pure_eq_ok] at ok
    exact ok ▸ .directory rfl
  | some row =>
    by_cases several : 1 < row.nlink
    · simp only [if_pos several] at ok
      rw [replaceLinkParent_ok ok]
      exact .rows rfl several
    · simp only [if_neg several, pure_eq_ok] at ok
      exact ok ▸ .inline rfl (by omega) rfl rfl rfl rfl

theorem exchangedFile_ok (ok : exchangedFile s entry = .ok file) :
    (entry.entryType = .directory ∧ file = none) ∨
    (entry.entryType ≠ .directory ∧ ∃ row, s.files entry.inode = some row ∧ file = some row) := by
  unfold exchangedFile at ok
  by_cases directory : entry.entryType = .directory
  · rw [if_pos ((toFileType_isDir _).mpr directory), pure_eq_ok] at ok
    exact .inl ⟨directory, ok.symm⟩
  rw [if_neg (mt (toFileType_isDir _).mp directory)] at ok
  simp only [bind_eq_ok, need_eq_ok, pure_eq_ok] at ok
  obtain ⟨row, stored, rfl⟩ := ok
  exact .inr ⟨directory, row, stored, rfl⟩

/-- A committed exchange of two different inodes. -/
structure Exchanged (s : Namespace) (source target : Place) (old new : Entry) (s' : Namespace) :
    Prop where
  oldFound : s.find source = some old
  newFound : s.find target = some new
  distinct : old.inode ≠ new.inode
  oldValid : validateMove s old target.1 = .ok ()
  newValid : validateMove s new source.1 = .ok ()
  written : ∃ oldFile newFile s₁ s₂, exchangedFile s old = .ok oldFile ∧
    exchangedFile s new = .ok newFile ∧
    RelinkedExchanged ((((s.deleteEntry source).deleteEntry target).setEntry source new).setEntry
      target old) old.inode oldFile source target s₁ ∧
    RelinkedExchanged s₁ new.inode newFile target source s₂ ∧ Retimed s₂ s'

theorem renameExchange_ok (ok : renameExchange s source target now = .ok ((), s'))
    : s' = s ∨ ∃ old new, Exchanged s source target old new s' := by
  unfold renameExchange at ok
  by_cases same : source = target
  · rw [if_pos same, pure_eq_ok, Prod.mk.injEq] at ok
    exact .inl ok.2.symm
  rw [if_neg same] at ok
  simp only [bind_eq_ok, need_eq_ok, check_eq_ok, lockNamespaceForRename, exists_const] at ok
  obtain ⟨_, old, oldFound, new, newFound, ok⟩ := ok
  by_cases one : old.inode = new.inode
  · rw [if_pos one, pure_eq_ok, Prod.mk.injEq] at ok
    exact .inl ok.2.symm
  rw [if_neg one] at ok
  simp only [bind_eq_ok, exchangeEntries] at ok
  obtain ⟨_, oldValid, _, newValid, oldFile, oldRead, newFile, newRead, _,
    ⟨_, put₁, _, put₂, s₁, relink₁, s₂, relink₂, touched⟩, _, rfl⟩ := ok
  obtain ⟨_, rfl⟩ := insertEntry_ok put₁
  obtain ⟨_, rfl⟩ := insertEntry_ok put₂
  exact .inr ⟨old, new, oldFound, newFound, one, oldValid, newValid, oldFile, newFile, s₁, s₂,
    oldRead, newRead, relinkExchanged_ok relink₁, relinkExchanged_ok relink₂,
    touchParents_ok touched⟩

end BrewFs.Meta.Database
