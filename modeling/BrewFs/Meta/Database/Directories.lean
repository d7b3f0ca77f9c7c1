import BrewFs.Library.Run
import BrewFs.Meta.Database.Layout
import BrewFs.Meta.Database.NamespaceEffects

/-! Every transaction of the SQL store takes steps of the layout, so the directories stay a
tree and path construction ends. -/

namespace BrewFs.Meta.Database

open Function (update update_apply update_of_ne update_self)
open Relation (ReflTransGen)
open Ascent (Clear)

variable {s s' : Namespace} {allowed : FileType → EntryType → Prop} {file file' : FileMeta}

namespace Namespace

/-- The kind of a stored inode. -/
def kindOf (s : Namespace) (ino : Ino) : Option FileType :=
  match s.access ino with
  | some _ => some .dir
  | none => (s.files ino).map FileMeta.kind

def layout (s : Namespace) : Layout := ⟨s.kindOf, s.find⟩

variable {ino : Ino}

theorem kindOf_directory (stored : (s.access ino).isSome = true) : s.kindOf ino = some .dir := by
  obtain ⟨row, found⟩ := Option.isSome_iff_exists.mp stored
  simp only [kindOf, found]

theorem kindOf_file (absent : s.access ino = none) :
    s.kindOf ino = (s.files ino).map FileMeta.kind := by
  simp only [kindOf, absent]

@[simp] theorem layout_setEntry (s : Namespace) (place : Place) (entry : Entry) :
    (s.setEntry place entry).layout = s.layout.put place entry := by
  have entries : (s.setEntry place entry).find = update s.find place (some entry) := by
    funext place'
    unfold find
    rw [setEntry_contents, Keys.lookup_insert_eq, update_apply]
  simp only [layout, entries]
  rfl

@[simp] theorem layout_deleteEntry (s : Namespace) (place : Place) :
    (s.deleteEntry place).layout = s.layout.drop place := by
  have entries : (s.deleteEntry place).find = update s.find place none := by
    funext place'
    unfold find
    rw [deleteEntry_contents, Keys.lookup_erase_eq, update_apply]
  simp only [layout, entries]
  rfl

theorem layout_setKind {kind : Option FileType} (entries : s'.find = s.find)
    (here : s'.kindOf ino = kind)
    (elsewhere : ∀ other, other ≠ ino → s'.kindOf other = s.kindOf other) :
    s'.layout = s.layout.setKind ino kind := by
  rw [layout, entries, Function.eq_update_iff.mpr ⟨here, elsewhere⟩]
  rfl

@[simp] theorem layout_setAccess (s : Namespace) (ino : Ino) (row : AccessMeta) :
    (s.setAccess ino row).layout = s.layout.setKind ino (some .dir) :=
  layout_setKind rfl (by simp [kindOf]) fun other here => by simp [kindOf, update_of_ne here]

theorem layout_deleteAccess (absent : s.files ino = none) :
    (s.deleteAccess ino).layout = s.layout.setKind ino none :=
  layout_setKind rfl (by simp [kindOf, absent]) fun other here => by
    simp [kindOf, update_of_ne here]

section

variable (absent : s.access ino = none)

include absent

theorem layout_setFile (file : FileMeta) :
    (s.setFile ino file).layout = s.layout.setKind ino (some file.kind) :=
  layout_setKind rfl (by simp [kindOf, absent]) fun other here => by
    simp [kindOf, update_of_ne here]

theorem kind_of_file (stored : s.files ino = some file) : s.layout.kind ino = some file.kind := by
  simp [layout, kindOf, absent, stored]

theorem layout_setFile_same (stored : s.files ino = some file) (same : file'.kind = file.kind) :
    (s.setFile ino file').layout = s.layout := by
  rw [layout_setFile absent, same]
  simp [Layout.setKind, ← kind_of_file absent stored]

end

/-- Directory rows and file rows are apart, inode numbers come from the counter, and directory rows
keep the link count they were created with. -/
structure Tabled (s : Namespace) : Prop where
  apart : ∀ {ino file}, s.files ino = some file → s.access ino = none ∧ file.kind ≠ .dir
  unused : ∀ ino, s.counter ≤ ino → s.access ino = none ∧ s.files ino = none
  positive : s.access 0 = none ∧ 0 < s.counter
  nlink : ∀ {ino row}, s.access ino = some row → row.nlink = 2

end Namespace

open Namespace Option

theorem Retimed.access_isSome (retimed : Retimed s s') (ino : Ino) :
    (s'.access ino).isSome = (s.access ino).isSome := by
  have same := congrArg isSome (retimed.access ino)
  rwa [isSome_map, isSome_map] at same

theorem Retimed.access_none (retimed : Retimed s s') (ino : Ino) :
    s'.access ino = none ↔ s.access ino = none := by
  rw [← isNone_iff_eq_none, ← isNone_iff_eq_none, ← not_isSome,
    ← not_isSome, retimed.access_isSome]

theorem Retimed.layout (retimed : Retimed s s') : s'.layout = s.layout := by
  have kinds : s'.kindOf = s.kindOf := by
    funext ino
    by_cases stored : (s.access ino).isSome = true
    · rw [kindOf_directory stored, kindOf_directory (by rw [retimed.access_isSome, stored])]
    · have absent := not_isSome_iff_eq_none.mp stored
      rw [kindOf_file absent, kindOf_file ((retimed.access_none ino).mpr absent), retimed.files]
  have entries : s'.find = s.find := by
    unfold find
    rw [retimed.contents]
  unfold Namespace.layout
  rw [kinds, entries]

namespace Namespace.Tabled

theorem retimed (tabled : s.Tabled) (change : Retimed s s') : s'.Tabled where
  apart stored := by
    rw [change.files] at stored
    rw [change.access_none]
    exact tabled.apart stored
  unused ino above := by
    rw [change.counter] at above
    rw [change.access_none, change.files]
    exact tabled.unused ino above
  positive := by
    rw [change.access_none, change.counter]
    exact tabled.positive
  nlink {ino _} stored := by
    have fixed := change.access ino
    rw [stored] at fixed
    obtain ⟨row', stored', same⟩ := map_eq_some_iff.mp fixed.symm
    have nlink := congrArg Prod.snd same
    rw [← tabled.nlink stored']
    exact nlink.symm

theorem congr (tabled : s.Tabled) (access : s'.access = s.access) (files : s'.files = s.files)
    (counter : s'.counter = s.counter) : s'.Tabled :=
  ⟨by rw [access, files]; exact tabled.apart, by rw [access, files, counter]; exact tabled.unused,
    by rw [access, counter]; exact tabled.positive, by rw [access]; exact tabled.nlink⟩

variable {ino : Ino} {file : FileMeta}

section

variable (tabled : s.Tabled)

include tabled

theorem setFile (absent : s.access ino = none) (below : ino < s.counter)
    (kind : file.kind ≠ .dir) : (s.setFile ino file).Tabled where
  apart stored := by
    rcases Slots.mem_put stored with ⟨rfl, rfl⟩ | ⟨_, old⟩
    · exact ⟨absent, kind⟩
    · exact tabled.apart old
  unused other above := by
    rw [setFile_files, update_of_ne (below.trans_le above).ne']
    exact tabled.unused other above
  positive := tabled.positive
  nlink := tabled.nlink

theorem below (stored : s.files ino = some file) : ino < s.counter := by
  by_contra above
  rw [(tabled.unused ino (not_lt.mp above)).2] at stored
  cases stored

theorem rewrite (stored : s.files ino = some file) (same : file'.kind = file.kind) :
    (s.setFile ino file').Tabled :=
  tabled.setFile (tabled.apart stored).1 (tabled.below stored)
    (same ▸ (tabled.apart stored).2)

theorem setAccess {row : AccessMeta} (absent : s.files ino = none) (below : ino < s.counter)
    (nonzero : ino ≠ 0) (nlink : row.nlink = 2) : (s.setAccess ino row).Tabled where
  apart stored := by
    rw [setAccess_access, update_of_ne]
    · exact tabled.apart stored
    rintro rfl
    rw [setAccess_files, absent] at stored
    cases stored
  unused other above := by
    rw [setAccess_access, update_of_ne (below.trans_le above).ne']
    exact tabled.unused other above
  positive := by
    rw [setAccess_access, update_of_ne nonzero.symm]
    exact tabled.positive
  nlink stored := by
    rcases Slots.mem_put stored with ⟨_, rfl⟩ | ⟨_, old⟩
    · exact nlink
    · exact tabled.nlink old

theorem deleteAccess (ino : Ino) : (s.deleteAccess ino).Tabled := by
  have gone : ∀ other, s.access other = none → (s.deleteAccess ino).access other = none := by
    intro other absent
    rw [deleteAccess_access, update_apply, absent, ite_self]
  constructor
  case apart =>
    intro other file stored
    obtain ⟨absent, kind⟩ := tabled.apart stored
    exact ⟨gone other absent, kind⟩
  case unused =>
    intro other above
    obtain ⟨absent, files⟩ := tabled.unused other above
    exact ⟨gone other absent, files⟩
  case positive => exact ⟨gone 0 tabled.positive.1, tabled.positive.2⟩
  case nlink => exact fun stored => tabled.nlink (Slots.mem_free stored).2

end

end Namespace.Tabled

/-! ### Transactions take steps -/

/-- The tables stay in order and the layout takes steps. -/
structure Advances (allowed : FileType → EntryType → Prop) (s s' : Namespace) : Prop where
  tabled : s'.Tabled
  steps : ReflTransGen (Layout.Step allowed) s.layout s'.layout

theorem Advances.refl (tabled : s.Tabled) : Advances allowed s s := ⟨tabled, .refl⟩

variable {s₁ : Namespace}

theorem Advances.trans {s₂ s₃ : Namespace} (first : Advances allowed s₁ s₂)
    (second : Advances allowed s₂ s₃) : Advances allowed s₁ s₃ :=
  ⟨second.tabled, first.steps.trans second.steps⟩

section

variable (advances : Advances allowed s s₁)

include advances

theorem Advances.retimed (change : Retimed s₁ s') : Advances allowed s s' :=
  ⟨advances.tabled.retimed change, by rw [change.layout]; exact advances.steps⟩

theorem Advances.setLinkParents (ino : Ino)
    (rows : Finset Place) : Advances allowed s (s₁.setLinkParents ino rows) :=
  ⟨advances.tabled.congr rfl rfl rfl, advances.steps⟩

theorem Advances.setTrash (ino : Ino)
    (path : Option (List String)) : Advances allowed s (s₁.setTrash ino path) :=
  ⟨advances.tabled.congr rfl rfl rfl, advances.steps⟩

end

variable {ino inode : Ino}

theorem Advances.rewrite (advances : Advances allowed s s₁) (stored : s₁.files ino = some file)
    (same : file'.kind = file.kind) : Advances allowed s (s₁.setFile ino file') := by
  refine ⟨advances.tabled.rewrite stored same, ?_⟩
  rw [layout_setFile_same (advances.tabled.apart stored).1 stored same]
  exact advances.steps

variable {place : Place} {entry : Entry}

theorem Advances.put (advances : Advances allowed s s₁)
    (taken : Layout.Step allowed s₁.layout (s₁.layout.put place entry)) :
    Advances allowed s (s₁.setEntry place entry) := by
  refine ⟨advances.tabled.congr rfl rfl rfl, ?_⟩
  rw [layout_setEntry]
  exact advances.steps.tail taken

theorem layout_sound_of_steps {l l' : Layout} (sound : l.Sound)
    (steps : ReflTransGen (Layout.Step allowed) l l') : l'.Sound := by
  induction steps with
  | refl => exact sound
  | tail _ taken ih => exact ih.step taken

variable {now : Int} (tabled : s.Tabled)

section

include tabled

theorem NodeCreated.advances (created : NodeCreated s inode place s')
    (absent : s.access inode = none) (below : inode < s.counter) : Advances allowed s s' := by
  obtain ⟨parent, free, unused, file, type, kind, plain, _, _, _, retimed⟩ := created
  have nondirectory : file.kind ≠ .dir := by
    rw [kind]
    intro directory
    exact plain ((EntryType.toFileType_isDir type).mp (by rw [directory]; rfl))
  refine Advances.retimed ⟨?_, ?_⟩ retimed
  · exact (tabled.setFile absent below nondirectory).congr rfl rfl rfl
  rw [layout_setEntry, layout_setFile absent, kind]
  apply ReflTransGen.single
  exact .create (kindOf_directory parent) free
    (by simp [Namespace.layout, kindOf, absent, unused])

theorem createDirectory_advances {reply : Ino}
    (ok : createDirectory s inode place now = .ok (reply, s')) (absent : s.files inode = none)
    (below : inode < s.counter) (nonzero : inode ≠ 0) : Advances allowed s s' := by
  obtain ⟨parent, free, unused, row, nlink, retimed⟩ := createDirectory_ok ok
  refine Advances.retimed ⟨?_, ?_⟩ retimed
  · exact (tabled.setAccess absent below nonzero nlink).congr rfl rfl rfl
  rw [layout_setEntry, layout_setAccess]
  have new : s.layout.kind inode = none := by
    simp [Namespace.layout, kindOf, absent, unused]
  have taken : Layout.Step allowed s.layout ((s.layout.setKind inode
      (some EntryType.directory.toFileType)).put place ⟨inode, .directory⟩) :=
    .create (kindOf_directory parent) free new
  exact .single taken

/-- A file gets one more name. -/
theorem entered_advances {type : EntryType} (parent : (s.access place.1).isSome = true)
    (free : s.find place = none) (stored : s.files ino = some file) (plain : type ≠ .directory)
    (fits : allowed file.kind type) : Advances allowed s (s.setEntry place ⟨ino, type⟩) := by
  obtain ⟨absent, kind⟩ := tabled.apart stored
  exact (Advances.refl tabled).put
    (.link (kindOf_directory parent) free (kind_of_file absent stored) kind plain fits)

theorem link_advances (ok : link s ino place now = .ok ((), s'))
    (fits : ∀ file, s.files ino = some file → file.symlinkTarget = none → allowed file.kind .file) :
    Advances allowed s s' := by
  obtain ⟨parent, free, file, rows, stored, plain, _, _, retimed⟩ := link_ok ok
  have linked := entered_advances tabled parent free stored (by decide) (fits file stored plain)
  exact ((linked.setLinkParents ino rows).rewrite stored
    (rfl : (file.addLink now).kind = _)).retimed retimed

theorem restoreDeletedFile_advances (ok : restoreDeletedFile s ino place now = .ok ((), s'))
    (fits : ∀ file, s.files ino = some file →
      allowed file.kind (if file.symlinkTarget.isSome then .symlink else .file)) :
    Advances allowed s s' := by
  obtain ⟨parent, free, file, stored, _, _, retimed⟩ := restoreDeletedFile_ok ok
  have linked := entered_advances tabled parent free stored (by split <;> decide)
    (fits file stored)
  exact ((linked.rewrite stored (rfl : (file.restored place now).kind = _)).setTrash ino
    none).retimed retimed

theorem EntryDropped.layout (dropped : EntryDropped s place entry s') :
    s'.layout = s.layout.drop place := by
  obtain ⟨_, _, file, file', rows, path, remaining, stored, _, change, rfl⟩ := dropped
  have kept : s.access entry.inode = none := (tabled.apart stored).1
  rw [← layout_deleteEntry]
  exact layout_setFile_same (s := ((s.deleteEntry place).setTrash entry.inode path).setLinkParents
    entry.inode rows) kept stored change.kind

theorem EntryDropped.advances (dropped : EntryDropped s place entry s') :
    Advances allowed s s' := by
  constructor
  · obtain ⟨_, _, file, file', rows, path, remaining, stored, _, change, rfl⟩ := dropped
    have kept : ((s.deleteEntry place).setTrash entry.inode path).Tabled := tabled.congr rfl rfl rfl
    exact (kept.rewrite stored change.kind).congr rfl rfl rfl
  · rw [dropped.layout tabled]
    exact .single (.unlink dropped.found dropped.plain)

theorem Namespace.Tabled.directory_no_file (sound : s.layout.Sound)
    (found : s.find place = some entry) (directory : entry.entryType = .directory) :
    s.files entry.inode = none := by
  by_contra present
  obtain ⟨file, stored⟩ := ne_none_iff_exists'.mp present
  obtain ⟨access, kind⟩ := tabled.apart stored
  have kindDir := (sound.consistent.fits found).entryType_of_kind.mp directory
  rw [kind_of_file access stored, Option.some.injEq] at kindDir
  exact kind kindDir

theorem DirectoryDropped.layout (dropped : DirectoryDropped s place entry s')
    (sound : s.layout.Sound) : s'.layout = (s.layout.drop place).setKind entry.inode none := by
  obtain ⟨found, directory, _, rfl⟩ := dropped
  rw [layout_deleteEntry]
  exact congrArg (·.drop place)
    (layout_deleteAccess (tabled.directory_no_file sound found directory))

theorem DirectoryDropped.advances (dropped : DirectoryDropped s place entry s')
    (sound : s.layout.Sound) : Advances allowed s s' := by
  constructor
  · rw [dropped.written]
    exact (tabled.deleteAccess entry.inode).congr rfl rfl rfl
  rw [dropped.layout tabled sound]
  exact .single (.rmdir dropped.found dropped.directory
    ((s.childCount_eq_zero _).mp dropped.empty))

end

/-! ### Ancestry checks -/

/-- A move that passes the ancestry check lands outside the moved directory. -/
theorem validateDirectoryMove_clear {ancestor : Ino} :
    ∀ (depth : Nat) (visited : List Ino) (parent : Ino),
      validateDirectoryMove s ancestor depth visited parent = .ok () →
      Clear s.layout.Up rootIno (fun ino => ino = ancestor) parent := by
  intro depth
  induction depth with
  | zero =>
    intro visited parent ok
    unfold validateDirectoryMove at ok
    split at ok
    · cases ok
    split at ok
    · rename_i top
      exact top ▸ .refl
    · cases ok
  | succ depth ih =>
    intro visited parent ok
    unfold validateDirectoryMove at ok
    split at ok
    · cases ok
    rename_i other
    split at ok
    · rename_i top
      exact top ▸ .refl
    simp only at ok
    split at ok
    · cases ok
    split at ok
    · rename_i row only
      split at ok
      · cases ok
      rename_i regular
      rw [not_or, Bool.not_eq_false, EntryType.toFileType_isDir] at regular
      have listed : row ∈ s.rowsNaming parent := by rw [only]; exact List.mem_singleton_self _
      obtain ⟨found, names⟩ := (s.mem_rowsNaming parent row).mp listed
      have edge : s.layout.Up parent row.1.1 :=
        names ▸ Layout.up_of_entry found regular.1
      exact .head ⟨edge, other⟩ (ih _ _ ok)
    · cases ok

theorem validateMove_clear {parent : Ino} (valid : validateMove s entry parent = .ok ())
    (directory : entry.entryType = .directory) :
    Clear s.layout.Up rootIno (fun ino => ino = entry.inode) parent := by
  unfold validateMove at valid
  rw [if_pos ((EntryType.toFileType_isDir _).mpr directory)] at valid
  exact validateDirectoryMove_clear _ _ _ valid

/-! ### Rename -/

variable {file : Option FileMeta} {nlink : Int} {source target : Place}

theorem Relinked.advances (relinked : Relinked s₁ ino file nlink source target s')
    (read : file = s₁.files ino) (advances : Advances allowed s s₁) : Advances allowed s s' := by
  cases relinked with
  | rows _ => exact advances.setLinkParents ino _
  | inline _ stored kind _ _ _ => exact advances.rewrite (read ▸ stored) kind
  | none _ _ => exact advances

theorem RelinkedExchanged.advances (relinked : RelinkedExchanged s₁ ino file source target s')
    (read : ∀ row, file = some row → s₁.files ino = some row) (advances : Advances allowed s s₁) :
    Advances allowed s s' := by
  cases relinked with
  | directory _ => exact advances
  | rows _ _ => exact advances.setLinkParents ino _
  | inline stored _ kind _ _ _ => exact advances.rewrite (read _ stored) kind

theorem exchangedFile_stored (ok : exchangedFile s entry = .ok file) (row : FileMeta)
    (read : file = some row) : s.files entry.inode = some row := by
  obtain ⟨_, without⟩ | ⟨_, row', stored, same⟩ := exchangedFile_ok ok
  · rw [without] at read
    cases read
  · rw [same] at read
    rw [stored, read]

theorem clear_drop {l : Layout} {blocked : Ino → Prop} (found : l.entries place = some entry)
    (empty : ∀ below : Place, below.1 = entry.inode → l.entries below = none)
    (clear : Clear l.Up rootIno blocked place.1) :
    Clear (l.drop place).Up rootIno blocked place.1 := by
  refine Clear.prune (fun a => a = entry.inode) ?_ ?_ ?_ clear
  · rintro a b ⟨name, child⟩ rfl
    rw [empty _ rfl] at child
    cases child
  · intro a b edge present
    exact Layout.up_drop found edge fun lost => present lost.1
  · intro here
    rw [empty place here] at found
    cases found

section

include tabled

theorem moveEntry_advances (ok : moveEntry s entry file nlink source target now = .ok s')
    (found : s.find source = some entry) (free : s.find target = none)
    (parent : s.layout.kind target.1 = some .dir) (read : file = s.files entry.inode)
    (clear : entry.entryType = .directory →
      Clear s.layout.Up rootIno (fun ino => ino = entry.inode) target.1) :
    Advances allowed s s' := by
  obtain ⟨_, s₁, relinked, retimed⟩ := moveEntry_ok ok
  have moved : Advances allowed s ((s.deleteEntry source).setEntry target entry) := by
    refine ⟨tabled.congr rfl rfl rfl, ?_⟩
    rw [layout_setEntry, layout_deleteEntry]
    exact .single (.move found free parent clear)
  exact (relinked.advances read moved).retimed retimed

theorem Renamed.advances (renamed : Renamed s source target entry nlink s')
    (sound : s.layout.Sound) (found : s.find source = some entry)
    (parent : (s.access target.1).isSome = true) (valid : validateMove s entry target.1 = .ok ()) :
    Advances allowed s s' := by
  cases renamed with
  | same => exact .refl tabled
  | moved free ok =>
    exact moveEntry_advances tabled ok found free (kindOf_directory parent) rfl
      (validateMove_clear valid)
  | @replaced existing s₁ _ _ there other cleared ok =>
    have elsewhere : source ≠ target := by
      rintro rfl
      rw [there] at found
      exact other (congrArg Entry.inode (Option.some.inj found))
    have kept : (s.layout.drop target).entries source = some entry := by
      rw [Layout.drop_entries, update_of_ne elsewhere]
      exact found
    have freed : (s.layout.drop target).entries target = none := by
      rw [Layout.drop_entries, update_self]
    obtain ⟨directory, dropped⟩ | ⟨plain, dropped⟩ := replaceTarget_ok there cleared
    · have first : Advances allowed s s₁ := dropped.advances tabled sound
      have layout := dropped.layout tabled sound
      have empty := (s.childCount_eq_zero existing.inode).mp dropped.empty
      have apart : target.1 ≠ existing.inode := by
        intro here
        rw [empty target here] at there
        cases there
      refine first.trans (moveEntry_advances first.tabled ok ?_ ?_ ?_ ?_ ?_)
      · exact (congrFun (congrArg Layout.entries layout) source).trans kept
      · exact (congrFun (congrArg Layout.entries layout) target).trans freed
      · rw [layout, Layout.setKind_kind, update_of_ne apart]
        exact kindOf_directory parent
      · rw [dropped.written]
        rfl
      · rw [layout]
        exact fun _ => clear_drop there empty (validateMove_clear valid directory)
    · have first : Advances allowed s s₁ := dropped.advances tabled
      have layout := dropped.layout tabled
      refine first.trans (moveEntry_advances first.tabled ok ?_ ?_ ?_ ?_ ?_)
      · exact (congrFun (congrArg Layout.entries layout) source).trans kept
      · exact (congrFun (congrArg Layout.entries layout) target).trans freed
      · rw [layout]
        exact kindOf_directory parent
      · obtain ⟨_, _, file, file', rows, path, remaining, _, _, _, rfl⟩ := dropped
        rw [setFile_files, update_of_ne other.symm]
        rfl
      · exact fun directory => absurd directory plain

theorem renameExchange_advances (ok : renameExchange s source target now = .ok ((), s'))
    : Advances allowed s s' := by
  obtain rfl | ⟨old, new, exchanged⟩ := renameExchange_ok ok
  · exact .refl tabled
  obtain ⟨oldFound, newFound, distinct, oldValid, newValid, oldFile, newFile, s₁, s₂, oldRead,
    newRead, relink₁, relink₂, retimed⟩ := exchanged
  have swapped : Advances allowed s
      ((((s.deleteEntry source).deleteEntry target).setEntry source new).setEntry target old) := by
    refine ⟨tabled.congr rfl rfl rfl, ?_⟩
    rw [layout_setEntry, layout_setEntry, layout_deleteEntry, layout_deleteEntry]
    exact .single (.exchange oldFound newFound distinct (validateMove_clear oldValid)
      (validateMove_clear newValid))
  have first := relink₁.advances (exchangedFile_stored oldRead) swapped
  refine (relink₂.advances ?_ first).retimed retimed
  intro row read
  have stored := exchangedFile_stored newRead row read
  cases relink₁ with
  | directory _ | rows _ _ => exact stored
  | inline _ _ _ _ _ _ => rwa [setFile_files, update_of_ne distinct.symm]

theorem rmdir_advances (ok : rmdir s place now = .ok ((), s'))
    (sound : s.layout.Sound) : Advances allowed s s' := by
  obtain ⟨entry, found, directory, empty, retimed⟩ := rmdir_ok ok
  have dropped : DirectoryDropped s place entry _ := ⟨found, directory, empty, rfl⟩
  exact (dropped.advances tabled sound).retimed retimed

end

/-! ### Runs -/

/-- The types that link and restore record suit `allowed`. -/
def Fitting (allowed : FileType → EntryType → Prop) (s : Namespace) : Operation → Prop
  | .link ino _ _ => ∀ file, s.files ino = some file → file.symlinkTarget = none →
    allowed file.kind .file
  | .restoreDeletedFile ino _ _ => ∀ file, s.files ino = some file →
    allowed file.kind (if file.symlinkTarget.isSome then .symlink else .file)
  | _ => True

section

include tabled

theorem settle_advances {α : Type} {transaction : Txn (α × Namespace)}
    (keeps : ∀ reply s', transaction = .ok (reply, s') → Advances allowed s s') :
    Advances allowed s (settle s transaction) := by
  unfold settle
  split
  · exact keeps _ _ rfl
  · exact .refl tabled

/-- A creation runs on the tables after the allocation, with a number no row has. -/
theorem allocating_advances {create : Namespace → Ino → Txn (Ino × Namespace)}
    (keeps : ∀ s₁ s' inode reply, create s₁ inode = .ok (reply, s') → s₁.Tabled →
      s₁.access inode = none → s₁.files inode = none → inode < s₁.counter → inode ≠ 0 →
      Advances allowed s₁ s') :
    Advances allowed s (allocating s create) := by
  unfold allocating
  split
  · rename_i inode s₁ allocated
    simp only [allocInode, Guard.bind_eq_ok, Guard.check_eq_ok, exists_const] at allocated
    obtain ⟨_, rfl, rfl⟩ := allocated
    obtain ⟨absent, unused⟩ := tabled.unused s.counter le_rfl
    have spent : (s.setCounter (s.counter + 1)).Tabled :=
      { apart := tabled.apart
        unused := fun ino above => tabled.unused ino (Nat.le_of_succ_le above)
        positive := ⟨tabled.positive.1, Nat.succ_pos _⟩
        nlink := tabled.nlink }
    have advanced : Advances allowed s (s.setCounter (s.counter + 1)) := ⟨spent, .refl⟩
    refine advanced.trans (settle_advances spent fun reply s' ok => ?_)
    exact keeps _ _ _ _ ok spent absent unused (Nat.lt_succ_self _) tabled.positive.2.ne'
  · exact .refl tabled

theorem perform_advances (sound : s.layout.Sound) (operation : Operation)
    (fitting : Fitting allowed s operation) : Advances allowed s (perform s operation) := by
  cases operation with
  | createFile place now =>
    refine allocating_advances tabled fun s₁ s' inode reply ok tabled₁ absent _ below _ => ?_
    exact (createFile_ok ok).advances tabled₁ absent below
  | createNode place request now =>
    simp only [perform]
    split
    · exact .refl tabled
    rename_i supported
    rw [Bool.or_eq_true, not_or] at supported
    refine allocating_advances tabled fun s₁ s' inode reply ok tabled₁ absent _ below _ => ?_
    exact (createNode_ok (Bool.eq_false_iff.mpr supported.1) ok).advances tabled₁ absent below
  | symlink place target now =>
    refine allocating_advances tabled fun s₁ s' inode reply ok tabled₁ absent _ below _ => ?_
    exact (createSymlink_ok ok).advances tabled₁ absent below
  | mkdir place now =>
    refine allocating_advances tabled fun s₁ s' inode reply ok tabled₁ _ unused below nonzero => ?_
    exact createDirectory_advances tabled₁ ok unused below nonzero
  | rmdir place now => exact settle_advances tabled fun _ _ ok => rmdir_advances tabled ok sound
  | link ino place now =>
    exact settle_advances tabled fun _ _ ok => link_advances tabled ok fitting
  | unlink place now =>
    refine settle_advances tabled fun _ _ ok => ?_
    obtain ⟨entry, s₁, dropped, retimed⟩ := unlink_ok ok
    exact (dropped.advances tabled).retimed retimed
  | rename source target noreplace now =>
    refine settle_advances tabled fun _ _ ok => ?_
    obtain ⟨parent, entry, nlink, found, valid, _, renamed⟩ := renameWithMode_ok ok
    exact renamed.advances tabled sound found parent valid
  | renameExchange source target now =>
    exact settle_advances tabled fun _ _ ok => renameExchange_advances tabled ok
  | restoreDeletedFile ino place now =>
    exact settle_advances tabled fun _ _ ok => restoreDeletedFile_advances tabled ok fitting

end

end BrewFs.Meta.Database
