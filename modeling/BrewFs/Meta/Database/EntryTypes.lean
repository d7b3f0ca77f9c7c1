import BrewFs.Meta.Database.Paths

/-! The type recorded in a directory entry and the kind of the inode it names. -/

namespace BrewFs.Meta.Database

open Function (update_self update_of_ne)
open Relation (ReflTransGen)
open Namespace

/-- The recorded type is the kind. -/
def Exact (kind : FileType) (type : EntryType) : Prop := kind = type.toFileType

namespace Layout

variable {l l' : Layout}

/-- Every entry records the kind of its inode. -/
def Typed (l : Layout) : Prop :=
  ∀ place entry, l.entries place = some entry → l.kind entry.inode = some entry.entryType.toFileType

section

variable (typed : l.Typed)

include typed

theorem Typed.drop (place : Place) : (l.drop place).Typed :=
  fun place' entry found => typed place' entry (entries_drop found).2

theorem Typed.put {place : Place} {entry : Entry}
    (exact : l.kind entry.inode = some entry.entryType.toFileType) : (l.put place entry).Typed := by
  intro place' entry' found
  obtain ⟨_, rfl⟩ | found := entries_put found
  · exact exact
  · exact typed place' entry' found

theorem Typed.setKind {ino : Ino} {kind : Option FileType}
    (apart : ∀ place entry, l.entries place = some entry → entry.inode ≠ ino) :
    (l.setKind ino kind).Typed := by
  intro place entry found
  rw [setKind_kind, update_of_ne (apart place entry found)]
  exact typed place entry found

theorem Typed.step (sound : l.Sound) (taken : Step Exact l l') : l'.Typed := by
  cases taken with
  | create parent free unused =>
    apply Typed.put
    · apply typed.setKind
      rintro place' entry found rfl
      obtain ⟨kind, stored, _⟩ := (sound.consistent.fits found).stored
      rw [unused] at stored
      cases stored
    · exact update_self ..
  | link parent free stored file plain fits => exact typed.put (stored.trans (congrArg some fits))
  | unlink found plain => exact typed.drop _
  | rmdir found directory empty =>
    apply (typed.drop _).setKind
    intro place' entry' found' same
    obtain ⟨elsewhere, found'⟩ := entries_drop found'
    exact elsewhere (sound.consistent.unique found found' directory same)
  | move found free parent clear => exact (typed.drop _).put (typed _ _ found)
  | exchange oldFound newFound distinct oldClear newClear =>
    exact (((typed.drop _).drop _).put (typed _ _ newFound)).put (typed _ _ oldFound)

theorem Typed.steps (sound : l.Sound) (taken : ReflTransGen (Step Exact) l l') : l'.Typed := by
  induction taken with
  | refl => exact typed
  | tail earlier last ih => exact ih.step (layout_sound_of_steps sound earlier) last

end

end Layout

/-- The inode an operation gives one more entry. -/
def Operation.relinked : Operation → Option Ino
  | .link ino _ _ => some ino
  | .restoreDeletedFile ino _ _ => some ino
  | _ => none

/-- Link and restore name a regular file or a symbolic link only. -/
def NoSpecialNode (s : Namespace) (operation : Operation) : Prop :=
  ∀ ino ∈ operation.relinked, ∀ file ∈ s.files ino,
    file.kind = .file ∨ file.symlinkTarget.isSome = true

instance (s : Namespace) (operation : Operation) : Decidable (NoSpecialNode s operation) :=
  inferInstanceAs (Decidable (∀ ino ∈ operation.relinked, ∀ file ∈ s.files ino, _))

theorem fitting_exact {s : Namespace} {operation : Operation}
    (regular : NoSpecialNode s operation) : Fitting Exact s operation := by
  cases operation with
  | link ino place now =>
    intro file stored plain
    obtain isFile | symlink := regular ino rfl file stored
    · exact isFile
    · rw [plain] at symlink
      cases symlink
  | restoreDeletedFile ino place now =>
    intro file stored
    by_cases symlink : file.symlinkTarget.isSome = true
    · rw [if_pos symlink, FileMeta.kind, if_pos symlink]
      rfl
    · rw [if_neg symlink, (regular ino rfl file stored).resolve_right symlink]
      rfl
  | _ => trivial

/-- While link and restore get no special nodes, every entry records the kind of its inode. -/
theorem entry_types_match {now : Int} {operations : List Operation} {final : Namespace}
    (regular : Run.Along operate NoSpecialNode (initialNamespace now) operations)
    (run : Run.exec operate (initialNamespace now) operations = some final) :
    ∀ place entry, final.find place = some entry →
      final.kindOf entry.inode = some entry.entryType.toFileType := by
  have kept : final.Tabled ∧ final.layout.Sound ∧ final.layout.Typed := by
    apply Run.invariant_along ?_ ?_ regular run
    · rintro s operation next ⟨tabled, sound, typed⟩ plain taken
      obtain rfl := Option.some.inj taken
      have advances := perform_advances tabled sound operation (fitting_exact plain)
      exact ⟨advances.tabled, layout_sound_of_steps sound advances.steps,
        typed.steps sound advances.steps⟩
    · exact ⟨initialNamespace_tabled now, initialNamespace_sound now, nofun⟩
  exact kept.2.2

def fifo : NodeRequest := ⟨.fifo, 0o644, 0, 0, 0⟩

/-- A FIFO is moved, and a regular file gets a second name. -/
def fifoMoved : List Operation :=
  [.createNode (1, "p") fifo 0, .createFile (1, "f") 0, .link 3 (1, "g") 0,
    .rename (1, "p") (1, "q") false 0]

theorem entry_types_match_moved : ∃ final,
    Run.exec operate (initialNamespace 0) fifoMoved = some final ∧
    final.find (1, "q") = some ⟨2, .fifo⟩ ∧
    ∀ place entry, final.find place = some entry →
      final.kindOf entry.inode = some entry.entryType.toFileType :=
  have run : Run.exec operate (initialNamespace 0) fifoMoved = some _ := rfl
  ⟨_, run, rfl, entry_types_match (by decide) run⟩

/-- A FIFO's second name, and a FIFO back from the trash, are recorded as regular files. -/
theorem special_node_recorded_as_file : (∃ final, Run.exec operate (initialNamespace 0)
        [.createNode (1, "p") fifo 0, .link 2 (1, "q") 0] = some final ∧
      final.find (1, "q") = some ⟨2, .file⟩ ∧ final.kindOf 2 = some .fifo) ∧
    (∃ final, Run.exec operate (initialNamespace 0)
        [.createNode (1, "p") fifo 0, .unlink (1, "p") 0, .restoreDeletedFile 2 (1, "p") 0] =
          some final ∧
      final.find (1, "p") = some ⟨2, .file⟩ ∧ final.kindOf 2 = some .fifo) :=
  ⟨⟨_, rfl, rfl, rfl⟩, ⟨_, rfl, rfl, rfl⟩⟩

end BrewFs.Meta.Database
