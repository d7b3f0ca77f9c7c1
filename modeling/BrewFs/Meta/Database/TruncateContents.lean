import BrewFs.Library.Slots
import BrewFs.Meta.Database.TruncateFrame

/- What a file shows after a truncate, and after it has grown again. -/
namespace BrewFs.Meta.Database

open BrewFs.Run BrewFs.Chunk BrewFs.Chunk.Compact
open Option (bind_eq_some_iff map_eq_some_iff)
open Function (update update_of_ne update_self)

variable (layout : ChunkLayout)

/-- File offset of a byte of a chunk. -/
def fileOffset (chunkId p : Nat) : Nat :=
  (extractInoAndChunkIndex chunkId).2 * layout.chunkSize + p

/-- The visible byte at a file offset. -/
def fileByte (s : State) (ino : Int) (p : Nat) : Option UInt8 :=
  s.byteAt layout (firstChunk ino + p / layout.chunkSize) (p % layout.chunkSize)

/-- No slice of the inode maps a byte at or above `limit`. -/
def EndsBy (ino : Int) (limit : Nat) (rows : List SliceDesc) : Prop :=
  ∀ row ∈ rows, rowInode row.chunkId = ino → ∀ p, row.Covers p →
    fileOffset layout row.chunkId p < limit

section

variable {layout : ChunkLayout} {s next : State} {ino : Int} {db : Tables}

theorem extract_firstChunk {index : Nat} (signed : 0 ≤ ino) (small : index < chunkIdBase) :
    extractInoAndChunkIndex (firstChunk ino + index) = (ino, index) := by
  have inode := (rowInode_of_index signed).mpr small
  have rest : (firstChunk ino + index) % chunkIdBase = index := by
    rw [firstChunk, Nat.add_comm, Nat.add_mul_mod_self_right, Nat.mod_eq_of_lt small]
  exact Prod.ext inode rest

/-- A chunk id is made of its inode and its index. -/
theorem chunkId_eq (chunkId : Nat) :
    chunkId = firstChunk (rowInode chunkId) + (extractInoAndChunkIndex chunkId).2 ∧
      (extractInoAndChunkIndex chunkId).2 < chunkIdBase := by
  have pos : 0 < chunkIdBase := by decide
  refine ⟨?_, Nat.mod_lt _ pos⟩
  simp only [firstChunk, rowInode, extractInoAndChunkIndex, Int.toNat_natCast]
  rw [Nat.mul_comm, Nat.div_add_mod]

variable {limit p : Nat} {cuts : (Nat → Option Nat) × (Nat → Option Nat)} {row' : SliceDesc}

/-- A file whose slices end by `limit` reads as zero from there. -/
theorem EndsBy.zero (ends : EndsBy layout ino limit s.db.sliceMeta) (signed : 0 ≤ ino)
    (past : limit ≤ p) (small : p < chunkIdBase * layout.chunkSize) :
    fileByte layout s ino p = some 0 := by
  have index : p / layout.chunkSize < chunkIdBase := Nat.div_lt_of_lt_mul (by rwa [Nat.mul_comm])
  have extracted := extract_firstChunk signed index
  apply chunkByte_of_hole
  rw [owner_eq_none]
  intro slice mem covers
  rcases mem_getSlices.mp mem with ⟨row, inChunk⟩
  have below := ends slice row (by rw [inChunk, rowInode, extracted]) _ covers
  rw [fileOffset, inChunk, extracted, Nat.mul_comm, Nat.div_add_mod] at below
  omega

/-! ### What a client step does to the rows -/

/-- Every new row is part of an old one. -/
def Trimmed (rows rows' : List SliceDesc) : Prop :=
  ∀ row' ∈ rows', ∃ row ∈ rows, row'.chunkId = row.chunkId ∧ ∀ p, row'.Covers p → row.Covers p

/-- A cut row covers only what it covered, below the cutoff. -/
theorem mem_prune (fits : ∀ row ∈ db.sliceMeta, row.stop < 2 ^ 64) {cut : Nat → Option Nat}
    (mem : row' ∈ (pruneTables (cutAction cut) db).sliceMeta) :
    ∃ row ∈ db.sliceMeta, row'.chunkId = row.chunkId ∧ ∀ p, row'.Covers p →
      row.Covers p ∧ ∀ cutoff, cut row.chunkId = some cutoff → p < cutoff := by
  simp only [pruneTables, pruneRows_eq] at mem
  rcases List.mem_filterMap.mp mem with ⟨row, rowMem, kept⟩
  rw [trimRow_cutAction cut row (fits row rowMem), cutRow] at kept
  refine ⟨row, rowMem, ?_⟩
  cases found : cut row.chunkId with
  | none =>
    rw [found] at kept
    cases kept
    exact ⟨rfl, fun p covers => ⟨covers, (by simp)⟩⟩
  | some cutoff =>
    simp only [found] at kept
    split at kept
    · cases kept
    cases kept
    refine ⟨rfl, ?_⟩
    intro p covers
    simp only [SliceDesc.Covers, SliceDesc.stop] at covers ⊢
    refine ⟨by omega, ?_⟩
    intro other same
    cases same
    omega

theorem mem_applyCuts (inv : Inv layout s) (mem : row' ∈ (applyCuts cuts s.db).sliceMeta) :
    ∃ row ∈ s.db.sliceMeta, row'.chunkId = row.chunkId ∧ ∀ p, row'.Covers p → row.Covers p ∧
      (∀ cutoff, cuts.1 row.chunkId = some cutoff → p < cutoff) ∧
      ∀ cutoff, cuts.2 row.chunkId = some cutoff → p < cutoff := by
  rcases mem_prune (inv_prune inv cuts.1).tidy.fits mem with ⟨middle, middleMem, chunk, second⟩
  rcases mem_prune inv.tidy.fits middleMem with ⟨row, rowMem, chunk', first⟩
  refine ⟨row, rowMem, chunk.trans chunk', ?_⟩
  intro p covers
  have after := second p covers
  have before := first p after.1
  rw [chunk'] at after
  exact ⟨before.1, before.2, after.2⟩

variable {after : Tables} {size chunkSize : Nat}

theorem truncate_inversion (done : truncate db ino size chunkSize = some after) :
    ∃ current cuts, db.fileSize ino = some current ∧
      truncateCuts ino size (asU64 current) chunkSize = some cuts ∧
      after = applyCuts cuts
        { db with fileSize := update db.fileSize ino (some (asI64 size)) } := by
  rcases bind_eq_some_iff.mp done with ⟨current, found, pruned⟩
  rw [pruneSlicesForTruncate_eq] at pruned
  rcases map_eq_some_iff.mp pruned with ⟨cuts, made, same⟩
  exact ⟨current, cuts, found, made, same.symm⟩

theorem trimmed_truncate (inv : Inv layout s)
    (done : truncate s.db ino size chunkSize = some after) :
    Trimmed s.db.sliceMeta after.sliceMeta := by
  rcases truncate_inversion done with ⟨current, cuts, _, _, rfl⟩
  intro row' mem
  rcases mem_applyCuts (inv.sizes _) mem with ⟨row, rowMem, chunk, inside⟩
  exact ⟨row, rowMem, chunk, fun p covers => (inside p covers).1⟩

/-- The slice a client operation maps. -/
def newSlice : ClientAction → Option SliceDesc
  | .append chunkId sliceId offset data => some ⟨sliceId, chunkId, offset, data.length⟩
  | .write _ chunkId sliceId offset data _ => some ⟨sliceId, chunkId, offset, data.length⟩
  | _ => none

variable {action : ClientAction}

theorem clientStep_rows (inv : Inv layout s) (taken : clientStep layout s action = some next) :
    Trimmed s.db.sliceMeta next.db.sliceMeta ∨
      ∃ slice, newSlice action = some slice ∧ next.db.sliceMeta = s.db.sliceMeta ++ [slice] := by
  have same : Trimmed s.db.sliceMeta s.db.sliceMeta :=
    fun row mem => ⟨row, mem, rfl, fun _ => id⟩
  cases action with
  | create ino =>
    simp only [clientStep] at taken
    split at taken <;> cases taken
    · exact .inl same
    · exact .inl same
  | append chunkId sliceId offset data =>
    cases (Option.ite_none_right_eq_some.mp taken).2
    exact .inr ⟨_, rfl, rfl⟩
  | write ino chunkId sliceId offset data newSize =>
    obtain ⟨_, taken⟩ := Option.ite_none_right_eq_some.mp taken
    split at taken
    · cases taken
      exact .inl same
    next db written =>
      cases taken
      rcases map_eq_some_iff.mp written with ⟨fileSize, _, made⟩
      subst made
      exact .inr ⟨_, rfl, rfl⟩
  | truncate ino size chunkSize =>
    cases taken
    left
    cases done : Database.truncate s.db ino size chunkSize with
    | none => exact same
    | some after => exact trimmed_truncate inv done
  | extend ino size =>
    cases taken
    left
    cases done : extendFileSize s.db ino size with
    | none => exact same
    | some after =>
      rcases map_eq_some_iff.mp done with ⟨fileSize, _, made⟩
      subst made
      exact same

/-! ### No slice ends past the recorded size -/

/-- Sizes fit the column and one inode's chunk ids, and slices end by the recorded size. -/
structure Sized (layout : ChunkLayout) (s : State) : Prop where
  sizes : ∀ ino size, s.db.fileSize ino = some size →
    0 ≤ size ∧ size < 2 ^ 63 ∧ size ≤ (chunkIdBase * layout.chunkSize : Nat)
  ends : ∀ row ∈ s.db.sliceMeta, ∃ size, s.db.fileSize (rowInode row.chunkId) = some size ∧
    ∀ p, row.Covers p → (fileOffset layout row.chunkId p : Int) < size

/-- How the layers above call the store: the writer passes its slice's end as the new size,
`append_slice` stays inside the file, sizes stay below `i64::MAX` and within `CHUNK_ID_BASE` chunks,
and there is one chunk size. -/
def WriterSized (layout : ChunkLayout) (s : State) : ClientAction → Prop
  | .create _ => True
  | .append chunkId _ offset data => ∃ size ∈ s.db.fileSize (rowInode chunkId),
      (fileOffset layout chunkId (offset + data.length) : Int) ≤ size
  | .write ino chunkId _ offset data newSize => rowInode chunkId = ino ∧
      newSize = fileOffset layout chunkId (offset + data.length) ∧ newSize < 2 ^ 63
  | .truncate _ size chunkSize => chunkSize = layout.chunkSize ∧ size < 2 ^ 63 ∧
      size ≤ chunkIdBase * layout.chunkSize
  | .extend _ size => size < 2 ^ 63 ∧ size ≤ chunkIdBase * layout.chunkSize

instance (layout : ChunkLayout) (s : State) (action : ClientAction) :
    Decidable (WriterSized layout s action) := by
  cases action <;> unfold WriterSized <;> infer_instance

theorem asI64_of_lt {n : Nat} (fits : n < 2 ^ 63) : asI64 n = n := by
  rw [asI64, Nat.mod_eq_of_lt (by omega), if_pos fits]

theorem growFile_spec {fileSize grown : Int → Option Int}
    (done : growFile fileSize ino size = some grown) :
    ∃ current, fileSize ino = some current ∧ grown ino = some (max current (asI64 size)) ∧
      ∀ other, other ≠ ino → grown other = fileSize other := by
  rcases map_eq_some_iff.mp done with ⟨current, found, made⟩
  refine ⟨current, found, ?_⟩
  split at made
  · subst made
    rw [update_self, max_eq_right (by omega)]
    exact ⟨rfl, fun other different => update_of_ne different _ _⟩
  subst made
  rw [max_eq_left (by omega)]
  exact ⟨found, fun other _ => rfl⟩

/-- Growing one file, and mapping slices within its new size. -/
theorem Sized.grow (sized : Sized layout s) {grown : Int → Option Int}
    (done : growFile s.db.fileSize ino size = some grown) (fits : size < 2 ^ 63)
    (bound : size ≤ chunkIdBase * layout.chunkSize) (sizes : next.db.fileSize = grown)
    (rows : ∀ row ∈ next.db.sliceMeta, row ∈ s.db.sliceMeta ∨ rowInode row.chunkId = ino ∧
      ∀ p, row.Covers p → fileOffset layout row.chunkId p < size) : Sized layout next := by
  rcases growFile_spec done with ⟨current, found, mine, others⟩
  have small := sized.sizes ino current found
  rw [asI64_of_lt fits] at mine
  constructor
  · intro other result known
    rw [sizes] at known
    by_cases same : other = ino
    · rw [same, mine] at known
      cases known
      omega
    · rw [others other same] at known
      exact sized.sizes other result known
  · intro row mem
    rw [sizes]
    rcases rows row mem with old | ⟨owned, ends⟩
    · rcases sized.ends row old with ⟨result, known, inside⟩
      by_cases same : rowInode row.chunkId = ino
      · rw [same] at known ⊢
        rw [found] at known
        cases known
        refine ⟨_, mine, ?_⟩
        intro p covers
        have below := inside p covers
        omega
      · rw [others _ same]
        exact ⟨result, known, inside⟩
    · rw [owned]
      refine ⟨_, mine, ?_⟩
      intro p covers
      have below := ends p covers
      omega

section

variable (inv : Inv layout s)

include inv

theorem truncate_ends (sized : Sized layout s)
    (done : truncate s.db ino size layout.chunkSize = some after) :
    EndsBy layout ino size after.sliceMeta := by
  rcases truncate_inversion done with ⟨current, cuts, found, made, rfl⟩
  intro row' mem mine p covers
  rcases mem_applyCuts (inv.sizes _) mem with ⟨row, rowMem, chunk, inside⟩
  rw [chunk] at mine ⊢
  rcases inside p covers with ⟨before, trimmed, dropped⟩
  rcases sized.ends row rowMem with ⟨recorded, known, ends⟩
  rw [mine, found] at known
  cases known
  have bounds := sized.sizes ino current found
  have below := ends p before
  have width : (asU64 current : Int) = current := by
    rw [asU64, Int.emod_eq_of_lt bounds.1 (by omega), Int.toNat_of_nonneg bounds.1]
  by_cases grows : asU64 current ≤ size
  · omega
  have stop : p < layout.chunkSize := before.2.trans_le (inv.tidy.bounded row rowMem)
  have pos := Nat.zero_lt_of_lt stop
  rcases truncateCuts_eq (by omega) pos made with ⟨signed, rfl⟩
  rcases chunkId_eq row.chunkId with ⟨whole, small⟩
  rw [mine] at whole
  rw [fileOffset] at below ⊢
  generalize (extractInoAndChunkIndex row.chunkId).2 = index at *
  have split := Nat.div_add_mod size layout.chunkSize
  rw [Nat.mul_comm] at split
  -- chunks before the cutoff chunk end before the new size; the others are cut
  by_cases early : index < size / layout.chunkSize
  · have scaled := Nat.mul_le_mul_right layout.chunkSize (Nat.succ_le_of_lt early)
    rw [Nat.succ_mul] at scaled
    omega
  have count : index < chunkCount (asU64 current) layout.chunkSize := by
    rw [lt_chunkCount pos]
    omega
  by_cases here : 0 < size % layout.chunkSize ∧ index = size / layout.chunkSize
  · have cut := trimmed (size % layout.chunkSize) (if_pos ⟨here.1, by rw [whole, here.2]⟩)
    rw [here.2]
    omega
  have start : dropStart size layout.chunkSize ≤ index := by
    rw [dropStart]
    split <;> omega
  have cut := dropped 0 (if_pos ⟨by omega, by omega⟩)
  omega

theorem byteAt_applyCuts {chunkId : Nat}
    (first : ∀ cutoff, cuts.1 chunkId = some cutoff → p < cutoff)
    (second : ∀ cutoff, cuts.2 chunkId = some cutoff → p < cutoff) :
    State.byteAt layout { s with db := applyCuts cuts s.db } chunkId p =
      s.byteAt layout chunkId p := by
  have keeps : ∀ (view : Contents) (cut : Nat → Option Nat),
      (∀ cutoff, cut chunkId = some cutoff → p < cutoff) →
      (view.cut cut).byteAt chunkId p = view.byteAt chunkId p := by
    intro view cut below
    simp only [Contents.cut]
    cases found : cut chunkId with
    | none => rfl
    | some cutoff => exact if_neg (Nat.not_le_of_lt (below cutoff found))
  rw [(inv_applyCuts inv cuts).2, keeps _ _ second, keeps _ _ first]
  rfl

omit inv in
theorem cuts_below (base oldSize chunkSize : Nat) (below : p < size) :
    (∀ cutoff, cutoffCut base size chunkSize (base + p / chunkSize) = some cutoff →
      p % chunkSize < cutoff) ∧
    ∀ cutoff, dropCut base size oldSize chunkSize (base + p / chunkSize) = some cutoff →
      p % chunkSize < cutoff := by
  have split := Nat.div_add_mod p chunkSize
  have sizeSplit := Nat.div_add_mod size chunkSize
  have order : p / chunkSize ≤ size / chunkSize := Nat.div_le_div_right (by omega)
  constructor
  · intro cutoff found
    rw [cutoffCut] at found
    split at found
    · cases found
      have same : p / chunkSize = size / chunkSize := by omega
      rw [same] at split
      omega
    · cases found
  · intro cutoff found
    rw [dropCut] at found
    split at found
    · have start : dropStart size chunkSize ≤ p / chunkSize := by omega
      rw [dropStart] at start
      split at start
      · have same : p / chunkSize = size / chunkSize := by omega
        rw [same] at split
        omega
      · omega
    · cases found

theorem truncate_keeps (pos : 0 < layout.chunkSize)
    (done : truncate s.db ino size layout.chunkSize = some after) (below : p < size) :
    fileByte layout { s with db := after } ino p = fileByte layout s ino p := by
  rcases truncate_inversion done with ⟨current, cuts, _, made, rfl⟩
  have sized := inv.sizes (update s.db.fileSize ino (some (asI64 size)))
  by_cases grows : asU64 current ≤ size
  · rw [truncateCuts_noop grows] at made
    cases made
    exact byteAt_applyCuts sized nofun nofun
  rcases truncateCuts_eq (by omega) pos made with ⟨_, rfl⟩
  have uncut := cuts_below (firstChunk ino) (asU64 current) layout.chunkSize below
  exact byteAt_applyCuts sized uncut.1 uncut.2

theorem Sized.truncate (sized : Sized layout s)
    (done : Database.truncate s.db ino size layout.chunkSize = some after) (fits : size < 2 ^ 63)
    (bound : size ≤ chunkIdBase * layout.chunkSize) : Sized layout { s with db := after } := by
  have ends := truncate_ends inv sized done
  have trimmed := trimmed_truncate inv done
  have sizes : after.fileSize = update s.db.fileSize ino (some (size : Int)) := by
    rcases truncate_inversion done with ⟨current, cuts, _, _, rfl⟩
    rw [asI64_of_lt fits]
    rfl
  constructor
  · intro other result known
    rw [sizes] at known
    rcases Slots.mem_put known with ⟨_, rfl⟩ | ⟨_, old⟩
    · omega
    · exact sized.sizes other result old
  intro row' mem
  simp only [sizes]
  by_cases mine : rowInode row'.chunkId = ino
  · rw [mine, update_self]
    refine ⟨_, rfl, ?_⟩
    intro p covers
    have below := ends row' mem mine p covers
    omega
  rw [update_of_ne mine]
  rcases trimmed row' mem with ⟨row, rowMem, chunk, inside⟩
  rcases sized.ends row rowMem with ⟨result, known, below⟩
  rw [chunk]
  exact ⟨result, known, fun p covers => below p (inside p covers)⟩

omit inv in
theorem fileOffset_bound (chunkId : Nat) (inside : p ≤ layout.chunkSize) :
    fileOffset layout chunkId p ≤ chunkIdBase * layout.chunkSize := by
  have small := (chunkId_eq chunkId).2
  have scaled := Nat.mul_le_mul_right layout.chunkSize (Nat.succ_le_of_lt small)
  rw [Nat.succ_mul] at scaled
  rw [fileOffset]
  omega

theorem clientStep_sized (sized : Sized layout s) (called : WriterSized layout s action)
    (taken : clientStep layout s action = some next) : Sized layout next := by
  cases action with
  | create ino =>
    simp only [clientStep] at taken
    split at taken
    · cases taken
      exact sized
    next unknown =>
      cases taken
      constructor
      · intro other size known
        rcases Slots.mem_put known with ⟨_, rfl⟩ | ⟨_, old⟩
        · omega
        · exact sized.sizes other size old
      intro row mem
      rcases sized.ends row mem with ⟨size, known, inside⟩
      have different : rowInode row.chunkId ≠ ino := by
        intro same
        rw [same] at known
        simp [known] at unknown
      simp only [update_of_ne different]
      exact ⟨size, known, inside⟩
  | append chunkId sliceId offset data =>
    cases (Option.ite_none_right_eq_some.mp taken).2
    rcases called with ⟨size, known, inside⟩
    refine ⟨sized.sizes, ?_⟩
    intro row mem
    rcases List.mem_append.mp mem with old | new
    · exact sized.ends row old
    rw [List.mem_singleton.mp new]
    refine ⟨size, known, ?_⟩
    intro p covers
    have stop := covers.2
    simp only [fileOffset, SliceDesc.stop] at inside stop ⊢
    omega
  | write ino chunkId sliceId offset data newSize =>
    simp only [clientStep] at taken
    rcases called with ⟨owned, writerSize, fits⟩
    obtain ⟨fresh, taken⟩ := Option.ite_none_right_eq_some.mp taken
    split at taken
    · cases taken
      exact ⟨sized.sizes, sized.ends⟩
    next db written =>
      cases taken
      rcases map_eq_some_iff.mp written with ⟨grown, done, made⟩
      subst made
      have bound := fileOffset_bound chunkId fresh.2.2
      rw [← writerSize] at bound
      apply sized.grow done fits bound rfl
      intro row mem
      rcases List.mem_append.mp mem with old | new
      · exact .inl old
      rw [List.mem_singleton.mp new]
      refine .inr ⟨owned, ?_⟩
      intro p covers
      have stop := covers.2
      simp only [fileOffset, SliceDesc.stop] at writerSize stop ⊢
      omega
  | truncate ino size chunkSize =>
    cases taken
    rcases called with ⟨rfl, fits, bound⟩
    cases done : Database.truncate s.db ino size layout.chunkSize with
    | none => exact sized
    | some after => exact sized.truncate inv done fits bound
  | extend ino size =>
    cases taken
    cases done : extendFileSize s.db ino size with
    | none => exact sized
    | some after =>
      rcases map_eq_some_iff.mp done with ⟨grown, found, made⟩
      subst made
      exact sized.grow found called.1 called.2 rfl fun row mem => .inl mem

/-- The operation maps no slice of the inode. -/
def WritesNothing (ino : Int) (action : ClientAction) : Prop :=
  ∀ slice ∈ newSlice action, rowInode slice.chunkId ≠ ino

instance (ino : Int) (action : ClientAction) : Decidable (WritesNothing ino action) :=
  inferInstanceAs (Decidable (∀ slice ∈ newSlice action, rowInode slice.chunkId ≠ ino))

theorem clientStep_endsBy (ends : EndsBy layout ino limit s.db.sliceMeta)
    (quiet : WritesNothing ino action) (taken : clientStep layout s action = some next) :
    EndsBy layout ino limit next.db.sliceMeta := by
  rcases clientStep_rows inv taken with trimmed | ⟨slice, mapped, rows⟩
  · intro row' mem mine p covers
    rcases trimmed row' mem with ⟨row, rowMem, chunk, inside⟩
    rw [chunk] at mine ⊢
    exact ends row rowMem mine p (inside p covers)
  rw [rows]
  intro row mem mine
  rcases List.mem_append.mp mem with old | new
  · exact ends row old mine
  · rw [List.mem_singleton.mp new] at mine
    exact absurd mine (quiet slice mapped)

omit inv in
theorem run_sized {actions : List ClientAction}
    (run : exec (clientStep layout) State.init actions = some s)
    (called : Along (clientStep layout) (WriterSized layout) State.init actions) :
    Inv layout s ∧ Sized layout s := by
  apply invariant_along ?_ ?_ called run
  · exact fun s action next both called taken =>
      ⟨(clientStep_spec both.1 taken).1, clientStep_sized both.1 both.2 called taken⟩
  · exact ⟨inv_init layout, nofun, nofun⟩

/-- Until the file's next write it reads as zero from the truncated size on. -/
theorem run_zero (sized : Sized layout s) (ends : EndsBy layout ino limit s.db.sliceMeta)
    (signed : 0 ≤ ino) {later : List ClientAction}
    (run : exec (clientStep layout) s later = some next)
    (called : Along (clientStep layout)
      (fun s action => WriterSized layout s action ∧ WritesNothing ino action) s later) {size : Int}
    (grown : next.db.fileSize ino = some size) (past : limit ≤ p) (below : (p : Int) < size) :
    fileByte layout next ino p = some 0 := by
  have kept : Inv layout next ∧ Sized layout next ∧ EndsBy layout ino limit next.db.sliceMeta := by
    apply invariant_along ?_ ?_ called run
    · exact fun s action next facts called taken =>
        ⟨(clientStep_spec facts.1 taken).1, clientStep_sized facts.1 facts.2.1 called.1 taken,
          clientStep_endsBy facts.1 facts.2.2 called.2 taken⟩
    · exact ⟨inv, sized, ends⟩
  have bound := kept.2.1.sizes ino size grown
  exact kept.2.2.zero signed past (by omega)

end

end

/-- Truncate, then extend. With the store called as its writer calls it, a successful truncate
leaves every byte below the new size, leaves no slice of the file mapping a byte at or above it, and
until the file's next write everything from there to its end reads as zero. -/
theorem truncate_then_extend (layout : ChunkLayout) (actions : List ClientAction) (s : State)
    (run : exec (clientStep layout) State.init actions = some s)
    (called : Along (clientStep layout) (WriterSized layout) State.init actions)
    (ino : Int) (signed : 0 ≤ ino) (size : Nat) (fits : size < 2 ^ 63)
    (bound : size ≤ chunkIdBase * layout.chunkSize) (db : Tables)
    (done : truncate s.db ino size layout.chunkSize = some db) :
    (∀ p < size, fileByte layout { s with db := db } ino p = fileByte layout s ino p) ∧
    EndsBy layout ino size db.sliceMeta ∧
    ∀ later t, exec (clientStep layout) { s with db := db } later = some t →
      Along (clientStep layout)
        (fun s action => WriterSized layout s action ∧ WritesNothing ino action)
        { s with db := db } later →
      ∀ m, t.db.fileSize ino = some m → ∀ p : Nat, size ≤ p → (p : Int) < m →
        fileByte layout t ino p = some 0 := by
  rcases run_sized run called with ⟨inv, sized⟩
  have ends := truncate_ends inv sized done
  have step : clientStep layout s (.truncate ino size layout.chunkSize) =
      some { s with db := db } := by
    simp only [clientStep, State.commit, done, Option.getD_some]
  refine ⟨?_, ends, ?_⟩
  · intro p below
    have pos : 0 < layout.chunkSize := by
      by_contra zero
      rw [Nat.eq_zero_of_not_pos zero] at bound
      omega
    exact truncate_keeps inv pos done below
  intro later t runs calls m grown p past below
  exact run_zero (clientStep_spec inv step).1 (sized.truncate inv done fits bound) ends signed
    runs calls
    grown past below

def tinyLayout : ChunkLayout := plainLayout 4 (Nat.succ_pos 3) (by decide)

/-- A file of two chunks. -/
def twoChunks : List ClientAction :=
  [.create 2, .write 2 2000000000 1 0 [7, 8] 2, .write 2 2000000001 2 0 [9] 5]

theorem truncate_then_extend_grown :
    ∃ s db t, exec (clientStep tinyLayout) State.init twoChunks = some s ∧
      truncate s.db 2 1 4 = some db ∧
      exec (clientStep tinyLayout) { s with db := db } [.extend 2 5] = some t ∧
      fileByte tinyLayout { s with db := db } 2 0 = fileByte tinyLayout s 2 0 ∧
      ∀ p : Nat, 1 ≤ p → (p : Int) < 5 → fileByte tinyLayout t 2 p = some 0 := by
  have facts := truncate_then_extend tinyLayout twoChunks _ rfl (by decide) 2 (by decide) 1
    (by decide) (by decide) _ rfl
  exact ⟨_, _, _, rfl, rfl, rfl, facts.1 0 (by decide),
    facts.2.2 [.extend 2 5] _ rfl ⟨⟨⟨by decide, by decide⟩, by decide⟩, fun _ _ => trivial⟩ 5 rfl⟩

/-- `append_slice` records no size, so a truncate does not see what it maps: the byte is back once
the file has grown over it. -/
theorem appended_bytes_return :
    ∃ s db t, exec (clientStep tinyLayout) State.init [.create 2, .append 2000000000 1 0 [7]] =
      some s ∧ truncate s.db 2 0 4 = some db ∧
      exec (clientStep tinyLayout) { s with db := db } [.extend 2 1] = some t ∧
      t.db.fileSize 2 = some 1 ∧ fileByte tinyLayout t 2 0 = some 7 :=
  ⟨_, _, _, rfl, rfl, rfl, rfl, rfl⟩

end BrewFs.Meta.Database
