import BrewFs.Chunk.Compact.Moves

/- Client steps: they keep the invariant, and they act on the visible contents like an abstract
store that knows nothing of slices, records or workers. -/
namespace BrewFs.Chunk.Compact

open BrewFs.Meta BrewFs.Meta.Database List Option State

/-- What clients observe: the byte at every chunk offset, and the file sizes. -/
structure Contents where
  byteAt : Nat → Nat → Option UInt8
  fileSize : Int → Option Int

def State.contents (layout : ChunkLayout) (s : State) : Contents := ⟨s.byteAt layout, s.db.fileSize⟩

namespace Contents

variable (view : Contents)

/-- New data hides what was below it. -/
def overlay (chunkId offset : Nat) (data : List UInt8) : Contents :=
  { view with byteAt := fun chunk p =>
      if chunk = chunkId ∧ offset ≤ p ∧ p < offset + data.length then data[p - offset]?
      else view.byteAt chunk p }

/-- Bytes from the cutoff of a chunk on read as zero. -/
def cut (cut : Nat → Option Nat) : Contents :=
  { view with byteAt := fun chunk p =>
      match cut chunk with
      | none => view.byteAt chunk p
      | some cutoff => if cutoff ≤ p then some 0 else view.byteAt chunk p }

/-- A client operation on the visible contents. -/
def apply : ClientAction → Contents
  | .create ino =>
    if (view.fileSize ino).isSome then view
    else { view with fileSize := Function.update view.fileSize ino (some 0) }
  | .append chunkId _ offset data => view.overlay chunkId offset data
  | .write ino chunkId _ offset data newSize =>
    match growFile view.fileSize ino newSize with
    | none => view
    | some fileSize => { view.overlay chunkId offset data with fileSize := fileSize }
  | .truncate ino size chunkSize =>
    match view.fileSize ino with
    | none => view
    | some current =>
      match truncateCuts ino size (asU64 current) chunkSize with
      | none => view
      | some cuts =>
        { (view.cut cuts.1).cut cuts.2 with
          fileSize := Function.update view.fileSize ino (some (asI64 size)) }
  | .extend ino size =>
    match growFile view.fileSize ino size with
    | none => view
    | some fileSize => { view with fileSize := fileSize }

end Contents

/-- One cut on the slices of a chunk. -/
def shorten (cutoff : Nat) (row : SliceDesc) : Option SliceDesc :=
  if cutoff ≤ row.offset then none
  else some { row with length := min row.length (cutoff - row.offset) }

theorem owner_shorten (cutoff : Nat) (slices : List SliceDesc) (p : Nat) :
    owner (slices.filterMap (shorten cutoff)) p =
      if cutoff ≤ p then none
      else (owner slices p).map fun slice =>
        { slice with length := min slice.length (cutoff - slice.offset) } := by
  induction slices with
  | nil => simp
  | cons row rest ih =>
    by_cases gone : cutoff ≤ row.offset
    · rw [filterMap_cons_none (by simp [shorten, gone]), ih, owner_cons]
      by_cases above : cutoff ≤ p
      · simp [above]
      have outside : ¬ row.Covers p := by
        simp only [SliceDesc.Covers]
        omega
      simp [outside]
    · rw [filterMap_cons_some (by rw [shorten, if_neg gone]), owner_cons, owner_cons, ih]
      by_cases above : cutoff ≤ p
      · have outside : ¬ SliceDesc.Covers
            { row with length := min row.length (cutoff - row.offset) } p := by
          simp only [SliceDesc.Covers, SliceDesc.stop]
          omega
        simp [above, outside]
      have same : SliceDesc.Covers { row with length := min row.length (cutoff - row.offset) } p ↔
          row.Covers p := by
        simp only [SliceDesc.Covers, SliceDesc.stop]
        omega
      simp only [if_neg above, same]
      cases owner rest p with
      | some slice => rfl
      | none => by_cases covers : row.Covers p <;> simp

theorem getSlices_cut (cut : Nat → Option Nat) {rows : List SliceDesc}
    (fits : ∀ row ∈ rows, row.stop < 2 ^ 64) (chunkId : Nat) :
    getSlices (rows.filterMap (trimRow (cutAction cut))) chunkId =
      match cut chunkId with
      | none => getSlices rows chunkId
      | some cutoff => (getSlices rows chunkId).filterMap (shorten cutoff) := by
  rw [getSlices_filterMap fun row mem row' kept =>
    ((reworks_cut cut rows fits).shrinks row mem row' kept).2.1]
  have here : ∀ row ∈ getSlices rows chunkId, trimRow (cutAction cut) row =
      match cut chunkId with
      | none => some row
      | some cutoff => shorten cutoff row := by
    intro row mem
    obtain ⟨listed, rfl⟩ := mem_getSlices.mp mem
    rw [trimRow_cutAction cut row (fits row listed)]
    rfl
  cases chunkCut : cut chunkId with
  | none =>
    simp only [chunkCut] at here
    exact (filterMap_congr here).trans filterMap_some
  | some cutoff =>
    simp only [chunkCut] at here
    exact filterMap_congr here

/-- Pruning by a cut is what a reader sees as a cut. -/
theorem chunkByte_cut (layout : ChunkLayout) (store : BlockStore) (cut : Nat → Option Nat)
    {rows : List SliceDesc} (fits : ∀ row ∈ rows, row.stop < 2 ^ 64) (chunkId p : Nat) :
    chunkByte layout store (getSlices (rows.filterMap (trimRow (cutAction cut))) chunkId) p =
      match cut chunkId with
      | none => chunkByte layout store (getSlices rows chunkId) p
      | some cutoff =>
        if cutoff ≤ p then some 0 else chunkByte layout store (getSlices rows chunkId) p := by
  rw [getSlices_cut cut fits]
  cases cut chunkId with
  | none => rfl
  | some cutoff =>
    have short := owner_shorten cutoff (getSlices rows chunkId) p
    dsimp only
    by_cases above : cutoff ≤ p
    · rw [if_pos above] at short ⊢
      exact chunkByte_of_hole short
    rw [if_neg above] at short ⊢
    cases owned : owner (getSlices rows chunkId) p with
    | none =>
      rw [owned] at short
      rw [chunkByte_of_hole short, chunkByte_of_hole owned]
    | some slice =>
      rw [owned] at short
      rw [chunkByte_of_owner short, chunkByte_of_owner owned]

section

variable {layout : ChunkLayout} {s next : State} {added : List SliceDesc} {action : ClientAction}

section

variable (tidy : Tidy layout s) {data : List UInt8} {sliceId offset : Nat}

include tidy

theorem Tidy.fits : ∀ row ∈ s.db.sliceMeta, row.stop < 2 ^ 64 :=
  fun row mem => (tidy.bounded row mem).trans_lt layout.chunkFits

/-- One pruning pass over the tables. -/
theorem moves_prune (cut : Nat → Option Nat) :
    Moves layout none s { s with db := pruneTables (cutAction cut) s.db }
      (trimRow (cutAction cut)) [] := by
  have reworks := reworks_cut cut s.db.sliceMeta tidy.fits
  simp only [pruneTables, pruneRows_eq]
  refine ⟨(append_nil _).symm, reworks, (by simp), .nil, (by simp), fun _ => id,
    tidy.reservations, ?_, fun id _ _ index => rfl, extends_stageAll _ _, ?_⟩
  · intro row mem
    have facts := tidy.reserved row mem
    refine ⟨facts.1, ?_, fun pending _ => ⟨row, mem, rfl, pending⟩⟩
    rintro ⟨left, leftMem, same⟩
    rcases reworks.mem leftMem with ⟨before, beforeMem, _, id, _⟩
    exact facts.2 ⟨before, beforeMem, id.symm.trans same⟩
  intro record mem status
  rcases mem_stageAll mem status with old | ⟨item, itemMem, drops, same⟩
  · exact .inl (tidy.doomed record old status)
  -- a dropped row was the only one of its slice, so no row of it is left
  right
  rcases mem_filterMap.mp itemMem with ⟨row, rowMem, made⟩
  have dropped : cutAction cut row = .drop ∧ item = (row, false) := by
    unfold stagedBy at made
    split at made
    · cases made
    · rename_i decided
      cases made
      exact ⟨decided, rfl⟩
    · cases made
      cases drops
  rw [same, dropped.2]
  refine ⟨(tidy.mapped row rowMem).1, ?_, ?_⟩
  · rintro ⟨left, leftMem, leftId⟩
    rcases reworks.mem leftMem with ⟨before, beforeMem, kept, id, _⟩
    have only := eq_of_sliceId tidy.ids beforeMem rowMem (by rw [← id, leftId])
    rw [only, trimRow, dropped.1] at kept
    cases kept
  · rintro ⟨reservation, resMem, id, _⟩
    exact (tidy.reserved reservation resMem).2 ⟨row, rowMem, id.symm⟩

theorem byteAt_prune (cut : Nat → Option Nat) (next : State)
    (db : next.db.sliceMeta = (pruneTables (cutAction cut) s.db).sliceMeta)
    (store : next.store = s.store) : next.byteAt layout = ((s.contents layout).cut cut).byteAt := by
  funext chunkId p
  rw [byteAt, db, store, pruneTables, pruneRows_eq,
    chunkByte_cut layout s.store cut tidy.fits]
  rfl

/-- A fresh slice is uploaded, and mapped by `rows` unless the write fails. -/
theorem moves_upload (chunkId : Nat) (fresh : Fresh layout s sliceId offset data) {db : Tables}
    (history : List SliceDesc)
    (shape : added = [] ∨ added = [⟨sliceId, chunkId, offset, data.length⟩])
    (rows : db.sliceMeta = s.db.sliceMeta ++ added) (delayed : db.delayed = s.db.delayed)
    (uncommitted : db.uncommitted = s.db.uncommitted) : Moves layout none s { s with
      db := db
      store := uploadSlice layout s.store sliceId data
      taken := sliceId :: s.taken
      history := history } some added := by
  have mine : ∀ row ∈ added, row = ⟨sliceId, chunkId, offset, data.length⟩ := by
    intro row mem
    rcases shape with none | one
    · rw [none] at mem
      exact absurd mem not_mem_nil
    · rw [one] at mem
      exact mem_singleton.mp mem
  have dataBound : data.length ≤ layout.chunkSize := by
    have bound := fresh.2.2
    omega
  refine ⟨?_, reworks_refl _, ?_, ?_, ?_, fun _ mem => mem_cons_of_mem _ mem,
    uncommitted ▸ tidy.reservations, ?_, ?_, delayed ▸ .refl _, ?_⟩
  · rw [rows, filterMap_some]
  · intro row mem
    rw [mine row mem]
    exact .inl fresh.1
  · rcases shape with none | one
    · rw [none]
      exact .nil
    · rw [one]
      exact nodup_singleton _
  · intro row mem
    rw [mine row mem]
    refine ⟨mem_cons_self, fresh.2.1, fresh.2.2, ?_⟩
    intro i upper
    rw [uploadSlice_byte dataBound upper]
    simp [upper]
  · rw [uncommitted]
    intro row mem
    have facts := tidy.reserved row mem
    refine ⟨mem_cons_of_mem _ facts.1, ?_, ?_⟩
    · intro live
      rcases live with ⟨other, otherMem, same⟩
      rw [rows] at otherMem
      rcases mem_append.mp otherMem with old | new
      · exact facts.2 ⟨other, old, same⟩
      rw [mine other new] at same
      rw [← show sliceId = row.sliceId from same] at facts
      exact fresh.1 facts.1
    · exact fun pending _ => ⟨row, mem, rfl, pending⟩
  · intro id mem _ index
    apply uploadSlice_other
    intro same
    exact fresh.1 (same ▸ mem)
  · rw [delayed]
    exact fun record mem status => .inl (tidy.doomed record mem status)

/-- Rows from before read as before under the new blocks. -/
theorem byteAt_upload_old (data : List UInt8) (fresh : sliceId ∉ s.taken) (chunkId p : Nat) :
    chunkByte layout (uploadSlice layout s.store sliceId data)
      (getSlices s.db.sliceMeta chunkId) p = s.byteAt layout chunkId p := by
  apply chunkByte_congr
  intro slice mem index
  apply uploadSlice_other
  intro same
  exact fresh (same ▸ (tidy.mapped slice (mem_getSlices.mp mem).1).1)

theorem byteAt_upload {chunkId : Nat} (fresh : Fresh layout s sliceId offset data)
    (rows : next.db.sliceMeta = s.db.sliceMeta ++ [⟨sliceId, chunkId, offset, data.length⟩])
    (store : next.store = uploadSlice layout s.store sliceId data) :
    next.byteAt layout = ((s.contents layout).overlay chunkId offset data).byteAt := by
  have dataBound : data.length ≤ layout.chunkSize := by
    have bound := fresh.2.2
    omega
  funext chunk p
  have old := byteAt_upload_old tidy data fresh.1 chunk p
  rw [byteAt, rows, store, getSlices_concat]
  by_cases same : chunkId = chunk
  · subst same
    rw [if_pos rfl, chunkByte_concat, old]
    simp only [Contents.overlay, contents, true_and]
    by_cases inside : offset ≤ p ∧ p < offset + data.length
    · rw [if_pos inside, if_pos (by exact inside), uploadSlice_byte dataBound (by omega)]
    · rw [if_neg inside, if_neg (by exact inside)]
  have different : ¬ chunk = chunkId := fun eq => same eq.symm
  rw [if_neg same, old]
  simp [Contents.overlay, contents, different]

end

theorem contents_eq (bytes : ∀ chunkId p, next.byteAt layout chunkId p = s.byteAt layout chunkId p)
    (sizes : next.db.fileSize = s.db.fileSize) : next.contents layout = s.contents layout := by
  rw [contents]
  congr 1
  funext chunkId p
  exact bytes chunkId p

section

variable (inv : Inv layout s)

include inv

theorem Inv.moves {change : SliceDesc → Option SliceDesc}
    (moves : Moves layout none s next change added) (compactors : next.compactors = s.compactors)
    (collectors : next.collectors = s.collectors) : Inv layout next :=
  inv.client moves.evolves (moves.tidy inv.tidy) compactors collectors

theorem Inv.sizes (fileSize : Int → Option Int) :
    Inv layout { s with db := { s.db with fileSize := fileSize } } := by
  have quiet : Quiet none s { s with db := { s.db with fileSize := fileSize } } :=
    quiet_local inv.tidy rfl rfl rfl rfl rfl
  exact inv.moves (quiet.moves inv.tidy) rfl rfl

theorem inv_prune (cut : Nat → Option Nat) :
    Inv layout { s with db := pruneTables (cutAction cut) s.db } :=
  inv.moves (moves_prune inv.tidy cut) rfl rfl

/-- The rewrite, then the delete, each as a step of its own. -/
theorem inv_applyCuts (cuts : (Nat → Option Nat) × (Nat → Option Nat)) :
    Inv layout { s with db := applyCuts cuts s.db } ∧
    byteAt layout { s with db := applyCuts cuts s.db } =
      (((s.contents layout).cut cuts.1).cut cuts.2).byteAt := by
  have middle := inv_prune inv cuts.1
  refine ⟨inv_prune middle cuts.2, ?_⟩
  have after := byteAt_prune middle.tidy cuts.2 { s with db := applyCuts cuts s.db } rfl rfl
  have between := byteAt_prune inv.tidy cuts.1 { s with db := pruneTables (cutAction cuts.1) s.db }
    rfl rfl
  rw [after]
  simp only [contents]
  rw [between]
  rfl

/-- A client step keeps the invariant and acts on the contents as the abstract store. -/
theorem clientStep_spec (taken : clientStep layout s action = some next) :
    Inv layout next ∧ next.contents layout = (s.contents layout).apply action := by
  cases action with
  | create ino =>
    simp only [clientStep] at taken
    rw [Contents.apply]
    split at taken
    · rename_i known
      cases taken
      rw [if_pos (by exact known)]
      exact ⟨inv, rfl⟩
    rename_i unknown
    cases taken
    rw [if_neg (by exact unknown)]
    exact ⟨inv.sizes _, rfl⟩
  | append chunkId sliceId offset data =>
    obtain ⟨fresh, ⟨⟩⟩ := ite_none_right_eq_some.mp taken
    refine ⟨inv.moves (moves_upload inv.tidy chunkId fresh _ (.inr rfl) rfl rfl rfl) rfl rfl, ?_⟩
    simp only [contents]
    rw [byteAt_upload inv.tidy fresh rfl rfl]
    rfl
  | write ino chunkId sliceId offset data newSize =>
    simp only [clientStep, write] at taken
    obtain ⟨fresh, taken⟩ := ite_none_right_eq_some.mp taken
    simp only [Contents.apply, contents]
    cases grown : growFile s.db.fileSize ino newSize with
    | none =>
      simp only [grown] at taken
      cases taken
      refine ⟨inv.moves (moves_upload inv.tidy chunkId fresh _ (.inl rfl) (append_nil _).symm rfl
        rfl) rfl rfl, ?_⟩
      congr 1
      funext chunk p
      exact byteAt_upload_old inv.tidy data fresh.1 chunk p
    | some fileSize =>
      simp only [grown] at taken
      cases taken
      refine ⟨inv.moves (moves_upload inv.tidy chunkId fresh _ (.inr rfl) rfl rfl rfl) rfl rfl, ?_⟩
      rw [byteAt_upload inv.tidy fresh rfl rfl]
      rfl
  | truncate ino size chunkSize =>
    simp only [clientStep, Option.some.injEq] at taken
    subst taken
    simp only [commit, truncate, Contents.apply, pruneSlicesForTruncate_eq]
    cases known : s.db.fileSize ino with
    | none => exact ⟨by simpa using inv, by simp [contents, known]⟩
    | some current =>
      simp only [bind_some]
      cases planned : truncateCuts ino size (asU64 current) chunkSize with
      | none =>
        exact ⟨inv, by simp [contents, known, planned]⟩
      | some cuts =>
        simp only [map_some, getD_some]
        have both := inv_applyCuts
          (inv.sizes (Function.update s.db.fileSize ino (some (asI64 size)))) cuts
        refine ⟨both.1, ?_⟩
        simp only [contents, known, planned, both.2]
        rfl
  | extend ino size =>
    simp only [clientStep, Option.some.injEq] at taken
    subst taken
    simp only [commit, extendFileSize, Contents.apply]
    cases grown : growFile s.db.fileSize ino size with
    | none =>
      exact ⟨inv, by simp [contents, grown]⟩
    | some fileSize =>
      exact ⟨inv.sizes fileSize, by simp only [contents, grown]; rfl⟩

end

/-- Client steps depend on the allocator only by the freshness of new ids, so a run with fewer ids
handed out can take them too. -/
theorem clientStep_enabled {t : State} (fewer : ∀ id ∈ t.taken, id ∈ s.taken)
    (taken : clientStep layout s action = some next) :
    ∃ matched, clientStep layout t action = some matched ∧ ∀ id ∈ matched.taken,
      id ∈ next.taken := by
  have transfer : ∀ sliceId offset data, Fresh layout s sliceId offset data →
      Fresh layout t sliceId offset data :=
    fun sliceId offset data fresh => ⟨fun old => fresh.1 (fewer sliceId old), fresh.2⟩
  have grow : ∀ sliceId, ∀ id ∈ sliceId :: t.taken, id ∈ sliceId :: s.taken := by
    intro sliceId id mem
    rcases mem_cons.mp mem with same | old
    · exact mem_cons.mpr (.inl same)
    · exact mem_cons_of_mem _ (fewer id old)
  cases action with
  | create ino =>
    simp only [clientStep] at taken ⊢
    have same : next.taken = s.taken := by
      split at taken <;> cases taken <;> rfl
    rw [same]
    split <;> exact ⟨_, rfl, fewer⟩
  | append chunkId sliceId offset data =>
    simp only [clientStep] at taken ⊢
    obtain ⟨fresh, ⟨⟩⟩ := ite_none_right_eq_some.mp taken
    rw [if_pos (transfer _ _ _ fresh)]
    exact ⟨_, rfl, grow sliceId⟩
  | write ino chunkId sliceId offset data newSize =>
    simp only [clientStep] at taken ⊢
    obtain ⟨fresh, taken⟩ := ite_none_right_eq_some.mp taken
    have same : next.taken = sliceId :: s.taken := by
      split at taken <;> cases taken <;> rfl
    rw [if_pos (transfer _ _ _ fresh), same]
    split <;> exact ⟨_, rfl, grow sliceId⟩
  | truncate | extend =>
    cases taken
    exact ⟨_, rfl, fewer⟩

end

end BrewFs.Chunk.Compact
