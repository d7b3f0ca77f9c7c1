import BrewFs.Chunk.Compact.Books

/- No physical extent is lost: every step keeps the books, as long as compactions replace no
slice longer than a record can say. -/
namespace BrewFs.Chunk.Compact

open BrewFs.Run BrewFs.Meta BrewFs.Meta.Database List Option State
open SliceDesc (stop)

section

variable {layout : ChunkLayout} {own : Option Nat} {s next : State}

/-! ### Steps that leave mappings and records alone -/

theorem Books.still (books : Books layout s) (spares : Spares own s next)
    (rows : next.db.sliceMeta = s.db.sliceMeta) (delayed : next.db.delayed = s.db.delayed)
    (history : next.history = s.history) (taken : ∀ id ∈ s.taken, id ∈ next.taken)
    (untouched : ∀ id, id ∉ next.taken → ∀ index, next.store (id, index) = none) :
    Books layout next := by
  apply books.quiet spares rows history taken untouched
  · intro record mem
    rw [delayed] at mem
    exact ⟨record, mem, rfl, rfl⟩
  · intro record mem _
    rw [delayed]
    exact mem
  · intro record mem status _ _ _
    rw [delayed]
    exact ⟨record, mem, status, rfl, rfl⟩
  · rw [delayed]
    exact books.single

theorem spares_shrink (history : next.history = s.history)
    (blocks : ∀ key, (next.store key).isSome → (s.store key).isSome) : Spares none s next where
  history := by
    rw [history]
    exact fun _ => id
  newer := by
    rw [history]
    exact fun slice mem => .inl mem
  blocks := fun id _ _ index present => blocks (id, index) present
  ownFree := nofun

/-- A step that at most deletes blocks or hands out ids. -/
structure Shrinks (s next : State) : Prop where
  rows : next.db.sliceMeta = s.db.sliceMeta
  delayed : next.db.delayed = s.db.delayed
  history : next.history = s.history
  taken : ∀ id ∈ s.taken, id ∈ next.taken
  blocks : ∀ key, (next.store key).isSome → (s.store key).isSome
  compactors : next.compactors = s.compactors
  collectors : next.collectors = s.collectors

theorem Shrinks.refl (s : State) : Shrinks s s :=
  ⟨rfl, rfl, rfl, fun _ => id, fun _ => id, rfl, rfl⟩

theorem Books.shrink (books : Books layout s) (shrinks : Shrinks s next) : Books layout next := by
  apply books.still (spares_shrink shrinks.history shrinks.blocks) shrinks.rows shrinks.delayed
    shrinks.history shrinks.taken
  intro id unknown index
  have before := books.untouched id (fun mem => unknown (shrinks.taken id mem)) index
  rw [← not_isSome_iff_eq_none]
  intro present
  have earlier := shrinks.blocks (id, index) present
  rw [before] at earlier
  cases earlier

theorem extends_of_eq {table other : DelayedTable} (same : other = table) :
    table.Extends other := by
  rw [same]
  exact .refl table

variable {worker : Nat} (ledger : Ledger layout s) (inv : Compact.Inv layout s)

section

include ledger inv

theorem ledger_job {job : Compaction}
    (shrinks : Shrinks s next) (account : job.Account layout (next.setCompactor worker job)) :
    Ledger layout (next.setCompactor worker job) :=
  ledger.compactor inv (extends_of_eq shrinks.delayed) none
    (spares_shrink shrinks.history shrinks.blocks) (fun _ => { ledger.books.shrink shrinks with })
    (by rw [setCompactor, shrinks.compactors]) shrinks.collectors nofun account

theorem ledger_collection {job : Collection}
    (shrinks : Shrinks s next) (account : job.Account layout (next.setCollector worker job)) :
    Ledger layout (next.setCollector worker job) :=
  ledger.collector inv (extends_of_eq shrinks.delayed)
    (spares_shrink shrinks.history shrinks.blocks) (fun _ => { ledger.books.shrink shrinks with })
    shrinks.compactors (by rw [setCollector, shrinks.collectors]) account

/-! ### Clients -/

theorem Ledger.sizes (fileSize : Int → Option Int) :
    Ledger layout { s with db := { s.db with fileSize := fileSize } } :=
  ledger.client inv (.refl _) (spares_shrink rfl fun _ => id)
    (fun _ => { ledger.books.shrink (.refl s) with }) rfl rfl

end

variable {sliceId : Nat} {data : List UInt8} {db : Tables}

theorem spares_upload (unknown : sliceId ∉ s.taken) {added : List SliceDesc}
    (ids : ∀ row ∈ added, row.sliceId = sliceId) (history : next.history = added ++ s.history)
    (store : next.store = uploadSlice layout s.store sliceId data) : Spares none s next where
  history := by
    rw [history]
    exact fun slice mem => mem_append_right _ mem
  newer := by
    intro slice mem
    rw [history] at mem
    rcases mem_append.mp mem with new | old
    · refine .inr (.inl ?_)
      rw [ids slice new]
      exact unknown
    · exact .inl old
  blocks := by
    intro id mem _ index present
    have other : id ≠ sliceId := fun same => unknown (same ▸ mem)
    rw [store, uploadSlice_other other] at present
    exact present
  ownFree := nofun

theorem Books.upload_untouched (books : Books layout s) (id : Nat)
    (unknown : id ∉ sliceId :: s.taken)
    (index : Nat) : uploadSlice layout s.store sliceId data (id, index) = none := by
  rw [mem_cons, not_or] at unknown
  rw [uploadSlice_other unknown.1]
  exact books.untouched id unknown.2 index

/-- A trim stages every row it touches at the length the row had. -/
theorem accounted_prune (tidy : Tidy layout s) (action : SliceDesc → TrimAction) :
    Accounted s (trimRow action) (s.db.sliceMeta.filterMap (stagedBy action)) := by
  intro row mem
  have own : ∀ retained, stagedBy action row = some (row, retained) →
      (row, retained) ∈ s.db.sliceMeta.filterMap (stagedBy action) :=
    fun retained staged => mem_filterMap.mpr ⟨row, mem, staged⟩
  have whole : ∀ slice ∈ s.history, slice.sliceId = row.sliceId → row.length = slice.length →
      slice.length ≤ row.length := fun slice _ _ same => by omega
  cases decision : action row with
  | keep =>
    refine .inl ⟨by rw [trimRow, decision], ?_⟩
    intro item itemMem same
    rcases mem_filterMap.mp itemMem with ⟨other, otherMem, staged⟩
    have facts := stagedBy_eq_some staged
    rw [facts.1] at same
    rw [eq_of_sliceId tidy.ids otherMem mem same] at facts
    exact facts.2 decision
  | drop =>
    exact .inr ⟨(row, false), own false (by rw [stagedBy, decision]), rfl, rfl, whole,
      .inr ⟨rfl, by rw [trimRow, decision]⟩⟩
  | truncate newLen =>
    exact .inr ⟨(row, true), own true (by rw [stagedBy, decision]), rfl, rfl, whole,
      .inl ⟨rfl, by rw [trimRow, decision]; rfl⟩⟩

section

include ledger inv

/-- A new slice is mapped in full. -/
theorem ledger_append {offset : Nat} {slice : SliceDesc}
    (fresh : Fresh layout s sliceId offset data) (named : slice.sliceId = sliceId)
    (sized : slice.length = data.length) (rows : db.sliceMeta = s.db.sliceMeta ++ [slice])
    (delayed : db.delayed = s.db.delayed) : Ledger layout { s with
      db := db
      store := uploadSlice layout s.store sliceId data
      history := slice :: s.history
      taken := sliceId :: s.taken } := by
  have mapped : db.sliceMeta = s.db.sliceMeta.filterMap some ++ [slice] := by
    rw [filterMap_some]
    exact rows
  have unstaged : db.delayed = stageAll s.db.delayed [] := delayed
  refine ledger.client inv (extends_of_eq delayed)
    (spares_upload fresh.1 ?_ singleton_append.symm rfl)
    (fun spares => ledger.books.stage inv.tidy spares mapped (reworks_refl _) unstaged
      singleton_append.symm (fun _ mem => mem_cons_of_mem _ mem)
      ledger.books.upload_untouched .nil nofun nofun (fun _ _ => .inl ⟨rfl, nofun⟩) ?_
      (nodup_singleton _)) rfl rfl
  · intro row mem
    rw [mem_singleton.mp mem]
    exact named
  intro row mem
  rw [mem_singleton.mp mem, named, sized]
  have inside := fresh.2.2
  refine ⟨?_, mem_cons_self, by omega, ?_⟩
  · intro other otherMem same
    have old := ledger.books.known other otherMem
    rw [same] at old
    exact fresh.1 old
  intro index present
  rcases writeSpans_present (by omega) (blockSpanIterRange_tiles layout 0 data.length)
    (Nat.zero_add _) present with before | extent
  · rw [ledger.books.untouched sliceId fresh.1] at before
    cases before
  · exact extent

/-- A failed upload leaves blocks that no mapping ever named. -/
theorem ledger_upload
    (unknown : sliceId ∉ s.taken) : Ledger layout { s with
      store := uploadSlice layout s.store sliceId data
      taken := sliceId :: s.taken } := by
  refine ledger.client inv (.refl _)
    (spares_upload unknown (fun row mem => absurd mem not_mem_nil) rfl rfl)
    (fun spares => ?_) rfl rfl
  exact ledger.books.still spares rfl rfl rfl (fun _ mem => mem_cons_of_mem _ mem)
    ledger.books.upload_untouched

theorem ledger_prune (cut : Nat → Option Nat) :
    Ledger layout { s with db := pruneTables (cutAction cut) s.db } := by
  have table : (pruneTables (cutAction cut) s.db).delayed =
      stageAll s.db.delayed (s.db.sliceMeta.filterMap (stagedBy (cutAction cut))) := by
    rw [pruneTables, pruneRows_eq]
  have mapped : (pruneTables (cutAction cut) s.db).sliceMeta =
      s.db.sliceMeta.filterMap (trimRow (cutAction cut)) ++ [] := by
    rw [append_nil, pruneTables, pruneRows_eq]
  have source : ∀ item ∈ s.db.sliceMeta.filterMap (stagedBy (cutAction cut)),
      item.1 ∈ s.db.sliceMeta := by
    intro item mem
    rcases mem_filterMap.mp mem with ⟨row, rowMem, staged⟩
    rw [(stagedBy_eq_some staged).1]
    exact rowMem
  refine ledger.client inv ?_ (spares_shrink rfl fun _ => id) (fun spares => ?_) rfl rfl
  · rw [table]
    exact extends_stageAll _ _
  refine ledger.books.stage inv.tidy spares mapped (reworks_cut cut _ inv.tidy.fits) table rfl
    (fun _ => id) ledger.books.untouched (inv.tidy.ids.sublist
      (filterMap_map_sublist fun row _ item staged => by rw [(stagedBy_eq_some staged).1])) ?_ ?_
    (accounted_prune inv.tidy _) ?_ .nil
  · intro item mem
    have bound := inv.tidy.bounded item.1 (source item mem)
    simp only [stop] at bound
    omega
  · exact fun item mem => ledger.books.published item.1 (source item mem)
  · simp

theorem clientStep_ledger {action : ClientAction}
    (taken : clientStep layout s action = some next) : Ledger layout next := by
  cases action with
  | create ino =>
    simp only [clientStep] at taken
    split at taken <;> cases taken
    · exact ledger
    · exact ledger.sizes inv _
  | append chunkId sliceId offset data =>
    obtain ⟨fresh, ⟨⟩⟩ := ite_none_right_eq_some.mp taken
    exact ledger_append ledger inv fresh rfl rfl rfl rfl
  | write ino chunkId sliceId offset data newSize =>
    obtain ⟨fresh, taken⟩ := ite_none_right_eq_some.mp taken
    split at taken
    · cases taken
      exact ledger_upload ledger inv fresh.1
    next db written =>
      cases taken
      rcases map_eq_some_iff.mp written with ⟨fileSize, _, made⟩
      subst made
      exact ledger_append ledger inv fresh rfl rfl rfl rfl
  | truncate ino size chunkSize =>
    cases taken
    cases result : truncate s.db ino size chunkSize with
    | none =>
      exact ledger
    | some db =>
      rcases bind_eq_some_iff.mp result with ⟨current, _, pruned⟩
      rw [pruneSlicesForTruncate_eq] at pruned
      rcases map_eq_some_iff.mp pruned with ⟨cuts, _, made⟩
      simp only [← made]
      have sized := ledger.sizes inv (Function.update s.db.fileSize ino (some (asI64 size)))
      have sizedInv := inv.sizes (Function.update s.db.fileSize ino (some (asI64 size)))
      exact ledger_prune (ledger_prune sized sizedInv cuts.1) (inv_prune sizedInv cuts.1) cuts.2
  | extend ino size =>
    cases taken
    cases result : extendFileSize s.db ino size with
    | none =>
      exact ledger
    | some db =>
      rcases map_eq_some_iff.mp result with ⟨fileSize, _, made⟩
      simp only [← made]
      exact ledger.sizes inv fileSize

end

/-! ### Compactors -/

/-- The slices that a compactor's next transaction unmaps. -/
def Compaction.replaces : Compaction → CompactorAction → List SliceDesc
  | .planned _ slices, .light =>
    slices.filter fun slice => (lightReplaced slices).contains slice.sliceId
  | .uploading _ slices _ _ _ _, .publish => slices
  | _, _ => []

/-- The action replaces no slice longer than `encode_delayed_data` can record. -/
def ShortReplaced (s : State) : Action → Prop
  | .compactor worker action =>
    ∀ slice ∈ (s.compactors worker).replaces action, slice.length ≤ u32Max
  | _ => True

instance (s : State) (action : Action) : Decidable (ShortReplaced s action) := by
  cases action <;> unfold ShortReplaced <;> infer_instance

theorem Books.copies (books : Books layout s) (chunkId : Nat) :
    Copies s (getSlices s.db.sliceMeta chunkId) := by
  intro slice mem
  have row := (mem_getSlices.mp mem).1
  rcases books.published slice row with ⟨original, originalMem, same⟩
  exact ⟨original, originalMem, same, (books.live slice row original originalMem same).1⟩

variable {chunkId : Nat} {slices : List SliceDesc} {item : ReadyDeletion}

theorem stagedReplaced_ids (replacedIds : List Nat) (nodup : (slices.map (·.sliceId)).Nodup) :
    ((stagedReplaced chunkId slices replacedIds).map (·.1.sliceId)).Nodup := by
  have ids : (stagedReplaced chunkId slices replacedIds).map (·.1.sliceId) =
      (slices.filter fun slice => replacedIds.contains slice.sliceId).map (·.sliceId) := by
    simp only [stagedReplaced, replacedRecords, List.map_map, Function.comp_def]
  rw [ids]
  exact nodup.sublist (List.filter_sublist.map _)

/-- Replaced rows are staged at least at the length the compactor saw. -/
theorem Held.accounted (held : Held layout s chunkId slices) {replacedIds : List Nat}
    (short : ∀ slice ∈ slices, slice.sliceId ∈ replacedIds → slice.length ≤ u32Max) :
    Accounted s (keepRow (spared chunkId slices replacedIds))
      (stagedReplaced chunkId slices replacedIds) := by
  intro row mem
  cases kept : spared chunkId slices replacedIds row with
  | true =>
    refine .inl ⟨keepRow_eq_some.mpr ⟨kept, rfl⟩, ?_⟩
    intro item itemMem same
    rcases mem_stagedReplaced.mp itemMem with ⟨slice, sliceMem, replaced, rfl⟩
    have chunk := (held.snapshot.shrunk slice sliceMem row mem same.symm).1
    rw [spared_eq_false.mpr ⟨chunk, slice, sliceMem, replaced, same⟩] at kept
    cases kept
  | false =>
    rcases spared_eq_false.mp kept with ⟨chunk, slice, sliceMem, replaced, same⟩
    have bound := short slice sliceMem replaced
    have length := (held.snapshot.shrunk slice sliceMem row mem same.symm).2.2
    refine .inr ⟨_, mem_stagedReplaced.mpr ⟨slice, sliceMem, replaced, rfl⟩, same, chunk.symm, ?_,
      .inr ⟨rfl, by rw [keepRow, kept]; rfl⟩⟩
    intro original _ _ whole
    show original.length ≤ min slice.length u32Max
    omega

theorem Held.staged_small (held : Held layout s chunkId slices) (replacedIds : List Nat) :
    ∀ item ∈ stagedReplaced chunkId slices replacedIds, item.1.length ≤ layout.chunkSize := by
  intro item mem
  rcases mem_stagedReplaced.mp mem with ⟨slice, sliceMem, _, rfl⟩
  have bound := (held.bounded slice sliceMem).2
  simp only [stop] at bound
  show min slice.length u32Max ≤ layout.chunkSize
  omega

theorem Copies.staged (copies : Copies s slices) (replacedIds : List Nat) :
    ∀ item ∈ stagedReplaced chunkId slices replacedIds,
      ∃ slice ∈ s.history, slice.sliceId = item.1.sliceId := by
  intro item mem
  rcases mem_stagedReplaced.mp mem with ⟨slice, sliceMem, _, rfl⟩
  rcases copies slice sliceMem with ⟨original, originalMem, same, _⟩
  exact ⟨original, originalMem, same⟩

theorem cleared_delete (books : Books layout s)
    (agrees : Agrees s item.delayedId item.sliceId item.size) (db : next.db = s.db)
    (store : next.store = deleteExtent layout s.store item.sliceId item.size .deleted) :
    Cleared layout next item.delayedId := by
  rw [Cleared, db, store]
  refine ⟨agrees.1, ?_⟩
  intro record mem same
  rcases agrees.2 record mem same with ⟨slice, size, status⟩
  refine ⟨status, ?_⟩
  intro index present
  have bound := books.sizes record mem
  rw [slice] at present
  rw [size] at bound ⊢
  exact deleteExtent_deleted bound present

section

include ledger inv

theorem ledger_light
    (job : s.compactors worker = .planned chunkId slices)
    (short : ∀ slice ∈ slices, slice.sliceId ∈ lightReplaced slices → slice.length ≤ u32Max) :
    Ledger layout ((s.commit (replaceSlicesForCompact s.db chunkId []
      (encodeDelayedData slices (lightReplaced slices)))).setCompactor worker .idle) := by
  have held : Held layout s chunkId slices := (job ▸ inv.compactors worker :)
  have copies : Copies s slices := (job ▸ ledger.compactors worker :)
  simp only [replaceSlicesForCompact, held.decode]
  refine ledger.compactor inv (extends_reclaim rfl) none (spares_shrink rfl fun _ => id)
    (fun spares => ledger.books.stage inv.tidy spares ?_
      (reworks_keep (nodup_of_ids inv.tidy.ids) held.shadowed_light)
      (reclaimReplaced_delayed _ _ _ _)
      (nil_append _).symm (fun _ => id) ledger.books.untouched
      (stagedReplaced_ids _ held.snapshot.nodup) (held.staged_small _) (copies.staged _)
      (held.accounted short) (by simp) .nil)
    rfl rfl (by simp) trivial
  rw [filterMap_keepRow]
  rfl

variable {newId written : Nat} {confirmed : List Nat}

theorem ledger_publish (job : s.compactors worker = .uploading chunkId slices newId data [] written)
    (published : replaceSlicesForCompactWithVersion s.db chunkId [⟨newId, chunkId, 0, data.length⟩]
      (encodeDelayedData slices (slices.map (·.sliceId))) slices = some db)
    (short : ∀ slice ∈ slices, slice.length ≤ u32Max) : Ledger layout (setCompactor { s with
      db := db, history := ⟨newId, chunkId, 0, data.length⟩ :: s.history } worker
      (.published newId)) := by
  obtain ⟨merged, uploaded⟩ := job ▸ inv.compactors worker
  obtain ⟨copies, unpublished, extent⟩ := job ▸ ledger.compactors worker
  rcases publish_inversion merged.held published with ⟨left, _, version, rfl⟩
  have current := merged.held.snapshot.current inv.tidy.ids version
  have bound := (occupiedEnd_spec merged.sized).2.1
  refine ledger.compactor inv (extends_reclaim rfl) (some newId)
    ⟨fun slice mem => mem_cons_of_mem _ mem, ?_, fun _ _ _ _ => id, ?_⟩
    (fun spares => ledger.books.stage inv.tidy spares ?_ (reworks_all current)
      (reclaimReplaced_delayed _ _ _ _) (singleton_append).symm (fun _ => id)
      ledger.books.untouched (stagedReplaced_ids _ merged.held.snapshot.nodup)
      (merged.held.staged_small _) (copies.staged _)
      (merged.held.accounted fun slice mem _ => short slice mem) ?_ (nodup_singleton _))
    rfl rfl ?_ trivial
  · intro slice mem
    rcases mem_cons.mp mem with new | old
    · rw [new]
      exact .inr (.inr rfl)
    · exact .inl old
  · intro id mine
    cases mine
    exact unpublished
  · rw [filterMap_keepRow]
    rfl
  · intro row mem
    rw [mem_singleton.mp mem]
    exact ⟨unpublished, uploaded.taken, bound, extent⟩
  · intro id mine
    rw [job]
    exact Option.some.inj mine

theorem ledger_reserve {merged : List UInt8}
    (job : s.compactors worker = .merging chunkId slices [] merged) (fresh : newId ∉ s.taken) :
    Ledger layout (setCompactor { s with
      db := recordUncommittedSlice s.db newId chunkId merged.length
      taken := newId :: s.taken } worker
      (.uploading chunkId slices newId merged (blockSpanIterChunk 0 merged.length layout) 0)) := by
  have copies : Copies s slices := (job ▸ ledger.compactors worker :)
  refine ledger_job ledger inv { Shrinks.refl s with taken := fun _ mem => mem_cons_of_mem _ mem }
    ⟨copies, ?_, ?_⟩
  · intro slice mem same
    have known := ledger.books.known slice mem
    rw [same] at known
    exact fresh known
  intro index present
  have absent := ledger.books.untouched newId fresh index
  simp only [setCompactor, absent] at present
  cases present

theorem ledger_writeBlock {span : Span} {todo : List Span}
    (job : s.compactors worker = .uploading chunkId slices newId data (span :: todo) written) :
    Ledger layout (setCompactor { s with store := writeSpan s.store newId data written span }
      worker (.uploading chunkId slices newId data todo
        (written + min span.len (data.length - written)))) := by
  obtain ⟨merged, uploaded⟩ := job ▸ inv.compactors worker
  obtain ⟨copies, unpublished, extent⟩ := job ▸ ledger.compactors worker
  have bound := (occupiedEnd_spec merged.sized).2.1
  refine ledger.compactor inv (.refl _) (some newId)
    ⟨fun _ => id, fun slice mem => .inl mem, ?_, ?_⟩
    (fun spares => ledger.books.still spares rfl rfl rfl (fun _ => id) ?_) rfl rfl ?_
    ⟨copies, unpublished, ?_⟩
  · intro id _ other index present
    have different : id ≠ newId := fun same => other (by rw [same])
    simp only [setCompactor, writeSpan_other written span different] at present
    exact present
  · intro id mine
    cases mine
    exact unpublished
  · intro id unknown index
    have different : id ≠ newId := fun same => unknown (by rw [same]; exact uploaded.taken)
    simp only [setCompactor, writeSpan_other written span different]
    exact ledger.books.untouched id unknown index
  · intro id mine
    rw [job]
    exact Option.some.inj mine
  · intro index present
    have front := uploaded.bounded
    rcases writeSpan_extent bound uploaded.tiles (by omega) present with before | inside
    · exact extent index before
    · exact inside

theorem compactorStep_ledger {action : CompactorAction}
    (short : ShortReplaced s (.compactor worker action))
    (taken : compactorStep layout s worker action = some next) : Ledger layout next := by
  have account := ledger.compactors worker
  have idle : Ledger layout (s.setCompactor worker .idle) :=
    ledger_job ledger inv (.refl s) trivial
  cases action <;> simp only [compactorStep] at taken
  case snapshot chunkId =>
    cases taken
    exact ledger_job ledger inv (.refl s) (ledger.books.copies chunkId)
  case light =>
    split at taken
    · rename_i chunkId slices job
      simp only [ShortReplaced, job] at short
      split at taken <;> cases taken
      · exact ledger
      apply ledger_light ledger inv job
      exact fun slice mem replaced =>
        short slice (mem_filter.mpr ⟨mem, by simpa using replaced⟩)
    · cases taken
  case heavy =>
    split at taken
    · rename_i chunkId slices job
      rw [job] at account
      split at taken <;> cases taken
      · exact idle
      · exact ledger_job ledger inv (.refl s) account
    · cases taken
  case readBlock =>
    split at taken
    · rename_i chunkId slices read todo merged job
      rw [job] at account
      split at taken <;> cases taken
      · exact idle
      · exact ledger_job ledger inv (.refl s) account
    · cases taken
  case reserve newId =>
    split at taken
    · rename_i chunkId slices merged job
      obtain ⟨fresh, ⟨⟩⟩ := ite_none_right_eq_some.mp taken
      exact ledger_reserve ledger inv job fresh.1
    · cases taken
  case writeBlock =>
    split at taken
    · rename_i chunkId slices newId data span todo written job
      cases taken
      exact ledger_writeBlock ledger inv job
    · cases taken
  case publish =>
    split at taken
    · rename_i chunkId slices newId data written job
      simp only [ShortReplaced, job] at short
      split at taken
      · rename_i db published
        cases taken
        exact ledger_publish ledger inv job published short
      · cases taken
        exact ledger_job ledger inv (.refl s) trivial
    · cases taken
  case confirm =>
    split at taken
    · cases taken
      exact ledger_job ledger inv { Shrinks.refl s with } trivial
    · cases taken
  case cleanup outcome =>
    split at taken
    · cases taken
      exact ledger_job ledger inv
        { Shrinks.refl s with blocks := fun _ present => deleteExtent_present present } trivial
    · cases taken
  case crash =>
    cases taken
    exact idle

/-! ### Collectors -/

theorem ledger_process {rows : List DelayedRow}
    (job : s.collectors worker = .selected rows) :
    Ledger layout (setCollector { s with db := (processDelayedSlices rows s.db).1 } worker
      (.deleting (processDelayedSlices rows s.db).2 [])) := by
  have held := job ▸ inv.collectors worker
  have collects := processDelayedSlices_spec rows s.db
  have unmapped : (processDelayedSlices rows s.db).1.sliceMeta = s.db.sliceMeta := by
    apply collects.mappings
    intro record mem row rowMem same
    exact (held record mem).1.2.1 ⟨row, rowMem, same⟩
  -- a collector's copies are of records that are not retained
  have unselected : ∀ record ∈ s.db.delayed.rows, record.status = .retained →
      ∀ chosen ∈ rows, chosen.id ≠ record.id := by
    intro record mem status chosen chosenMem same
    exact ((held chosen chosenMem).2.2 record mem same.symm).2.2 status
  have origin : ∀ record ∈ (processDelayedSlices rows s.db).1.delayed.rows,
      record.status = .retained → record ∈ s.db.delayed.rows := by
    intro record mem status
    rcases collects.marked mem with ⟨before, beforeMem, same | ⟨same, _⟩⟩
    · rw [same]
      exact beforeMem
    · rw [same] at status
      cases status
  refine ledger.collector inv collects.extend (spares_shrink rfl fun _ => id)
    (fun spares => ?_) rfl rfl nofun
  apply ledger.books.quiet spares unmapped rfl (fun _ => id) ledger.books.untouched
  · intro record mem
    rcases collects.marked mem with ⟨before, beforeMem, same | ⟨same, _⟩⟩
    · exact ⟨before, beforeMem, by rw [same], by rw [same]⟩
    · exact ⟨before, beforeMem, by rw [same]; rfl, by rw [same]; rfl⟩
  · intro record mem status
    rcases collects.keeps mem with
      ⟨after, afterMem, same | ⟨_, chosen, chosenMem, id⟩⟩
    · rw [same] at afterMem
      exact afterMem
    · exact absurd id (unselected record mem status chosen chosenMem)
  · intro record mem status _ _ _
    rcases collects.keeps mem with ⟨after, afterMem, same | ⟨same, _⟩⟩
    · rw [same] at afterMem
      exact ⟨record, afterMem, status, rfl, rfl⟩
    · rw [same] at afterMem
      exact ⟨record.marked, afterMem, by simp [DelayedRow.marked], rfl, rfl⟩
  · intro record mem other otherMem status otherStatus slice chunk
    exact ledger.books.single record (origin record mem status) other
      (origin other otherMem otherStatus) status otherStatus slice chunk

theorem ledger_delete {ready : List ReadyDeletion}
    (job : s.collectors worker = .deleting (item :: ready) confirmed) (outcome : Outcome)
    (done : List Nat)
    (finished : done = confirmed ∨ outcome = .deleted ∧
      done = confirmed ++ [item.delayedId]) : Ledger layout (setCollector { s with
      store := deleteExtent layout s.store item.sliceId item.size outcome } worker
      (.deleting ready done)) := by
  have held := job ▸ inv.collectors worker
  have account := job ▸ ledger.collectors worker
  have spares : Spares none s { s with
      store := deleteExtent layout s.store item.sliceId item.size outcome } :=
    spares_shrink rfl fun _ present => deleteExtent_present present
  have earlier := fun id (old : id ∈ confirmed) =>
    spares.cleared (.refl _) inv.tidy ledger.books (account id old)
  refine ledger_collection ledger inv
    { Shrinks.refl s with blocks := fun _ present => deleteExtent_present present } ?_
  intro id mem
  rcases finished with same | ⟨complete, more⟩
  · rw [same] at mem
    exact earlier id mem
  rw [more] at mem
  rcases mem_append.mp mem with old | new
  · exact earlier id old
  · rw [mem_singleton.mp new]
    exact cleared_delete ledger.books (held item mem_cons_self).2 rfl (by rw [complete]; rfl)

theorem ledger_confirm (job : s.collectors worker = .deleting [] confirmed) :
    Ledger layout (setCollector { s with db := confirmDelayedDeleted s.db confirmed } worker
      .scanning) := by
  have account := job ▸ ledger.collectors worker
  have keeps : ∀ record ∈ s.db.delayed.rows, record.id ∉ confirmed →
      record ∈ (confirmDelayedDeleted s.db confirmed).delayed.rows := by
    intro record mem other
    exact mem_filter.mpr ⟨mem, by simpa using other⟩
  have origin : ∀ record ∈ (confirmDelayedDeleted s.db confirmed).delayed.rows,
      record ∈ s.db.delayed.rows := fun record mem => (mem_filter.mp mem).1
  refine ledger.collector inv (extends_filter _ _) (spares_shrink rfl fun _ => id)
    (fun spares => ?_) rfl rfl trivial
  apply ledger.books.quiet spares rfl rfl (fun _ => id) ledger.books.untouched
  · exact fun record mem => ⟨record, origin record mem, rfl, rfl⟩
  · intro record mem status
    apply keeps record mem
    intro listed
    exact ((account record.id listed).2 record mem rfl).1 status
  · intro record mem status index present inside
    refine ⟨record, keeps record mem ?_, status, rfl, rfl⟩
    intro listed
    have past := ((account record.id listed).2 record mem rfl).2 index present
    omega
  · intro record mem other otherMem
    exact ledger.books.single record (origin record mem) other (origin other otherMem)

theorem collectorStep_ledger {action : CollectorAction}
    (taken : collectorStep layout s worker action = some next) :
    Ledger layout next := by
  cases action <;> simp only [collectorStep] at taken
  case select | claim =>
    split at taken
    · cases taken
      exact ledger_collection ledger inv { Shrinks.refl s with } trivial
    · cases taken
  case process =>
    split at taken
    · rename_i rows job
      cases taken
      exact ledger_process ledger inv job
    · cases taken
  case deleteBlocks outcome =>
    split at taken
    · rename_i item ready confirmed job
      split at taken
      · cases taken
        exact ledger_delete ledger inv job .deleted _ (.inr ⟨rfl, rfl⟩)
      rename_i removed
      cases taken
      exact ledger_delete ledger inv job (.failed removed) _ (.inl rfl)
    · cases taken
  case confirm reached =>
    split at taken
    · rename_i confirmed job
      cases taken
      cases reached with
      | false =>
        exact ledger_collection ledger inv (.refl s) trivial
      | true => exact ledger_confirm ledger inv job
    · cases taken
  case deleteOrphan outcome =>
    split at taken
    · rename_i sliceId size orphans cleaned job
      have fewer : ∀ key, (deleteExtent layout s.store sliceId size outcome key).isSome →
          (s.store key).isSome := fun _ present => deleteExtent_present present
      split at taken <;> cases taken
      · exact ledger_collection ledger inv { Shrinks.refl s with blocks := fewer } trivial
      · exact ledger_collection ledger inv { Shrinks.refl s with blocks := fewer } trivial
    · cases taken
  case forget reached =>
    split at taken
    · cases taken
      cases reached with
      | false | true =>
        exact ledger_collection ledger inv { Shrinks.refl s with } trivial
    · cases taken
  case crash =>
    cases taken
    exact ledger_collection ledger inv (.refl s) trivial

theorem step_ledger {action : Action}
    (short : ShortReplaced s action) (taken : step layout s action = some next) :
    Ledger layout next := by
  cases action with
  | client action => exact clientStep_ledger ledger inv taken
  | compactor worker action => exact compactorStep_ledger ledger inv short taken
  | collector worker action => exact collectorStep_ledger ledger inv taken

end

end

/-! ### Runs -/

/-- A mapping still has the slice's full length, or a record covers it. -/
def Tracked (s : State) (slice : SliceDesc) : Prop :=
  (∃ row ∈ s.db.sliceMeta, row.sliceId = slice.sliceId ∧ row.length = slice.length) ∨
    ∃ record ∈ s.db.delayed.rows, record.sliceId = slice.sliceId ∧ slice.length ≤ record.size

theorem Ledger.tracked {layout : ChunkLayout} {s : State} (ledger : Ledger layout s)
    {slice : SliceDesc} (mem : slice ∈ s.history) {index : Nat}
    (present : (s.store (slice.sliceId, index)).isSome) : Tracked s slice := by
  by_cases live : s.Live slice.sliceId
  · rcases live with ⟨row, rowMem, same⟩
    rcases (ledger.books.live row rowMem slice mem same.symm).2 with
      full | ⟨record, recordMem, matched, size⟩
    · exact .inl ⟨row, rowMem, same, full⟩
    · exact .inr ⟨record, recordMem, (retainedFor_iff.mp matched).2.1.trans same, size⟩
  · rcases ledger.books.dead slice mem live index present with ⟨record, recordMem, _, same, size⟩
    exact .inr ⟨record, recordMem, same, size⟩

/-- No extent is leaked. In every run whose compactions replace no slice longer than `u32::MAX`, a
slice that still has a block is mapped at its full length or has a record of at least that size;
once unmapped, it has a record that a collector picks up and whose deletion removes all its blocks.
-/
theorem no_leaked_extent (layout : ChunkLayout) (actions : List Action) (s : State)
    (run : exec (step layout) State.init actions = some s)
    (short : Along (step layout) ShortReplaced State.init actions) :
    ∀ slice ∈ s.history, (∃ index, (s.store (slice.sliceId, index)).isSome) → Tracked s slice ∧
      (¬ s.Live slice.sliceId → ∃ record ∈ s.db.delayed.rows, record.status ≠ .retained ∧
        record.sliceId = slice.sliceId ∧ slice.length ≤ record.size ∧
        ∀ index, deleteExtent layout s.store slice.sliceId record.size .deleted
          (slice.sliceId, index) = none) := by
  have kept : Inv layout s ∧ Ledger layout s := by
    apply invariant_along ?_ ?_ short run
    · exact fun s action next both short taken =>
        ⟨step_inv both.1 taken, step_ledger both.2 both.1 short taken⟩
    · exact ⟨inv_init layout, ledger_init layout⟩
  have ledger := kept.2
  intro slice mem blocks
  rcases blocks with ⟨index, present⟩
  refine ⟨ledger.tracked mem present, ?_⟩
  intro unmapped
  rcases ledger.books.dead slice mem unmapped index present
    with ⟨record, recordMem, status, same, size⟩
  refine ⟨record, recordMem, status, same, size, fun index => ?_⟩
  rw [← not_isSome_iff_eq_none]
  intro present
  have inside := ledger.books.extent slice mem index (deleteExtent_present present)
  have past := deleteExtent_deleted (ledger.books.sizes record recordMem) present
  omega

theorem no_leaked_extent_covered :
    ∃ s, exec (step smallLayout) State.init (coveredRun.take 4) = some s ∧
      (⟨1, 7, 0, 2⟩ : SliceDesc) ∈ s.history ∧ ¬ s.Live 1 ∧ Tracked s ⟨1, 7, 0, 2⟩ := by
  have run : exec (step smallLayout) State.init (coveredRun.take 4) = some _ := rfl
  have published : (⟨1, 7, 0, 2⟩ : SliceDesc) ∈ [(⟨2, 7, 0, 3⟩ : SliceDesc), ⟨1, 7, 0, 2⟩] := by
    simp
  refine ⟨_, run, published, ?_,
    (no_leaked_extent smallLayout _ _ run (by decide) _ published ⟨0, rfl⟩).1⟩
  rintro ⟨row, listed, same⟩
  obtain rfl : row = ⟨2, 7, 0, 3⟩ := mem_singleton.mp listed
  cases same

/-- One slice written over another, and a light compaction. -/
def overwriteRun (data : List UInt8) : List Action :=
  [.client (.append 7 1 0 data), .client (.append 7 2 0 data), .compactor 0 (.snapshot 7),
   .compactor 0 .light]

theorem overwriteRun_spec {layout : ChunkLayout} {data : List UInt8}
    (fits : data.length ≤ layout.chunkSize) :
    ∃ s, exec (step layout) State.init (overwriteRun data) = some s ∧
      s.history = [⟨2, 7, 0, data.length⟩, ⟨1, 7, 0, data.length⟩] ∧
      s.db.sliceMeta = [⟨2, 7, 0, data.length⟩] ∧
      s.db.delayed.rows = [⟨1, 1, 7, 0, min data.length u32Max, .pending⟩] ∧
      s.store = uploadSlice layout (uploadSlice layout (fun _ => none) 1 data) 2 data := by
  have first : Fresh layout State.init 1 0 data := ⟨by simp [State.init], by decide, by omega⟩
  have second : ∀ s : State, s.taken = [1] → Fresh layout s 2 0 data := fun s taken =>
    ⟨by simp [taken], by decide, by omega⟩
  have replaced : lightReplaced [⟨1, 7, 0, data.length⟩, ⟨2, 7, 0, data.length⟩] = [1] := by
    have covered : removeFullyCovered [⟨1, 7, 0, data.length⟩, ⟨2, 7, 0, data.length⟩] =
        [⟨2, 7, 0, data.length⟩] := by
      rw [removeFullyCovered_eq (by simpa [stop] using fits.trans_lt layout.chunkFits)]
      simp [dropEnclosed, SliceDesc.Encloses, stop]
    simp [lightReplaced, findReplacedIds, covered]
  have decoded : decodeDelayedData (encodeDelayedData
      [⟨1, 7, 0, data.length⟩, ⟨2, 7, 0, data.length⟩] [1]) =
      some [(1, 0, min data.length u32Max)] :=
    decode_encodeDelayedData _ _ (by simp) (by simp)
  simp only [overwriteRun, exec, step, clientStep, if_pos first, bind_some]
  rw [if_pos (second _ rfl)]
  simp [compactorStep, setCompactor, State.init, Tables.empty, appendSlice, getSlices,
    replaced, decoded, replaceSlicesForCompact, commit, reclaimReplaced, stageSliceReclamation]

def largeLayout : ChunkLayout := ⟨8589934592, 4194304, by decide, by decide, by decide, by decide⟩

/-- A slice of more than `u32::MAX` bytes is recorded too short when a compaction replaces it:
deleting what the record asks for leaves its last block, which nothing names. -/
theorem long_extent_leaks : ∃ actions s, exec (step largeLayout) State.init actions = some s ∧
      ∃ slice ∈ s.history, (∃ index, (s.store (slice.sliceId, index)).isSome ∧
        ∀ record ∈ s.db.delayed.rows, (deleteExtent largeLayout s.store slice.sliceId record.size
          .deleted (slice.sliceId, index)).isSome) ∧ ¬ Tracked s slice := by
  have length : (replicate 4294967297 (0 : UInt8)).length = 4294967297 := length_replicate
  generalize replicate 4294967297 (0 : UInt8) = data at length
  have fits : data.length ≤ largeLayout.chunkSize := by
    rw [length]
    decide
  rcases overwriteRun_spec fits with ⟨s, run, history, rows, records, store⟩
  have kept : (s.store (1, 1024)).isSome := by
    have byte : sliceByte largeLayout (uploadSlice largeLayout (fun _ => none) 1 data) 1 4294967296
        = data[4294967296]? := uploadSlice_byte fits (by omega)
    have last : (data[4294967296]?).isSome := by simp [length]
    rw [← byte] at last
    rw [store, uploadSlice_other (by decide)]
    exact isSome_of_isSome_bind last
  refine ⟨overwriteRun data, s, run, ⟨1, 7, 0, data.length⟩, by simp [history],
    ⟨1024, kept, ?_⟩, ?_⟩
  · intro record mem
    rw [records, mem_singleton] at mem
    have count : asU32 (blockCount largeLayout (min data.length u32Max)) = 1024 := by
      rw [length]
      decide
    simp only [mem, deleteExtent, deleteRange, count]
    exact kept
  · intro tracked
    rcases tracked with ⟨row, rowMem, same, _⟩ | ⟨record, recordMem, _, covers⟩
    · rw [rows, mem_singleton] at rowMem
      rw [rowMem] at same
      cases same
    rw [records, mem_singleton] at recordMem
    rw [recordMem, length] at covers
    exact absurd covers (by decide)

end BrewFs.Chunk.Compact
