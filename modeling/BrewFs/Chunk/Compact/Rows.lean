import BrewFs.Chunk.Compact.System

/- Mapping rows under change: which rows may go without changing what a reader sees, and what a
snapshot taken earlier still says about them. -/
namespace BrewFs.Chunk.Compact

open BrewFs.Meta.Database List

/-- `first` stands before `second` in the list. -/
def Before (rows : List SliceDesc) (first second : SliceDesc) : Prop := [first, second].Sublist rows

variable {rows : List SliceDesc}

theorem Before.mem {first second : SliceDesc} (before : Before rows first second) :
    first ∈ rows ∧ second ∈ rows :=
  ⟨before.subset (by simp), before.subset (by simp)⟩

variable {row row' later row head : SliceDesc} {rest slices : List SliceDesc}
  {change : SliceDesc → Option SliceDesc}

theorem before_head (fresh : row ∉ rest) (before : Before (row :: rest) row later) :
    later ∈ rest := by
  cases before with
  | cons _ deeper => exact absurd (deeper.subset (by simp)) fresh
  | cons_cons _ tail => exact tail.subset (by simp)

theorem before_tail (different : row ≠ head) (before : Before (head :: rest) row later) :
    Before rest row later := by
  cases before with
  | cons _ deeper => exact deeper
  | cons_cons _ _ => exact absurd rfl different

/-- Same chunk, and the range of `outer` contains that of `inner`. -/
def Over (outer inner : SliceDesc) : Prop := outer.chunkId = inner.chunkId ∧ outer.Encloses inner

theorem Over.trans {a b c : SliceDesc} (outer : Over a b) (inner : Over b c) : Over a c :=
  ⟨outer.1.trans inner.1, outer.2.trans inner.2⟩

theorem over_refl : Over row row := ⟨rfl, le_rfl, le_rfl⟩

/-- A later row of the same chunk lies around `row`. -/
def Shadowed (rows : List SliceDesc) (row : SliceDesc) : Prop :=
  ∃ later, Before rows row later ∧ Over later row

theorem Shadowed.tail (different : row ≠ head) (shadowed : Shadowed (head :: rest) row) :
    Shadowed rest row := by
  rcases shadowed with ⟨later, before, covering⟩
  exact ⟨later, before_tail different before, covering⟩

section Dropping

variable {keep : SliceDesc → Bool} {rows : List SliceDesc}

section

variable (nodup : rows.Nodup) (dropped : ∀ row ∈ rows, keep row = false → Shadowed rows row)

include nodup dropped

/-- When every dropped row is shadowed, each row has a kept row over it. -/
theorem keeper_of_mem : ∀ row ∈ rows, ∃ keeper ∈ rows, keep keeper = true ∧ Over keeper row := by
  induction rows with
  | nil => exact nofun
  | cons head rest ih =>
    have parts := nodup_cons.mp nodup
    have later := ih parts.2 (fun row mem gone =>
      (dropped row (mem_cons_of_mem _ mem) gone).tail (ne_of_mem_of_not_mem mem parts.1))
    intro row mem
    rcases mem_cons.mp mem with same | inRest
    · subst same
      cases kept : keep row with
      | true => exact ⟨row, mem_cons_self, kept, over_refl⟩
      | false =>
        rcases dropped row mem_cons_self kept with ⟨next, before, covering⟩
        rcases later next (before_head parts.1 before) with ⟨keeper, keeperMem, stays, above⟩
        exact ⟨keeper, mem_cons_of_mem _ keeperMem, stays, above.trans covering⟩
    · rcases later row inRest with ⟨keeper, keeperMem, stays, above⟩
      exact ⟨keeper, mem_cons_of_mem _ keeperMem, stays, above⟩

theorem kept_shadow (before : Before rows row later) (covering : Over later row) :
    ∃ keeper, Before rows row keeper ∧ keep keeper = true ∧ Over keeper row := by
  induction rows with
  | nil => cases before
  | cons head rest ih =>
    have parts := nodup_cons.mp nodup
    have tailDropped : ∀ other ∈ rest, keep other = false → Shadowed rest other :=
      fun other mem gone => (dropped other (mem_cons_of_mem _ mem) gone).tail
        (ne_of_mem_of_not_mem mem parts.1)
    by_cases same : row = head
    · subst same
      rcases keeper_of_mem parts.2 tailDropped later (before_head parts.1 before) with
        ⟨keeper, mem, stays, above⟩
      exact ⟨keeper, (singleton_sublist.mpr mem).cons_cons row, stays, above.trans covering⟩
    · rcases ih parts.2 tailDropped (before_tail same before) with ⟨keeper, deeper, stays, above⟩
      exact ⟨keeper, deeper.cons head, stays, above⟩

end

/-- Dropping shadowed rows changes no owner. -/
theorem owner_filter (nodup : slices.Nodup) (dropped : ∀ row ∈ slices, keep row = false →
      ∃ later, Before slices row later ∧ later.Encloses row) (p : Nat) :
    owner (slices.filter keep) p = owner slices p := by
  induction slices with
  | nil => rfl
  | cons head rest ih =>
    have parts := nodup_cons.mp nodup
    have tail := ih parts.2 (fun row mem gone => by
      rcases dropped row (mem_cons_of_mem _ mem) gone with ⟨later, before, covering⟩
      exact ⟨later, before_tail (ne_of_mem_of_not_mem mem parts.1) before, covering⟩)
    cases kept : keep head with
    | true => rw [filter_cons_of_pos kept, owner_cons, owner_cons, tail]
    | false =>
      rw [filter_cons_of_neg (by simp [kept]), owner_cons, tail]
      by_cases covers : head.Covers p
      · rcases dropped head mem_cons_self kept with ⟨later, before, covering⟩
        have mem := before_head parts.1 before
        have found : owner rest p ≠ none := fun none =>
          owner_eq_none.mp none later mem (covering.covers covers)
        cases owned : owner rest p with
        | none => exact absurd owned found
        | some slice => rfl
      · rw [if_neg covers, Option.or_none]

end Dropping

/-- What a list keeps of a label that the selected items take over. -/
theorem filterMap_map_sublist {α β γ : Type} {select : α → Option β} {label : α → γ} {kept : β → γ}
    {list : List α} (agree : ∀ a ∈ list, ∀ b, select a = some b → kept b = label a) :
    ((list.filterMap select).map kept).Sublist (list.map label) := by
  induction list with
  | nil => exact .refl _
  | cons a rest ih =>
    have tail := ih fun other mem => agree other (mem_cons_of_mem _ mem)
    cases found : select a with
    | none =>
      rw [filterMap_cons_none found]
      exact tail.cons _
    | some b =>
      rw [filterMap_cons_some found, map_cons, agree a mem_cons_self b found]
      exact tail.cons_cons _

/-- A change that keeps every row in its chunk can be made chunk by chunk. -/
theorem getSlices_filterMap
    (stay : ∀ row ∈ rows, ∀ row', change row = some row' → row'.chunkId = row.chunkId)
    (chunkId : Nat) :
    getSlices (rows.filterMap change) chunkId = (getSlices rows chunkId).filterMap change := by
  rw [getSlices, filter_filterMap, getSlices, filterMap_filter]
  apply filterMap_congr
  intro row mem
  cases kept : change row with
  | none => simp
  | some row' => simp [Option.filter, stay row mem row' kept]

/-- A change of the rows: some go, some get shorter, and a row that stays keeps a row over it. -/
structure Reworks (change : SliceDesc → Option SliceDesc) (rows : List SliceDesc) : Prop where
  shrinks : ∀ row ∈ rows, ∀ row', change row = some row' →
    row'.sliceId = row.sliceId ∧ row'.chunkId = row.chunkId ∧ row'.offset = row.offset ∧
      row'.length ≤ row.length
  shadows : ∀ row later row', Before rows row later → Over later row → change row = some row' →
    ∃ keeper keeper', Before rows row keeper ∧ change keeper = some keeper' ∧ Over keeper' row'

theorem reworks_refl (rows : List SliceDesc) : Reworks some rows where
  shrinks := by
    intro row _ row' same
    cases same
    exact ⟨rfl, rfl, rfl, le_rfl⟩
  shadows := by
    intro row later row' before covering same
    cases same
    exact ⟨later, later, before, rfl, covering⟩

/-- The change that keeps some rows as they are and drops the others. -/
def keepRow (keep : SliceDesc → Bool) (row : SliceDesc) : Option SliceDesc :=
  if keep row then some row else none

theorem filterMap_keepRow (keep : SliceDesc → Bool) (rows : List SliceDesc) :
    rows.filterMap (keepRow keep) = rows.filter keep := by
  rw [← filterMap_eq_filter]
  congr 1

variable {keep : SliceDesc → Bool}

theorem keepRow_eq_some : keepRow keep row = some row' ↔ keep row = true ∧ row' = row := by
  cases kept : keep row <;> simp [keepRow, kept, eq_comm]

theorem reworks_of_kept (shadows : ∀ row later, Before rows row later → Over later row →
    keep row = true → ∃ keeper, Before rows row keeper ∧ keep keeper = true ∧ Over keeper row) :
    Reworks (keepRow keep) rows where
  shrinks := by
    intro row _ row' kept
    rw [(keepRow_eq_some.mp kept).2]
    exact ⟨rfl, rfl, rfl, le_rfl⟩
  shadows := by
    intro row later row' before covering kept
    obtain ⟨stays, rfl⟩ := keepRow_eq_some.mp kept
    obtain ⟨keeper, first, kept, above⟩ := shadows row' later before covering stays
    exact ⟨keeper, keeper, first, keepRow_eq_some.mpr ⟨kept, rfl⟩, above⟩

theorem reworks_keep (nodup : rows.Nodup)
    (dropped : ∀ row ∈ rows, keep row = false → Shadowed rows row) :
    Reworks (keepRow keep) rows :=
  reworks_of_kept fun _ _ before covering _ => kept_shadow nodup dropped before covering

/-- Dropping whole chunks: a row and the rows over it go together. -/
theorem reworks_chunks
    (uniform : ∀ row ∈ rows, ∀ other ∈ rows, row.chunkId = other.chunkId → keep row = keep other) :
    Reworks (keepRow keep) rows := by
  refine reworks_of_kept fun row later before covering stays => ⟨later, before, ?_, covering⟩
  rw [uniform later before.mem.2 row before.mem.1 covering.1]
  exact stays

section

variable {change : SliceDesc → Option SliceDesc} {rows : List SliceDesc}

section

variable (reworks : Reworks change rows)

include reworks

theorem Reworks.mem (mem : row' ∈ rows.filterMap change) :
    ∃ row ∈ rows, change row = some row' ∧ row'.sliceId = row.sliceId ∧
      row'.chunkId = row.chunkId ∧ row'.offset = row.offset ∧ row'.length ≤ row.length := by
  rcases mem_filterMap.mp mem with ⟨row, rowMem, kept⟩
  exact ⟨row, rowMem, kept, reworks.shrinks row rowMem row' kept⟩

theorem Reworks.ids : ((rows.filterMap change).map (·.sliceId)).Sublist (rows.map (·.sliceId)) :=
  filterMap_map_sublist fun row mem row' kept => (reworks.shrinks row mem row' kept).1

theorem Reworks.chunkIds (chunkId : Nat) :
    ((getSlices (rows.filterMap change) chunkId).map (·.sliceId)).Sublist
      ((getSlices rows chunkId).map (·.sliceId)) := by
  rw [getSlices_filterMap fun row mem row' kept => (reworks.shrinks row mem row' kept).2.1]
  exact filterMap_map_sublist fun row mem row' kept =>
    (reworks.shrinks row (mem_of_mem_filter mem) row' kept).1

theorem Reworks.shadowed (kept : change row = some row') (shadowed : Shadowed rows row)
    (added : List SliceDesc) : Shadowed (rows.filterMap change ++ added) row' := by
  rcases shadowed with ⟨later, before, covering⟩
  rcases reworks.shadows row later row' before covering kept
    with ⟨keeper, keeper', first, stays, above⟩
  refine ⟨keeper', ?_, above⟩
  have mapped := first.filterMap change
  rw [filterMap_cons_some kept, filterMap_cons_some stays] at mapped
  exact mapped.trans (sublist_append_left _ _)

end

end

/-- What an earlier snapshot of a chunk still says about the rows. -/
structure Snapshot (rows : List SliceDesc) (chunkId : Nat) (slices : List SliceDesc) : Prop where
  nodup : (slices.map (·.sliceId)).Nodup
  inChunk : ∀ slice ∈ slices, slice.chunkId = chunkId
  order : (((getSlices rows chunkId).map (·.sliceId)).filter
    (fun id => (slices.map (·.sliceId)).contains id)).Sublist (slices.map (·.sliceId))
  shrunk : ∀ slice ∈ slices, ∀ row ∈ rows, row.sliceId = slice.sliceId →
    row.chunkId = chunkId ∧ row.offset = slice.offset ∧ row.length ≤ slice.length
  shadowed : ∀ slice ∈ slices, slice.sliceId ∈ lightReplaced slices →
    ∀ row ∈ rows, row.sliceId = slice.sliceId → Shadowed rows row

theorem nodup_of_ids (ids : (rows.map (·.sliceId)).Nodup) : rows.Nodup := List.Nodup.of_map _ ids

theorem eq_of_sliceId (ids : (rows.map (·.sliceId)).Nodup) {other : SliceDesc} (rowMem : row ∈ rows)
    (otherMem : other ∈ rows) (same : row.sliceId = other.sliceId) : row = other :=
  inj_on_of_nodup_map ids rowMem otherMem same

variable {chunkId : Nat}

theorem mem_getSlices : row ∈ getSlices rows chunkId ↔ row ∈ rows ∧ row.chunkId = chunkId := by
  simp [getSlices]

theorem getSlices_concat (rows : List SliceDesc) (slice : SliceDesc) (chunkId : Nat) :
    getSlices (rows ++ [slice]) chunkId = if slice.chunkId = chunkId
      then getSlices rows chunkId ++ [slice] else getSlices rows chunkId := by
  rw [getSlices, filter_append, ← getSlices]
  split <;> simp [*]

theorem snapshot_getSlices (ids : (rows.map (·.sliceId)).Nodup)
    (fits : ∀ row ∈ rows, row.stop < 2 ^ 64) (chunkId : Nat) :
    Snapshot rows chunkId (getSlices rows chunkId) where
  nodup := ids.sublist ((filter_sublist).map _)
  inChunk := fun slice mem => (mem_getSlices.mp mem).2
  order := filter_sublist
  shrunk := by
    intro slice mem row rowMem same
    have facts := mem_getSlices.mp mem
    rw [eq_of_sliceId ids rowMem facts.1 same]
    exact ⟨facts.2, rfl, le_rfl⟩
  shadowed := by
    intro slice mem replaced row rowMem same
    have facts := mem_getSlices.mp mem
    rw [eq_of_sliceId ids rowMem facts.1 same]
    rcases append_of_mem mem with ⟨older, newer, split⟩
    have small : ∀ other ∈ getSlices rows chunkId, other.stop < 2 ^ 64 :=
      fun other mem => fits other (mem_getSlices.mp mem).1
    rw [split] at replaced small
    obtain ⟨later, laterMem, encloses⟩ : ∃ later ∈ newer, later.Encloses slice := by
      unfold lightReplaced at replaced
      split at replaced
      · cases replaced
      · exact enclosed_of_replaced small replaced
    have inSlices : later ∈ getSlices rows chunkId := by
      rw [split]
      exact mem_append_right _ (mem_cons_of_mem _ laterMem)
    have before : Before (getSlices rows chunkId) slice later := by
      rw [split]
      exact ((singleton_sublist.mpr laterMem).cons_cons slice).trans
        (sublist_append_right _ _)
    refine ⟨later, before.trans filter_sublist, ?_, encloses⟩
    rw [(mem_getSlices.mp inSlices).2, facts.2]

/-- A snapshot stays true when rows shrink or go and other ids are added. -/
theorem Snapshot.rework {added : List SliceDesc} (snapshot : Snapshot rows chunkId slices)
    (reworks : Reworks change rows)
    (fresh : ∀ row ∈ added, ∀ slice ∈ slices, row.sliceId ≠ slice.sliceId) :
    Snapshot (rows.filterMap change ++ added) chunkId slices where
  nodup := snapshot.nodup
  inChunk := snapshot.inChunk
  order := by
    have none : ((getSlices added chunkId).map (·.sliceId)).filter
        (fun id => (slices.map (·.sliceId)).contains id) = [] := by
      rw [filter_eq_nil_iff]
      intro id mem held
      rcases mem_map.mp mem with ⟨row, rowMem, rfl⟩
      have inSlices : row.sliceId ∈ slices.map (·.sliceId) := by simpa using held
      rcases mem_map.mp inSlices with ⟨slice, sliceMem, same⟩
      exact fresh row (mem_getSlices.mp rowMem).1 slice sliceMem same.symm
    have split : getSlices (rows.filterMap change ++ added) chunkId =
        getSlices (rows.filterMap change) chunkId ++ getSlices added chunkId :=
      filter_append _ _
    rw [split, map_append, filter_append, none, append_nil]
    exact ((reworks.chunkIds chunkId).filter _).trans snapshot.order
  shrunk := by
    intro slice sliceMem row' mem same
    rcases mem_append.mp mem with old | new
    · rcases reworks.mem old with ⟨row, rowMem, _, id, chunk, offset, length⟩
      have facts := snapshot.shrunk slice sliceMem row rowMem (by rw [← id, same])
      exact ⟨by rw [chunk, facts.1], by rw [offset, facts.2.1], by omega⟩
    · exact absurd same (fresh row' new slice sliceMem)
  shadowed := by
    intro slice sliceMem replaced row' mem same
    rcases mem_append.mp mem with old | new
    · rcases reworks.mem old with ⟨row, rowMem, kept, id, _⟩
      exact reworks.shadowed kept
        (snapshot.shadowed slice sliceMem replaced row rowMem (by rw [← id, same])) added
    · exact absurd same (fresh row' new slice sliceMem)

/-- When count, ids, offsets and lengths agree, the chunk's rows are the snapshot. -/
theorem Snapshot.current (snapshot : Snapshot rows chunkId slices)
    (ids : (rows.map (·.sliceId)).Nodup)
    (version : versionMatches (getSlices rows chunkId) slices = true) :
    getSlices rows chunkId = slices := by
  simp only [versionMatches, Bool.and_eq_true, beq_iff_eq, all_eq_true] at version
  have nodup : ((getSlices rows chunkId).map (·.sliceId)).Nodup :=
    ids.sublist ((filter_sublist).map _)
  -- every snapshot slice is a row of the chunk, unchanged
  have present : ∀ slice ∈ slices, slice ∈ getSlices rows chunkId := by
    intro slice mem
    have checked := version.2 slice mem
    cases entry : currentEntry (getSlices rows chunkId) slice.sliceId with
    | none => simp [entry] at checked
    | some row =>
      have rowMem : row ∈ getSlices rows chunkId :=
        mem_reverse.mp (mem_of_find?_eq_some entry)
      have rowId : row.sliceId = slice.sliceId := by simpa using find?_some entry
      have same : row = slice := by
        cases row
        cases slice
        have inChunk := snapshot.inChunk _ mem
        have rowChunk := (mem_getSlices.mp rowMem).2
        simp_all
      exact same ▸ rowMem
  have subset : slices.map (·.sliceId) ⊆ (getSlices rows chunkId).map (·.sliceId) := by
    intro id mem
    rcases mem_map.mp mem with ⟨slice, sliceMem, rfl⟩
    exact mem_map.mpr ⟨slice, present slice sliceMem, rfl⟩
  have perm : (slices.map (·.sliceId)).Perm ((getSlices rows chunkId).map (·.sliceId)) :=
    (subperm_of_subset snapshot.nodup subset).perm_of_length_le (by simp [version.1])
  have whole : ((getSlices rows chunkId).map (·.sliceId)).filter
      (fun id => (slices.map (·.sliceId)).contains id) =
      (getSlices rows chunkId).map (·.sliceId) := by
    rw [filter_eq_self]
    intro id mem
    simpa using perm.symm.subset mem
  have order := snapshot.order
  rw [whole] at order
  have sameIds := order.eq_of_length (by simp [version.1])
  -- equal id lists, and each id names one row
  apply ext_getElem?
  intro i
  have at_i := congrArg (fun ids => ids[i]?) sameIds
  simp only [getElem?_map] at at_i
  cases row : (getSlices rows chunkId)[i]? with
  | none =>
    rw [row] at at_i
    exact (Option.map_eq_none_iff.mp at_i.symm).symm
  | some current =>
    rw [row] at at_i
    rcases Option.map_eq_some_iff.mp at_i.symm with ⟨slice, found, same⟩
    rw [found]
    congr 1
    exact eq_of_sliceId nodup (mem_of_getElem? row) (present slice (mem_of_getElem? found))
      same.symm

end BrewFs.Chunk.Compact
