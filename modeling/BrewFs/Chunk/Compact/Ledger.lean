import BrewFs.Chunk.Compact.Transparency

/- The ledger of physical extents: which record answers for the blocks of a slice that lost its
full-length mapping. -/
namespace BrewFs.Meta.Database

open BrewFs.Chunk BrewFs.Chunk.Compact List

variable {row : DelayedRow} {bound : Nat}

theorem retainedFor_iff {slice : SliceDesc} : retainedFor slice row = true ↔
      row.chunkId = slice.chunkId ∧ row.sliceId = slice.sliceId ∧ row.status = .retained := by
  simp only [retainedFor, Bool.and_eq_true, beq_iff_eq, and_assoc]

/-- At most one retained record for a slice of a chunk. -/
def SingleRetained (table : DelayedTable) : Prop :=
  ∀ row ∈ table.rows, ∀ other ∈ table.rows, row.status = .retained → other.status = .retained →
    row.chunkId = other.chunkId → row.sliceId = other.sliceId → row = other

section Stage

variable {table : DelayedTable} {slice : SliceDesc} {retained : Bool}

/-- Records of other slices, and those already open to collection, stay. -/
theorem stage_keeps (distinct : (table.rows.map (·.id)).Nodup) (mem : row ∈ table.rows)
    (other : ¬ retainedFor slice row = true) :
    row ∈ (stageSliceReclamation table slice retained).rows := by
  unfold stageSliceReclamation
  dsimp only
  split
  · rename_i previous found
    refine mem_map.mpr ⟨row, mem, if_neg ?_⟩
    intro same
    have only := inj_on_of_nodup_map distinct mem (mem_of_find?_eq_some found) same
    exact other (only ▸ find?_some found)
  · exact mem_append_left _ mem

/-- The staged record covers the slice and the record it takes over; no other record is retained
for the slice. -/
theorem stage_covers (single : SingleRetained table) :
    ∃ row ∈ (stageSliceReclamation table slice retained).rows,
      row.sliceId = slice.sliceId ∧ row.chunkId = slice.chunkId ∧
      row.status = (if retained then .retained else .pending) ∧ slice.length ≤ row.size ∧
      (∀ previous ∈ table.rows, retainedFor slice previous = true → previous.size ≤ row.size) ∧
      ∀ other ∈ (stageSliceReclamation table slice retained).rows,
        other = row ∨ other ∈ table.rows ∧ ¬ retainedFor slice other = true := by
  unfold stageSliceReclamation
  dsimp only
  split
  · rename_i previous found
    have mem := mem_of_find?_eq_some found
    have matched := retainedFor_iff.mp (find?_some found)
    have only : ∀ other ∈ table.rows, retainedFor slice other = true → other = previous := by
      intro other otherMem holds
      have facts := retainedFor_iff.mp holds
      exact single other otherMem previous mem facts.2.2 matched.2.2
        (by rw [facts.1, matched.1]) (by rw [facts.2.1, matched.2.1])
    refine ⟨_, mem_map.mpr ⟨previous, mem, if_pos rfl⟩, rfl, rfl, rfl, Nat.le_max_left _ _, ?_, ?_⟩
    · intro other otherMem holds
      rw [only other otherMem holds]
      exact Nat.le_max_right _ _
    intro other otherMem
    obtain ⟨before, beforeMem, rfl⟩ := mem_map.mp otherMem
    split
    · exact .inl rfl
    · rename_i differs
      exact .inr ⟨beforeMem, fun holds => differs (only before beforeMem holds ▸ rfl)⟩
  · rename_i none
    have absent := List.find?_eq_none.mp none
    refine ⟨_, mem_append_right _ (mem_singleton.mpr rfl), rfl, rfl, rfl, le_rfl,
      fun other otherMem holds => absurd holds (absent other otherMem), ?_⟩
    intro other otherMem
    exact (mem_append.mp otherMem).elim (fun old => .inr ⟨old, absent other old⟩)
      fun new => .inl (mem_singleton.mp new)

theorem stage_single (single : SingleRetained table) :
    SingleRetained (stageSliceReclamation table slice retained) := by
  obtain ⟨made, _, id, madeChunk, _, _, _, others⟩ := stage_covers single
  intro row mem other otherMem status otherStatus chunk same
  rcases others row mem with rfl | ⟨old, apart⟩ <;>
    rcases others other otherMem with rfl | ⟨old', apart'⟩
  · rfl
  · exact absurd (retainedFor_iff.mpr ⟨chunk ▸ madeChunk, same ▸ id, otherStatus⟩) apart'
  · exact absurd (retainedFor_iff.mpr ⟨chunk ▸ madeChunk, same ▸ id, status⟩) apart
  · exact single row old other old' status otherStatus chunk same

theorem stage_sizes (small : slice.length ≤ bound) (sizes : ∀ row ∈ table.rows, row.size ≤ bound) :
    ∀ row ∈ (stageSliceReclamation table slice retained).rows, row.size ≤ bound := by
  intro row mem
  unfold stageSliceReclamation at mem
  dsimp only at mem
  split at mem
  · rename_i previous found
    obtain ⟨before, beforeMem, rfl⟩ := mem_map.mp mem
    split
    · exact Nat.max_le.mpr ⟨small, sizes previous (mem_of_find?_eq_some found)⟩
    · exact sizes before beforeMem
  rcases mem_append.mp mem with old | new
  · exact sizes row old
  · rw [mem_singleton.mp new]
    exact small

end Stage

section StageAll

variable {staged : List (SliceDesc × Bool)} {table : DelayedTable}

theorem stageAll_sizes (small : ∀ item ∈ staged, item.1.length ≤ bound)
    (sizes : ∀ row ∈ table.rows, row.size ≤ bound) :
    ∀ row ∈ (stageAll table staged).rows, row.size ≤ bound := by
  induction staged generalizing table with
  | nil => exact sizes
  | cons item rest ih =>
    exact ih (fun later mem => small later (mem_cons_of_mem _ mem))
      (stage_sizes (small item mem_cons_self) sizes)

variable (records : ∀ row ∈ table.rows, row.id < table.seq)
  (distinct : (table.rows.map (·.id)).Nodup)

include records distinct

theorem stageAll_keeps (mem : row ∈ table.rows)
    (others : ∀ item ∈ staged, ¬ retainedFor item.1 row = true) :
    row ∈ (stageAll table staged).rows := by
  induction staged generalizing table with
  | nil => exact mem
  | cons item rest ih =>
    have extend := extends_stage table item.1 item.2
    exact ih (extend.below records) (extend.distinct records distinct)
      (stage_keeps distinct mem (others item mem_cons_self))
      (fun later laterMem => others later (mem_cons_of_mem _ laterMem))

theorem stageAll_single (single : SingleRetained table) :
    SingleRetained (stageAll table staged) := by
  induction staged generalizing table with
  | nil => exact single
  | cons item rest ih =>
    have extend := extends_stage table item.1 item.2
    exact ih (extend.below records) (extend.distinct records distinct) (stage_single single)

/-- Every staged slice gets a record covering it and what was retained for it. -/
theorem stageAll_covers (single : SingleRetained table)
    (ids : (staged.map (·.1.sliceId)).Nodup) {item : SliceDesc × Bool} (mem : item ∈ staged) :
    ∃ row ∈ (stageAll table staged).rows,
      row.sliceId = item.1.sliceId ∧ row.chunkId = item.1.chunkId ∧
      row.status = (if item.2 then .retained else .pending) ∧ item.1.length ≤ row.size ∧
      ∀ previous ∈ table.rows, retainedFor item.1 previous = true → previous.size ≤ row.size := by
  induction staged generalizing table with
  | nil => cases mem
  | cons first rest ih =>
    have extend := extends_stage table first.1 first.2
    have parts := nodup_cons.mp ids
    rcases mem_cons.mp mem with same | later
    · subst same
      rcases stage_covers single with ⟨row, rowMem, slice, chunk, status, size, covering, _⟩
      refine ⟨row, ?_, slice, chunk, status, size, covering⟩
      apply stageAll_keeps (extend.below records) (extend.distinct records distinct) rowMem
      -- the later slices have other ids
      intro other otherMem matched
      apply parts.1
      exact mem_map.mpr ⟨other, otherMem, (retainedFor_iff.mp matched).2.1.symm.trans slice⟩
    · rcases ih (extend.below records) (extend.distinct records distinct)
        (stage_single single) parts.2 later with
        ⟨row, rowMem, slice, chunk, status, size, covering⟩
      refine ⟨row, rowMem, slice, chunk, status, size, ?_⟩
      intro previous previousMem matched
      refine covering previous (stage_keeps distinct previousMem fun clash => ?_) matched
      apply parts.1
      exact mem_map.mpr ⟨item, later,
        (retainedFor_iff.mp matched).2.1.symm.trans (retainedFor_iff.mp clash).2.1⟩

end StageAll

end BrewFs.Meta.Database
