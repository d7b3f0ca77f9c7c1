import BrewFs.Library.Layers
import BrewFs.Library.Slots
import BrewFs.Vfs.Cache.Page

/-! What the operations on a slice do to its bytes and to its written ranges. -/

namespace BrewFs.Vfs

open BrewFs.Interval BrewFs.Layers List
open List (forall_mem_cons mem_cons mem_cons_self pairwise_cons)

variable {cfg : WriteConfig} {buf : List UInt8} {pages written : Nat → Option Page} {p : Nat}

/-! ### Bytes -/

/-- A byte of the pages; a missing page reads as zeros. -/
def pageByte (cfg : WriteConfig) (pages : Nat → Option Page) (p : Nat) : UInt8 :=
  match pages (p / cfg.pageSize) with
  | some page => page.bytes (p % cfg.pageSize)
  | none => 0

theorem CacheSlice.byteAt_eq (s : CacheSlice) (p : Nat) :
    s.byteAt cfg p = pageByte cfg s.pages p := rfl

theorem writeByte_byte {byte : UInt8} (done : writeByte cfg pages p byte = some written) (q : Nat) :
    pageByte cfg written q = if q = p then byte else pageByte cfg pages q := by
  obtain ⟨_, ⟨⟩⟩ := Option.ite_none_left_eq_some.mp done
  unfold pageByte
  by_cases page : q / cfg.pageSize = p / cfg.pageSize
  · rw [page, Function.update_self]
    dsimp only
    by_cases here : q = p
    · rw [if_pos here, here, Function.update_self]
    have apart : q % cfg.pageSize ≠ p % cfg.pageSize := fun place => here (by
      rw [← Nat.div_add_mod q cfg.pageSize, page, place, Nat.div_add_mod])
    rw [if_neg here, Function.update_of_ne apart]
    cases pages (p / cfg.pageSize) with
    | none => rfl
    | some old => rfl
  · have here : q ≠ p := fun same => page (by rw [same])
    rw [if_neg here, Function.update_of_ne page]

/-- The pages hold the buffer where it was written, else their old bytes. -/
theorem writeBytes_byte {offset : Nat} (done : writeBytes cfg pages offset buf = some written)
    (q : Nat) :
    pageByte cfg written q = (patchLayer (offset, buf) q).getD (pageByte cfg pages q) := by
  induction buf generalizing pages offset with
  | nil =>
    cases done
    simp [patchLayer]
  | cons byte rest ih =>
    obtain ⟨middle, first, later⟩ := Option.bind_eq_some_iff.mp done
    rw [ih later, writeByte_byte first]
    unfold patchLayer
    rcases Nat.lt_trichotomy q offset with before | here | behind
    · rw [if_neg (by omega), if_neg (by omega), if_neg (by omega)]
    · rw [if_neg (by omega), if_pos here, if_pos (by omega), here, Nat.sub_self]
      rfl
    · rw [if_pos (by omega), if_neg (by omega), if_pos (by omega),
        show q - offset = q - (offset + 1) + 1 by omega, getElem?_cons_succ]

theorem writeBytes_append (cfg : WriteConfig) (pages : Nat → Option Page) (offset : Nat)
    (first second : List UInt8) :
    writeBytes cfg pages offset (first ++ second) =
      (writeBytes cfg pages offset first).bind fun middle =>
        writeBytes cfg middle (offset + first.length) second := by
  induction first generalizing pages offset with
  | nil => rfl
  | cons byte rest ih =>
    simp only [cons_append, writeBytes, Option.bind_assoc, length_cons]
    refine congrArg _ (funext fun written => ?_)
    rw [ih, Nat.add_assoc, Nat.add_comm 1]

theorem writeBytes_split (pages : Nat → Option Page) (offset : Nat) {count : Nat}
    (inside : count ≤ buf.length) : writeBytes cfg pages offset buf =
      (writeBytes cfg pages offset (buf.take count)).bind fun middle =>
        writeBytes cfg middle (offset + count) (buf.drop count) := by
  have halves := writeBytes_append cfg pages offset (buf.take count) (buf.drop count)
  rwa [take_append_drop, length_take, Nat.min_eq_left inside] at halves

/-! ### Written ranges -/

/-- The maximal intervals of a set of positions, from left to right. -/
structure Runs (ranges : List (Nat × Nat)) (written : Nat → Prop) : Prop where
  proper : ∀ range ∈ ranges, range.1 < range.2
  apart : ranges.Pairwise fun a b => a.2 < b.1
  points : ∀ p, (∃ range ∈ ranges, Within range p) ↔ written p

theorem Runs.nil : Runs [] fun _ => False := ⟨fun _ none => (by cases none), .nil, fun p => by simp⟩

theorem exists_within_cons (range : Nat × Nat) (rest : List (Nat × Nat)) (p : Nat) :
    (∃ other ∈ range :: rest, Within other p) ↔ Within range p ∨
      ∃ other ∈ rest, Within other p := by
  simp

variable {ranges : List (Nat × Nat)}

theorem Runs.congr {first second : Nat → Prop} (runs : Runs ranges first)
    (same : ∀ p, first p ↔ second p) : Runs ranges second :=
  ⟨runs.proper, runs.apart, fun p => (runs.points p).trans (same p)⟩

theorem recordLoop_inserted {merged : Nat × Nat}
    (behind : ∀ range ∈ ranges, merged.2 < range.1) (proper : ∀ range ∈ ranges, range.1 < range.2)
    (forward : merged.1 ≤ merged.2) : recordLoop merged true ranges = ranges := by
  induction ranges with
  | nil => rfl
  | cons range rest ih =>
    rw [forall_mem_cons] at behind proper
    have later := ih behind.2 proper.2
    rw [recordLoop, if_neg (by omega), if_pos behind.1, if_pos rfl, later]

/-- What starts behind a bound still does after the insertion. -/
theorem recordLoop_bound (merged : Nat × Nat) {bound : Nat}
    (start : bound < merged.1) (behind : ∀ range ∈ ranges, bound < range.1) :
    ∀ inserted, ∀ range ∈ recordLoop merged inserted ranges, bound < range.1 := by
  induction ranges generalizing merged with
  | nil => intro inserted; cases inserted <;> simp [recordLoop, start]
  | cons first rest ih =>
    intro inserted
    rw [forall_mem_cons] at behind
    have later := ih merged start behind.2
    unfold recordLoop
    split
    · exact forall_mem_cons.mpr ⟨behind.1, later inserted⟩
    split
    · split
      · exact forall_mem_cons.mpr ⟨behind.1, later true⟩
      · exact forall_mem_cons.mpr ⟨start, forall_mem_cons.mpr ⟨behind.1, later true⟩⟩
    · exact ih _ (Nat.lt_min.mpr ⟨start, behind.1⟩) behind.2 inserted

variable {written : Nat → Prop} {len : Nat}

theorem recordLoop_runs (merged : Nat × Nat) (runs : Runs ranges written)
    (forward : merged.1 < merged.2) :
    Runs (recordLoop merged false ranges) fun p => written p ∨ Within merged p := by
  induction ranges generalizing merged written with
  | nil =>
    have empty : ∀ p, ¬ written p := fun p held => by
      obtain ⟨_, listed, _⟩ := (runs.points p).mpr held
      cases listed
    refine ⟨?_, pairwise_singleton _ _, fun p => ?_⟩
    · intro range listed
      obtain rfl := mem_singleton.mp listed
      exact forward
    · simp [recordLoop, empty p]
  | cons range rest ih =>
    obtain ⟨proper, properRest⟩ := forall_mem_cons.mp runs.proper
    obtain ⟨separate, apart⟩ := pairwise_cons.mp runs.apart
    have restRuns : Runs rest fun p => ∃ other ∈ rest, Within other p :=
      ⟨properRest, apart, fun p => Iff.rfl⟩
    have points : ∀ p, written p ↔ Within range p ∨ ∃ other ∈ rest, Within other p := by
      intro p
      rw [← runs.points, exists_within_cons]
    unfold recordLoop
    split
    · -- the range ends before the new one
      rename_i before
      have later := ih merged restRuns forward
      refine ⟨forall_mem_cons.mpr ⟨proper, later.proper⟩,
        pairwise_cons.mpr ⟨?_, later.apart⟩, fun p => ?_⟩
      · exact recordLoop_bound merged before separate false
      · rw [exists_within_cons, later.points, points, or_assoc]
    · split
      · -- the new range is complete
        rename_i after
        have behind : ∀ other ∈ rest, merged.2 < other.1 :=
          fun other listed => after.trans (Nat.lt_trans proper (separate other listed))
        rw [if_neg Bool.false_ne_true, recordLoop_inserted behind properRest forward.le]
        refine ⟨forall_mem_cons.mpr ⟨forward, runs.proper⟩,
          pairwise_cons.mpr ⟨forall_mem_cons.mpr ⟨after, behind⟩, runs.apart⟩, fun p => ?_⟩
        rw [exists_within_cons, runs.points, or_comm]
      · -- the two are merged
        have widened := ih (min merged.1 range.1, max merged.2 range.2) restRuns (by omega)
        refine widened.congr fun p => ?_
        have union : Within (min merged.1 range.1, max merged.2 range.2) p ↔
            Within range p ∨ Within merged p := by
          simp only [Within]
          omega
        rw [points, union, or_left_comm, or_assoc]

theorem recordWritten_runs (runs : Runs ranges written) (start stop : Nat) :
    Runs (recordWritten ranges start stop) fun p => written p ∨ Within (start, stop) p := by
  unfold recordWritten
  split
  · refine runs.congr fun p => ⟨.inl, fun either => either.resolve_right ?_⟩
    intro inside
    simp only [Within] at inside
    omega
  · exact recordLoop_runs (start, stop) runs (by omega)

theorem truncateWritten_runs (runs : Runs ranges written) (len : Nat) :
    Runs (ranges.filterMap fun range => if len ≤ range.1 then none else
      some (range.1, min range.2 len))
      fun p => written p ∧ p < len := by
  have kept : ∀ part : Nat × Nat, part ∈ ranges.filterMap (fun range =>
      if len ≤ range.1 then none else some (range.1, min range.2 len)) ↔
      ∃ range ∈ ranges, range.1 < len ∧ part = (range.1, min range.2 len) := by
    intro part
    simp only [mem_filterMap, Option.ite_none_left_eq_some, Option.some.injEq, Nat.not_le]
    exact exists_congr fun range => and_congr_right fun _ => and_congr_right fun _ => eq_comm
  refine ⟨?_, ?_, fun p => ?_⟩
  · intro part listed
    obtain ⟨range, mem, below, rfl⟩ := (kept part).mp listed
    have := runs.proper range mem
    omega
  · refine List.Pairwise.filterMap _ ?_ runs.apart
    intro a b apart first firstOf second secondOf
    simp only [Option.ite_none_left_eq_some, Option.some.injEq] at firstOf secondOf
    obtain ⟨_, rfl⟩ := firstOf
    obtain ⟨_, rfl⟩ := secondOf
    exact (Nat.min_le_left _ _).trans_lt apart
  · rw [← runs.points]
    constructor
    · rintro ⟨part, listed, inside⟩
      obtain ⟨range, mem, _, rfl⟩ := (kept part).mp listed
      simp only [Within] at inside
      exact ⟨⟨range, mem, inside.1, by omega⟩, by omega⟩
    rintro ⟨⟨range, mem, inside⟩, below⟩
    refine ⟨(range.1, min range.2 len), (kept _).mpr ⟨range, mem, ?_, rfl⟩, ?_⟩
    · exact inside.1.trans_lt below
    · simp only [Within] at inside ⊢
      omega

theorem Runs.eq_singleton (runs : Runs ranges fun p => p < len) (filled : 0 < len) :
    ranges = [(0, len)] := by
  obtain ⟨proper, apart, points⟩ := runs
  cases ranges with
  | nil =>
    obtain ⟨_, listed, _⟩ := (points 0).mpr filled
    cases listed
  | cons first rest =>
    obtain ⟨separate, _⟩ := pairwise_cons.mp apart
    have cover : ∀ p < len, first.1 ≤ p ∧ p < first.2 ∨ first.2 < p := by
      intro p below
      obtain ⟨other, listed, within⟩ := (points p).mpr below
      rcases mem_cons.mp listed with rfl | later
      · exact .inl within
      · exact .inr ((separate other later).trans_le within.1)
    have start := cover 0 filled
    -- the next position behind the first range belongs to no range
    have stop := cover first.2
    have last := (points (first.2 - 1)).mp ⟨first, mem_cons_self, by simp only [Within]; omega⟩
    have alone : rest = [] := by
      refine eq_nil_iff_forall_not_mem.mpr fun other later => ?_
      have behind := separate other later
      have mem := mem_cons_of_mem first later
      have := (points other.1).mp ⟨other, mem, le_rfl, proper other mem⟩
      omega
    congr 1
    exact Prod.ext (by omega) (by omega)

/-- The loop of `contiguous_written_len` stops at the first unwritten position. -/
theorem contiguousFrom_spec (cursor : Nat) (runs : Runs ranges written)
    (behind : ∀ range ∈ ranges, cursor < range.1 ∨ cursor = 0) :
    (∀ p, cursor ≤ p → p < contiguousFrom cursor ranges → written p) ∧
      cursor ≤ contiguousFrom cursor ranges ∧ ¬ written (contiguousFrom cursor ranges) := by
  induction ranges generalizing cursor written with
  | nil =>
    have empty : ∀ p, ¬ written p := fun p held => by
      obtain ⟨_, listed, _⟩ := (runs.points p).mpr held
      cases listed
    exact ⟨fun p lower upper => absurd upper (not_lt.mpr lower), le_rfl, empty _⟩
  | cons range rest ih =>
    obtain ⟨proper, properRest⟩ := forall_mem_cons.mp runs.proper
    obtain ⟨separate, apart⟩ := pairwise_cons.mp runs.apart
    unfold contiguousFrom
    split
    · -- a gap before the first range
      rename_i gap
      refine ⟨fun p lower upper => absurd upper (not_lt.mpr lower), le_rfl, ?_⟩
      intro held
      obtain ⟨other, listed, inside⟩ := (runs.points cursor).mpr held
      rcases mem_cons.mp listed with rfl | later
      · exact absurd inside.1 (not_le.mpr gap)
      · exact absurd inside.1 (not_le.mpr (by have := separate other later; omega))
    · -- the first range starts at the beginning; the next ones lie behind a gap
      rename_i starts
      have zero : cursor = 0 := by
        rcases behind range mem_cons_self with later | zero
        · exact absurd later starts
        · exact zero
      have restRuns : Runs rest fun p => ∃ other ∈ rest, Within other p :=
        ⟨properRest, apart, fun p => Iff.rfl⟩
      have top : max cursor range.2 = range.2 := by omega
      rw [top]
      obtain ⟨filled, rises, stops⟩ := ih range.2 restRuns
        (fun other listed => .inl (separate other listed))
      refine ⟨fun p lower upper => ?_, by omega, fun held => ?_⟩
      · rw [← runs.points]
        by_cases inside : p < range.2
        · exact ⟨range, mem_cons_self, by omega, inside⟩
        · obtain ⟨other, listed, within⟩ := filled p (by omega) upper
          exact ⟨other, mem_cons_of_mem _ listed, within⟩
      obtain ⟨other, listed, inside⟩ := (runs.points _).mpr held
      rcases mem_cons.mp listed with rfl | later
      · exact absurd inside.2 (not_lt.mpr rises)
      · exact stops ⟨other, later, inside⟩

namespace CacheSlice

variable {s shorter : CacheSlice}

theorem contiguousWrittenLen_spec {written : Nat → Prop} (runs : Runs s.writtenRanges written)
    (below : ∀ p, written p → p < s.len) :
    (∀ p < s.contiguousWrittenLen, written p) ∧ ¬ written s.contiguousWrittenLen := by
  obtain ⟨filled, _, stops⟩ := contiguousFrom_spec 0 runs (fun _ _ => .inr rfl)
  unfold contiguousWrittenLen
  refine ⟨fun p inside => filled p (Nat.zero_le p) (by omega), fun held => ?_⟩
  have inside := below _ held
  have cut : min (contiguousFrom 0 s.writtenRanges) s.len = contiguousFrom 0 s.writtenRanges := by
    omega
  rw [cut] at held
  exact stops held

theorem length_copyInto (s : CacheSlice) (offset size : Nat) :
    (s.copyInto cfg offset size).length = min size (s.len - offset) := by
  simp [copyInto]

variable {offset : Nat}

theorem getElem?_copyInto (s : CacheSlice) {size i : Nat} (inside : i < size)
    (below : offset + i < s.len) :
    (s.copyInto cfg offset size)[i]? = some (s.byteAt cfg (offset + i)) := by
  rw [copyInto, getElem?_map, getElem?_range (by omega)]
  rfl

theorem truncate_byteAt (done : s.truncate cfg len = some shorter) (below : p < len) :
    shorter.byteAt cfg p = s.byteAt cfg p := by
  unfold truncate at done
  split at done
  · cases done
  split at done <;> cases done
  · rfl
  have page : ¬ (len + cfg.pageSize - 1) / cfg.pageSize ≤ p / cfg.pageSize := by
    have pos := cfg.pageSize_pos
    rw [Nat.not_le, Nat.div_lt_iff_lt_mul pos, Nat.mul_comm]
    have whole := Nat.div_add_mod (len + cfg.pageSize - 1) cfg.pageSize
    have rest := Nat.mod_lt (len + cfg.pageSize - 1) pos
    omega
  simp only [byteAt, page, if_false]

theorem truncate_spec (done : s.truncate cfg len = some shorter) :
    len ≤ s.len ∧ (∀ i, ∀ page ∈ shorter.pages i, page ∈ s.pages i) ∧
      ∀ written, Runs s.writtenRanges written → (∀ p, written p → p < s.len) →
        Runs shorter.writtenRanges fun p => written p ∧ p < len := by
  unfold truncate at done
  split at done
  · cases done
  rename_i within
  refine ⟨not_lt.mp within, ?_⟩
  split at done
  · rename_i same
    cases done
    refine ⟨fun _ _ => id, fun written runs below => runs.congr fun p => ?_⟩
    exact ⟨fun held => ⟨held, same ▸ below p held⟩, And.left⟩
  cases done
  refine ⟨fun i page found => ?_, fun written runs _ => truncateWritten_runs runs len⟩
  dsimp only at found
  split at found
  · cases found
  · exact found

theorem write_spec {next : CacheSlice} {allowGap : Bool} {action : WriteAction}
    (able : s.canWriteWithGap cfg offset buf.length allowGap = some action)
    (done : s.write cfg offset buf action = some next) :
    next.len = max s.len (offset + buf.length) ∧
      next.writtenRanges = recordWritten s.writtenRanges offset (offset + buf.length) ∧
      writeBytes cfg s.pages offset buf = some next.pages := by
  unfold canWriteWithGap at able
  split at able
  · rename_i here
    cases able
    obtain rfl : s.len = offset := by simpa [canAppend] using here
    simp only [write, append, writeAt, Option.ite_none_right_eq_some, Option.map_eq_some_iff]
      at done
    obtain ⟨_, _, ⟨pages, filled, rfl⟩, rfl⟩ := done
    exact ⟨by simp only; omega, rfl, filled⟩
  · split at able
    · rename_i inside
      cases able
      simp only [canWriteAt, decide_eq_true_eq] at inside
      simp only [write, writeAt, Option.map_eq_some_iff] at done
      obtain ⟨pages, filled, rfl⟩ := done
      exact ⟨by simp only; omega, rfl, filled⟩
    obtain ⟨gap, ⟨⟩⟩ := Option.ite_none_right_eq_some.mp able
    simp only [canGapAppend, Bool.and_eq_true, decide_eq_true_eq] at gap
    simp only [write, gapAppend, writeAt, Option.ite_none_right_eq_some,
      Option.map_eq_some_iff] at done
    obtain ⟨_, _, ⟨pages, filled, rfl⟩, rfl⟩ := done
    exact ⟨by simp only; omega, rfl, filled⟩

/-- Writes behind the frozen pages always succeed. -/
theorem writeBytes_isSome (cfg : WriteConfig) {first : Nat}
    (mutable : ∀ i, first ≤ i → ∀ page ∈ pages i, page.frozen = false)
    (behind : first ≤ offset / cfg.pageSize) (buf : List UInt8) :
    ∃ written, writeBytes cfg pages offset buf = some written ∧
      ∀ i, first ≤ i → ∀ page ∈ written i, page.frozen = false := by
  induction buf generalizing pages offset with
  | nil => exact ⟨pages, rfl, mutable⟩
  | cons byte rest ih =>
    have unfrozen : ((pages (offset / cfg.pageSize)).getD Page.new).frozen = false := by
      cases found : pages (offset / cfg.pageSize) with
      | none => rfl
      | some page => exact mutable _ behind page found
    unfold writeBytes writeByte
    simp only [unfrozen]
    refine ih ?_ (behind.trans (Nat.div_le_div_right (Nat.le_succ offset)))
    intro i later page found
    rcases Slots.mem_put found with ⟨_, rfl⟩ | ⟨_, old⟩
    · rfl
    · exact mutable i later page old

end CacheSlice

end BrewFs.Vfs
