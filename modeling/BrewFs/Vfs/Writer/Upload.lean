import BrewFs.Library.Run
import BrewFs.Vfs.Writer.SliceState

/-! The upload of a slice: batches of blocks are handed out, complete and fail in any order. -/

namespace BrewFs.Vfs

open BrewFs.Interval List Option SliceState
open SliceState (doneUpTo hasIdleBlock markBlocks pendingStart planRange uploadReadyLen uploadsTail)

/-- A slice with its upload batches. -/
structure Uploads where
  slice : SliceState
  /-- Batches under way. -/
  pending : List (Nat × Nat)
  /-- Batches that have failed. -/
  lost : List (Nat × Nat)
  /-- Batches reported as uploaded. -/
  reported : List (Nat × Nat)

inductive UploadAction where
  | write (offset : Nat) (buf : List UInt8) (allowGapFrom : Option Nat)
  | freeze (dataEpoch : Nat)
  | setSliceId (id : Nat)
  | prepare
  | complete (batch : Nat × Nat)
  | failBatch (batch : Nat × Nat) (message : String)
  /-- A failure outside the batches: persisting, sealing, a stalled upload, a commit. -/
  | fail (message : String)
  | commit
  | split

namespace Uploads

/-- A new slice. -/
def init (chunkId offset creationUnique : Nat) : Uploads :=
  ⟨SliceState.new chunkId offset creationUnique, [], [], []⟩

variable (cfg : WriteConfig)

def step (s : Uploads) : UploadAction → Option Uploads
  | .write offset buf allowGapFrom =>
    (s.slice.tryWrite cfg offset buf allowGapFrom).map fun result =>
      { s with slice := result.2 }
  | .freeze dataEpoch => some { s with slice := (s.slice.freeze cfg dataEpoch).2 }
  | .setSliceId id => some { s with slice := s.slice.setSliceId id }
  | .prepare =>
    match s.slice.prepareUpload cfg with
    | none => some s
    | some (plan, slice) =>
      some { s with slice := slice, pending := s.pending ++ [planRange plan] }
  | .complete batch =>
    if batch ∈ s.pending then
      some { s with
        slice := s.slice.advanceUploadRange cfg batch.1 batch.2
        pending := s.pending.erase batch
        reported := batch :: s.reported }
    else none
  | .failBatch batch message =>
    if batch ∈ s.pending then
      some { s with
        slice := s.slice.markFailed message
        pending := s.pending.erase batch
        lost := batch :: s.lost }
    else none
  | .fail message => some { s with slice := s.slice.markFailed message }
  | .commit => some { s with slice := s.slice.markCommitted }
  | .split => (s.slice.splitUploadedPrefixTail cfg).map fun parts => { s with slice := parts.1 }

/-- Some batch contains the block. -/
def Covered (batches : List (Nat × Nat)) (block : Nat) : Prop :=
  ∃ batch ∈ batches, Within batch block

instance (batches : List (Nat × Nat)) (block : Nat) : Decidable (Covered batches block) :=
  inferInstanceAs (Decidable (∃ batch ∈ batches, _))

/-- Every block of the slice has been reported as uploaded. -/
def AllReported (s : Uploads) : Prop :=
  ∀ block < (s.slice.data.len + cfg.blockSize - 1) / cfg.blockSize, Covered s.reported block

instance (s : Uploads) : Decidable (AllReported cfg s) := Nat.decidableBallLT _ _

/-- A completion that reaches a failed slice with all blocks handed out is the last one missing. -/
def LastMissing (s : Uploads) : UploadAction → Prop
  | .complete batch => s.slice.state = .failed → s.slice.hasIdleBlock cfg = false →
      s.pending = [batch] ∧ s.lost = []
  | _ => True

/-! ### What the slice functions do to the upload fields -/

variable {cfg}

theorem uploadReadyLen_le (s : SliceState) : s.uploadReadyLen ≤ s.data.len := by
  unfold uploadReadyLen
  split
  · exact Nat.min_le_right _ _
  · exact le_rfl

variable {s slice : SliceState} {buf : List UInt8} {plan : UploadPlan}

theorem dispatchedEnd_of_idle (idle : s.hasIdleBlock cfg = true) :
    s.dispatchedEnd * cfg.blockSize < s.data.len := by
  have ready := uploadReadyLen_le s
  have pos := cfg.blockSize_pos
  unfold hasIdleBlock pendingStart at idle
  split at idle
  all_goals
    rw [decide_eq_true_iff] at idle
    omega

/-- A sealed slice without an idle block has handed out all bytes. -/
theorem len_of_not_idle (sealed : s.uploadsTail = true) (busy : s.hasIdleBlock cfg = false) :
    s.data.len ≤ max (s.dispatchedEnd * cfg.blockSize) s.uploaded := by
  have ready : s.uploadReadyLen = s.data.len := by
    unfold uploadReadyLen
    rw [if_neg]
    intro writable
    simp [uploadsTail, writable] at sealed
  simp only [hasIdleBlock, pendingStart, ready, sealed, if_true, decide_eq_false_iff_not] at busy
  omega

theorem not_idle_of_len (sealed : s.uploadsTail = true)
    (out : s.data.len ≤ s.dispatchedEnd * cfg.blockSize) : s.hasIdleBlock cfg = false := by
  have ready := uploadReadyLen_le s
  have none : ¬ 0 < s.uploadReadyLen - s.pendingStart cfg := by
    unfold pendingStart
    omega
  simp only [hasIdleBlock, sealed, if_true, none, decide_false]

theorem planRange_fold (contents : Nat → List UInt8) (start count low high : Nat) :
    ((range' start (count + 1)).map fun block => (block, contents block)).foldl
      (fun range entry => (min range.1 entry.1, max range.2 (entry.1 + 1))) (low, high) =
      (min low start, max high (start + count + 1)) := by
  induction count generalizing start low high with
  | zero => simp
  | succ count ih =>
    rw [range'_succ, map_cons, foldl_cons, ih]
    simp only [Prod.mk.injEq]
    omega

theorem planRange_collectPages (data : CacheSlice) {start stop : Nat} (chunkId offset : Nat)
    (sliceId : Option Nat) (forward : start < stop) (inside : start * cfg.blockSize < data.len) :
    planRange ⟨chunkId, data.collectPages cfg start stop, sliceId, offset⟩ =
      (min (2 ^ 64 - 1) start, stop) := by
  obtain ⟨count, rfl⟩ := Nat.exists_eq_add_of_lt forward
  rw [planRange, CacheSlice.collectPages, if_neg (not_le.mpr inside),
    show start + count + 1 - start = count + 1 by omega, planRange_fold]
  simp

/-- A plan covers the blocks from the old frontier to the new one. -/
theorem prepareUpload_spec {next : SliceState}
    (prepared : s.prepareUpload cfg = some (plan, next)) : s.dispatchedEnd < next.dispatchedEnd ∧
      (planRange plan).1 ≤ s.dispatchedEnd ∧
      (planRange plan).2 = next.dispatchedEnd ∧
      next.state = s.state ∧ next.data.len = s.data.len ∧ next.uploaded = s.uploaded ∧
      next.blockDone = s.blockDone ∧ next.inFlight = s.inFlight + 1 := by
  unfold prepareUpload at prepared
  split at prepared
  · cases prepared
  rename_i able
  rw [not_or, Bool.not_eq_false] at able
  simp only at prepared
  split at prepared
  · cases prepared
  rename_i forward
  rw [Nat.not_le] at forward
  obtain ⟨rfl, rfl⟩ := prepared
  have inside := dispatchedEnd_of_idle able.2
  rw [planRange_collectPages (s.data.freezeBlocks cfg _ _) s.chunkId _ s.sliceId forward inside]
  exact ⟨forward, Nat.min_le_right _ _, rfl, rfl, rfl, rfl, rfl, rfl⟩

variable {block offset : Nat} {result : Bool × SliceState} {allowGapFrom : Option Nat}

theorem markBlocks_testBit {done start stop : Nat}
    (marked : (markBlocks done start stop).testBit block = true) :
    done.testBit block = true ∨ (start ≤ block ∧ block < stop) := by
  -- along the loop a bit was set before or belongs to an index that has been visited
  have loop : ∀ (indices : List Nat) (bits : Nat),
      (indices.foldl (fun done idx => if idx < 64 then done ||| 1 <<< idx else done) bits).testBit
        block = true → bits.testBit block = true ∨ block ∈ indices := by
    intro indices
    induction indices with
    | nil => exact fun _ set => .inl set
    | cons idx rest ih =>
      intro bits set
      rw [foldl_cons] at set
      rcases ih _ set with before | later
      · split at before
        · rw [Nat.testBit_or, Bool.or_eq_true, Nat.one_shiftLeft, Nat.testBit_two_pow,
            decide_eq_true_iff] at before
          rcases before with before | rfl
          · exact .inl before
          · exact .inr mem_cons_self
        · exact .inl before
      · exact .inr (mem_cons_of_mem _ later)
  rcases loop _ _ marked with before | visited
  · exact .inl before
  · rw [mem_range'_1] at visited
    exact .inr (by omega)

theorem doneUpTo_spec (done fuel current : Nat) : current ≤ doneUpTo done fuel current ∧
    ∀ block, current ≤ block → block < doneUpTo done fuel current → done.testBit block = true := by
  induction fuel generalizing current with
  | zero => exact ⟨le_rfl, fun block lower upper => absurd upper (not_lt.mpr lower)⟩
  | succ fuel ih =>
    unfold doneUpTo
    split
    · rename_i here
      obtain ⟨rises, bits⟩ := ih (current + 1)
      refine ⟨by omega, fun block lower upper => ?_⟩
      rcases Nat.eq_or_lt_of_le lower with rfl | beyond
      · exact here.2
      · exact bits block beyond upper
    · exact ⟨le_rfl, fun block lower upper => absurd upper (not_lt.mpr lower)⟩

theorem settleUpload_cases (cfg : WriteConfig) (s : SliceState) : s.settleUpload cfg = s ∨
    (s.settleUpload cfg = { s with state := .uploaded, err := none } ∧
      (s.state = .readonly ∨ s.state = .failed) ∧ s.inFlight = 0 ∧ s.hasIdleBlock cfg = false) := by
  unfold settleUpload
  split
  · rename_i settled
    exact .inr ⟨rfl, settled⟩
  · exact .inl rfl

theorem tryWrite_cases (tried : s.tryWrite cfg offset buf allowGapFrom = some result) :
    result.2 = s ∨ (s.state = .writable ∧ ∃ data, result.2 = { s with data := data }) := by
  unfold tryWrite at tried
  split at tried
  · cases tried
    exact .inl rfl
  rename_i action able
  obtain ⟨data, _, rfl⟩ := map_eq_some_iff.mp tried
  refine .inr ⟨?_, data, rfl⟩
  by_contra frozen
  rw [canWrite, if_pos (.inl frozen)] at able
  cases able

/-! ### Accounting for the blocks -/

/-- Every handed out block has been reported or belongs to a batch under way or lost; the slice's
counters never run ahead of the reports. -/
structure Accounted (cfg : WriteConfig) (s : Uploads) : Prop where
  blocks : ∀ block < s.slice.dispatchedEnd,
    Covered s.reported block ∨ Covered (s.pending ++ s.lost) block
  below : ∀ batch ∈ s.reported ++ (s.pending ++ s.lost), batch.2 ≤ s.slice.dispatchedEnd
  marked : ∀ block, s.slice.blockDone.testBit block = true → Covered s.reported block
  boundary : ∃ count, s.slice.uploaded = count * cfg.blockSize ∧
    ∀ block < count, Covered s.reported block
  flight : s.slice.state = .writable ∨ s.slice.state = .readonly →
    s.slice.inFlight = s.pending.length ∧ s.lost = []
  complete : s.slice.state = .uploaded →
    ∀ block, block * cfg.blockSize < s.slice.data.len → Covered s.reported block

theorem covered_cons {batch : Nat × Nat} {batches : List (Nat × Nat)} :
    Covered (batch :: batches) block ↔ Within batch block ∨ Covered batches block := by
  simp [Covered]

theorem covered_append {first second : List (Nat × Nat)} :
    Covered (first ++ second) block ↔ Covered first block ∨ Covered second block := by
  simp [Covered, or_and_right, exists_or]

namespace Accounted

variable {s : Uploads}

theorem init (chunkId offset creationUnique : Nat) :
    Accounted cfg (Uploads.init chunkId offset creationUnique) where
  blocks := fun block below => absurd below (Nat.not_lt_zero block)
  below := nofun
  marked := fun block set => by simp [Uploads.init, SliceState.new] at set
  boundary := ⟨0, by simp [Uploads.init, SliceState.new], fun block below =>
    absurd below (Nat.not_lt_zero block)⟩
  flight := fun _ => ⟨rfl, rfl⟩
  complete := nofun

section

variable (accounted : Accounted cfg s)

include accounted

theorem uploaded_le : s.slice.uploaded ≤ s.slice.dispatchedEnd * cfg.blockSize := by
  obtain ⟨count, same, covered⟩ := accounted.boundary
  rw [same]
  apply Nat.mul_le_mul_right _
  by_contra beyond
  obtain ⟨batch, listed, inside⟩ := covered s.slice.dispatchedEnd (by omega)
  have below := accounted.below batch (mem_append_left _ listed)
  exact absurd inside.2 (by omega)

/-- With nothing under way or lost, a slice that handed out all its bytes is complete. -/
theorem all_reported (none : s.pending = [] ∧ s.lost = [])
    (out : s.slice.data.len ≤ max (s.slice.dispatchedEnd * cfg.blockSize) s.slice.uploaded)
    (block : Nat) (inside : block * cfg.blockSize < s.slice.data.len) :
    Covered s.reported block := by
  have bounded := accounted.uploaded_le
  have below : block < s.slice.dispatchedEnd :=
    Nat.lt_of_mul_lt_mul_right (a := cfg.blockSize) (by omega)
  rcases accounted.blocks block below with done | missing
  · exact done
  rw [none.1, none.2] at missing
  obtain ⟨_, listed, _⟩ := missing
  cases listed

theorem of_counters (dispatched : slice.dispatchedEnd = s.slice.dispatchedEnd)
    (uploaded : slice.uploaded = s.slice.uploaded) (done : slice.blockDone = s.slice.blockDone)
    (flight : slice.state = .writable ∨ slice.state = .readonly →
      slice.inFlight = s.pending.length ∧ s.lost = [])
    (complete : slice.state = .uploaded →
      ∀ block, block * cfg.blockSize < slice.data.len → Covered s.reported block) :
    Accounted cfg { s with slice := slice } where
  blocks := fun block below => accounted.blocks block (dispatched ▸ below)
  below := fun batch listed => dispatched ▸ accounted.below batch listed
  marked := fun block set => accounted.marked block (done ▸ set)
  boundary := uploaded ▸ accounted.boundary
  flight := flight
  complete := complete

theorem write (tried : s.slice.tryWrite cfg offset buf allowGapFrom = some result) :
    Accounted cfg { s with slice := result.2 } := by
  rcases tryWrite_cases tried with same | ⟨writable, data, changed⟩
  · rw [same]
    exact accounted
  rw [changed]
  refine accounted.of_counters rfl rfl rfl (fun _ => accounted.flight (.inl writable)) ?_
  intro uploaded
  rw [show s.slice.state = .uploaded from uploaded] at writable
  cases writable

theorem freeze (dataEpoch : Nat) :
    Accounted cfg { s with slice := (s.slice.freeze cfg dataEpoch).2 } := by
  unfold SliceState.freeze
  split
  · exact accounted
  rename_i writable
  have flight := accounted.flight (.inl (not_not.mp writable))
  split
  · exact accounted.of_counters rfl rfl rfl (fun active => by simp at active) nofun
  dsimp only
  have frozen : Accounted cfg { s with slice := { s.slice with
      state := .readonly, frozenEpoch := dataEpoch, data := s.slice.data.freeze } } :=
    accounted.of_counters rfl rfl rfl (fun _ => flight) nofun
  rcases settleUpload_cases cfg { s.slice with
      state := .readonly, frozenEpoch := dataEpoch, data := s.slice.data.freeze } with
    same | ⟨settled, _, idle, busy⟩
  · rw [same]
    exact frozen
  rw [settled]
  refine frozen.of_counters rfl rfl rfl (fun active => by simp at active) fun _ => ?_
  refine frozen.all_reported ⟨?_, flight.2⟩ (len_of_not_idle rfl busy)
  exact eq_nil_of_length_eq_zero (flight.1.symm.trans idle)

theorem prepare (prepared : s.slice.prepareUpload cfg = some (plan, slice)) :
    Accounted cfg { s with slice := slice, pending := s.pending ++ [planRange plan] } := by
  obtain ⟨forward, low, high, state, len, uploaded, done, inFlight⟩ := prepareUpload_spec prepared
  exact {
    blocks := by
      intro block below
      simp only [covered_append]
      by_cases old : block < s.slice.dispatchedEnd
      · rcases (accounted.blocks block old).imp_right
          covered_append.mp with reported | pending | lost
        · exact .inl reported
        · exact .inr (.inl (.inl pending))
        · exact .inr (.inr lost)
      refine .inr (.inl (.inr ⟨_, mem_singleton_self _, ?_, ?_⟩))
      · omega
      · rw [high]
        exact below
    below := by
      intro batch listed
      by_cases new : batch = planRange plan
      · rw [new]
        exact high.le
      · have old := accounted.below batch (by simpa [new] using listed)
        exact old.trans forward.le
    marked := fun block set => accounted.marked block (done ▸ set)
    boundary := by
      rw [uploaded]
      exact accounted.boundary
    flight := by
      intro active
      obtain ⟨counted, lost⟩ := accounted.flight (state ▸ active)
      refine ⟨?_, lost⟩
      rw [length_append, ← counted]
      exact inFlight
    complete := by
      intro settled block inside
      exact accounted.complete (state ▸ settled) block (len ▸ inside) }

end

variable {batch : Nat × Nat}

section

variable (accounted : Accounted cfg s)

include accounted

/-- The counters after a batch, before the status is looked at. -/
theorem recordRange (listed : batch ∈ s.pending) : Accounted cfg { s with
      slice := s.slice.recordRange cfg batch.1 batch.2
      pending := s.pending.erase batch
      reported := batch :: s.reported } := by
  have marked : ∀ block, (markBlocks s.slice.blockDone batch.1 batch.2).testBit block =
      true → Covered (batch :: s.reported) block := by
    intro block set
    rw [covered_cons]
    rcases markBlocks_testBit set with before | here
    · exact .inr (accounted.marked block before)
    · exact .inl here
  exact {
    blocks := by
      intro block below
      simp only [covered_cons, covered_append]
      rcases (accounted.blocks block below).imp_right covered_append.mp with
        reported | ⟨other, pending, inside⟩ | lost
      · exact .inl (.inr reported)
      · by_cases same : other = batch
        · exact .inl (.inl (same ▸ inside))
        · exact .inr (.inl ⟨other, (mem_erase_of_ne same).mpr pending, inside⟩)
      · exact .inr (.inr lost)
    below := by
      intro other mem
      apply accounted.below other
      simp only [cons_append, mem_cons, mem_append] at mem ⊢
      rcases mem with rfl | reported | pending | lost
      · exact .inr (.inl listed)
      · exact .inl reported
      · exact .inr (.inl (mem_of_mem_erase pending))
      · exact .inr (.inr lost)
    marked := marked
    boundary := by
      obtain ⟨count, same, covered⟩ := accounted.boundary
      have pos := cfg.blockSize_pos
      obtain ⟨rises, bits⟩ := doneUpTo_spec (markBlocks s.slice.blockDone batch.1 batch.2) 64
        (s.slice.uploaded / cfg.blockSize)
      have start : s.slice.uploaded / cfg.blockSize = count := by
        rw [same, Nat.mul_div_cancel _ pos]
      rw [start] at rises bits
      refine ⟨doneUpTo (markBlocks s.slice.blockDone batch.1 batch.2) 64 count,
        ?_, fun block below => ?_⟩
      · rw [SliceState.recordRange, start, same]
        exact Nat.max_eq_right (Nat.mul_le_mul_right _ rises)
      by_cases old : block < count
      · exact covered_cons.mpr (.inr (covered block old))
      · exact marked block (bits block (by omega) below)
    flight := by
      intro active
      obtain ⟨counted, lost⟩ := accounted.flight active
      refine ⟨?_, lost⟩
      rw [length_erase_of_mem listed, ← counted]
      rfl
    complete := by
      intro settled block inside
      exact covered_cons.mpr (.inr (accounted.complete settled block inside)) }

theorem complete_batch (listed : batch ∈ s.pending)
    (last : s.slice.state = .failed → s.slice.hasIdleBlock cfg = false →
      s.pending = [batch] ∧ s.lost = []) : Accounted cfg { s with
      slice := s.slice.advanceUploadRange cfg batch.1 batch.2
      pending := s.pending.erase batch
      reported := batch :: s.reported } := by
  have recorded := accounted.recordRange listed
  have settled : Accounted cfg { s with
      slice := (s.slice.recordRange cfg batch.1 batch.2).settleUpload cfg
      pending := s.pending.erase batch
      reported := batch :: s.reported } := by
    rcases settleUpload_cases cfg (s.slice.recordRange cfg batch.1 batch.2) with
      same | ⟨changed, sealed, idle, busy⟩
    · rw [same]
      exact recorded
    rw [changed]
    have tail : (s.slice.recordRange cfg batch.1 batch.2).uploadsTail = true := by
      rcases sealed with readonly | failed
      · simp [uploadsTail, readonly]
      · simp [uploadsTail, failed]
    have out := len_of_not_idle tail busy
    have none : s.pending.erase batch = [] ∧ s.lost = [] := by
      rcases sealed with readonly | failed
      · -- the counter is exact in a slice that has not failed
        obtain ⟨counted, lost⟩ := recorded.flight (.inr readonly)
        exact ⟨eq_nil_of_length_eq_zero (counted.symm.trans idle), lost⟩
      have bounded := recorded.uploaded_le
      obtain ⟨only, lost⟩ := last failed
        (not_idle_of_len (by simp [uploadsTail, show s.slice.state = .failed from failed])
          (out.trans (Nat.max_le.mpr ⟨le_rfl, bounded⟩)))
      refine ⟨?_, lost⟩
      rw [only, erase_cons_head]
    refine recorded.of_counters rfl rfl rfl (fun active => by simp at active) fun _ => ?_
    exact recorded.all_reported none out
  rw [advanceUploadRange, releaseIfComplete]
  split
  · exact settled.of_counters rfl rfl rfl settled.flight settled.complete
  · exact settled

theorem failed (message : String) :
    Accounted cfg { s with slice := s.slice.markFailed message } :=
  accounted.of_counters rfl rfl rfl (fun active => by simp [markFailed] at active) nofun

theorem fail_batch (listed : batch ∈ s.pending) (message : String) : Accounted cfg { s with
      slice := s.slice.markFailed message
      pending := s.pending.erase batch
      lost := batch :: s.lost } := by
  have moved : ∀ other, other ∈ s.pending.erase batch ++ batch :: s.lost ↔
      other ∈ s.pending ++ s.lost := by
    intro other
    by_cases same : other = batch
    · simp [same, listed]
    · simp [same]
  exact {
    blocks := by
      intro block below
      apply (accounted.blocks block below).imp_right
      rintro ⟨other, mem, inside⟩
      exact ⟨other, (moved other).mpr mem, inside⟩
    below := by
      intro other mem
      rcases mem_append.mp mem with reported | missing
      · exact accounted.below other (mem_append_left _ reported)
      · exact accounted.below other (mem_append_right _ ((moved other).mp missing))
    marked := accounted.marked
    boundary := accounted.boundary
    flight := fun active => by simp [markFailed] at active
    complete := nofun }

theorem split {parts : SliceState × SliceState}
    (done : s.slice.splitUploadedPrefixTail cfg = some parts) :
    Accounted cfg { s with slice := parts.1 } := by
  obtain ⟨_, _, data, _, truncated, _, rfl⟩ := splitUploadedPrefixTail_spec done
  have shorter := CacheSlice.truncate_len truncated
  refine accounted.of_counters rfl rfl rfl (fun active => by simp at active) fun _ => ?_
  intro block inside
  obtain ⟨count, same, covered⟩ := accounted.boundary
  refine covered block (Nat.lt_of_mul_lt_mul_right (a := cfg.blockSize) ?_)
  rw [← same, ← shorter]
  exact inside

theorem step {action : UploadAction} {next : Uploads} (last : LastMissing cfg s action)
    (taken : Uploads.step cfg s action = some next) : Accounted cfg next := by
  cases action with
  | write offset buf allowGapFrom =>
    obtain ⟨result, tried, rfl⟩ := map_eq_some_iff.mp taken
    exact accounted.write tried
  | freeze dataEpoch =>
    cases taken
    exact accounted.freeze dataEpoch
  | setSliceId id =>
    cases taken
    unfold setSliceId
    split
    · exact accounted.of_counters rfl rfl rfl accounted.flight accounted.complete
    · exact accounted
  | prepare =>
    simp only [Uploads.step] at taken
    split at taken
    · cases taken
      exact accounted
    rename_i prepared
    cases taken
    exact accounted.prepare prepared
  | complete batch =>
    obtain ⟨listed, ⟨⟩⟩ := ite_none_right_eq_some.mp taken
    exact accounted.complete_batch listed last
  | failBatch batch message =>
    obtain ⟨listed, ⟨⟩⟩ := ite_none_right_eq_some.mp taken
    exact accounted.fail_batch listed message
  | fail message =>
    cases taken
    exact accounted.failed message
  | commit =>
    cases taken
    exact accounted.of_counters rfl rfl rfl
      (fun active => by simp [markCommitted] at active) nofun
  | split =>
    obtain ⟨parts, done, rfl⟩ := map_eq_some_iff.mp taken
    exact accounted.split done

end

end Accounted

/-- While every completion that reaches a failed slice is the last one missing, an uploaded slice
has all blocks reported. -/
theorem uploaded_all_reported {chunkId offset creationUnique : Nat} {actions : List UploadAction}
    {s : Uploads} (run : Run.exec (step cfg) (init chunkId offset creationUnique) actions = some s)
    (last : Run.Along (step cfg) (LastMissing cfg) (init chunkId offset creationUnique) actions)
    (uploaded : s.slice.state = .uploaded) : AllReported cfg s := by
  have accounted : Accounted cfg s := Run.invariant_along
    (fun _ _ _ accounted => accounted.step) (Accounted.init chunkId offset creationUnique) last run
  intro block below
  apply accounted.complete uploaded block
  have := (Nat.lt_div_iff_mul_lt cfg.blockSize_pos).mp below
  omega

/-- Blocks, chunks and pages of one, eight and one bytes. -/
def tinyConfig : WriteConfig := ⟨8, 1, 1, by decide, by decide, by decide⟩

/-- Two batches that complete out of order. -/
def outOfOrder : List UploadAction :=
  [.write 0 [1] none, .prepare, .write 1 [2] none, .freeze 1, .prepare, .complete (1, 2),
    .complete (0, 1)]

instance (s : Uploads) (action : UploadAction) : Decidable (LastMissing cfg s action) := by
  cases action <;> unfold LastMissing <;> infer_instance

theorem uploaded_all_reported_out_of_order : ∃ s,
    Run.exec (step tinyConfig) (init 7 0 0) outOfOrder = some s ∧ AllReported tinyConfig s := by
  have run : Run.exec (step tinyConfig) (init 7 0 0) outOfOrder = some _ := rfl
  refine ⟨_, run, ?_⟩
  exact uploaded_all_reported run (by decide) rfl

/-- The upload is given up with two batches under way; when one completes the slice counts as
uploaded. -/
def givenUp : List UploadAction :=
  [.write 0 [1] none, .prepare, .write 1 [2] none, .freeze 1, .prepare, .fail "upload stalled",
    .complete (0, 1)]

theorem uploaded_without_block : ∃ s, Run.exec (step tinyConfig) (init 7 0 0) givenUp = some s ∧
    s.slice.state = .uploaded ∧ ¬ AllReported tinyConfig s :=
  ⟨_, rfl, rfl, by decide⟩

end Uploads

end BrewFs.Vfs
