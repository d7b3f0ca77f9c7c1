import BrewFs.Vfs.Writer.ReadAfterWrite
import BrewFs.Vfs.Writer.Watermarks

/-! `write_at_cached`: concurrent cached writes of one file, with no sparse ranges recorded. A call
first asks, in one lock scope, for the ranges that no newer request has marked, and then writes
these ranges one after another, each in a lock scope of its own. -/

namespace BrewFs.Vfs

open BrewFs.Buffer BrewFs.Interval BrewFs.Layers BrewFs.Slots List Option FileWriter
open ChunkState (overwrite)
open BrewFs.Chunk (Span Tiles)
open Function (update update_of_ne update_self)

structure CachedWriteSegment where
  fileOffset : Nat
  bufOffset : Nat
  len : Nat
deriving DecidableEq, Repr

/-- A call of `write_at_cached`: its arguments, and the segments written and not. -/
structure CachedCall where
  offset : Nat
  buf : List UInt8
  written : List CachedWriteSegment
  remaining : List CachedWriteSegment

structure CachedWriter where
  file : FileWriter
  /-- `cached_write_watermarks`, by chunk. -/
  watermarks : Nat → List CachedWriteRange
  /-- The calls by their request ids, and the ids themselves. -/
  calls : Nat → Option CachedCall
  ids : List Nat

inductive CachedAction where
  /-- The first lock scope of a call. -/
  | record (unique offset : Nat) (buf : List UInt8)
  /-- The write of a call's next segment. -/
  | insert (unique : Nat)
  /-- A slice is frozen, as a write does when it is full. -/
  | freeze (chunk index dataEpoch : Nat)

namespace CachedWriter

variable (cfg : WriteConfig)

def init : CachedWriter := ⟨.init, fun _ => [], fun _ => none, []⟩

/-- The loop over the chunks in `allowed_cached_write_ranges`. -/
def allowedSegments (unique : Nat) : List Span → Nat → (Nat → List CachedWriteRange) →
    List CachedWriteSegment × (Nat → List CachedWriteRange)
  | [], _, watermarks => ([], watermarks)
  | span :: rest, bufOffset, watermarks =>
    let free := CachedWriteRange.allowed (watermarks span.index) span.offset span.len unique
    let later := allowedSegments unique rest (bufOffset + span.len)
      (update watermarks span.index free.2)
    (free.1.map (fun part => ⟨span.index * cfg.chunkSize + part.1,
      bufOffset + (part.1 - span.offset), part.2⟩) ++ later.1, later.2)

def allowedCachedWriteRanges (watermarks : Nat → List CachedWriteRange) (offset len unique : Nat) :
    List CachedWriteSegment × (Nat → List CachedWriteRange) :=
  if len = 0 then ([], watermarks)
  else if unique = 0 then ([⟨offset, 0, len⟩], watermarks)
  else allowedSegments cfg unique (splitChunkSpans cfg offset len) 0 watermarks

def splitSegment : List Span → Nat → List CachedWriteSegment
  | [], _ => []
  | span :: rest, bufOffset =>
    ⟨span.index * cfg.chunkSize + span.offset, bufOffset, span.len⟩ ::
      splitSegment rest (bufOffset + span.len)

/-- `filter_sparse_fallocate_zero_segments` without sparse ranges. -/
def filterSparseFallocateZeroSegments (segments : List CachedWriteSegment) :
    List CachedWriteSegment :=
  segments.flatMap fun segment => splitSegment cfg
    (splitChunkSpans cfg segment.fileOffset segment.len) segment.bufOffset

def step (s : CachedWriter) : CachedAction → Option CachedWriter
  | .record unique offset buf =>
    if unique = 0 ∨ (s.calls unique).isSome then none
    else
      let out := allowedCachedWriteRanges cfg s.watermarks offset buf.length unique
      some { s with
        watermarks := out.2
        calls := update s.calls unique
          (some ⟨offset, buf, [], filterSparseFallocateZeroSegments cfg out.1⟩)
        ids := unique :: s.ids }
  | .insert unique => (s.calls unique).bind fun call =>
    match call.remaining with
    | [] => none
    | segment :: rest =>
      (s.file.write cfg segment.fileOffset
        ((call.buf.drop segment.bufOffset).take segment.len) unique).map fun file =>
        { s with
          file := file
          calls := update s.calls unique (some { call with
            written := call.written ++ [segment], remaining := rest }) }
  | .freeze chunk index dataEpoch =>
    ((s.file.chunks chunk).step cfg false (.slice index dataEpoch .freeze)).map fun next =>
      { s with file := s.file.setChunk chunk next }

/-- No newer request has written in the range of the next segment. -/
def InOrder (s : CachedWriter) : CachedAction → Prop
  | .insert unique => ∀ call ∈ s.calls unique, ∀ segment ∈ call.remaining.head?,
      ∀ newer ∈ s.ids, unique < newer → ∀ other ∈ s.calls newer, ∀ done ∈ other.written,
        done.fileOffset + done.len ≤ segment.fileOffset ∨
          segment.fileOffset + segment.len ≤ done.fileOffset
  | .record _ _ _ | .freeze _ _ _ => True

instance (s : CachedWriter) (action : CachedAction) : Decidable (InOrder s action) := by
  cases action <;> unfold InOrder <;> infer_instance

end CachedWriter

/-! ### Segments -/

def CachedWriteSegment.Covers (segment : CachedWriteSegment) (p : Nat) : Prop :=
  segment.fileOffset ≤ p ∧ p < segment.fileOffset + segment.len

/-- The range of the call. -/
def CachedCall.Covers (call : CachedCall) (p : Nat) : Prop :=
  call.offset ≤ p ∧ p < call.offset + call.buf.length

/-- The call has written at the position. -/
def CachedCall.Wrote (call : CachedCall) (p : Nat) : Prop :=
  ∃ segment ∈ call.written, segment.Covers p

/-- A segment of the call, in one chunk. -/
structure CachedWriteSegment.Fits (cfg : WriteConfig) (call : CachedCall)
    (segment : CachedWriteSegment) : Prop where
  aligned : segment.fileOffset = call.offset + segment.bufOffset
  inside : segment.bufOffset + segment.len ≤ call.buf.length
  chunk : segment.fileOffset % cfg.chunkSize + segment.len ≤ cfg.chunkSize

namespace CachedWriter

variable {cfg : WriteConfig} {unique offset : Nat} {bytes : Nat → Option UInt8} {spans : List Span}

def markAt (cfg : WriteConfig) (watermarks : Nat → List CachedWriteRange) (p : Nat) : Nat :=
  CachedWriteRange.mark (watermarks (p / cfg.chunkSize)) (p % cfg.chunkSize)

theorem in_chunk {size pos take p : Nat} (fits : pos % size + take ≤ size) :
    (pos ≤ p ∧ p < pos + take) ↔
      p / size = pos / size ∧ pos % size ≤ p % size ∧ p % size < pos % size + take := by
  have left := Nat.div_add_mod' pos size
  have right := Nat.div_add_mod' p size
  constructor
  · rintro ⟨low, high⟩
    have same : p / size = pos / size := by
      rw [Nat.div_eq_iff (by omega)]
      omega
    rw [same] at right
    omega
  rintro ⟨same, low, high⟩
  rw [same] at right
  omega

theorem allowedSegments_spec (nonzero : unique ≠ 0) {pos len : Nat}
    (tiles : Tiles cfg.chunkSize pos len spans) (bufOffset : Nat)
    (watermarks : Nat → List CachedWriteRange) :
    (∀ segment ∈ (allowedSegments cfg unique spans bufOffset watermarks).1,
      segment.fileOffset + bufOffset = pos + segment.bufOffset ∧ pos ≤ segment.fileOffset ∧
        segment.fileOffset + segment.len ≤ pos + len) ∧
    (∀ p, (∃ segment ∈ (allowedSegments cfg unique spans bufOffset watermarks).1,
      segment.Covers p) ↔ (pos ≤ p ∧ p < pos + len) ∧ markAt cfg watermarks p ≤ unique) ∧
    ∀ p, markAt cfg (allowedSegments cfg unique spans bufOffset watermarks).2 p =
      if pos ≤ p ∧ p < pos + len then max unique (markAt cfg watermarks p)
      else markAt cfg watermarks p := by
  induction tiles generalizing bufOffset watermarks with
  | done pos =>
    refine ⟨nofun, fun p => ?_, fun p => ?_⟩
    · simp only [allowedSegments, not_mem_nil, false_and, exists_false, false_iff]
      omega
    · rw [if_neg (by omega)]
      rfl
  | block pos len take rest positive bounded fits tail ih =>
    obtain ⟨bounds, points, marks⟩ := CachedWriteRange.allowed_spec
      (watermarks (pos / cfg.chunkSize)) (pos % cfg.chunkSize) nonzero positive
    have split := Nat.div_add_mod' pos cfg.chunkSize
    simp only [allowedSegments]
    generalize CachedWriteRange.allowed (watermarks (pos / cfg.chunkSize))
      (pos % cfg.chunkSize) take unique = free at bounds points marks ⊢
    obtain ⟨laterBounds, laterPoints, laterMarks⟩ := ih (bufOffset + take)
      (update watermarks (pos / cfg.chunkSize) free.2)
    -- the marks after the first span
    have middle : ∀ p, markAt cfg (update watermarks (pos / cfg.chunkSize) free.2) p =
        if pos ≤ p ∧ p < pos + take then max unique (markAt cfg watermarks p)
        else markAt cfg watermarks p := by
      intro p
      unfold markAt
      by_cases here : p / cfg.chunkSize = pos / cfg.chunkSize
      · rw [here, update_self, marks]
        exact if_congr (by rw [in_chunk fits]; simp only [here, true_and]) rfl rfl
      · rw [update_of_ne here, if_neg (fun inside => here ((in_chunk fits).mp inside).1)]
    refine ⟨?_, fun p => ?_, fun p => ?_⟩
    · rw [forall_mem_append, List.forall_mem_map]
      refine ⟨fun part listed => ?_, fun segment listed => ?_⟩
      · have := bounds part listed
        dsimp only
        omega
      · have := laterBounds segment listed
        omega
    · simp only [mem_append, or_and_right, exists_or, List.mem_map, exists_exists_and_eq_and,
        CachedWriteSegment.Covers] at laterPoints ⊢
      rw [laterPoints, middle]
      have first : (∃ part ∈ free.1, pos / cfg.chunkSize * cfg.chunkSize + part.1 ≤ p ∧
          p < pos / cfg.chunkSize * cfg.chunkSize + part.1 + part.2) ↔
          (pos ≤ p ∧ p < pos + take) ∧ markAt cfg watermarks p ≤ unique := by
        have here := points (p % cfg.chunkSize)
        have whole := Nat.div_add_mod' p cfg.chunkSize
        constructor
        · rintro ⟨part, listed, low, high⟩
          have within := bounds part listed
          have inside : pos ≤ p ∧ p < pos + take := by omega
          have chunk := ((in_chunk fits).mp inside).1
          refine ⟨inside, ?_⟩
          rw [chunk] at whole
          have found := here.mp ⟨part, listed, by omega, by omega⟩
          rw [markAt, chunk]
          exact found.2
        · rintro ⟨inside, free⟩
          obtain ⟨chunk, low, high⟩ := (in_chunk fits).mp inside
          rw [markAt, chunk] at free
          rw [chunk] at whole
          obtain ⟨part, listed, left, right⟩ := here.mpr ⟨⟨low, high⟩, free⟩
          exact ⟨part, listed, by omega, by omega⟩
      rw [first]
      by_cases inside : pos ≤ p ∧ p < pos + take
      · omega
      · rw [if_neg inside]
        omega
    · rw [laterMarks, middle]
      by_cases inside : pos ≤ p ∧ p < pos + take
      · rw [if_pos inside, if_neg (by omega), if_pos (by omega)]
      · rw [if_neg inside]
        exact if_congr (by omega) rfl rfl

theorem splitSegment_spec {pos len : Nat} (tiles : Tiles cfg.chunkSize pos len spans)
    (bufOffset : Nat) :
    (∀ segment ∈ splitSegment cfg spans bufOffset,
      segment.fileOffset + bufOffset = pos + segment.bufOffset ∧ pos ≤ segment.fileOffset ∧
        segment.fileOffset + segment.len ≤ pos + len ∧
        segment.fileOffset % cfg.chunkSize + segment.len ≤ cfg.chunkSize) ∧
    ∀ p, (∃ segment ∈ splitSegment cfg spans bufOffset, segment.Covers p) ↔
      pos ≤ p ∧ p < pos + len := by
  induction tiles generalizing bufOffset with
  | done pos =>
    refine ⟨nofun, fun p => ?_⟩
    simp only [splitSegment, not_mem_nil, false_and, exists_false, false_iff]
    omega
  | block pos len take rest positive bounded fits tail ih =>
    obtain ⟨bounds, points⟩ := ih (bufOffset + take)
    rw [splitSegment, Nat.div_add_mod', forall_mem_cons]
    refine ⟨⟨⟨rfl, le_rfl, Nat.add_le_add_left bounded _, fits⟩, fun segment listed => ?_⟩,
      fun p => ?_⟩
    · have := bounds segment listed
      omega
    simp only [mem_cons, or_and_right, exists_or, exists_eq_left,
      CachedWriteSegment.Covers] at points ⊢
    rw [points]
    omega

theorem filterSegments_spec (positive : 0 < cfg.chunkSize) (call : CachedCall)
    {segments : List CachedWriteSegment}
    (bounds : ∀ segment ∈ segments, segment.fileOffset = call.offset + segment.bufOffset ∧
      segment.fileOffset + segment.len ≤ call.offset + call.buf.length) :
    (∀ segment ∈ filterSparseFallocateZeroSegments cfg segments, segment.Fits cfg call) ∧
      ∀ p, (∃ segment ∈ filterSparseFallocateZeroSegments cfg segments, segment.Covers p) ↔
        ∃ segment ∈ segments, segment.Covers p := by
  have split : ∀ segment : CachedWriteSegment, Tiles cfg.chunkSize segment.fileOffset segment.len
      (splitChunkSpans cfg segment.fileOffset segment.len) := fun segment =>
    splitChunkSpans_tiles positive _ _
  refine ⟨fun part listed => ?_, fun p => ?_⟩
  · obtain ⟨segment, mem, listed⟩ := mem_flatMap.mp listed
    have outer := bounds segment mem
    have inner := (splitSegment_spec (split segment) segment.bufOffset).1 part listed
    exact ⟨by omega, by omega, inner.2.2.2⟩
  simp only [filterSparseFallocateZeroSegments, mem_flatMap]
  constructor
  · rintro ⟨part, ⟨segment, mem, listed⟩, covers⟩
    exact ⟨segment, mem,
      ((splitSegment_spec (split segment) segment.bufOffset).2 p).mp ⟨part, listed, covers⟩⟩
  rintro ⟨segment, mem, covers⟩
  obtain ⟨part, listed, covers⟩ :=
    ((splitSegment_spec (split segment) segment.bufOffset).2 p).mpr covers
  exact ⟨part, ⟨segment, mem, listed⟩, covers⟩

/-- What a call gets to write: all of its range without a newer mark. -/
theorem allowed_segments (positive : 0 < cfg.chunkSize) (nonzero : unique ≠ 0)
    (watermarks : Nat → List CachedWriteRange) (call : CachedCall) :
    let out := allowedCachedWriteRanges cfg watermarks call.offset call.buf.length unique
    (∀ segment ∈ out.1, segment.fileOffset = call.offset + segment.bufOffset ∧
      segment.fileOffset + segment.len ≤ call.offset + call.buf.length) ∧
    (∀ p, (∃ segment ∈ out.1, segment.Covers p) ↔
      call.Covers p ∧ markAt cfg watermarks p ≤ unique) ∧
    ∀ p, markAt cfg out.2 p = if call.offset ≤ p ∧ p < call.offset + call.buf.length then
      max unique (markAt cfg watermarks p) else markAt cfg watermarks p := by
  simp only [allowedCachedWriteRanges, CachedCall.Covers]
  by_cases empty : call.buf.length = 0
  · rw [if_pos empty]
    refine ⟨nofun, fun p => ?_, fun p => ?_⟩
    · simp only [not_mem_nil, false_and, exists_false, false_iff]
      omega
    · rw [if_neg (by omega)]
  rw [if_neg empty, if_neg nonzero]
  obtain ⟨bounds, points, marks⟩ := allowedSegments_spec nonzero
    (splitChunkSpans_tiles positive call.offset call.buf.length) 0 watermarks
  exact ⟨fun segment listed => by
    have := bounds segment listed
    omega, points, marks⟩

/-! ### The file -/

/-- Every byte that has been written shows. -/
def Full (cfg : WriteConfig) (w : FileWriter) (bytes : Nat → Option UInt8) : Prop :=
  ∀ p, (bytes p).isSome = true → (stack ((w.chunks (p / cfg.chunkSize)).states.map
    (SliceState.layer cfg)) (p % cfg.chunkSize)).isSome = true

theorem patchLayer_chunk {size p : Nat} (buf : List UInt8) (chunk : p / size = offset / size) :
    patchLayer (offset, buf) p = patchLayer (offset % size, buf) (p % size) := by
  have left := Nat.div_add_mod' offset size
  have right := Nat.div_add_mod' p size
  rw [chunk] at right
  refine if_congr (by omega) ?_ rfl
  congr 1
  omega

theorem write_full {w next : FileWriter} (shows : FileWriter.Shows cfg w bytes)
    (full : Full cfg w bytes) {buf : List UInt8}
    (fits : offset % cfg.chunkSize + buf.length ≤ cfg.chunkSize)
    (done : w.write cfg offset buf unique = some next) :
    Full cfg next (overwrite bytes offset buf) := by
  rw [write, if_pos fits] at done
  obtain ⟨c, written, rfl⟩ := map_eq_some_iff.mp done
  have here := ((shows (offset / cfg.chunkSize)).mono (Nat.le_succ w.writeOrder))
  intro p shown
  simp only [setChunk]
  simp only [overwrite, isSome_or, Bool.or_eq_true] at shown
  by_cases chunk : p / cfg.chunkSize = offset / cfg.chunkSize
  · rw [chunk, update_self]
    apply here.writeAt_covers written
    simp only [overwrite, isSome_or, Bool.or_eq_true]
    rcases shown with new | old
    · rw [patchLayer_chunk buf chunk] at new
      exact .inl new
    have := full p old
    rw [chunk] at this
    exact .inr this
  · rw [update_of_ne chunk]
    rcases shown with new | old
    · exact absurd ((in_chunk fits).mp (patchLayer_isSome.mp new)).1 chunk
    · exact full p old

theorem freeze_full {w : FileWriter} (shows : FileWriter.Shows cfg w bytes)
    (full : Full cfg w bytes) {chunk index dataEpoch : Nat} {next : ChunkState}
    (frozen : (w.chunks chunk).step cfg false (.slice index dataEpoch .freeze) = some next) :
    FileWriter.Shows cfg (w.setChunk chunk next) bytes ∧
      Full cfg (w.setChunk chunk next) bytes := by
  have clears : (w.chunks chunk).Clears cfg (.slice index dataEpoch .freeze) := trivial
  refine ⟨shows.setChunk ((shows chunk).step clears frozen) fun _ _ => rfl, fun p shown => ?_⟩
  have before := full p shown
  simp only [setChunk]
  by_cases here : p / cfg.chunkSize = chunk
  · subst here
    rw [update_self]
    simp only [ChunkState.step, ite_none_right_eq_some, map_eq_some_iff] at frozen
    obtain ⟨⟨held, quiet⟩, slice, applied, rfl⟩ := frozen
    have kept := (SliceState.apply_effect applied).layer ((shows _).solid_of_mem held) quiet
      (by simp)
    rw [ChunkState.layers_eq] at before ⊢
    rw [stack_map_congr (q := p % cfg.chunkSize)]
    · exact before
    intro other _
    by_cases same : other = index
    · subst same
      rw [ChunkState.setSlice_self]
      rcases kept with same | ⟨⟨_, _, advanced⟩, _⟩
      · exact same _
      · cases advanced
    · rw [ChunkState.setSlice_of_ne _ _ same]
  · rw [update_of_ne here]
    exact before

/-! ### Calls -/

/-- Every call has an id of its own. -/
def Known (s : CachedWriter) : Prop :=
  ∀ unique call, s.calls unique = some call → unique ≠ 0 ∧ unique ∈ s.ids

theorem Known.step (s : CachedWriter) (action : CachedAction) (next : CachedWriter)
    (known : Known s)
    (taken : s.step cfg action = some next) : Known next := by
  cases action with
  | record unique offset buf =>
    simp only [CachedWriter.step, ite_none_left_eq_some, not_or, Option.some.injEq] at taken
    obtain ⟨⟨nonzero, _⟩, rfl⟩ := taken
    intro other found same
    rcases mem_put same with ⟨rfl, _⟩ | ⟨_, old⟩
    · exact ⟨nonzero, mem_cons_self⟩
    · exact ⟨(known other found old).1, mem_cons_of_mem _ (known other found old).2⟩
  | insert unique =>
    obtain ⟨call, found, done⟩ := bind_eq_some_iff.mp taken
    split at done
    · cases done
    obtain ⟨file, _, rfl⟩ := map_eq_some_iff.mp done
    intro other later same
    rcases mem_put same with ⟨rfl, _⟩ | ⟨_, old⟩
    · exact known other call found
    · exact known other later old
  | freeze chunk index dataEpoch =>
    obtain ⟨c, _, rfl⟩ := map_eq_some_iff.mp taken
    exact known

/-- The newest request that covers a position has its mark there and writes there; of those that
have written, the newest one's byte is the latest. -/
structure Newest (cfg : WriteConfig) (s : CachedWriter) (bytes : Nat → Option UInt8) : Prop where
  shows : FileWriter.Shows cfg s.file bytes
  full : Full cfg s.file bytes
  fits : ∀ {unique call}, s.calls unique = some call → ∀ segment ∈ call.written ++ call.remaining,
    segment.Fits cfg call
  marked : ∀ {unique call}, s.calls unique = some call → ∀ p, call.Covers p →
    unique ≤ markAt cfg s.watermarks p
  owned : ∀ p, markAt cfg s.watermarks p ≠ 0 →
    ∃ call, s.calls (markAt cfg s.watermarks p) = some call ∧ call.Covers p ∧
      ∃ segment ∈ call.written ++ call.remaining, segment.Covers p
  latest : ∀ {p unique call}, s.calls unique = some call → call.Wrote p →
    (∀ newer other, s.calls newer = some other → other.Wrote p → newer ≤ unique) →
    bytes p = call.buf[p - call.offset]?

variable {s next : CachedWriter} {bytes : Nat → Option UInt8}

theorem newest_init : Newest cfg init fun _ => none where
  shows := fun k => ChunkState.shows_new cfg k
  full := nofun
  fits := nofun
  marked := nofun
  owned := fun _ marked => absurd rfl marked
  latest := nofun

theorem Newest.record (newest : Newest cfg s bytes) (positive : 0 < cfg.chunkSize)
    (nonzero : unique ≠ 0) (fresh : s.calls unique = none) (offset : Nat) (buf : List UInt8)
    {out : List CachedWriteSegment × (Nat → List CachedWriteRange)}
    (allowed : allowedCachedWriteRanges cfg s.watermarks offset buf.length unique = out) :
    Newest cfg { s with
      watermarks := out.2
      calls := update s.calls unique
        (some ⟨offset, buf, [], filterSparseFallocateZeroSegments cfg out.1⟩)
      ids := unique :: s.ids } bytes := by
  obtain ⟨bounds, points, marks⟩ := allowed_segments positive nonzero s.watermarks
    ⟨offset, buf, [], filterSparseFallocateZeroSegments cfg out.1⟩
  simp only [allowed] at bounds points marks
  obtain ⟨fits, covers⟩ := filterSegments_spec positive
    ⟨offset, buf, [], filterSparseFallocateZeroSegments cfg out.1⟩ bounds
  have stays : ∀ {other found}, s.calls other = some found → other ≠ unique := by
    rintro _ found known rfl
    rw [fresh] at known
    cases known
  refine ⟨newest.shows, newest.full, ?_, ?_, fun p mark => ?_, ?_⟩
  · intro other found same
    rcases mem_put same with ⟨rfl, rfl⟩ | ⟨_, old⟩
    · exact fits
    · exact newest.fits old
  · intro other found same p inside
    rw [marks]
    rcases mem_put same with ⟨rfl, rfl⟩ | ⟨_, old⟩
    · rw [if_pos (by exact inside)]
      exact Nat.le_max_left _ _
    have before := newest.marked old p inside
    split
    · exact before.trans (Nat.le_max_right _ _)
    · exact before
  · have same := marks p
    by_cases own : (offset ≤ p ∧ p < offset + buf.length) ∧ markAt cfg s.watermarks p ≤ unique
    · rw [if_pos own.1, Nat.max_eq_left own.2] at same
      rw [same]
      exact ⟨_, update_self .., own.1, (covers p).mpr ((points p).mpr own)⟩
    have kept : markAt cfg out.2 p = markAt cfg s.watermarks p := by
      rw [same]
      split <;> omega
    rw [kept] at mark ⊢
    obtain ⟨other, found, rest⟩ := newest.owned p mark
    exact ⟨other, (update_of_ne (stays found) ..).trans found, rest⟩
  · intro p other found same wrote largest
    rcases mem_put same with ⟨rfl, rfl⟩ | ⟨_, old⟩
    · obtain ⟨segment, listed, _⟩ := wrote
      cases listed
    exact newest.latest old wrote fun newer third known =>
      largest newer third ((update_of_ne (stays known) ..).trans known)

theorem Newest.insert (newest : Newest cfg s bytes) (known : Known s) (positive : 0 < cfg.chunkSize)
    {call : CachedCall} (found : s.calls unique = some call) {segment : CachedWriteSegment}
    {rest : List CachedWriteSegment} (remaining : call.remaining = segment :: rest)
    (inOrder : ∀ newer ∈ s.ids, unique < newer → ∀ other ∈ s.calls newer, ∀ done ∈ other.written,
      done.fileOffset + done.len ≤ segment.fileOffset ∨
        segment.fileOffset + segment.len ≤ done.fileOffset) {file : FileWriter}
    (written : s.file.write cfg segment.fileOffset
      ((call.buf.drop segment.bufOffset).take segment.len) unique = some file) :
    Newest cfg { s with
      file := file
      calls := update s.calls unique (some { call with
        written := call.written ++ [segment], remaining := rest }) }
      (overwrite bytes segment.fileOffset
        ((call.buf.drop segment.bufOffset).take segment.len)) := by
  have fits := newest.fits found segment (by simp [remaining])
  have count : ((call.buf.drop segment.bufOffset).take segment.len).length = segment.len := by
    have := fits.inside
    rw [length_take, length_drop]
    omega
  have patched : ∀ p, segment.Covers p → patchLayer (segment.fileOffset,
      (call.buf.drop segment.bufOffset).take segment.len) p = call.buf[p - call.offset]? := by
    intro p covers
    have aligned := fits.aligned
    simp only [CachedWriteSegment.Covers] at covers
    rw [patchLayer_mk, if_pos covers.1, getElem?_take_of_lt (by omega), getElem?_drop]
    congr 1
    omega
  have shown : ∀ p, segment.Covers p → (call.buf[p - call.offset]?).isSome = true := by
    intro p covers
    have aligned := fits.aligned
    have inside := fits.inside
    simp only [CachedWriteSegment.Covers] at covers
    rw [getElem?_eq_getElem (show p - call.offset < call.buf.length by omega)]
    rfl
  have parts : call.written ++ [segment] ++ rest = call.written ++ call.remaining := by
    rw [remaining, append_assoc]
    rfl
  have wrote : ∀ p, (CachedCall.mk call.offset call.buf (call.written ++ [segment]) rest).Wrote p ↔
      call.Wrote p ∨ segment.Covers p := by
    simp [CachedCall.Wrote]
  refine ⟨newest.shows.write positive written,
    write_full newest.shows newest.full (by rw [count]; exact fits.chunk) written,
    fun taken => ?_, fun taken p inside => ?_, fun p mark => ?_,
    @fun p other call' taken covered largest => ?_⟩
  · rcases mem_put taken with ⟨rfl, rfl⟩ | ⟨_, old⟩
    · intro part listed
      have := newest.fits found part (parts ▸ listed)
      exact ⟨this.aligned, this.inside, this.chunk⟩
    · exact newest.fits old
  · rcases mem_put taken with ⟨rfl, rfl⟩ | ⟨_, old⟩
    · exact newest.marked found p inside
    · exact newest.marked old p inside
  · obtain ⟨owner, taken, inside, segments⟩ := newest.owned p mark
    by_cases here : markAt cfg s.watermarks p = unique
    · rw [here, found] at taken
      cases taken
      rw [here]
      exact ⟨_, update_self .., inside, parts ▸ segments⟩
    · exact ⟨owner, (update_of_ne here ..).trans taken, inside, segments⟩
  · have self := largest unique _ (update_self ..)
    unfold overwrite
    by_cases covers : segment.Covers p
    · -- nobody newer has written here, so this call is the one
      rw [patched p covers, or_of_isSome (shown p covers)]
      rcases mem_put taken with ⟨rfl, rfl⟩ | ⟨apart, old⟩
      · rfl
      have older := self ((wrote p).mpr (.inr covers))
      obtain ⟨done, listed, reached⟩ := covered
      have := inOrder other (known other call' old).2 (by omega) call' old done listed
      simp only [CachedWriteSegment.Covers] at covers reached
      omega
    · have blank : patchLayer (segment.fileOffset,
          (call.buf.drop segment.bufOffset).take segment.len) p = none := by
        rw [← not_isSome_iff_eq_none, patchLayer_isSome, patchSpan, count]
        exact covers
      have before : ∀ newer older, s.calls newer = some older → older.Wrote p → newer ≤ other := by
        intro newer older taken' reached
        by_cases here : newer = unique
        · rw [here, found] at taken'
          cases taken'
          rw [here]
          exact self ((wrote p).mpr (.inl reached))
        · exact largest newer older ((update_of_ne here ..).trans taken') reached
      rw [blank]
      rcases mem_put taken with ⟨rfl, rfl⟩ | ⟨_, old⟩
      · exact (newest.latest found (((wrote p).mp covered).resolve_right covers) before :)
      · exact newest.latest old covered before

theorem Newest.step (positive : 0 < cfg.chunkSize) (s : CachedWriter) (action : CachedAction)
    (next : CachedWriter) (holds : Known s ∧ ∃ bytes, Newest cfg s bytes)
    (inOrder : InOrder s action) (taken : s.step cfg action = some next) :
    Known next ∧ ∃ bytes, Newest cfg next bytes := by
  obtain ⟨known, bytes, newest⟩ := holds
  refine ⟨known.step s action next taken, ?_⟩
  cases action with
  | record unique offset buf =>
    simp only [CachedWriter.step, ite_none_left_eq_some, not_or, Option.some.injEq] at taken
    obtain ⟨⟨nonzero, fresh⟩, rfl⟩ := taken
    rw [not_isSome_iff_eq_none] at fresh
    exact ⟨bytes, newest.record positive nonzero fresh offset buf rfl⟩
  | insert unique =>
    obtain ⟨call, found, done⟩ := bind_eq_some_iff.mp taken
    split at done
    · cases done
    rename_i segment rest remaining
    obtain ⟨file, written, rfl⟩ := map_eq_some_iff.mp done
    exact ⟨_, newest.insert known positive found remaining
      (inOrder call found segment (by rw [remaining]; rfl)) written⟩
  | freeze chunk index dataEpoch =>
    obtain ⟨c, frozen, rfl⟩ := map_eq_some_iff.mp taken
    obtain ⟨shows, full⟩ := freeze_full newest.shows newest.full frozen
    exact ⟨bytes, { newest with shows := shows, full := full }⟩

/-- In a run in which every segment is written before any newer request has written in its range: no
call gets stuck, and once all have returned, the overlay shows at every position the byte of the
newest request covering it. -/
theorem newest_request_wins (positive : 0 < cfg.chunkSize) (actions : List CachedAction)
    (final : CachedWriter) (inOrder : Run.Along (step cfg) InOrder init actions)
    (run : Run.exec (step cfg) init actions = some final) :
    (∀ unique call, final.calls unique = some call → call.remaining ≠ [] →
      (final.step cfg (.insert unique)).isSome = true) ∧
    ((∀ unique call, final.calls unique = some call → call.remaining = []) →
      ∀ unique call, final.calls unique = some call → ∀ p, call.Covers p →
        (∀ newer other, final.calls newer = some other → other.Covers p → newer ≤ unique) →
        ∀ offset i (buf : List UInt8), offset + i = p → i < buf.length →
          (final.file.overlayDirty cfg offset buf)[i]? = call.buf[p - call.offset]?) := by
  have kept : Known final ∧ ∃ bytes, Newest cfg final bytes :=
    Run.invariant_along (Newest.step positive)
      ⟨(fun _ _ found => by cases found), _, newest_init⟩ inOrder run
  obtain ⟨known, bytes, newest⟩ := kept
  refine ⟨fun unique call found waits => ?_, fun returned unique call found p inside largest offset
    i buf place room => ?_⟩
  · obtain ⟨segment, rest, remaining⟩ := exists_cons_of_ne_nil waits
    simp only [CachedWriter.step, found, bind_some, remaining, isSome_map]
    exact newest.shows.accepts positive ..
  have marked := newest.marked found p inside
  have nonzero := (known unique call found).1
  obtain ⟨owner, taken, covers, segment, listed, reached⟩ := newest.owned p (by omega)
  have same : markAt cfg final.watermarks p = unique :=
    Nat.le_antisymm (largest _ owner taken covers) marked
  rw [same, found] at taken
  cases taken
  rw [returned unique call found, append_nil] at listed
  have latest := newest.latest found ⟨segment, listed, reached⟩
    fun newer other taken ⟨part, mem, hit⟩ => largest newer other taken (by
      have fits := newest.fits taken part (mem_append_left _ mem)
      have aligned := fits.aligned
      have inner := fits.inside
      simp only [CachedWriteSegment.Covers, CachedCall.Covers] at hit ⊢
      omega)
  have short : p - call.offset < call.buf.length := by
    simp only [CachedCall.Covers] at inside
    omega
  have written : bytes p = some call.buf[p - call.offset] := by
    rw [latest, getElem?_eq_getElem short]
  obtain ⟨agrees, held⟩ := newest.shows.shown p
  obtain ⟨byte, shown⟩ := isSome_iff_exists.mp (held.mpr ((held_iff _ p).mpr
    (newest.full p (isSome_of_mem written))))
  obtain ⟨_, top, _⟩ := overlayDirtyImpl_spec positive newest.shows.allSolid offset buf
  rw [top i room, place, shown, ← latest, agrees byte shown]
  rfl

/-- Two requests for one byte; both get their marks before a write. -/
def twoRequests (first second : Nat) : List CachedAction :=
  [.record 10 0 [1], .record 20 0 [2], .insert first, .insert second]

theorem twoRequests_done {final : CachedWriter} {actions : List CachedAction}
    (run : Run.exec (step cfg) init actions = some final) (ids : final.ids = [20, 10])
    (first : (final.calls 10).map CachedCall.remaining = some [])
    (second : (final.calls 20).map CachedCall.remaining = some []) :
    ∀ unique call, final.calls unique = some call →
      (unique = 20 ∨ unique = 10) ∧ call.remaining = [] := by
  intro unique call found
  have known : Known final := Run.invariant Known.step (fun _ _ found => by cases found) run
  have listed := (known unique call found).2
  simp only [ids, mem_cons, not_mem_nil, or_false] at listed
  refine ⟨listed, ?_⟩
  rcases listed with rfl | rfl
  · rw [found] at second
    exact Option.some.inj second
  · rw [found] at first
    exact Option.some.inj first

theorem newest_request_wins_in_turn :
    ∃ final, Run.exec (step Uploads.tinyConfig) init (twoRequests 10 20) = some final ∧
      (final.file.overlayDirty Uploads.tinyConfig 0 [0])[0]? = some 2 := by
  have run : Run.exec (step Uploads.tinyConfig) init (twoRequests 10 20) = some _ := rfl
  have done := twoRequests_done run rfl rfl rfl
  have wins := (newest_request_wins (by decide) _ _ (by decide +kernel) run).2
    (fun unique call found => (done unique call found).2) 20 _ rfl 0 ⟨by decide, by decide⟩
    (fun newer other taken _ => by rcases (done newer other taken).1 with rfl | rfl <;> decide)
    0 0 [0] rfl (by decide)
  exact ⟨_, run, wins⟩

/-- The newer request writes first; the older one, let through earlier, covers its byte. -/
theorem older_request_wins :
    ∃ final, Run.exec (step Uploads.tinyConfig) init (twoRequests 20 10) = some final ∧
      (∀ unique call, final.calls unique = some call →
        (unique = 20 ∨ unique = 10) ∧ call.remaining = []) ∧
      (final.calls 20).map (fun call => (call.offset, call.buf)) = some (0, [2]) ∧
      final.file.overlayDirty Uploads.tinyConfig 0 [0] = [1] :=
  have run : Run.exec (step Uploads.tinyConfig) init (twoRequests 20 10) = some _ := rfl
  ⟨_, run, twoRequests_done run rfl rfl rfl, rfl, rfl⟩

end CachedWriter

end BrewFs.Vfs
