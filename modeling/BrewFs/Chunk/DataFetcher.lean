import BrewFs.Chunk.Reader
import BrewFs.Chunk.Store

/- `chunk/reader.rs`, the fetching half: the two ways a planned request fills its buffer.
Errors of the block store and the panics of `split_at_mut` are both `none`. -/
namespace BrewFs.Chunk

open BrewFs.Interval BrewFs.Buffer List

/-- A pending future: fill `len` bytes of the buffer at `pos` from one block. -/
structure BlockRead where
  pos : Nat
  key : BlockKey
  offset : Nat
  len : Nat
  deriving DecidableEq, Repr

/-- The futures of one segment, whose bytes start at `pos` in the buffer. -/
def blockReads (sliceId : Nat) : Nat → List Span → List BlockRead
  | _, [] => []
  | pos, block :: rest =>
    ⟨pos, (sliceId, asU32 block.index), block.offset, block.len⟩ ::
      blockReads sliceId (pos + block.len) rest

/-- Completion of one future: its sub-buffer receives the block's bytes. -/
def BlockRead.complete (store : BlockStore) (buf : List UInt8) (read : BlockRead) :
    Option (List UInt8) :=
  (readRange store read.key read.offset read.len).map fun bytes => patch buf read.pos bytes

/-- `FuturesUnordered` completes the futures in any order. -/
structure Schedule where
  order : List BlockRead → List BlockRead
  perm : ∀ futures, (order futures).Perm futures

def Schedule.inOrder : Schedule := ⟨id, .refl⟩

/-- Drain the futures; the first failure is returned. -/
def drain (store : BlockStore) : List BlockRead → List UInt8 → Option (List UInt8)
  | [], buf => some buf
  | read :: rest, buf => (read.complete store buf).bind (drain store rest)

/-- The loop of `read_at_from_slices`: split the buffer at the segment, queue its blocks. -/
def fetchLoop (layout : ChunkLayout) (offset total : Nat) :
    List VisibleRead → Nat → List BlockRead → Option (List BlockRead)
  | [], _, futures => some futures
  | read :: rest, cursor, futures =>
    let start := read.left - offset
    let len := read.right - read.left
    if read.left < offset ∨ start < cursor ∨ total < start + len ∨
      read.left < read.slice.offset then
      none
    else
      let sliceOffset := read.left - read.slice.offset
      let blocks := blockSpanIterSlice sliceOffset len layout
      fetchLoop layout offset total rest (start + len)
        (futures ++ blockReads read.slice.sliceId start blocks)

def readAtFromSlices (layout : ChunkLayout) (store : BlockStore) (schedule : Schedule)
    (slices : List SliceDesc) (offset len : Nat) : Option (List UInt8) :=
  if len = 0 then some []
  else
    let buf := replicate len 0
    let needRead := visibleReads slices offset len
    (fetchLoop layout offset len needRead 0 []).bind fun futures =>
      drain store (schedule.order futures) buf

/-- The loop of `read_at_into_from_slices`: also zero the gap before a segment. -/
def fetchIntoLoop (layout : ChunkLayout) (offset : Nat) :
    List VisibleRead → Nat → List UInt8 → List BlockRead →
      Option (Nat × List UInt8 × List BlockRead)
  | [], cursor, buf, futures => some (cursor, buf, futures)
  | read :: rest, cursor, buf, futures =>
    let start := read.left - offset
    let len := read.right - read.left
    if read.left < offset ∨ start < cursor ∨ buf.length < start + len ∨
        read.left < read.slice.offset then
      none
    else
      let gap := start - cursor
      let buf := patch buf cursor (replicate gap 0)
      let sliceOffset := read.left - read.slice.offset
      let blocks := blockSpanIterSlice sliceOffset len layout
      fetchIntoLoop layout offset rest (start + len) buf
        (futures ++ blockReads read.slice.sliceId start blocks)

def readAtIntoFromSlices (layout : ChunkLayout) (store : BlockStore) (schedule : Schedule)
    (slices : List SliceDesc) (offset : Nat) (buf : List UInt8) : Option (List UInt8) :=
  let len := buf.length
  if len = 0 then some buf
  else
    let needRead := visibleReads slices offset len
    (fetchIntoLoop layout offset needRead 0 buf []).bind fun (cursor, buf, futures) =>
      (drain store (schedule.order futures) buf).map fun buf =>
        patch buf cursor (replicate (len - cursor) 0)

def BlockRead.span (read : BlockRead) : Nat × Nat := (read.pos, read.pos + read.len)

/-- The block read succeeds, and `want` gives the byte it puts at each buffer position. -/
def BlockRead.Delivers (store : BlockStore) (want : Nat → Option UInt8) (read : BlockRead) : Prop :=
  ∃ bytes, readRange store read.key read.offset read.len = some bytes ∧ bytes.length = read.len ∧
    ∀ i < read.len, bytes[i]? = want (read.pos + i)

/-- The block reads of a tiled range cover it in order and deliver its bytes. -/
theorem blockReads_spec (layout : ChunkLayout) (store : BlockStore) (sliceId : Nat)
    (want : Nat → Option UInt8) {base len : Nat} {spans : List Span}
    (tiles : Tiles layout.blockSize base len spans) (bound : base + len ≤ layout.chunkSize)
    (pos : Nat) (wanted : ∀ i < len, want (pos + i) = sliceByte layout store sliceId (base + i))
    (present : ∀ i < len, (want (pos + i)).isSome) : (∀ read ∈ blockReads sliceId pos spans,
      pos ≤ read.pos ∧ read.pos + read.len ≤ pos + len ∧ read.Delivers store want) ∧
    (blockReads sliceId pos spans).Pairwise (fun a b => a.span.2 ≤ b.span.1) ∧
    ∀ i, pos ≤ i → i < pos + len → ∃ read ∈ blockReads sliceId pos spans, Within read.span i := by
  induction tiles generalizing pos with
  | done base =>
    refine ⟨?_, .nil, ?_⟩
    · exact nofun
    · omega
  | block base len take rest positive bounded fits tail ih =>
    have later := ih (by omega) (pos + take)
      (fun i upper => by rw [Nat.add_assoc, Nat.add_assoc]; exact wanted (take + i) (by omega))
      (fun i upper => by rw [Nat.add_assoc]; exact present (take + i) (by omega))
    have key : asU32 (base / layout.blockSize) = base / layout.blockSize :=
      asU32_blockIndex layout base (by omega)
    have here := readRange_block layout store sliceId base take positive fits (by
      intro i upper
      rw [← wanted i (by omega)]
      exact present i (by omega))
    rcases here with ⟨bytes, read, length, each⟩
    simp only [blockReads, key]
    refine ⟨?_, ?_, ?_⟩
    · intro other mem
      rcases mem_cons.mp mem with same | inRest
      · subst same
        refine ⟨le_rfl, by dsimp only; omega, bytes, read, length, ?_⟩
        intro i upper
        rw [each i upper, wanted i (upper.trans_le bounded)]
      · have facts := later.1 other inRest
        exact ⟨by omega, by omega, facts.2.2⟩
    · rw [pairwise_cons]
      refine ⟨?_, later.2.1⟩
      intro other mem
      exact (later.1 other mem).1
    · intro i lower upper
      by_cases inBlock : i < pos + take
      · exact ⟨_, mem_cons_self, lower, inBlock⟩
      · rcases later.2.2 i (by omega) (by omega) with ⟨other, mem, inside⟩
        exact ⟨other, mem_cons_of_mem _ mem, inside⟩

/-- Each byte is the wanted one where some future writes, and the old one elsewhere: where several
write, they agree. -/
theorem drain_list {store : BlockStore} {want : Nat → Option UInt8} {futures : List BlockRead}
    {buf : List UInt8} (inside : ∀ read ∈ futures, read.pos + read.len ≤ buf.length)
    (delivers : ∀ read ∈ futures, read.Delivers store want) :
    ∃ result, drain store futures buf = some result ∧ result.length = buf.length ∧
      (∀ i, (∃ read ∈ futures, Within read.span i) → result[i]? = want i) ∧
      ∀ i, (∀ read ∈ futures, ¬ Within read.span i) → result[i]? = buf[i]? := by
  induction futures generalizing buf with
  | nil => exact ⟨buf, rfl, rfl, by simp, fun _ _ => rfl⟩
  | cons read rest ih =>
    rw [forall_mem_cons] at inside delivers
    obtain ⟨⟨bytes, found, length, each⟩, later⟩ := delivers
    have fits : read.pos + bytes.length ≤ buf.length := length ▸ inside.1
    have same := length_patch buf read.pos bytes fits
    obtain ⟨result, drained, size, served, kept⟩ := ih (same ▸ inside.2) later
    refine ⟨result, ?_, size.trans same, fun i covered => ?_, fun i free => ?_⟩
    · simp only [drain, BlockRead.complete, found]
      exact drained
    · by_cases again : ∃ other ∈ rest, Within other.span i
      · exact served i again
      obtain ⟨lower, upper⟩ : read.pos ≤ i ∧ i < read.pos + read.len :=
        (or_exists_of_exists_mem_cons covered).resolve_right again
      rw [kept i fun other mem held => again ⟨other, mem, held⟩,
        patch_inside buf read.pos bytes i fits lower (by omega), each _ (by omega),
        Nat.add_sub_cancel' lower]
    · rw [forall_mem_cons] at free
      have apart := free.1
      simp only [Within, BlockRead.span] at apart
      rw [kept i free.2, patch_outside buf read.pos bytes i fits (by omega)]

/-- Successful futures over disjoint parts of a buffer of length `total`. -/
structure Fetches (store : BlockStore) (want : Nat → Option UInt8) (total : Nat)
    (futures : List BlockRead) : Prop where
  inside : ∀ read ∈ futures, read.pos + read.len ≤ total
  delivers : ∀ read ∈ futures, read.Delivers store want
  apart : futures.Pairwise fun a b => Apart a.span b.span

/-- So it is in every completion order. -/
theorem drain_spec {store : BlockStore} {want : Nat → Option UInt8} {futures : List BlockRead}
    {buf : List UInt8} (fetches : Fetches store want buf.length futures) (schedule : Schedule) :
    ∃ result, drain store (schedule.order futures) buf = some result ∧ result.length = buf.length ∧
      (∀ i, (∃ read ∈ futures, Within read.span i) → result[i]? = want i) ∧
      ∀ i, (∀ read ∈ futures, ¬ Within read.span i) → result[i]? = buf[i]? := by
  have listed : ∀ read, read ∈ schedule.order futures ↔ read ∈ futures :=
    fun read => (schedule.perm futures).mem_iff
  have drained := @drain_list store want (schedule.order futures) buf
  simp only [listed] at drained
  exact drained fetches.inside fetches.delivers

/-- The futures one segment queues. -/
def segmentReads (layout : ChunkLayout) (offset : Nat) (read : VisibleRead) : List BlockRead :=
  blockReads read.slice.sliceId (read.left - offset)
    (blockSpanIterSlice (read.left - read.slice.offset) (read.right - read.left) layout)

/-- What the two fill loops need of their segments. -/
structure Segments (offset total : Nat) (reads : List VisibleRead) : Prop where
  ordered : reads.Pairwise fun a b => a.right ≤ b.left
  inside : ∀ read ∈ reads, offset ≤ read.left ∧ read.left < read.right ∧ read.right ≤ offset + total
  inSlice : ∀ read ∈ reads, read.slice.offset ≤ read.left

variable {offset total : Nat} {reads : List VisibleRead} {read : VisibleRead}

theorem Segments.tail {rest : List VisibleRead} (segments : Segments offset total (read :: rest)) :
    Segments offset total rest where
  ordered := (pairwise_cons.mp segments.ordered).2
  inside := fun other mem => segments.inside other (mem_cons_of_mem _ mem)
  inSlice := fun other mem => segments.inSlice other (mem_cons_of_mem _ mem)

theorem Segments.later {rest : List VisibleRead} (segments : Segments offset total (read :: rest)) :
    ∀ other ∈ rest, offset + (read.left - offset + (read.right - read.left)) ≤ other.left := by
  intro other mem
  have after := (pairwise_cons.mp segments.ordered).1 other mem
  have inside := segments.inside read mem_cons_self
  omega

theorem fetchLoop_eq (layout : ChunkLayout) (cursor : Nat) (futures : List BlockRead)
    (segments : Segments offset total reads)
    (behind : ∀ read ∈ reads, offset + cursor ≤ read.left) :
    fetchLoop layout offset total reads cursor futures =
      some (futures ++ reads.flatMap (segmentReads layout offset)) := by
  induction reads generalizing cursor futures with
  | nil => simp [fetchLoop]
  | cons read rest ih =>
    have inside := segments.inside read mem_cons_self
    have inSlice := segments.inSlice read mem_cons_self
    have start := behind read mem_cons_self
    simp only [fetchLoop]
    rw [if_neg (by omega), ih _ _ segments.tail segments.later, append_assoc]
    rfl

/-- The in-place loop queues the same futures and zeros every gap it passes. -/
theorem fetchIntoLoop_spec (layout : ChunkLayout) (cursor : Nat) (buf : List UInt8)
    (futures : List BlockRead) (segments : Segments offset buf.length reads)
    (bound : cursor ≤ buf.length) (behind : ∀ read ∈ reads, offset + cursor ≤ read.left) :
    ∃ last filled, fetchIntoLoop layout offset reads cursor buf futures =
        some (last, filled, futures ++ reads.flatMap (segmentReads layout offset)) ∧
      filled.length = buf.length ∧ cursor ≤ last ∧ last ≤ buf.length ∧
      (∀ read ∈ reads, read.right ≤ offset + last) ∧
      (∀ i < cursor, filled[i]? = buf[i]?) ∧
      ∀ i, cursor ≤ i → i < last → (∀ read ∈ reads, ¬ read.Holds (offset + i)) →
        filled[i]? = some 0 := by
  induction reads generalizing cursor buf futures with
  | nil =>
    refine ⟨cursor, buf, by simp [fetchIntoLoop], rfl, le_rfl, bound, by simp, ?_, ?_⟩
    · exact fun i _ => rfl
    · omega
  | cons read rest ih =>
    have inside := segments.inside read mem_cons_self
    have inSlice := segments.inSlice read mem_cons_self
    have start := behind read mem_cons_self
    have gapFits : cursor + (replicate (read.left - offset - cursor) (0 : UInt8)).length ≤
        buf.length := by
      rw [length_replicate]
      omega
    have length := length_patch buf cursor _ gapFits
    have tail := segments.tail
    rw [← length] at tail
    rcases ih (read.left - offset + (read.right - read.left)) _
      (futures ++ segmentReads layout offset read) tail (by omega) segments.later with
      ⟨last, filled, result, size, after, lastBound, ends, before, zeros⟩
    refine ⟨last, filled, ?_, by omega, by omega, by omega, ?_, ?_, ?_⟩
    · simp only [fetchIntoLoop]
      rw [if_neg (by omega), flatMap_cons, ← append_assoc]
      exact result
    · intro other mem
      rcases mem_cons.mp mem with same | inRest
      · subst same
        omega
      · exact ends other inRest
    · intro i upper
      rw [before i (by omega)]
      exact patch_outside buf cursor _ i gapFits (.inl upper)
    · intro i lower upper free
      have here := free read mem_cons_self
      simp only [VisibleRead.Holds, Within, VisibleRead.span] at here
      by_cases gap : i < read.left - offset
      · have inGap : i < cursor + (replicate (read.left - offset - cursor) (0 : UInt8)).length := by
          rw [length_replicate]
          omega
        rw [before i (by omega), patch_inside buf cursor _ i gapFits lower inGap,
          getElem?_replicate, if_pos (by omega)]
      · exact zeros i (by omega) upper fun other mem =>
          free other (mem_cons_of_mem _ mem)

section

variable {layout : ChunkLayout} {store : BlockStore} {slices : List SliceDesc} {offset len i : Nat}

theorem visibleReads_segments (fits : ∀ slice ∈ slices, slice.stop < 2 ^ 64)
    (inside : offset + len < 2 ^ 64) : Segments offset len (visibleReads slices offset len) where
  ordered := visibleReads_ordered fits inside
  inside := fun read mem => visibleRead_inside fits inside mem
  inSlice := by
    intro read mem
    have range := visibleRead_inside fits inside mem
    have owned := owner_of_visibleRead fits inside mem (p := read.left) ⟨le_rfl, range.2.1⟩
    exact (owner_covers owned).1

/-- The wanted byte at buffer position `i`. -/
def wanted (layout : ChunkLayout) (store : BlockStore) (slices : List SliceDesc) (offset i : Nat) :
    Option UInt8 :=
  chunkByte layout store slices (offset + i)

section

variable (readable : ∀ slice ∈ slices, Readable layout store slice)
  (fits : ∀ slice ∈ slices, slice.stop < 2 ^ 64)

include readable fits

section

variable (bound : offset + len ≤ layout.chunkSize)

include bound

theorem segmentReads_spec (mem : read ∈ visibleReads slices offset len) :
    (∀ block ∈ segmentReads layout offset read,
      read.left ≤ offset + block.pos ∧ offset + (block.pos + block.len) ≤ read.right ∧
        block.Delivers store (wanted layout store slices offset)) ∧
    (segmentReads layout offset read).Pairwise (fun a b => a.span.2 ≤ b.span.1) ∧
    ∀ i, read.Holds (offset + i) → ∃ block ∈ segmentReads layout offset read,
      Within block.span i := by
  have small : offset + len < 2 ^ 64 := bound.trans_lt layout.chunkFits
  have segments := visibleReads_segments fits small
  have range := segments.inside read mem
  have inSlice := segments.inSlice read mem
  have spec := blockReads_spec layout store read.slice.sliceId (wanted layout store slices offset)
    (blockSpanIterRange_tiles layout (read.left - read.slice.offset) (read.right - read.left))
    (by omega) (read.left - offset)
    (fun i upper => by
      have holds : read.Holds (offset + (read.left - offset + i)) := by
        simp only [VisibleRead.Holds, Within, VisibleRead.span]
        omega
      rw [wanted, chunkByte_of_owner (owner_of_visibleRead fits small mem holds)]
      congr 1
      omega)
    (fun i _ => chunkByte_isSome readable _)
  refine ⟨?_, spec.2.1, ?_⟩
  · intro block blockMem
    have facts := spec.1 block blockMem
    exact ⟨by omega, by omega, facts.2.2⟩
  intro i holds
  simp only [VisibleRead.Holds, Within, VisibleRead.span] at holds
  exact spec.2.2 i (by omega) (by omega)

/-- The futures of all segments are disjoint and serve the covered positions. -/
theorem plannedReads_fetches :
    Fetches store (wanted layout store slices offset) len
      ((visibleReads slices offset len).flatMap (segmentReads layout offset)) where
  inside := by
    intro block mem
    rcases mem_flatMap.mp mem with ⟨read, readMem, inRead⟩
    have facts := (segmentReads_spec readable fits bound readMem).1 block inRead
    have range := visibleRead_inside fits (bound.trans_lt layout.chunkFits) readMem
    omega
  delivers := by
    intro block mem
    rcases mem_flatMap.mp mem with ⟨read, readMem, inRead⟩
    exact ((segmentReads_spec readable fits bound readMem).1 block inRead).2.2
  apart := by
    rw [pairwise_flatMap]
    constructor
    · intro read readMem
      exact (segmentReads_spec readable fits bound readMem).2.1.imp apart_of_le
    have ordered := visibleReads_ordered fits (bound.trans_lt layout.chunkFits)
    apply ordered.imp_of_mem
    intro a b aMem bMem before first firstMem second secondMem
    have left := (segmentReads_spec readable fits bound aMem).1 first firstMem
    have right := (segmentReads_spec readable fits bound bMem).1 second secondMem
    apply apart_of_le
    simp only [BlockRead.span]
    omega

theorem plannedReads_served (upper : i < len) :
    (∃ block ∈ (visibleReads slices offset len).flatMap (segmentReads layout offset),
      Within block.span i) ↔ ∃ slice, owner slices (offset + i) = some slice := by
  have small : offset + len < 2 ^ 64 := bound.trans_lt layout.chunkFits
  constructor
  · intro served
    rcases served with ⟨block, mem, inside⟩
    rcases mem_flatMap.mp mem with ⟨read, readMem, inRead⟩
    have facts := (segmentReads_spec readable fits bound readMem).1 block inRead
    simp only [Within, BlockRead.span] at inside
    refine ⟨read.slice, owner_of_visibleRead fits small readMem ?_⟩
    simp only [VisibleRead.Holds, Within, VisibleRead.span]
    omega
  · intro owned
    rcases owned with ⟨slice, owned⟩
    rcases visibleRead_of_owner fits small (Nat.le_add_right _ _) (by omega) owned with
      ⟨read, readMem, holds⟩
    rcases (segmentReads_spec readable fits bound readMem).2.2 i holds with ⟨block, inRead, inside⟩
    exact ⟨block, mem_flatMap.mpr ⟨read, readMem, inRead⟩, inside⟩

theorem plannedReads_free (upper : i < len) (hole : owner slices (offset + i) = none) :
    ∀ block ∈ (visibleReads slices offset len).flatMap (segmentReads layout offset),
      ¬ Within block.span i := by
  intro block mem inside
  rcases (plannedReads_served readable fits bound upper).mp ⟨block, mem, inside⟩ with ⟨slice, found⟩
  rw [hole] at found
  cases found

theorem readAtFromSlices_spec (schedule : Schedule) :
    ∃ buf, readAtFromSlices layout store schedule slices offset len = some buf ∧
      buf.length = len ∧ ∀ i < len, buf[i]? = chunkByte layout store slices (offset + i) := by
  by_cases empty : len = 0
  · subst empty
    exact ⟨[], by simp [readAtFromSlices], rfl, fun i upper => absurd upper (Nat.not_lt_zero i)⟩
  have small : offset + len < 2 ^ 64 := bound.trans_lt layout.chunkFits
  have segments := visibleReads_segments fits small
  have fetches := plannedReads_fetches readable fits bound
  have queued := fetchLoop_eq layout 0 [] segments (fun read mem => (segments.inside read mem).1)
  have zeros : (replicate len (0 : UInt8)).length = len := length_replicate
  rw [← zeros] at fetches
  rcases drain_spec fetches schedule with ⟨result, drained, length, served, kept⟩
  refine ⟨result, ?_, by omega, ?_⟩
  · rw [readAtFromSlices, if_neg empty]
    simp only [queued]
    rw [zeros] at drained
    exact drained
  intro i upper
  rw [zeros] at served kept
  cases owned : owner slices (offset + i) with
  | some slice =>
    exact served i ((plannedReads_served readable fits bound upper).mpr ⟨slice, owned⟩)
  | none =>
    rw [kept i (plannedReads_free readable fits bound upper owned), chunkByte_of_hole owned,
      getElem?_replicate, if_pos upper]

end

theorem readAtIntoFromSlices_spec (prior : List UInt8)
    (bound : offset + prior.length ≤ layout.chunkSize) (schedule : Schedule) :
    ∃ buf, readAtIntoFromSlices layout store schedule slices offset prior = some buf ∧
      buf.length = prior.length ∧
      ∀ i < prior.length, buf[i]? = chunkByte layout store slices (offset + i) := by
  by_cases empty : prior.length = 0
  · refine ⟨prior, by simp [readAtIntoFromSlices, empty], rfl, ?_⟩
    omega
  have small : offset + prior.length < 2 ^ 64 := bound.trans_lt layout.chunkFits
  have segments := visibleReads_segments fits small
  have fetches := plannedReads_fetches readable fits bound
  rcases fetchIntoLoop_spec layout 0 prior [] segments (Nat.zero_le _)
    (fun read mem => (segments.inside read mem).1) with
    ⟨last, filled, queued, size, _, lastBound, ends, _, zeros⟩
  rw [nil_append] at queued
  rw [← size] at fetches
  rcases drain_spec fetches schedule with ⟨result, drained, length, served, kept⟩
  rw [size] at length served kept drained
  have tailFits : last + (replicate (prior.length - last) (0 : UInt8)).length ≤ result.length := by
    rw [length_replicate]
    omega
  refine ⟨patch result last (replicate (prior.length - last) 0), ?_, ?_, ?_⟩
  · rw [readAtIntoFromSlices, if_neg empty]
    simp only [queued, Option.bind_some, drained, Option.map_some]
  · rw [length_patch _ _ _ tailFits, length]
  · intro i upper
    cases owned : owner slices (offset + i) with
    | some slice =>
      rcases visibleRead_of_owner fits small (Nat.le_add_right _ _) (by omega) owned with
        ⟨read, readMem, holds⟩
      have passed := ends read readMem
      simp only [VisibleRead.Holds, Within, VisibleRead.span] at holds
      rw [patch_outside _ _ _ i tailFits (.inl (by omega))]
      exact served i ((plannedReads_served readable fits bound upper).mpr ⟨slice, owned⟩)
    | none =>
      rw [chunkByte_of_hole owned]
      by_cases tail : last ≤ i
      · rw [patch_inside _ _ _ i tailFits tail (by rw [length_replicate]; omega),
          getElem?_replicate, if_pos (by omega)]
      rw [patch_outside _ _ _ i tailFits (.inl (by omega)), kept i, zeros i (Nat.zero_le _)
        (by omega)]
      · intro read readMem holds
        have found := owner_of_visibleRead fits small readMem holds
        rw [owned] at found
        cases found
      · exact plannedReads_free readable fits bound upper owned

end

end

/-- Both ways to read a chunk range succeed and give at every position the byte of the last covering
slice or zero, whatever order the block reads complete in and whatever the buffer held. -/
theorem readAt_eq_chunkByte (layout : ChunkLayout) (store : BlockStore) (slices : List SliceDesc)
    (offset len : Nat) (schedule scheduleInto : Schedule) (prior : List UInt8)
    (readable : ∀ slice ∈ slices, Readable layout store slice)
    (fits : ∀ slice ∈ slices, slice.stop < 2 ^ 64) (bound : offset + len ≤ layout.chunkSize)
    (sized : prior.length = len) : ∃ buf, buf.length = len ∧ (∀ i < len, buf[i]? =
        match owner slices (offset + i) with
        | none => some 0
        | some slice =>
          (store (slice.sliceId, (offset + i - slice.offset) / layout.blockSize)).bind
            fun block => block[(offset + i - slice.offset) % layout.blockSize]?) ∧
      readAtFromSlices layout store schedule slices offset len = some buf ∧
      readAtIntoFromSlices layout store scheduleInto slices offset prior = some buf := by
  subst sized
  rcases readAtFromSlices_spec readable fits bound schedule with ⟨buf, read, length, each⟩
  rcases readAtIntoFromSlices_spec readable fits prior bound scheduleInto with
    ⟨into, readInto, lengthInto, eachInto⟩
  have same : into = buf := by
    apply ext_getElem?
    intro i
    by_cases upper : i < prior.length
    · rw [eachInto i upper, each i upper]
    · rw [getElem?_eq_none (by omega), getElem?_eq_none (by omega)]
  rw [same] at readInto
  exact ⟨buf, length, each, read, readInto⟩

/-- A slice of five bytes over two blocks, read with a hole on either side of it. -/
theorem readAt_eq_chunkByte_holes :
    ∃ buf, readAtFromSlices smallLayout
        (fun key => if key = (1, 0) then some [1, 2, 3, 4] else if key = (1, 1) then some [5] else
          none)
        Schedule.inOrder [⟨1, 7, 1, 5⟩] 0 8 = some buf ∧
      readAtIntoFromSlices smallLayout
        (fun key => if key = (1, 0) then some [1, 2, 3, 4] else if key = (1, 1) then some [5] else
          none)
        Schedule.inOrder [⟨1, 7, 1, 5⟩] 0 (replicate 8 9) = some buf := by
  rcases readAt_eq_chunkByte smallLayout
    (fun key => if key = (1, 0) then some [1, 2, 3, 4] else if key = (1, 1) then some [5] else none)
    [⟨1, 7, 1, 5⟩] 0 8 Schedule.inOrder Schedule.inOrder (replicate 8 9)
    (by
      intro slice mem
      rw [mem_singleton.mp mem]
      unfold Readable
      decide)
    (by decide) (by decide) (by decide) with ⟨buf, _, _, read, readInto⟩
  exact ⟨buf, read, readInto⟩

/-- The end of this slice wraps to zero: its bytes are all nines, and zeros are read. -/
theorem readAt_wraps :
    Readable smallLayout (fun _ => some [9, 9, 9, 9]) ⟨1, 7, 1, 2 ^ 64 - 1⟩ ∧
      chunkByte smallLayout (fun _ => some [9, 9, 9, 9]) [⟨1, 7, 1, 2 ^ 64 - 1⟩] 5 = some 9 ∧
      readAtFromSlices smallLayout (fun _ => some [9, 9, 9, 9]) Schedule.inOrder
        [⟨1, 7, 1, 2 ^ 64 - 1⟩] 0 8 = some (replicate 8 0) := by
  refine ⟨fun i _ => ?_, by decide, by decide⟩
  simp [sliceByte, smallLayout, Nat.mod_lt]

end BrewFs.Chunk
