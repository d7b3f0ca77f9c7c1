import BrewFs.Chunk.Compact.System
import Mathlib.Data.List.Induction

/- What uploads, merges and deletions do to the blocks. -/
namespace BrewFs.Chunk.Compact

open BrewFs.Buffer BrewFs.Interval List
open SliceDesc (stop)

theorem writeFreshRange_other (store : BlockStore) (key other : BlockKey) (offset : Nat)
    (data : List UInt8) (different : other ≠ key) :
    writeFreshRange store key offset data other = store other := by
  simp [writeFreshRange, Function.update_of_ne different]

/-- The written block: new bytes in the range, old ones elsewhere. -/
theorem writeFreshRange_block (store : BlockStore) (key : BlockKey) (offset : Nat)
    (data : List UInt8) : ∃ block, writeFreshRange store key offset data key = some block ∧
      (∀ i, offset ≤ i → i < offset + data.length → block[i]? = data[i - offset]?) ∧
      ∀ i, (i < offset ∨ offset + data.length ≤ i) → i < ((store key).getD []).length →
        block[i]? = ((store key).getD [])[i]? := by
  have fits : offset + data.length ≤ ((store key).getD [] ++
      replicate (offset + data.length - ((store key).getD []).length) 0).length := by
    rw [length_append, length_replicate]
    omega
  refine ⟨_, Function.update_self _ _ _, ?_, ?_⟩
  · intro i lower upper
    exact patch_inside _ _ _ i fits lower upper
  · intro i outside present
    rw [patch_outside _ _ _ i fits outside, getElem?_append_left present]

section Upload

variable {layout : ChunkLayout} {store : BlockStore} {sliceId : Nat} {data : List UInt8}

variable {other : Nat}

theorem writeSpan_other (written : Nat) (span : Span) (different : other ≠ sliceId) (index : Nat) :
    writeSpan store sliceId data written span (other, index) = store (other, index) := by
  apply writeFreshRange_other
  intro same
  exact different (congrArg Prod.fst same)

variable {written : Nat}

section

variable (bound : data.length ≤ layout.chunkSize)

include bound

/-- Writing an upload's next block extends the uploaded part and spoils nothing. -/
theorem writeSpan_spec {take : Nat} (positive : 0 < take)
    (inBlock : written % layout.blockSize + take ≤ layout.blockSize)
    (inData : written + take ≤ data.length)
    (uploaded : ∀ i < written, sliceByte layout store sliceId i = data[i]?) : ∀ i < written + take,
      sliceByte layout (writeSpan store sliceId data written
        ⟨written / layout.blockSize, written % layout.blockSize, take⟩) sliceId i = data[i]? := by
  have index : asU32 (written / layout.blockSize) = written / layout.blockSize :=
    asU32_blockIndex layout written (by omega)
  have piece : min take (data.length - written) = take := by omega
  have size : ((data.drop written).take take).length = take := by
    rw [length_take, length_drop]
    omega
  rcases writeFreshRange_block store (sliceId, written / layout.blockSize)
    (written % layout.blockSize) ((data.drop written).take take) with ⟨block, found, inside, kept⟩
  intro i upper
  by_cases same : i / layout.blockSize = written / layout.blockSize
  · have split := Nat.div_add_mod i layout.blockSize
    have base := Nat.div_add_mod written layout.blockSize
    rw [same] at split
    rw [sliceByte, same, writeSpan]
    simp only [index, piece, found, Option.bind_some]
    by_cases new : written ≤ i
    · rw [inside (i % layout.blockSize) (by omega) (by omega),
        getElem?_take_of_lt (by omega), getElem?_drop]
      congr 1
      omega
    have old := uploaded i (by omega)
    rw [sliceByte, same] at old
    rw [getElem?_eq_getElem (by omega : i < data.length)] at old ⊢
    cases entry : store (sliceId, written / layout.blockSize) with
    | none => simp [entry] at old
    | some bytes =>
      rw [entry, Option.bind_some] at old
      rw [entry, Option.getD_some] at kept
      have inBytes : i % layout.blockSize < bytes.length := by
        by_contra covering
        rw [getElem?_eq_none (by omega)] at old
        cases old
      rw [kept _ (by omega) inBytes, old]
  · have before : i < written := by
      by_contra after
      apply same
      have shifted := (div_mod_in_block layout.blockSize written (i - written) layout.blockSize_pos
        (by omega)).1
      rwa [show written + (i - written) = i by omega] at shifted
    rw [sliceByte, writeSpan, writeFreshRange_other]
    · exact uploaded i before
    intro clash
    rw [index] at clash
    exact same (congrArg Prod.snd clash)

variable {index : Nat}

omit bound in
theorem writeSpans_other (spans : List Span) (different : other ≠ sliceId) :
    writeSpans store sliceId data written spans (other, index) = store (other, index) := by
  induction spans generalizing store written with
  | nil => rfl
  | cons span rest ih => rw [writeSpans, ih, writeSpan_other written span different]

variable {len : Nat}

theorem writeSpans_spec {spans : List Span} (tiles : Tiles layout.blockSize written len spans)
    (whole : written + len = data.length)
    (uploaded : ∀ i < written, sliceByte layout store sliceId i = data[i]?) : ∀ i < data.length,
      sliceByte layout (writeSpans store sliceId data written spans) sliceId i = data[i]? := by
  induction tiles generalizing store with
  | done pos =>
    intro i upper
    exact uploaded i (by omega)
  | block pos len take rest positive bounded fits tail ih =>
    have next := writeSpan_spec bound positive fits (by omega) uploaded
    have piece : min take (data.length - pos) = take := by omega
    rw [writeSpans]
    simp only [piece]
    exact ih (by omega) next

/-- A block written by the next span lies inside the data. -/
theorem writeSpan_extent {span : Span} {rest : List Span}
    (tiles : Tiles layout.blockSize written len (span :: rest))
    (whole : written + len = data.length)
    (present : (writeSpan store sliceId data written span (sliceId, index)).isSome) :
    (store (sliceId, index)).isSome ∨ index * layout.blockSize < data.length := by
  by_cases here : index = asU32 span.index
  · rcases tiles.uncons with ⟨take, positive, inside, _, same, _⟩
    rw [same, asU32_blockIndex layout written (by omega)] at here
    rw [here]
    have start := Nat.div_mul_le_self written layout.blockSize
    omega
  rw [writeSpan, writeFreshRange_other] at present
  · exact .inl present
  · exact fun clash => here (congrArg Prod.snd clash)

theorem writeSpans_present {spans : List Span} (tiles : Tiles layout.blockSize written len spans)
    (whole : written + len = data.length)
    (present : (writeSpans store sliceId data written spans (sliceId, index)).isSome) :
    (store (sliceId, index)).isSome ∨ index * layout.blockSize < data.length := by
  induction tiles generalizing store with
  | done pos => exact .inl present
  | block pos len take rest positive bounded fits tail ih =>
    have piece : min take (data.length - pos) = take := by omega
    rw [writeSpans] at present
    simp only [piece] at present
    rcases ih (by omega) present with earlier | inside
    · exact writeSpan_extent bound (Tiles.block pos len take rest positive bounded fits tail) whole
        earlier
    · exact .inr inside

omit bound in
theorem uploadSlice_other (different : other ≠ sliceId) (index : Nat) :
    uploadSlice layout store sliceId data (other, index) = store (other, index) :=
  writeSpans_other _ different

theorem uploadSlice_byte {i : Nat} (upper : i < data.length) :
    sliceByte layout (uploadSlice layout store sliceId data) sliceId i = data[i]? :=
  writeSpans_spec bound (blockSpanIterRange_tiles layout 0 data.length) (Nat.zero_add _)
    (fun i below => absurd below (Nat.not_lt_zero i)) i upper

end

end Upload

theorem deleteExtent_other (layout : ChunkLayout) (store : BlockStore) (sliceId size : Nat)
    (outcome : Outcome) {other : Nat} (different : other ≠ sliceId) (index : Nat) :
    deleteExtent layout store sliceId size outcome (other, index) = store (other, index) := by
  cases outcome with
  | deleted => simp [deleteExtent, deleteRange, different]
  | failed removed => simp [deleteExtent, different]

variable {layout : ChunkLayout} {store other : BlockStore} {sliceId size pos : Nat}

theorem deleteExtent_present {outcome : Outcome} {key : BlockKey}
    (present : (deleteExtent layout store sliceId size outcome key).isSome) :
    (store key).isSome := by
  cases outcome with
  | deleted =>
    simp only [deleteExtent, deleteRange] at present
    split at present
    · cases present
    · exact present
  | failed removed =>
    simp only [deleteExtent] at present
    split at present
    · cases present
    · exact present

theorem blockCount_le (bound : size ≤ layout.chunkSize) :
    blockCount layout size ≤ layout.chunkSize / layout.blockSize := by
  rcases layout.aligned with ⟨blocks, whole⟩
  have positive := layout.blockSize_pos
  rw [blockCount, whole, Nat.mul_div_cancel_left _ positive, ← Nat.lt_succ_iff,
    Nat.div_lt_iff_lt_mul positive, Nat.succ_mul, Nat.mul_comm blocks]
  omega

/-- A completed deletion leaves no block below the size it was given. -/
theorem deleteExtent_deleted {index : Nat} (bound : size ≤ layout.chunkSize)
    (present : (deleteExtent layout store sliceId size .deleted (sliceId, index)).isSome) :
    size ≤ index * layout.blockSize := by
  have few := blockCount_le bound
  have fits := layout.blocksFit
  have cast : asU32 (blockCount layout size) = blockCount layout size := Nat.mod_eq_of_lt (by omega)
  simp only [deleteExtent, deleteRange] at present
  split at present
  · cases present
  next outside =>
    have past : blockCount layout size ≤ index := by
      by_contra below
      exact outside ⟨trivial, Nat.zero_le _, by omega⟩
    have positive := layout.blockSize_pos
    rw [blockCount, ← Nat.lt_succ_iff, Nat.div_lt_iff_lt_mul positive, Nat.succ_mul] at past
    omega

theorem drain_append (store : BlockStore) (first second : List BlockRead) (buf : List UInt8) :
    drain store (first ++ second) buf = (drain store first buf).bind (drain store second) := by
  induction first generalizing buf with
  | nil => rfl
  | cons read rest ih =>
    simp only [cons_append, drain]
    cases read.complete store buf with
    | none => rfl
    | some next => exact ih next

theorem drain_congr {reads : List BlockRead}
    (same : ∀ read ∈ reads, other read.key = store read.key) (buf : List UInt8) :
    drain other reads buf = drain store reads buf := by
  induction reads generalizing buf with
  | nil => rfl
  | cons read rest ih =>
    have here : read.complete other buf = read.complete store buf := by
      simp only [BlockRead.complete, readRange, same read mem_cons_self]
    rw [drain]
    congr 1
    funext next
    exact ih (fun later mem => same later (mem_cons_of_mem _ mem)) next

variable {read : BlockRead} {spans : List Span}

theorem blockReads_key (mem : read ∈ blockReads sliceId pos spans) : read.key.1 = sliceId := by
  induction spans generalizing pos with
  | nil => cases mem
  | cons span rest ih =>
    rcases mem_cons.mp mem with same | later
    · rw [same]
    · exact ih later

theorem blockReads_inside {blockSize base len : Nat} (tiles : Tiles blockSize base len spans)
    (mem : read ∈ blockReads sliceId pos spans) : read.pos + read.len ≤ pos + len := by
  induction tiles generalizing pos with
  | done base => cases mem
  | block base len take rest positive bounded fits tail ih =>
    rcases mem_cons.mp mem with same | later
    · rw [same]
      dsimp only
      omega
    have inside := ih later
    dsimp only at inside
    omega

theorem complete_length {buf result : List UInt8} (inside : read.pos + read.len ≤ buf.length)
    (done : read.complete store buf = some result) : result.length = buf.length := by
  rcases Option.map_eq_some_iff.mp done with ⟨bytes, found, rfl⟩
  have size : bytes.length = read.len := by
    simp only [readRange] at found
    split at found
    · cases found
      rw [length_take, length_drop]
      omega
    · cases found
  exact length_patch buf read.pos bytes (by omega)

variable {slices : List SliceDesc}

/-- Reading one readable slice into the merge buffer overwrites exactly its range. -/
theorem drain_slice {slice : SliceDesc} {buf : List UInt8}
    (readable : Readable layout store slice) (bound : slice.stop ≤ layout.chunkSize)
    (fits : slice.stop ≤ buf.length) : ∃ result, drain store (blockReads slice.sliceId slice.offset
        (blockSpanIterSlice 0 slice.length layout)) buf = some result ∧
      result.length = buf.length ∧
      ∀ p, result[p]? =
        if slice.Covers p then sliceByte layout store slice.sliceId (p - slice.offset)
        else buf[p]? := by
  simp only [stop] at bound fits
  have spec := blockReads_spec layout store slice.sliceId
    (fun q => sliceByte layout store slice.sliceId (q - slice.offset))
    (blockSpanIterRange_tiles layout 0 slice.length) (by omega) slice.offset
    (fun i _ => by rw [Nat.add_sub_cancel_left, Nat.zero_add])
    (fun i upper => by rw [Nat.add_sub_cancel_left]; exact readable i upper)
  have fetches : Fetches store (fun q => sliceByte layout store slice.sliceId (q - slice.offset))
      buf.length (blockReads slice.sliceId slice.offset (blockSpanIterSlice 0 slice.length layout))
      := by
    refine ⟨?_, ?_, spec.2.1.imp apart_of_le⟩
    · intro read mem
      have facts := spec.1 read mem
      omega
    · exact fun read mem => (spec.1 read mem).2.2
  rcases drain_spec fetches Schedule.inOrder with ⟨result, drained, length, served, kept⟩
  refine ⟨result, drained, length, ?_⟩
  intro p
  by_cases covers : slice.Covers p
  · rw [if_pos covers]
    exact served p (spec.2.2 p covers.1 covers.2)
  rw [if_neg covers]
  apply kept p
  intro read mem inside
  have facts := spec.1 read mem
  simp only [Within, BlockRead.span] at inside
  simp only [SliceDesc.Covers, stop] at covers
  omega

theorem sliceByte_congr (same : ∀ index, other (sliceId, index) = store (sliceId, index))
    (i : Nat) : sliceByte layout other sliceId i = sliceByte layout store sliceId i := by
  rw [sliceByte, sliceByte, same]

theorem chunkByte_congr
    (same : ∀ slice ∈ slices, ∀ index, other (slice.sliceId, index) = store (slice.sliceId, index))
    (p : Nat) : chunkByte layout other slices p = chunkByte layout store slices p := by
  cases owned : owner slices p with
  | none => rw [chunkByte_of_hole owned, chunkByte_of_hole owned]
  | some slice =>
    rw [chunkByte_of_owner owned, chunkByte_of_owner owned]
    exact sliceByte_congr (same slice (owner_mem owned)) _

theorem chunkByte_concat (layout : ChunkLayout) (store : BlockStore) (slices : List SliceDesc)
    (slice : SliceDesc) (p : Nat) : chunkByte layout store (slices ++ [slice]) p =
      if slice.Covers p then sliceByte layout store slice.sliceId (p - slice.offset)
      else chunkByte layout store slices p := by
  by_cases covers : slice.Covers p
  · rw [if_pos covers]
    apply chunkByte_of_owner
    rw [owner_concat, if_pos covers]
  · rw [if_neg covers, chunkByte, owner_concat, if_neg covers, chunkByte]

variable {total : Nat}

/-- Merging readable slices in publication order gives what a reader sees. -/
theorem drain_mergeReads (slices : List SliceDesc)
    (readable : ∀ slice ∈ slices, Readable layout store slice)
    (bound : ∀ slice ∈ slices, slice.stop ≤ layout.chunkSize)
    (fits : ∀ slice ∈ slices, slice.stop ≤ total) :
    ∃ merged, drain store (mergeReads layout slices) (replicate total 0) = some merged ∧
      merged.length = total ∧
      ∀ p < total, merged[p]? = chunkByte layout store slices p := by
  induction slices using reverseRecOn with
  | nil =>
    refine ⟨replicate total 0, rfl, length_replicate, ?_⟩
    intro p upper
    rw [chunkByte_of_hole (owner_nil p), getElem?_replicate, if_pos upper]
  | append_singleton slices slice ih =>
    rcases ih (fun other mem => readable other (mem_append_left _ mem))
      (fun other mem => bound other (mem_append_left _ mem))
      (fun other mem => fits other (mem_append_left _ mem)) with
      ⟨before, drained, length, bytes⟩
    have mem : slice ∈ slices ++ [slice] := mem_append_right _ (mem_singleton.mpr rfl)
    have room : slice.stop ≤ before.length := by
      rw [length]
      exact fits slice mem
    rcases drain_slice (readable slice mem) (bound slice mem) room with
      ⟨result, last, size, each⟩
    refine ⟨result, ?_, by omega, ?_⟩
    · rw [mergeReads, flatMap_append, drain_append]
      simp only [mergeReads] at drained
      rw [drained, flatMap_singleton]
      exact last
    · intro p upper
      rw [each p, chunkByte_concat, bytes p upper]

/-- The occupied end is the largest slice end, and no slice passes the chunk. -/
theorem occupiedEnd_spec (occupied : occupiedEnd layout slices = some total) :
    (∀ slice ∈ slices, slice.stop ≤ total) ∧ total ≤ layout.chunkSize ∧
      (∀ slice ∈ slices, slice.stop ≤ layout.chunkSize) := by
  suffices general : ∀ (slices : List SliceDesc) (start : Nat), start ≤ layout.chunkSize →
      slices.foldlM (fun occupied slice =>
        let stop := slice.offset + slice.length
        if stop < 2 ^ 64 ∧ stop ≤ layout.chunkSize then some (max occupied stop) else none) start =
        some total →
      start ≤ total ∧ total ≤ layout.chunkSize ∧ ∀ slice ∈ slices, slice.stop ≤ total by
    have facts := general slices 0 (Nat.zero_le _) occupied
    exact ⟨facts.2.2, facts.2.1, fun slice mem => (facts.2.2 slice mem).trans facts.2.1⟩
  intro slices
  induction slices with
  | nil =>
    intro start small folded
    cases folded
    exact ⟨le_rfl, small, fun slice mem => absurd mem (not_mem_nil)⟩
  | cons slice rest ih =>
    intro start small folded
    rw [foldlM_cons] at folded
    by_cases inside : slice.offset + slice.length < 2 ^ 64 ∧
        slice.offset + slice.length ≤ layout.chunkSize
    · rw [if_pos inside] at folded
      have facts := ih (max start (slice.offset + slice.length)) (by omega) folded
      refine ⟨by omega, facts.2.1, ?_⟩
      intro other mem
      rcases mem_cons.mp mem with same | later
      · rw [same, stop]
        omega
      · exact facts.2.2 other later
    · rw [if_neg inside] at folded
      cases folded

end BrewFs.Chunk.Compact
