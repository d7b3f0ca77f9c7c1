import Mathlib.Data.List.Sort
import Mathlib.Data.Prod.Lex
import BrewFs.Chunk.Span
import BrewFs.Utils.Intervals
import BrewFs.Vfs.Writer.Chunk
import BrewFs.Vfs.Writer.SliceBytes

/-! `vfs/io/writer.rs`: reads of the data that the writer of a file still holds. -/

namespace BrewFs.Vfs

open BrewFs.Buffer BrewFs.Interval BrewFs.Layers List Option
open CacheSlice (length_copyInto)
open BrewFs.Chunk (Span SpanIter Tiles)
open BrewFs.Utils (Intervals)

/-- The chunks of an open file by index; one without an entry in the source is empty. -/
structure FileWriter where
  chunks : Nat → ChunkState
  /-- The counter behind `next_write_order`. -/
  writeOrder : Nat

def splitChunkSpans (cfg : WriteConfig) (offset len : Nat) : List Span :=
  SpanIter.collect len (Span.splitInto ⟨offset / cfg.chunkSize, offset % cfg.chunkSize, len⟩
    cfg.chunkSize cfg.chunkSize false)

namespace ChunkState

/-- The sort key of `overlay_slices_for_chunk` for a slice and its position. -/
def overlayKey (c : ChunkState) (entry : Nat × Nat) : Bool ×ₗ Nat ×ₗ Nat :=
  let order := (c.slices entry.1).writeOrder
  toLex (decide (order ≠ 0), toLex (order, entry.2))

/-- `overlay_slices_for_chunk` -/
def overlaySlices (c : ChunkState) : List Nat :=
  (c.held.zipIdx.insertionSort fun a b => c.overlayKey a ≤ c.overlayKey b).map Prod.fst

end ChunkState

namespace FileWriter

variable (cfg : WriteConfig) (span : Span) (s : SliceState)

/-- The part of the span that a slice reaches. -/
def readStart : Nat := max span.offset s.offset

def readEnd : Nat :=
  min (span.offset + span.len) (s.offset + s.data.len)

/-- The first look of `overlay_dirty_impl`: does a slice touch the span? -/
def touches : Bool :=
  s.canOverlayRead cfg && readStart span s < readEnd span s &&
    s.writeRangeHasWrittenOverlap (readStart span s) (readEnd span s - readStart span s)

/-- Lay one slice over the buffer and cut it off the missing ranges. -/
def overlaySlice (offset : Nat) (span : Span) (out : List UInt8 × Intervals Nat) (s : SliceState) :
    List UInt8 × Intervals Nat :=
  let chunkStart := span.index * cfg.chunkSize
  if s.canOverlayRead cfg = false ∨ readEnd span s ≤ readStart span s then out
  else
    let dstStart := chunkStart + readStart span s - offset
    let dstEnd := chunkStart + readEnd span s - offset
    let copied := s.data.copyWrittenInto cfg (readStart span s - s.offset)
      ((out.1.drop dstStart).take (dstEnd - dstStart))
    (patch out.1 dstStart copied.1, copied.2.foldl (fun missing range =>
      (missing.cut (chunkStart + s.offset + range.1) (chunkStart + s.offset + range.2)).2) out.2)

variable (w : FileWriter)

/-- The slices of the spans of a request. -/
def sliceRefs (spans : List Span) : List (Span × List SliceState) :=
  spans.map fun span =>
    (span, (w.chunks span.index).overlaySlices.map (w.chunks span.index).slices)

/-- `overlay_dirty_impl`: whether the request is covered, and the buffer. -/
def overlayDirtyImpl (offset : Nat) (buf : List UInt8) : Bool × List UInt8 :=
  if buf = [] then (true, buf)
  else
    let refs := w.sliceRefs (splitChunkSpans cfg offset buf.length)
    if refs.any (fun entry => entry.2.any (touches cfg entry.1)) = false then (false, buf)
    else
      let out := refs.foldl (fun out entry =>
        entry.2.foldl (overlaySlice cfg offset entry.1) out)
        (buf, Intervals.new offset (offset + buf.length))
      (out.2.collect.isEmpty, out.1)

def overlayDirty (offset : Nat) (buf : List UInt8) : List UInt8 :=
  (w.overlayDirtyImpl cfg offset buf).2

def readDirtyIfFullyCovered (offset len : Nat) : Option (List UInt8) :=
  let out := w.overlayDirtyImpl cfg offset (replicate len 0)
  if out.1 then some out.2 else none

/-- The patches one slice adds to a snapshot. -/
def slicePatches (offset : Nat) (span : Span) (s : SliceState) : List (Nat × List UInt8) :=
  let chunkStart := span.index * cfg.chunkSize
  if s.canOverlayRead cfg = false ∨ readEnd span s ≤ readStart span s then []
  else
    let copied := s.data.copyWrittenInto cfg (readStart span s - s.offset)
      (replicate (readEnd span s - readStart span s) 0)
    copied.2.map fun range =>
      let srcStart := range.1 - (readStart span s - s.offset)
      let srcEnd := range.2 - (readStart span s - s.offset)
      (chunkStart + s.offset + range.1 - offset, (copied.1.drop srcStart).take (srcEnd - srcStart))

def snapshotDirtyOverlay (offset len : Nat) : List (Nat × List UInt8) :=
  if len = 0 then []
  else (w.sliceRefs (splitChunkSpans cfg offset len)).flatMap fun entry =>
    entry.2.flatMap (slicePatches cfg offset entry.1)

/-- What the held slices have at a file position, the newest on top. -/
def shown (p : Nat) : Option UInt8 :=
  let c := w.chunks (p / cfg.chunkSize)
  stack (c.overlaySlices.map fun index => (c.slices index).layer cfg) (p % cfg.chunkSize)

/-! ### One slice -/

variable {cfg} {buf : List UInt8}

theorem copyWrittenInto_solid {s : SliceState} (solid : s.Solid cfg) {start : Nat}
    (filled : 0 < buf.length) (inside : start + buf.length ≤ s.data.len) :
    s.data.copyWrittenInto cfg start buf =
      (s.data.copyInto cfg start buf.length, [(start, start + buf.length)]) := by
  have length : (s.data.copyInto cfg start buf.length).length = buf.length := by
    rw [length_copyInto]
    omega
  rw [CacheSlice.copyWrittenInto, solid.ranges.eq_singleton (by omega)]
  simp only [foldl_cons, foldl_nil, Nat.max_zero, Nat.min_eq_left inside,
    Nat.add_sub_cancel_left, length, Nat.sub_self]
  rw [if_neg (by omega), if_pos filled, patch, Nat.zero_add, length, drop_length,
    take_zero, nil_append, append_nil, nil_append]

/-- The one patch of a slice without holes. -/
def patchOf (cfg : WriteConfig) (offset : Nat) (span : Span) (s : SliceState) :
    Option (Nat × List UInt8) :=
  if s.canOverlayRead cfg = false ∨ readEnd span s ≤ readStart span s then none
  else some (span.index * cfg.chunkSize + readStart span s - offset,
    s.data.copyInto cfg (readStart span s - s.offset) (readEnd span s - readStart span s))

/-- The span lies in the request. -/
def InRequest (cfg : WriteConfig) (offset len : Nat) (span : Span) : Prop :=
  offset ≤ span.index * cfg.chunkSize + span.offset ∧
    span.index * cfg.chunkSize + span.offset + span.len ≤ offset + len

variable {offset len : Nat} {span : Span} {s : SliceState}

theorem patchOf_fits (inside : InRequest cfg offset len span) {item : Nat × List UInt8}
    (picked : patchOf cfg offset span s = some item) : item.1 + item.2.length ≤ len := by
  unfold patchOf at picked
  split at picked
  · cases picked
  cases picked
  rw [length_copyInto]
  simp only [InRequest, readStart, readEnd] at *
  omega

section

variable (solid : s.Solid cfg)

include solid

theorem overlaySlice_eq (out : List UInt8 × Intervals Nat)
    (inside : InRequest cfg offset out.1.length span) : overlaySlice cfg offset span out s =
      match patchOf cfg offset span s with
      | none => out
      | some item => (patch out.1 item.1 item.2,
          (out.2.cut (offset + item.1) (offset + item.1 + item.2.length)).2) := by
  unfold overlaySlice patchOf
  split
  · rfl
  rename_i reads
  simp only [InRequest, readStart, readEnd] at inside reads ⊢
  generalize starts : max span.offset s.offset = readStart at reads ⊢
  generalize ends : min (span.offset + span.len) (s.offset + s.data.len) = readEnd at reads ⊢
  generalize place : span.index * cfg.chunkSize = chunkStart at inside ⊢
  have size : ((out.1.drop (chunkStart + readStart - offset)).take
      (chunkStart + readEnd - offset - (chunkStart + readStart - offset))).length =
      readEnd - readStart := by
    rw [length_take, length_drop]
    omega
  have length : (s.data.copyInto cfg (readStart - s.offset) (readEnd - readStart)).length =
      readEnd - readStart := by
    rw [length_copyInto]
    omega
  rw [copyWrittenInto_solid solid (by omega) (by omega), size]
  simp only [foldl_cons, foldl_nil, length]
  rw [show chunkStart + s.offset + (readStart - s.offset) =
      offset + (chunkStart + readStart - offset) from by omega,
    show chunkStart + s.offset + (readStart - s.offset + (readEnd - readStart)) =
      offset + (chunkStart + readStart - offset) + (readEnd - readStart) from by omega]

theorem slicePatches_eq :
    slicePatches cfg offset span s = (patchOf cfg offset span s).toList := by
  unfold slicePatches patchOf
  split
  · rfl
  rename_i reads
  simp only [readStart, readEnd] at reads ⊢
  generalize starts : max span.offset s.offset = readStart at reads ⊢
  generalize ends : min (span.offset + span.len) (s.offset + s.data.len) = readEnd at reads ⊢
  have length : (s.data.copyInto cfg (readStart - s.offset) (readEnd - readStart)).length =
      readEnd - readStart := by
    rw [length_copyInto]
    omega
  rw [copyWrittenInto_solid solid (by rw [length_replicate]; omega) (by
    rw [length_replicate]
    omega)]
  simp only [map_cons, length_replicate, Nat.sub_self, drop_zero,
    Nat.add_sub_cancel_left, Nat.sub_zero]
  rw [take_of_length_le length.le]
  congr 2
  omega

theorem touches_iff :
    touches cfg span s = true ↔ (patchOf cfg offset span s).isSome = true := by
  unfold touches patchOf
  simp only [Bool.and_eq_true, decide_eq_true_eq]
  split
  · rename_i skipped
    simp only [isSome_none, Bool.false_eq_true, iff_false]
    rintro ⟨⟨readable, proper⟩, _⟩
    rcases skipped with hidden | empty
    · rw [readable] at hidden
      cases hidden
    · omega
  · rename_i reads
    rw [not_or, Nat.not_le, Bool.not_eq_false] at reads
    simp only [isSome_some, iff_true]
    refine ⟨⟨reads.1, reads.2⟩, solid.overlap_iff.mpr ⟨readStart span s, by omega, ?_⟩⟩
    rw [solid.wrote_iff]
    simp only [readStart, readEnd] at reads ⊢
    omega

theorem patchOf_layer (inside : InRequest cfg offset len span) (i : Nat) :
    ((patchOf cfg offset span s).bind fun item => patchLayer item i) =
      if span.index * cfg.chunkSize + span.offset ≤ offset + i ∧
          offset + i < span.index * cfg.chunkSize + span.offset + span.len then
        s.layer cfg (offset + i - span.index * cfg.chunkSize) else none := by
  unfold patchOf
  simp only [InRequest] at inside
  generalize span.index * cfg.chunkSize = chunkStart at inside ⊢
  split
  · rename_i skipped
    rw [bind_none]
    split
    · rcases skipped with hidden | empty
      · rw [SliceState.layer_unreadable hidden]
      rw [SliceState.layer_of_not_wrote]
      rw [Bool.eq_false_iff]
      intro held
      have := solid.wrote_iff.mp held
      simp only [readStart, readEnd] at empty
      omega
    · rfl
  · rename_i reads
    rw [not_or, Bool.not_eq_false] at reads
    have starts : readStart span s = max span.offset s.offset := rfl
    have ends : readEnd span s = min (span.offset + span.len) (s.offset + s.data.len) := rfl
    rw [bind_some, solid.layer_eq reads.1]
    generalize readStart span s = first at starts reads ⊢
    generalize readEnd span s = last at ends reads ⊢
    by_cases held : chunkStart + first ≤ offset + i ∧ offset + i < chunkStart + last
    · rw [patchLayer_mk, if_pos (by omega), if_pos (by omega), if_pos (by omega),
        CacheSlice.getElem?_copyInto s.data (by omega) (by omega)]
      congr 2
      omega
    have none : patchLayer (chunkStart + first - offset,
        s.data.copyInto cfg (first - s.offset) (last - first)) i = none := by
      rw [← not_isSome_iff_eq_none, patchLayer_isSome, patchSpan,
        length_copyInto]
      simp only [Within]
      omega
    rw [none]
    split
    · rw [if_neg (by omega)]
    · rfl

end

/-! ### A whole request -/

/-- The patches of all slices, in overlay order. -/
def patches (cfg : WriteConfig) (offset : Nat) (refs : List (Span × List SliceState)) :
    List (Nat × List UInt8) :=
  refs.flatMap fun entry => entry.2.filterMap (patchOf cfg offset entry.1)

/-- Cut what the patches cover off the missing ranges. -/
def cutAll (offset : Nat) (missing : Intervals Nat) (items : List (Nat × List UInt8)) :
    Intervals Nat :=
  items.foldl (fun missing item =>
    (missing.cut (offset + item.1) (offset + item.1 + item.2.length)).2) missing

theorem foldl_overlaySlice {slices : List SliceState} (solid : ∀ s ∈ slices, s.Solid cfg)
    (out : List UInt8 × Intervals Nat) (inside : InRequest cfg offset out.1.length span) :
    slices.foldl (overlaySlice cfg offset span) out =
      (applyPatches out.1 (slices.filterMap (patchOf cfg offset span)),
        cutAll offset out.2 (slices.filterMap (patchOf cfg offset span))) := by
  induction slices generalizing out with
  | nil => rfl
  | cons s rest ih =>
    rw [forall_mem_cons] at solid
    rw [foldl_cons, overlaySlice_eq solid.1 out inside]
    cases picked : patchOf cfg offset span s with
    | none => rw [filterMap_cons_none picked, ih solid.2 out inside]
    | some item =>
      have length := length_patch out.1 item.1 item.2 (patchOf_fits inside picked)
      rw [filterMap_cons_some picked, ih solid.2 _ (by rw [length]; exact inside)]
      rfl

theorem foldl_refs {refs : List (Span × List SliceState)}
    (solid : ∀ entry ∈ refs, ∀ s ∈ entry.2, s.Solid cfg) {out : List UInt8 × Intervals Nat}
    (inside : ∀ entry ∈ refs, InRequest cfg offset out.1.length entry.1) :
    refs.foldl (fun out entry => entry.2.foldl (overlaySlice cfg offset entry.1) out) out =
      (applyPatches out.1 (patches cfg offset refs),
        cutAll offset out.2 (patches cfg offset refs)) := by
  induction refs generalizing out with
  | nil => rfl
  | cons entry rest ih =>
    rw [forall_mem_cons] at solid inside
    have fits : ∀ item ∈ entry.2.filterMap (patchOf cfg offset entry.1),
        item.1 + item.2.length ≤ out.1.length := by
      intro item listed
      obtain ⟨s, _, picked⟩ := mem_filterMap.mp listed
      exact patchOf_fits inside.1 picked
    rw [foldl_cons, foldl_overlaySlice solid.1 out inside.1, ih solid.2]
    · simp only [patches, flatMap_cons, applyPatches, cutAll, foldl_append]
    · rw [length_applyPatches _ _ fits]
      exact inside.2

theorem fits_patches {refs : List (Span × List SliceState)}
    (inside : ∀ entry ∈ refs, InRequest cfg offset len entry.1) (item : Nat × List UInt8)
    (listed : item ∈ patches cfg offset refs) : item.1 + item.2.length ≤ len := by
  obtain ⟨entry, mem, listed⟩ := mem_flatMap.mp listed
  obtain ⟨s, _, picked⟩ := mem_filterMap.mp listed
  exact patchOf_fits (inside entry mem) picked

theorem cutAll_points (missing : Intervals Nat) (items : List (Nat × List UInt8))
    (proper : ∀ part ∈ missing.spans, part.1 < part.2) :
    (∀ part ∈ (cutAll offset missing items).spans, part.1 < part.2) ∧
      ∀ p, (∃ part ∈ (cutAll offset missing items).spans, Within part p) ↔
        (∃ part ∈ missing.spans, Within part p) ∧
          ∀ item ∈ items, ¬ Within (offset + item.1, offset + item.1 + item.2.length) p := by
  induction items generalizing missing with
  | nil => exact ⟨proper, fun p => by simp [cutAll]⟩
  | cons item rest ih =>
    obtain ⟨cutProper, cutPoints⟩ :=
      missing.cut_points (offset + item.1) (offset + item.1 + item.2.length) proper
    obtain ⟨still, points⟩ := ih _ cutProper
    refine ⟨still, fun p => (points p).trans ?_⟩
    rw [cutPoints, forall_mem_cons, and_assoc]

theorem cutAll_isEmpty (filled : 0 < len) (items : List (Nat × List UInt8)) :
    (cutAll offset (Intervals.new offset (offset + len)) items).collect.isEmpty = true ↔
      ∀ i < len, (stack (items.map patchLayer) i).isSome = true := by
  obtain ⟨proper, points⟩ := cutAll_points (Intervals.new offset (offset + len)) items (by
    intro part listed
    obtain rfl := List.mem_singleton.mp listed
    omega)
  have hit : ∀ i, (stack (items.map patchLayer) i).isSome = true ↔
      ¬ ∀ item ∈ items, ¬ Within (offset + item.1, offset + item.1 + item.2.length)
      (offset + i) := by
    intro i
    rw [isSome_iff_ne_none, ne_eq, stack_eq_none, List.forall_mem_map]
    refine not_congr (forall₂_congr fun item _ => ?_)
    rw [← not_isSome_iff_eq_none, patchLayer_isSome]
    simp only [patchSpan, Within]
    omega
  rw [List.isEmpty_iff, Intervals.collect]
  constructor
  · intro empty i inside
    rw [hit]
    intro uncovered
    obtain ⟨part, listed, _⟩ := (points (offset + i)).mpr
      ⟨⟨_, mem_singleton_self _, by simp only [Within]; omega⟩, uncovered⟩
    rw [empty] at listed
    cases listed
  · intro covered
    refine eq_nil_iff_forall_not_mem.mpr fun part listed => ?_
    obtain ⟨⟨whole, mem, inside⟩, uncovered⟩ := (points part.1).mp
      ⟨part, listed, le_rfl, proper part listed⟩
    obtain rfl := mem_singleton.mp mem
    simp only [Within] at inside
    have here := covered (part.1 - offset) (by omega)
    rw [hit, Nat.add_sub_cancel' inside.1] at here
    exact here uncovered

theorem splitChunkSpans_tiles (positive : 0 < cfg.chunkSize) (offset len : Nat) :
    Tiles cfg.chunkSize offset len (splitChunkSpans cfg offset len) := by
  unfold splitChunkSpans Span.splitInto
  rw [Nat.div_add_mod']
  exact Chunk.collect_tiles cfg.chunkSize positive len offset len (le_rfl)

theorem mem_overlaySlices {c : ChunkState} {index : Nat} :
    index ∈ c.overlaySlices ↔ index ∈ c.held := by
  unfold ChunkState.overlaySlices
  rw [((perm_insertionSort _ _).map Prod.fst).mem_iff, zipIdx_map_fst]

/-- No held slice has holes. -/
def AllSolid (cfg : WriteConfig) (w : FileWriter) : Prop :=
  ∀ k, ∀ index ∈ (w.chunks k).held, ((w.chunks k).slices index).Solid cfg

variable {w : FileWriter} {spans : List Span}

theorem AllSolid.slices (solid : AllSolid cfg w) (k : Nat) :
    ∀ s ∈ (w.chunks k).overlaySlices.map (w.chunks k).slices, s.Solid cfg := by
  intro s mem
  obtain ⟨index, held, rfl⟩ := mem_map.mp mem
  exact solid k index (mem_overlaySlices.mp held)

theorem AllSolid.refs (solid : AllSolid cfg w) (entry : Span × List SliceState)
    (listed : entry ∈ w.sliceRefs spans) : ∀ s ∈ entry.2, s.Solid cfg := by
  obtain ⟨span, _, rfl⟩ := mem_map.mp listed
  exact solid.slices span.index

theorem stack_span {slices : List SliceState} (solid : ∀ s ∈ slices, s.Solid cfg)
    (inside : InRequest cfg offset len span) (i : Nat) :
    stack ((slices.filterMap (patchOf cfg offset span)).map patchLayer) i =
      if span.index * cfg.chunkSize + span.offset ≤ offset + i ∧
          offset + i < span.index * cfg.chunkSize + span.offset + span.len then
        stack (slices.map (SliceState.layer cfg)) (offset + i - span.index * cfg.chunkSize)
      else none := by
  rw [stack_filterMap]
  split
  · rename_i here
    refine stack_map_congr fun s listed => ?_
    rw [patchOf_layer (solid s listed) inside, if_pos here]
  rename_i outside
  rw [stack_eq_none, List.forall_mem_map]
  intro s listed
  exact (patchOf_layer (solid s listed) inside i).trans (if_neg outside)

section

variable (positive : 0 < cfg.chunkSize)

include positive

/-- The patches of a request show what the slices show in it, and nothing else. -/
theorem stack_patches (solid : AllSolid cfg w) {pos count : Nat}
    (tiles : Tiles cfg.chunkSize pos count spans) (start : offset ≤ pos)
    (stop : pos + count ≤ offset + len) (i : Nat) :
    stack ((patches cfg offset (w.sliceRefs spans)).map patchLayer) i =
      if pos ≤ offset + i ∧ offset + i < pos + count then w.shown cfg (offset + i) else none := by
  induction tiles with
  | done pos =>
    rw [if_neg (by omega)]
    rfl
  | block pos count take rest taken bounded fits tail ih =>
    have whole := Nat.div_add_mod' pos cfg.chunkSize
    have inside : InRequest cfg offset len ⟨pos / cfg.chunkSize, pos % cfg.chunkSize, take⟩ :=
      ⟨by dsimp only; omega, by dsimp only; omega⟩
    have first := stack_span (solid.slices (pos / cfg.chunkSize)) inside i
    have later := ih (by omega) (by omega)
    simp only [sliceRefs, patches, map_cons, flatMap_cons, map_append,
      stack_append] at first later ⊢
    rw [later, first, whole]
    by_cases here : pos ≤ offset + i ∧ offset + i < pos + take
    · have chunk : (offset + i) / cfg.chunkSize = pos / cfg.chunkSize := by
        rw [Nat.div_eq_iff positive]
        omega
      have place : (offset + i) % cfg.chunkSize =
          offset + i - pos / cfg.chunkSize * cfg.chunkSize := by
        have := Nat.div_add_mod' (offset + i) cfg.chunkSize
        rw [chunk] at this
        omega
      rw [if_neg (by omega), if_pos here, if_pos (by omega), shown, chunk, place, List.map_map]
      rfl
    · rw [if_neg here, or_none]
      exact if_congr (by omega) rfl rfl

theorem inRequest_refs (w : FileWriter) (offset len : Nat) :
    ∀ entry ∈ w.sliceRefs (splitChunkSpans cfg offset len), InRequest cfg offset len entry.1 := by
  intro entry listed
  obtain ⟨span, mem, rfl⟩ := mem_map.mp listed
  exact (splitChunkSpans_tiles positive offset len).inside span mem

omit positive in
theorem snapshotDirtyOverlay_eq (solid : AllSolid cfg w) : w.snapshotDirtyOverlay cfg offset len =
      patches cfg offset (w.sliceRefs (splitChunkSpans cfg offset len)) := by
  unfold snapshotDirtyOverlay
  split
  · rename_i empty
    rw [empty]
    rfl
  refine flatMap_congr fun entry listed => ?_
  rw [filterMap_eq_flatMap_toList]
  exact flatMap_congr fun s mem => slicePatches_eq (solid.refs entry listed s mem)

/-- `overlay_dirty_impl` applies the snapshot's patches and tells whether they cover the request;
where no slice is touched there are none. -/
theorem overlayDirtyImpl_eq (solid : AllSolid cfg w) (filled : buf ≠ []) :
    w.overlayDirtyImpl cfg offset buf =
      ((cutAll offset (Intervals.new offset (offset + buf.length))
          (w.snapshotDirtyOverlay cfg offset buf.length)).collect.isEmpty,
        applyPatches buf (w.snapshotDirtyOverlay cfg offset buf.length)) := by
  rw [snapshotDirtyOverlay_eq solid]
  unfold overlayDirtyImpl
  rw [if_neg filled]
  dsimp only
  split
  · rename_i untouched
    have none : patches cfg offset (w.sliceRefs (splitChunkSpans cfg offset buf.length)) = [] := by
      rw [patches, flatMap_eq_nil_iff]
      intro entry listed
      rw [filterMap_eq_nil_iff]
      intro s mem
      rw [← not_isSome_iff_eq_none, ← touches_iff (solid.refs entry listed s mem)]
      intro touched
      rw [Bool.eq_false_iff] at untouched
      exact untouched (any_eq_true.mpr ⟨entry, listed, any_eq_true.mpr ⟨s, mem, touched⟩⟩)
    rw [none]
    rfl
  · rw [foldl_refs solid.refs (inRequest_refs positive w offset buf.length)]

theorem overlayDirtyImpl_spec (solid : AllSolid cfg w) (offset : Nat) (buf : List UInt8) :
    (w.overlayDirty cfg offset buf).length = buf.length ∧
      (∀ i < buf.length, (w.overlayDirty cfg offset buf)[i]? =
        (w.shown cfg (offset + i)).or buf[i]?) ∧
      ((w.overlayDirtyImpl cfg offset buf).1 = true ↔
        ∀ i < buf.length, (w.shown cfg (offset + i)).isSome = true) ∧
      applyPatches buf (w.snapshotDirtyOverlay cfg offset buf.length) =
        w.overlayDirty cfg offset buf := by
  by_cases empty : buf = []
  · subst empty
    exact ⟨rfl, fun _ inside => (Nat.not_lt_zero _ inside).elim,
      ⟨fun _ _ inside => (Nat.not_lt_zero _ inside).elim, fun _ => rfl⟩, rfl⟩
  have fits := fits_patches (inRequest_refs positive w offset buf.length)
  have top : ∀ i < buf.length, stack ((w.snapshotDirtyOverlay cfg offset buf.length).map
      patchLayer) i = w.shown cfg (offset + i) := by
    intro i inside
    rw [snapshotDirtyOverlay_eq solid, stack_patches positive solid
      (splitChunkSpans_tiles positive offset buf.length) (le_rfl) (le_rfl),
      if_pos (by omega)]
  rw [← snapshotDirtyOverlay_eq solid] at fits
  unfold overlayDirty
  rw [overlayDirtyImpl_eq positive solid empty]
  refine ⟨length_applyPatches _ _ fits, fun i inside => ?_, ?_, rfl⟩
  · rw [getElem?_applyPatches _ _ _ fits, top i inside]
  · rw [cutAll_isEmpty (length_pos_iff.mpr empty)]
    exact forall₂_congr fun i inside => by rw [top i inside]

end

end FileWriter

end BrewFs.Vfs
