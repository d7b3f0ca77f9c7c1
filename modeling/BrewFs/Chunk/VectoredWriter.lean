import BrewFs.Chunk.Span

/-! `chunk/writer.rs`: a payload in fragments is cut into blocks without being concatenated. -/

namespace BrewFs.Chunk

open List

/-- The fragments from the source's `idx` on, and the offset in the first of them. -/
structure ChunkCursor where
  rest : List (List UInt8)
  off : Nat

namespace ChunkCursor

def new (chunks : List (List UInt8)) : ChunkCursor := ⟨chunks, 0⟩

/-- The loop of `take`; `none` when the fragment index is out of bounds. -/
def takeLoop : List (List UInt8) → Nat → Nat → Option (List (List UInt8) × ChunkCursor)
  | rest, off, 0 => some ([], ⟨rest, off⟩)
  | [], _, _ + 1 => none
  | chunk :: rest, off, need + 1 =>
    let take := min (need + 1) (chunk.length - off)
    let piece := (chunk.drop off).take take
    if off + take = chunk.length then
      (takeLoop rest 0 (need + 1 - take)).map fun out => (piece :: out.1, out.2)
    else
      -- the fragment has bytes left, so the need is met
      some ([piece], ⟨chunk :: rest, off + take⟩)

variable (cursor : ChunkCursor)

def take (need : Nat) : Option (List (List UInt8) × ChunkCursor) :=
  takeLoop cursor.rest cursor.off need

/-- What the cursor has still to hand out. -/
def bytes : List UInt8 := cursor.rest.flatten.drop cursor.off

/-- The offset lies in the first fragment. -/
def Valid : Prop := cursor.off ≤ (cursor.rest.headD []).length

theorem takeLoop_spec {rest : List (List UInt8)} (off need : Nat) (valid : Valid ⟨rest, off⟩)
    (enough : need ≤ (bytes ⟨rest, off⟩).length) :
    ∃ pieces next, takeLoop rest off need = some (pieces, next) ∧ next.Valid ∧
      pieces.flatten = (bytes ⟨rest, off⟩).take need ∧
      next.bytes = (bytes ⟨rest, off⟩).drop need := by
  induction rest generalizing off need with
  | nil =>
    obtain rfl : need = 0 := by simpa [bytes] using enough
    exact ⟨[], ⟨[], off⟩, by simp [takeLoop], valid, by simp⟩
  | cons chunk rest ih =>
    cases need with
    | zero => exact ⟨[], ⟨chunk :: rest, off⟩, by simp [takeLoop], valid, by simp⟩
    | succ need =>
      have inside : off ≤ chunk.length := valid
      have whole : bytes ⟨chunk :: rest, off⟩ = chunk.drop off ++ rest.flatten := by
        simp [bytes, drop_append_of_le_length inside]
      have front : (chunk.drop off).length = chunk.length - off := length_drop
      rw [whole] at enough ⊢
      rw [length_append] at enough
      rw [takeLoop]
      split
      · have all : min (need + 1) (chunk.length - off) = chunk.length - off := by omega
        obtain ⟨pieces, next, found, fine, taken, left⟩ := ih 0 (need + 1 - (chunk.length - off))
          (Nat.zero_le _) (by simp only [bytes, drop_zero]; omega)
        rw [all, found]
        refine ⟨_, next, rfl, fine, ?_, ?_⟩ <;>
          have short : (chunk.drop off).length ≤ need + 1 := by omega
        · rw [flatten_cons, taken, take_append, front, take_of_length_le short,
            take_of_length_le (Nat.le_of_eq front)]
          rfl
        · rw [left, drop_append, front, drop_of_length_le short]
          rfl
      · have met : min (need + 1) (chunk.length - off) = need + 1 := by omega
        have short : off + (need + 1) ≤ chunk.length := by omega
        rw [met]
        refine ⟨_, _, rfl, short, ?_, ?_⟩
        · rw [flatten_singleton, take_append_of_le_length (by omega)]
        · rw [drop_append_of_le_length (by omega), drop_drop, bytes,
            flatten_cons, drop_append_of_le_length short]

end ChunkCursor

/-- One call of `write_fresh_vectored`: slice, block, offset in the block and the pieces. -/
structure BlockUpload where
  sliceId : Nat
  index : Nat
  offset : Nat
  pieces : List (List UInt8)

/-- The loop over the blocks. -/
def blockUploads (sliceId : Nat) : List Span → ChunkCursor → Option (List BlockUpload)
  | [], _ => some []
  | span :: rest, cursor => do
    let (pieces, cursor) ← cursor.take span.len
    let later ← blockUploads sliceId rest cursor
    return ⟨sliceId, asU32 span.index, span.offset, pieces⟩ :: later

/-- The uploads of `write_at_vectored`. -/
def writeAtVectored (layout : ChunkLayout) (sliceId offset : Nat) (chunks : List (List UInt8)) :
    Option (List BlockUpload) :=
  let totalLen := (chunks.map length).sum
  blockUploads sliceId (blockSpanIterSlice offset totalLen layout) (ChunkCursor.new chunks)

/-- The uploads carry the slice's bytes from `pos` on: their pieces make them up, and a block
receives exactly those that fall into it, at their place. -/
structure Delivers (layout : ChunkLayout) (sliceId pos : Nat) (bytes : List UInt8)
    (uploads : List BlockUpload) : Prop where
  owned : ∀ upload ∈ uploads, upload.sliceId = sliceId
  whole : (uploads.map (·.pieces.flatten)).flatten = bytes
  places : ∀ index i byte, (∃ upload ∈ uploads, upload.index = index ∧ upload.offset ≤ i ∧
      upload.pieces.flatten[i - upload.offset]? = some byte) ↔
    i < layout.blockSize ∧ ∃ p, pos + p = index * layout.blockSize + i ∧ bytes[p]? = some byte

theorem blockUploads_spec {layout : ChunkLayout} {pos len : Nat} {spans : List Span}
    (sliceId : Nat) (tiles : Tiles layout.blockSize pos len spans) (cursor : ChunkCursor)
    (valid : cursor.Valid) (size : cursor.bytes.length = len)
    (bound : pos + len ≤ layout.chunkSize) :
    ∃ uploads, blockUploads sliceId spans cursor = some uploads ∧
      uploads.map (·.pieces.flatten.length) = spans.map (·.len) ∧
      Delivers layout sliceId pos cursor.bytes uploads := by
  induction tiles generalizing cursor with
  | done pos =>
    have empty : cursor.bytes = [] := length_eq_zero_iff.mp size
    exact ⟨[], rfl, rfl, nofun, empty.symm, by simp [empty]⟩
  | block pos len take rest positive bounded fits tail ih =>
    obtain ⟨pieces, next, found, fine, taken, left⟩ :=
      ChunkCursor.takeLoop_spec cursor.off take valid (size ▸ bounded)
    obtain ⟨later, sent, sizes, owned, whole, places⟩ := ih next fine
      (by rw [left, length_drop, size]) (by omega)
    have index : asU32 (pos / layout.blockSize) = pos / layout.blockSize :=
      asU32_blockIndex layout pos (by omega)
    have exact : pieces.flatten.length = take := by
      rw [taken, length_take, size, Nat.min_eq_left bounded]
    refine ⟨⟨sliceId, pos / layout.blockSize, pos % layout.blockSize, pieces⟩ :: later, ?_, ?_,
      forall_mem_cons.mpr ⟨rfl, owned⟩, ?_, ?_⟩
    · simp [blockUploads, ChunkCursor.take, found, sent, index]
    · rw [map_cons, map_cons, sizes, exact]
    · rw [map_cons, flatten_cons, whole, taken, left, take_append_drop]
    intro k i byte
    simp only [mem_cons, or_and_right, exists_or, exists_eq_left]
    rw [places, left]
    have base := Nat.div_add_mod' pos layout.blockSize
    constructor
    · rintro (⟨rfl, low, here⟩ | ⟨inBlock, p, place, here⟩)
      · have short := (List.getElem?_eq_some_iff.mp here).1
        rw [taken, getElem?_take_of_lt (by omega)] at here
        exact ⟨by omega, _, by omega, here⟩
      · rw [getElem?_drop] at here
        exact ⟨inBlock, take + p, by omega, here⟩
    rintro ⟨inBlock, p, place, here⟩
    by_cases now : p < take
    · obtain ⟨quotient, remainder⟩ := div_mod_in_block layout.blockSize pos p
        layout.blockSize_pos (by omega)
      rw [place] at quotient remainder
      rw [Nat.mul_comm, Nat.mul_add_div layout.blockSize_pos, Nat.div_eq_of_lt inBlock]
        at quotient
      rw [Nat.mul_comm, Nat.mul_add_mod, Nat.mod_eq_of_lt inBlock] at remainder
      refine .inl ⟨quotient.symm, by omega, ?_⟩
      rw [taken, getElem?_take_of_lt (by omega), remainder, Nat.add_sub_cancel_left]
      exact here
    · refine .inr ⟨inBlock, p - take, by omega, ?_⟩
      rw [getElem?_drop, Nat.add_sub_cancel' (by omega)]
      exact here

/-- The vectored writer finds a fragment for every byte, and each block gets a piece as long as its
span. -/
theorem writeAtVectored_spec (layout : ChunkLayout) (sliceId offset : Nat)
    (chunks : List (List UInt8)) (bound : offset + chunks.flatten.length ≤ layout.chunkSize) :
    ∃ uploads, writeAtVectored layout sliceId offset chunks = some uploads ∧
      uploads.map (·.pieces.flatten.length) =
        (blockSpanIterSlice offset chunks.flatten.length layout).map (·.len) ∧
      Delivers layout sliceId offset chunks.flatten uploads := by
  rw [writeAtVectored, ← length_flatten]
  exact blockUploads_spec sliceId (blockSpanIterRange_tiles layout offset _)
    (ChunkCursor.new chunks) (Nat.zero_le _) rfl bound

theorem writeAtVectored_spec_fragments :
    ∃ uploads, writeAtVectored smallLayout 1 2 [[1], [], [2, 3, 4]] = some uploads ∧
      (uploads.map (·.pieces.flatten)).flatten = [1, 2, 3, 4] := by
  obtain ⟨uploads, sent, _, delivers⟩ :=
    writeAtVectored_spec smallLayout 1 2 [[1], [], [2, 3, 4]] (by decide)
  exact ⟨uploads, sent, delivers.whole⟩

end BrewFs.Chunk
