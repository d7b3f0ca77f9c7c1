import BrewFs.Chunk.Span
import BrewFs.Chunk.Slice
import BrewFs.Library.Buffer

/- `chunk/store.rs`: blocks addressed by slice id and block index, and the byte a reader must
find at a chunk offset. -/
namespace BrewFs.Chunk

open BrewFs.Buffer

/-- `(slice_id, block_index)`. -/
abbrev BlockKey := Nat × Nat

abbrev BlockStore := BlockKey → Option (List UInt8)

variable (store : BlockStore) (key : BlockKey)

/-- Exactly `len` bytes of a block; a missing or short block is an error. -/
def readRange (offset len : Nat) : Option (List UInt8) :=
  let src := (store key).getD []
  let available := min (src.length - offset) len
  if available = len then some ((src.drop offset).take len) else none

/-- `write_fresh_range`: grow the block with zeros to the written range, then fill it. -/
def writeFreshRange (offset : Nat) (data : List UInt8) : BlockStore :=
  let entry := (store key).getD []
  let stop := offset + data.length
  let resized := entry ++ List.replicate (stop - entry.length) 0
  Function.update store key (some (patch resized offset data))

/-- `delete_range`: remove `blockCount` blocks from `key.2` on. -/
def deleteRange (blockCount : Nat) : BlockStore :=
  fun other =>
    if other.1 = key.1 ∧ key.2 ≤ other.2 ∧ other.2 < key.2 + asU32 blockCount then none
    else store other

variable (layout : ChunkLayout) (store : BlockStore)

/-- Byte `i` of a slice as its blocks hold it. -/
def sliceByte (sliceId i : Nat) : Option UInt8 :=
  (store (sliceId, i / layout.blockSize)).bind fun block => block[i % layout.blockSize]?

/-- Every byte of the slice is present in its blocks. -/
def Readable (slice : SliceDesc) : Prop :=
  ∀ i < slice.length, (sliceByte layout store slice.sliceId i).isSome

/-- The chunk's byte at `p`: that of the last covering slice, or zero in a hole. -/
def chunkByte (slices : List SliceDesc) (p : Nat) : Option UInt8 :=
  match owner slices p with
  | none => some 0
  | some slice =>
    (store (slice.sliceId, (p - slice.offset) / layout.blockSize)).bind
      fun block => block[(p - slice.offset) % layout.blockSize]?

variable {layout : ChunkLayout} {store : BlockStore} {slices : List SliceDesc} {p : Nat}

theorem chunkByte_of_owner {slice : SliceDesc} (owned : owner slices p = some slice) :
    chunkByte layout store slices p = sliceByte layout store slice.sliceId (p - slice.offset) := by
  rw [chunkByte, owned]
  rfl

theorem chunkByte_of_hole (hole : owner slices p = none) :
    chunkByte layout store slices p = some 0 := by
  rw [chunkByte, hole]

theorem chunkByte_isSome (readable : ∀ slice ∈ slices, Readable layout store slice) (p : Nat) :
    (chunkByte layout store slices p).isSome := by
  cases owned : owner slices p with
  | none => simp [chunkByte_of_hole owned]
  | some slice =>
    have covers := owner_covers owned
    rw [chunkByte_of_owner owned]
    apply readable slice (owner_mem owned)
    simp only [SliceDesc.Covers, SliceDesc.stop] at covers
    omega

theorem readRange_block (layout : ChunkLayout) (store : BlockStore) (sliceId pos take : Nat)
    (positive : 0 < take) (fits : pos % layout.blockSize + take ≤ layout.blockSize)
    (present : ∀ i < take, (sliceByte layout store sliceId (pos + i)).isSome) :
    ∃ bytes, readRange store (sliceId, pos / layout.blockSize) (pos % layout.blockSize) take =
        some bytes ∧ bytes.length = take ∧
      ∀ i < take, bytes[i]? = sliceByte layout store sliceId (pos + i) := by
  have inBlock : ∀ i < take, sliceByte layout store sliceId (pos + i) =
      (store (sliceId, pos / layout.blockSize)).bind
        fun block => block[pos % layout.blockSize + i]? := by
    intro i upper
    have split := div_mod_in_block layout.blockSize pos i layout.blockSize_pos (by omega)
    rw [sliceByte, split.1, split.2]
  have last := present (take - 1) (by omega)
  rw [inBlock (take - 1) (by omega)] at last
  cases found : store (sliceId, pos / layout.blockSize) with
  | none => simp [found] at last
  | some block =>
    rw [found] at last
    have room : pos % layout.blockSize + (take - 1) < block.length := by
      simpa using last
    refine ⟨(block.drop (pos % layout.blockSize)).take take, ?_, ?_, ?_⟩
    · rw [readRange, found, Option.getD_some, if_pos (by omega)]
    · simp only [List.length_take, List.length_drop]
      omega
    · intro i upper
      rw [inBlock i upper, found, Option.bind_some, List.getElem?_take_of_lt upper,
        List.getElem?_drop]

end BrewFs.Chunk
