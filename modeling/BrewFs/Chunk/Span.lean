import Mathlib.Tactic.Ring

/- `chunk/span.rs`, `chunk/layout.rs` and the block iterators of `chunk/slice.rs`. -/
namespace BrewFs.Chunk

/-- The mount asks for a chunk size that is a multiple of a non-zero block size. `blocksFit` is the
assumption of the `u32` block index, which no check of the source makes. -/
structure ChunkLayout where
  chunkSize : Nat
  blockSize : Nat
  blockSize_pos : 0 < blockSize
  aligned : blockSize ∣ chunkSize
  blocksFit : chunkSize / blockSize < 2 ^ 32
  chunkFits : chunkSize < 2 ^ 64

/-- Two blocks of four bytes, for the witnesses. -/
def smallLayout : ChunkLayout := ⟨8, 4, by decide, by decide, by decide, by decide⟩

/-- `NumCastExt::as_u32` and `as u32`: the low 32 bits. -/
def asU32 (n : Nat) : Nat := n % 2 ^ 32

/-- A block index inside the chunk survives the cast to `u32`. -/
theorem asU32_blockIndex (layout : ChunkLayout) (p : Nat) (inside : p < layout.chunkSize) :
    asU32 (p / layout.blockSize) = p / layout.blockSize := by
  apply Nat.mod_eq_of_lt
  exact Nat.lt_of_le_of_lt (Nat.div_le_div_right (Nat.le_of_lt inside)) layout.blocksFit

structure Span where
  index : Nat
  offset : Nat
  len : Nat
  deriving DecidableEq, Repr

structure SpanIter where
  /-- Current absolute position. -/
  cursor : Nat
  /-- Remaining length to split. -/
  remaining : Nat
  /-- Target level alignment. -/
  targetAlign : Nat
  /-- Base offset for relative index calculation. -/
  baseOffset : Nat

def Span.splitInto (self : Span) (myAlign targetAlign : Nat) (relative : Bool) : SpanIter :=
  let startAbs := self.index * myAlign + self.offset
  let baseOffset := if relative then self.index * myAlign else 0
  ⟨startAbs, self.len, targetAlign, baseOffset⟩

namespace SpanIter

def next (self : SpanIter) : Option (Span × SpanIter) :=
  if self.remaining = 0 then none
  else
    let effectiveVal := self.cursor - self.baseOffset
    let index := effectiveVal / self.targetAlign
    let offset := effectiveVal % self.targetAlign
    let capacity := self.targetAlign - offset
    let take := min self.remaining capacity
    some (⟨index, offset, take⟩,
      { self with cursor := self.cursor + take, remaining := self.remaining - take })

/-- At most `fuel` items of the iterator. -/
def collect : Nat → SpanIter → List Span
  | 0, _ => []
  | fuel + 1, self =>
    match self.next with
    | none => []
    | some (span, rest) => span :: collect fuel rest

end SpanIter

variable (offset length : Nat) (layout : ChunkLayout)

/-- Every item takes a byte, so the remaining length bounds their number. -/
def blockSpanIterRange : List Span :=
  let chunkSpan : Span := ⟨0, offset, length⟩
  (chunkSpan.splitInto layout.chunkSize layout.blockSize true).collect length

def blockSpanIterChunk : List Span :=
  blockSpanIterRange offset length layout

def blockSpanIterSlice : List Span :=
  blockSpanIterRange offset length layout

/-- `spans` cut `[pos, pos + len)` at the block boundaries, in order. -/
inductive Tiles (blockSize : Nat) : Nat → Nat → List Span → Prop
  | done (pos : Nat) : Tiles blockSize pos 0 []
  | block (pos len take : Nat) (rest : List Span) (positive : 0 < take) (bounded : take ≤ len)
      (fits : pos % blockSize + take ≤ blockSize)
      (tail : Tiles blockSize (pos + take) (len - take) rest) :
      Tiles blockSize pos len (⟨pos / blockSize, pos % blockSize, take⟩ :: rest)

variable {blockSize pos len : Nat} {spans : List Span}

theorem Tiles.uncons {span : Span} {rest : List Span}
    (tiles : Tiles blockSize pos len (span :: rest)) :
    ∃ take, 0 < take ∧ take ≤ len ∧ pos % blockSize + take ≤ blockSize ∧
      span = ⟨pos / blockSize, pos % blockSize, take⟩ ∧
      Tiles blockSize (pos + take) (len - take) rest := by
  cases tiles with
  | block _ _ take _ positive bounded fits tail =>
    exact ⟨take, positive, bounded, fits, rfl, tail⟩

theorem Tiles.inside (tiles : Tiles blockSize pos len spans) : ∀ span ∈ spans,
    pos ≤ span.index * blockSize + span.offset ∧
      span.index * blockSize + span.offset + span.len ≤ pos + len := by
  induction tiles with
  | done pos => exact nofun
  | block pos len take rest positive bounded fits tail ih =>
    rw [List.forall_mem_cons]
    refine ⟨?_, fun span listed => ?_⟩
    · dsimp only
      rw [Nat.div_add_mod']
      omega
    · have := ih span listed
      omega

theorem Tiles.nil_length (tiles : Tiles blockSize pos len []) : len = 0 := by
  cases tiles
  rfl

theorem collect_tiles (blockSize : Nat) (positive : 0 < blockSize) (fuel pos len : Nat)
    (enough : len ≤ fuel) :
    Tiles blockSize pos len (SpanIter.collect fuel ⟨pos, len, blockSize, 0⟩) := by
  induction fuel generalizing pos len with
  | zero =>
    have empty : len = 0 := by omega
    subst empty
    exact Tiles.done pos
  | succ fuel ih =>
    by_cases empty : len = 0
    · subst empty
      exact Tiles.done pos
    have inBlock := Nat.mod_lt pos positive
    simp only [SpanIter.collect, SpanIter.next, empty, Nat.sub_zero]
    apply Tiles.block pos len _ _
    · omega
    · omega
    · omega
    · exact ih _ _ (by omega)

theorem blockSpanIterRange_tiles (layout : ChunkLayout) (offset length : Nat) :
    Tiles layout.blockSize offset length (blockSpanIterRange offset length layout) := by
  have tiles := collect_tiles layout.blockSize layout.blockSize_pos length offset length
    (Nat.le_refl _)
  simpa only [blockSpanIterRange, Span.splitInto, Nat.zero_mul, Nat.zero_add, if_true] using tiles

/-- Inside one block the quotient is constant and the remainder advances. -/
theorem div_mod_in_block (blockSize pos i : Nat) (positive : 0 < blockSize)
    (fits : pos % blockSize + i < blockSize) :
    (pos + i) / blockSize = pos / blockSize ∧ (pos + i) % blockSize = pos % blockSize + i := by
  have split := Nat.div_add_mod pos blockSize
  have whole : pos + i = (pos % blockSize + i) + blockSize * (pos / blockSize) := by omega
  rw [whole]
  constructor
  · rw [Nat.add_mul_div_left _ _ positive, Nat.div_eq_of_lt fits, Nat.zero_add]
  · rw [Nat.add_mul_mod_self_left, Nat.mod_eq_of_lt fits]

theorem Tiles.append {first second : Nat} {front back : List Span}
    (left : Tiles blockSize pos first front) (right : Tiles blockSize (pos + first) second back) :
    Tiles blockSize pos (first + second) (front ++ back) := by
  induction left with
  | done pos => simpa using right
  | block pos len take rest positive bounded fits tail ih =>
    apply Tiles.block pos _ take _ positive (by omega) fits
    rw [show len + second - take = len - take + second by omega]
    apply ih
    rwa [Nat.add_assoc, show take + (len - take) = len by omega]

/-- Whole blocks in front only raise the indices. -/
theorem Tiles.shift (count : Nat) (positive : 0 < blockSize)
    (tiles : Tiles blockSize pos len spans) : Tiles blockSize (count * blockSize + pos) len
      (spans.map fun span => { span with index := count + span.index }) := by
  induction tiles with
  | done pos => exact Tiles.done _
  | block pos len take rest used bounded fits tail ih =>
    have quotient : (count * blockSize + pos) / blockSize = count + pos / blockSize := by
      rw [Nat.add_comm, Nat.add_mul_div_right _ _ positive, Nat.add_comm]
    have remainder : (count * blockSize + pos) % blockSize = pos % blockSize := by
      rw [Nat.add_comm, Nat.add_mul_mod_self_right]
    have head := Tiles.block (count * blockSize + pos) len take _ used bounded
      (remainder ▸ fits) (by rw [Nat.add_assoc]; exact ih)
    rwa [quotient, remainder] at head

/-- A base in front of the range does not change the spans. -/
theorem collect_base (fuel base pos len align : Nat) :
    SpanIter.collect fuel ⟨base + pos, len, align, base⟩ =
      SpanIter.collect fuel ⟨pos, len, align, 0⟩ := by
  induction fuel generalizing pos len with
  | zero => rfl
  | succ fuel ih =>
    simp only [SpanIter.collect, SpanIter.next, Nat.add_sub_cancel_left, Nat.sub_zero]
    by_cases empty : len = 0
    · simp only [empty, if_true]
    · simp only [empty, if_false, Nat.add_assoc, ih]

end BrewFs.Chunk
