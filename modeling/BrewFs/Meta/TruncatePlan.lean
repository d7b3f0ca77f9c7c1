import Mathlib.Tactic.Ring

/- Chunk ids (`vfs/mod.rs`) and the truncate plan the stores share (`meta/stores/mod.rs`).
Sizes and ids are `u64` values held as natural numbers. -/
namespace BrewFs.Meta

def chunkIdBase : Nat := 1000000000

/-- `chunk_id_for`: inodes are `i64`, and an id that does not fit `u64` is an error. -/
def chunkIdFor (ino : Int) (chunkIndex : Nat) : Option Nat :=
  if ino < 0 then none
  else
    let scaled := ino.toNat * chunkIdBase
    if scaled + chunkIndex < 2 ^ 64 then some (scaled + chunkIndex) else none

/-- `i64::try_from` of a chunk id, as the row filters need it. -/
def rowChunkId (ino : Int) (chunkIndex : Nat) : Option Nat :=
  (chunkIdFor ino chunkIndex).bind fun id => if id < 2 ^ 63 then some id else none

/-- Inverse of `chunkIdFor` on chunk indices below the base. -/
def extractInoAndChunkIndex (chunkId : Nat) : Int × Nat :=
  ((chunkId / chunkIdBase : Nat), chunkId % chunkIdBase)

structure TruncatePlan where
  cutoffChunk : Nat
  cutoffOffset : Nat
  dropStart : Nat
  oldChunkCount : Nat
  deriving DecidableEq, Repr

inductive TrimAction where
  | keep
  | drop
  | truncate (newLen : Nat)
  deriving DecidableEq, Repr

def truncatePlan (newSize oldSize chunkSize : Nat) : Option TruncatePlan :=
  if oldSize ≤ newSize ∨ chunkSize = 0 then none
  else
    let cutoffChunk := newSize / chunkSize
    let cutoffOffset := newSize % chunkSize
    let oldChunkCount := oldSize / chunkSize + (if oldSize % chunkSize = 0 then 0 else 1)
    let dropStart := if cutoffOffset = 0 then cutoffChunk else cutoffChunk + 1
    some ⟨cutoffChunk, cutoffOffset, dropStart, oldChunkCount⟩

/-- `saturating_add` on `u64`. -/
def saturatingAdd (a b : Nat) : Nat := min (a + b) (2 ^ 64 - 1)

def trimAction (offset length cutoffOffset : Nat) : TrimAction :=
  if cutoffOffset ≤ offset then .drop
  else if cutoffOffset < saturatingAdd offset length then .truncate (cutoffOffset - offset)
  else .keep

/-- `apply_truncate_plan`: shorten the cutoff chunk, then drop those behind it. -/
def applyTruncatePlan {σ : Type} (newSize oldSize chunkSize : Nat)
    (rewrite delete : Nat → Nat → σ → Option σ) (state : σ) : Option σ :=
  match truncatePlan newSize oldSize chunkSize with
  | none => some state
  | some plan =>
    let rewritten :=
      if 0 < plan.cutoffOffset then rewrite plan.cutoffChunk plan.cutoffOffset state
      else some state
    rewritten.bind fun state =>
      if plan.dropStart < plan.oldChunkCount then delete plan.dropStart plan.oldChunkCount state
      else some state

end BrewFs.Meta
