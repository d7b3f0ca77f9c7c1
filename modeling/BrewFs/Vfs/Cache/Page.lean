import BrewFs.Library.Buffer

/-! `vfs/cache/page.rs`: the pages of a dirty slice and the ranges the user has written. -/

namespace BrewFs.Vfs

open BrewFs.Interval Option

/-- The sizes of `WriteConfig`; `CacheSlice::new` asserts that whole pages make up a block. -/
structure WriteConfig where
  chunkSize : Nat
  blockSize : Nat
  pageSize : Nat
  blockSize_pos : 0 < blockSize
  pageSize_pos : 0 < pageSize
  paged : pageSize ∣ blockSize

inductive WriteAction where
  | overlap
  | append
  | gapAppend
deriving DecidableEq, Repr

structure Page where
  bytes : Nat → UInt8
  frozen : Bool

/-- `Page::new`: a zeroed, mutable page. -/
def Page.new : Page := ⟨fun _ => 0, false⟩

structure CacheSlice where
  len : Nat
  /-- By flat index; a page never written or released is `none`. -/
  pages : Nat → Option Page
  writtenRanges : List (Nat × Nat)

/-! ### Writing pages -/

/-- Write one byte; a frozen page refuses. -/
def writeByte (cfg : WriteConfig) (pages : Nat → Option Page) (p : Nat) (byte : UInt8) :
    Option (Nat → Option Page) :=
  let page := (pages (p / cfg.pageSize)).getD Page.new
  if page.frozen then none
  else some (Function.update pages (p / cfg.pageSize)
    (some { page with bytes := Function.update page.bytes (p % cfg.pageSize) byte }))

/-- The copy loop of `write_at` and `append`, a byte at a time. -/
def writeBytes (cfg : WriteConfig) (pages : Nat → Option Page) (offset : Nat) :
    List UInt8 → Option (Nat → Option Page)
  | [] => some pages
  | byte :: rest =>
    (writeByte cfg pages offset byte).bind fun written =>
      writeBytes cfg written (offset + 1) rest

/-- The loop of `record_written`. -/
def recordLoop (merged : Nat × Nat) (inserted : Bool) : List (Nat × Nat) → List (Nat × Nat)
  | [] => if inserted then [] else [merged]
  | range :: rest =>
    if range.2 < merged.1 then range :: recordLoop merged inserted rest
    else if merged.2 < range.1 then
      if inserted then range :: recordLoop merged true rest
      else merged :: range :: recordLoop merged true rest
    else recordLoop (min merged.1 range.1, max merged.2 range.2) inserted rest

def recordWritten (ranges : List (Nat × Nat)) (start stop : Nat) : List (Nat × Nat) :=
  if stop ≤ start then ranges else recordLoop (start, stop) false ranges

/-- The loop of `contiguous_written_len`. -/
def contiguousFrom (cursor : Nat) : List (Nat × Nat) → Nat
  | [] => cursor
  | range :: rest => if cursor < range.1 then cursor else contiguousFrom (max cursor range.2) rest

namespace CacheSlice

def empty : CacheSlice := ⟨0, fun _ => none, []⟩

variable (cfg : WriteConfig) (s : CacheSlice)

def canAppend (offset : Nat) : Bool := s.len = offset

def canWriteAt (offset len : Nat) : Bool := offset + len ≤ s.len

def canGapAppend (offset len : Nat) : Bool :=
  s.len < offset && offset + len ≤ cfg.chunkSize

def canWriteWithGap (offset len : Nat) (allowGap : Bool) : Option WriteAction :=
  if s.canAppend offset then some .append
  else if s.canWriteAt offset len then some .overlap
  else if allowGap && s.canGapAppend cfg offset len then some .gapAppend
  else none

def hasWrittenOverlap (offset len : Nat) : Bool :=
  0 < len && s.writtenRanges.any fun range => range.1 < offset + len && offset < range.2

def contiguousWrittenLen : Nat := min (contiguousFrom 0 s.writtenRanges) s.len

variable (offset : Nat) (buf : List UInt8)

def writeAt : Option CacheSlice :=
  (writeBytes cfg s.pages offset buf).map fun pages =>
    { s with
      pages := pages
      writtenRanges := recordWritten s.writtenRanges offset (offset + buf.length) }

def append (buf : List UInt8) : Option CacheSlice :=
  if s.len + buf.length ≤ cfg.chunkSize then
    (s.writeAt cfg s.len buf).map fun written => { written with len := s.len + buf.length }
  else none

def gapAppend : Option CacheSlice :=
  if s.canGapAppend cfg offset buf.length then
    (s.writeAt cfg offset buf).map fun written => { written with len := offset + buf.length }
  else none

def write : WriteAction → Option CacheSlice
  | .append => s.append cfg buf
  | .overlap => s.writeAt cfg offset buf
  | .gapAppend => s.gapAppend cfg offset buf

/-- A byte of the slice; a missing page reads as zeros. -/
def byteAt (p : Nat) : UInt8 :=
  match s.pages (p / cfg.pageSize) with
  | some page => page.bytes (p % cfg.pageSize)
  | none => 0

/-- The bytes `copy_into` puts at the front of `size` bytes. -/
def copyInto (offset size : Nat) : List UInt8 :=
  (List.range (min size (s.len - offset))).map fun i => s.byteAt cfg (offset + i)

/-- `copy_written_into`: the buffer and the ranges that were copied. -/
def copyWrittenInto : List UInt8 × List (Nat × Nat) :=
  s.writtenRanges.foldl (fun acc range =>
    let readStart := max offset range.1
    let readEnd := min (offset + buf.length) range.2
    if readEnd ≤ readStart then acc
    else
      let copied := s.copyInto cfg readStart (readEnd - readStart)
      (Buffer.patch acc.1 (readStart - offset) copied,
        if 0 < copied.length then acc.2 ++ [(readStart, readStart + copied.length)] else acc.2))
    (buf, [])

/-- Freeze the pages with these flat indices. -/
def freezePages (select : Nat → Bool) : CacheSlice :=
  { s with pages := fun i =>
      if select i then (s.pages i).map fun page => { page with frozen := true } else s.pages i }

def freeze : CacheSlice := s.freezePages fun _ => true

def pagesPerBlock : Nat := cfg.blockSize / cfg.pageSize

def freezeBlocks (start stop : Nat) : CacheSlice :=
  s.freezePages fun i => start * pagesPerBlock cfg ≤ i && i < stop * pagesPerBlock cfg

/-- `collect_pages`: the bytes of each block, cut off at the end of the slice. -/
def collectPages (start stop : Nat) : List (Nat × List UInt8) :=
  if s.len ≤ start * cfg.blockSize then []
  else (List.range' start (stop - start)).map fun block =>
    (block, s.copyInto cfg (block * cfg.blockSize) cfg.blockSize)

def releaseAll : CacheSlice := { s with pages := fun _ => none }

/-- The pages from the new length on are released by `truncate`. -/
def truncate (len : Nat) : Option CacheSlice :=
  if s.len < len then none
  else if len = s.len then some s
  else some {
    len := len
    pages := fun i => if (len + cfg.pageSize - 1) / cfg.pageSize ≤ i then none else s.pages i
    writtenRanges := s.writtenRanges.filterMap fun range =>
      if len ≤ range.1 then none else some (range.1, min range.2 len) }

@[simp] theorem freezePages_byteAt (select : Nat → Bool)
    (p : Nat) : (s.freezePages select).byteAt cfg p = s.byteAt cfg p := by
  unfold byteAt freezePages
  dsimp only
  split_ifs with chosen
  · cases s.pages (p / cfg.pageSize) <;> rfl
  · rfl

theorem write_len {cfg : WriteConfig} {s written : CacheSlice} {offset : Nat} {buf : List UInt8}
    {action : WriteAction} (done : s.write cfg offset buf action = some written) :
    s.len ≤ written.len := by
  cases action with
  | append =>
    simp only [write, append, ite_none_right_eq_some, map_eq_some_iff] at done
    obtain ⟨_, _, _, rfl⟩ := done
    exact Nat.le_add_right _ _
  | overlap =>
    simp only [write, writeAt, map_eq_some_iff] at done
    obtain ⟨_, _, rfl⟩ := done
    exact le_rfl
  | gapAppend =>
    simp only [write, gapAppend, canGapAppend, Bool.and_eq_true, decide_eq_true_eq,
      ite_none_right_eq_some, map_eq_some_iff] at done
    obtain ⟨⟨beyond, _⟩, _, _, rfl⟩ := done
    dsimp only
    omega

theorem truncate_len {cfg : WriteConfig} {s shorter : CacheSlice} {len : Nat}
    (done : s.truncate cfg len = some shorter) : shorter.len = len := by
  unfold truncate at done
  split at done
  · cases done
  split at done
  · rename_i same
    cases done
    exact same.symm
  · cases done
    rfl

end CacheSlice

end BrewFs.Vfs
