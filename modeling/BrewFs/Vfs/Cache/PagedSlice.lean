import BrewFs.Chunk.Span
import BrewFs.Vfs.Cache.PageBytes

/-! `vfs/cache/page.rs` as it runs: ranges are cut at block and page boundaries, a page is allocated
when it is first written, and the allocated bytes are counted. -/

namespace BrewFs.Vfs

open CacheSlice
open BrewFs.Chunk (Span SpanIter Tiles)
open Option (bind_some getD_some map_bind map_eq_some_iff map_map map_some)
open Function (comp comp_apply update update_of_ne)
open List (flatMap_cons length_drop range range' replicate)

/-- A `CacheSlice` with its `alloc_bytes`. -/
structure PagedSlice where
  slice : CacheSlice
  allocBytes : Nat

/-- The copy into `Page::write_slice`. -/
def Page.copyFrom (page : Page) (start : Nat) : List UInt8 → Page
  | [] => page
  | byte :: rest =>
    copyFrom { page with bytes := update page.bytes start byte } (start + 1) rest

/-- The page spans of a range, block by block, with their `flat_index`. -/
def pageSpans (cfg : WriteConfig) (offset len : Nat) : List Span :=
  ((Span.splitInto ⟨0, offset, len⟩ cfg.chunkSize cfg.blockSize true).collect len).flatMap
    fun block =>
      ((block.splitInto cfg.blockSize cfg.pageSize true).collect block.len).map fun page =>
        { page with index := block.index * pagesPerBlock cfg + page.index }

namespace PagedSlice

variable (cfg : WriteConfig)

def new : PagedSlice := ⟨.empty, 0⟩

def pagesTotal : Nat :=
  (cfg.chunkSize + cfg.blockSize - 1) / cfg.blockSize * pagesPerBlock cfg

variable (s : PagedSlice)

/-- The number `CacheSlice::stats` reports. -/
def pagesUsed : Nat :=
  (range (pagesTotal cfg)).countP fun i => (s.slice.pages i).isSome

def setPage (index : Nat) (page : Page) : PagedSlice :=
  { s with slice := { s.slice with pages := update s.slice.pages index (some page) } }

/-- `ensure_page_mut` and the write to the page. -/
def writePage (index start : Nat) (bytes : List UInt8) : Option PagedSlice :=
  match s.slice.pages index with
  | none => some { s.setPage index (Page.new.copyFrom start bytes) with
      allocBytes := s.allocBytes + cfg.pageSize }
  | some page => if page.frozen then none else some (s.setPage index (page.copyFrom start bytes))

def writeSpans (s : PagedSlice) : List Span → List UInt8 → Option PagedSlice
  | [], _ => some s
  | span :: rest, buf =>
    (s.writePage cfg span.index span.offset (buf.take span.len)).bind fun written =>
      writeSpans written rest (buf.drop span.len)

def recordWritten (start stop : Nat) : PagedSlice :=
  { s with slice := { s.slice with
    writtenRanges := Vfs.recordWritten s.slice.writtenRanges start stop } }

def setLen (len : Nat) : PagedSlice :=
  { s with slice := { s.slice with len := len } }

variable (offset : Nat) (buf : List UInt8)

def writeAt : Option PagedSlice :=
  (s.writeSpans cfg (pageSpans cfg offset buf.length) buf).map fun written =>
    written.recordWritten offset (offset + buf.length)

/-- `next_write_slot_flat` -/
def nextWriteSlotFlat : Nat × Nat :=
  let within := s.slice.len % cfg.blockSize
  (s.slice.len / cfg.blockSize * pagesPerBlock cfg + within / cfg.pageSize,
    within % cfg.pageSize)

/-- The loop of `append`. Every pass takes a byte, so the buffer bounds their number. -/
def appendLoop : Nat → PagedSlice → List UInt8 → Option PagedSlice
  | 0, s, _ => some s
  | fuel + 1, s, buf =>
    if buf = [] then some s
    else
      let slot := s.nextWriteSlotFlat cfg
      let read := min buf.length (cfg.pageSize - slot.2)
      (s.writePage cfg slot.1 slot.2 (buf.take read)).bind fun written =>
        appendLoop fuel (written.setLen (s.slice.len + read)) (buf.drop read)

def append (buf : List UInt8) : Option PagedSlice :=
  let nextLen := s.slice.len + buf.length
  if nextLen ≤ cfg.chunkSize then
    (appendLoop cfg buf.length s buf).map fun written =>
      written.recordWritten (nextLen - buf.length) nextLen
  else none

def gapAppend : Option PagedSlice :=
  if s.slice.canGapAppend cfg offset buf.length then
    (s.writeAt cfg offset buf).map fun written => written.setLen (offset + buf.length)
  else none

def write : WriteAction → Option PagedSlice
  | .append => s.append cfg buf
  | .overlap => s.writeAt cfg offset buf
  | .gapAppend => s.gapAppend cfg offset buf

def truncate (len : Nat) : Option PagedSlice :=
  (s.slice.truncate cfg len).map fun shorter =>
    if len = s.slice.len then s
    else
      let firstReleased := (len + cfg.pageSize - 1) / cfg.pageSize
      let freed := cfg.pageSize * (range (pagesTotal cfg)).countP fun i =>
        decide (firstReleased ≤ i) && (s.slice.pages i).isSome
      ⟨shorter, s.allocBytes - freed⟩

/-- The part of a page that `copy_into` copies; a missing page is zeros. -/
def copySpan (span : Span) : List UInt8 :=
  match s.slice.pages span.index with
  | some page => (range span.len).map fun i => page.bytes (span.offset + i)
  | none => replicate span.len 0

/-- The bytes `copy_into` puts at the front of `size` bytes. -/
def copyInto (offset size : Nat) : List UInt8 :=
  if size = 0 ∨ s.slice.len ≤ offset then []
  else (pageSpans cfg offset (min size (s.slice.len - offset))).flatMap s.copySpan

def freeze : PagedSlice := { s with slice := s.slice.freeze }

/-- One page of `collect_pages`; only frozen pages may be read. -/
def collectPage (index take : Nat) : Option (List UInt8) :=
  match s.slice.pages index with
  | some page => if page.frozen then some ((range take).map page.bytes) else none
  | none => some (replicate take 0)

/-- The pages of one block, and the bytes that remain. -/
def collectBlock (s : PagedSlice) : List Nat → Nat → Option (List (List UInt8) × Nat)
  | [], remaining => some ([], remaining)
  | index :: rest, remaining =>
    if remaining = 0 then some ([], 0)
    else
      let take := min remaining cfg.pageSize
      (s.collectPage index take).bind fun bytes =>
        (collectBlock s rest (remaining - take)).map fun (pages, left) => (bytes :: pages, left)

def collectBlocks (s : PagedSlice) : List Nat → Nat → Option (List (Nat × List (List UInt8)))
  | [], _ => some []
  | block :: rest, remaining =>
    let first := block * pagesPerBlock cfg
    (s.collectBlock cfg (range' first (pagesPerBlock cfg)) remaining).bind
      fun (pages, left) => (collectBlocks s rest left).map fun blocks => (block, pages) :: blocks

def collectPages (start stop : Nat) : Option (List (Nat × List (List UInt8))) :=
  let remaining := s.slice.len - start * cfg.blockSize
  if remaining = 0 then some []
  else s.collectBlocks cfg (range' start (stop - start)) remaining

end PagedSlice

/-! ### Pages and positions -/

variable {cfg : WriteConfig} {pages : Nat → Option Page}

theorem pagesPerBlock_mul (cfg : WriteConfig) :
    pagesPerBlock cfg * cfg.pageSize = cfg.blockSize :=
  Nat.div_mul_cancel cfg.paged

theorem flatIndex_eq (cfg : WriteConfig) (pos : Nat) :
    pos / cfg.blockSize * pagesPerBlock cfg +
        pos % cfg.blockSize / cfg.pageSize = pos / cfg.pageSize ∧
      pos % cfg.blockSize % cfg.pageSize = pos % cfg.pageSize := by
  have whole := pagesPerBlock_mul cfg
  rw [Nat.mul_comm] at whole
  refine ⟨?_, Nat.mod_mod_of_dvd pos cfg.paged⟩
  rw [← whole, ← Nat.div_div_eq_div_mul, Nat.mod_mul_right_div_self]
  exact Nat.div_add_mod' _ _

theorem pageSpans_tiles (cfg : WriteConfig) (offset len : Nat) :
    Tiles cfg.pageSize offset len (pageSpans cfg offset len) := by
  have blocks := Chunk.collect_tiles cfg.blockSize cfg.blockSize_pos len offset len (le_rfl)
  unfold pageSpans Span.splitInto
  simp only [Nat.zero_mul, Nat.zero_add, if_true]
  generalize SpanIter.collect len ⟨offset, len, cfg.blockSize, 0⟩ = spans at blocks
  induction blocks with
  | done pos => exact Tiles.done pos
  | block pos len take rest positive bounded fits tail ih =>
    rw [flatMap_cons, ← Nat.add_sub_cancel' bounded]
    refine Tiles.append ?_ ih
    rw [Chunk.collect_base]
    have inner := Chunk.collect_tiles cfg.pageSize cfg.pageSize_pos take
      (pos % cfg.blockSize) take (le_rfl)
    have shifted := inner.shift (pos / cfg.blockSize * pagesPerBlock cfg)
      cfg.pageSize_pos
    rwa [Nat.mul_assoc, pagesPerBlock_mul, Nat.div_add_mod'] at shifted

/-! ### Writing page by page is writing byte by byte -/

theorem writeByte_page {index start : Nat} (byte : UInt8) (inside : start < cfg.pageSize) :
    writeByte cfg pages (index * cfg.pageSize + start) byte =
      if ((pages index).getD Page.new).frozen then none
      else some (update pages index (some { (pages index).getD Page.new with
        bytes := update ((pages index).getD Page.new).bytes start byte })) := by
  have page : (index * cfg.pageSize + start) / cfg.pageSize = index := by
    rw [Nat.add_comm, Nat.add_mul_div_right _ _ cfg.pageSize_pos, Nat.div_eq_of_lt inside,
      Nat.zero_add]
  have place : (index * cfg.pageSize + start) % cfg.pageSize = start := by
    rw [Nat.add_comm, Nat.add_mul_mod_self_right, Nat.mod_eq_of_lt inside]
  simp only [writeByte, page, place]

theorem writeBytes_page {index start : Nat} (byte : UInt8) {rest : List UInt8}
    (fits : start + rest.length < cfg.pageSize) :
    writeBytes cfg pages (index * cfg.pageSize + start) (byte :: rest) =
      if ((pages index).getD Page.new).frozen then none
      else some (update pages index
        (some (((pages index).getD Page.new).copyFrom start (byte :: rest)))) := by
  induction rest generalizing pages start byte with
  | nil =>
    rw [writeBytes, writeByte_page byte (by omega)]
    split <;> rfl
  | cons next rest ih =>
    rw [List.length_cons] at fits
    rw [writeBytes, writeByte_page byte (by omega)]
    split
    · rfl
    rename_i mutable
    rw [bind_some, Nat.add_assoc, ih next (by omega), Function.update_self]
    simp only [getD_some, Function.update_idem]
    rw [if_neg mutable]
    rfl

namespace PagedSlice

/-- Results that agree after `f` and `g` go on alike. -/
theorem bind_congr {α β γ δ : Type} {x : Option α} {y : Option β} {f : α → γ} {g : β → γ}
    (same : x.map f = y.map g) {next : α → Option δ} {other : β → Option δ}
    (step : ∀ a b, f a = g b → next a = other b) : x.bind next = y.bind other := by
  cases x <;> cases y <;> grind

theorem map_congr {α β γ δ : Type} {x : Option α} {y : Option β} {f : α → γ} {g : β → γ}
    (same : x.map f = y.map g) {next : α → δ} {other : β → δ}
    (step : ∀ a b, f a = g b → next a = other b) : x.map next = y.map other := by
  cases x <;> cases y <;> grind

theorem writePage_slice (cfg : WriteConfig) (s : PagedSlice) (index start : Nat)
    (bytes : List UInt8) (filled : 0 < bytes.length) (fits : start + bytes.length ≤ cfg.pageSize) :
    (s.writePage cfg index start bytes).map PagedSlice.slice =
      (writeBytes cfg s.slice.pages (index * cfg.pageSize + start) bytes).map fun pages =>
        { s.slice with pages := pages } := by
  obtain ⟨byte, rest, rfl⟩ := List.exists_cons_of_length_pos filled
  rw [writeBytes_page byte (by rw [List.length_cons] at fits; omega)]
  unfold writePage
  cases found : s.slice.pages index with
  | none => rfl
  | some page =>
    dsimp only [getD_some]
    split <;> rfl

variable {pos len : Nat} {spans : List Span} {buf : List UInt8}

theorem writeSpans_slice (tiles : Tiles cfg.pageSize pos len spans) (s : PagedSlice)
    (whole : buf.length = len) : (s.writeSpans cfg spans buf).map PagedSlice.slice =
      (writeBytes cfg s.slice.pages pos buf).map fun pages => { s.slice with pages := pages } := by
  induction tiles generalizing s buf with
  | done pos =>
    obtain rfl := List.eq_nil_of_length_eq_zero whole
    rfl
  | block pos len take rest positive bounded fits tail ih =>
    have taken : (buf.take take).length = take := by
      rw [List.length_take]
      omega
    have first := writePage_slice cfg s (pos / cfg.pageSize) (pos % cfg.pageSize)
      (buf.take take) (by omega) (by omega)
    rw [Nat.div_add_mod'] at first
    rw [writeSpans, writeBytes_split s.slice.pages pos (show take ≤ buf.length by omega),
      map_bind, map_bind]
    refine bind_congr first fun written middle same => ?_
    rw [comp, comp, ih written (by rw [length_drop, whole]), same]

theorem writeAt_slice (s : PagedSlice) (offset : Nat) :
    (s.writeAt cfg offset buf).map PagedSlice.slice = s.slice.writeAt cfg offset buf := by
  have written := writeSpans_slice (pageSpans_tiles cfg offset buf.length) s rfl
  unfold writeAt CacheSlice.writeAt
  rw [map_map]
  refine map_congr written fun after pages same => ?_
  simp only [comp_apply, recordWritten, same]

theorem appendLoop_slice (cfg : WriteConfig) {fuel : Nat} (s : PagedSlice)
    (enough : buf.length ≤ fuel) : (appendLoop cfg fuel s buf).map PagedSlice.slice =
      (writeBytes cfg s.slice.pages s.slice.len buf).map fun pages =>
        { s.slice with pages := pages, len := s.slice.len + buf.length } := by
  induction fuel generalizing s buf with
  | zero =>
    obtain rfl := List.eq_nil_of_length_eq_zero (Nat.le_zero.mp enough)
    rfl
  | succ fuel ih =>
    unfold appendLoop
    split
    · rename_i empty
      rw [empty]
      rfl
    rename_i full
    obtain ⟨index, place⟩ := flatIndex_eq cfg s.slice.len
    have within := Nat.mod_lt s.slice.len cfg.pageSize_pos
    have positive := List.length_pos_iff.mpr full
    simp only [nextWriteSlotFlat, index, place]
    generalize reading : min buf.length (cfg.pageSize - s.slice.len % cfg.pageSize) = read
    have taken : (buf.take read).length = read := by
      rw [List.length_take]
      omega
    have first := writePage_slice cfg s (s.slice.len / cfg.pageSize)
      (s.slice.len % cfg.pageSize) (buf.take read) (by omega) (by omega)
    rw [Nat.div_add_mod'] at first
    rw [writeBytes_split s.slice.pages s.slice.len (show read ≤ buf.length by omega),
      map_bind, map_bind]
    refine bind_congr first fun written middle same => ?_
    rw [comp, comp,
      ih (written.setLen (s.slice.len + read)) (by rw [length_drop]; omega)]
    simp only [setLen, same, length_drop]
    rw [show s.slice.len + read + (buf.length - read) = s.slice.len + buf.length by omega]

theorem append_slice (s : PagedSlice) (buf : List UInt8) :
    (s.append cfg buf).map PagedSlice.slice = s.slice.append cfg buf := by
  have written := appendLoop_slice cfg s (Nat.le_refl buf.length)
  unfold append CacheSlice.append CacheSlice.writeAt
  dsimp only
  split
  · rw [map_map, map_map]
    refine map_congr written fun after pages same => ?_
    simp only [comp_apply, recordWritten, same, Nat.add_sub_cancel]
  · rfl

theorem gapAppend_slice (s : PagedSlice) (offset : Nat) :
    (s.gapAppend cfg offset buf).map PagedSlice.slice = s.slice.gapAppend cfg offset buf := by
  unfold gapAppend CacheSlice.gapAppend
  split
  · rw [← writeAt_slice, map_map, map_map]
    rfl
  · rfl

/-- Writing through the pages is the write of the plain model. -/
theorem write_slice (s : PagedSlice) (offset : Nat) (buf : List UInt8) (action : WriteAction) :
    (s.write cfg offset buf action).map PagedSlice.slice =
      s.slice.write cfg offset buf action := by
  cases action with
  | append => exact s.append_slice buf
  | overlap => exact s.writeAt_slice offset
  | gapAppend => exact s.gapAppend_slice offset

theorem truncate_slice (s : PagedSlice) (len : Nat) :
    (s.truncate cfg len).map PagedSlice.slice = s.slice.truncate cfg len := by
  unfold truncate
  cases done : s.slice.truncate cfg len with
  | none => rfl
  | some shorter =>
    split
    · rename_i same
      rw [CacheSlice.truncate, if_neg (by omega), if_pos same] at done
      exact done
    · rfl

/-! ### Reading page by page is reading byte by byte -/

/-- The bytes of a range. -/
def bytesFrom (cfg : WriteConfig) (s : CacheSlice) (pos len : Nat) : List UInt8 :=
  (range len).map fun i => s.byteAt cfg (pos + i)

theorem bytesFrom_add (s : CacheSlice) (pos first second : Nat) :
    bytesFrom cfg s pos (first + second) =
      bytesFrom cfg s pos first ++ bytesFrom cfg s (pos + first) second := by
  simp only [bytesFrom, List.range_add, List.map_append, List.map_map]
  congr 1
  refine List.map_congr_left fun i _ => ?_
  simp only [comp_apply, Nat.add_assoc]

/-- The bytes up to the end of a unit, and those after it. -/
theorem bytesFrom_cut (s : CacheSlice) (pos remaining unit rest : Nat) :
    bytesFrom cfg s pos (min remaining unit) ++
        bytesFrom cfg s (pos + unit) (min (remaining - unit) rest) =
      bytesFrom cfg s pos (min remaining (rest + unit)) := by
  rcases Nat.le_total remaining unit with short | long
  · have none : remaining - unit = 0 := by omega
    rw [none, Nat.min_eq_left short, Nat.zero_min, Nat.min_eq_left (by omega)]
    exact List.append_nil _
  rw [Nat.min_eq_right long, ← bytesFrom_add]
  congr 1
  omega

theorem bytesFrom_page (cfg : WriteConfig) (s : CacheSlice) (index start len : Nat)
    (fits : start + len ≤ cfg.pageSize) :
    bytesFrom cfg s (index * cfg.pageSize + start) len =
      match s.pages index with
      | some page => (range len).map fun i => page.bytes (start + i)
      | none => replicate len 0 := by
  have place : ∀ i < len, (index * cfg.pageSize + start + i) / cfg.pageSize = index ∧
      (index * cfg.pageSize + start + i) % cfg.pageSize = start + i := by
    intro i inside
    rw [Nat.add_assoc, Nat.add_comm]
    constructor
    · rw [Nat.add_mul_div_right _ _ cfg.pageSize_pos, Nat.div_eq_of_lt (by omega), Nat.zero_add]
    · rw [Nat.add_mul_mod_self_right, Nat.mod_eq_of_lt (by omega)]
  unfold bytesFrom
  cases found : s.pages index with
  | none =>
    refine List.eq_replicate_iff.mpr ⟨by simp, fun byte listed => ?_⟩
    obtain ⟨i, inside, rfl⟩ := List.mem_map.mp listed
    rw [byteAt, (place i (List.mem_range.mp inside)).1, found]
  | some page =>
    refine List.map_congr_left fun i listed => ?_
    obtain ⟨index, within⟩ := place i (List.mem_range.mp listed)
    rw [byteAt, index, found, within]

theorem copySpans_eq (s : PagedSlice) (tiles : Tiles cfg.pageSize pos len spans) :
    spans.flatMap s.copySpan = bytesFrom cfg s.slice pos len := by
  induction tiles with
  | done pos => rfl
  | block pos len take rest positive bounded fits tail ih =>
    have here : s.copySpan ⟨pos / cfg.pageSize, pos % cfg.pageSize, take⟩ =
        bytesFrom cfg s.slice pos take := by
      have page := bytesFrom_page cfg s.slice (pos / cfg.pageSize) (pos % cfg.pageSize) take fits
      rw [Nat.div_add_mod'] at page
      exact page.symm
    rw [flatMap_cons, here, ih, ← bytesFrom_add, Nat.add_sub_cancel' bounded]

theorem copyInto_slice (s : PagedSlice) (offset size : Nat) :
    s.copyInto cfg offset size = s.slice.copyInto cfg offset size := by
  unfold copyInto
  split
  · have none : min size (s.slice.len - offset) = 0 := by omega
    simp [CacheSlice.copyInto, none]
  · rw [copySpans_eq s (pageSpans_tiles cfg offset _)]
    rfl

/-! ### `collect_pages` -/

variable {s : PagedSlice}

section

variable (frozen : ∀ i, ∀ page ∈ s.slice.pages i, page.frozen = true)

include frozen

theorem collectPage_eq (index : Nat) {take : Nat} (fits : take ≤ cfg.pageSize) :
    s.collectPage index take = some (bytesFrom cfg s.slice (index * cfg.pageSize) take) := by
  have page := bytesFrom_page cfg s.slice index 0 take (by omega)
  rw [Nat.add_zero] at page
  rw [page]
  unfold collectPage
  cases found : s.slice.pages index with
  | none => rfl
  | some here => simp [frozen index here found]

theorem collectBlock_eq (first count remaining : Nat) :
    ∃ pages, s.collectBlock cfg (range' first count) remaining =
        some (pages, remaining - count * cfg.pageSize) ∧
      pages.flatten = bytesFrom cfg s.slice (first * cfg.pageSize)
        (min remaining (count * cfg.pageSize)) := by
  induction count generalizing first remaining with
  | zero => exact ⟨[], by simp [collectBlock], by simp [bytesFrom]⟩
  | succ count ih =>
    rw [List.range'_succ]
    unfold collectBlock
    split
    · rename_i empty
      exact ⟨[], by simp [empty], by simp [empty, bytesFrom]⟩
    obtain ⟨pages, collected, bytes⟩ := ih (first + 1) (remaining - cfg.pageSize)
    refine ⟨bytesFrom cfg s.slice (first * cfg.pageSize) (min remaining cfg.pageSize) ::
      pages, ?_, ?_⟩
    · dsimp only
      rw [collectPage_eq frozen first (Nat.min_le_right _ _), bind_some,
        show remaining - min remaining cfg.pageSize = remaining - cfg.pageSize by omega,
        collected, map_some, Nat.sub_sub, Nat.add_comm, Nat.succ_mul]
    · rw [List.flatten_cons, bytes, Nat.succ_mul, Nat.succ_mul, bytesFrom_cut]

theorem collectBlocks_eq (start count remaining : Nat) :
    ∃ blocks, s.collectBlocks cfg (range' start count) remaining = some blocks ∧
      blocks.flatMap (fun block => block.2.flatten) = bytesFrom cfg s.slice
        (start * cfg.blockSize) (min remaining (count * cfg.blockSize)) := by
  induction count generalizing start remaining with
  | zero => exact ⟨[], rfl, by simp [bytesFrom]⟩
  | succ count ih =>
    obtain ⟨pages, collected, bytes⟩ := collectBlock_eq frozen
      (start * pagesPerBlock cfg) (pagesPerBlock cfg) remaining
    rw [pagesPerBlock_mul] at collected bytes
    rw [Nat.mul_assoc, pagesPerBlock_mul] at bytes
    obtain ⟨blocks, later, rest⟩ := ih (start + 1) (remaining - cfg.blockSize)
    refine ⟨(start, pages) :: blocks, ?_, ?_⟩
    · rw [List.range'_succ, collectBlocks, collected, bind_some]
      dsimp only
      rw [later]
      rfl
    · rw [flatMap_cons, rest, bytes, Nat.succ_mul, Nat.succ_mul, bytesFrom_cut]

end

theorem freeze_frozen (s : PagedSlice) (i : Nat) (page : Page)
    (found : page ∈ s.freeze.slice.pages i) : page.frozen = true := by
  simp only [freeze, CacheSlice.freeze, CacheSlice.freezePages, if_true, Option.mem_def,
    map_eq_some_iff] at found
  obtain ⟨old, _, rfl⟩ := found
  rfl

/-- The frozen pages of some blocks hold the slice's bytes, up to its length. -/
theorem collectPages_eq (s : PagedSlice) (start stop : Nat) :
    ∃ blocks, s.freeze.collectPages cfg start stop = some blocks ∧
      blocks.flatMap (fun block => block.2.flatten) =
        s.slice.copyInto cfg (start * cfg.blockSize) ((stop - start) * cfg.blockSize) := by
  have bytes : ∀ pos len, bytesFrom cfg s.freeze.slice pos len = bytesFrom cfg s.slice pos len :=
    fun pos len => List.map_congr_left fun i _ => CacheSlice.freezePages_byteAt cfg s.slice _ _
  unfold collectPages
  dsimp only
  split
  · rename_i empty
    have none : s.slice.len - start * cfg.blockSize = 0 := empty
    simp [CacheSlice.copyInto, none]
  obtain ⟨blocks, collected, flat⟩ := collectBlocks_eq s.freeze_frozen start
    (stop - start) (s.freeze.slice.len - start * cfg.blockSize)
  refine ⟨blocks, collected, ?_⟩
  rw [flat, bytes, Nat.min_comm]
  rfl

/-! ### Allocated bytes -/

/-- `alloc_bytes` counts the allocated pages, all in the page vector. -/
structure Counted (cfg : WriteConfig) (s : PagedSlice) : Prop where
  allocBytes : s.allocBytes = cfg.pageSize * s.pagesUsed cfg
  inside : ∀ i, (s.slice.pages i).isSome = true → i < pagesTotal cfg

theorem countP_update (pages : Nat → Option Page) (index : Nat) (page : Page) (n : Nat) :
    (range n).countP (fun i => (update pages index (some page) i).isSome) =
      (range n).countP (fun i => (pages i).isSome) +
        if index < n ∧ pages index = none then 1 else 0 := by
  induction n with
  | zero => simp
  | succ n ih =>
    rw [List.range_succ, List.countP_append, List.countP_append, ih, List.countP_singleton,
      List.countP_singleton]
    by_cases here : n = index
    · subst here
      cases pages n <;> simp
    rw [update_of_ne here]
    have same : (index < n + 1 ∧ pages index = none) ↔ (index < n ∧ pages index = none) := by
      constructor <;> rintro ⟨below, free⟩ <;> exact ⟨by omega, free⟩
    simp only [same]
    omega

theorem page_lt_total (inside : pos < cfg.chunkSize) : pos / cfg.pageSize < pagesTotal cfg := by
  rw [Nat.div_lt_iff_lt_mul cfg.pageSize_pos, pagesTotal, Nat.mul_assoc, pagesPerBlock_mul]
  have positive := cfg.blockSize_pos
  have whole := Nat.div_add_mod (cfg.chunkSize + cfg.blockSize - 1) cfg.blockSize
  have rest := Nat.mod_lt (cfg.chunkSize + cfg.blockSize - 1) positive
  rw [Nat.mul_comm] at whole
  omega

variable {written : PagedSlice}

theorem Counted.writePage (counted : Counted cfg s) {index start : Nat} {bytes : List UInt8}
    (inside : index < pagesTotal cfg)
    (done : s.writePage cfg index start bytes = some written) : Counted cfg written := by
  have bounded : ∀ (page : Page) (i : Nat),
      (update s.slice.pages index (some page) i).isSome = true → i < pagesTotal cfg := by
    intro page i used
    by_cases here : i = index
    · exact here ▸ inside
    · rw [update_of_ne here] at used
      exact counted.inside i used
  unfold PagedSlice.writePage at done
  split at done
  · rename_i free
    cases done
    refine ⟨?_, bounded _⟩
    simp only [pagesUsed, setPage, countP_update, inside, free, and_self, if_true, Nat.mul_add,
      Nat.mul_one]
    rw [counted.allocBytes, pagesUsed]
  rename_i page found
  cases (Option.ite_none_left_eq_some.mp done).2
  refine ⟨?_, bounded _⟩
  simp only [pagesUsed, setPage, countP_update, found, reduceCtorEq, and_false]
  exact counted.allocBytes

theorem Counted.writeSpans (tiles : Tiles cfg.pageSize pos len spans)
    (fits : pos + len ≤ cfg.chunkSize) (counted : Counted cfg s)
    (done : s.writeSpans cfg spans buf = some written) : Counted cfg written := by
  induction tiles generalizing s buf with
  | done pos =>
    cases done
    exact counted
  | block pos len take rest positive bounded inPage tail ih =>
    obtain ⟨middle, first, later⟩ := Option.bind_eq_some_iff.mp done
    exact ih (by omega) (counted.writePage (page_lt_total (by omega)) first) later

section

variable (counted : Counted cfg s)

include counted

theorem Counted.recordWritten (start stop : Nat) :
    Counted cfg (s.recordWritten start stop) := ⟨counted.allocBytes, counted.inside⟩

theorem Counted.setLen (len : Nat) :
    Counted cfg (s.setLen len) := ⟨counted.allocBytes, counted.inside⟩

theorem Counted.writeAt {offset : Nat} (fits : offset + buf.length ≤ cfg.chunkSize)
    (done : s.writeAt cfg offset buf = some written) : Counted cfg written := by
  obtain ⟨after, filled, rfl⟩ := map_eq_some_iff.mp done
  exact (Counted.writeSpans (pageSpans_tiles cfg offset buf.length) fits counted
    filled).recordWritten _ _

end

theorem Counted.appendLoop (fuel : Nat) (counted : Counted cfg s)
    (fits : s.slice.len + buf.length ≤ cfg.chunkSize)
    (done : appendLoop cfg fuel s buf = some written) : Counted cfg written := by
  induction fuel generalizing s buf with
  | zero =>
    cases done
    exact counted
  | succ fuel ih =>
    unfold PagedSlice.appendLoop at done
    split at done
    · cases done
      exact counted
    rename_i full
    have positive := List.length_pos_iff.mpr full
    obtain ⟨middle, first, later⟩ := Option.bind_eq_some_iff.mp done
    have slot : (s.nextWriteSlotFlat cfg).1 < pagesTotal cfg := by
      rw [nextWriteSlotFlat, (flatIndex_eq cfg s.slice.len).1]
      exact page_lt_total (by omega)
    refine ih ((counted.writePage slot first).setLen _) ?_ later
    simp only [PagedSlice.setLen, length_drop]
    omega

theorem Counted.truncate {shorter : PagedSlice} (counted : Counted cfg s)
    (done : s.truncate cfg len = some shorter) : Counted cfg shorter := by
  obtain ⟨cut, truncated, rfl⟩ := map_eq_some_iff.mp done
  split
  · exact counted
  unfold CacheSlice.truncate at truncated
  split at truncated
  · cases truncated
  cases truncated
  refine ⟨?_, fun i used => counted.inside i ?_⟩
  · rw [counted.allocBytes, pagesUsed, List.countP_eq_countP_filter_add _ _
      (fun i => decide ((len + cfg.pageSize - 1) / cfg.pageSize ≤ i)), Nat.mul_add,
      List.countP_filter, List.countP_filter]
    simp only [fun i => Bool.and_comm (decide _) (s.slice.pages i).isSome]
    rw [Nat.add_sub_cancel_left]
    congr 2
    funext i
    by_cases released : (len + cfg.pageSize - 1) / cfg.pageSize ≤ i
    · simp [released]
    · simp [released]
  · dsimp only at used
    split at used
    · cases used
    · exact used

end PagedSlice

end BrewFs.Vfs
