import BrewFs.Library.Run
import BrewFs.Vfs.Cache.PagedSlice

/-! A slice of the write cache stands for an array of bytes some of which were never written. -/

namespace BrewFs.Vfs

open BrewFs.Interval BrewFs.Layers Option CacheSlice PagedSlice
open CacheSlice (canAppend canWriteWithGap)

/-- A length, and the bytes written below it. -/
structure SparseBytes where
  len : Nat
  bytes : Nat → Option UInt8

inductive SliceOp where
  /-- A write that `can_write_with_gap` is asked about first. -/
  | write (offset : Nat) (buf : List UInt8) (allowGap : Bool)
  | truncate (len : Nat)

namespace SparseBytes

def empty : SparseBytes := ⟨0, fun _ => none⟩

def apply (a : SparseBytes) : SliceOp → SparseBytes
  | .write offset buf _ =>
    ⟨max a.len (offset + buf.length), fun p => (patchLayer (offset, buf) p).or (a.bytes p)⟩
  | .truncate len => ⟨len, fun p => if p < len then a.bytes p else none⟩

/-- The bytes of a range, up to the length; unwritten ones read as zero. -/
def read (a : SparseBytes) (offset size : Nat) : List UInt8 :=
  (List.range (min size (a.len - offset))).map fun i => (a.bytes (offset + i)).getD 0

end SparseBytes

namespace PagedSlice

variable {cfg : WriteConfig}

def step (cfg : WriteConfig) (s : PagedSlice) : SliceOp → Option PagedSlice
  | .write offset buf allowGap =>
    (s.slice.canWriteWithGap cfg offset buf.length allowGap).bind fun action =>
      s.write cfg offset buf action
  | .truncate len => s.truncate cfg len

/-- Between the slice's end and a write behind it the pages hold no bytes of a truncated part. -/
def CleanGap (cfg : WriteConfig) (s : PagedSlice) : SliceOp → Prop
  | .write offset _ _ => ∀ p < offset, s.slice.len ≤ p → s.slice.byteAt cfg p = 0
  | .truncate _ => True

instance (s : PagedSlice) (op : SliceOp) : Decidable (CleanGap cfg s op) := by
  cases op <;> unfold CleanGap <;> infer_instance

/-- The slice holds the bytes of the array. -/
structure Simulates (cfg : WriteConfig) (s : PagedSlice) (a : SparseBytes) : Prop where
  len : s.slice.len = a.len
  fits : s.slice.len ≤ cfg.chunkSize
  below : ∀ p, (a.bytes p).isSome = true → p < a.len
  bytes : ∀ p < a.len, s.slice.byteAt cfg p = (a.bytes p).getD 0
  ranges : Runs s.slice.writtenRanges fun p => (a.bytes p).isSome = true
  counted : Counted cfg s
  mutable : ∀ i, ∀ page ∈ s.slice.pages i, page.frozen = false

theorem simulates_new : Simulates cfg PagedSlice.new .empty where
  len := rfl
  fits := Nat.zero_le _
  below := nofun
  bytes := fun _ inside => absurd inside (Nat.not_lt_zero _)
  ranges := Runs.nil.congr fun _ => by simp [SparseBytes.empty]
  counted := ⟨by simp [PagedSlice.new, pagesUsed, empty], nofun⟩
  mutable := nofun

variable {s next : PagedSlice} {a : SparseBytes}

variable {offset len : Nat} {buf : List UInt8} {action : WriteAction}

theorem Counted.write (counted : Counted cfg s)
    (fits : max s.slice.len (offset + buf.length) ≤ cfg.chunkSize)
    (done : s.write cfg offset buf action = some next) : Counted cfg next := by
  cases action with
  | append =>
    simp only [write, append, ite_none_right_eq_some,
      map_eq_some_iff] at done
    obtain ⟨inside, after, filled, rfl⟩ := done
    exact (Counted.appendLoop _ counted inside filled).recordWritten _ _
  | overlap => exact counted.writeAt (by omega) done
  | gapAppend =>
    simp only [write, gapAppend, ite_none_right_eq_some,
      map_eq_some_iff] at done
    obtain ⟨_, after, filled, rfl⟩ := done
    exact (counted.writeAt (by omega) filled).setLen _

variable {allowGap : Bool}

theorem write_fits {s next : CacheSlice} (inside : s.len ≤ cfg.chunkSize)
    (able : s.canWriteWithGap cfg offset buf.length allowGap = some action)
    (done : s.write cfg offset buf action = some next) :
    max s.len (offset + buf.length) ≤ cfg.chunkSize := by
  unfold canWriteWithGap at able
  split at able
  · rename_i here
    cases able
    obtain rfl : s.len = offset := by simpa [canAppend] using here
    simp only [CacheSlice.write, CacheSlice.append, ite_none_right_eq_some] at done
    omega
  split at able
  · rename_i within
    simp only [canWriteAt, decide_eq_true_eq] at within
    omega
  split at able
  · rename_i gap
    simp only [canGapAppend, Bool.and_eq_true, decide_eq_true_eq] at gap
    omega
  · cases able

theorem Simulates.write (simulates : Simulates cfg s a)
    (able : s.slice.canWriteWithGap cfg offset buf.length allowGap = some action)
    (clean : CleanGap cfg s (.write offset buf allowGap))
    (done : s.write cfg offset buf action = some next) :
    Simulates cfg next (a.apply (.write offset buf allowGap)) := by
  have plain : s.slice.write cfg offset buf action = some next.slice := by
    rw [← write_slice, done]
    rfl
  obtain ⟨len, ranges, pages⟩ := write_spec able plain
  have fits := write_fits simulates.fits able plain
  have span : ∀ p, (patchLayer (offset, buf) p).isSome = true ↔
      Within (offset, offset + buf.length) p := fun p => patchLayer_isSome
  exact {
    len := by rw [len, simulates.len]; rfl
    fits := by rw [len]; exact fits
    below := by
      intro p written
      simp only [SparseBytes.apply, isSome_or, Bool.or_eq_true, span, Within] at written
      simp only [SparseBytes.apply]
      rcases written with new | old
      · omega
      · have := simulates.below p old
        omega
    bytes := by
      intro p inside
      simp only [SparseBytes.apply] at inside ⊢
      rw [byteAt_eq, writeBytes_byte pages]
      cases shown : patchLayer (offset, buf) p with
      | some byte => rfl
      | none =>
        -- a position outside the write: an old one, or one of the gap in front of it
        have outside : ¬ Within (offset, offset + buf.length) p := by
          rw [← span, shown]
          exact Bool.false_ne_true
        simp only [Within] at outside
        by_cases old : p < a.len
        · exact simulates.bytes p old
        have none : a.bytes p = none := by
          rw [← not_isSome_iff_eq_none]
          exact fun written => old (simulates.below p written)
        rw [none]
        apply clean p (by omega)
        rw [simulates.len]
        omega
    ranges := by
      rw [ranges]
      refine (recordWritten_runs simulates.ranges offset (offset + buf.length)).congr fun p => ?_
      simp only [SparseBytes.apply, isSome_or, Bool.or_eq_true, span]
      exact or_comm
    counted := simulates.counted.write fits done
    mutable := by
      obtain ⟨written, filled, unfrozen⟩ := writeBytes_isSome cfg
        (fun i _ => simulates.mutable i) (Nat.zero_le (offset / cfg.pageSize)) buf
      rw [pages, Option.some.injEq] at filled
      rw [filled]
      exact fun i => unfrozen i (Nat.zero_le i) }

theorem Simulates.truncate (simulates : Simulates cfg s a) (done : s.truncate cfg len = some next) :
    Simulates cfg next (a.apply (.truncate len)) := by
  have plain : s.slice.truncate cfg len = some next.slice := by
    rw [← truncate_slice, done]
    rfl
  have shorter := truncate_len plain
  obtain ⟨within, pages, ranges⟩ := truncate_spec plain
  exact {
    len := shorter
    fits := by rw [shorter]; exact within.trans simulates.fits
    below := by
      intro p written
      simp only [SparseBytes.apply] at written ⊢
      split at written
      · assumption
      · cases written
    bytes := by
      intro p inside
      simp only [SparseBytes.apply] at inside ⊢
      rw [if_pos inside, truncate_byteAt plain inside]
      apply simulates.bytes p
      rw [← simulates.len]
      omega
    ranges := by
      refine (ranges _ simulates.ranges ?_).congr fun p => ?_
      · rw [simulates.len]
        exact simulates.below
      · simp only [SparseBytes.apply]
        split <;> simp [*]
    counted := simulates.counted.truncate done
    mutable := fun i page found => simulates.mutable i page (pages i page found) }

theorem Simulates.step (s : PagedSlice) (a : SparseBytes) (op : SliceOp) (next : PagedSlice)
    (simulates : Simulates cfg s a) (clean : CleanGap cfg s op)
    (taken : step cfg s op = some next) : Simulates cfg next (a.apply op) := by
  cases op with
  | write offset buf allowGap =>
    obtain ⟨action, able, done⟩ := bind_eq_some_iff.mp taken
    exact simulates.write able clean done
  | truncate len => exact simulates.truncate taken

/-! ### What a simulating slice shows -/

section

variable (simulates : Simulates cfg s a)

include simulates

theorem Simulates.copyInto (offset size : Nat) :
    s.slice.copyInto cfg offset size = a.read offset size := by
  unfold CacheSlice.copyInto SparseBytes.read
  rw [simulates.len]
  refine List.map_congr_left fun i listed => simulates.bytes (offset + i) ?_
  have := List.mem_range.mp listed
  omega

theorem Simulates.range_le (range : Nat × Nat)
    (listed : range ∈ s.slice.writtenRanges) : range.2 ≤ s.slice.len := by
  have proper := simulates.ranges.proper range listed
  have last := (simulates.ranges.points (range.2 - 1)).mp
    ⟨range, listed, by simp only [Within]; omega⟩
  have below := simulates.below _ last
  rw [simulates.len]
  omega

/-- A slice with mutable pages makes every accepted write that fits the chunk. -/
theorem Simulates.accepts
    (able : (s.slice.canWriteWithGap cfg offset buf.length allowGap).isSome = true)
    (fits : offset + buf.length ≤ cfg.chunkSize) :
    (PagedSlice.step cfg s (.write offset buf allowGap)).isSome = true := by
  obtain ⟨action, able⟩ := isSome_iff_exists.mp able
  have filled : ∀ start, ∃ pages, writeBytes cfg s.slice.pages start buf = some pages :=
    fun start =>
    (writeBytes_isSome cfg (fun i _ => simulates.mutable i)
      (Nat.zero_le (start / cfg.pageSize)) buf).imp fun _ done => done.1
  rw [PagedSlice.step, able, bind_some, ← isSome_map, write_slice]
  unfold canWriteWithGap at able
  split at able
  · rename_i here
    cases able
    obtain rfl : s.slice.len = offset := by simpa [canAppend] using here
    obtain ⟨pages, done⟩ := filled s.slice.len
    simp [CacheSlice.write, CacheSlice.append, CacheSlice.writeAt, done, fits]
  split at able
  · cases able
    obtain ⟨pages, done⟩ := filled offset
    simp [CacheSlice.write, CacheSlice.writeAt, done]
  obtain ⟨gap, ⟨⟩⟩ := ite_none_right_eq_some.mp able
  obtain ⟨pages, done⟩ := filled offset
  rw [Bool.and_eq_true] at gap
  simp [CacheSlice.write, CacheSlice.gapAppend, CacheSlice.writeAt, done, gap.2]

end

theorem truncate_isSome (shorter : len ≤ s.slice.len) :
    (step cfg s (.truncate len)).isSome = true := by
  rw [step, ← isSome_map, truncate_slice, CacheSlice.truncate,
    if_neg (not_lt.mpr shorter)]
  split <;> rfl

/-- In a run whose gap appends leave no byte of a truncated part behind them, the slice reads as the
array: through `copy_into`, the frozen pages, and what it counts as written and allocated. -/
theorem reads_as_sparse_bytes (ops : List SliceOp) (final : PagedSlice)
    (clean : Run.Along (step cfg) (CleanGap cfg) .new ops)
    (run : Run.exec (step cfg) .new ops = some final) :
    let ideal := ops.foldl SparseBytes.apply .empty
    final.slice.len = ideal.len ∧
      (∀ offset size, final.copyInto cfg offset size = ideal.read offset size) ∧
      (∀ start stop, ∃ blocks, final.freeze.collectPages cfg start stop = some blocks ∧
        blocks.flatMap (fun block => block.2.flatten) =
          ideal.read (start * cfg.blockSize) ((stop - start) * cfg.blockSize)) ∧
      Runs final.slice.writtenRanges (fun p => (ideal.bytes p).isSome = true) ∧
      (∀ range ∈ final.slice.writtenRanges, range.2 ≤ final.slice.len) ∧
      (∀ p < final.slice.contiguousWrittenLen, (ideal.bytes p).isSome = true) ∧
      ideal.bytes final.slice.contiguousWrittenLen = none ∧
      final.allocBytes = cfg.pageSize * final.pagesUsed cfg ∧
      (∀ offset buf allowGap,
        (final.slice.canWriteWithGap cfg offset buf.length allowGap).isSome = true →
        offset + buf.length ≤ cfg.chunkSize →
        (step cfg final (.write offset buf allowGap)).isSome = true) ∧
      ∀ len ≤ final.slice.len, (step cfg final (.truncate len)).isSome = true := by
  intro ideal
  have simulates : Simulates cfg final ideal := Run.tracks Simulates.step simulates_new clean run
  obtain ⟨filled, stops⟩ := contiguousWrittenLen_spec simulates.ranges (by
    rw [simulates.len]
    exact simulates.below)
  refine ⟨simulates.len, ?_, ?_, simulates.ranges, simulates.range_le, filled,
    not_isSome_iff_eq_none.mp stops, simulates.counted.allocBytes,
    fun _ _ _ able fits => simulates.accepts able fits, fun _ shorter => truncate_isSome shorter⟩
  · intro offset size
    rw [copyInto_slice, simulates.copyInto]
  intro start stop
  obtain ⟨blocks, collected, bytes⟩ := final.collectPages_eq start stop
  exact ⟨blocks, collected, by rw [bytes, simulates.copyInto]⟩

/-- Two pages of four bytes. -/
def twoPages : WriteConfig := ⟨8, 4, 4, Nat.le_add_left 1 3, Nat.le_add_left 1 3, Nat.dvd_refl 4⟩

theorem reads_as_sparse_bytes_gap : ∃ final, Run.exec (step twoPages) .new
        [.write 0 [1, 2] false, .truncate 1, .write 1 [7] false, .write 3 [9] true] = some final ∧
      final.copyInto twoPages 0 4 = [1, 7, 0, 9] := by
  have run : Run.exec (step twoPages) .new
      [.write 0 [1, 2] false, .truncate 1, .write 1 [7] false, .write 3 [9] true] = some _ := rfl
  refine ⟨_, run, ?_⟩
  rw [(reads_as_sparse_bytes _ _ ?_ run).2.1]
  · rfl
  refine ⟨by decide, fun _ first => ?_⟩
  cases first
  refine ⟨trivial, fun _ second => ?_⟩
  cases second
  refine ⟨by decide, fun _ third => ?_⟩
  cases third
  exact ⟨by decide, fun _ _ => trivial⟩

/-- A truncation inside a page keeps it, and a gap append brings the old bytes back. -/
theorem gap_shows_truncated : ∃ final, Run.exec (step twoPages) .new
        [.write 0 [1, 2, 3, 4] false, .truncate 1, .write 3 [9] true] = some final ∧
      final.copyInto twoPages 0 4 = [1, 2, 3, 9] ∧
      ([SliceOp.write 0 [1, 2, 3, 4] false, .truncate 1, .write 3 [9] true].foldl
        SparseBytes.apply .empty).read 0 4 = [1, 0, 0, 9] := by
  have run : Run.exec (step twoPages) .new
      [.write 0 [1, 2, 3, 4] false, .truncate 1, .write 3 [9] true] = some _ := rfl
  exact ⟨_, run, rfl, rfl⟩

end PagedSlice

end BrewFs.Vfs
