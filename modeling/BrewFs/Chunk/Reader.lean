import BrewFs.Utils.Intervals
import BrewFs.Chunk.Slice
import Mathlib.Data.List.Sort

/- `chunk/reader.rs`, the planning half: which slice serves each byte of a request. -/
namespace BrewFs.Chunk

open BrewFs.Interval BrewFs.Utils List Intervals
open Intervals (taken kept_inside taken_inside kept)

/-- A segment `[left, right)` of the request and the slice that serves it. -/
structure VisibleRead where
  left : Nat
  right : Nat
  slice : SliceDesc
  deriving DecidableEq, Repr

namespace VisibleRead

def span (read : VisibleRead) : Nat × Nat := (read.left, read.right)

/-- The segment contains byte position `p`. -/
def Holds (read : VisibleRead) (p : Nat) : Prop := Within read.span p

instance (read : VisibleRead) (p : Nat) : Decidable (read.Holds p) :=
  inferInstanceAs (Decidable (Within _ _))

end VisibleRead

/-- The loop of `visible_reads`, from the newest slice on. -/
def visibleLoop : List SliceDesc → Intervals Nat → List VisibleRead → List VisibleRead
  | [], _, needRead => needRead
  | slice :: older, intervals, needRead =>
    let cut := intervals.cutEach slice.offset (addU64 slice.offset slice.length)
      (fun reads l r => reads ++ [⟨l, r, slice⟩]) needRead
    if cut.2.2.isEmpty then cut.2.1 else visibleLoop older cut.2.2 cut.2.1

def visibleReads (slices : List SliceDesc) (offset len : Nat) : List VisibleRead :=
  let needRead := visibleLoop slices.reverse (Intervals.new offset (addU64 offset len)) []
  if needRead.length > 1 then
    needRead.insertionSort (fun a b => a.left ≤ b.left)
  else needRead

/-- The loop invariant. `visited` are the slices walked, newest first: the remaining spans are what
none of them covers, and every other byte of the request sits in the segment of the newest visited
slice covering it. -/
structure Planned (lo hi : Nat) (visited : List SliceDesc) (spans : List (Nat × Nat))
    (reads : List VisibleRead) : Prop where
  ordered : Ordered spans
  spansInside : ∀ span ∈ spans, lo ≤ span.1 ∧ span.2 ≤ hi
  uncovered : ∀ p, (∃ span ∈ spans, Within span p) ↔
    (lo ≤ p ∧ p < hi) ∧ ∀ slice ∈ visited, ¬ slice.Covers p
  readsInside : ∀ read ∈ reads, lo ≤ read.left ∧ read.left < read.right ∧ read.right ≤ hi
  apart : reads.Pairwise fun a b => Apart a.span b.span
  attributed : ∀ read ∈ reads, ∀ p, read.Holds p →
    visited.find? (fun slice => decide (slice.Covers p)) = some read.slice
  served : ∀ p, lo ≤ p → p < hi → (∃ slice ∈ visited, slice.Covers p) → ∃ read ∈ reads, read.Holds p

theorem planned_init {lo hi : Nat} (le : lo ≤ hi) : Planned lo hi [] [(lo, hi)] [] where
  ordered := ordered_singleton lo hi le
  spansInside := by simp
  uncovered := by simp [Within]
  readsInside := by simp
  apart := .nil
  attributed := by simp
  served := by simp

private theorem foldl_push (slice : SliceDesc) (pieces : List (Nat × Nat))
    (reads : List VisibleRead) :
    pieces.foldl (fun acc piece => acc ++ [⟨piece.1, piece.2, slice⟩]) reads =
      reads ++ pieces.map fun piece => ⟨piece.1, piece.2, slice⟩ := by
  induction pieces generalizing reads with
  | nil => simp
  | cons piece rest ih => simp [ih]

/-- The reads after one slice: the old ones and the pieces the slice takes. -/
def takenReads (slice : SliceDesc) (spans : List (Nat × Nat)) : List VisibleRead :=
  (spans.flatMap (taken slice.offset slice.stop)).map fun piece =>
    ⟨piece.1, piece.2, slice⟩

variable {spans : List (Nat × Nat)} {read : VisibleRead} {slice : SliceDesc} {p : Nat}

theorem mem_takenReads (mem : read ∈ takenReads slice spans) :
    read.slice = slice ∧ ∃ span ∈ spans, read.span ∈ taken slice.offset slice.stop span := by
  rcases mem_map.mp mem with ⟨piece, pieceMem, rfl⟩
  rcases mem_flatMap.mp pieceMem with ⟨span, spanMem, inSpan⟩
  exact ⟨rfl, span, spanMem, inSpan⟩

/-- A byte of a taken piece was uncovered and lies in the slice. -/
theorem holds_takenReads :
    (∃ read ∈ takenReads slice spans, read.Holds p) ↔
      (∃ span ∈ spans, Within span p) ∧ slice.Covers p := by
  refine Iff.trans ?_ (within_flatMap fun span =>
    within_taken slice.offset slice.stop span p)
  simp [takenReads, VisibleRead.Holds, VisibleRead.span]

variable {lo hi : Nat} {visited : List SliceDesc} {reads : List VisibleRead}

theorem Planned.step (planned : Planned lo hi visited spans reads) (slice : SliceDesc) :
    Planned lo hi (visited ++ [slice]) (spans.flatMap (kept slice.offset slice.stop))
      (reads ++ takenReads slice spans) := by
  have proper : slice.offset ≤ slice.stop := Nat.le_add_right _ _
  refine ⟨?_, ?_, ?_, ?_, ?_, ?_, ?_⟩
  · apply planned.ordered.flatMap
    · intro span mem
      exact kept_ordered _ _ span (planned.ordered.1 span mem) proper
    · intro span mem part inPart
      exact kept_inside _ _ span part (planned.ordered.1 span mem) inPart
  · intro part mem
    rcases mem_flatMap.mp mem with ⟨span, spanMem, inPart⟩
    have outer := planned.spansInside span spanMem
    have inner := kept_inside _ _ span part (planned.ordered.1 span spanMem) inPart
    omega
  · intro p
    rw [within_flatMap fun span => within_kept slice.offset slice.stop span p,
      planned.uncovered p, forall_mem_append, forall_mem_singleton, and_assoc]
    rfl
  · intro read mem
    rcases mem_append.mp mem with old | new
    · exact planned.readsInside read old
    rcases mem_takenReads new with ⟨_, span, spanMem, inSpan⟩
    have outer := planned.spansInside span spanMem
    have inner := taken_inside _ _ span read.span inSpan
    simp only [VisibleRead.span] at inner
    omega
  · rw [pairwise_append]
    refine ⟨planned.apart, ?_, ?_⟩
    · -- the pieces of one slice come from an ordered list of spans
      have pieces : Ordered (spans.flatMap (taken slice.offset slice.stop)) := by
        apply planned.ordered.flatMap
        · exact fun span _ => taken_ordered _ _ span
        intro span _ part inPart
        have inner := taken_inside _ _ span part inPart
        exact ⟨inner.1, inner.2.2⟩
      rw [takenReads, pairwise_map]
      exact pieces.2.imp apart_of_le
    · -- an old segment lies on bytes some visited slice covers, a new one does not
      intro old oldMem new newMem p both
      have found := planned.attributed old oldMem p both.1
      have covers : old.slice.Covers p := by simpa using find?_some found
      have fresh := (holds_takenReads.mp ⟨new, newMem, both.2⟩).1
      exact ((planned.uncovered p).mp fresh).2 old.slice (mem_of_find?_eq_some found) covers
  · intro read mem p holds
    rcases mem_append.mp mem with old | new
    · rw [find?_append, planned.attributed read old p holds]
      rfl
    have fresh := holds_takenReads.mp ⟨read, new, holds⟩
    rw [(mem_takenReads new).1]
    have none : visited.find? (fun other => decide (other.Covers p)) = none := by
      simpa using ((planned.uncovered p).mp fresh.1).2
    simp [none, fresh.2]
  · intro p lower upper covered
    by_cases earlier : ∃ other ∈ visited, other.Covers p
    · rcases planned.served p lower upper earlier with ⟨read, mem, holds⟩
      exact ⟨read, mem_append_left _ mem, holds⟩
    have clear : ∀ other ∈ visited, ¬ other.Covers p := fun other mem covers =>
      earlier ⟨other, mem, covers⟩
    rcases covered with ⟨other, mem, covers⟩
    rcases mem_append.mp mem with old | last
    · exact absurd covers (clear other old)
    rw [mem_singleton.mp last] at covers
    have fresh := (planned.uncovered p).mpr ⟨⟨lower, upper⟩, clear⟩
    rcases holds_takenReads.mpr ⟨fresh, covers⟩ with ⟨read, readMem, holds⟩
    exact ⟨read, mem_append_right _ readMem, holds⟩

/-- Once all is covered, further slices change nothing. -/
theorem Planned.exhausted (planned : Planned lo hi visited [] reads) (rest : List SliceDesc) :
    Planned lo hi (visited ++ rest) [] reads := by
  have full : ∀ p, lo ≤ p → p < hi → ∃ slice ∈ visited, slice.Covers p := by
    intro p lower upper
    by_contra bare
    have free := (planned.uncovered p).mpr
      ⟨⟨lower, upper⟩, fun slice mem covers => bare ⟨slice, mem, covers⟩⟩
    simp at free
  refine ⟨planned.ordered, planned.spansInside, ?_, planned.readsInside, planned.apart, ?_, ?_⟩
  · intro p
    constructor
    · intro held
      simp at held
    intro free
    rcases full p free.1.1 free.1.2 with ⟨slice, mem, covers⟩
    exact absurd covers (free.2 slice (mem_append_left _ mem))
  · intro read mem p holds
    rw [find?_append, planned.attributed read mem p holds]
    rfl
  · intro p lower upper _
    exact planned.served p lower upper (full p lower upper)

theorem visibleLoop_planned (older visited : List SliceDesc) (intervals : Intervals Nat)
    (reads : List VisibleRead) (fits : ∀ slice ∈ older, slice.stop < 2 ^ 64)
    (planned : Planned lo hi visited intervals.spans reads) :
    ∃ spans, Planned lo hi (visited ++ older) spans (visibleLoop older intervals reads) := by
  induction older generalizing visited intervals reads with
  | nil => exact ⟨intervals.spans, by simpa [visibleLoop] using planned⟩
  | cons slice older ih =>
    have next := planned.step slice
    have reads' := intervals.cutEach_state slice.offset slice.stop
      (fun acc l r => acc ++ [(⟨l, r, slice⟩ : VisibleRead)]) reads
    rw [foldl_push slice] at reads'
    have spans' := intervals.cutEach_spans slice.offset slice.stop
      (fun acc l r => acc ++ [(⟨l, r, slice⟩ : VisibleRead)]) reads
    rw [← spans'] at next
    rw [takenReads, ← reads'] at next
    have stop : addU64 slice.offset slice.length = slice.stop :=
      addU64_of_lt (fits slice mem_cons_self)
    simp only [visibleLoop, stop]
    split
    · rename_i empty
      rw [isEmpty_iff.mp empty] at next
      exact ⟨[], by simpa using next.exhausted older⟩
    rcases ih _ _ _ (fun other mem => fits other (mem_cons_of_mem _ mem)) next with
      ⟨spans, done⟩
    exact ⟨spans, by simpa using done⟩

theorem visibleReads_sorted (slices : List SliceDesc) (offset len : Nat) :
    (visibleReads slices offset len).Pairwise (fun a b => a.left ≤ b.left) := by
  unfold visibleReads
  dsimp only
  split
  · exact pairwise_insertionSort _ _
  next short =>
    match visibleLoop slices.reverse (Intervals.new offset (addU64 offset len)) [], short with
    | [], _ => exact .nil
    | [read], _ => exact pairwise_singleton _ _
    | _ :: _ :: _, long => simp at long

theorem Planned.perm {reordered : List VisibleRead} (planned : Planned lo hi visited spans reads)
    (perm : reordered.Perm reads) : Planned lo hi visited spans reordered where
  ordered := planned.ordered
  spansInside := planned.spansInside
  uncovered := planned.uncovered
  readsInside := fun read mem => planned.readsInside read (perm.mem_iff.mp mem)
  apart := (perm.pairwise_iff fun apart => apart.symm).mpr planned.apart
  attributed := fun read mem => planned.attributed read (perm.mem_iff.mp mem)
  served := by
    intro p lower upper covered
    rcases planned.served p lower upper covered with ⟨read, mem, holds⟩
    exact ⟨read, perm.mem_iff.mpr mem, holds⟩

section

variable {slices : List SliceDesc} {offset len : Nat}

section

variable (fits : ∀ slice ∈ slices, slice.stop < 2 ^ 64) (inside : offset + len < 2 ^ 64)

include fits inside

theorem visibleReads_planned :
    ∃ spans, Planned offset (offset + len) slices.reverse spans
      (visibleReads slices offset len) := by
  have start : Planned offset (offset + len) [] (Intervals.new offset (addU64 offset len)).spans
      [] := by
    rw [addU64_of_lt inside]
    exact planned_init (Nat.le_add_right _ _)
  rcases visibleLoop_planned slices.reverse [] _ _
    (fun slice mem => fits slice (mem_reverse.mp mem)) start with ⟨spans, planned⟩
  refine ⟨spans, planned.perm ?_⟩
  unfold visibleReads
  dsimp only
  split
  · exact perm_insertionSort _ _
  · exact .refl _

/-- Sorted by left end and disjoint: each segment ends before the next one starts. -/
theorem visibleReads_ordered :
    (visibleReads slices offset len).Pairwise (fun a b => a.right ≤ b.left) := by
  rcases visibleReads_planned fits inside with ⟨spans, planned⟩
  apply ((visibleReads_sorted slices offset len).and planned.apart).imp_of_mem
  intro a b _ bMem both
  exact le_of_apart both.2 both.1 (planned.readsInside b bMem).2.1

/-- A segment belongs to the last covering slice of each of its bytes. -/
theorem owner_of_visibleRead (mem : read ∈ visibleReads slices offset len) (holds : read.Holds p) :
    owner slices p = some read.slice := by
  rcases visibleReads_planned fits inside with ⟨spans, planned⟩
  exact planned.attributed read mem p holds

theorem visibleRead_of_owner (lower : offset ≤ p) (upper : p < offset + len)
    (owned : owner slices p = some slice) :
    ∃ read ∈ visibleReads slices offset len, read.Holds p := by
  rcases visibleReads_planned fits inside with ⟨spans, planned⟩
  exact planned.served p lower upper
    ⟨slice, mem_reverse.mpr (owner_mem owned), owner_covers owned⟩

theorem visibleRead_inside (mem : read ∈ visibleReads slices offset len) :
    offset ≤ read.left ∧ read.left < read.right ∧ read.right ≤ offset + len := by
  rcases visibleReads_planned fits inside with ⟨spans, planned⟩
  exact planned.readsInside read mem

end

end

/-- Last-writer-wins: the segments are sorted, disjoint and inside the request, and those that hold
a byte of it are exactly one segment of its last covering slice, or none when no slice covers it.
The ends of slices and request do not wrap. -/
theorem visibleReads_last_writer_wins (slices : List SliceDesc) (offset len : Nat)
    (fits : ∀ slice ∈ slices, slice.stop < 2 ^ 64) (inside : offset + len < 2 ^ 64) :
    (visibleReads slices offset len).Pairwise (fun a b => a.right ≤ b.left) ∧
    (∀ read ∈ visibleReads slices offset len,
      offset ≤ read.left ∧ read.left < read.right ∧ read.right ≤ offset + len) ∧
    ∀ p, offset ≤ p → p < offset + len →
      match owner slices p with
      | some slice => ∃ left right,
          (visibleReads slices offset len).filter (fun read => decide (read.Holds p)) =
            [⟨left, right, slice⟩]
      | none => (visibleReads slices offset len).filter (fun read => decide (read.Holds p)) =
          [] := by
  rcases visibleReads_planned fits inside with ⟨spans, planned⟩
  refine ⟨visibleReads_ordered fits inside, planned.readsInside, ?_⟩
  intro p lower upper
  split
  · rename_i slice owned
    rcases visibleRead_of_owner fits inside lower upper owned with ⟨read, mem, holds⟩
    have same : some read.slice = some slice := by
      rw [← owner_of_visibleRead fits inside mem holds, owned]
    refine ⟨read.left, read.right, ?_⟩
    rw [← Option.some.inj same]
    exact filter_eq_singleton_of_apart _ VisibleRead.span planned.apart p read mem holds
  · rename_i bare
    rw [filter_eq_nil_iff]
    intro read mem holds
    have found := owner_of_visibleRead fits inside mem (of_decide_eq_true holds)
    rw [bare] at found
    cases found

/-- An old slice with a newer one in its middle: byte 3 is read from the newer one only. -/
theorem visibleReads_last_writer_wins_overlaid :
    owner [⟨1, 7, 0, 8⟩, ⟨2, 7, 2, 3⟩] 3 = some ⟨2, 7, 2, 3⟩ ∧
    ∃ left right,
      (visibleReads [⟨1, 7, 0, 8⟩, ⟨2, 7, 2, 3⟩] 0 10).filter (fun read => decide (read.Holds 3)) =
        [⟨left, right, ⟨2, 7, 2, 3⟩⟩] := by
  refine ⟨by decide, ?_⟩
  exact (visibleReads_last_writer_wins [⟨1, 7, 0, 8⟩, ⟨2, 7, 2, 3⟩] 0 10
    (by decide) (by decide)).2.2 3 (by decide) (by decide)

/-- The end of this slice wraps to zero, and no segment reads it. -/
theorem visibleReads_wraps :
    (owner [⟨1, 7, 1, 2 ^ 64 - 1⟩] 5).isSome ∧ visibleReads [⟨1, 7, 1, 2 ^ 64 - 1⟩] 0 10 = [] := by
  decide

end BrewFs.Chunk
