import Mathlib.Data.Prod.Lex
import Mathlib.Order.Interval.Finset.Nat
import BrewFs.Chunk.Slice

/-! `SliceDesc::calculate_fragmentation`: the share of a chunk's bytes that newer slices hide,
measured by merging the slices' intervals. -/

namespace BrewFs.Chunk

open List

variable (slices : List SliceDesc)

/-- `total_size`, a `u64` sum of the release build. -/
def totalSize : Nat := (slices.map (·.length)).sum % 2 ^ 64

/-- The intervals of the non-empty slices, sorted. -/
def intervals : List (Nat × Nat) :=
  ((slices.filter fun slice => 0 < slice.length).map fun slice =>
    (slice.offset, addU64 slice.offset slice.length)).insertionSort fun a b => toLex a ≤ toLex b

/-- The sweep over the sorted intervals. The sum stays below the last end. -/
def mergeLoop : List (Nat × Nat) → Nat × Nat → Nat → Nat
  | [], current, coverage => coverage + (current.2 - current.1)
  | span :: rest, current, coverage =>
    if span.1 ≤ current.2 then mergeLoop rest (current.1, max current.2 span.2) coverage
    else mergeLoop rest span (coverage + (current.2 - current.1))

def mergedCoverage : Nat :=
  match intervals slices with
  | [] => 0
  | first :: rest => mergeLoop rest first 0

/-- Numerator and denominator of the result, `none` where it is zero at once. -/
def calculateFragmentation : Option (Nat × Nat) :=
  if slices.isEmpty ∨ totalSize slices = 0 ∨ (intervals slices).isEmpty then none
  else some ((totalSize slices + 2 ^ 64 - mergedCoverage slices) % 2 ^ 64, totalSize slices)

/-- The positions that some span holds. -/
def points : List (Nat × Nat) → Finset Nat
  | [] => ∅
  | span :: rest => Finset.Ico span.1 span.2 ∪ points rest

theorem mem_points {spans : List (Nat × Nat)} {p : Nat} :
    p ∈ points spans ↔ ∃ span ∈ spans, span.1 ≤ p ∧ p < span.2 := by
  induction spans with
  | nil => simp [points]
  | cons span rest ih => simp [points, ih]

/-- What the sweep adds up: spans that touch the current one lengthen it, all others lie behind it.
-/
theorem mergeLoop_eq {rest : List (Nat × Nat)} (current : Nat × Nat) (coverage : Nat)
    (sorted : (current :: rest).Pairwise fun a b => a.1 ≤ b.1) :
    mergeLoop rest current coverage = coverage + (points (current :: rest)).card := by
  induction rest generalizing current coverage with
  | nil => simp [mergeLoop, points]
  | cons span rest ih =>
    obtain ⟨first, later⟩ := pairwise_cons.mp sorted
    have start := first span mem_cons_self
    unfold mergeLoop
    split
    · rw [ih (current.1, max current.2 span.2) coverage (pairwise_cons.mpr
        ⟨(forall_mem_cons.mp first).2, (pairwise_cons.mp later).2⟩)]
      congr 2
      ext p
      simp only [points, Finset.mem_union, Finset.mem_Ico, ← or_assoc]
      apply or_congr_left
      omega
    · have behind : Disjoint (Finset.Ico current.1 current.2) (points (span :: rest)) := by
        rw [Finset.disjoint_left]
        intro p inside beyond
        obtain ⟨other, listed, low, _⟩ := mem_points.mp beyond
        have after : span.1 ≤ other.1 := by
          rcases mem_cons.mp listed with rfl | listed
          · exact le_rfl
          · exact (pairwise_cons.mp later).1 other listed
        have := (Finset.mem_Ico.mp inside).2
        omega
      rw [ih _ _ later, show points (current :: span :: rest) = _ ∪ points (span :: rest) from rfl,
        Finset.card_union_of_disjoint behind, Nat.card_Ico, Nat.add_assoc]

/-- The positions that some slice covers. -/
def covered (slices : List SliceDesc) : Finset Nat :=
  points (slices.map fun slice => (slice.offset, slice.stop))

theorem mem_covered {slices : List SliceDesc} {p : Nat} :
    p ∈ covered slices ↔ ∃ slice ∈ slices, slice.Covers p := by
  simp [covered, mem_points, SliceDesc.Covers]

variable {slices : List SliceDesc}

theorem mergedCoverage_eq (fits : ∀ slice ∈ slices, slice.stop < 2 ^ 64) :
    mergedCoverage slices = (covered slices).card := by
  have same : points (intervals slices) = covered slices := by
    ext p
    rw [mem_points, mem_covered]
    simp only [intervals, (perm_insertionSort _ _).mem_iff, mem_map, mem_filter,
      decide_eq_true_eq, exists_exists_and_eq_and]
    constructor
    · rintro ⟨slice, ⟨mem, _⟩, within⟩
      rw [addU64_of_lt (fits slice mem)] at within
      exact ⟨slice, mem, within⟩
    rintro ⟨slice, mem, low, high⟩
    rw [SliceDesc.stop] at high
    refine ⟨slice, ⟨mem, by omega⟩, ?_⟩
    rw [addU64_of_lt (fits slice mem)]
    exact ⟨low, high⟩
  have sorted : (intervals slices).Pairwise fun a b => a.1 ≤ b.1 := by
    refine (pairwise_insertionSort _ _).imp fun le => ?_
    rcases Prod.Lex.le_iff.mp le with less | equal
    · exact less.le
    · exact equal.1.le
  rw [← same]
  unfold mergedCoverage
  cases spans : intervals slices with
  | nil => rfl
  | cons first rest =>
    rw [spans] at sorted
    exact (mergeLoop_eq first 0 sorted).trans (Nat.zero_add _)

theorem card_covered_le : (covered slices).card ≤ (slices.map (·.length)).sum := by
  induction slices with
  | nil => exact Nat.le_refl _
  | cons slice rest ih =>
    calc (covered (slice :: rest)).card
      _ ≤ (Finset.Ico slice.offset slice.stop).card + (covered rest).card :=
        Finset.card_union_le _ _
      _ ≤ slice.length + (rest.map (·.length)).sum := by
        rw [Nat.card_Ico, SliceDesc.stop, Nat.add_sub_cancel_left]
        exact Nat.add_le_add_left ih _

/-- The coverage is the number of covered bytes in any order of the slices. Where the lengths add up
to a `u64`, the subtraction from the total does not underflow. -/
theorem fragmentation_measured (slices : List SliceDesc)
    (fits : ∀ slice ∈ slices, slice.stop < 2 ^ 64) :
    mergedCoverage slices = (covered slices).card ∧
      (∀ other, slices.Perm other → mergedCoverage other = mergedCoverage slices) ∧
      ((slices.map (·.length)).sum < 2 ^ 64 → totalSize slices = (slices.map (·.length)).sum ∧
        mergedCoverage slices ≤ totalSize slices) := by
  have coverage := mergedCoverage_eq fits
  refine ⟨coverage, fun other perm => ?_, fun small => ?_⟩
  · have same : covered slices = covered other := by
      ext p
      simp only [mem_covered, perm.mem_iff]
    rw [coverage, same]
    exact mergedCoverage_eq fun slice mem => fits slice (perm.mem_iff.mpr mem)
  have total : totalSize slices = (slices.map (·.length)).sum := Nat.mod_eq_of_lt small
  rw [coverage, total]
  exact ⟨rfl, card_covered_le⟩

theorem fragmentation_measured_overlap :
    totalSize [⟨1, 7, 0, 100⟩, ⟨2, 7, 50, 100⟩] = 200 ∧
      mergedCoverage [⟨1, 7, 0, 100⟩, ⟨2, 7, 50, 100⟩] ≤ 200 :=
  (fragmentation_measured [⟨1, 7, 0, 100⟩, ⟨2, 7, 50, 100⟩] (by decide)).2.2 (by decide)

theorem fragmentation_underflow : ¬ ∀ slices : List SliceDesc,
    (∀ slice ∈ slices, slice.stop < 2 ^ 64) → mergedCoverage slices ≤ totalSize slices := by
  intro le
  exact absurd (le [⟨1, 7, 0, 2 ^ 64 - 1⟩, ⟨2, 7, 0, 2 ^ 64 - 1⟩] (by decide)) (by decide)

end BrewFs.Chunk
