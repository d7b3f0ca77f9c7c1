import Mathlib.Data.List.Destutter
import Mathlib.Data.List.Sort
import Mathlib.Data.Prod.Lex
import BrewFs.Utils.Intervals

/-! `vfs/io/writer.rs`: the watermarks of cached writes. They remember for every range of a chunk
the newest request that has asked to write there; an older request is cut back to what is left. -/

namespace BrewFs.Vfs

open BrewFs.Interval BrewFs.Utils List Intervals
open Intervals (kept kept_inside kept_ordered)

structure CachedWriteRange where
  start : Nat
  stop : Nat
  maxUnique : Nat
deriving DecidableEq, Repr

namespace CachedWriteRange

/-- Does the range lie outside of `[start, stop)`? -/
def misses (range : CachedWriteRange) (start stop : Nat) : Bool :=
  range.stop ≤ start || stop ≤ range.start

variable (ranges : List CachedWriteRange) {merged next : List CachedWriteRange}

/-- The ends of the new range and all overlapping ones. -/
def boundaries (start stop : Nat) : List Nat :=
  (([start, stop] ++ ranges.flatMap fun range =>
    if range.misses start stop then [] else
      [max range.start start, min range.stop stop]).insertionSort
      (· ≤ ·)).destutter (· ≠ ·)

/-- What an old range keeps outside of the new one. -/
def outside (start stop : Nat) (range : CachedWriteRange) : List CachedWriteRange :=
  if range.misses start stop then [range]
  else
    (if range.start < start then [{ range with stop := start }] else []) ++
      (if stop < range.stop then [{ range with start := stop }] else [])

/-- The part between two boundaries, with the newest request there. -/
def segment (unique : Nat) (window : Nat × Nat) : Option CachedWriteRange :=
  if window.2 ≤ window.1 then none
  else some ⟨window.1, window.2, ranges.foldl (fun newest range =>
    if range.start < window.2 ∧ window.1 < range.stop then max newest range.maxUnique else newest)
      unique⟩

/-- Append a range, or extend the last one by it. -/
def push (merged : List CachedWriteRange) (range : CachedWriteRange) : List CachedWriteRange :=
  if range.stop ≤ range.start then merged
  else
    match merged.getLast? with
    | some last =>
      if last.stop = range.start ∧ last.maxUnique = range.maxUnique then
        merged.dropLast ++ [{ last with stop := range.stop }]
      else merged ++ [range]
    | none => merged ++ [range]

def key (range : CachedWriteRange) : Nat ×ₗ Nat := toLex (range.start, range.stop)

/-- `record_cached_write_watermark` -/
def record (start stop unique : Nat) : List CachedWriteRange :=
  if unique = 0 ∨ stop ≤ start then ranges
  else
    let cuts := boundaries ranges start stop
    let next := ranges.flatMap (outside start stop) ++
      (cuts.zip cuts.tail).filterMap (segment ranges unique)
    (next.insertionSort fun a b => a.key ≤ b.key).foldl push []

/-- What a newer request has marked is not free. -/
def cutNewer (offset stop unique : Nat) (free : Intervals Nat) (range : CachedWriteRange) :
    Intervals Nat :=
  if unique < range.maxUnique then (free.cut (max range.start offset) (min range.stop stop)).2
  else free

/-- `allowed_cached_write_ranges` of `Inner`: the allowed ranges, and the next watermarks. The
request lies in one chunk, so that its end is a `u64` as well. -/
def allowed (offset len unique : Nat) : List (Nat × Nat) × List CachedWriteRange :=
  if len = 0 then ([], ranges)
  else if unique = 0 then ([(offset, len)], ranges)
  else
    let free := ranges.foldl (cutNewer offset (offset + len) unique)
      (new offset (offset + len))
    (free.collect.map fun span => (span.1, span.2 - span.1),
      record ranges offset (offset + len) unique)

/-! ### What the watermarks say -/

/-- A range covers the position with this request. -/
def Marks (p unique : Nat) : Prop :=
  ∃ range ∈ ranges, (range.start ≤ p ∧ p < range.stop) ∧ range.maxUnique = unique

/-- The newest request at a position, zero for none. -/
def mark (p : Nat) : Nat := ranges.foldr (fun range newest =>
    if range.start ≤ p ∧ p < range.stop then max range.maxUnique newest else newest) 0

variable {p bound x : Nat} {range : CachedWriteRange} {window : Nat × Nat}

theorem marks_append {front back : List CachedWriteRange} {unique : Nat} :
    Marks (front ++ back) p unique ↔ Marks front p unique ∨ Marks back p unique := by
  simp only [Marks, mem_append, or_and_right, exists_or]

theorem marks_singleton {unique : Nat} :
    Marks [range] p unique ↔ (range.start ≤ p ∧ p < range.stop) ∧ range.maxUnique = unique := by
  simp only [Marks, mem_singleton, exists_eq_left]

theorem mark_le {ranges : List CachedWriteRange} :
    mark ranges p ≤ bound ↔ ∀ unique, Marks ranges p unique → unique ≤ bound := by
  induction ranges with
  | nil => simp [mark, Marks]
  | cons range rest ih =>
    have either : ∀ unique, Marks (range :: rest) p unique ↔
        Marks [range] p unique ∨ Marks rest p unique := @marks_append p [range] rest
    simp only [either, or_imp, forall_and, ← ih, marks_singleton]
    rw [mark, foldr_cons]
    split
    · rename_i covers
      simp [mark, covers]
    rename_i missed
    rw [not_and] at missed
    simp +contextual [mark, missed]

/-! ### Merging -/

def Proper : Prop := ∀ range ∈ ranges, range.start < range.stop

theorem push_spec (proper : Proper merged) :
    Proper (push merged range) ∧ ∀ p unique,
      Marks (push merged range) p unique ↔ Marks merged p unique ∨ Marks [range] p unique := by
  unfold push
  split
  · refine ⟨proper, fun p unique => ?_⟩
    rw [marks_singleton]
    constructor
    · exact .inl
    rintro (before | ⟨inside, _⟩)
    · exact before
    · omega
  · have appended : Proper (merged ++ [range]) := by
      intro other listed
      rcases mem_append.mp listed with before | single
      · exact proper other before
      · obtain rfl := mem_singleton.mp single
        omega
    split
    · rename_i last found
      obtain ⟨front, rfl⟩ := List.getLast?_eq_some_iff.mp found
      have nonempty := proper last (mem_append_right _ (mem_singleton.mpr rfl))
      split
      · rw [dropLast_concat]
        refine ⟨?_, fun p unique => ?_⟩
        · intro other listed
          rcases mem_append.mp listed with before | single
          · exact proper other (mem_append_left _ before)
          obtain rfl := mem_singleton.mp single
          dsimp only
          omega
        rw [marks_append, marks_append, marks_singleton, marks_singleton, marks_singleton,
          or_assoc]
        apply or_congr_right
        dsimp only
        omega
      · exact ⟨appended, fun _ _ => marks_append⟩
    · exact ⟨appended, fun _ _ => marks_append⟩

theorem foldl_push (proper : Proper merged) :
    Proper (next.foldl push merged) ∧ ∀ p unique,
      Marks (next.foldl push merged) p unique ↔ Marks merged p unique ∨ Marks next p unique := by
  induction next generalizing merged with
  | nil => exact ⟨proper, by simp [Marks]⟩
  | cons range rest ih =>
    obtain ⟨still, marks⟩ := push_spec proper
    refine ⟨(ih still).1, fun p unique => ?_⟩
    rw [foldl_cons, (ih still).2, marks, or_assoc, ← marks_append, singleton_append]

/-- Sorted and pairwise disjoint. -/
def Ascending : Prop := ranges.Pairwise fun a b => a.stop ≤ b.start

theorem push_ascending {rest : List CachedWriteRange}
    (ascending : Ascending (merged ++ range :: rest)) : Ascending (push merged range ++ rest) := by
  have dropped : Ascending (merged ++ rest) :=
    ascending.sublist ((sublist_cons_self ..).append_left _)
  have kept : Ascending (merged ++ [range] ++ rest) := by simpa using ascending
  unfold push
  split
  · exact dropped
  split
  · rename_i last found
    obtain ⟨front, rfl⟩ := List.getLast?_eq_some_iff.mp found
    split
    · unfold Ascending at *
      simp only [pairwise_append, pairwise_cons, mem_append, mem_cons] at ascending ⊢
      grind
    · exact kept
  · exact kept

theorem foldl_push_ascending (ascending : Ascending (merged ++ next)) :
    Ascending (next.foldl push merged) := by
  induction next generalizing merged with
  | nil => simpa using ascending
  | cons range rest ih => exact ih (push_ascending ascending)

/-! ### Recording -/

section Windows

variable {cuts : List Nat}

section

variable (sorted : cuts.Pairwise (· ≤ ·))

include sorted

theorem windows_apart (listed : window ∈ cuts.zip cuts.tail) (mem : x ∈ cuts) :
    x ≤ window.1 ∨ window.2 ≤ x := by
  induction cuts with
  | nil => cases mem
  | cons first rest ih =>
    cases rest with
    | nil => cases listed
    | cons second rest =>
      rw [pairwise_cons] at sorted
      rw [tail_cons, zip_cons_cons, mem_cons] at listed
      rcases listed with rfl | listed
      · rcases mem_cons.mp mem with rfl | later
        · exact .inl (le_rfl)
        rcases mem_cons.mp later with rfl | later
        · exact .inr (le_rfl)
        · exact .inr ((pairwise_cons.mp sorted.2).1 x later)
      rcases mem_cons.mp mem with rfl | later
      · have inside := (of_mem_zip (Prod.mk.eta (p := window) ▸ listed)).1
        exact .inl (sorted.1 _ inside)
      · exact ih sorted.2 listed later

/-- The neighbours cover everything between the first cut and the last. -/
theorem windows_cover {low high p : Nat} (first : low ∈ cuts) (last : high ∈ cuts) (above : low ≤ p)
    (below : p < high) : ∃ window ∈ cuts.zip cuts.tail, window.1 ≤ p ∧ p < window.2 := by
  induction cuts generalizing low with
  | nil => cases first
  | cons head rest ih =>
    rw [pairwise_cons] at sorted
    have start : head ≤ p := by
      rcases mem_cons.mp first with rfl | later
      · exact above
      · exact (sorted.1 low later).trans above
    have behind : high ∈ rest := by
      rcases mem_cons.mp last with rfl | later
      · omega
      · exact later
    cases rest with
    | nil => cases behind
    | cons second rest =>
      by_cases inside : p < second
      · exact ⟨(head, second), by simp, start, inside⟩
      obtain ⟨window, listed, covers⟩ := ih sorted.2 mem_cons_self behind (by omega)
      exact ⟨window, by
        exact mem_cons_of_mem _ listed, covers⟩

theorem windows_ascending : (cuts.zip cuts.tail).Pairwise fun a b => a.2 ≤ b.1 := by
  induction cuts with
  | nil => exact .nil
  | cons first rest ih =>
    cases rest with
    | nil => exact .nil
    | cons second rest =>
      have later := (pairwise_cons.mp sorted).2
      refine pairwise_cons.mpr ⟨fun window listed => ?_, ih later⟩
      rcases mem_cons.mp (of_mem_zip (Prod.mk.eta (p := window) ▸ listed)).1 with same | behind
      · exact same.ge
      · exact (pairwise_cons.mp later).1 _ behind

end

theorem windows_inside {low high : Nat} (bounded : ∀ x ∈ cuts, low ≤ x ∧ x ≤ high)
    (listed : window ∈ cuts.zip cuts.tail) : low ≤ window.1 ∧ window.2 ≤ high := by
  obtain ⟨first, second⟩ := of_mem_zip (Prod.mk.eta (p := window) ▸ listed)
  exact ⟨(bounded _ first).1, (bounded _ (mem_of_mem_tail second)).2⟩

end Windows

variable {ranges : List CachedWriteRange} {start stop unique : Nat}

theorem mem_boundaries : x ∈ boundaries ranges start stop ↔
    x = start ∨ x = stop ∨ ∃ range ∈ ranges, range.misses start stop = false ∧
      (x = max range.start start ∨ x = min range.stop stop) := by
  unfold boundaries
  rw [(pairwise_insertionSort _ _).destutter_eq_dedup, mem_dedup,
    (perm_insertionSort _ _).mem_iff]
  simp only [mem_append, mem_cons, not_mem_nil, or_false, or_assoc, mem_flatMap]
  refine or_congr_right (or_congr_right (exists_congr fun range => and_congr_right fun _ => ?_))
  cases range.misses start stop <;> simp

theorem boundaries_sorted : (boundaries ranges start stop).Pairwise (· ≤ ·) :=
  (pairwise_insertionSort _ _).sublist (destutter_sublist _ _)

theorem boundaries_bounded (filled : start < stop) :
    ∀ x ∈ boundaries ranges start stop, start ≤ x ∧ x ≤ stop := by
  intro x listed
  rcases mem_boundaries.mp listed with rfl | rfl | ⟨range, _, hit, rfl | rfl⟩
  · omega
  · omega
  · simp only [misses, Bool.or_eq_false_iff, decide_eq_false_iff_not] at hit
    omega
  · simp only [misses, Bool.or_eq_false_iff, decide_eq_false_iff_not] at hit
    omega

theorem covers_window
    (listed : window ∈ (boundaries ranges start stop).zip (boundaries ranges start stop).tail)
    (filled : start < stop) (mem : range ∈ ranges)
    (overlaps : range.start < window.2 ∧ window.1 < range.stop)
    (inside : window.1 ≤ p ∧ p < window.2) : range.start ≤ p ∧ p < range.stop := by
  obtain ⟨low, high⟩ := windows_inside (boundaries_bounded filled) listed
  have hit : range.misses start stop = false := by
    simp only [misses, Bool.or_eq_false_iff, decide_eq_false_iff_not]
    omega
  have left := windows_apart boundaries_sorted listed
    (mem_boundaries.mpr (.inr (.inr ⟨range, mem, hit, .inl rfl⟩)))
  have right := windows_apart boundaries_sorted listed
    (mem_boundaries.mpr (.inr (.inr ⟨range, mem, hit, .inr rfl⟩)))
  omega

/-- The parts inside of the new range. -/
abbrev inner (ranges : List CachedWriteRange) (start stop unique : Nat) : List CachedWriteRange :=
  ((boundaries ranges start stop).zip (boundaries ranges start stop).tail).filterMap
    (segment ranges unique)

theorem foldl_newest_le :
    ranges.foldl (fun newest range => if range.start < window.2 ∧ window.1 < range.stop then
      max newest range.maxUnique else newest) unique ≤ bound ↔
      unique ≤ bound ∧ ∀ range ∈ ranges, range.start < window.2 ∧ window.1 < range.stop →
        range.maxUnique ≤ bound := by
  induction ranges generalizing unique with
  | nil => simp
  | cons range rest ih =>
    rw [foldl_cons, ih, forall_mem_cons]
    split
    · rename_i overlaps
      rw [max_le_iff]
      simp only [overlaps, and_self, true_imp_iff, and_assoc]
    · rename_i apart
      simp only [apart, false_imp_iff, true_and]

variable {newest : Nat}

def span (range : CachedWriteRange) : Nat × Nat := (range.start, range.stop)

/-- An old range keeps what a cut keeps. -/
theorem outside_eq : outside start stop range = (kept start stop range.span).map
    fun part => ⟨part.1, part.2, range.maxUnique⟩ := by
  cases range
  simp only [outside, misses, kept, span]
  grind

theorem mem_outside {part : CachedWriteRange} : part ∈ outside start stop range ↔
    part.span ∈ kept start stop range.span ∧ part.maxUnique = range.maxUnique := by
  rw [outside_eq, mem_map]
  constructor
  · rintro ⟨kept, listed, rfl⟩
    exact ⟨listed, rfl⟩
  · rintro ⟨listed, same⟩
    exact ⟨part.span, listed, by rw [← same]; rfl⟩

theorem marks_outside_range : Marks (outside start stop range) p newest ↔
      Marks [range] p newest ∧ ¬ (start ≤ p ∧ p < stop) := by
  have kept := within_kept start stop range.span p
  simp only [Within, span] at kept
  rw [marks_singleton, and_right_comm, ← kept, outside_eq]
  simp only [Marks, mem_map, exists_exists_and_eq_and, span]
  rw [← exists_and_right]
  simp only [and_assoc]

/-- Outside of the new range the old marks stay. -/
theorem marks_outside : Marks (ranges.flatMap (outside start stop)) p newest ↔
    Marks ranges p newest ∧ ¬ (start ≤ p ∧ p < stop) := by
  induction ranges with
  | nil => simp [Marks]
  | cons range rest ih =>
    rw [flatMap_cons, marks_append, ih, marks_outside_range, ← or_and_right, ← marks_append,
      singleton_append]

/-- Inside of the new range the windows carry the newest of all requests. -/
theorem marks_inside (filled : start < stop) (inside : start ≤ p ∧ p < stop) :
    (∀ newest, Marks (inner ranges start stop unique) p newest → newest ≤ bound) ↔
      unique ≤ bound ∧ mark ranges p ≤ bound := by
  rw [mark_le]
  simp only [Marks, mem_filterMap]
  constructor
  · intro all
    obtain ⟨window, listed, low, high⟩ := windows_cover boundaries_sorted
      (mem_boundaries.mpr (.inl rfl)) (mem_boundaries.mpr (.inr (.inl rfl))) inside.1 inside.2
    have newest := all _ ⟨_, ⟨window, listed, if_neg (by omega)⟩, ⟨low, high⟩, rfl⟩
    obtain ⟨new, old⟩ := foldl_newest_le.mp newest
    refine ⟨new, ?_⟩
    rintro _ ⟨range, mem, covers, rfl⟩
    exact old range mem (by omega)
  · rintro ⟨new, old⟩ _ ⟨part, ⟨window, listed, made⟩, covers, rfl⟩
    obtain ⟨_, ⟨⟩⟩ := Option.ite_none_left_eq_some.mp made
    refine foldl_newest_le.mpr ⟨new, fun range mem overlaps => ?_⟩
    exact old _ ⟨range, mem, covers_window listed filled mem overlaps covers, rfl⟩

theorem not_marks_windows (filled : start < stop) (outside : ¬ (start ≤ p ∧ p < stop)) :
    ¬ Marks (inner ranges start stop unique) p newest := by
  rintro ⟨part, made, covers, _⟩
  obtain ⟨window, listed, made⟩ := mem_filterMap.mp made
  obtain ⟨_, ⟨⟩⟩ := Option.ite_none_left_eq_some.mp made
  have := windows_inside (boundaries_bounded filled) listed
  dsimp only at covers
  omega

theorem mark_record (nonzero : unique ≠ 0) (filled : start < stop) (p : Nat) :
    mark (record ranges start stop unique) p =
      if start ≤ p ∧ p < stop then max unique (mark ranges p) else mark ranges p := by
  have merged : ∀ newest, Marks (record ranges start stop unique) p newest ↔
      (Marks ranges p newest ∧ ¬ (start ≤ p ∧ p < stop)) ∨
        Marks (inner ranges start stop unique) p newest := by
    intro newest
    rw [record, if_neg (by omega)]
    rw [(foldl_push (fun _ listed => by cases listed)).2]
    have sorted : ∀ next : List CachedWriteRange,
        Marks (next.insertionSort fun a b => a.key ≤ b.key) p newest ↔ Marks next p newest := by
      intro next
      simp only [Marks, (perm_insertionSort _ _).mem_iff]
    rw [sorted, marks_append, marks_outside]
    simp [Marks]
  refine eq_of_forall_ge_iff fun bound => ?_
  rw [mark_le]
  simp only [merged]
  split
  · rename_i inside
    rw [max_le_iff, ← marks_inside filled inside]
    simp only [inside, and_self, not_true_eq_false, and_false, false_or]
  rename_i beyond
  rw [mark_le]
  simp only [beyond, not_false_eq_true, and_true, not_marks_windows filled beyond, or_false]

theorem outside_ascending (proper : Proper ranges) (ascending : Ascending ranges)
    (filled : start < stop) : Ascending (ranges.flatMap (outside start stop)) := by
  refine pairwise_flatMap.mpr ⟨fun range mem => ?_, ?_⟩
  · have ordered := kept_ordered start stop range.span (proper range mem).le filled.le
    rw [outside_eq]
    exact pairwise_map.mpr ordered.2
  refine ascending.imp_of_mem fun {a b} left right before x xPart y yPart => ?_
  have low := kept_inside _ _ _ _ (proper a left).le (mem_outside.mp xPart).1
  have high := kept_inside _ _ _ _ (proper b right).le (mem_outside.mp yPart).1
  exact low.2.trans (before.trans high.1)

/-- Recording keeps the ranges sorted, disjoint and non-empty: the old ranges' parts and the windows
are disjoint, so sorting by start puts them one behind the other. -/
theorem record_ascending (proper : Proper ranges) (ascending : Ascending ranges) :
    Proper (record ranges start stop unique) ∧ Ascending (record ranges start stop unique) := by
  unfold record
  split
  · exact ⟨proper, ascending⟩
  have filled : start < stop := by omega
  refine ⟨(foldl_push (forall_mem_nil _)).1, foldl_push_ascending ?_⟩
  generalize whole : ranges.flatMap (outside start stop) ++ inner ranges start stop unique = next
  have full : Proper next := by
    rw [← whole]
    intro part listed
    rcases mem_append.mp listed with old | new
    · obtain ⟨range, mem, kept⟩ := mem_flatMap.mp old
      exact kept_proper _ _ _ _ (proper range mem) (mem_outside.mp kept).1
    obtain ⟨window, _, made⟩ := mem_filterMap.mp new
    obtain ⟨wide, ⟨⟩⟩ := Option.ite_none_left_eq_some.mp made
    exact not_le.mp wide
  have apart : next.Pairwise fun a b => Apart a.span b.span := by
    rw [← whole, pairwise_append]
    refine ⟨List.Pairwise.imp (fun before => apart_of_le before)
      (outside_ascending proper ascending filled), ?_, ?_⟩
    · refine List.Pairwise.filterMap _ ?_ (windows_ascending boundaries_sorted)
      intro a b before first made second later
      simp only [segment, Option.ite_none_left_eq_some, Option.some.injEq] at made later
      obtain ⟨_, rfl⟩ := made
      obtain ⟨_, rfl⟩ := later
      exact apart_of_le before
    intro old oldMem new newMem p both
    have beyond := (marks_outside.mp ⟨old, oldMem, both.1, rfl⟩).2
    exact not_marks_windows filled beyond ⟨new, newMem, both.2, rfl⟩
  have sorted := (pairwise_insertionSort (fun a b : CachedWriteRange => a.key ≤ b.key) next).and
    (((perm_insertionSort _ next).pairwise_iff Apart.symm).mpr apart)
  refine sorted.imp_of_mem fun {a b} _ right both => ?_
  have left : a.start ≤ b.start := by
    rcases Prod.Lex.le_iff.mp both.1 with less | same
    · exact less.le
    · exact same.1.le
  exact le_of_apart both.2 left (full b ((perm_insertionSort _ _).mem_iff.mp right))

/-- The watermarks after a sequence of recorded writes. -/
def recordAll (calls : List CachedWriteRange) : List CachedWriteRange :=
  calls.foldl (fun ranges call => record ranges call.start call.stop call.maxUnique) []

theorem mark_concat : mark (ranges ++ [range]) p =
    if range.start ≤ p ∧ p < range.stop then max range.maxUnique (mark ranges p)
    else mark ranges p := by
  refine eq_of_forall_ge_iff fun bound => ?_
  simp only [mark_le, marks_append, or_imp, forall_and, marks_singleton]
  rw [← mark_le]
  split
  · rename_i covers
    simp [covers, and_comm]
  · rename_i missed
    simp [missed]

theorem recordAll_spec (calls : List CachedWriteRange) :
    (Proper (recordAll calls) ∧ Ascending (recordAll calls)) ∧
      ∀ p, mark (recordAll calls) p = mark calls p := by
  induction calls using reverseRecOn with
  | nil => exact ⟨⟨nofun, .nil⟩, fun _ => rfl⟩
  | append_singleton calls call ih =>
    obtain ⟨⟨proper, ascending⟩, marks⟩ := ih
    rw [recordAll, foldl_concat, ← recordAll]
    refine ⟨record_ascending proper ascending, fun p => ?_⟩
    rw [mark_concat, ← marks]
    by_cases real : call.maxUnique = 0 ∨ call.stop ≤ call.start
    · rw [record, if_pos real]
      split <;> omega
    · exact mark_record (by omega) (by omega) p

/-! ### What is allowed -/

/-- The cuts keep the free spans in order. A range that misses the request makes a cut with its ends
swapped, which touches nothing. -/
theorem allowed_ordered (offset stop unique : Nat)
    (proper : Proper ranges) (free : Intervals Nat) (ordered : Ordered free.spans)
    (bounded : ∀ part ∈ free.spans, offset ≤ part.1 ∧ part.2 ≤ stop) :
    Ordered (ranges.foldl (cutNewer offset stop unique) free).spans := by
  induction ranges generalizing free with
  | nil => exact ordered
  | cons range rest ih =>
    obtain ⟨full, proper⟩ := forall_mem_cons.mp proper
    rw [foldl_cons, cutNewer]
    split
    · have spans : (free.cut (max range.start offset) (min range.stop stop)).2.spans = _ :=
        cutEach_spans ..
      by_cases wide : max range.start offset ≤ min range.stop stop
      · have inside := fun part listed piece => kept_inside (max range.start offset)
          (min range.stop stop) part piece (ordered.1 part listed)
        refine ih proper _ ?_ fun piece listed => ?_
        · rw [spans]
          exact ordered.flatMap _ (fun part listed => kept_ordered _ _ part
            (ordered.1 part listed) wide) inside
        rw [spans] at listed
        obtain ⟨part, mem, kept⟩ := mem_flatMap.mp listed
        have within := inside part mem piece kept
        have := bounded part mem
        omega
      · have same : (free.cut (max range.start offset) (min range.stop stop)).2.spans =
            free.spans := by
          refine spans.trans (flatMap_kept_of_untouched _ _ _ fun part listed => ?_)
          have := bounded part listed
          omega
        exact ih proper _ (same ▸ ordered) (same ▸ bounded)
    · exact ih proper free ordered bounded

theorem allowed_free (offset stop unique : Nat)
    (free : Intervals Nat) (proper : ∀ part ∈ free.spans, part.1 < part.2) :
    let left := ranges.foldl (cutNewer offset stop unique) free
    (∀ part ∈ left.spans, part.1 < part.2) ∧ ∀ p, (∃ part ∈ left.spans, Within part p) ↔
      (∃ part ∈ free.spans, Within part p) ∧ (offset ≤ p ∧ p < stop → mark ranges p ≤ unique) := by
  induction ranges generalizing free with
  | nil => exact ⟨proper, fun p => by simp [mark]⟩
  | cons range rest ih =>
    rw [foldl_cons, cutNewer]
    by_cases newer : unique < range.maxUnique
    · rw [if_pos newer]
      obtain ⟨cutProper, cutPoints⟩ :=
        free.cut_points (max range.start offset) (min range.stop stop) proper
      obtain ⟨still, points⟩ := ih _ cutProper
      refine ⟨still, fun p => ?_⟩
      rw [points p, cutPoints, and_assoc]
      refine and_congr_right fun _ => ?_
      simp only [mark, foldr_cons, Within]
      split
      · omega
      · omega
    · rw [if_neg newer]
      obtain ⟨still, points⟩ := ih free proper
      refine ⟨still, fun p => ?_⟩
      rw [points p]
      refine and_congr_right fun _ => ?_
      simp only [mark, foldr_cons]
      split
      · omega
      · rfl

/-- A request may write where no newer one has been, and marks everything. -/
theorem allowed_spec (ranges : List CachedWriteRange) (offset : Nat) {len unique : Nat}
    (nonzero : unique ≠ 0) (filled : 0 < len) : (∀ part ∈ (allowed ranges offset len unique).1,
      offset ≤ part.1 ∧ part.1 + part.2 ≤ offset + len) ∧
    (∀ p, (∃ part ∈ (allowed ranges offset len unique).1, part.1 ≤ p ∧ p < part.1 + part.2) ↔
      (offset ≤ p ∧ p < offset + len) ∧ mark ranges p ≤ unique) ∧
    ∀ p, mark (allowed ranges offset len unique).2 p =
      if offset ≤ p ∧ p < offset + len then max unique (mark ranges p) else mark ranges p := by
  rw [allowed, if_neg (by omega), if_neg nonzero]
  obtain ⟨proper, points⟩ := allowed_free offset (offset + len) unique
    (new offset (offset + len)) (by
      intro part listed
      obtain rfl := mem_singleton.mp listed
      omega)
  generalize ranges.foldl (cutNewer offset (offset + len) unique) _ = left at proper points ⊢
  simp only [new, mem_singleton, exists_eq_left] at points
  have inside : ∀ part ∈ left.spans, ∀ p, part.1 ≤ p → p < part.2 → offset ≤ p ∧ p < offset + len :=
    fun part listed p low high => ((points p).mp ⟨part, listed, low, high⟩).1
  refine ⟨?_, fun p => ?_, mark_record nonzero (by omega)⟩
  · intro part listed
    obtain ⟨span, mem, rfl⟩ := mem_map.mp listed
    have full := proper span mem
    have first := inside span mem span.1 (le_rfl) full
    have last := inside span mem (span.2 - 1) (by omega) (by omega)
    omega
  simp only [mem_map, exists_exists_and_eq_and]
  constructor
  · rintro ⟨span, mem, low, high⟩
    have within := (points p).mp ⟨span, mem, low, by omega⟩
    exact ⟨within.1, within.2 within.1⟩
  rintro ⟨range, free⟩
  obtain ⟨span, mem, low, high⟩ := (points p).mpr ⟨range, fun _ => free⟩
  exact ⟨span, mem, low, by omega⟩

/-- After any calls the ranges are sorted, disjoint, non-empty and hold the newest request of every
position; a request is cut back to where no newer one has been, one without a number is not. -/
theorem watermarks_spec (calls : List CachedWriteRange) (offset len unique : Nat) :
    (Proper (recordAll calls) ∧ Ascending (recordAll calls)) ∧
      (∀ p, mark (recordAll calls) p = mark calls p) ∧
      ((allowed (recordAll calls) offset len unique).1.Pairwise fun a b => a.1 + a.2 ≤ b.1) ∧
      ∀ p, (∃ part ∈ (allowed (recordAll calls) offset len unique).1,
          part.1 ≤ p ∧ p < part.1 + part.2) ↔
        (offset ≤ p ∧ p < offset + len) ∧ (unique = 0 ∨ mark calls p ≤ unique) := by
  obtain ⟨shape, marks⟩ := recordAll_spec calls
  refine ⟨shape, marks, ?_⟩
  by_cases empty : len = 0
  · simp [allowed, empty]
  by_cases zero : unique = 0
  · simp [allowed, empty, zero]
  refine ⟨?_, fun p => ?_⟩
  · have ordered := allowed_ordered offset (offset + len) unique shape.1
      (new offset (offset + len)) (ordered_singleton _ _ (by omega))
      (by simp [new])
    rw [allowed, if_neg empty, if_neg zero, pairwise_map]
    refine ordered.2.imp_of_mem fun left _ before => ?_
    have := ordered.1 _ left
    omega
  · rw [(allowed_spec _ offset zero (by omega)).2.1 p, marks, or_iff_right zero]

theorem unnumbered_write_allowed : ¬ ∀ (calls : List CachedWriteRange) (offset len unique p : Nat),
    (∃ part ∈ (allowed (recordAll calls) offset len unique).1,
        part.1 ≤ p ∧ p < part.1 + part.2) ↔
      (offset ≤ p ∧ p < offset + len) ∧ mark (recordAll calls) p ≤ unique := by
  intro exact
  have := (exact [⟨0, 10, 5⟩] 0 10 0 3).mp ⟨(0, 10), by decide, by decide⟩
  exact absurd this.2 (by decide)

end CachedWriteRange

end BrewFs.Vfs
