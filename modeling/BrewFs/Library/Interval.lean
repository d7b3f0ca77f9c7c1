import Mathlib.Order.MinMax

/- Lists of half-open spans over a linear order, read as sets of points. -/
namespace BrewFs.Interval

open List

variable {T : Type} [LinearOrder T] {spans : List (T × T)}

/-- `p` lies in the half-open span `[span.1, span.2)`. -/
def Within (span : T × T) (p : T) : Prop := span.1 ≤ p ∧ p < span.2

instance (span : T × T) (p : T) : Decidable (Within span p) := inferInstanceAs (Decidable (_ ∧ _))

/-- Spans listed from left to right without overlap. Empty spans are allowed. -/
def Ordered (spans : List (T × T)) : Prop :=
  (∀ span ∈ spans, span.1 ≤ span.2) ∧ spans.Pairwise (fun a b => a.2 ≤ b.1)

theorem ordered_singleton (l r : T) (le : l ≤ r) : Ordered [(l, r)] := by
  refine ⟨?_, pairwise_singleton _ _⟩
  intro span mem
  obtain rfl := mem_singleton.mp mem
  exact le

/-- Refining every span inside itself keeps the whole list ordered. -/
theorem Ordered.flatMap (ordered : Ordered spans) (split : T × T → List (T × T))
    (inner : ∀ span ∈ spans, Ordered (split span))
    (inside : ∀ span ∈ spans, ∀ part ∈ split span, span.1 ≤ part.1 ∧ part.2 ≤ span.2) :
    Ordered (spans.flatMap split) := by
  refine ⟨fun part mem => ?_, pairwise_flatMap.mpr ⟨fun span mem => (inner span mem).2, ?_⟩⟩
  · obtain ⟨span, spanMem, partMem⟩ := mem_flatMap.mp mem
    exact (inner span spanMem).1 part partMem
  refine ordered.2.imp_of_mem fun {a b} first second apart part partMem other otherMem => ?_
  have left := (inside a first part partMem).2
  have right := (inside b second other otherMem).1
  exact left.trans (apart.trans right)

/-- Two spans that hold no common point. -/
def Apart (a b : T × T) : Prop := ∀ p, ¬ (Within a p ∧ Within b p)

theorem Apart.symm {a b : T × T} (apart : Apart a b) : Apart b a :=
  fun p both => apart p ⟨both.2, both.1⟩

theorem apart_of_le {a b : T × T} (le : a.2 ≤ b.1) : Apart a b := by
  rintro p ⟨⟨_, upper⟩, lower, _⟩
  exact absurd (lt_of_lt_of_le upper le) (not_lt_of_ge lower)

/-- Disjoint non-empty spans with ordered left ends are ordered. -/
theorem le_of_apart {a b : T × T} (apart : Apart a b) (left : a.1 ≤ b.1) (full : b.1 < b.2) :
    a.2 ≤ b.1 := by
  by_contra covering
  exact apart b.1 ⟨⟨left, lt_of_not_ge covering⟩, le_refl _, full⟩

/-- What each span keeps of a position, all of them keep. -/
theorem within_flatMap {cut : T × T → List (T × T)} {p : T} {kept : Prop}
    (each : ∀ span, (∃ part ∈ cut span, Within part p) ↔ Within span p ∧ kept) :
    (∃ part ∈ spans.flatMap cut, Within part p) ↔ (∃ span ∈ spans, Within span p) ∧ kept := by
  simp only [mem_flatMap]
  constructor
  · rintro ⟨part, ⟨span, mem, cut⟩, within⟩
    exact ((each span).mp ⟨part, cut, within⟩).imp_left fun held => ⟨span, mem, held⟩
  rintro ⟨⟨span, mem, held⟩, kept⟩
  obtain ⟨part, cut, within⟩ := (each span).mpr ⟨held, kept⟩
  exact ⟨part, ⟨span, mem, cut⟩, within⟩

/-- In a pairwise disjoint family at most one member holds a given point. -/
theorem filter_eq_singleton_of_apart {α : Type} (items : List α) (span : α → T × T)
    (apart : items.Pairwise fun a b => Apart (span a) (span b)) (p : T) (item : α)
    (mem : item ∈ items) (inside : Within (span item) p) :
    items.filter (fun a => decide (Within (span a) p)) = [item] := by
  induction items with
  | nil => cases mem
  | cons first rest ih =>
    obtain ⟨here, there⟩ := pairwise_cons.mp apart
    rcases mem_cons.mp mem with rfl | later
    · have none : rest.filter (fun a => decide (Within (span a) p)) = [] := by
        rw [filter_eq_nil_iff]
        intro other otherMem
        have := here other otherMem p
        simp only [decide_eq_true_eq]
        exact fun held => this ⟨inside, held⟩
      rw [filter_cons_of_pos (by simpa using inside), none]
    · have skip : ¬ Within (span first) p := fun held => here item later p ⟨held, inside⟩
      rw [filter_cons_of_neg (by simpa using skip)]
      exact ih there later

end BrewFs.Interval
