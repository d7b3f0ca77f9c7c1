import BrewFs.Library.Interval

/- `utils/intervals.rs`: the spans of a request that no slice has served yet. -/
namespace BrewFs.Utils

structure Intervals (T : Type) where
  spans : List (T × T)

namespace Intervals

open BrewFs.Interval List

variable {T σ : Type} [LinearOrder T]

def new (l r : T) : Intervals T := ⟨[(l, r)]⟩

variable (self : Intervals T) (sliceL sliceR : T)

def isEmpty : Bool := self.spans.isEmpty

def collect : List (T × T) := self.spans

/-- The loop of `cut_each`. `onCut`: the callback with its state; the other accumulators are the
remaining spans and `touched`. -/
def cutLoop (sliceL sliceR : T) (onCut : σ → T → T → σ) :
    List (T × T) → List (T × T) → Bool → σ → List (T × T) × Bool × σ
  | [], remaining, touched, state => (remaining, touched, state)
  | (l, r) :: rest, remaining, touched, state =>
    if r ≤ sliceL ∨ sliceR ≤ l then
      cutLoop sliceL sliceR onCut rest (remaining ++ [(l, r)]) touched state
    else
      let cutL := max l sliceL
      let cutR := min r sliceR
      let state := if cutL < cutR then onCut state cutL cutR else state
      let remaining := if l < cutL then remaining ++ [(l, cutL)] else remaining
      let remaining := if cutR < r then remaining ++ [(cutR, r)] else remaining
      cutLoop sliceL sliceR onCut rest remaining true state

def cutEach (onCut : σ → T → T → σ) (state : σ) : Bool × σ × Intervals T :=
  if self.spans.isEmpty then (false, state, self)
  else
    let (remaining, touched, state) := cutLoop sliceL sliceR onCut self.spans [] false state
    if touched then (true, state, ⟨remaining⟩) else (false, state, self)

def cut : List (T × T) × Intervals T :=
  (self.cutEach sliceL sliceR (fun pieces l r => pieces ++ [(l, r)]) []).2

/-- What one span leaves behind. -/
def kept (span : T × T) : List (T × T) :=
  if span.2 ≤ sliceL ∨ sliceR ≤ span.1 then [span]
  else
    (if span.1 < max span.1 sliceL then [(span.1, max span.1 sliceL)] else []) ++
      (if min span.2 sliceR < span.2 then [(min span.2 sliceR, span.2)] else [])

/-- What one span hands to the callback. -/
def taken (span : T × T) : List (T × T) :=
  if span.2 ≤ sliceL ∨ sliceR ≤ span.1 then []
  else if max span.1 sliceL < min span.2 sliceR then
    [(max span.1 sliceL, min span.2 sliceR)]
  else []

theorem cutLoop_eq (onCut : σ → T → T → σ) (spans remaining : List (T × T))
    (touched : Bool) (state : σ) : cutLoop sliceL sliceR onCut spans remaining touched state =
      (remaining ++ spans.flatMap (kept sliceL sliceR),
        touched || spans.any (fun span => decide ¬ (span.2 ≤ sliceL ∨ sliceR ≤ span.1)),
        (spans.flatMap (taken sliceL sliceR)).foldl (fun s piece => onCut s piece.1 piece.2)
          state) := by
  induction spans generalizing remaining touched state with
  | nil => simp [cutLoop]
  | cons span rest ih =>
    obtain ⟨l, r⟩ := span
    by_cases missed : r ≤ sliceL ∨ sliceR ≤ l
    · simp only [cutLoop, missed, if_true, ih, flatMap_cons, kept, taken, any_cons,
        not_true_eq_false, decide_false, Bool.false_or, nil_append, append_assoc]
    simp only [cutLoop, missed, if_false, ih, flatMap_cons, kept, taken,
      any_cons, Prod.mk.injEq]
    constructor
    · split <;> split <;> simp
    · split <;> simp

theorem flatMap_kept_of_untouched (spans : List (T × T))
    (untouched : ∀ span ∈ spans, span.2 ≤ sliceL ∨ sliceR ≤ span.1) :
    spans.flatMap (kept sliceL sliceR) = spans := by
  induction spans with
  | nil => rfl
  | cons span rest ih =>
    have here := untouched span mem_cons_self
    rw [flatMap_cons, ih fun other mem => untouched other (mem_cons_of_mem _ mem)]
    simp [kept, here]

theorem cutEach_spans (onCut : σ → T → T → σ) (state : σ) :
    (self.cutEach sliceL sliceR onCut state).2.2.spans =
      self.spans.flatMap (kept sliceL sliceR) := by
  unfold cutEach
  split
  · next empty => simp [isEmpty_iff.mp empty]
  rw [cutLoop_eq]
  simp only [nil_append]
  split
  · rfl
  next untouched =>
    symm
    apply flatMap_kept_of_untouched
    intro span mem
    by_contra missed
    exact untouched (any_eq_true.mpr ⟨span, mem, by simpa using missed⟩)

theorem cutEach_state (onCut : σ → T → T → σ) (state : σ) :
    (self.cutEach sliceL sliceR onCut state).2.1 = (self.spans.flatMap (taken sliceL sliceR)).foldl
        (fun s piece => onCut s piece.1 piece.2) state := by
  unfold cutEach
  split
  · next empty => simp [isEmpty_iff.mp empty]
  rw [cutLoop_eq]
  dsimp only
  split <;> rfl

theorem within_kept (span : T × T) (p : T) : (∃ part ∈ kept sliceL sliceR span, Within part p) ↔
      Within span p ∧ ¬ Within (sliceL, sliceR) p := by
  simp only [kept, Within]
  split
  · grind
  · split <;> split <;> simp <;> grind

theorem within_taken (span : T × T) (p : T) : (∃ part ∈ taken sliceL sliceR span, Within part p) ↔
      Within span p ∧ Within (sliceL, sliceR) p := by
  simp only [taken, Within]
  split
  · grind
  next hit =>
    split
    · simp only [mem_singleton]
      grind
    · grind

/-- Spans cut from an ordered list stay ordered and inside their spans. -/
theorem kept_inside (span part : T × T) (proper : span.1 ≤ span.2)
    (mem : part ∈ kept sliceL sliceR span) : span.1 ≤ part.1 ∧ part.2 ≤ span.2 := by
  simp only [kept] at mem
  split at mem
  · obtain rfl := mem_singleton.mp mem
    exact ⟨le_refl _, le_refl _⟩
  next hit =>
    rcases mem_append.mp mem with left | right
    · split at left
      · obtain rfl := mem_singleton.mp left
        exact ⟨le_refl _, max_le proper (by grind)⟩
      · cases left
    split at right
    · obtain rfl := mem_singleton.mp right
      exact ⟨le_min proper (by grind), le_refl _⟩
    · cases right

theorem kept_ordered (span : T × T) (proper : span.1 ≤ span.2)
    (slice : sliceL ≤ sliceR) : Ordered (kept sliceL sliceR span) := by
  simp only [kept, Ordered]
  split
  · simpa using proper
  · split <;> split <;> simp
    grind

theorem kept_proper (span part : T × T) (proper : span.1 < span.2)
    (mem : part ∈ kept sliceL sliceR span) : part.1 < part.2 := by
  simp only [kept] at mem
  split at mem
  · obtain rfl := mem_singleton.mp mem
    exact proper
  rcases mem_append.mp mem with left | right
  · split at left
    · obtain rfl := mem_singleton.mp left
      assumption
    · cases left
  split at right
  · obtain rfl := mem_singleton.mp right
    assumption
  · cases right

theorem cut_points (proper : ∀ part ∈ self.spans, part.1 < part.2) :
    (∀ part ∈ (self.cut sliceL sliceR).2.spans, part.1 < part.2) ∧
      ∀ p, (∃ part ∈ (self.cut sliceL sliceR).2.spans, Within part p) ↔
        (∃ part ∈ self.spans, Within part p) ∧ ¬ Within (sliceL, sliceR) p := by
  have spans : (self.cut sliceL sliceR).2.spans = self.spans.flatMap (kept sliceL sliceR) :=
    cutEach_spans ..
  rw [spans]
  refine ⟨fun part listed => ?_, fun p => within_flatMap fun span => within_kept _ _ span p⟩
  obtain ⟨span, mem, kept⟩ := mem_flatMap.mp listed
  exact kept_proper _ _ span part (proper span mem) kept

theorem taken_inside (span part : T × T) (mem : part ∈ taken sliceL sliceR span) :
    span.1 ≤ part.1 ∧ part.1 < part.2 ∧ part.2 ≤ span.2 := by
  simp only [taken] at mem
  split at mem
  · cases mem
  split at mem
  · rename_i proper
    obtain rfl := mem_singleton.mp mem
    exact ⟨le_max_left _ _, proper, min_le_left _ _⟩
  · cases mem

theorem taken_ordered (span : T × T) : Ordered (taken sliceL sliceR span) := by
  refine ⟨fun part mem => le_of_lt (taken_inside sliceL sliceR span part mem).2.1, ?_⟩
  unfold taken
  split
  · exact .nil
  split
  · exact pairwise_singleton _ _
  · exact .nil

end Intervals
end BrewFs.Utils
