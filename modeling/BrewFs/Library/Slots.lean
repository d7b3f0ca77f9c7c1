import Mathlib.Tactic.Ring

/- Numbered slots that are free or in use: calls in flight, entries of a cache. -/
namespace BrewFs.Slots

variable {κ α : Type} [DecidableEq κ] {slots : κ → Option α} {key other : κ} {value found : α}

/-- What is in a slot after a put into one of them. -/
theorem mem_put (here : found ∈ Function.update slots key (some value) other) :
    other = key ∧ found = value ∨ other ≠ key ∧ found ∈ slots other := by
  by_cases same : other = key
  · rw [same, Function.update_self] at here
    exact .inl ⟨same, (Option.some.inj here).symm⟩
  · rw [Function.update_of_ne same] at here
    exact .inr ⟨same, here⟩

theorem mem_free (here : found ∈ Function.update slots key none other) :
    other ≠ key ∧ found ∈ slots other := by
  by_cases same : other = key
  · rw [same, Function.update_self] at here
    cases here
  · rw [Function.update_of_ne same] at here
    exact ⟨same, here⟩

end BrewFs.Slots
