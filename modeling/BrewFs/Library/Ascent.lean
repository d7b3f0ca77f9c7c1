import Mathlib.Logic.Relation

/-! Chains of parents that end at a root, and how they survive moves of whole subtrees. -/

namespace BrewFs.Ascent

open Relation.ReflTransGen
open Relation (ReflTransGen TransGen)

variable {α : Type} {up up' : α → α → Prop} {root x : α} {blocked : α → Prop}

/-- The chain of parents of `x` reaches the root. -/
def Rooted (up : α → α → Prop) (root x : α) : Prop := ReflTransGen up x root

/-- A chain of parents from `x` to the root past no blocked element. -/
def Clear (up : α → α → Prop) (root : α) (blocked : α → Prop) (x : α) : Prop :=
  ReflTransGen (fun a b => up a b ∧ ¬ blocked a) x root

theorem Rooted.mono (kept : ∀ a b, up a b → up' a b) (rooted : Rooted up root x) :
    Rooted up' root x :=
  ReflTransGen.mono kept _ _ rooted

theorem Clear.rooted (kept : ∀ a b, up a b → ¬ blocked a → up' a b)
    (clear : Clear up root blocked x) : Rooted up' root x :=
  ReflTransGen.mono (fun a b edge => kept a b edge.1 edge.2) _ _ clear

section

variable (gone : α → Prop) (leaf : ∀ a b, up a b → ¬ gone b)
  (kept : ∀ a b, up a b → ¬ gone a → up' a b) (stays : ¬ gone x)

include gone leaf kept stays

/-- Elements without children may lose their parents: no chain passes them. -/
theorem chain_prune (chain : ReflTransGen up x root) : ReflTransGen up' x root := by
  induction chain using head_induction_on with
  | refl => exact .refl
  | head edge _ ih => exact .head (kept _ _ edge stays) (ih (leaf _ _ edge))

theorem Clear.prune (clear : Clear up root blocked x) : Clear up' root blocked x :=
  chain_prune gone (fun a b edge => leaf a b edge.1)
    (fun a b edge present => ⟨kept a b edge.1 present, edge.2⟩) stays clear

end

/-- When every moved element has a chain again, so has everything below it. -/
theorem Rooted.rebase (moved : α → Prop) (kept : ∀ a b, up a b → ¬ moved a → up' a b)
    (landed : ∀ a, moved a → Rooted up' root a) (rooted : Rooted up root x) :
    Rooted up' root x := by
  induction rooted using head_induction_on with
  | refl => exact .refl
  | @head a b edge _ ih =>
    by_cases here : moved a
    · exact landed a here
    · exact .head (kept a b edge here) ih

section Functional

variable (functional : ∀ a b c, up a b → up a c → b = c) (top : ∀ b, ¬ up root b)
include functional top

theorem Rooted.no_cycle (rooted : Rooted up root x) : ¬ TransGen up x x := by
  induction rooted using head_induction_on with
  | refl =>
    intro cycle
    obtain ⟨next, edge, _⟩ := TransGen.head'_iff.mp cycle
    exact top next edge
  | @head a b edge _ ih =>
    intro cycle
    obtain ⟨next, out, back⟩ := TransGen.head'_iff.mp cycle
    obtain rfl := functional a b next edge out
    exact ih (TransGen.tail' back edge)

/-- A chain from the parent of `b` does not pass `b`. -/
theorem Clear.past {b q : α} (edge : up b q) (clear : Clear up root blocked q) :
    Clear up root (fun a => blocked a ∨ a = b) q := by
  have rooted : Rooted up root q := clear.rooted fun _ _ edge _ => edge
  have acyclic := Rooted.no_cycle functional top rooted
  have later : ∀ x, ReflTransGen up q x → Clear up root blocked x →
      Clear up root (fun a => blocked a ∨ a = b) x := by
    intro x below chain
    induction chain using head_induction_on with
    | refl => exact .refl
    | @head a c out _ ih =>
      have elsewhere : a ≠ b := by
        rintro rfl
        exact acyclic (TransGen.tail' below edge)
      exact .head ⟨out.1, fun stops => stops.elim out.2 elsewhere⟩ (ih (below.tail out.1))
  exact later q .refl clear

end Functional

end BrewFs.Ascent
