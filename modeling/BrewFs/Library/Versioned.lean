import Mathlib.Tactic.Ring

/- A content kept together with a version counter, and what a reader may conclude from a version
it has read. -/
namespace BrewFs.Versioned

variable {β : Type} {version : Nat}

structure Cell (β : Type) where
  content : β
  version : Nat

/-- `newer` may come after `older`: the version does not fall, and rises with every change of the
content. -/
structure Follows (older newer : Cell β) : Prop where
  rises : older.version ≤ newer.version
  changed : newer.content ≠ older.content → older.version < newer.version

namespace Follows

variable {first second third : Cell β}

theorem refl (cell : Cell β) : Follows cell cell :=
  ⟨Nat.le_refl _, fun changed => absurd rfl changed⟩

theorem of_lt (rises : first.version < second.version) : Follows first second :=
  ⟨Nat.le_of_lt rises, fun _ => rises⟩

theorem content_eq (follows : Follows first second) (same : second.version = first.version) :
    second.content = first.content := by
  by_contra changed
  have rises := follows.changed changed
  omega

theorem trans (early : Follows first second) (late : Follows second third) :
    Follows first third := by
  have rises := Nat.le_trans early.rises late.rises
  refine ⟨rises, fun changed => ?_⟩
  by_contra still
  have same : second.version = first.version ∧ third.version = second.version := by
    have := early.rises
    have := late.rises
    omega
  exact changed ((late.content_eq same.2).trans (early.content_eq same.1))

end Follows

/-- A version read no later than a content: while the version is current, so is the content. -/
structure Dated (cell : Cell β) (version : Nat) (content : β) : Prop where
  past : version ≤ cell.version
  current : cell.version = version → cell.content = content

theorem Dated.read {cell : Cell β} (past : version ≤ cell.version) :
    Dated cell version cell.content :=
  ⟨past, fun _ => rfl⟩

theorem Dated.follows {cell next : Cell β} {content : β} (dated : Dated cell version content)
    (follows : Follows cell next) : Dated next version content := by
  refine ⟨Nat.le_trans dated.past follows.rises, fun same => ?_⟩
  have still : next.version = cell.version := by
    have := dated.past
    have := follows.rises
    omega
  rw [follows.content_eq still]
  exact dated.current (still ▸ same)

end BrewFs.Versioned
