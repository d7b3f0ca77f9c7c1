import Mathlib.Tactic.Ring

/- Lists read from an append-only log at some time, and the places they have to include. -/
namespace BrewFs.Log

variable {α : Type} {place : Nat}

/-- A list that was the whole log once, late enough for the given places. -/
structure Snapshot (log : List α) (places : List Nat) (list : List α) : Prop where
  early : list <+: log
  late : ∀ place ∈ places, place < list.length

namespace Snapshot

variable {log list : List α} {places : List Nat}

theorem whole (known : ∀ place ∈ places, place < log.length) : Snapshot log places log :=
  ⟨List.prefix_rfl, known⟩

section

variable (snapshot : Snapshot log places list)

include snapshot

theorem append (item : α) : Snapshot (log ++ [item]) places list :=
  ⟨snapshot.early.trans (List.prefix_append _ _), snapshot.late⟩

theorem anti {fewer : List Nat} (subset : ∀ place ∈ fewer, place ∈ places) :
    Snapshot log fewer list :=
  ⟨snapshot.early, fun place listed => snapshot.late place (subset place listed)⟩

theorem getElem? (listed : place ∈ places) : list[place]? = log[place]? := by
  obtain ⟨rest, rfl⟩ := snapshot.early
  rw [List.getElem?_append_left (snapshot.late place listed)]

end

end Snapshot

theorem getElem?_append_some {log : List α} {found : α} (item : α)
    (stands : log[place]? = some found) : (log ++ [item])[place]? = some found := by
  obtain ⟨inside, _⟩ := List.getElem?_eq_some_iff.mp stands
  rw [List.getElem?_append_left inside, stands]

end BrewFs.Log
