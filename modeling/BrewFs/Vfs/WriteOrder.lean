import BrewFs.Library.Run
import Mathlib.Data.Finset.Max

/-! `FuseWriteOrder`: a write of an inode is pending from `begin` until its guard is dropped, and
`wait_for_prior` waits for those with smaller ids. -/

namespace BrewFs.Vfs.WriteOrder

open Run (exec Along invariant_along)
open Function (update update_apply)

/-- The pending ids by inode, and the guards not dropped yet. -/
structure FuseWriteOrder where
  pending : Int → Finset Nat
  guards : List (Int × Nat)

def new : FuseWriteOrder := ⟨fun _ => ∅, []⟩

/-- Each step holds the lock once. -/
inductive Action where
  | begin (ino : Int) (unique : Nat)
  | drop (ino : Int) (unique : Nat)
  /-- The round in which `wait_for_prior` returns; earlier ones only sleep. -/
  | waited (ino : Int) (unique : Nat)

variable {s t : FuseWriteOrder} {ino : Int} {unique : Nat}

def hasPrior (s : FuseWriteOrder) (ino : Int) (unique : Nat) : Bool :=
  (s.pending ino).min < unique

def finish (s : FuseWriteOrder) (ino : Int) (unique : Nat) : FuseWriteOrder :=
  { s with pending := update s.pending ino ((s.pending ino).erase unique) }

def step (s : FuseWriteOrder) : Action → Option FuseWriteOrder
  | .begin ino unique => some
    ⟨update s.pending ino (insert unique (s.pending ino)), (ino, unique) :: s.guards⟩
  | .drop ino unique =>
    if (ino, unique) ∈ s.guards then
      some (finish { s with guards := s.guards.erase (ino, unique) } ino unique)
    else none
  | .waited ino unique => if hasPrior s ino unique then none else some s

/-- No request is registered again while its guard lives. -/
def fresh (s : FuseWriteOrder) : Action → Bool
  | .begin ino unique => (ino, unique) ∉ s.guards
  | _ => true

structure Agree (s : FuseWriteOrder) : Prop where
  nodup : s.guards.Nodup
  pending : ∀ ino unique, unique ∈ s.pending ino ↔ (ino, unique) ∈ s.guards

theorem Agree.step {action : Action} (agree : Agree s) (once : fresh s action)
    (taken : step s action = some t) : Agree t := by
  cases action with
  | begin ino unique =>
    cases taken
    constructor
    · exact List.nodup_cons.mpr ⟨of_decide_eq_true once, agree.nodup⟩
    · simp only [List.mem_cons, ← agree.pending]
      grind
  | drop ino unique =>
    cases (Option.ite_none_right_eq_some.mp taken).2
    constructor
    · exact agree.nodup.erase _
    · simp only [finish, agree.nodup.mem_erase_iff, ← agree.pending]
      grind
  | waited ino unique =>
    cases (Option.ite_none_left_eq_some.mp taken).2
    exact agree

/-- While no request is registered twice, the pending ids are those of the live guards, a wait
returns only when no live guard has a smaller id, and a drop takes out its own entry alone. -/
theorem prior_writes_waited_for {actions : List Action} (once : Along step (fresh · ·) new actions)
    (run : exec step new actions = some s) :
    (∀ ino unique, unique ∈ s.pending ino ↔ (ino, unique) ∈ s.guards) ∧
    (∀ ino unique, step s (.waited ino unique) ≠ none →
      ∀ first, (ino, first) ∈ s.guards → unique ≤ first) ∧
    ∀ ino unique t, step s (.drop ino unique) = some t → ∀ other id, (other, id) ≠ (ino, unique) →
      (id ∈ t.pending other ↔ id ∈ s.pending other) := by
  have agree : Agree s := invariant_along (fun _ _ _ agree once => agree.step once)
    ⟨List.nodup_nil, by simp [new]⟩ once run
  refine ⟨agree.pending, ?_, ?_⟩
  · intro ino unique returned first live
    by_contra! smaller
    apply returned
    have prior : hasPrior s ino unique = true :=
      decide_eq_true ((Finset.min_le ((agree.pending ino first).mpr live)).trans_lt
        (WithTop.coe_lt_coe.mpr smaller))
    simp [step, prior]
  · intro ino unique t dropped other id apart
    cases (Option.ite_none_right_eq_some.mp dropped).2
    simp only [finish]
    grind

/-- The write of 8 waits for that of 5, and not for that of 6 to another inode. -/
def dropBeforeWait : List Action := [.begin 1 5, .begin 1 8, .begin 2 6, .drop 1 5, .waited 1 8]

theorem prior_writes_waited_for_after_drop : exec step new (dropBeforeWait.eraseIdx 3) = none ∧
    ∃ s, exec step new dropBeforeWait = some s ∧ 6 ∈ s.pending 2 ∧
      ∀ first, (1, first) ∈ s.guards → 8 ≤ first := by
  have once : Along step (fresh · ·) new dropBeforeWait := by decide
  have run : exec step new dropBeforeWait = some _ := rfl
  obtain ⟨pending, waits, _⟩ := prior_writes_waited_for once run
  exact ⟨rfl, _, run, (pending 2 6).mpr (by decide), waits 1 8 (by rintro ⟨⟩)⟩

/-- The first drop of a request registered twice takes the entry of both. -/
theorem second_guard_overtaken : ∃ s,
    exec step new [.begin 1 5, .begin 1 5, .drop 1 5, .waited 1 9] = some s ∧ (1, 5) ∈ s.guards :=
  ⟨_, rfl, by decide⟩

end BrewFs.Vfs.WriteOrder
