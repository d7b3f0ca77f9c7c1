import BrewFs.Library.Run
import BrewFs.Native.Workspace

/-! Fast-forward against the commits of the workspace: the guard reads the counters of the view,
which no commit changes. -/

namespace BrewFs.Native

open Guard (bind_eq_ok check_eq_ok pure_eq_ok)

inductive Call where
  | fork (r : ForkRequest)
  | commit (r : CommitRequest)
  | publish (r : PublicationRequest)
  | fastForward (r : FastForwardRequest)

def Call.run (env : Env) (seen s : Store) : Call → Except LifecycleError Store
  | .fork r => do pure (← forkFromPublished env seen s r).2
  | .commit r => do pure (← commitUploadedSlice seen s r).2
  | .publish r => do pure (← publishCandidate env seen s r).2
  | .fastForward r => do pure (← Native.fastForward env seen s r).2

/-- The store, and the mutations committed on the current base. -/
structure Traced where
  store : Store
  since : Nat

/-- A failed call leaves the store. Only a commit moves the head and keeps the base. -/
def step (env : Env) (t : Traced) (action : Store × Call) : Option Traced :=
  let after := (action.2.run env action.1 t.store).toOption.getD t.store
  some ⟨after, if after.head = t.store.head then t.since else
    match action.2 with
    | .commit _ => t.since + 1
    | .fork _ | .publish _ | .fastForward _ => 0⟩

/-- The sequence number has room for the commit. -/
def Room (_ : Traced) : Store × Call → Prop
  | (_, .commit r) => r.expectedHead.head.commitSeq + 1 < 2 ^ 64
  | _ => True

instance (t : Traced) (action : Store × Call) : Decidable (Room t action) := by
  rcases action with ⟨_, _ | _⟩ <;> unfold Room <;> infer_instance

variable {env : Env} {seen s s' : Store}

/-- The head is set anew. -/
def Reset (s' : Store) : Prop := ∃ h, s'.head = some h ∧ h.head.commitSeq = 0

theorem reset_nextHeadRef {current next : HeadRef} {newHeadId : Nat} {h : HeadState}
    (ok : nextHeadRef current newHeadId = .ok next) (set : s'.head = some { h with head := next }) :
    Reset s' := by
  simp only [nextHeadRef, bind_eq_ok, pure_eq_ok] at ok
  obtain ⟨_, _, rfl⟩ := ok
  exact ⟨_, set, rfl⟩

theorem fork_head {r : ForkRequest} (ok : (Call.fork r).run env seen s = .ok s') :
    s' = s ∨ Reset s' := by
  simp only [Call.run, forkFromPublished, bind_eq_ok, pure_eq_ok] at ok
  obtain ⟨_, ok, rfl⟩ := ok
  split at ok <;> simp only [bind_eq_ok, pure_eq_ok] at ok <;>
    obtain ⟨_, _, _, _, _, _, _, _, rfl⟩ := ok
  · exact .inl rfl
  · exact .inr ⟨_, rfl, rfl⟩

theorem publish_head {r : PublicationRequest} (ok : (Call.publish r).run env seen s = .ok s') :
    s' = s ∨ Reset s' := by
  simp only [Call.run, publishCandidate, bind_eq_ok, pure_eq_ok] at ok
  obtain ⟨_, ok, rfl⟩ := ok
  split at ok <;> simp only [bind_eq_ok, pure_eq_ok] at ok
  · obtain ⟨_, _, _, _, _, _, _, _, rfl⟩ := ok
    exact .inl rfl
  · obtain ⟨_, _, _, _, _, _, _, _, _, _, _, _, _, _, _, next, _, _, _, _, rfl⟩ := ok
    exact .inr (reset_nextHeadRef next rfl)

theorem fastForward_head {r : FastForwardRequest}
    (ok : (Call.fastForward r).run env seen s = .ok s') :
    (seen.forkOperation r.operationId).isSome ∧ s' = s ∨
      s.head = some r.expectedHead ∧ Reset s' := by
  simp only [Call.run, fastForward, bind_eq_ok, pure_eq_ok] at ok
  obtain ⟨_, ok, rfl⟩ := ok
  split at ok
  · rename_i used
    simp only [bind_eq_ok, pure_eq_ok] at ok
    obtain ⟨_, _, _, _, _, _, _, _, rfl⟩ := ok
    exact .inl ⟨by rw [used]; rfl, rfl⟩
  simp only [bind_eq_ok, check_eq_ok, pure_eq_ok] at ok
  obtain ⟨_, _, _, _, _, ⟨rfl, _⟩, _, _, _, _, _, _, _, _, _, _, _, _, _, next, _, _, _, same,
    rfl⟩ := ok
  exact .inr ⟨same.2.1, reset_nextHeadRef next rfl⟩

theorem commit_head {r : CommitRequest} (ok : (Call.commit r).run env seen s = .ok s') :
    s' = s ∨ s.head = some r.expectedHead ∧ s'.head = some r.expectedHead.nextCommit := by
  simp only [Call.run, commitUploadedSlice, bind_eq_ok, pure_eq_ok] at ok
  obtain ⟨_, ⟨_, _, ok⟩, rfl⟩ := ok
  split at ok
  · simp only [bind_eq_ok, pure_eq_ok] at ok
    obtain ⟨_, _, rfl⟩ := ok
    exact .inl rfl
  simp only [bind_eq_ok, check_eq_ok, pure_eq_ok] at ok
  obtain ⟨_, _, _, rfl, _, _, _, same, rfl⟩ := ok
  exact .inr ⟨same.2.1, rfl⟩

/-- The head's sequence number counts the commits on the base. -/
def Counts (t : Traced) : Prop := ∀ h, t.store.head = some h → h.head.commitSeq = t.since

theorem Counts.step (t : Traced) (action : Store × Call) (next : Traced) (counts : Counts t)
    (room : Room t action) (taken : step env t action = some next) : Counts next := by
  obtain ⟨seen, call⟩ := action
  cases taken
  intro h set
  split
  · rename_i same
    exact counts h (same ▸ set)
  rename_i moved
  cases ran : call.run env seen t.store with
  | error error =>
    rw [ran] at moved
    exact absurd rfl moved
  | ok s' =>
    rw [ran] at moved set
    have reset : s' = t.store ∨ Reset s' → h.head.commitSeq = 0 := by
      rintro (rfl | ⟨other, there, zero⟩)
      · exact absurd rfl moved
      · cases there.symm.trans set
        exact zero
    cases call with
    | commit r =>
      rcases commit_head ran with rfl | ⟨before, after⟩
      · exact absurd rfl moved
      · cases after.symm.trans set
        exact (Nat.mod_eq_of_lt room).trans (congrArg (· + 1) (counts _ before))
    | fork r => exact reset (fork_head ran)
    | publish r => exact reset (publish_head ran)
    | fastForward r => exact reset ((fastForward_head ran).imp And.right And.right)

/-- A fast-forward under a new operation id that expects a head without commits replaces the base
only when nothing was committed on it; else it fails and changes nothing. -/
theorem fastForward_discards_nothing (env : Env) (start : Store) (fresh : start.head = none)
    (actions : List (Store × Call)) (final : Traced)
    (room : Run.Along (step env) Room ⟨start, 0⟩ actions)
    (run : Run.exec (step env) ⟨start, 0⟩ actions = some final) (seen : Store)
    (r : FastForwardRequest) (new : seen.forkOperation r.operationId = none)
    (clean : r.expectedHead.head.commitSeq = 0) :
    (∀ s', (Call.fastForward r).run env seen final.store = .ok s' → final.since = 0) ∧
      (final.since ≠ 0 → (∃ error, (Call.fastForward r).run env seen final.store = .error error) ∧
        step env final (seen, .fastForward r) = some final) := by
  have counts : Counts final :=
    Run.invariant_along Counts.step (fun h found => by rw [fresh] at found; cases found) room run
  have only : ∀ s', (Call.fastForward r).run env seen final.store = .ok s' → final.since = 0 := by
    intro s' ran
    rcases fastForward_head ran with ⟨used, _⟩ | ⟨head, _⟩
    · rw [new] at used
      cases used
    · rw [← counts _ head, clean]
  refine ⟨only, fun dirty => ?_⟩
  cases ran : (Call.fastForward r).run env seen final.store with
  | ok s' => exact absurd (only s' ran) dirty
  | error error =>
    simp [step, ran, Except.toOption]

/-! ### A workspace with two revisions to choose from -/

def released (n : Nat) : PublishedRevision := ⟨⟨1, n, ⟨n, n⟩⟩, n, n, 0, 0⟩

def twoReleases : Store where
  deleted := false
  head := none
  view := none
  forkBase := none
  writerLease := false
  journal := fun _ => none
  revision := fun n => if n = 1 ∨ n = 2 then some (released n) else none
  publication := fun _ => none
  forkOperation := fun _ => none
  mutation := fun _ => none
  domain := fun _ => false

def oneVolume : Env := ⟨1, 7, fun _ => 0, fun _ => 0, fun _ => 0⟩

def headAt (commitSeq : Nat) : HeadState := ⟨⟨9, 1, commitSeq⟩, 3, 5⟩

def toSecond (commitSeq : Nat) : FastForwardRequest :=
  ⟨2, headAt commitSeq, ⟨7, ⟨9, 1, 0⟩, (released 1).toSnapshotRef, 3, 5, 0, 0, none, .running, 1⟩,
    (released 1).toSnapshotRef, released 2, 10⟩

def forked : List (Store × Call) := [(twoReleases, .fork ⟨1, 3, 9, 5, released 1⟩)]

/-- A commit on the fork, which has seen it. -/
def forkedCommit : List (Store × Call) :=
  forked ++ ((Run.exec (step oneVolume) ⟨twoReleases, 0⟩ forked).map fun fork =>
    (fork.store, Call.commit ⟨1, headAt 0, 0, 0, true⟩)).toList

theorem fastForward_after_forkedCommit : ∃ final,
    Run.exec (step oneVolume) ⟨twoReleases, 0⟩ forkedCommit = some final ∧ final.since = 1 ∧
    step oneVolume final (final.store, .fastForward (toSecond 0)) = some final := by
  obtain ⟨final, run, new, once⟩ : ∃ final,
      Run.exec (step oneVolume) ⟨twoReleases, 0⟩ forkedCommit = some final ∧
      final.store.forkOperation 2 = none ∧ final.since = 1 := ⟨_, rfl, rfl, rfl⟩
  exact ⟨final, run, once,
    ((fastForward_discards_nothing oneVolume twoReleases rfl forkedCommit final
    (by decide) run final.store (toSecond 0) new rfl).2 (by simp [once])).2⟩

/-- A committed mutation is gone with its base: the view's counters are still zero. -/
theorem fastForward_after_commit : ∃ before final s',
    Run.exec (step oneVolume) ⟨twoReleases, 0⟩ forked = some before ∧
    Run.exec (step oneVolume) before [(before.store, .commit ⟨1, headAt 0, 0, 0, true⟩)] =
      some final ∧ final.since = 1 ∧
    (Call.fastForward (toSecond 1)).run oneVolume final.store final.store = .ok s' ∧
    s'.view.map (·.base) = some (released 2).toSnapshotRef :=
  ⟨_, _, _, rfl, rfl, rfl, rfl, rfl⟩

end BrewFs.Native
