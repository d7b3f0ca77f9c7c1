import BrewFs.Native.FastForward
import Mathlib.Data.List.Nodup

/-! `write/overlay.rs`: the sessions of a writer, one after another, each with a fresh overlay on
the same store. An operation id is made of inode and ticket, and the tickets begin again with every
session. -/

namespace BrewFs.Native

open List
open Guard (need bind_eq_ok check_eq_ok need_eq_ok pure_eq_ok)
open Function (update update_of_ne)

/-- What a commit makes of an inode (`plan_mutation`, `planned_size`), and the hashes. -/
structure Rules (View Mutation : Type) where
  accepts : Mutation → Bool
  plan : Mutation → View → Option View
  payloadDigest : Mutation → Nat
  operationIdFor : Nat → Nat → Nat

inductive OpState where
  | accepted | uploaded | failed | blocked
  deriving DecidableEq

structure PendingOp (Mutation : Type) where
  (inode ticket mutationOrder operationId : Nat)
  mutation : Mutation
  state : OpState

structure Session (View Mutation : Type) where
  store : Store
  /-- What the inodes hold, and their `committed_order`. -/
  committed : Nat → View × Nat
  /-- The receipts object registered for an operation id, by its hash. -/
  registered : Nat → Option Nat
  nextTicket : Nat
  /-- `next_mutation_order` of the inodes the session touched. -/
  orders : Nat → Option Nat
  /-- The queues of all inodes, in the order of admission. -/
  pending : List (PendingOp Mutation)
  /-- The operations that drains have reported as committed. -/
  reports : List (PendingOp Mutation)

inductive Action (Mutation : Type) where
  | openSession
  | accept (inode : Nat) (mutation : Mutation)
  /-- `dispatch`, then `complete_upload`; `receipts`: the hash of what it attests. -/
  | upload (ticket receipts : Nat)
  /-- One round of `drain`; `verified`: what the checks of domain and objects say. -/
  | drain (inode : Nat) (verified : Bool)

variable {View Mutation : Type} (rules : Rules View Mutation) (s : Session View Mutation)

/-- The inode after the mutation, if its turn has come. -/
def planMutation (committed : View × Nat) (op : PendingOp Mutation) : Option (View × Nat) :=
  if op.mutationOrder = committed.2 + 1 then
    (rules.plan op.mutation committed.1).map fun view => (view, op.mutationOrder)
  else none

/-- The only writer commits an uploaded mutation, at the current head. -/
def commitOp (op : PendingOp Mutation) (verified : Bool) :
    Except LifecycleError (Session View Mutation) := do
  let head ← need s.store.head .record
  let planned := planMutation rules (s.committed op.inode) op
  let out ← commitUploadedSlice s.store s.store ⟨op.operationId, head,
    rules.payloadDigest op.mutation, op.inode, verified && planned.isSome⟩
  pure (match out.1, planned with
    | .committed _, some next => { s with
        store := out.2, committed := update s.committed op.inode next }
    | _, _ => s)

/-- `pop_front` of the inode's queue. -/
def Session.pop (inode : Nat) : Session View Mutation :=
  { s with pending := s.pending.eraseP (·.inode = inode) }

def markFailed (front op : PendingOp Mutation) : PendingOp Mutation :=
  if op.inode ≠ front.inode then op
  else if op.ticket = front.ticket then { op with state := .failed }
  else if op.state = .failed then op else { op with state := .blocked }

def drainFront (front : PendingOp Mutation) (verified : Bool) : Session View Mutation :=
  match front.state with
  | .failed | .blocked => s.pop front.inode
  | .accepted => s
  | .uploaded =>
    match commitOp rules s front verified with
    | .ok s' => { s'.pop front.inode with reports := s.reports ++ [front] }
    | .error _ => { s with pending := s.pending.map (markFailed front) }

/-- `register_upload` of the receipts object, whose id is made of the operation id: the same object
may be registered again, no other one. -/
def registerUpload (registered : Nat → Option Nat) (id receipts : Nat) :
    Option (Nat → Option Nat) :=
  if ∀ existing ∈ registered id, existing = receipts then
    some (update registered id (some receipts))
  else none

/-- An operation whose receipts cannot be registered keeps waiting, as one not uploaded. -/
def uploadOp (op : PendingOp Mutation) (receipts : Nat) : Session View Mutation :=
  match registerUpload s.registered op.operationId receipts with
  | some registered => { s with
      registered := registered
      pending := s.pending.map fun other =>
        if other.operationId = op.operationId then { other with state := .uploaded } else other }
  | none => s

def Session.step : Action Mutation → Option (Session View Mutation)
  | .openSession => some { s with nextTicket := 0, orders := fun _ => none, pending := [] }
  | .accept inode mutation =>
    if rules.accepts mutation then
      let order := (s.orders inode).getD (s.committed inode).2 + 1
      some { s with
        nextTicket := s.nextTicket + 1
        orders := update s.orders inode (some order)
        pending := s.pending ++ [⟨inode, s.nextTicket + 1, order,
          rules.operationIdFor inode (s.nextTicket + 1), mutation, .accepted⟩] }
    else some s
  | .upload ticket receipts =>
    (s.pending.find? fun op => op.ticket = ticket ∧ op.state = .accepted).map
      fun op => uploadOp s op receipts
  | .drain inode verified =>
    (s.pending.find? (·.inode = inode)).map fun front => drainFront rules s front verified

/-- The ids recorded in the store, by a commit or by receipts, and those of the session. -/
def Taken (id : Nat) : Prop :=
  (s.store.mutation id).isSome = true ∨ (s.registered id).isSome = true ∨
    id ∈ s.pending.map (·.operationId)

/-- A mutation is accepted under a free id. -/
def NewId : Action Mutation → Prop
  | .accept inode _ => ¬ Taken s (rules.operationIdFor inode (s.nextTicket + 1))
  | .openSession | .upload _ _ | .drain _ _ => True

instance (action : Action Mutation) : Decidable (NewId rules s action) :=
  match action with
  | .accept _ _ => inferInstanceAs (Decidable (¬ (_ ∨ _ ∨ _)))
  | .openSession | .upload _ _ | .drain _ _ => isTrue trivial

variable {rules s} {op front : PendingOp Mutation} {verified : Bool} {next : Session View Mutation}

/-- Without a record of its id a mutation is committed now or never. -/
theorem commitOp_ok (fresh : s.store.mutation op.operationId = none)
    (ok : commitOp rules s op verified = .ok next) :
    ∃ planned result store, planMutation rules (s.committed op.inode) op = some planned ∧
      store.mutation = update s.store.mutation op.operationId (some result) ∧
      next = { s with store := store, committed := update s.committed op.inode planned } := by
  simp only [commitOp, commitUploadedSlice, fresh, bind_eq_ok, check_eq_ok, pure_eq_ok,
    Bool.and_eq_true, Option.isSome_iff_exists] at ok
  obtain ⟨_, _, _, ⟨_, _, _, _, _, _, _, ⟨_, planned, found⟩, _, _, rfl⟩, rfl⟩ := ok
  exact ⟨planned, _, _, found, rfl, by rw [found]⟩

/-- Pending operations have their own ids, and the reports in turn made the inodes what they are. -/
structure Kept (rules : Rules View Mutation) (start s : Session View Mutation) : Prop where
  apart : (s.pending.map (·.operationId)).Nodup
  fresh : ∀ op ∈ s.pending, s.store.mutation op.operationId = none
  clear : ∀ op ∈ s.pending, op.state = .accepted → s.registered op.operationId = none
  replayed : ∀ inode, (s.reports.filter (·.inode = inode)).foldlM (planMutation rules)
    (start.committed inode) = some (s.committed inode)

variable {start : Session View Mutation}

section

variable (kept : Kept rules start s)

include kept

theorem Kept.rename {f : PendingOp Mutation → PendingOp Mutation} (registered : Nat → Option Nat)
    (same : ∀ op, (f op).operationId = op.operationId)
    (clear : ∀ op ∈ s.pending, (f op).state = .accepted → registered op.operationId = none) :
    Kept rules start { s with registered := registered, pending := s.pending.map f } where
  apart := by simpa [Function.comp_def, same] using kept.apart
  fresh := by simpa [same] using kept.fresh
  clear := by simpa [same] using clear
  replayed := kept.replayed

theorem Kept.pop (inode : Nat) : Kept rules start (s.pop inode) where
  apart := kept.apart.sublist (eraseP_sublist.map _)
  fresh := fun op listed => kept.fresh op (mem_of_mem_eraseP listed)
  clear := fun op listed => kept.clear op (mem_of_mem_eraseP listed)
  replayed := kept.replayed

theorem Kept.ne_of_mem_pop (first : s.pending.find? (·.inode = front.inode) = some front) :
    ∀ op ∈ (s.pop front.inode).pending, op.operationId ≠ front.operationId := by
  obtain ⟨chosen, before, after, split, passed⟩ := List.find?_eq_some_iff_append.mp first
  have apart := kept.apart
  rw [split, map_append, map_cons, nodup_middle, ← map_append] at apart
  rw [Session.pop, split, eraseP_append_right _ (by simpa using passed),
    eraseP_cons_of_pos (by exact chosen)]
  exact fun op left same => (nodup_cons.mp apart).1 (same ▸ mem_map_of_mem left)

theorem Kept.drainFront (first : s.pending.find? (·.inode = front.inode) = some front)
    (verified : Bool) : Kept rules start (Native.drainFront rules s front verified) := by
  have listed := mem_of_find?_eq_some first
  unfold Native.drainFront
  split
  · exact kept.pop _
  · exact kept.pop _
  · exact kept
  · split
    · rename_i s' ok
      obtain ⟨planned, result, store, applied, recorded, rfl⟩ :=
        commitOp_ok (kept.fresh _ listed) ok
      have popped := kept.pop front.inode
      refine ⟨popped.apart, fun op left => ?_, popped.clear, fun inode => ?_⟩
      · have other := kept.ne_of_mem_pop first op left
        exact recorded ▸ (update_of_ne other ..).trans (popped.fresh op left)
      rw [filter_append, foldlM_append, kept.replayed inode]
      by_cases same : front.inode = inode
      · subst same
        simp [applied, Session.pop]
      · simp [same, Session.pop, update_of_ne (Ne.symm same)]
    · refine kept.rename s.registered (fun op => ?_) fun op listed => ?_
      · unfold markFailed
        split_ifs <;> rfl
      have clear := kept.clear op listed
      unfold markFailed
      split_ifs <;> first | exact clear | exact nofun

theorem Kept.uploadOp (op : PendingOp Mutation) (receipts : Nat) :
    Kept rules start (Native.uploadOp s op receipts) := by
  unfold Native.uploadOp
  split
  · rename_i registered done
    obtain ⟨_, done⟩ := Option.ite_none_right_eq_some.mp done
    cases done
    refine kept.rename _ (fun other => ?_) fun other listed => ?_
    · split <;> rfl
    split
    · exact nofun
    rename_i here
    rw [update_of_ne here]
    exact kept.clear other listed
  · exact kept

end

theorem Kept.step (s : Session View Mutation) (action : Action Mutation)
    (next : Session View Mutation) (kept : Kept rules start s) (new : NewId rules s action)
    (taken : s.step rules action = some next) : Kept rules start next := by
  cases action with
  | openSession =>
    cases taken
    exact ⟨.nil, nofun, nofun, kept.replayed⟩
  | accept inode mutation =>
    rw [Session.step] at taken
    split at taken <;> cases taken
    · simp only [NewId, Taken, not_or] at new
      obtain ⟨unused, unregistered, absent⟩ := new
      refine ⟨?_, ?_, ?_, kept.replayed⟩
      · rw [map_append]
        exact kept.apart.append (nodup_singleton _) (by simpa using absent)
      · exact forall_mem_append.mpr ⟨kept.fresh, by simpa using unused⟩
      · exact forall_mem_append.mpr ⟨kept.clear, by simpa using unregistered⟩
    · exact kept
  | upload ticket receipts =>
    obtain ⟨op, _, rfl⟩ := Option.map_eq_some_iff.mp taken
    exact kept.uploadOp op receipts
  | drain inode verified =>
    obtain ⟨front, first, rfl⟩ := Option.map_eq_some_iff.mp taken
    obtain rfl : front.inode = inode := by simpa using find?_some first
    exact kept.drainFront first verified

/-- When every mutation is accepted under a new id: what the drains report as committed, applied in
turn, makes the inodes what they are, in the order of acceptance; any receipts can be registered;
and a commit that its own checks let through succeeds and takes effect. -/
theorem reported_commits_take_effect (rules : Rules View Mutation) (start : Session View Mutation)
    (closed : start.pending = []) (silent : start.reports = []) (actions : List (Action Mutation))
    (final : Session View Mutation)
    (new : Run.Along (Session.step rules) (NewId rules) start actions)
    (run : Run.exec (Session.step rules) start actions = some final) :
    (∀ inode, (final.reports.filter (·.inode = inode)).foldlM (planMutation rules)
      (start.committed inode) = some (final.committed inode)) ∧
    (∀ op ∈ final.pending, op.state = .accepted → ∀ receipts,
      (registerUpload final.registered op.operationId receipts).isSome = true) ∧
    ∀ op ∈ final.pending, ∀ planned,
      planMutation rules (final.committed op.inode) op = some planned →
      final.store.deleted = false → final.store.head.isSome = true →
      ∃ s', commitOp rules final op true = .ok s' ∧ s'.committed op.inode = planned := by
  have begun : Kept rules start start := by
    constructor <;> simp [closed, silent]
  have kept := Run.invariant_along Kept.step begun new run
  refine ⟨kept.replayed, fun op listed waiting receipts => ?_,
    fun op listed planned applied alive headed => ?_⟩
  · simp [registerUpload, kept.clear op listed waiting]
  obtain ⟨head, found⟩ := Option.isSome_iff_exists.mp headed
  have fresh := kept.fresh op listed
  simp [commitOp, commitUploadedSlice, need, Guard.check, found, alive, fresh, applied, bind,
    Except.bind, pure, Except.pure]

/-- Truncations of one file, by its size. -/
def truncations : Rules Nat Nat :=
  ⟨fun _ => true, fun size _ => some size, id, fun inode ticket => 100 * inode + ticket⟩

def emptyFile : Session Nat Nat where
  store := { twoReleases with head := some (headAt 0) }
  committed := fun _ => (0, 0)
  registered := fun _ => none
  nextTicket := 0
  orders := fun _ => none
  pending := []
  reports := []

/-- A truncation in its turn. Its receipts are empty. -/
def truncation (ticket size : Nat) : List (Action Nat) :=
  [.accept 1 size, .upload ticket 0, .drain 1 true]

theorem reported_commits_take_effect_once : ∃ final,
    Run.exec (Session.step truncations) emptyFile (truncation 1 10 ++ truncation 2 20) =
      some final ∧ final.reports.length = 2 ∧ final.committed 1 = (20, 2) := by
  have run : Run.exec (Session.step truncations) emptyFile (truncation 1 10 ++ truncation 2 20) =
    some _ := rfl
  have replayed :=
    (reported_commits_take_effect truncations emptyFile rfl rfl _ _ (by decide) run).1 1
  exact ⟨_, run, rfl, (Option.some.inj replayed).symm⟩

/-- A new session truncates to 10 under the first ticket again: the drain reports the earlier
session's commit, and the file keeps its size. Where the earlier session left other receipts and no
commit, the new mutation is never committed. -/
theorem second_session_reports_first : (∃ final,
    Run.exec (Session.step truncations) emptyFile (truncation 1 10 ++ truncation 2 20 ++
      .openSession :: truncation 1 10) = some final ∧
    final.reports.map (fun op => (op.mutation, op.mutationOrder)) = [(10, 1), (20, 2), (10, 3)] ∧
    final.committed 1 = (20, 2)) ∧
    ∃ final, Run.exec (Session.step truncations) emptyFile [.accept 1 10, .upload 1 7,
      .openSession, .accept 1 20, .upload 1 8, .drain 1 true] = some final ∧
    final.pending.map (·.state) = [.accepted] ∧ final.committed 1 = (0, 0) :=
  ⟨⟨_, rfl, rfl, rfl⟩, _, rfl, rfl, rfl⟩

end BrewFs.Native
