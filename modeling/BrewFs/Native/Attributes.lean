import BrewFs.Native.Sessions

/-! `native_base/write/commit.rs`: the inode row that a commit writes, and the sizes that are
read from it. -/

namespace BrewFs.Native

structure InodeData where
  (size dataVersion committedOrder : Nat)

/-- What `read_inode_view` finds. -/
structure InodeView (Extent : Type) where
  hadRecord : Bool
  data : InodeData
  extents : List (Nat × Extent)
  default : hadRecord = false → data = ⟨0, 0, 0⟩

structure ExtentChange (Extent : Type) where
  (removed added : List (Nat × Extent))

/-- The blocks of writes and replacements are left out. -/
inductive Mutation where
  | write (logicalOffset logicalLen : Nat)
  | truncate (newSize : Nat)
  | punchHole (offset len : Nat)
  | setAttributes (mode uid gid : Nat) (ctimeNs : Int)
  | replaceInode (logicalSize : Nat)

inductive PendingMutation where
  | write (offset len : Nat)
  | truncate (newSize : Nat)
  | punchHole (resultingSize : Nat)

namespace InodeView

variable {Extent : Type} [DecidableEq Extent]
  (contents : InodeView Extent → Mutation → Option (ExtentChange Extent))
  (view : InodeView Extent) (baselineSize blockSize order : Nat)

def logicalSize : Nat := if view.hadRecord then view.data.size else baselineSize

def plannedSize : Mutation → Option Nat
  | .write offset len => some (max (view.logicalSize baselineSize) (offset + len))
  | .truncate newSize => some newSize
  | .punchHole .. => some (view.logicalSize baselineSize)
  | .setAttributes .. => none
  | .replaceInode logicalSize => some logicalSize

/-- `contents` plans the other mutations. -/
def planMutation : Mutation → Option (ExtentChange Extent)
  | .setAttributes mode .. => if blockSize = 0 ∨ mode &&& 0o170000 = 0 then none else some ⟨[], []⟩
  | mutation => if blockSize = 0 then none else contents view mutation

/-- The rows of the inode after `commit_uploaded_slice`. -/
def commit (mutation : Mutation) : Option (InodeView Extent) :=
  if order ≠ view.data.committedOrder + 1 then none
  else (planMutation contents view blockSize mutation).map fun change =>
    { hadRecord := true
      data := ⟨(view.plannedSize baselineSize mutation).getD view.data.size,
        view.data.dataVersion + 1, order⟩
      extents := view.extents.filter (· ∉ change.removed) ++ change.added
      default := nofun }

/-- The size the runtime reports; an offset past `u64` is an error. -/
def effectiveSize (pending : List PendingMutation) : Option Nat :=
  pending.foldlM (fun size mutation => match mutation with
    | .write offset len => if offset + len < 2 ^ 64 then some (max size (offset + len)) else none
    | .truncate newSize => some newSize
    | .punchHole resultingSize => some (max size resultingSize)) (view.logicalSize baselineSize)

/-- `commit` as the plan of a session's commits, with the session's hashes. -/
def rules (hashes : Rules Unit Mutation) : Rules (InodeView Extent) Mutation :=
  ⟨hashes.accepts, fun mutation view =>
      commit contents view baselineSize blockSize (view.data.committedOrder + 1) mutation,
    hashes.payloadDigest, hashes.operationIdFor⟩

variable {contents view baselineSize blockSize order}

/-- Where a session commits an operation whose id is new, the inode's rows are those of `commit`. -/
theorem commitOp_commits {hashes : Rules Unit Mutation}
    {s next : Session (InodeView Extent) Mutation}
    {op : PendingOp Mutation} {verified : Bool}
    (fresh : s.store.mutation op.operationId = none)
    (current : (s.committed op.inode).2 = (s.committed op.inode).1.data.committedOrder)
    (ok : commitOp (rules contents baselineSize blockSize hashes) s op verified = .ok next) :
    ∃ after, next.committed op.inode = (after, after.data.committedOrder) ∧
      commit contents (s.committed op.inode).1 baselineSize blockSize op.mutationOrder op.mutation =
        some after := by
  obtain ⟨planned, _, _, found, _, rfl⟩ := commitOp_ok fresh ok
  obtain ⟨turn, found⟩ := Option.ite_none_right_eq_some.mp found
  obtain ⟨after, done, rfl⟩ := Option.map_eq_some_iff.mp found
  rw [current] at turn
  refine ⟨after, ?_, turn ▸ done⟩
  obtain ⟨_, done⟩ := Option.ite_none_left_eq_some.mp done
  obtain ⟨_, _, rfl⟩ := Option.map_eq_some_iff.mp done
  simp [turn]

/-- An attribute change keeps the extents. It keeps the size unless it writes the first row, whose
size is the default and not that of the base. -/
theorem setAttributes_keeps_size_iff {after : InodeView Extent} {mode uid gid : Nat}
    {ctimeNs : Int} (done : commit contents view baselineSize blockSize order
      (.setAttributes mode uid gid ctimeNs) = some after) :
    after.extents = view.extents ∧
    ((after.logicalSize baselineSize = view.logicalSize baselineSize ∧
        ∀ pending, after.effectiveSize baselineSize pending =
          view.effectiveSize baselineSize pending) ↔
      view.hadRecord = true ∨ baselineSize = 0) := by
  simp only [commit] at done
  split at done
  · cases done
  obtain ⟨change, planned, rfl⟩ := Option.map_eq_some_iff.mp done
  cases (Option.ite_none_left_eq_some.mp planned).2
  refine ⟨by simp, ?_⟩
  have base : view.data.size = view.logicalSize baselineSize ↔
      view.hadRecord = true ∨ baselineSize = 0 := by
    have := view.default
    simp only [logicalSize]
    grind
  rw [← base]
  constructor
  · exact And.left
  · intro same
    exact ⟨same, fun pending => by simp only [effectiveSize, ← same]; rfl⟩

def chmod (view : InodeView Nat) (baselineSize order : Nat) : Option (InodeView Nat) :=
  commit (fun _ _ => none) view baselineSize 4096 order (.setAttributes 0o100600 0 0 0)

/-- An inode with a row of its own. -/
def changed : InodeView Nat := ⟨true, ⟨10, 3, 4⟩, [(0, 7)], nofun⟩

theorem setAttributes_keeps_size_changed : ∃ after, chmod changed 30 5 = some after ∧
    after.extents = [(0, 7)] ∧ after.logicalSize 30 = 10 ∧
    after.effectiveSize 30 [.write 8 12] = some 20 := by
  have done : chmod changed 30 5 = some _ := rfl
  obtain ⟨extents, size⟩ := setAttributes_keeps_size_iff done
  obtain ⟨logical, effective⟩ := size.mpr (.inl rfl)
  exact ⟨_, done, extents, logical, effective [.write 8 12]⟩

/-- An inode that only the base has. -/
def baseOnly : InodeView Nat := ⟨false, ⟨0, 0, 0⟩, [], fun _ => rfl⟩

/-- A file of ten bytes is empty afterwards. -/
theorem first_chmod_empties : baseOnly.logicalSize 10 = 10 ∧
    ∃ after, chmod baseOnly 10 1 = some after ∧ after.logicalSize 10 = 0 :=
  ⟨rfl, _, rfl, rfl⟩

end InodeView

end BrewFs.Native
