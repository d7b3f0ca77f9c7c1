import Mathlib.Order.MinMax

/-! POSIX lock records: how one owner's list takes a new lock, and when two owners conflict. -/

namespace BrewFs.Meta

open List

inductive FileLockType where
  | read
  | write
  | unlock
deriving DecidableEq, Repr

/-- The bytes from `start` up to `stop`, the source's `end`. -/
structure FileLockRange where
  start : Nat
  stop : Nat
deriving DecidableEq, Repr

def FileLockRange.overlaps (range other : FileLockRange) : Bool :=
  range.stop > other.start && range.start < other.stop

/-- A session, its UUID. -/
abbrev Sid := Nat

/-- `PlockHashMapKey`: a session and an owner in it. -/
abbrev Holder := Sid × Int

/-- An inode and one of its lock holders. -/
abbrev PlockKey := Nat × Holder

/-- The errors a lock request can meet. -/
inductive LockError where
  | notFound (inode : Nat)
  | sessionNotFound (sid : Sid)
  | lockConflict (inode : Nat) (owner : Int) (range : FileLockRange)
deriving DecidableEq, Repr

structure PlockRecord where
  lockType : FileLockType
  pid : Nat
  lockRange : FileLockRange
deriving DecidableEq, Repr

namespace PlockRecord

/-- Part of a record. -/
def cut (lock : PlockRecord) (start stop : Nat) : PlockRecord :=
  ⟨lock.lockType, lock.pid, ⟨start, stop⟩⟩

/-- Push the new lock once, unless it releases or covers nothing. -/
def pushNew (new : PlockRecord) (acc : List PlockRecord × Bool) : List PlockRecord × Bool :=
  if acc.2 = false ∧ new.lockType ≠ .unlock ∧ new.lockRange.start < new.lockRange.stop then
    (acc.1 ++ [new], true)
  else acc

/-- One round of `update_locks`: the list so far, and whether it holds the new lock. -/
def updateStep (new : PlockRecord) (acc : List PlockRecord × Bool) (lock : PlockRecord) :
    List PlockRecord × Bool :=
  if lock.lockRange.stop ≤ new.lockRange.start then (acc.1 ++ [lock], acc.2)
  else if lock.lockRange.start ≥ new.lockRange.stop then
    let acc := pushNew new acc
    (acc.1 ++ [lock], acc.2)
  else
    let acc :=
      if lock.lockRange.start < new.lockRange.start then
        (acc.1 ++ [lock.cut lock.lockRange.start new.lockRange.start], acc.2)
      else acc
    let acc := pushNew new acc
    if lock.lockRange.stop > new.lockRange.stop then
      (acc.1 ++ [lock.cut new.lockRange.stop lock.lockRange.stop], acc.2)
    else acc

/-- What `retain` keeps. -/
def live (record : PlockRecord) : Bool :=
  record.lockType ≠ .unlock && record.lockRange.start < record.lockRange.stop

/-- One round of the merge; the list has its last record first. -/
def mergeStep (merged : List PlockRecord) (record : PlockRecord) : List PlockRecord :=
  match merged with
  | last :: earlier =>
    if last.lockType = record.lockType ∧ last.pid = record.pid ∧
        last.lockRange.stop = record.lockRange.start then
      last.cut last.lockRange.start record.lockRange.stop :: earlier
    else record :: last :: earlier
  | [] => [record]

/-- `PlockRecord::update_locks` -/
def updateLocks (locks : List PlockRecord) (new : PlockRecord) : List PlockRecord :=
  let result := (pushNew new (locks.foldl (updateStep new) ([], false))).1
  ((result.filter live).foldl mergeStep []).reverse

/-- `PlockRecord::check_conflict` -/
def checkConflict (lockType : FileLockType) (range : FileLockRange) (locks : List PlockRecord) :
    Bool :=
  locks.any fun lock =>
    (lockType = .write || lock.lockType = .write) && range.stop > lock.lockRange.start &&
      range.start < lock.lockRange.stop

/-! ### Byte by byte -/

def Covers (range : FileLockRange) (byte : Nat) : Prop := range.start ≤ byte ∧ byte < range.stop

/-- Some record of the list locks the byte in this way. -/
def At (locks : List PlockRecord) (lockType : FileLockType) (byte : Nat) : Prop :=
  ∃ lock ∈ locks, lock.lockType = lockType ∧ Covers lock.lockRange byte

variable {locks merged : List PlockRecord} {lock new : PlockRecord} {lockType : FileLockType}
  {byte bound : Nat}

@[simp] theorem at_nil : ¬ At [] lockType byte := by
  rintro ⟨lock, listed, _⟩
  cases listed

theorem at_cons : At (lock :: locks) lockType byte ↔
      (lock.lockType = lockType ∧ Covers lock.lockRange byte) ∨ At locks lockType byte := by
  unfold At
  simp only [mem_cons, or_and_right, exists_or, exists_eq_left]

theorem at_concat : At (locks ++ [lock]) lockType byte ↔
      At locks lockType byte ∨ (lock.lockType = lockType ∧ Covers lock.lockRange byte) := by
  unfold At
  simp only [mem_append, mem_singleton, or_and_right, exists_or, exists_eq_left]

/-- The new lock is in the list or still to come. -/
def Pending (new : PlockRecord) (acc : List PlockRecord × Bool) (lockType : FileLockType)
    (byte : Nat) : Prop :=
  At acc.1 lockType byte ∨
    (acc.2 = false ∧ new.lockType ≠ .unlock ∧ new.lockType = lockType ∧ Covers new.lockRange byte)

variable {acc : List PlockRecord × Bool}

theorem at_pushNew : At (pushNew new acc).1 lockType byte ↔ Pending new acc lockType byte := by
  unfold pushNew Pending
  split
  · rename_i pushed
    rw [at_concat]
    simp only [pushed.1, pushed.2.1, ne_eq, not_false_eq_true, true_and]
  rename_i skipped
  refine ⟨.inl, ?_⟩
  rintro (listed | ⟨open_, kind, _, covers⟩)
  · exact listed
  · exact absurd ⟨open_, kind, lt_of_le_of_lt covers.1 covers.2⟩ skipped

theorem pending_pushNew :
    Pending new (pushNew new acc) lockType byte ↔ Pending new acc lockType byte := by
  constructor
  · rintro (listed | ⟨open_, rest⟩)
    · exact at_pushNew.mp listed
    have same : (acc.2 = false) := by
      unfold pushNew at open_
      split at open_
      · cases open_
      · exact open_
    exact .inr ⟨same, rest⟩
  · exact fun pending => .inl (at_pushNew.mpr pending)

theorem pending_concat : Pending new (acc.1 ++ [lock], acc.2) lockType byte ↔
      Pending new acc lockType byte ∨ (lock.lockType = lockType ∧ Covers lock.lockRange byte) := by
  unfold Pending
  rw [at_concat, or_right_comm]

/-- One round keeps the bytes of a lock outside the new one. -/
theorem pending_updateStep :
    Pending new (updateStep new acc lock) lockType byte ↔ Pending new acc lockType byte ∨
      (lock.lockType = lockType ∧ Covers lock.lockRange byte ∧ ¬ Covers new.lockRange byte) := by
  unfold updateStep
  split
  · rename_i before
    rw [pending_concat]
    refine or_congr_right (and_congr_right fun _ => ⟨fun covers => ⟨covers, ?_⟩, And.left⟩)
    exact fun inside => absurd inside.1 (not_le.mpr (lt_of_lt_of_le covers.2 before))
  split
  · rename_i behind
    rw [pending_concat, pending_pushNew]
    refine or_congr_right (and_congr_right fun _ => ⟨fun covers => ⟨covers, ?_⟩, And.left⟩)
    exact fun inside => absurd inside.2 (not_lt.mpr (le_trans behind covers.1))
  have front : Pending new (if lock.lockRange.start < new.lockRange.start then
        (acc.1 ++ [lock.cut lock.lockRange.start new.lockRange.start], acc.2)
      else acc) lockType byte ↔ Pending new acc lockType byte ∨
        (lock.lockType = lockType ∧ lock.lockRange.start ≤ byte ∧
          byte < new.lockRange.start) := by
    split
    · exact pending_concat
    rename_i none_before
    refine ⟨.inl, fun pending => pending.elim id fun part => ?_⟩
    exact absurd (lt_of_le_of_lt part.2.1 part.2.2) none_before
  have parts : (lock.lockType = lockType ∧ Covers lock.lockRange byte ∧
        ¬ Covers new.lockRange byte) ↔
      (lock.lockType = lockType ∧ lock.lockRange.start ≤ byte ∧ byte < new.lockRange.start) ∨
      (lock.lockType = lockType ∧ new.lockRange.stop ≤ byte ∧ byte < lock.lockRange.stop) := by
    rw [← and_or_left]
    refine and_congr_right fun _ => ?_
    unfold Covers
    omega
  rw [parts, ← or_assoc, ← front]
  dsimp only
  split
  · rw [pending_concat, pending_pushNew]
    rfl
  rename_i none_after
  rw [pending_pushNew]
  refine ⟨.inl, fun pending => pending.elim id fun part => ?_⟩
  exact absurd (lt_of_le_of_lt part.2.1 part.2.2) none_after

theorem pending_foldl :
    Pending new (locks.foldl (updateStep new) acc) lockType byte ↔ Pending new acc lockType byte ∨
      (At locks lockType byte ∧ ¬ Covers new.lockRange byte) := by
  induction locks generalizing acc with
  | nil => simp
  | cons lock rest ih =>
    rw [foldl_cons, ih, pending_updateStep, or_assoc, at_cons, or_and_right, and_assoc]

/-- No record releases or is empty. -/
def AllLive (locks : List PlockRecord) : Prop := ∀ lock ∈ locks, lock.live = true

theorem live_iff :
    lock.live = true ↔ lock.lockType ≠ .unlock ∧ lock.lockRange.start < lock.lockRange.stop := by
  simp [live]

theorem mergeStep_live (all : AllLive merged) (record : lock.live = true) :
    AllLive (mergeStep merged lock) := by
  unfold mergeStep
  split
  · rename_i last earlier
    have first := live_iff.mp (all last mem_cons_self)
    have added := live_iff.mp record
    have rest : AllLive earlier := fun other listed => all other (mem_cons_of_mem _ listed)
    split
    · intro other listed
      obtain rfl | listed := mem_cons.mp listed
      · refine live_iff.mpr ⟨first.1, ?_⟩
        show last.lockRange.start < lock.lockRange.stop
        omega
      · exact rest other listed
    intro other listed
    obtain rfl | listed := mem_cons.mp listed
    · exact record
    · exact all other listed
  · intro other listed
    rw [mem_singleton.mp listed]
    exact record

/-- Merging moves the border between two records only. -/
theorem at_mergeStep (all : AllLive merged) (record : lock.live = true) :
    At (mergeStep merged lock) lockType byte ↔
      At merged lockType byte ∨ (lock.lockType = lockType ∧ Covers lock.lockRange byte) := by
  unfold mergeStep
  split
  · rename_i last earlier
    have first := (live_iff.mp (all last mem_cons_self)).2
    have added := (live_iff.mp record).2
    split
    · rename_i touches
      rw [at_cons, at_cons, or_right_comm, ← touches.1, ← and_or_left]
      refine or_congr_left (and_congr_right fun _ => ?_)
      unfold Covers cut
      dsimp only
      omega
    · rw [at_cons, or_comm]
  · rw [at_cons]
    simp

theorem foldl_mergeStep_live (records merged : List PlockRecord) (all : AllLive merged)
    (added : AllLive records) : AllLive (records.foldl mergeStep merged) := by
  induction records generalizing merged with
  | nil => exact all
  | cons record rest ih =>
    have here := added record mem_cons_self
    exact ih (mergeStep merged record) (mergeStep_live all here)
      fun other listed => added other (mem_cons_of_mem _ listed)

theorem at_foldl_mergeStep (records merged : List PlockRecord) (all : AllLive merged)
    (added : AllLive records) : At (records.foldl mergeStep merged) lockType byte ↔
      At merged lockType byte ∨ At records lockType byte := by
  induction records generalizing merged with
  | nil => simp
  | cons record rest ih =>
    have here := added record mem_cons_self
    have later := ih (mergeStep merged record) (mergeStep_live all here)
      fun other listed => added other (mem_cons_of_mem _ listed)
    rw [foldl_cons, later, at_mergeStep all here, at_cons, or_assoc]

theorem at_reverse : At locks.reverse lockType byte ↔ At locks lockType byte := by
  unfold At
  simp only [mem_reverse]

theorem at_filter_live : At (locks.filter live) lockType byte ↔
    At locks lockType byte ∧ lockType ≠ .unlock := by
  constructor
  · rintro ⟨lock, listed, rfl, covers⟩
    obtain ⟨listed, kept⟩ := mem_filter.mp listed
    exact ⟨⟨lock, listed, rfl, covers⟩, (live_iff.mp kept).1⟩
  rintro ⟨⟨lock, listed, rfl, covers⟩, locking⟩
  refine ⟨lock, mem_filter.mpr ⟨listed, live_iff.mpr ⟨locking, ?_⟩⟩, rfl, covers⟩
  exact lt_of_le_of_lt covers.1 covers.2

theorem allLive_filter : AllLive (locks.filter live) :=
  fun _ listed => (mem_filter.mp listed).2

theorem updateLocks_live (locks : List PlockRecord) (new : PlockRecord) :
    AllLive (updateLocks locks new) := by
  intro record listed
  exact foldl_mergeStep_live _ [] nofun allLive_filter record (mem_reverse.mp listed)

/-- The new record's bytes are locked its way and the others as before. -/
theorem at_updateLocks : At (updateLocks locks new) lockType byte ↔ lockType ≠ .unlock ∧
    ((new.lockType = lockType ∧ Covers new.lockRange byte) ∨
      (At locks lockType byte ∧ ¬ Covers new.lockRange byte)) := by
  unfold updateLocks
  rw [at_reverse, at_foldl_mergeStep _ [] nofun allLive_filter,
    or_iff_right at_nil, at_filter_live, at_pushNew, pending_foldl, and_comm]
  refine and_congr_right fun locking => or_congr_left ?_
  unfold Pending
  rw [or_iff_right at_nil]
  constructor
  · exact fun pending => pending.2.2
  · rintro ⟨rfl, covers⟩
    exact ⟨rfl, locking, rfl, covers⟩

/-! ### The shape of the list -/

/-- Sorted by position, without overlap. -/
def Ascending (locks : List PlockRecord) : Prop :=
  locks.Pairwise fun a b => a.lockRange.stop ≤ b.lockRange.start

def Below (locks : List PlockRecord) (bound : Nat) : Prop :=
  ∀ lock ∈ locks, lock.lockRange.stop ≤ bound

theorem below_concat :
    Below (locks ++ [lock]) bound ↔ Below locks bound ∧ lock.lockRange.stop ≤ bound := by
  simp only [Below, mem_append, mem_singleton, or_imp, forall_and, forall_eq]

theorem Below.mono {low high : Nat} (below : Below locks low) (le : low ≤ high) :
    Below locks high :=
  fun lock listed => (below lock listed).trans le

theorem ascending_concat :
    Ascending (locks ++ [lock]) ↔ Ascending locks ∧ Below locks lock.lockRange.start := by
  simp [Ascending, Below, pairwise_append]

/-- The new lock is in the list, or never goes there. -/
def Placed (new : PlockRecord) (acc : List PlockRecord × Bool) : Prop := pushNew new acc = acc

/-- The list when the locks to come start at `low` or later: none has reached the new one yet, or
its place is passed. -/
def Built (new : PlockRecord) (acc : List PlockRecord × Bool) (low : Nat) : Prop :=
  Ascending acc.1 ∧ ((Below acc.1 new.lockRange.start ∧ Below acc.1 low) ∨
    (Placed new acc ∧ new.lockRange.start < low ∧ Below acc.1 (max low new.lockRange.stop)))

theorem placed_pushNew : Placed new (pushNew new acc) := by
  unfold Placed pushNew
  grind

/-- A lock behind the place of the new one ends the list. -/
theorem built_concat (ascending : Ascending acc.1)
    (below : Below acc.1 lock.lockRange.start) (placed : Placed new acc)
    (passed : new.lockRange.start < lock.lockRange.stop)
    (proper : lock.lockRange.start ≤ lock.lockRange.stop) :
    Built new (acc.1 ++ [lock], acc.2) lock.lockRange.stop := by
  refine ⟨ascending_concat.mpr ⟨ascending, below⟩, .inr ⟨?_, passed, ?_⟩⟩
  · unfold Placed pushNew at *
    grind
  exact below_concat.mpr ⟨below.mono (by omega), le_max_left ..⟩

variable {low : Nat}

theorem Built.pushNew (built : Built new acc low) : Ascending (pushNew new acc).1 ∧
    Below (PlockRecord.pushNew new acc).1 (max low new.lockRange.stop) := by
  obtain ⟨ascending, ⟨early, below⟩ | ⟨placed, _, below⟩⟩ := built
  · unfold PlockRecord.pushNew
    split
    · rw [ascending_concat, below_concat]
      exact ⟨⟨ascending, early⟩, below.mono (le_max_left ..), le_max_right ..⟩
    · exact ⟨ascending, below.mono (le_max_left ..)⟩
  · rw [placed]
    exact ⟨ascending, below⟩

variable (proper : new.lockRange.start ≤ new.lockRange.stop)
include proper

theorem Built.updateStep (built : Built new acc low) (above : low ≤ lock.lockRange.start)
    (nonempty : lock.lockRange.start < lock.lockRange.stop) :
    Built new (updateStep new acc lock) lock.lockRange.stop := by
  unfold PlockRecord.updateStep
  split
  · next before =>
    obtain ⟨ascending, ⟨early, below⟩ | ⟨_, passed, _⟩⟩ := built
    · rw [Built, ascending_concat, below_concat, below_concat]
      exact ⟨⟨ascending, below.mono above⟩, .inl ⟨⟨early, before⟩, below.mono (by omega), le_rfl⟩⟩
    · omega
  next reached =>
  split
  · obtain ⟨ascending, below⟩ := built.pushNew
    exact built_concat ascending (below.mono (by omega)) placed_pushNew (by omega) nonempty.le
  -- the front of the lock is below the new one, so the invariant moves up to it
  have front : ∃ top ≤ new.lockRange.stop, Built new (if lock.lockRange.start < new.lockRange.start
      then (acc.1 ++ [lock.cut lock.lockRange.start new.lockRange.start], acc.2) else acc) top := by
    split
    · obtain ⟨ascending, ⟨early, below⟩ | ⟨_, passed, _⟩⟩ := built
      · refine ⟨new.lockRange.start, proper, ?_⟩
        rw [Built, ascending_concat, below_concat]
        exact ⟨⟨ascending, below.mono above⟩, .inl ⟨⟨early, le_rfl⟩, early, le_rfl⟩⟩
      · omega
    · exact ⟨low, by omega, built⟩
  obtain ⟨top, small, front⟩ := front
  obtain ⟨ascending, below⟩ := front.pushNew
  rw [max_eq_right small] at below
  dsimp only
  split
  · next longer =>
    exact built_concat ascending below placed_pushNew (not_le.mp reached) longer.le
  · exact ⟨ascending, .inr ⟨placed_pushNew, by omega, below.mono (by omega)⟩⟩

theorem Built.foldl (locks : List PlockRecord) (built : Built new acc low)
    (above : ∀ lock ∈ locks, low ≤ lock.lockRange.start) (ascending : Ascending locks)
    (nonempty : ∀ lock ∈ locks, lock.lockRange.start < lock.lockRange.stop) :
    ∃ top, Built new (locks.foldl (PlockRecord.updateStep new) acc) top := by
  induction locks generalizing acc low with
  | nil => exact ⟨low, built⟩
  | cons lock rest ih =>
    obtain ⟨first, later⟩ := pairwise_cons.mp ascending
    obtain ⟨here, others⟩ := forall_mem_cons.mp nonempty
    exact ih (built.updateStep proper (above lock mem_cons_self) here) first later others

omit proper

/-- Neighbours do not overlap and are not left unmerged. -/
def Separate (a b : PlockRecord) : Prop :=
  a.lockRange.stop ≤ b.lockRange.start ∧
    ¬ (a.lockType = b.lockType ∧ a.pid = b.pid ∧ a.lockRange.stop = b.lockRange.start)

theorem Separate.before {a b c : PlockRecord} (first : Separate a b) (live : b.live = true)
    (le : b.lockRange.stop ≤ c.lockRange.start) : Separate a c := by
  have nonempty := (live_iff.mp live).2
  have := first.1
  exact ⟨by omega, fun touching => by omega⟩

theorem mergeStep_separate (separate : merged.Pairwise fun later earlier => Separate earlier later)
    (all : AllLive merged) (below : Below merged lock.lockRange.start) :
    (mergeStep merged lock).Pairwise fun later earlier => Separate earlier later := by
  unfold mergeStep
  split
  · next last earlier =>
    obtain ⟨first, rest⟩ := pairwise_cons.mp separate
    obtain ⟨reach, _⟩ := forall_mem_cons.mp below
    split
    · exact pairwise_cons.mpr ⟨first, rest⟩
    next apart =>
    refine pairwise_cons.mpr ⟨forall_mem_cons.mpr ⟨⟨reach, apart⟩, ?_⟩, separate⟩
    exact fun other listed => (first other listed).before (all last mem_cons_self) reach
  · exact pairwise_singleton ..

theorem below_mergeStep (below : Below merged bound) (le : lock.lockRange.stop ≤ bound) :
    Below (mergeStep merged lock) bound := by
  unfold mergeStep
  split
  · obtain ⟨_, rest⟩ := forall_mem_cons.mp below
    split
    · exact forall_mem_cons.mpr ⟨le, rest⟩
    · exact forall_mem_cons.mpr ⟨le, below⟩
  · exact forall_mem_singleton.mpr le

theorem foldl_mergeStep_separate (records merged : List PlockRecord)
    (separate : merged.Pairwise fun later earlier => Separate earlier later)
    (all : AllLive merged) (added : AllLive records) (ascending : Ascending records)
    (below : ∀ record ∈ records, Below merged record.lockRange.start) :
    (records.foldl mergeStep merged).Pairwise fun later earlier => Separate earlier later := by
  induction records generalizing merged with
  | nil => exact separate
  | cons record rest ih =>
    obtain ⟨here, later⟩ := forall_mem_cons.mp added
    obtain ⟨first, ascending⟩ := pairwise_cons.mp ascending
    obtain ⟨under, below⟩ := forall_mem_cons.mp below
    refine ih _ (mergeStep_separate separate all under) (mergeStep_live all here) later
      ascending fun other listed => below_mergeStep (below other listed) (first other listed)

/-- The list stays sorted, disjoint, without empty records and merged; the new range is locked the
new way and every other byte as before. -/
theorem updateLocks_spec (locks : List PlockRecord) (new : PlockRecord)
    (ascending : Ascending locks)
    (nonempty : ∀ lock ∈ locks, lock.lockRange.start < lock.lockRange.stop)
    (proper : new.lockRange.start ≤ new.lockRange.stop) :
    (updateLocks locks new).Pairwise Separate ∧ AllLive (updateLocks locks new) ∧
      ∀ lockType ≠ .unlock, ∀ byte,
        (Covers new.lockRange byte →
          (At (updateLocks locks new) lockType byte ↔ new.lockType = lockType)) ∧
        (¬ Covers new.lockRange byte →
          (At (updateLocks locks new) lockType byte ↔ At locks lockType byte)) := by
  refine ⟨?_, updateLocks_live locks new, fun lockType locking byte => ?_⟩
  · have empty : Built new ([], false) 0 := ⟨.nil, .inl ⟨nofun, nofun⟩⟩
    obtain ⟨top, built⟩ := empty.foldl proper locks (fun _ _ => Nat.zero_le _) ascending nonempty
    rw [updateLocks, pairwise_reverse]
    exact foldl_mergeStep_separate _ [] .nil nofun allLive_filter
      (built.pushNew.1.filter _) fun _ _ => nofun
  · rw [at_updateLocks]
    constructor <;> intro inside <;> simp [locking, inside]

theorem updateLocks_spec_split :
    (updateLocks [⟨.read, 1, ⟨0, 10⟩⟩] ⟨.write, 1, ⟨2, 4⟩⟩).Pairwise Separate :=
  (updateLocks_spec [⟨.read, 1, ⟨0, 10⟩⟩] ⟨.write, 1, ⟨2, 4⟩⟩ (pairwise_singleton ..)
    (by decide) (by decide)).1

/-- Two ways to lock a byte that exclude each other. -/
def Conflicting (first second : FileLockType) : Prop := first = .write ∨ second = .write

/-- For a range with a byte the check finds exactly the conflicts. -/
theorem checkConflict_iff {range : FileLockRange} (nonempty : range.start < range.stop)
    (all : AllLive locks) : checkConflict lockType range locks = true ↔
      ∃ byte other, Covers range byte ∧ At locks other byte ∧ Conflicting lockType other := by
  unfold checkConflict
  rw [any_eq_true]
  simp only [Bool.and_eq_true, Bool.or_eq_true, decide_eq_true_iff]
  constructor
  · rintro ⟨lock, listed, ⟨conflict, reaches⟩, begins⟩
    have size := (live_iff.mp (all lock listed)).2
    refine ⟨max range.start lock.lockRange.start, lock.lockType, ?_, ⟨lock, listed, rfl, ?_⟩,
      conflict⟩
    · unfold Covers
      omega
    · unfold Covers
      omega
  · rintro ⟨byte, other, inside, ⟨lock, listed, rfl, covers⟩, conflict⟩
    refine ⟨lock, listed, ⟨conflict, ?_⟩, ?_⟩
    · exact lt_of_le_of_lt covers.1 inside.2
    · exact lt_of_le_of_lt inside.1 covers.2

end PlockRecord

end BrewFs.Meta
