import BrewFs.Library.Guard
import BrewFs.Library.Keys
import BrewFs.Library.Run
import BrewFs.Meta.FileLock

/-! POSIX locks of the SQL store: the `plock` table under lock requests, unlocks and session
shutdowns. -/

namespace BrewFs.Meta.Database

open PlockRecord
open Run (exec)
open Guard (check)

structure LockTables where
  /-- The inodes that have a row in `file_meta`. -/
  files : Nat → Bool
  sessions : Sid → Bool
  plocks : AList fun _ : PlockKey => List PlockRecord

structure LockRequest where
  inode : Nat
  holder : Holder
  lockType : FileLockType
  range : FileLockRange
  pid : Nat
deriving DecidableEq

namespace LockRequest

def key (request : LockRequest) : PlockKey := (request.inode, request.holder)

/-- The record `set_plock` makes of a request. -/
def record (request : LockRequest) : PlockRecord := ⟨request.lockType, request.pid, request.range⟩

end LockRequest

namespace LockTables

variable (s : LockTables) (request : LockRequest)

@[simps -fullyApplied] def setPlock (key : PlockKey) (records : List PlockRecord) : LockTables :=
  { s with plocks := s.plocks.insert key records }

@[simps -fullyApplied] def deletePlock (key : PlockKey) : LockTables :=
  { s with plocks := s.plocks.erase key }

/-- The loop of `try_set_plock` over the rows of the inode. -/
def conflictFound : Bool := s.plocks.entries.any fun row =>
    row.1.1 = request.inode && row.1.2 ≠ request.holder &&
      checkConflict request.lockType request.range row.2

/-- The `UnLock` branch of `try_set_plock`. -/
def release : LockTables :=
  match s.plocks.lookup request.key with
  | none => s
  | some [] => s
  | some records =>
    match updateLocks records request.record with
    | [] => s.deletePlock request.key
    | left => s.setPlock request.key left

/-- What a granted lock request writes. -/
def acquire : LockTables :=
  s.setPlock request.key (updateLocks ((s.plocks.lookup request.key).getD []) request.record)

/-- The tables with the request applied, whether or not it conflicts. -/
def granted : LockTables :=
  if request.lockType = .unlock then s.release request else s.acquire request

/-- `try_set_plock` -/
def trySetPlock : Except LockError LockTables := do
  check (s.files request.inode = true) (LockError.notFound request.inode)
  if request.lockType = .unlock then return s.release request
  else do
    check (s.conflictFound request = false)
      (LockError.lockConflict request.inode request.holder.2 request.range)
    return s.acquire request

/-- `shutdown_session_by_id` -/
def shutdownSession (sid : Sid) : Except LockError LockTables := do
  check (s.sessions sid = true) (LockError.sessionNotFound sid)
  return { s with
    sessions := fun other => if other = sid then false else s.sessions other
    plocks := Keys.remove (fun key : PlockKey => key.2.1 = sid) s.plocks }

end LockTables

inductive LockAction where
  /-- One attempt of `set_plock`; a blocking request makes as many as it needs. -/
  | request (request : LockRequest)
  | shutdown (sid : Sid)
  | start (sid : Sid)
  /-- The file's row appears or goes. -/
  | file (inode : Nat) (present : Bool)

/-- The tables after a transaction: what it committed, or those before. -/
def committed (s : LockTables) (transaction : Except LockError LockTables) : LockTables :=
  match transaction with
  | .ok s' => s'
  | .error _ => s

def lockStep (s : LockTables) : LockAction → Option LockTables
  | .request request => some (committed s (s.trySetPlock request))
  | .shutdown sid => some (committed s (s.shutdownSession sid))
  | .start sid =>
    some { s with sessions := fun other => if other = sid then true else s.sessions other }
  | .file inode present =>
    some { s with files := fun other => if other = inode then present else s.files other }

def noLocks : LockTables := ⟨fun _ => false, fun _ => false, ∅⟩

/-! ### Exclusion -/

/-- No two holders have overlapping records on one inode, one of them for writing. -/
def Exclusive (s : LockTables) : Prop := ∀ inode holder holder' records records', holder ≠ holder' →
    s.plocks.lookup (inode, holder) = some records →
    s.plocks.lookup (inode, holder') = some records' →
    ∀ record ∈ records, ∀ record' ∈ records', Conflicting record.lockType record'.lockType →
      record.lockRange.overlaps record'.lockRange = false

variable {s s' : LockTables} {request : LockRequest}

/-- A holder locks a byte. -/
def Held (s : LockTables) (inode : Nat) (holder : Holder) (lockType : FileLockType) (byte : Nat) :
    Prop :=
  ∃ records, s.plocks.lookup (inode, holder) = some records ∧ At records lockType byte

/-- Exclusion byte by byte, over rows that hold something. -/
structure Apart (s : LockTables) : Prop where
  live : ∀ {key records}, s.plocks.lookup key = some records → AllLive records
  bytes : ∀ {inode holder holder' lockType lockType' byte}, holder ≠ holder' →
    Held s inode holder lockType byte → Held s inode holder' lockType' byte →
    ¬ Conflicting lockType lockType'

theorem exclusive_of_apart (apart : Apart s) : Exclusive s := by
  intro inode holder holder' records records' differ found found' record listed record' listed'
    conflict
  have size := (live_iff.mp (apart.live found record listed)).2
  have size' := (live_iff.mp (apart.live found' record' listed')).2
  rw [Bool.eq_false_iff]
  intro overlaps
  simp only [FileLockRange.overlaps, Bool.and_eq_true, decide_eq_true_iff] at overlaps
  -- two ranges that overlap share the later of their first bytes
  refine apart.bytes differ (?_ : Held s inode holder record.lockType
    (max record.lockRange.start record'.lockRange.start))
    ⟨records', found', record', listed', rfl, ?_⟩ conflict
  · refine ⟨records, found, record, listed, rfl, ?_⟩
    unfold Covers
    omega
  · unfold Covers
    omega

variable {inode byte : Nat} {holder : Holder} {lockType : FileLockType}

theorem bytes_of_exclusive (exclusive : Exclusive s) {holder' : Holder} {lockType' : FileLockType}
    (differ : holder ≠ holder') (held : Held s inode holder lockType byte)
    (held' : Held s inode holder' lockType' byte) : ¬ Conflicting lockType lockType' := by
  obtain ⟨records, found, record, listed, rfl, covers⟩ := held
  obtain ⟨records', found', record', listed', rfl, covers'⟩ := held'
  intro conflict
  have apart := exclusive inode holder holder' records records' differ found found' record listed
    record' listed' conflict
  rw [FileLockRange.overlaps, Bool.and_eq_false_iff] at apart
  simp only [decide_eq_false_iff_not] at apart
  unfold Covers at covers covers'
  omega

theorem exclusive_iff_bytes (live : ∀ {key records}, s.plocks.lookup key = some records →
    AllLive records) : Exclusive s ↔ Apart s :=
  ⟨fun exclusive => ⟨live, bytes_of_exclusive exclusive⟩, exclusive_of_apart⟩

/-! ### What a request changes -/

theorem release_row {key : PlockKey} {records : List PlockRecord}
    (found : (s.release request).plocks.lookup key = some records) :
    s.plocks.lookup key = some records ∨
      ∃ before, s.plocks.lookup key = some before ∧
        updateLocks before request.record = records := by
  unfold LockTables.release at found
  split at found
  · exact .inl found
  · exact .inl found
  rename_i before _ stored
  split at found
  · exact .inl (Keys.mem_erase found).2
  rcases Keys.mem_insert found with ⟨rfl, rfl⟩ | ⟨_, old⟩
  · exact .inr ⟨before, stored, rfl⟩
  · exact .inl old

theorem held_release (held : Held (s.release request) inode holder lockType byte)
    (unlock : request.lockType = .unlock) : Held s inode holder lockType byte := by
  obtain ⟨records, found, locked⟩ := held
  rcases release_row found with same | ⟨before, stored, rfl⟩
  · exact ⟨records, same, locked⟩
  obtain ⟨locking, ⟨same, _⟩ | ⟨old, _⟩⟩ := at_updateLocks.mp locked
  · exact absurd (same.symm.trans unlock) locking
  · exact ⟨before, stored, old⟩

theorem apart_release (apart : Apart s) (unlock : request.lockType = .unlock) :
    Apart (s.release request) where
  live found := by
    rcases release_row found with same | ⟨before, _, rfl⟩
    · exact apart.live same
    · exact updateLocks_live before request.record
  bytes differ held held' :=
    apart.bytes differ (held_release held unlock) (held_release held' unlock)

theorem acquire_lookup (key : PlockKey) : (s.acquire request).plocks.lookup key =
      if key = request.key then
        some (updateLocks ((s.plocks.lookup request.key).getD []) request.record)
      else s.plocks.lookup key :=
  Keys.lookup_insert_eq _ _ _ _

theorem acquire_live (live : ∀ {key records}, s.plocks.lookup key = some records → AllLive records)
    {key : PlockKey} {records : List PlockRecord}
    (found : (s.acquire request).plocks.lookup key = some records) : AllLive records := by
  rw [acquire_lookup] at found
  split at found
  · cases found
    exact updateLocks_live _ _
  · exact live found

theorem held_getD : At ((s.plocks.lookup (inode, holder)).getD []) lockType byte ↔
      Held s inode holder lockType byte := by
  unfold Held
  cases found : s.plocks.lookup (inode, holder) with
  | none => simp
  | some records => simp

/-- The requester gains its range and keeps its other bytes. -/
theorem held_acquire_self :
    Held (s.acquire request) request.inode request.holder lockType byte ↔ lockType ≠ .unlock ∧
      ((request.lockType = lockType ∧ Covers request.range byte) ∨
        (Held s request.inode request.holder lockType byte ∧ ¬ Covers request.range byte)) := by
  have row : (s.acquire request).plocks.lookup (request.inode, request.holder) =
      some (updateLocks ((s.plocks.lookup (request.inode, request.holder)).getD [])
        request.record) := by
    rw [acquire_lookup, if_pos (by rfl)]
    rfl
  rw [← held_getD, row, Option.getD_some, at_updateLocks, held_getD]
  rfl

theorem held_acquire_other (other : (inode, holder) ≠ request.key) :
    Held (s.acquire request) inode holder lockType byte ↔ Held s inode holder lockType byte := by
  unfold Held
  rw [acquire_lookup, if_neg other]

/-- Another holder has a conflicting lock in the requested range. -/
def Contended (s : LockTables) (request : LockRequest) : Prop :=
  ∃ holder lockType byte, holder ≠ request.holder ∧ Covers request.range byte ∧
    Held s request.inode holder lockType byte ∧ Conflicting request.lockType lockType

theorem apart_acquire_iff (apart : Apart s) (locking : request.lockType ≠ .unlock) :
    Apart (s.acquire request) ↔ ¬ Contended s request := by
  constructor
  · rintro exclusive ⟨holder, lockType, byte, other, covers, held, conflict⟩
    have mine : Held (s.acquire request) request.inode request.holder request.lockType byte :=
      held_acquire_self.mpr ⟨locking, .inl ⟨rfl, covers⟩⟩
    have theirs : Held (s.acquire request) request.inode holder lockType byte :=
      (held_acquire_other fun same => other (congrArg Prod.snd same)).mpr held
    exact exclusive.bytes other.symm mine theirs conflict
  intro free
  -- what the requester holds afterwards excludes what the others hold
  have mine : ∀ holder lockType lockType' byte, holder ≠ request.holder →
      Held (s.acquire request) request.inode request.holder lockType byte →
      Held s request.inode holder lockType' byte → ¬ Conflicting lockType lockType' := by
    intro holder lockType lockType' byte other held held' conflict
    obtain ⟨_, ⟨rfl, covers⟩ | ⟨old, _⟩⟩ := held_acquire_self.mp held
    · exact free ⟨holder, lockType', byte, other, covers, held', conflict⟩
    · exact apart.bytes other.symm old held' conflict
  refine ⟨acquire_live apart.live, ?_⟩
  intro inode holder holder' lockType lockType' byte differ held held' conflict
  by_cases first : (inode, holder) = request.key
  · obtain ⟨rfl, rfl⟩ := Prod.mk.inj first
    have elsewhere : (request.inode, holder') ≠ request.key :=
      fun same => differ (congrArg Prod.snd same).symm
    rw [held_acquire_other elsewhere] at held'
    exact mine holder' _ _ byte differ.symm held held' conflict
  rw [held_acquire_other first] at held
  by_cases second : (inode, holder') = request.key
  · obtain ⟨rfl, rfl⟩ := Prod.mk.inj second
    exact mine holder _ _ byte differ held' held (Or.symm conflict)
  · rw [held_acquire_other second] at held'
    exact apart.bytes differ held held' conflict

/-- No record of another holder stands against the request. -/
def Clear (s : LockTables) (request : LockRequest) : Prop := ∀ holder records,
    holder ≠ request.holder → s.plocks.lookup (request.inode, holder) = some records →
    ∀ record ∈ records, Conflicting request.lockType record.lockType →
      request.range.overlaps record.lockRange = false

theorem conflictFound_eq_false_iff : s.conflictFound request = false ↔ Clear s request := by
  rw [← Bool.not_eq_true, LockTables.conflictFound, Keys.any_others_iff]
  simp only [checkConflict, Clear, Conflicting, FileLockRange.overlaps, List.any_eq_true]
  grind

/-- The check is exact for requests of at least a byte. -/
theorem conflictFound_iff_contended (apart : Apart s)
    (nonempty : request.range.start < request.range.stop) :
    s.conflictFound request = true ↔ Contended s request := by
  unfold LockTables.conflictFound
  rw [Keys.any_others_iff]
  constructor
  · rintro ⟨holder, other, records, found, conflict⟩
    obtain ⟨byte, lockType, covers, locked, excludes⟩ :=
      (checkConflict_iff nonempty (apart.live found)).mp conflict
    exact ⟨holder, lockType, byte, other, covers, ⟨records, found, locked⟩, excludes⟩
  rintro ⟨holder, lockType, byte, other, covers, ⟨records, found, locked⟩, excludes⟩
  exact ⟨holder, other, records, found, (checkConflict_iff nonempty (apart.live found)).mpr
    ⟨byte, lockType, covers, locked, excludes⟩⟩

/-- A request for no byte contends with nobody. -/
theorem not_contended_of_empty (empty : ¬ request.range.start < request.range.stop) :
    ¬ Contended s request := by
  rintro ⟨holder, lockType, byte, _, covers, _⟩
  exact empty (lt_of_le_of_lt covers.1 covers.2)

/-! ### Runs -/

theorem trySetPlock_eq (stored : s.files request.inode = true) : s.trySetPlock request =
    if request.lockType = .unlock then .ok (s.release request)
    else if s.conflictFound request = false then .ok (s.acquire request)
    else .error (.lockConflict request.inode request.holder.2 request.range) := by
  unfold LockTables.trySetPlock
  simp only [stored]
  by_cases unlock : request.lockType = .unlock
  · simp only [unlock]
    rfl
  by_cases free : s.conflictFound request = false
  · simp only [free]
    rfl
  · simp only [free]
    rfl

section

variable (apart : Apart s)

include apart

theorem apart_trySetPlock (ok : s.trySetPlock request = .ok s') : Apart s' := by
  by_cases stored : s.files request.inode = true
  · rw [trySetPlock_eq stored] at ok
    split at ok
    · rename_i unlock
      cases ok
      exact apart_release apart unlock
    rename_i locking
    split at ok
    · rename_i free
      cases ok
      rw [apart_acquire_iff apart locking]
      intro contended
      by_cases nonempty : request.range.start < request.range.stop
      · rw [(conflictFound_iff_contended apart nonempty).mpr contended] at free
        cases free
      · exact not_contended_of_empty nonempty contended
    · cases ok
  · simp only [LockTables.trySetPlock, Guard.bind_eq_ok, Guard.check_eq_ok, stored, false_and,
      exists_false, Bool.false_eq_true] at ok

theorem apart_shutdown {sid : Sid} (ok : s.shutdownSession sid = .ok s') : Apart s' := by
  simp only [LockTables.shutdownSession, Guard.bind_eq_ok, Guard.check_eq_ok, Guard.pure_eq_ok,
    exists_const] at ok
  obtain ⟨_, rfl⟩ := ok
  have kept : ∀ {key records},
      (Keys.remove (fun key : PlockKey => key.2.1 = sid) s.plocks).lookup key = some records →
      s.plocks.lookup key = some records :=
    fun found => (Keys.mem_remove _ _ found).2
  constructor
  · exact fun found => apart.live (kept found)
  rintro inode holder holder' lockType lockType' byte differ ⟨records, found, locked⟩
    ⟨records', found', locked'⟩
  exact apart.bytes differ ⟨records, kept found, locked⟩ ⟨records', kept found', locked'⟩

theorem apart_committed {transaction : Except LockError LockTables}
    (keeps : ∀ s', transaction = .ok s' → Apart s') : Apart (committed s transaction) := by
  unfold committed
  split
  · exact keeps _ rfl
  · exact apart

theorem apart_lockStep {action : LockAction} (taken : lockStep s action = some s') : Apart s' := by
  cases action with
  | request request =>
    cases taken
    exact apart_committed apart fun _ ok => apart_trySetPlock apart ok
  | shutdown sid =>
    cases taken
    exact apart_committed apart fun _ ok => apart_shutdown apart ok
  | start | file =>
    cases taken
    exact ⟨apart.live, apart.bytes⟩

end

theorem apart_noLocks : Apart noLocks where
  live found := by cases found
  bytes := by
    rintro inode holder holder' lockType lockType' byte differ ⟨records, found, _⟩
    cases found

theorem apart_run {actions : List LockAction} (run : exec lockStep noLocks actions = some s) :
    Apart s :=
  Run.invariant (fun _ _ _ apart => apart_lockStep apart) apart_noLocks run

/-- The request is refused exactly when granting it would break the exclusion. -/
def RefusedRightly (s : LockTables) (request : LockRequest) : Prop :=
  (∃ error, s.trySetPlock request = .error error) ↔ ¬ Exclusive (s.granted request)

/-- In every run the locks exclude each other. A request on a stored file is refused rightly, unless
it asks for no byte but its range still meets a conflicting record of another holder. -/
theorem posix_locks_exclusive {actions : List LockAction} {final : LockTables}
    (run : exec lockStep noLocks actions = some final) :
    Exclusive final ∧ ∀ request, final.files request.inode = true →
      (RefusedRightly final request ↔ request.lockType = .unlock ∨
        request.range.start < request.range.stop ∨ Clear final request) := by
  have apart := apart_run run
  refine ⟨exclusive_of_apart apart, fun request stored => ?_⟩
  unfold RefusedRightly LockTables.granted
  rw [trySetPlock_eq stored, ← conflictFound_eq_false_iff]
  by_cases unlock : request.lockType = .unlock
  · have released := exclusive_of_apart (apart_release apart unlock)
    simp [unlock, released]
  rw [if_neg unlock, if_neg unlock, exclusive_iff_bytes (acquire_live apart.live),
    apart_acquire_iff apart unlock]
  by_cases nonempty : request.range.start < request.range.stop
  · rw [← conflictFound_iff_contended apart nonempty]
    cases found : final.conflictFound request <;> simp [nonempty]
  · have free := not_contended_of_empty (s := final) nonempty
    cases found : final.conflictFound request <;> simp [unlock, nonempty, free]

/-- A write lock on ten bytes, and another session's read lock behind it. -/
def twoSessions : List LockAction :=
  [.file 2 true, .request ⟨2, (1, 0), .write, ⟨0, 10⟩, 7⟩, .request ⟨2, (2, 0), .read, ⟨5, 20⟩, 8⟩,
    .request ⟨2, (1, 0), .unlock, ⟨4, 10⟩, 7⟩, .request ⟨2, (2, 0), .read, ⟨5, 20⟩, 8⟩]

theorem posix_locks_exclusive_downgraded : ∃ final,
    exec lockStep noLocks twoSessions = some final ∧ Exclusive final ∧
    final.plocks.lookup (2, (2, 0)) = some [⟨.read, 8, ⟨5, 20⟩⟩] ∧
    RefusedRightly final ⟨2, (1, 0), .write, ⟨0, 6⟩, 7⟩ :=
  have run : exec lockStep noLocks twoSessions = some _ := rfl
  ⟨_, run, (posix_locks_exclusive run).1, by decide,
    ((posix_locks_exclusive run).2 ⟨2, (1, 0), .write, ⟨0, 6⟩, 7⟩ rfl).mpr
      (.inr (.inl (by decide)))⟩

/-- A request for no byte inside another session's lock is refused, although it would change
nothing. -/
theorem empty_request_refused : ∃ final, exec lockStep noLocks
      [.file 2 true, .request ⟨2, (1, 0), .write, ⟨0, 10⟩, 7⟩] = some final ∧
    final.trySetPlock ⟨2, (2, 0), .write, ⟨5, 5⟩, 8⟩ = .error (.lockConflict 2 0 ⟨5, 5⟩) ∧
    Exclusive (final.granted ⟨2, (2, 0), .write, ⟨5, 5⟩, 8⟩) := by
  have run : exec lockStep noLocks
      [.file 2 true, .request ⟨2, (1, 0), .write, ⟨0, 10⟩, 7⟩] = some _ := rfl
  refine ⟨_, run, rfl, ?_⟩
  have apart := apart_run run
  refine exclusive_of_apart ((apart_acquire_iff apart (by decide)).mpr ?_)
  exact not_contended_of_empty (by decide)

end BrewFs.Meta.Database
