import BrewFs.Library.Guard
import BrewFs.Library.Keys
import BrewFs.Library.Run
import BrewFs.Meta.FileLock

/-! Session locks of the Redis store: the POSIX and BSD lock scripts, and the script that releases
the locks of a dead session. -/

namespace BrewFs.Meta.Redis.SessionLocks

open List
open Guard (check)
open Function (update update_of_ne update_self)

/-- Lua numbers are doubles: what becomes of an integer argument, and of a number written into a
JSON value and read back. -/
structure LuaNumbers where
  tonumber : Nat → Nat
  stored : Nat → Nat

/-! ### The functions of `SET_PLOCK_LUA` -/

namespace Lua

def checkConflict (newType : FileLockType) (new : FileLockRange) (records : List PlockRecord) :
    Bool :=
  records.any fun r => (newType = .write || r.lockType = .write) && new.overlaps r.lockRange

variable (new : PlockRecord) (acc : List PlockRecord × Bool)

/-- Insert the new lock once. -/
def insertNew : List PlockRecord × Bool :=
  if acc.2 then acc else (acc.1 ++ [new], true)

/-- One round of the first loop of `update_locks`. -/
def updateStep (r : PlockRecord) : List PlockRecord × Bool :=
  if r.lockRange.stop ≤ new.lockRange.start then (acc.1 ++ [r], acc.2)
  else if r.lockRange.start ≥ new.lockRange.stop then
    let acc := insertNew new acc
    (acc.1 ++ [r], acc.2)
  else
    let acc :=
      if r.lockRange.start < new.lockRange.start then
        (acc.1 ++ [r.cut r.lockRange.start new.lockRange.start], acc.2)
      else acc
    let acc := insertNew new acc
    if r.lockRange.stop > new.lockRange.stop then
      (acc.1 ++ [r.cut new.lockRange.stop r.lockRange.stop], acc.2)
    else acc

def keeps (r : PlockRecord) : Bool := r.lockType ≠ .unlock && r.lockRange.start < r.lockRange.stop

/-- One round of the merge; the list has its last record first. -/
def mergeStep (merged : List PlockRecord) (r : PlockRecord) : List PlockRecord :=
  match merged with
  | last :: earlier =>
    if last.lockType = r.lockType ∧ last.pid = r.pid ∧ last.lockRange.stop = r.lockRange.start then
      last.cut last.lockRange.start r.lockRange.stop :: earlier
    else r :: last :: earlier
  | [] => [r]

def updateLocks (existing : List PlockRecord) (new : PlockRecord) : List PlockRecord :=
  let result := (insertNew new (existing.foldl (updateStep new) ([], false))).1
  ((result.filter keeps).foldl mergeStep []).reverse

section

variable {new : PlockRecord} {lua rust : List PlockRecord × Bool}

/-- The loops of the script and of `file_lock.rs` have built the same records, up to the filtered
ones. -/
structure Agree (new : PlockRecord) (lua rust : List PlockRecord × Bool) : Prop where
  kept : lua.1.filter keeps = rust.1.filter PlockRecord.live
  inserted : new.live = true → lua.2 = rust.2

namespace Agree

section

variable (agree : Agree new lua rust)

include agree

theorem concat (r : PlockRecord) : Agree new (lua.1 ++ [r], lua.2) (rust.1 ++ [r], rust.2) where
  kept := by
    rw [filter_append, filter_append, agree.kept]
    rfl
  inserted := agree.inserted

theorem insertNew : Agree new (insertNew new lua) (new.pushNew rust) := by
  simp only [Lua.insertNew, PlockRecord.pushNew, ← PlockRecord.live_iff]
  cases counts : new.live with
  | true =>
    rw [agree.inserted counts]
    cases rust.2 with
    | true => exact agree
    | false => exact { agree.concat new with inserted := fun _ => rfl }
  | false =>
    -- Only the script inserts such a lock, and filters it out.
    refine ⟨?_, fun live => absurd (counts.symm.trans live) nofun⟩
    rw [if_neg (by simp : ¬ (rust.2 = false ∧ false = true))]
    split
    · exact agree.kept
    have dropped : ¬ keeps new = true := ne_true_of_eq_false counts
    rw [filter_append, filter_cons_of_neg dropped]
    exact (append_nil _).trans agree.kept

theorem step (r : PlockRecord) : Agree new (updateStep new lua r) (new.updateStep rust r) := by
  unfold updateStep PlockRecord.updateStep
  split
  · exact agree.concat r
  split
  · exact agree.insertNew.concat r
  let before := r.lockRange.start < new.lockRange.start
  let left := r.cut r.lockRange.start new.lockRange.start
  have front : Agree new (if before then (lua.1 ++ [left], lua.2) else lua)
      (if before then (rust.1 ++ [left], rust.2) else rust) := by
    split
    · exact agree.concat left
    · exact agree
  dsimp only
  split
  · exact front.insertNew.concat _
  · exact front.insertNew

theorem foldl (records : List PlockRecord) :
    Agree new (records.foldl (updateStep new) lua) (records.foldl new.updateStep rust) := by
  induction records generalizing lua rust with
  | nil => exact agree
  | cons r rest ih => exact ih (agree.step r)

end

end Agree

/-- The script computes what `PlockRecord::update_locks` and `check_conflict` compute. -/
theorem script_agrees (records : List PlockRecord) (new : PlockRecord) (lockType : FileLockType)
    (range : FileLockRange) : updateLocks records new = PlockRecord.updateLocks records new ∧
      checkConflict lockType range records = PlockRecord.checkConflict lockType range records := by
  constructor
  · have start : Agree new ([], false) ([], false) := ⟨rfl, fun _ => rfl⟩
    simp only [updateLocks]
    rw [(start.foldl records).insertNew.kept]
    rfl
  · simp only [checkConflict, PlockRecord.checkConflict, FileLockRange.overlaps, Bool.and_assoc]

end

end Lua

/-! ### The store -/

/-- The value of a field of `plock:<inode>`. -/
structure PlockValue where
  epoch : Nat
  records : List PlockRecord
deriving DecidableEq

/-- `"R"` and `"W"` -/
inductive FlockMode where
  | shared
  | exclusive
deriving DecidableEq

/-- The value of a field of `flock:<inode>`. -/
structure FlockValue where
  epoch : Nat
  val : FlockMode
deriving DecidableEq

structure LockStore where
  plocks : AList fun _ : PlockKey => PlockValue
  flocks : AList fun _ : PlockKey => FlockValue
  /-- The inventory of a session: the inodes it holds locks on. -/
  locked : Sid → List Nat
  /-- When a session expires. -/
  sessions : Sid → Option Int

structure PlockRequest where
  inode : Nat
  holder : Holder
  epoch : Nat
  lockType : FileLockType
  range : FileLockRange
  pid : Nat

structure FlockRequest where
  inode : Nat
  holder : Holder
  epoch : Nat
  lockType : FileLockType

namespace LockStore

variable (s : LockStore)

/-- `SADD` of the inode to the session's inventory. -/
@[simps -fullyApplied] def track (sid : Sid) (inode : Nat) : LockStore :=
  { s with locked := update s.locked sid ((s.locked sid).insert inode) }

/-- Some field of the inode's hash starts with the session. -/
def owns {ν : Type} (table : AList fun _ : PlockKey => ν) (sid : Sid) (inode : Nat) : Bool :=
  table.keys.any fun key => key.1 = inode && key.2.1 = sid

/-- `SREM` of the inode, unless the session still has a lock on it. -/
def untrack (sid : Sid) (inode : Nat) : LockStore :=
  if owns s.plocks sid inode || owns s.flocks sid inode then s
  else { s with locked := update s.locked sid ((s.locked sid).filter (· ≠ inode)) }

variable (key : PlockKey)

@[simps -fullyApplied] def setPlock (value : PlockValue) : LockStore :=
  { s with plocks := s.plocks.insert key value }

@[simps -fullyApplied] def deletePlock : LockStore :=
  { s with plocks := s.plocks.erase key }

@[simps -fullyApplied] def setFlock (value : FlockValue) : LockStore :=
  { s with flocks := s.flocks.insert key value }

@[simps -fullyApplied] def deleteFlock : LockStore :=
  { s with flocks := s.flocks.erase key }

/-- An acquisition needs a registered session; an unlock does not. -/
def admitted (lockType : FileLockType) (sid : Sid) : Prop :=
  lockType = .unlock ∨ (s.sessions sid).isSome = true

instance (lockType : FileLockType) (sid : Sid) : Decidable (s.admitted lockType sid) :=
  inferInstanceAs (Decidable (_ ∨ _))

end LockStore

namespace PlockRequest

def key (request : PlockRequest) : PlockKey := (request.inode, request.holder)

variable (numbers : LuaNumbers) (request : PlockRequest)

/-- The range as the script reads it. -/
def luaRange : FileLockRange :=
  ⟨numbers.tonumber request.range.start, numbers.tonumber request.range.stop⟩

/-- `new_lock` -/
def record : PlockRecord :=
  ⟨request.lockType, request.pid, request.luaRange numbers⟩

/-- The value the script writes for these records. -/
def value (records : List PlockRecord) :
    PlockValue where
  epoch := numbers.stored (numbers.tonumber request.epoch)
  records := records.map fun r =>
    r.cut (numbers.stored r.lockRange.start) (numbers.stored r.lockRange.stop)

end PlockRequest

namespace LockStore

variable (numbers : LuaNumbers) (s : LockStore) (request : PlockRequest)

def plockConflict : Bool :=
  s.plocks.entries.any fun field =>
    field.1.1 = request.inode && field.1.2 ≠ request.holder &&
      Lua.checkConflict request.lockType (request.luaRange numbers) field.2.records

/-- The `UnLock` branch of the script. -/
def releasePlock : LockStore :=
  match s.plocks.lookup request.key with
  | none => s
  | some current =>
    if numbers.tonumber request.epoch < current.epoch then s
    else
      match Lua.updateLocks current.records (request.record numbers) with
      | [] => (s.deletePlock request.key).untrack request.holder.1 request.inode
      | left => s.setPlock request.key (request.value numbers left)

/-- What a granted POSIX lock writes. -/
def acquirePlock : LockStore :=
  let existing := ((s.plocks.lookup request.key).map PlockValue.records).getD []
  let records := Lua.updateLocks existing (request.record numbers)
  (s.setPlock request.key (request.value numbers records)).track request.holder.1 request.inode

/-- `try_set_plock`, the script `SET_PLOCK_LUA` -/
def trySetPlock : Except LockError LockStore := do
  check (s.admitted request.lockType request.holder.1) (LockError.sessionNotFound request.holder.1)
  if request.lockType = .unlock then return s.releasePlock numbers request
  else do
    check (s.plockConflict numbers request = false)
      (LockError.lockConflict request.inode request.holder.2 request.range)
    return s.acquirePlock numbers request

end LockStore

namespace FlockRequest

def key (request : FlockRequest) : PlockKey := (request.inode, request.holder)

def value (numbers : LuaNumbers) (request : FlockRequest) : FlockValue where
  epoch := numbers.stored (numbers.tonumber request.epoch)
  val := if request.lockType = .write then .exclusive else .shared

/-- A write lock conflicts with every lock, a read lock with a write lock. -/
def conflictsWith (request : FlockRequest) (other : FlockValue) : Bool :=
  other.val = .exclusive || (request.lockType = .write && other.val = .shared)

end FlockRequest

namespace LockStore

variable (numbers : LuaNumbers) (s : LockStore) (request : FlockRequest)

def flockConflict : Bool :=
  s.flocks.entries.any fun field =>
    field.1.1 = request.inode && field.1.2 ≠ request.holder && request.conflictsWith field.2

/-- The `UnLock` branch of the script. -/
def releaseFlock : LockStore :=
  match s.flocks.lookup request.key with
  | none => s
  | some current =>
    if numbers.tonumber request.epoch < current.epoch then s
    else (s.deleteFlock request.key).untrack request.holder.1 request.inode

/-- What a granted BSD lock writes. -/
def acquireFlock : LockStore :=
  (s.setFlock request.key (request.value numbers)).track request.holder.1 request.inode

/-- One attempt of `set_flock`, the script `flock_lua` -/
def trySetFlock : Except LockError LockStore := do
  check (s.admitted request.lockType request.holder.1) (LockError.sessionNotFound request.holder.1)
  if request.lockType = .unlock then return s.releaseFlock numbers request
  else do
    check (s.flockConflict request = false)
      (LockError.lockConflict request.inode request.holder.2 ⟨0, 2 ^ 64 - 1⟩)
    return s.acquireFlock numbers request

/-- The expiry check of `CLEANUP_SESSION_LUA`; a shutdown has no cutoff. -/
def isDead (sid : Sid) (cutoff : Option Int) : Bool :=
  cutoff.all fun limit => (s.sessions sid).any fun expiry => expiry ≤ limit

/-- `HDEL` of the session's fields of `plock:<inode>`. -/
def dropFields (sid : Sid) (plocks : AList fun _ : PlockKey => PlockValue) (inode : Nat) :
    AList fun _ : PlockKey => PlockValue :=
  Keys.remove (fun key => key.1 = inode && key.2.1 = sid) plocks

/-- `cleanup_session_by_id`, the script `CLEANUP_SESSION_LUA` -/
def cleanupSessionById (sid : Sid) (cutoff : Option Int) : LockStore :=
  if s.isDead sid cutoff then
    { s with
      plocks := (s.locked sid).foldl (dropFields sid) s.plocks
      locked := update s.locked sid []
      sessions := update s.sessions sid none }
  else s

end LockStore

inductive LockAction where
  | startSession (sid : Sid) (expire : Int)
  /-- A heartbeat, `REFRESH_SESSION_LUA`. -/
  | refreshSession (sid : Sid) (expire : Int)
  | setPlock (request : PlockRequest)
  | setFlock (request : FlockRequest)
  | cleanup (sid : Sid) (cutoff : Option Int)

/-- A refused script writes nothing. -/
def settle (s : LockStore) (script : Except LockError LockStore) : LockStore :=
  match script with
  | .ok s' => s'
  | .error _ => s

def lockStep (numbers : LuaNumbers) (s : LockStore) : LockAction → Option LockStore
  | .startSession sid expire =>
    some { s with sessions := update s.sessions sid (some expire) }
  | .refreshSession sid expire =>
    if (s.sessions sid).isSome then
      some { s with sessions := update s.sessions sid (some expire) }
    else some s
  | .setPlock request => some (settle s (s.trySetPlock numbers request))
  | .setFlock request => some (settle s (s.trySetFlock numbers request))
  | .cleanup sid cutoff => some (s.cleanupSessionById sid cutoff)

def noLocks : LockStore := ⟨∅, ∅, fun _ => [], fun _ => none⟩

/-! ### The inventory covers the POSIX locks -/

variable {numbers : LuaNumbers} {s s' released acquired : LockStore}

/-- Every field of a POSIX lock is on an inode of its session's inventory. -/
def Inventoried (s : LockStore) : Prop :=
  ∀ inode holder value, s.plocks.lookup (inode, holder) = some value → inode ∈ s.locked holder.1

variable {sid : Sid} {inode : Nat}

theorem owns_eq_false {ν : Type} {table : AList fun _ : PlockKey => ν} :
    LockStore.owns table sid inode = false ↔
      ∀ holder : Holder, holder.1 = sid → table.lookup (inode, holder) = none := by
  unfold LockStore.owns
  rw [any_eq_false]
  constructor
  · rintro absent holder rfl
    rw [AList.lookup_eq_none]
    intro present
    exact absent _ (AList.mem_keys.mp present) (by simp)
  rintro absent ⟨other, holder⟩ present matched
  simp only [Bool.and_eq_true, decide_eq_true_iff] at matched
  obtain ⟨rfl, same⟩ := matched
  exact AList.lookup_eq_none.mp (absent holder same) (AList.mem_keys.mpr present)

theorem mem_track {other : Nat} {holder : Holder} (listed : other ∈ s.locked holder.1) :
    other ∈ (s.track sid inode).locked holder.1 := by
  rw [LockStore.track_locked]
  by_cases same : holder.1 = sid
  · rw [same, update_self]
    exact mem_insert_of_mem (same ▸ listed)
  · rwa [update_of_ne same]

theorem granted_ends {admitted unlock free : Prop} [Decidable admitted] [Decidable unlock]
    [Decidable free] {refused conflict : LockError}
    (ok : (do
      check admitted refused
      if unlock then return released
      else do
        check free conflict
        return acquired) = Except.ok s') : s' = released ∨ s' = acquired := by
  simp only [Guard.bind_eq_ok, Guard.check_eq_ok, exists_const] at ok
  obtain ⟨_, ok⟩ := ok
  split at ok
  · exact .inl ((Guard.pure_eq_ok _ _).mp ok).symm
  · simp only [Guard.bind_eq_ok, Guard.check_eq_ok, Guard.pure_eq_ok, exists_const] at ok
    exact .inr ok.2.symm

/-- An accepted request without a conflict is granted. -/
theorem granted_free {admitted unlock free : Prop} [Decidable admitted] [Decidable unlock]
    [Decidable free] {refused conflict : LockError} (allowed : admitted) (unopposed : free) :
    ∃ granted, (do
      check admitted refused
      if unlock then return released
      else do
        check free conflict
        return acquired) = Except.ok granted := by
  simp only [check, allowed, if_true]
  split
  · exact ⟨_, rfl⟩
  · exact ⟨_, rfl⟩

theorem lookup_foldl_dropFields (inodes : List Nat) (key : PlockKey) :
    ∀ plocks : AList fun _ : PlockKey => PlockValue,
      (inodes.foldl (LockStore.dropFields sid) plocks).lookup key =
        if key.1 ∈ inodes ∧ key.2.1 = sid then none else plocks.lookup key := by
  induction inodes with
  | nil => simp
  | cons inode rest ih =>
    intro plocks
    rw [foldl_cons, ih, LockStore.dropFields, Keys.lookup_remove]
    by_cases same : key.2.1 = sid
    · by_cases first : key.1 = inode
      · simp [same, first]
      · simp [first]
    · simp [same]

variable {request : PlockRequest}

section

variable (covered : Inventoried s) {cutoff : Option Int}

include covered

/-- The inode leaves the inventory only when no field of the session needs it. -/
theorem inventoried_untrack : Inventoried (s.untrack sid inode) := by
  unfold LockStore.untrack
  split
  · exact covered
  rename_i unowned
  rw [Bool.or_eq_true, not_or, Bool.not_eq_true, owns_eq_false] at unowned
  intro other holder value found
  have before := covered other holder value found
  show other ∈ update s.locked sid ((s.locked sid).filter (· ≠ inode)) holder.1
  by_cases same : holder.1 = sid
  · rw [same, update_self, mem_filter, decide_eq_true_iff]
    refine ⟨same ▸ before, ?_⟩
    rintro rfl
    have absent := unowned.1 holder same
    rw [show s.plocks.lookup (other, holder) = some value from found] at absent
    cases absent
  · rw [update_of_ne same]
    exact before

theorem inventoried_releasePlock : Inventoried (s.releasePlock numbers request) := by
  unfold LockStore.releasePlock
  split
  · exact covered
  rename_i current stored
  split
  · exact covered
  split
  · apply inventoried_untrack
    intro inode holder value found
    exact covered inode holder value (Keys.mem_erase found).2
  -- the field was there, so its inode already is in the inventory
  intro inode holder value found
  rcases Keys.mem_insert found with ⟨same, _⟩ | ⟨_, old⟩
  · rw [← same] at stored
    exact covered inode holder current stored
  · exact covered inode holder value old

theorem inventoried_acquirePlock : Inventoried (s.acquirePlock numbers request) := by
  intro inode holder value found
  unfold LockStore.acquirePlock at found ⊢
  rcases Keys.mem_insert found with ⟨same, _⟩ | ⟨_, old⟩
  · obtain ⟨rfl, rfl⟩ := Prod.mk.inj same
    rw [LockStore.track_locked, update_self]
    exact mem_insert_self
  · exact mem_track (covered inode holder value old)

theorem inventoried_settle {script : Except LockError LockStore}
    (keeps : ∀ s', script = .ok s' → Inventoried s') : Inventoried (settle s script) := by
  unfold settle
  split
  · exact keeps _ rfl
  · exact covered

/-! ### Cleanup -/

theorem cleanup_lookup (dead : s.isDead sid cutoff = true) (holder : Holder) :
    (s.cleanupSessionById sid cutoff).plocks.lookup (inode, holder) =
      if holder.1 = sid then none else s.plocks.lookup (inode, holder) := by
  unfold LockStore.cleanupSessionById
  rw [if_pos dead]
  rw [lookup_foldl_dropFields]
  by_cases same : holder.1 = sid
  · split
    · rfl
    rename_i unlisted
    -- what the inventory does not list, the session does not lock
    cases found : s.plocks.lookup (inode, holder) with
    | none => rfl
    | some value => exact absurd ⟨same ▸ covered inode holder value found, same⟩ unlisted
  · simp [same]

theorem inventoried_cleanup : Inventoried (s.cleanupSessionById sid cutoff) := by
  by_cases dead : s.isDead sid cutoff = true
  · intro inode holder value found
    rw [cleanup_lookup covered dead] at found
    split at found
    · cases found
    rename_i other
    unfold LockStore.cleanupSessionById
    rw [if_pos dead]
    show inode ∈ update s.locked sid [] holder.1
    rw [update_of_ne other]
    exact covered inode holder value found
  · unfold LockStore.cleanupSessionById
    rw [if_neg dead]
    exact covered

theorem inventoried_lockStep {action : LockAction}
    (taken : lockStep numbers s action = some s') : Inventoried s' := by
  cases action with
  | startSession sid expire =>
    cases taken
    exact covered
  | refreshSession sid expire =>
    simp only [lockStep] at taken
    split at taken <;> cases taken
    · exact covered
    · exact covered
  | setPlock request =>
    cases taken
    apply inventoried_settle covered
    intro after ok
    obtain rfl | rfl := granted_ends ok
    · exact inventoried_releasePlock covered
    · exact inventoried_acquirePlock covered
  | setFlock request =>
    cases taken
    apply inventoried_settle covered
    intro after ok
    obtain rfl | rfl := granted_ends ok
    · unfold LockStore.releaseFlock
      split
      · exact covered
      split
      · exact covered
      · exact inventoried_untrack covered
    · exact fun other holder value found => mem_track (covered other holder value found)
  | cleanup sid cutoff =>
    cases taken
    exact inventoried_cleanup covered

end

/-! ### What a cleanup should do -/

/-- The holder has a POSIX lock that conflicts with the request. -/
def PlockConflict (numbers : LuaNumbers) (s : LockStore) (request : PlockRequest)
    (holder : Holder) : Prop :=
  holder ≠ request.holder ∧ ∃ value, s.plocks.lookup (request.inode, holder) = some value ∧
    Lua.checkConflict request.lockType (request.luaRange numbers) value.records = true

/-- The holder has a BSD lock that conflicts with the request. -/
def FlockConflict (s : LockStore) (request : FlockRequest) (holder : Holder) : Prop :=
  holder ≠ request.holder ∧ ∃ value, s.flocks.lookup (request.inode, holder) = some value ∧
    request.conflictsWith value = true

theorem plockConflict_iff : s.plockConflict numbers request = true ↔
    ∃ holder, PlockConflict numbers s request holder :=
  Keys.any_others_iff s.plocks _ _ fun value =>
    Lua.checkConflict request.lockType (request.luaRange numbers) value.records

/-- All the session held is released, nothing else is, and whoever waited for it alone is served. -/
structure Released (numbers : LuaNumbers) (s s' : LockStore) (sid : Sid) : Prop where
  plocks : ∀ inode holder, holder.1 = sid → s'.plocks.lookup (inode, holder) = none
  flocks : ∀ inode holder, holder.1 = sid → s'.flocks.lookup (inode, holder) = none
  otherPlocks : ∀ inode holder, holder.1 ≠ sid →
    s'.plocks.lookup (inode, holder) = s.plocks.lookup (inode, holder)
  otherFlocks : ∀ inode holder, holder.1 ≠ sid →
    s'.flocks.lookup (inode, holder) = s.flocks.lookup (inode, holder)
  plockGranted : ∀ request, s'.admitted request.lockType request.holder.1 →
    (∀ holder, PlockConflict numbers s request holder → holder.1 = sid) →
    ∃ granted, s'.trySetPlock numbers request = .ok granted
  flockGranted : ∀ request, s'.admitted request.lockType request.holder.1 →
    (∀ holder, FlockConflict s request holder → holder.1 = sid) →
    ∃ granted, s'.trySetFlock numbers request = .ok granted

/-- The cleanup of a dead session releases its locks exactly when it holds no BSD lock. -/
theorem cleanup_releases_iff {actions : List LockAction} {sid : Sid} {cutoff : Option Int}
    (run : Run.exec (lockStep numbers) noLocks actions = some s) (dead : s.isDead sid cutoff = true)
    : Released numbers s (s.cleanupSessionById sid cutoff) sid ↔
      ∀ inode owner, s.flocks.lookup (inode, (sid, owner)) = none := by
  have covered : Inventoried s :=
    Run.invariant (fun _ _ _ covered taken => inventoried_lockStep covered taken)
      (fun _ _ _ found => by cases found) run
  have flocksKept : (s.cleanupSessionById sid cutoff).flocks = s.flocks := by
    unfold LockStore.cleanupSessionById
    split <;> rfl
  constructor
  · intro released inode owner
    rw [← flocksKept]
    exact released.flocks inode (sid, owner) rfl
  intro unheld
  have mine : ∀ inode (holder : Holder), holder.1 = sid →
      s.flocks.lookup (inode, holder) = none := by
    rintro inode ⟨_, owner⟩ rfl
    exact unheld inode owner
  constructor
  · intro inode holder same
    rw [cleanup_lookup covered dead, if_pos same]
  · intro inode holder same
    rw [flocksKept, mine inode holder same]
  · intro inode holder other
    rw [cleanup_lookup covered dead, if_neg other]
  · intro inode holder other
    rw [flocksKept]
  · intro request admitted only
    apply granted_free admitted
    rw [Bool.eq_false_iff, ne_eq, plockConflict_iff]
    -- a conflict after the cleanup is one from before, and not with the dead session
    rintro ⟨holder, other, value, found, conflict⟩
    rw [cleanup_lookup covered dead] at found
    split at found
    · cases found
    · rename_i alive
      exact alive (only holder ⟨other, value, found, conflict⟩)
  · intro request admitted only
    apply granted_free admitted
    rw [Bool.eq_false_iff]
    intro held
    obtain ⟨holder, other, value, found, conflict⟩ := (Keys.any_others_iff ..).mp held
    rw [flocksKept] at found
    have theirs := only holder ⟨other, value, found, conflict⟩
    rw [mine _ holder theirs] at found
    cases found

/-- Numbers small enough for a double to hold. -/
def exactNumbers : LuaNumbers := ⟨id, id⟩

/-- Two sessions; the first write-locks ten bytes of a file. -/
def plockHeld : List LockAction := [.startSession 1 100, .startSession 2 900,
    .setPlock ⟨7, (1, 0), 1, .write, ⟨0, 10⟩, 5⟩, .setPlock ⟨7, (2, 0), 2, .read, ⟨10, 20⟩, 6⟩]

theorem cleanup_releases_expired : ∃ s, Run.exec (lockStep exactNumbers) noLocks plockHeld =
    some s ∧ (∃ value, s.plocks.lookup (7, (1, 0)) = some value) ∧
    Released exactNumbers s (s.cleanupSessionById 1 (some 500)) 1 := by
  have run : Run.exec (lockStep exactNumbers) noLocks plockHeld = some _ := rfl
  refine ⟨_, run, ⟨_, rfl⟩, ?_⟩
  exact (cleanup_releases_iff run (by decide)).mpr fun _ _ => rfl

/-- A BSD lock outlives its session and keeps others out. -/
theorem cleanup_leaves_flock : ∃ s,
    Run.exec (lockStep exactNumbers) noLocks [.startSession 1 100, .startSession 2 900,
      .setFlock ⟨7, (1, 0), 1, .write⟩, .cleanup 1 (some 500)] = some s ∧
    s.flocks.lookup (7, (1, 0)) = some ⟨1, .exclusive⟩ ∧
    s.trySetFlock exactNumbers ⟨7, (2, 0), 2, .write⟩ =
      .error (.lockConflict 7 0 ⟨0, 2 ^ 64 - 1⟩) :=
  ⟨_, rfl, rfl, rfl⟩

end BrewFs.Meta.Redis.SessionLocks
