import BrewFs.Library.Keys
import BrewFs.Library.Run

/-! `HandleGate` of `vfs/handles.rs`: readers and writers of a handle, with writers first. -/

namespace BrewFs.Vfs.HandleGate

open Option
open Run (exec)

def u32Max : Nat := 2 ^ 32 - 1

structure GateState where
  readers : Nat
  writersWaiting : Nat
  writing : Bool
deriving DecidableEq, Repr

/-- Where a task is in the loop of `read_lock` or `write_lock`. `seen` counts the calls of
`notify_waiters` when its `Notified` was made: the await returns once there are more. -/
inductive Phase where
  | start
  | enabled (seen : Nat)
  | parked (seen : Nat)
deriving DecidableEq, Repr

/-- A writer in its loop holds an active `HandleWriteWaiter`. -/
inductive Task where
  | reader (phase : Phase)
  | writer (phase : Phase)
  | readGuard
  | writeGuard
deriving DecidableEq, Repr

structure System where
  gate : GateState
  notifications : Nat
  tasks : AList fun _ : Nat => Task

def initial : System := ⟨⟨0, 0, false⟩, 0, ∅⟩

namespace System

variable (s : System)

def set (id : Nat) (task : Task) : System := { s with tasks := s.tasks.insert id task }

def remove (id : Nat) : System := { s with tasks := s.tasks.erase id }

def notifyWaiters : System := { s with notifications := s.notifications + 1 }

def readUnlock : System :=
  let unlocked := { s with gate := { s.gate with readers := s.gate.readers - 1 } }
  if unlocked.gate.readers = 0 then unlocked.notifyWaiters else unlocked

def writeUnlock : System := { s with gate := { s.gate with writing := false } }.notifyWaiters

def waitingDec : System :=
  { s with gate := { s.gate with writersWaiting := s.gate.writersWaiting - 1 } }.notifyWaiters

/-- `HandleWriteWaiter::new` -/
def newWaiter : System :=
  { s with gate := { s.gate with writersWaiting := min (s.gate.writersWaiting + 1) u32Max } }

def addReader : System :=
  { s with gate := { s.gate with readers := min (s.gate.readers + 1) u32Max } }

/-- The count of waiting writers goes down by `wrapping_sub`. -/
def startWriting : System := { s with
    gate := { s.gate with
      writing := true
      writersWaiting :=
        if s.gate.writersWaiting = 0 then u32Max else s.gate.writersWaiting - 1 } }

end System

def GateState.admitsReader (gate : GateState) : Bool := !gate.writing && gate.writersWaiting == 0

def GateState.admitsWriter (gate : GateState) : Bool := gate.readers == 0 && !gate.writing

inductive Event where
  | read (id : Nat)
  | write (id : Nat)
  | step (id : Nat)
  | drop (id : Nat)
  | cancel (id : Nat)
deriving DecidableEq, Repr

variable (s : System) {event : Event} {id seen : Nat} {old : Task}

/-- A task goes on to its next lock of the mutex or its await. -/
def advance (id : Nat) : Task → Option System
  | .reader .start => some (s.set id (.reader (.enabled s.notifications)))
  | .reader (.enabled seen) =>
    if s.gate.admitsReader then some (s.addReader.set id .readGuard)
    else some (s.set id (.reader (.parked seen)))
  | .reader (.parked seen) =>
    if s.notifications = seen then none else some (s.set id (.reader .start))
  | .writer .start => some (s.set id (.writer (.enabled s.notifications)))
  | .writer (.enabled seen) =>
    if s.gate.admitsWriter then some (s.startWriting.set id .writeGuard)
    else some (s.set id (.writer (.parked seen)))
  | .writer (.parked seen) =>
    if s.notifications = seen then none else some (s.set id (.writer .start))
  | .readGuard | .writeGuard => none

/-- A guard is dropped. -/
def release (id : Nat) : Task → Option System
  | .readGuard => some (s.readUnlock.remove id)
  | .writeGuard => some (s.writeUnlock.remove id)
  | .reader _ | .writer _ => none

/-- A future is dropped at its await. -/
def cancelled (id : Nat) : Task → Option System
  | .reader (.parked _) => some (s.remove id)
  | .writer (.parked _) => some (s.waitingDec.remove id)
  | _ => none

def step : Event → Option System
  | .read id => if (s.tasks.lookup id).isNone then some (s.set id (.reader .start)) else none
  | .write id =>
    if (s.tasks.lookup id).isNone then some (s.newWaiter.set id (.writer .start)) else none
  | .step id => (s.tasks.lookup id).bind fun task => advance s id task
  | .drop id => (s.tasks.lookup id).bind fun task => release s id task
  | .cancel id => (s.tasks.lookup id).bind fun task => cancelled s id task

/-! ### Counting the tasks -/

def Task.isReadGuard : Task → Bool
  | .readGuard => true
  | _ => false

def Task.isWriteGuard : Task → Bool
  | .writeGuard => true
  | _ => false

def Task.isWriter : Task → Bool
  | .writer _ => true
  | _ => false

/-! ### What a step does -/

/-- A task at its await without a notification could not go on. -/
def Rests : Task → Prop
  | .reader .start | .writer .start | .readGuard | .writeGuard => True
  | .reader (.enabled seen) | .writer (.enabled seen) => seen ≤ s.notifications
  | .reader (.parked seen) =>
    seen ≤ s.notifications ∧ (seen = s.notifications → s.gate.admitsReader = false)
  | .writer (.parked seen) =>
    seen ≤ s.notifications ∧ (seen = s.notifications → s.gate.admitsWriter = false)

inductive Step (s : System) : Event → System → Prop
  | read {id : Nat} (fresh : s.tasks.lookup id = none) :
      Step s (.read id) (s.set id (.reader .start))
  | write {id : Nat} (fresh : s.tasks.lookup id = none) :
      Step s (.write id) (s.newWaiter.set id (.writer .start))
  /-- A task that gets no guard goes through its loop. -/
  | loop {id : Nat} {old task : Task} (found : s.tasks.lookup id = some old)
      (reads : task.isReadGuard = old.isReadGuard) (writes : task.isWriteGuard = old.isWriteGuard)
      (waits : task.isWriter = old.isWriter) (rests : Rests s old → Rests s task) :
      Step s (.step id) (s.set id task)
  | addReader {id seen : Nat} (found : s.tasks.lookup id = some (.reader (.enabled seen)))
      (admitted : s.gate.admitsReader = true) : Step s (.step id) (s.addReader.set id .readGuard)
  | startWriting {id : Nat} {phase : Phase} (found : s.tasks.lookup id = some (.writer phase))
      (admitted : s.gate.admitsWriter = true) :
      Step s (.step id) (s.startWriting.set id .writeGuard)
  | readUnlock {id : Nat} (found : s.tasks.lookup id = some .readGuard) :
      Step s (.drop id) (s.readUnlock.remove id)
  | writeUnlock {id : Nat} (found : s.tasks.lookup id = some .writeGuard) :
      Step s (.drop id) (s.writeUnlock.remove id)
  | leave {id : Nat} {phase : Phase} (found : s.tasks.lookup id = some (.reader phase)) :
      Step s (.cancel id) (s.remove id)
  | waitingDec {id : Nat} {phase : Phase} (found : s.tasks.lookup id = some (.writer phase)) :
      Step s (.cancel id) (s.waitingDec.remove id)

theorem advance_cases {s next : System} (found : s.tasks.lookup id = some old)
    (taken : advance s id old = some next) : Step s (.step id) next := by
  rcases old with (_ | seen | seen) | (_ | seen | seen) | _ | _ <;> simp only [advance] at taken
  case reader.start | writer.start =>
    cases taken
    exact .loop found rfl rfl rfl fun _ => le_refl s.notifications
  case reader.enabled =>
    split at taken <;> cases taken
    · exact .addReader found ‹_›
    · exact .loop found rfl rfl rfl fun rests => ⟨rests, fun _ => Bool.not_eq_true _ ▸ ‹_›⟩
  case writer.enabled =>
    split at taken <;> cases taken
    · exact .startWriting found ‹_›
    · exact .loop found rfl rfl rfl fun rests => ⟨rests, fun _ => Bool.not_eq_true _ ▸ ‹_›⟩
  -- a notified task starts again
  case reader.parked | writer.parked =>
    split at taken <;> cases taken
    exact .loop found rfl rfl rfl fun _ => trivial
  all_goals cases taken

theorem step_cases {s next : System} (taken : step s event = some next) : Step s event next := by
  cases event with
  | read id =>
    simp only [step, isNone_iff_eq_none] at taken
    split at taken <;> cases taken
    exact .read ‹_›
  | write id =>
    simp only [step, isNone_iff_eq_none] at taken
    split at taken <;> cases taken
    exact .write ‹_›
  | step id =>
    obtain ⟨old, found, advanced⟩ := bind_eq_some_iff.mp taken
    exact advance_cases found advanced
  | drop id =>
    obtain ⟨old, found, released⟩ := bind_eq_some_iff.mp taken
    cases old <;> cases released
    · exact .readUnlock found
    · exact .writeUnlock found
  | cancel id =>
    obtain ⟨old, found, ended⟩ := bind_eq_some_iff.mp taken
    rcases old with (_ | seen | seen) | (_ | seen | seen) | _ | _ <;> cases ended
    · exact .leave found
    · exact .waitingDec found

/-! ### The guards and the waiting writers -/

/-- How many tasks are chosen. -/
def tally (chosen : Task → Bool) (s : System) : Nat :=
  Keys.total (fun task : Task => (chosen task).toNat) s.tasks

def readGuards : Nat := tally Task.isReadGuard s

def writeGuards : Nat := tally Task.isWriteGuard s

/-- The writers that wait. -/
def waitingWriters : Nat := tally Task.isWriter s

section Tally

/-- What a number's task counts, if there is one. -/
abbrev weight (chosen : Task → Bool) (old : Option Task) : Nat :=
  (old.map fun task => (chosen task).toNat).getD 0

variable (chosen : Task → Bool) {s t : System} {id : Nat} {task : Task} {old : Option Task}
  (same : t.tasks = s.tasks) (found : s.tasks.lookup id = old)

include same found

theorem tally_set : tally chosen (t.set id task) + weight chosen old =
    tally chosen s + (chosen task).toNat := by
  subst found
  rw [System.set, same]
  exact Keys.total_insert (fun task : Task => (chosen task).toNat) s.tasks id task

theorem tally_remove : tally chosen (t.remove id) + weight chosen old = tally chosen s := by
  subst found
  rw [System.remove, same]
  exact Keys.total_erase (fun task : Task => (chosen task).toNat) s.tasks id

omit same found

theorem toNat_le_tally (found : s.tasks.lookup id = some task) :
    (chosen task).toNat ≤ tally chosen s := by
  have part := Keys.weigh_le_total (fun task : Task => (chosen task).toNat) s.tasks id
  rwa [Keys.weigh, found] at part

end Tally

/-! ### The counters of the gate -/

/-- The counters are those of the tasks, and a writer is alone. -/
structure Consistent (s : System) : Prop where
  readers : s.gate.readers = readGuards s
  waiting : s.gate.writersWaiting = waitingWriters s
  writing : writeGuards s = s.gate.writing.toNat
  alone : s.gate.writing = true → readGuards s = 0

/-- The task is a reader that looks at the gate next. -/
def Task.looks : Task → Bool
  | .reader (.enabled _) => true
  | _ => false

/-- The counters' 32 bits suffice: less than `u32::MAX` read guards are there when the gate lets a
reader in, and less than `u32::MAX` writers wait when another comes. -/
def Fits : Event → Prop
  | .write _ => waitingWriters s < u32Max
  | .step id => (s.tasks.lookup id).any Task.looks = true → s.gate.admitsReader = true →
      readGuards s < u32Max
  | _ => True

instance (s : System) (event : Event) : Decidable (Fits s event) := by
  cases event <;> unfold Fits <;> infer_instance

namespace Consistent

variable {s t next : System} {id : Nat} {task : Task}

section

variable (consistent : Consistent s) {phase : Phase}

include consistent

theorem change {a b c d e f : Nat} (reading : readGuards t + a = readGuards s + b)
    (waits : waitingWriters t + c = waitingWriters s + d)
    (writes : writeGuards t + e = writeGuards s + f)
    (readers : t.gate.readers + a = s.gate.readers + b)
    (waiting : t.gate.writersWaiting + c = s.gate.writersWaiting + d)
    (writing : t.gate.writing.toNat + e = s.gate.writing.toNat + f)
    (alone : t.gate.writing = true → t.gate.readers = 0) : Consistent t := by
  obtain ⟨beforeReaders, beforeWaiting, beforeWriting, -⟩ := consistent
  refine ⟨by omega, by omega, by omega, fun active => ?_⟩
  have empty := alone active
  omega

theorem set {old : Option Task} (same : t.tasks = s.tasks) (found : s.tasks.lookup id = old)
    (readers : t.gate.readers + weight Task.isReadGuard old =
      s.gate.readers + task.isReadGuard.toNat)
    (waiting : t.gate.writersWaiting + weight Task.isWriter old =
      s.gate.writersWaiting + task.isWriter.toNat)
    (writing : t.gate.writing.toNat + weight Task.isWriteGuard old =
      s.gate.writing.toNat + task.isWriteGuard.toNat)
    (alone : t.gate.writing = true → t.gate.readers = 0) : Consistent (t.set id task) :=
  consistent.change (tally_set Task.isReadGuard same found) (tally_set Task.isWriter same found)
    (tally_set Task.isWriteGuard same found) readers waiting writing alone

theorem remove (same : t.tasks = s.tasks) (found : s.tasks.lookup id = some task)
    (readers : t.gate.readers + task.isReadGuard.toNat = s.gate.readers)
    (waiting : t.gate.writersWaiting + task.isWriter.toNat = s.gate.writersWaiting)
    (writing : t.gate.writing.toNat + task.isWriteGuard.toNat = s.gate.writing.toNat)
    (alone : t.gate.writing = true → t.gate.readers = 0) : Consistent (t.remove id) :=
  consistent.change (b := 0) (d := 0) (f := 0) (tally_remove Task.isReadGuard same found)
    (tally_remove Task.isWriter same found)
    (tally_remove Task.isWriteGuard same found) readers waiting writing alone

theorem readers_eq_zero (active : s.gate.writing = true) : s.gate.readers = 0 :=
  consistent.readers.trans (consistent.alone active)

/-- A task that gets no guard goes through its loop. -/
theorem loop (found : s.tasks.lookup id = some old) (reads : task.isReadGuard = old.isReadGuard)
    (writes : task.isWriteGuard = old.isWriteGuard) (waits : task.isWriter = old.isWriter) :
    Consistent (s.set id task) :=
  consistent.set rfl found (by rw [reads]; rfl) (by rw [waits]; rfl) (by rw [writes]; rfl)
    consistent.readers_eq_zero

theorem addReader (found : s.tasks.lookup id = some (.reader phase)) (fits : readGuards s < u32Max)
    (admitted : s.gate.admitsReader = true) : Consistent (s.addReader.set id .readGuard) := by
  have idle : s.gate.writing = false := by
    simp only [GateState.admitsReader, Bool.and_eq_true, Bool.not_eq_true'] at admitted
    exact admitted.1
  rw [← consistent.readers] at fits
  refine consistent.set rfl found ?_ rfl rfl fun active => ?_
  · exact Nat.min_eq_left fits
  · rw [show s.gate.writing = true from active] at idle
    cases idle

theorem startWriting (found : s.tasks.lookup id = some (.writer phase))
    (admitted : s.gate.admitsWriter = true) : Consistent (s.startWriting.set id .writeGuard) := by
  obtain ⟨empty, idle⟩ : s.gate.readers = 0 ∧ s.gate.writing = false := by
    simpa [GateState.admitsWriter] using admitted
  have counted : 1 ≤ s.gate.writersWaiting := by
    rw [consistent.waiting]
    exact toNat_le_tally Task.isWriter found
  have wrapped : s.startWriting.gate.writersWaiting = s.gate.writersWaiting - 1 :=
    if_neg (Nat.one_le_iff_ne_zero.mp counted)
  refine consistent.set (t := s.startWriting) rfl found rfl ?_ ?_ fun _ => empty
  · rw [wrapped]
    exact Nat.sub_add_cancel counted
  · rw [idle]
    rfl

theorem readUnlock (found : s.tasks.lookup id = some .readGuard) :
    Consistent (s.readUnlock.remove id) := by
  obtain ⟨same, gate⟩ : s.readUnlock.tasks = s.tasks ∧
      s.readUnlock.gate = { s.gate with readers := s.gate.readers - 1 } := by
    simp only [System.readUnlock]
    split <;> exact ⟨rfl, rfl⟩
  have counted : 1 ≤ s.gate.readers := by
    rw [consistent.readers]
    exact toNat_le_tally Task.isReadGuard found
  refine consistent.remove same found ?_ (by rw [gate]; rfl) (by rw [gate]; rfl) fun active => ?_
  · rw [gate]
    exact Nat.sub_add_cancel counted
  rw [gate] at active ⊢
  have := consistent.readers_eq_zero active
  omega

theorem writeUnlock (found : s.tasks.lookup id = some .writeGuard) :
    Consistent (s.writeUnlock.remove id) := by
  have active : s.gate.writing = true := by
    have counted : 1 ≤ writeGuards s := toNat_le_tally Task.isWriteGuard found
    rw [consistent.writing] at counted
    cases writing : s.gate.writing with
    | true => rfl
    | false => rw [writing] at counted; exact absurd counted (by decide)
  exact consistent.remove rfl found rfl rfl (by rw [active]; rfl) nofun

theorem waitingDec (found : s.tasks.lookup id = some (.writer phase)) :
    Consistent (s.waitingDec.remove id) := by
  have counted : 1 ≤ s.gate.writersWaiting := by
    rw [consistent.waiting]
    exact toNat_le_tally Task.isWriter found
  exact consistent.remove rfl found rfl (Nat.sub_add_cancel counted) rfl consistent.readers_eq_zero

theorem step (fits : Fits s event) (taken : HandleGate.step s event = some next) :
    Consistent next := by
  cases step_cases taken with
  | read fresh => exact consistent.set rfl fresh rfl rfl rfl consistent.readers_eq_zero
  | write fresh =>
    have room : waitingWriters s < u32Max := fits
    rw [← consistent.waiting] at room
    exact consistent.set (t := s.newWaiter) rfl fresh rfl (Nat.min_eq_left room) rfl
      consistent.readers_eq_zero
  | loop found reads writes waits rests => exact consistent.loop found reads writes waits
  | addReader found admitted =>
    exact consistent.addReader found (fits (by rw [found]; rfl) admitted) admitted
  | startWriting found admitted => exact consistent.startWriting found admitted
  | readUnlock found => exact consistent.readUnlock found
  | writeUnlock found => exact consistent.writeUnlock found
  | leave found => exact consistent.remove rfl found rfl rfl rfl consistent.readers_eq_zero
  | waitingDec found => exact consistent.waitingDec found

end

end Consistent

theorem consistent_initial : Consistent initial := ⟨rfl, rfl, rfl, nofun⟩

/-! ### Readers that come to a free gate -/

/-- A reader that comes and looks at the gate once. -/
def enter (id : Nat) : List Event := [.read id, .step id, .step id]

theorem exec_enter {s : System} (free : s.gate.admitsReader = true)
    (fresh : s.tasks.lookup id = none) :
    ∃ next, exec step s (enter id) = some next ∧ next.gate = s.addReader.gate ∧
      next.tasks.lookup id = some .readGuard ∧
      (∀ other, other ≠ id → next.tasks.lookup other = s.tasks.lookup other) ∧
      readGuards next = readGuards s + 1 := by
  let begun := s.set id (.reader .start)
  let enabled := begun.set id (.reader (.enabled s.notifications))
  have begins : step s (.read id) = some begun := if_pos (by rw [fresh]; rfl)
  have enables : step begun (.step id) = some enabled := by
    simp only [step, begun, System.set, AList.lookup_insert]
    rfl
  have found : enabled.tasks.lookup id = some (.reader (.enabled s.notifications)) :=
    AList.lookup_insert _
  have passes : step enabled (.step id) = some (enabled.addReader.set id .readGuard) := by
    simp only [step, found]
    exact if_pos free
  refine ⟨enabled.addReader.set id .readGuard, ?_, rfl, AList.lookup_insert _, ?_, ?_⟩
  · exact Run.exec_cons_eq_some.mpr ⟨begun, begins, Run.exec_cons_eq_some.mpr
      ⟨enabled, enables, Run.exec_cons_eq_some.mpr ⟨_, passes, rfl⟩⟩⟩
  · intro other differs
    simp only [System.set, System.addReader, enabled, begun, AList.lookup_insert_ne differs]
  · have first : readGuards begun = readGuards s := tally_set Task.isReadGuard (t := s) rfl fresh
    have second : readGuards enabled = readGuards begun :=
      tally_set Task.isReadGuard (t := begun) rfl (AList.lookup_insert _)
    have third : readGuards (enabled.addReader.set id .readGuard) = readGuards enabled + 1 :=
      tally_set Task.isReadGuard (t := enabled.addReader) rfl found
    omega

/-! ### Runs -/

/-- While the counters have room, a writer is never active together with anyone else, the counters
are exact, and a gate nobody holds or waits to write lets every new reader in. -/
theorem handle_gate_exact {events : List Event} {final : System}
    (fits : Run.Along step Fits initial events) (run : exec step initial events = some final) :
    (∀ writer other, final.tasks.lookup writer = some .writeGuard →
      final.tasks.lookup other = some .readGuard ∨ final.tasks.lookup other = some .writeGuard →
        other = writer) ∧
    final.gate.readers = readGuards final ∧
    final.gate.writersWaiting = waitingWriters final ∧
    (readGuards final = 0 → writeGuards final = 0 → waitingWriters final = 0 →
      ∀ id, final.tasks.lookup id = none → ∃ next, exec step final (enter id) = some next ∧
          next.tasks.lookup id = some .readGuard) := by
  have consistent : Consistent final :=
    Run.invariant_along (fun _ _ _ held fits taken => held.step fits taken) consistent_initial fits
      run
  refine ⟨fun writer other active held => ?_, consistent.readers, consistent.waiting,
    fun noReader noWriter noneWaits id fresh => ?_⟩
  · have counted : 1 ≤ writeGuards final := toNat_le_tally Task.isWriteGuard active
    have one : writeGuards final ≤ 1 := by
      rw [consistent.writing]
      exact Bool.toNat_le _
    have writing : final.gate.writing = true := by
      rw [consistent.writing] at counted
      exact Bool.toNat_eq_one.mp (by rw [consistent.writing] at one; omega)
    by_contra differs
    rcases held with reads | writes
    · have two : 1 ≤ readGuards final := toNat_le_tally Task.isReadGuard reads
      have := consistent.alone writing
      omega
    have two := Keys.weigh_add_le_total (fun task : Task => task.isWriteGuard.toNat) final.tasks
      differs
    rw [Keys.weigh, Keys.weigh, active, writes] at two
    change 1 + 1 ≤ writeGuards final at two
    omega
  · have idle : final.gate.writing = false := by
      have := consistent.writing
      rw [noWriter] at this
      exact Bool.toNat_eq_zero.mp this.symm
    have free : final.gate.admitsReader = true := by
      simp [GateState.admitsReader, idle, consistent.waiting, noneWaits]
    obtain ⟨next, entered, -, guarded, -⟩ := exec_enter free fresh
    exact ⟨next, entered, guarded⟩

/-- A reader, two writers behind it of which one gives up, and a reader behind them. -/
theorem handle_gate_exact_cancelled_writer : ∃ final, exec step initial
        (enter 1 ++ [.write 2, .step 2, .step 2, .write 3, .step 3, .step 3] ++
          enter 4 ++ [.cancel 3, .drop 1, .step 2, .step 2, .step 2]) = some final ∧
      final.tasks.lookup 2 = some .writeGuard ∧ final.gate = ⟨0, 0, true⟩ ∧
      final.gate.readers = readGuards final ∧
      final.gate.writersWaiting = waitingWriters final :=
  have run : exec step initial (enter 1 ++ [.write 2, .step 2, .step 2, .write 3, .step 3, .step 3]
    ++ enter 4 ++ [.cancel 3, .drop 1, .step 2, .step 2, .step 2]) = some _ := rfl
  have exact := handle_gate_exact (by decide +kernel) run
  ⟨_, run, rfl, rfl, exact.2.1, exact.2.2.1⟩

/-- Readers without end: the counter stops where its 32 bits do. -/
theorem exec_crowd (n : Nat) :
    ∃ final, exec step initial ((List.range n).flatMap enter) = some final ∧
      final.gate = ⟨min n u32Max, 0, false⟩ ∧ readGuards final = n ∧
      ∀ id, n ≤ id → final.tasks.lookup id = none := by
  induction n with
  | zero => exact ⟨initial, rfl, rfl, rfl, fun _ _ => rfl⟩
  | succ n ih =>
    obtain ⟨crowd, gathered, gate, guards, unused⟩ := ih
    obtain ⟨next, entered, counted, -, others, more⟩ :=
      exec_enter (s := crowd) (by rw [gate]; rfl) (unused n le_rfl)
    refine ⟨next, ?_, ?_, by rw [more, guards], fun id above => ?_⟩
    · rw [List.range_succ, List.flatMap_append, Run.exec_append]
      refine ⟨crowd, gathered, ?_⟩
      exact entered
    · rw [counted, System.addReader, gate]
      simp only [GateState.mk.injEq, and_true]
      omega
    · rw [others id (by omega)]
      exact unused id (by omega)

/-- The reader counter misses a guard once there are more than it can count. -/
theorem readers_saturate :
    ∃ events final, exec step initial events = some final ∧ readGuards final = 2 ^ 32 ∧
      final.gate.readers = 2 ^ 32 - 1 := by
  obtain ⟨final, run, gate, guards, -⟩ := exec_crowd (2 ^ 32)
  refine ⟨_, final, run, guards, ?_⟩
  rw [gate]
  exact Nat.min_eq_right (Nat.sub_le _ _)

/-! ### Wake-ups -/

def Awake : Prop := ∀ id task, s.tasks.lookup id = some task → Rests s task

/-- The waiting tasks are notified, or whoever could not go on still cannot. -/
def Quieter (s t : System) : Prop := s.notifications < t.notifications ∨
    s.notifications = t.notifications ∧
      (s.gate.admitsReader = false → t.gate.admitsReader = false) ∧
      (s.gate.admitsWriter = false → t.gate.admitsWriter = false)

section Wake

variable {s t next : System} {id : Nat} {task : Task}

theorem Quieter.refl (s : System) : Quieter s s := .inr ⟨rfl, id, id⟩

theorem Quieter.parked (quieter : Quieter s t) {before after : Bool}
    (blocked : seen ≤ s.notifications ∧ (seen = s.notifications → before = false))
    (kept : s.notifications = t.notifications → before = false → after = false) :
    seen ≤ t.notifications ∧ (seen = t.notifications → after = false) := by
  obtain ⟨old, refused⟩ := blocked
  rcases quieter with more | ⟨same, -⟩
  · exact ⟨by omega, fun now => by omega⟩
  · exact ⟨same ▸ old, fun now => kept same (refused (now.trans same.symm))⟩

theorem Rests.quieter (rests : Rests s task) (quieter : Quieter s t) : Rests t task := by
  have grown : s.notifications ≤ t.notifications := by
    rcases quieter with more | ⟨same, -⟩ <;> omega
  rcases task with (_ | seen | seen) | (_ | seen | seen) | _ | _
  case reader.enabled | writer.enabled => exact le_trans rests grown
  case reader.parked =>
    refine quieter.parked rests fun same refused => ?_
    rcases quieter with more | ⟨-, kept, -⟩
    · omega
    · exact kept refused
  case writer.parked =>
    refine quieter.parked rests fun same refused => ?_
    rcases quieter with more | ⟨-, -, kept⟩
    · omega
    · exact kept refused
  all_goals trivial

theorem Awake.set (awake : Awake s) (same : t.tasks = s.tasks) (quieter : Quieter s t)
    (rests : Rests t task) : Awake (t.set id task) := by
  intro other task' found
  have kept : Rests t task' := by
    rcases Keys.mem_insert found with ⟨_, rfl⟩ | ⟨_, old⟩
    · exact rests
    · exact (awake other task' (same ▸ old)).quieter quieter
  exact kept

theorem Awake.remove (awake : Awake s) (same : t.tasks = s.tasks) (quieter : Quieter s t) :
    Awake (t.remove id) := by
  intro other task' found
  have kept : Rests t task' :=
    (awake other task' (same ▸ (Keys.mem_erase found).2)).quieter quieter
  exact kept

theorem quieter_newWaiter : Quieter s s.newWaiter := by
  refine .inr ⟨rfl, fun _ => ?_, id⟩
  have pos : min (s.gate.writersWaiting + 1) u32Max ≠ 0 := by
    rw [u32Max]
    omega
  simp [GateState.admitsReader, System.newWaiter, pos]

theorem quieter_addReader (free : s.gate.admitsReader = true) : Quieter s s.addReader := by
  refine .inr ⟨rfl, fun refused => ?_, fun _ => ?_⟩
  · rw [free] at refused
    cases refused
  have pos : min (s.gate.readers + 1) u32Max ≠ 0 := by
    rw [u32Max]
    omega
  simp [GateState.admitsWriter, System.addReader, pos]

/-- The last reader notifies; before it, a writer cannot go on. -/
theorem quieter_readUnlock : Quieter s s.readUnlock ∧ s.readUnlock.tasks = s.tasks := by
  simp only [System.readUnlock]
  split
  · exact ⟨.inl (Nat.lt_succ_self _), rfl⟩
  rename_i others
  refine ⟨.inr ⟨rfl, id, fun _ => ?_⟩, rfl⟩
  simp [GateState.admitsWriter, others]

theorem Awake.step (awake : Awake s) (taken : HandleGate.step s event = some next) :
    Awake next := by
  have still := Quieter.refl s
  cases step_cases taken with
  | read fresh => exact awake.set rfl still trivial
  | write fresh => exact awake.set (t := s.newWaiter) rfl quieter_newWaiter trivial
  | loop found reads writes waits rests =>
    exact awake.set rfl still (rests (awake _ _ found))
  | addReader found admitted =>
    exact awake.set (t := s.addReader) rfl (quieter_addReader admitted) trivial
  | startWriting found admitted =>
    exact awake.set (t := s.startWriting) rfl
      (.inr ⟨rfl, fun _ => rfl, fun _ => Bool.and_false _⟩) trivial
  | readUnlock found => exact awake.remove quieter_readUnlock.2 quieter_readUnlock.1
  | writeUnlock found => exact awake.remove (t := s.writeUnlock) rfl (.inl (Nat.lt_succ_self _))
  | leave found => exact awake.remove rfl still
  | waitingDec found => exact awake.remove (t := s.waitingDec) rfl (.inl (Nat.lt_succ_self _))

end Wake

/-- No wake-up is lost: in every run, a task whose await does not return could not take the gate. -/
theorem waits_only_while_refused {events : List Event} {final : System}
    (run : exec step initial events = some final) (sleeping : step final (.step id) = none) :
    (final.tasks.lookup id = some (.reader (.parked seen)) → final.gate.admitsReader = false) ∧
    (final.tasks.lookup id = some (.writer (.parked seen)) → final.gate.admitsWriter = false) := by
  have awake : Awake final :=
    Run.invariant (fun _ _ _ held taken => Awake.step held taken)
    (fun _ _ held => by cases held) run
  constructor
  all_goals
    intro found
    have rests := awake id _ found
    simp only [step, found, bind_some, advance] at sleeping
    split at sleeping
    · exact rests.2 (Eq.symm ‹_›)
    · cases sleeping

theorem writer_waits_behind_reader : ∃ final,
    exec step initial (enter 1 ++ [.write 2, .step 2, .step 2]) = some final ∧
      final.gate.admitsWriter = false :=
  have run : exec step initial (enter 1 ++ [.write 2, .step 2, .step 2]) = some _ := rfl
  ⟨_, run, (waits_only_while_refused run (rfl : step _ (.step 2) = none)).2 rfl⟩

end BrewFs.Vfs.HandleGate
