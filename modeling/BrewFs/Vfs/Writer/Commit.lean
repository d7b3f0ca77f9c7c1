import Mathlib.Data.List.Infix
import Mathlib.Data.List.InsertIdx
import BrewFs.Library.Slots
import BrewFs.Vfs.Writer.SliceEvents

/-! `vfs/io/writer.rs`: the three ways a slice gets into the metadata store. A task takes a step at
a time, from one lock scope or await point to the next, and other tasks may act in between. -/

namespace BrewFs.Vfs

open Option
open Function (update update_of_ne update_self)

/-! ### Commit attempts -/

inductive CommitPath where
  | tryCommit
  | commitChunk
  /-- `try_commit_before_upload_front` -/
  | beforeUpload
deriving DecidableEq, Repr

/-- Where a commit attempt stands. -/
inductive Stage where
  /-- The status allows a commit; the epoch check is next. -/
  | started
  /-- A truncation has overtaken the slice. -/
  | stale
  | passed
  /-- `beforeUpload` only: the writeback record is sealed and the stage is ready. -/
  | staged
  /-- The attempt has set `meta_write_started`. -/
  | claimed
  /-- A metadata write is under way; `failures` of this attempt have failed before. -/
  | writing (failures : Nat)
  | backoff (failures : Nat)
  | wrote
  | rejected
  /-- The commit task is about to take the front slice off the queue. -/
  | popping
deriving DecidableEq, Repr

structure Attempt where
  slice : Nat
  path : CommitPath
  stage : Stage
  /-- The truncations before the epoch check of this attempt. -/
  checkedAt : Nat
deriving DecidableEq, Repr

/-- The result of a metadata write, as `should_retry_meta_write` sorts errors. -/
inductive MetaResult where
  | ok
  | retryable
  | permanent
deriving DecidableEq, Repr

/-- The outcome of sealing the writeback record and of the stage. -/
inductive StageResult where
  | ready
  | notReady
  | sealFailed (message : String)
deriving DecidableEq, Repr

def commitMetaMaxRetries : Nat := 15

/-- A chunk with its commit attempts. Task 0 is the chunk's commit task. -/
structure ChunkCommit where
  slices : Nat → SliceState
  created : Nat
  /-- `chunk.slices`, the front first. -/
  queue : List Nat
  /-- `Inode::data_epoch` -/
  dataEpoch : Nat
  /-- The counter of the commit task. -/
  commitFailures : Nat
  tasks : Nat → Option Attempt
  /-- The truncations so far, and their number at each slice's seal. -/
  truncations : Nat
  sealedAt : Nat → Option Nat

inductive CommitAction where
  | create (offset creationUnique writeOrder : Nat)
  | slice (index : Nat) (event : SliceEvent)
  /-- `split_uploaded_prefix_tail` on the front slice. -/
  | split
  | bumpDataEpoch
  | start (task : Nat) (path : CommitPath) (index : Nat)
  | checkEpoch (task : Nat)
  | skipStale (task : Nat)
  | stage (task : Nat) (result : StageResult)
  | claim (task : Nat)
  /-- The last look before the write: is the slice in front, has it a descriptor. -/
  | issue (task : Nat)
  | result (task : Nat) (result : MetaResult)
  | retry (task : Nat)
  | finish (task : Nat) (message : String)
  | pop
  /-- The idle commit task drops a failed or committed front slice. -/
  | dropFront

namespace ChunkCommit

variable (cfg : WriteConfig) (commitBeforeUpload : Bool)

/-- `Inode::new` starts with data epoch 0. -/
def init : ChunkCommit where
  slices := fun _ => SliceState.new 0 0 0
  created := 0
  queue := []
  dataEpoch := 0
  commitFailures := 0
  tasks := fun _ => none
  truncations := 0
  sealedAt := fun _ => none

variable (s : ChunkCommit) (task : Nat) (attempt : Attempt)

def setSlice (index : Nat) (slice : SliceState) : ChunkCommit :=
  { s with slices := update s.slices index slice }

@[simp] theorem setSlice_slices (index : Nat) (slice : SliceState) :
    (s.setSlice index slice).slices = update s.slices index slice := rfl

def setTask (attempt : Option Attempt) : ChunkCommit :=
  { s with tasks := update s.tasks task attempt }

def setStage (stage : Stage) : ChunkCommit :=
  s.setTask task (some { attempt with stage := stage })

/-- Give the claim back and return. -/
def release : ChunkCommit :=
  (s.setSlice attempt.slice { s.slices attempt.slice with metaWriteStarted := false }).setTask task
    none

/-- The end of an attempt: the commit task goes on to pop the slice, others return. -/
def leave : ChunkCommit :=
  if task = 0 then s.setStage task attempt .popping else s.setTask task none

/-- Where `find_slice_or_create` inserts a new slice. -/
def insertPos (slices : Nat → SliceState) (queue : List Nat) (writeOrder : Nat) : Nat :=
  if writeOrder = 0 then queue.length
  else (queue.findIdx? fun index =>
    (slices index).writeOrder ≠ 0 ∧ writeOrder < (slices index).writeOrder).getD queue.length

/-- May the path begin with this slice? -/
def startable (index : Nat) : CommitPath → Bool
  | .tryCommit => task ≠ 0 && (s.slices index).state = .uploaded &&
      (s.slices index).descForCommit.isSome
  | .commitChunk => task = 0 && s.queue.head? = some index && (s.slices index).state = .uploaded &&
      (s.slices index).err = none
  | .beforeUpload => commitBeforeUpload && s.queue.head? = some index &&
      ((s.slices index).state = .readonly || (s.slices index).state = .failed) &&
      (s.slices index).descForCommit.isSome

/-- The epoch check of all three paths; 0: a slice without an epoch. -/
def isStale (index : Nat) : Bool :=
  (s.slices index).frozenEpoch ≠ 0 && s.dataEpoch ≠ (s.slices index).frozenEpoch

/-- The answer of a metadata write. -/
def afterWrite (failures : Nat) : CommitPath → MetaResult → ChunkCommit
  | .tryCommit, .ok | .beforeUpload, .ok => s.setStage task attempt .wrote
  | .commitChunk, .ok => { s.setStage task attempt .wrote with commitFailures := 0 }
  | .tryCommit, .retryable =>
    if failures + 1 < commitMetaMaxRetries then s.setStage task attempt (.backoff (failures + 1))
    else s.release task attempt
  | .commitChunk, .retryable =>
    if commitMetaMaxRetries ≤ s.commitFailures + 1 then
      { s.setStage task attempt .rejected with commitFailures := s.commitFailures + 1 }
    else
      -- the task sleeps and starts over with the front slice
      { s.setTask task none with commitFailures := s.commitFailures + 1 }
  | .tryCommit, .permanent | .commitChunk, .permanent => s.setStage task attempt .rejected
  | .beforeUpload, .retryable | .beforeUpload, .permanent => s.release task attempt

/-- The step a task takes from its present stage. -/
def taskStep : CommitAction → Option ChunkCommit
  | .checkEpoch _ =>
    if attempt.stage = .started then
      some (s.setTask task (some { attempt with
        stage := if s.isStale attempt.slice then .stale else .passed
        checkedAt := s.truncations }))
    else none
  | .skipStale _ =>
    if attempt.stage = .stale then
      some ((s.setSlice attempt.slice (s.slices attempt.slice).markCommitted).leave task attempt)
    else none
  | .stage _ result =>
    if attempt.stage = .passed ∧ attempt.path = .beforeUpload then
      match result with
      | .ready => some (s.setStage task attempt .staged)
      | .notReady => some (s.setTask task none)
      | .sealFailed message => some ((s.setSlice attempt.slice
          ((s.slices attempt.slice).markFailed message)).setTask task none)
    else none
  | .claim _ =>
    if attempt.stage = (if attempt.path = .beforeUpload then .staged else .passed) then
      if (s.slices attempt.slice).metaWriteStarted then some (s.setTask task none)
      else some ((s.setSlice attempt.slice
        { s.slices attempt.slice with metaWriteStarted := true }).setStage task attempt .claimed)
    else none
  | .issue _ =>
    if attempt.stage = .claimed then
      match attempt.path with
      | .tryCommit =>
        if s.queue.head? = some attempt.slice then some (s.setStage task attempt (.writing 0))
        else some (s.release task attempt)
      | .commitChunk =>
        if (s.slices attempt.slice).descForCommit.isSome then
          some (s.setStage task attempt (.writing 0))
        else some (s.setStage task attempt .popping)
      | .beforeUpload => some (s.setStage task attempt (.writing 0))
    else none
  | .result _ result =>
    match attempt.stage with
    | .writing failures => some (s.afterWrite task attempt failures attempt.path result)
    | _ => none
  | .retry _ =>
    match attempt.stage with
    | .backoff failures => some (s.setStage task attempt (.writing failures))
    | _ => none
  | .finish _ message =>
    match attempt.stage with
    | .wrote => some ((s.setSlice attempt.slice
        (s.slices attempt.slice).markCommitted).leave task attempt)
    | .rejected => some ((s.setSlice attempt.slice
        ((s.slices attempt.slice).markFailed message)).leave task attempt)
    | _ => none
  | _ => none

/-- The task an action belongs to. -/
def taskOf : CommitAction → Option Nat
  | .checkEpoch task | .skipStale task | .stage task _ | .claim task | .issue task | .result task _
  | .retry task | .finish task _ => some task
  | _ => none

def step : CommitAction → Option ChunkCommit
  | .create offset creationUnique writeOrder =>
    let slice := { SliceState.new 0 offset creationUnique with writeOrder := writeOrder }
    some { s.setSlice s.created slice with
      created := s.created + 1
      queue := s.queue.insertIdx (insertPos s.slices s.queue writeOrder) s.created }
  | .slice index event =>
    if index < s.created then
      ((s.slices index).apply cfg s.dataEpoch event).map fun slice =>
        { s.setSlice index slice with
          sealedAt := if (s.slices index).state = .writable ∧ event.seals = true then
            update s.sealedAt index (some s.truncations) else s.sealedAt }
    else none
  | .split =>
    if commitBeforeUpload then none
    else s.queue.head?.bind fun index =>
      ((s.slices index).splitUploadedPrefixTail cfg).map fun parts =>
        { (s.setSlice index parts.1).setSlice s.created parts.2 with
          created := s.created + 1
          queue := s.queue.insertIdx 1 s.created
          sealedAt := update s.sealedAt index (some s.truncations) }
  | .bumpDataEpoch => some { s with
      dataEpoch := (s.dataEpoch + 1) % 2 ^ 64
      truncations := s.truncations + 1 }
  | .start task path index =>
    if s.tasks task = none ∧ index < s.created ∧
        s.startable commitBeforeUpload task index path = true then
      some (s.setTask task (some ⟨index, path, .started, s.truncations⟩))
    else none
  | .pop =>
    (s.tasks 0).bind fun attempt =>
      if attempt.stage = .popping then
        match attempt.path with
        | .beforeUpload => some { s.setTask 0 none with
            commitFailures := 0
            queue := if s.queue.head? = some attempt.slice then s.queue.tail else s.queue }
        | _ => some { s.setTask 0 none with commitFailures := 0, queue := s.queue.tail }
      else none
  | .dropFront =>
    if s.tasks 0 = none then
      s.queue.head?.bind fun index =>
        match (s.slices index).state with
        | .failed => some { s with queue := s.queue.tail }
        | .committed => some { s with commitFailures := 0, queue := s.queue.tail }
        | _ => none
    else none
  | action => (taskOf action).bind fun task =>
    (s.tasks task).bind fun attempt => s.taskStep task attempt action

/-! ### What a task step does -/

end ChunkCommit

/-- The attempt has set the flag and not given it back. -/
def Stage.holds : Stage → Bool
  | .claimed | .writing _ | .backoff _ | .wrote | .rejected => true
  | .started | .stale | .passed | .staged | .popping => false

/-- The attempt passed the epoch check and may still write. -/
def Stage.current : Stage → Bool
  | .passed | .staged | .claimed | .writing _ | .backoff _ | .wrote | .rejected => true
  | .started | .stale | .popping => false

namespace ChunkCommit

/-- The fields no task step touches. -/
structure Frame (s next : ChunkCommit) : Prop where
  created : next.created = s.created
  queue : next.queue = s.queue
  dataEpoch : next.dataEpoch = s.dataEpoch
  truncations : next.truncations = s.truncations
  sealedAt : next.sealedAt = s.sealedAt

/-- The effects of a task step on the slices and the tasks. -/
inductive TaskEffect (s : ChunkCommit) (task : Nat) (attempt : Attempt) (action : CommitAction)
    (next : ChunkCommit) : Prop
  /-- The epoch check. -/
  | checked (asked : ∃ other, action = .checkEpoch other) (begun : attempt.stage = .started)
      (slices : next.slices = s.slices)
      (tasks : next.tasks = update s.tasks task (some { attempt with
        stage := if s.isStale attempt.slice then .stale else .passed
        checkedAt := s.truncations }))
  /-- On to a stage that holds the claim exactly if this one does. -/
  | move (stage : Stage) (held : stage.holds = attempt.stage.holds)
      (current : stage.current = true → attempt.stage.current = true)
      (slices : next.slices = s.slices)
      (tasks : next.tasks = update s.tasks task (some { attempt with stage := stage }))
  | claim (current : attempt.stage.current = true)
      (free : (s.slices attempt.slice).metaWriteStarted = false)
      (slices : next.slices = update s.slices attempt.slice
        { s.slices attempt.slice with metaWriteStarted := true })
      (tasks : next.tasks = update s.tasks task (some { attempt with stage := .claimed }))
  | release (held : attempt.stage.holds = true)
      (slices : next.slices = update s.slices attempt.slice
        { s.slices attempt.slice with metaWriteStarted := false })
      (tasks : next.tasks = update s.tasks task none)
  /-- The slice is settled: committed or failed. -/
  | settle (slice : SliceState) (settled : slice = (s.slices attempt.slice).markCommitted ∨
        ∃ message, slice = (s.slices attempt.slice).markFailed message)
      (slices : next.slices = update s.slices attempt.slice slice)
      (rest : Option Attempt) (leaves : ∀ later ∈ rest, later = { attempt with stage := .popping })
      (tasks : next.tasks = update s.tasks task rest)
  /-- The attempt ends without having claimed the slice. -/
  | stop (free : attempt.stage.holds = false) (slices : next.slices = s.slices)
      (tasks : next.tasks = update s.tasks task none)
  /-- The commit task takes a slice without a descriptor off the queue. -/
  | undescribed (claimed : attempt.stage = .claimed) (path : attempt.path = .commitChunk)
      (none : (s.slices attempt.slice).descForCommit = none)
      (slices : next.slices = s.slices)
      (tasks : next.tasks = update s.tasks task (some { attempt with stage := .popping }))
  /-- The commit task backs off after a retryable error, with the flag still set. -/
  | abandon (asked : ∃ other, action = .result other .retryable) (failures : Nat)
      (writing : attempt.stage = .writing failures) (path : attempt.path = .commitChunk)
      (budget : s.commitFailures + 1 < commitMetaMaxRetries)
      (slices : next.slices = s.slices) (tasks : next.tasks = update s.tasks task none)

variable {task : Nat} {attempt : Attempt} {action : CommitAction} {s next : ChunkCommit}
  {slice : SliceState}

theorem settle_effect (settled : slice = (s.slices attempt.slice).markCommitted ∨
      ∃ message, slice = (s.slices attempt.slice).markFailed message) :
    TaskEffect s task attempt action ((s.setSlice attempt.slice slice).leave task attempt) := by
  unfold leave
  split
  · exact .settle slice settled rfl (some { attempt with stage := .popping })
      (fun _ same => (Option.some.inj same).symm) rfl
  · exact .settle slice settled rfl none nofun rfl

theorem afterWrite_effect {asked : Nat} {failures : Nat}
    (writing : attempt.stage = .writing failures) (result : MetaResult) :
    TaskEffect s task attempt (.result asked result)
      (s.afterWrite task attempt failures attempt.path result) := by
  have held : attempt.stage.holds = true := by rw [writing]; rfl
  have current : attempt.stage.current = true := by rw [writing]; rfl
  have moved : ∀ (stage : Stage) (next : ChunkCommit), stage.holds = true → next.slices = s.slices →
      next.tasks = update s.tasks task (some { attempt with stage := stage }) →
      TaskEffect s task attempt (.result asked result) next :=
    fun stage next holds slices tasks =>
      .move stage (holds.trans held.symm) (fun _ => current) slices tasks
  cases path : attempt.path with
  | tryCommit =>
    cases result with
    | ok => exact moved .wrote _ rfl rfl rfl
    | retryable =>
      simp only [afterWrite]
      split
      · exact moved (.backoff (failures + 1)) _ rfl rfl rfl
      · exact .release held rfl rfl
    | permanent => exact moved .rejected _ rfl rfl rfl
  | commitChunk =>
    cases result with
    | ok => exact moved .wrote _ rfl rfl rfl
    | retryable =>
      simp only [afterWrite]
      split
      · exact moved .rejected _ rfl rfl rfl
      · rename_i budget
        exact .abandon ⟨asked, rfl⟩ failures writing path (not_le.mp budget) rfl rfl
    | permanent => exact moved .rejected _ rfl rfl rfl
  | beforeUpload =>
    cases result with
    | ok => exact moved .wrote _ rfl rfl rfl
    | retryable | permanent => exact .release held rfl rfl

theorem taskStep_effect (taken : s.taskStep task attempt action = some next) :
    TaskEffect s task attempt action next := by
  cases action with
  | checkEpoch _ =>
    obtain ⟨begun, ⟨⟩⟩ := ite_none_right_eq_some.mp taken
    exact .checked ⟨_, rfl⟩ begun rfl rfl
  | skipStale _ =>
    obtain ⟨_, ⟨⟩⟩ := ite_none_right_eq_some.mp taken
    exact settle_effect (.inl rfl)
  | stage _ result =>
    obtain ⟨⟨passed, _⟩, taken⟩ := ite_none_right_eq_some.mp taken
    cases result with
    | ready =>
      cases taken
      exact .move .staged (by rw [passed]; rfl) (fun _ => by rw [passed]; rfl) rfl rfl
    | notReady =>
      cases taken
      exact .stop (by rw [passed]; rfl) rfl rfl
    | sealFailed message =>
      cases taken
      exact .settle _ (.inr ⟨message, rfl⟩) rfl none nofun rfl
  | claim _ =>
    obtain ⟨ready, taken⟩ := ite_none_right_eq_some.mp taken
    have unclaimed : attempt.stage.current = true ∧ attempt.stage.holds = false := by
      rw [ready]
      split <;> exact ⟨rfl, rfl⟩
    split at taken
    · cases taken
      exact .stop unclaimed.2 rfl rfl
    rename_i free
    cases taken
    exact .claim unclaimed.1 (Bool.not_eq_true _ ▸ free) rfl rfl
  | issue asked =>
    obtain ⟨claimed, taken⟩ := ite_none_right_eq_some.mp taken
    have held : attempt.stage.holds = true := by rw [claimed]; rfl
    have writes : TaskEffect s task attempt (.issue asked) (s.setStage task attempt (.writing 0)) :=
      .move (.writing 0) held.symm (fun _ => by rw [claimed]; rfl) rfl rfl
    split at taken
    · split at taken <;> cases taken
      · exact writes
      · exact .release held rfl rfl
    · rename_i path
      split at taken
      · cases taken
        exact writes
      rename_i none
      cases taken
      rw [Bool.not_eq_true, isSome_eq_false_iff, isNone_iff_eq_none] at none
      exact .undescribed claimed path none rfl rfl
    · cases taken
      exact writes
  | result _ result =>
    simp only [taskStep] at taken
    split at taken
    · rename_i failures writing
      cases taken
      exact afterWrite_effect writing result
    · cases taken
  | retry _ =>
    simp only [taskStep] at taken
    split at taken
    · rename_i failures waiting
      cases taken
      exact .move (.writing failures) (by rw [waiting]; rfl) (fun _ => by rw [waiting]; rfl) rfl rfl
    · cases taken
  | finish _ message =>
    simp only [taskStep] at taken
    split at taken <;> cases taken
    · exact settle_effect (.inl rfl)
    · exact settle_effect (.inr ⟨message, rfl⟩)
  | create _ _ _ | slice _ _ | split | bumpDataEpoch | start _ _ _ | pop | dropFront => cases taken

theorem taskStep_frame (taken : s.taskStep task attempt action = some next) : Frame s next := by
  unfold taskStep afterWrite leave at taken
  repeat' split at taken
  all_goals cases taken
  all_goals constructor <;> rfl

/-- Only the task's own entry changes, its slice stays. -/
theorem TaskEffect.tasks_update (effect : TaskEffect s task attempt action next) :
    ∃ rest : Option Attempt, next.tasks = update s.tasks task rest ∧
      ∀ later ∈ rest, later.slice = attempt.slice := by
  cases effect with
  | checked _ _ _ tasks | move _ _ _ _ tasks | claim _ _ _ tasks | release _ _ tasks
  | stop _ _ tasks | undescribed _ _ _ _ tasks | abandon _ _ _ _ _ _ tasks =>
    exact ⟨_, tasks, by simp⟩
  | settle _ _ _ rest leaves tasks =>
    exact ⟨rest, tasks, fun later listed => by rw [leaves later listed]⟩

/-- What a task step makes of a slice. -/
inductive TaskEdit (slice : SliceState) : SliceState → Prop
  | same : TaskEdit slice slice
  | flag (started : Bool) : TaskEdit slice { slice with metaWriteStarted := started }
  | committed : TaskEdit slice slice.markCommitted
  | failed (message : String) : TaskEdit slice (slice.markFailed message)

theorem TaskEdit.at {edited : Nat} (edit : TaskEdit (s.slices edited) slice)
    (slices : next.slices = update s.slices edited slice) (index : Nat) :
    TaskEdit (s.slices index) (next.slices index) := by
  rw [slices]
  by_cases here : index = edited
  · subst here
    rw [update_self]
    exact edit
  · rw [update_of_ne here]
    exact .same

theorem TaskEffect.slices_edit (effect : TaskEffect s task attempt action next) (index : Nat) :
    TaskEdit (s.slices index) (next.slices index) := by
  cases effect with
  | checked _ _ slices | move _ _ _ slices | stop _ slices | undescribed _ _ _ slices
  | abandon _ _ _ _ _ slices => exact slices ▸ .same
  | claim _ _ slices _ => exact (TaskEdit.flag true).at slices index
  | release _ slices _ => exact (TaskEdit.flag false).at slices index
  | settle slice settled slices _ _ _ =>
    rcases settled with rfl | ⟨message, rfl⟩
    · exact TaskEdit.committed.at slices index
    · exact (TaskEdit.failed message).at slices index

/-! ### What a step does -/

variable {cfg : WriteConfig} {commitBeforeUpload : Bool} {s next : ChunkCommit}
  {action : CommitAction}

inductive StepEffect (cfg : WriteConfig) (commitBeforeUpload : Bool) (s : ChunkCommit) :
    CommitAction → ChunkCommit → Prop
  | task {action : CommitAction} {next : ChunkCommit} (task : Nat) (attempt : Attempt)
      (owned : taskOf action = some task) (found : s.tasks task = some attempt)
      (effect : TaskEffect s task attempt action next) (frame : Frame s next) :
      StepEffect cfg commitBeforeUpload s action next
  | create (offset creationUnique writeOrder : Nat) :
      StepEffect cfg commitBeforeUpload s (.create offset creationUnique writeOrder)
        { s.setSlice s.created
            { SliceState.new 0 offset creationUnique with writeOrder := writeOrder } with
          created := s.created + 1
          queue := s.queue.insertIdx (insertPos s.slices s.queue writeOrder) s.created }
  | slice (index : Nat) (event : SliceEvent) (slice : SliceState) (known : index < s.created)
      (applied : (s.slices index).apply cfg s.dataEpoch event = some slice) :
      StepEffect cfg commitBeforeUpload s (.slice index event) { s.setSlice index slice with
          sealedAt := if (s.slices index).state = .writable ∧ event.seals = true then
            update s.sealedAt index (some s.truncations) else s.sealedAt }
  | split (index : Nat) (parts : SliceState × SliceState) (front : index ∈ s.queue)
      (done : (s.slices index).splitUploadedPrefixTail cfg = some parts) :
      StepEffect cfg commitBeforeUpload s .split
        { (s.setSlice index parts.1).setSlice s.created parts.2 with
          created := s.created + 1
          queue := s.queue.insertIdx 1 s.created
          sealedAt := update s.sealedAt index (some s.truncations) }
  | bumpDataEpoch : StepEffect cfg commitBeforeUpload s .bumpDataEpoch { s with
        dataEpoch := (s.dataEpoch + 1) % 2 ^ 64
        truncations := s.truncations + 1 }
  | start (task : Nat) (path : CommitPath) (index : Nat) (idle : s.tasks task = none)
      (known : index < s.created) (able : s.startable commitBeforeUpload task index path = true) :
      StepEffect cfg commitBeforeUpload s (.start task path index)
        (s.setTask task (some ⟨index, path, .started, s.truncations⟩))
  /-- Slices go off the queue; the commit task may end an attempt without a claim. -/
  | dequeue {action : CommitAction} (queue : List Nat) (commitFailures : Nat)
      (tasks : Nat → Option Attempt) (fewer : queue ⊆ s.queue)
      (kept : ∀ task attempt, tasks task = some attempt → s.tasks task = some attempt)
      (ended : ∀ task attempt, s.tasks task = some attempt → attempt.stage.holds = true →
        tasks task = some attempt) :
      StepEffect cfg commitBeforeUpload s action
        { s with queue := queue, commitFailures := commitFailures, tasks := tasks }

theorem pop_effect (found : s.tasks task = some attempt) (popping : attempt.stage = .popping)
    {queue : List Nat} (fewer : queue ⊆ s.queue) : StepEffect cfg commitBeforeUpload s action
      { s with queue := queue, commitFailures := 0, tasks := update s.tasks task none } := by
  refine .dequeue queue 0 _ fewer ?_ ?_
  · exact fun other later listed => (Slots.mem_free listed).2
  intro other later listed holds
  have here : other ≠ task := by
    intro same
    rw [same, found, Option.some.injEq] at listed
    rw [← listed, popping] at holds
    cases holds
  rwa [update_of_ne here]

theorem step_effect (taken : s.step cfg commitBeforeUpload action = some next) :
    StepEffect cfg commitBeforeUpload s action next := by
  cases owned : taskOf action with
  | some task =>
    have dispatched : ((s.tasks task).bind fun attempt => s.taskStep task attempt action) =
        some next := by
      cases action <;> cases owned <;> exact taken
    obtain ⟨attempt, found, stepped⟩ := bind_eq_some_iff.mp dispatched
    exact .task task attempt owned found (taskStep_effect stepped) (taskStep_frame stepped)
  | none =>
    cases action with
    | create offset creationUnique writeOrder =>
      cases taken
      exact .create offset creationUnique writeOrder
    | slice index event =>
      obtain ⟨known, taken⟩ := ite_none_right_eq_some.mp taken
      obtain ⟨slice, applied, rfl⟩ := map_eq_some_iff.mp taken
      exact .slice index event slice known applied
    | split =>
      obtain ⟨_, taken⟩ := ite_none_left_eq_some.mp taken
      obtain ⟨index, front, taken⟩ := bind_eq_some_iff.mp taken
      obtain ⟨parts, done, rfl⟩ := map_eq_some_iff.mp taken
      exact .split index parts (List.mem_of_mem_head? front) done
    | bumpDataEpoch =>
      cases taken
      exact .bumpDataEpoch
    | start task path index =>
      obtain ⟨⟨idle, known, able⟩, ⟨⟩⟩ := ite_none_right_eq_some.mp taken
      exact .start task path index idle known able
    | pop =>
      obtain ⟨attempt, found, taken⟩ := bind_eq_some_iff.mp taken
      simp only [ite_none_right_eq_some] at taken
      obtain ⟨popping, taken⟩ := taken
      split at taken <;> cases taken
      · apply pop_effect found popping
        split
        · exact List.tail_subset _
        · exact List.Subset.refl _
      · exact pop_effect found popping (List.tail_subset _)
    | dropFront =>
      obtain ⟨_, taken⟩ := ite_none_right_eq_some.mp taken
      obtain ⟨_, _, taken⟩ := bind_eq_some_iff.mp taken
      have shorter : ∀ failures, StepEffect cfg commitBeforeUpload s .dropFront
          { s with queue := s.queue.tail, commitFailures := failures } := fun failures =>
        .dequeue _ failures _ (List.tail_subset _) (fun _ _ => id) fun _ _ found _ => found
      split at taken <;> cases taken
      · exact shorter _
      · exact shorter _
    | checkEpoch task | skipStale task | stage task result | claim task | issue task
    | result task result | retry task | finish task message => cases owned

/-! ### The slices in use -/

/-- The queue and the tasks name slices that exist. -/
structure Known (s : ChunkCommit) : Prop where
  queued : ∀ index ∈ s.queue, index < s.created
  started : ∀ {task attempt}, s.tasks task = some attempt → attempt.slice < s.created

theorem known_init : Known init where
  queued := nofun
  started := nofun

theorem Known.insert (known : Known s) (position : Nat) {index : Nat}
    (listed : index ∈ s.queue.insertIdx position s.created) : index < s.created + 1 := by
  rcases List.eq_or_mem_of_mem_insertIdx listed with rfl | before
  · exact Nat.lt_succ_self _
  · exact Nat.lt_succ_of_lt (known.queued index before)

theorem Known.advance (known : Known s) (effect : StepEffect cfg commitBeforeUpload s action next) :
    Known next := by
  have older : ∀ {task attempt}, s.tasks task = some attempt → attempt.slice < s.created + 1 :=
    fun found => Nat.lt_succ_of_lt (known.started found)
  cases effect with
  | task task attempt owned found effect frame =>
    obtain ⟨rest, tasks, same⟩ := effect.tasks_update
    refine ⟨by rw [frame.queue, frame.created]; exact known.queued, @fun other later listed => ?_⟩
    rw [frame.created]
    rw [tasks] at listed
    by_cases here : other = task
    · subst here
      rw [update_self] at listed
      rw [same later listed]
      exact known.started found
    · rw [update_of_ne here] at listed
      exact known.started listed
  | create => exact ⟨fun index listed => known.insert _ listed, older⟩
  | slice | bumpDataEpoch => exact ⟨known.queued, known.started⟩
  | split => exact ⟨fun index listed => known.insert 1 listed, older⟩
  | start task path index _ inside _ =>
    refine ⟨known.queued, fun found => ?_⟩
    rcases Slots.mem_put found with ⟨_, rfl⟩ | ⟨_, old⟩
    · exact inside
    · exact known.started old
  | dequeue queue _ tasks fewer kept _ =>
    exact ⟨fun index listed => known.queued index (fewer listed),
      fun found => known.started (kept _ _ found)⟩

/-- One byte is written, frozen and uploaded. -/
def uploadByte : List CommitAction :=
  [.create 0 0 1, .slice 0 (.write 0 [1] none), .slice 0 .freeze, .slice 0 (.setSliceId 5),
    .slice 0 .prepareUpload, .slice 0 (.advanceUploadRange 0 1)]

end ChunkCommit

end BrewFs.Vfs
