import BrewFs.Vfs.Writer.Commit

/-! `meta_write_started` is the claim of a commit attempt on its slice: who sets it has to give it
back, or settle the slice. -/

namespace BrewFs.Vfs

open SliceState
open Function (update update_of_ne update_self)

/-! ### An uploaded slice has a descriptor -/

namespace SliceState

/-- What the descriptor of an uploaded slice rests on. -/
structure Ready (s : SliceState) : Prop where
  filled : 0 < s.dispatchedEnd → 0 < s.data.len
  named : 0 < s.uploaded → s.sliceId.isSome = true
  answered : s.state = .writable → s.inFlight = 0 → 0 < s.dispatchedEnd → s.sliceId.isSome = true
  described : s.state = .uploaded → s.sliceId.isSome = true ∧ 0 < s.data.len

theorem descForCommit_isSome (s : SliceState) :
    s.descForCommit.isSome = true ↔ s.sliceId.isSome = true ∧ 0 < s.data.len := by
  unfold descForCommit
  cases s.sliceId with
  | none => simp
  | some id => simp

theorem ready_new (chunkId offset creationUnique writeOrder : Nat) :
    Ready { SliceState.new chunkId offset creationUnique with writeOrder := writeOrder } where
  filled := fun dispatched => absurd dispatched (Nat.lt_irrefl 0)
  named := fun uploaded => absurd uploaded (Nat.lt_irrefl 0)
  answered := fun _ _ dispatched => absurd dispatched (Nat.lt_irrefl 0)
  described := nofun

variable {cfg : WriteConfig} {dataEpoch : Nat} {s next : SliceState} {event : SliceEvent}

theorem Ready.effect (ready : s.Ready) (effect : Effect cfg dataEpoch s event next) :
    next.Ready := by
  cases effect with
  | unchanged => exact ready
  | write action data able written =>
    have grows := CacheSlice.write_len written
    exact ⟨fun dispatched => (ready.filled dispatched).trans_le grows, ready.named,
      ready.answered, fun uploaded =>
        ⟨(ready.described uploaded).1, Nat.lt_of_lt_of_le (ready.described uploaded).2 grows⟩⟩
  | discard | freeze | markFailed =>
    exact ⟨ready.filled, ready.named, fun reopened => (by cases reopened), nofun⟩
  | freezeUploaded writable filled idle out =>
    refine ⟨ready.filled, ready.named, fun reopened => (by cases reopened), fun _ => ⟨?_, filled⟩⟩
    -- some byte has been handed out, and its batch has been answered
    by_cases dispatched : 0 < s.dispatchedEnd
    · exact ready.answered writable idle dispatched
    · rw [Nat.eq_zero_of_not_pos dispatched] at out
      exact ready.named (by omega)
  | setSliceId id unnamed =>
    exact ⟨ready.filled, fun _ => rfl, fun _ _ _ => rfl,
      fun uploaded => ⟨rfl, (ready.described uploaded).2⟩⟩
  | prepareUpload stop _ filled forward =>
    exact ⟨fun _ => filled, ready.named,
      fun _ idle => absurd idle (Nat.succ_ne_zero s.inFlight), ready.described⟩
  | advance _ _ named _ | advanceReleased _ _ named _ _ =>
    exact ⟨ready.filled, fun _ => named, fun _ _ _ => named, ready.described⟩
  | advanceUploaded start stop named dispatched closed =>
    exact ⟨ready.filled, fun _ => named, fun _ _ _ => named,
      fun _ => ⟨named, ready.filled dispatched⟩⟩

/-- A slice keeps its descriptor and its claim; it leaves its final status only when a failed
slice's batch completes. -/
theorem Effect.claim (effect : Effect cfg dataEpoch s event next) :
    (s.sliceId.isSome = true → next.sliceId.isSome = true) ∧ s.data.len ≤ next.data.len ∧
    next.metaWriteStarted = s.metaWriteStarted ∧
    (s.state = .committed ∨ s.state = .failed → (next.state = .committed ∨ next.state = .failed) ∨
      (s.state = .failed ∧ ∃ start stop, event = .advanceUploadRange start stop)) := by
  cases effect with
  | unchanged | prepareUpload | advance | advanceReleased => exact ⟨id, le_rfl, rfl, .inl⟩
  | write action data able written => exact ⟨id, CacheSlice.write_len written, rfl, .inl⟩
  | discard => exact ⟨id, le_rfl, rfl, fun _ => .inl (.inl rfl)⟩
  | freeze writable | freezeUploaded writable =>
    exact ⟨id, le_rfl, rfl, fun settled => by simp [writable] at settled⟩
  | setSliceId => exact ⟨fun _ => rfl, le_rfl, rfl, .inl⟩
  | advanceUploaded start stop named dispatched closed =>
    refine ⟨id, le_rfl, rfl, fun settled => .inr ⟨?_, start, stop, rfl⟩⟩
    rcases closed with readonly | failed
    · simp [readonly] at settled
    · exact failed
  | markFailed => exact ⟨id, le_rfl, rfl, fun _ => .inl (.inr rfl)⟩

theorem split_ready {parts : SliceState × SliceState}
    (done : s.splitUploadedPrefixTail cfg = some parts) :
    parts.1.Ready ∧ parts.2.Ready ∧ parts.1.metaWriteStarted = false ∧
      parts.2.metaWriteStarted = false ∧ s.metaWriteStarted = false ∧ 0 < parts.1.data.len ∧
      parts.1.sliceId = s.sliceId := by
  obtain ⟨⟨_, _, free, named⟩, ⟨some, _, _⟩, data, tailData, truncated, _, rfl⟩ :=
    splitUploadedPrefixTail_spec done
  have filled : 0 < data.len := by rw [CacheSlice.truncate_len truncated]; exact some
  have known : s.sliceId.isSome = true := Option.isSome_iff_ne_none.mpr named
  refine ⟨⟨fun _ => filled, fun _ => known, fun _ _ _ => known, fun _ => ⟨known, filled⟩⟩,
    ⟨?_, ?_, ?_, fun uploaded => (by cases uploaded)⟩, free, rfl, free, filled, rfl⟩
  · exact fun dispatched => absurd dispatched (Nat.lt_irrefl 0)
  · exact fun uploaded => absurd uploaded (Nat.lt_irrefl 0)
  · exact fun _ _ dispatched => absurd dispatched (Nat.lt_irrefl 0)

end SliceState

namespace ChunkCommit

variable {cfg : WriteConfig} {commitBeforeUpload : Bool} {s next : ChunkCommit}
  {slice later : SliceState}

theorem TaskEdit.ready (edit : TaskEdit slice later) (ready : slice.Ready) : later.Ready := by
  cases edit with
  | same => exact ready
  | flag started => exact { ready with }
  | committed | failed => exact ⟨ready.filled, ready.named, fun reopened => (by cases reopened),
      nofun⟩

theorem TaskEdit.descForCommit (edit : TaskEdit slice later) :
    later.descForCommit = slice.descForCommit := by
  cases edit <;> rfl

/-! ### Who holds a claim -/

/-- The task's attempt has claimed the slice. -/
def Holds (s : ChunkCommit) (task index : Nat) : Prop :=
  ∃ attempt, s.tasks task = some attempt ∧ attempt.slice = index ∧ attempt.stage.holds = true

theorem holds_congr (tasks : next.tasks = s.tasks) (task index : Nat) :
    Holds next task index ↔ Holds s task index := by
  unfold Holds
  rw [tasks]

variable {index task : Nat} {attempt : Attempt}

theorem holds_slice (found : s.tasks task = some attempt) (holds : Holds s task index) :
    attempt.slice = index ∧ attempt.stage.holds = true := by
  obtain ⟨holder, same, rest⟩ := holds
  rw [found, Option.some.injEq] at same
  rw [same]
  exact rest

variable {rest : Option Attempt} {action : CommitAction}

theorem holds_update (tasks : next.tasks = update s.tasks task rest) (other index : Nat) :
    Holds next other index ↔ (other ≠ task ∧ Holds s other index) ∨
      (other = task ∧ ∃ later ∈ rest, later.slice = index ∧ later.stage.holds = true) := by
  unfold Holds
  rw [tasks]
  by_cases here : other = task
  · subst here
    simp
  · simp [here]

theorem holds_drop (tasks : next.tasks = update s.tasks task rest)
    (free : ∀ later ∈ rest, later.stage.holds = false) (other index : Nat) :
    Holds next other index ↔ other ≠ task ∧ Holds s other index := by
  rw [holds_update tasks]
  refine ⟨fun either => either.resolve_right ?_, .inl⟩
  rintro ⟨_, later, listed, _, holds⟩
  rw [free later listed] at holds
  cases holds

theorem holds_keep {later : Attempt} (found : s.tasks task = some attempt)
    (tasks : next.tasks = update s.tasks task (some later)) (slice : later.slice = attempt.slice)
    (held : later.stage.holds = attempt.stage.holds) (other index : Nat) :
    Holds next other index ↔ Holds s other index := by
  rw [holds_update tasks]
  by_cases here : other = task
  · subst here
    simp [Holds, found, slice, held]
  · simp [here]

/-! ### Claims -/

/-- No commit task backs off with its slice's flag set, and no late batch revives a failed slice
whose flag nobody will reset. -/
def ClaimGivenBack (s : ChunkCommit) : CommitAction → Prop
  | .result task .retryable => ∀ attempt ∈ s.tasks task, attempt.path = .commitChunk →
      commitMetaMaxRetries ≤ s.commitFailures + 1
  | .slice index (.advanceUploadRange _ _) => (s.slices index).state = .failed →
      (s.slices index).metaWriteStarted = true → ∃ task, Holds s task index
  | _ => True

/-- A set flag belongs to exactly one attempt, unless the slice is settled. -/
structure Consistent (s : ChunkCommit) : Prop where
  flagged : ∀ {task index}, Holds s task index → (s.slices index).metaWriteStarted = true
  single : ∀ {task other index}, Holds s task index → Holds s other index → task = other
  returned : ∀ index, (s.slices index).metaWriteStarted = true →
    ((s.slices index).state = .committed ∨ (s.slices index).state = .failed) ∨
      ∃ task, Holds s task index

structure Claims (s : ChunkCommit) : Prop extends Known s, Consistent s where
  ready : ∀ index, (s.slices index).Ready
  described : ∀ {task attempt}, s.tasks task = some attempt →
    (s.slices attempt.slice).descForCommit.isSome = true

theorem claims_init : Claims init where
  toKnown := known_init
  ready := fun _ => ready_new 0 0 0 0
  described := nofun
  flagged := fun ⟨_, idle, _⟩ => by cases idle
  single := fun ⟨_, idle, _⟩ => by cases idle
  returned := nofun

/-- The slices stay, and every task holds what it held. -/
theorem Consistent.holders (consistent : Consistent s) (slices : next.slices = s.slices)
    (same : ∀ task index, Holds next task index ↔ Holds s task index) : Consistent next := by
  refine ⟨?_, ?_, ?_⟩
  · intro task index
    rw [same, slices]
    exact consistent.flagged
  · intro task other index
    rw [same, same]
    exact consistent.single
  · rw [slices]
    simp only [same]
    exact consistent.returned

section

variable (claims : Claims s)

include claims

/-- New contents for one slice, perhaps just created. -/
theorem Claims.put (known : Known next) (tasks : next.tasks = s.tasks)
    (slices : next.slices = update s.slices index slice) (ready : slice.Ready)
    (described : index < s.created → (s.slices index).descForCommit.isSome = true →
      slice.descForCommit.isSome = true)
    (flag : index < s.created → slice.metaWriteStarted = (s.slices index).metaWriteStarted)
    (returned : slice.metaWriteStarted = true →
      (slice.state = .committed ∨ slice.state = .failed) ∨ ∃ task, Holds s task index) :
    Claims next := by
  have holders := holds_congr tasks
  refine ⟨known, ⟨?_, ?_, ?_⟩, ?_, ?_⟩
  · intro task other holds
    rw [holders] at holds
    have set := claims.flagged holds
    obtain ⟨attempt, found, rfl, _⟩ := holds
    rw [slices]
    by_cases here : attempt.slice = index
    · subst here
      rw [update_self, flag (claims.started found)]
      exact set
    · rw [update_of_ne here]
      exact set
  · intro task other index
    rw [holders, holders]
    exact claims.single
  · intro other
    simp only [holders]
    rw [slices]
    by_cases here : other = index
    · rw [here, update_self]
      exact returned
    · rw [update_of_ne here]
      exact claims.returned other
  · intro other
    rw [slices]
    by_cases here : other = index
    · rw [here, update_self]
      exact ready
    · rw [update_of_ne here]
      exact claims.ready other
  · intro task attempt found
    rw [tasks] at found
    rw [slices]
    by_cases here : attempt.slice = index
    · subst here
      rw [update_self]
      exact described (claims.started found) (claims.described found)
    · rw [update_of_ne here]
      exact claims.described found

theorem Claims.create {position : Nat} (ready : slice.Ready) (free : slice.metaWriteStarted = false)
    (known : Known { s.setSlice s.created slice with
      created := s.created + 1
      queue := s.queue.insertIdx position s.created }) :
    Claims { s.setSlice s.created slice with
      created := s.created + 1
      queue := s.queue.insertIdx position s.created } := by
  refine claims.put known rfl rfl ready (fun inside => absurd inside (Nat.lt_irrefl _))
    (fun inside => absurd inside (Nat.lt_irrefl _)) fun set => ?_
  rw [free] at set
  cases set

theorem Claims.sliceStep {event : SliceEvent} {sealedAt : Nat → Option Nat}
    (applied : (s.slices index).apply cfg s.dataEpoch event = some slice)
    (back : ClaimGivenBack s (.slice index event)) :
    Claims { s.setSlice index slice with sealedAt := sealedAt } := by
  have effect := apply_effect applied
  obtain ⟨named, grows, flag, settled⟩ := effect.claim
  refine claims.put ⟨claims.queued, claims.started⟩ rfl rfl ((claims.ready index).effect effect)
    (fun _ => ?_) (fun _ => flag) ?_
  · rw [descForCommit_isSome, descForCommit_isSome]
    exact fun before => ⟨named before.1, before.2.trans_le grows⟩
  intro set
  rw [flag] at set
  rcases claims.returned index set with final | holder
  · rcases settled final with kept | ⟨failed, start, stop, rfl⟩
    · exact .inl kept
    · exact .inr (back failed set)
  · exact .inr holder

theorem Claims.split {parts : SliceState × SliceState}
    (done : (s.slices index).splitUploadedPrefixTail cfg = some parts) :
    Claims { (s.setSlice index parts.1).setSlice s.created parts.2 with
      created := s.created + 1
      queue := s.queue.insertIdx 1 s.created
      sealedAt := update s.sealedAt index (some s.truncations) } := by
  obtain ⟨ready, tailReady, free, tailFree, before, filled, named⟩ := split_ready done
  have halved : Claims { s.setSlice index parts.1 with
      sealedAt := update s.sealedAt index (some s.truncations) } := by
    refine claims.put ⟨claims.queued, claims.started⟩ rfl rfl ready (fun _ => ?_)
      (fun _ => free.trans before.symm) ?_
    · rw [descForCommit_isSome, descForCommit_isSome, named]
      exact fun described => ⟨described.1, filled⟩
    intro set
    rw [free] at set
    cases set
  refine halved.create tailReady tailFree ⟨fun other listed => halved.insert 1 listed, ?_⟩
  exact fun found => Nat.lt_succ_of_lt (claims.started found)

theorem Claims.begin {path : CommitPath} (idle : s.tasks task = none)
    (able : s.startable commitBeforeUpload task index path = true)
    (known : Known (s.setTask task (some ⟨index, path, .started, s.truncations⟩))) :
    Claims (s.setTask task (some ⟨index, path, .started, s.truncations⟩)) := by
  have described : (s.slices index).descForCommit.isSome = true := by
    cases path with
    | tryCommit | beforeUpload =>
      simp only [startable, Bool.and_eq_true] at able
      exact able.2
    | commitChunk =>
      simp only [startable, Bool.and_eq_true, decide_eq_true_eq] at able
      exact ((s.slices index).descForCommit_isSome).mpr ((claims.ready index).described able.1.2)
  have same : ∀ other held, Holds (s.setTask task (some ⟨index, path, .started, s.truncations⟩))
      other held ↔ Holds s other held := by
    intro other held
    rw [holds_drop rfl (fun later listed => by cases listed; rfl)]
    refine ⟨And.right, fun holds => ⟨?_, holds⟩⟩
    rintro rfl
    obtain ⟨attempt, found, _⟩ := holds
    rw [idle] at found
    cases found
  refine ⟨known, claims.toConsistent.holders rfl same, claims.ready, ?_⟩
  intro other attempt found
  rcases Slots.mem_put found with ⟨_, rfl⟩ | ⟨_, old⟩
  · exact described
  · exact claims.described old

end

/-! ### A task step -/

section

variable (consistent : Consistent s) (found : s.tasks task = some attempt)

include consistent found

theorem Consistent.claim (free : (s.slices attempt.slice).metaWriteStarted = false)
    (slices : next.slices = update s.slices attempt.slice
      { s.slices attempt.slice with metaWriteStarted := true })
    (tasks : next.tasks = update s.tasks task (some { attempt with stage := .claimed })) :
    Consistent next := by
  have unheld : ∀ other index, Holds s other index → index ≠ attempt.slice := by
    rintro other index holds rfl
    rw [consistent.flagged holds] at free
    cases free
  have holders : ∀ other index, Holds next other index ↔
      (other ≠ task ∧ Holds s other index) ∨ (other = task ∧ attempt.slice = index) := by
    intro other index
    rw [holds_update tasks]
    simp [Stage.holds]
  refine ⟨?_, ?_, ?_⟩
  · intro other index
    rw [holders, slices]
    rintro (⟨_, holds⟩ | ⟨_, rfl⟩)
    · rw [update_of_ne (unheld other index holds)]
      exact consistent.flagged holds
    · rw [update_self]
  · intro first second index
    rw [holders, holders]
    rintro (⟨_, holds⟩ | ⟨rfl, rfl⟩) (⟨_, rival⟩ | ⟨rfl, same⟩)
    · exact consistent.single holds rival
    · exact absurd same.symm (unheld first index holds)
    · exact absurd rfl (unheld second _ rival)
    · rfl
  · intro index
    simp only [holders]
    rw [slices]
    by_cases here : index = attempt.slice
    · exact fun _ => .inr ⟨task, .inr ⟨rfl, here.symm⟩⟩
    rw [update_of_ne here]
    intro set
    rcases consistent.returned index set with settled | ⟨holder, holds⟩
    · exact .inl settled
    refine .inr ⟨holder, .inl ⟨?_, holds⟩⟩
    rintro rfl
    exact here (holds_slice found holds).1.symm

/-- The task holds nothing any more; a settled slice may keep its flag. -/
theorem Consistent.leave (slices : next.slices = update s.slices attempt.slice slice)
    (flag : ∀ other ≠ task, Holds s other attempt.slice → slice.metaWriteStarted = true)
    (settled : slice.metaWriteStarted = true → slice.state = .committed ∨ slice.state = .failed)
    (leaves : ∀ later ∈ rest, later.stage.holds = false)
    (tasks : next.tasks = update s.tasks task rest) : Consistent next := by
  have holders := holds_drop tasks leaves
  refine ⟨?_, ?_, ?_⟩
  · intro other index
    rw [holders, slices]
    rintro ⟨apart, holds⟩
    by_cases here : index = attempt.slice
    · rw [here] at holds ⊢
      rw [update_self]
      exact flag other apart holds
    · rw [update_of_ne here]
      exact consistent.flagged holds
  · intro first second index
    rw [holders, holders]
    exact fun holds rival => consistent.single holds.2 rival.2
  · intro index
    simp only [holders]
    rw [slices]
    by_cases here : index = attempt.slice
    · rw [here, update_self]
      exact fun set => .inl (settled set)
    rw [update_of_ne here]
    intro set
    rcases consistent.returned index set with before | ⟨holder, holds⟩
    · exact .inl before
    refine .inr ⟨holder, ?_, holds⟩
    rintro rfl
    exact here (holds_slice found holds).1.symm

theorem Consistent.taskStep (described : (s.slices attempt.slice).descForCommit.isSome = true)
    (back : (∃ asked, action = .result asked .retryable) → attempt.path = .commitChunk →
      commitMetaMaxRetries ≤ s.commitFailures + 1)
    (effect : TaskEffect s task attempt action next) : Consistent next := by
  cases effect with
  | checked _ begun slices tasks =>
    refine consistent.holders slices (holds_keep found tasks rfl ?_)
    rw [begun]
    split <;> rfl
  | move stage held _ slices tasks =>
    exact consistent.holders slices (holds_keep found tasks rfl held)
  | claim _ free slices tasks => exact consistent.claim found free slices tasks
  | release held slices tasks =>
    refine consistent.leave found slices (fun other apart holds => ?_) nofun (by simp) tasks
    exact absurd (consistent.single holds ⟨attempt, found, rfl, held⟩) apart
  | settle slice settled slices rest leaves tasks =>
    have idle : ∀ later ∈ rest, later.stage.holds = false :=
      fun later listed => by rw [leaves later listed]; rfl
    rcases settled with rfl | ⟨message, rfl⟩
    · exact consistent.leave found slices (fun _ _ => consistent.flagged)
        (fun _ => .inl rfl) idle tasks
    · exact consistent.leave found slices (fun _ _ => consistent.flagged)
        (fun _ => .inr rfl) idle tasks
  | stop free slices tasks =>
    refine consistent.holders slices fun other index => ?_
    rw [holds_drop tasks (by simp)]
    refine ⟨And.right, fun holds => ⟨?_, holds⟩⟩
    rintro rfl
    rw [(holds_slice found holds).2] at free
    cases free
  | undescribed _ _ none _ _ =>
    rw [none] at described
    cases described
  | abandon asked failures writing path budget _ _ =>
    exact absurd (back asked path) (not_le.mpr budget)

end

theorem Claims.taskStep (claims : Claims s) (known : Known next)
    (found : s.tasks task = some attempt)
    (back : (∃ asked, action = .result asked .retryable) → attempt.path = .commitChunk →
      commitMetaMaxRetries ≤ s.commitFailures + 1)
    (effect : TaskEffect s task attempt action next) : Claims next := by
  have described := claims.described found
  refine ⟨known, claims.toConsistent.taskStep found described back effect,
    fun index => (effect.slices_edit index).ready (claims.ready index), ?_⟩
  intro other later listed
  rw [(effect.slices_edit later.slice).descForCommit]
  obtain ⟨rest, tasks, same⟩ := effect.tasks_update
  rw [tasks] at listed
  by_cases here : other = task
  · rw [here, update_self] at listed
    rw [same later listed]
    exact described
  · rw [update_of_ne here] at listed
    exact claims.described listed

theorem Claims.advance (claims : Claims s) (back : ClaimGivenBack s action)
    (taken : s.step cfg commitBeforeUpload action = some next) : Claims next := by
  have effect := step_effect taken
  have known := claims.toKnown.advance effect
  cases effect with
  | task task attempt owned found effect frame =>
    refine claims.taskStep known found ?_ effect
    rintro ⟨asked, rfl⟩
    cases owned
    exact back attempt found
  | create offset creationUnique writeOrder =>
    exact claims.create (ready_new 0 offset creationUnique writeOrder) rfl known
  | slice index event slice inside applied => exact claims.sliceStep applied back
  | split index parts front done => exact claims.split done
  | bumpDataEpoch => exact ⟨known, claims.toConsistent.holders rfl fun _ _ => holds_congr rfl _ _,
      claims.ready, claims.described⟩
  | start task path index idle inside able => exact claims.begin idle able known
  | dequeue queue commitFailures tasks fewer kept ended =>
    refine ⟨known, claims.toConsistent.holders rfl fun task index => ⟨?_, ?_⟩, claims.ready,
      fun found => claims.described (kept _ _ found)⟩ <;>
      rintro ⟨attempt, found, rest⟩
    · exact ⟨attempt, kept task attempt found, rest⟩
    · exact ⟨attempt, ended task attempt found rest.2, rest⟩

/-- In every state of a run that gives its claims back, a slice that no attempt holds and that is
neither committed nor failed has its flag down, so the next attempt can claim it; and no two
attempts hold the same slice. -/
theorem claim_given_back {actions : List CommitAction}
    (run : Run.exec (step cfg commitBeforeUpload) init actions = some s)
    (back : Run.Along (step cfg commitBeforeUpload) ClaimGivenBack init actions) :
    (∀ index, (∀ task, ¬ Holds s task index) → (s.slices index).state ≠ .committed →
      (s.slices index).state ≠ .failed → (s.slices index).metaWriteStarted = false ∧
        ∀ task attempt, s.tasks task = some attempt → attempt.slice = index →
          attempt.stage = (if attempt.path = .beforeUpload then .staged else .passed) →
          ∃ next, s.step cfg commitBeforeUpload (.claim task) = some next ∧
            Holds next task index) ∧
    ∀ task other index, Holds s task index → Holds s other index → task = other := by
  have claims : Claims s := Run.invariant_along (fun _ _ _ claims => claims.advance) claims_init
    back
    run
  refine ⟨fun index unheld uncommitted unfailed => ?_, fun _ _ _ => claims.single⟩
  have free : (s.slices index).metaWriteStarted = false := by
    by_contra set
    rw [Bool.not_eq_false] at set
    rcases claims.returned index set with (committed | failed) | ⟨task, holds⟩
    · exact uncommitted committed
    · exact unfailed failed
    · exact unheld task holds
  refine ⟨free, ?_⟩
  rintro task attempt found rfl ready
  refine ⟨(s.setSlice attempt.slice
      { s.slices attempt.slice with metaWriteStarted := true }).setStage task attempt .claimed, ?_,
    { attempt with stage := .claimed }, update_self _ _ _, rfl, rfl⟩
  simp [step, taskOf, taskStep, found, ← ready, free]

/-- A slice is committed before its upload; the metadata write fails and the claim is free again. -/
def rejectedByte : List CommitAction :=
  [.create 0 0 1, .slice 0 (.write 0 [1] none), .slice 0 .freeze, .slice 0 (.setSliceId 5),
    .start 0 .beforeUpload 0, .checkEpoch 0, .stage 0 .ready, .claim 0, .issue 0,
    .result 0 .permanent]

theorem claim_given_back_rejected : ∃ s,
    Run.exec (step Uploads.tinyConfig true) init rejectedByte = some s ∧
    (s.slices 0).state = .readonly ∧ (s.slices 0).metaWriteStarted = false := by
  have run : Run.exec (step Uploads.tinyConfig true) init rejectedByte = some _ := rfl
  refine ⟨_, run, rfl, ?_⟩
  refine ((claim_given_back run ?_).1 0 ?_ (by decide) (by decide)).1
  · exact Run.along_of_forall (by simp [rejectedByte, ClaimGivenBack])
  rintro (_ | task) ⟨attempt, found, _⟩
  · cases found
  · cases found

/-- The commit task meets a retryable error and leaves its slice's flag set. -/
theorem claim_kept_after_retryable : ∃ s,
    Run.exec (step Uploads.tinyConfig false) init (uploadByte ++
      [.start 0 .commitChunk 0, .checkEpoch 0, .claim 0, .issue 0, .result 0 .retryable]) = some s ∧
    (∀ task, s.tasks task = none) ∧ (s.slices 0).state = .uploaded ∧
    (s.slices 0).metaWriteStarted = true := by
  refine ⟨_, rfl, ?_, rfl, rfl⟩
  rintro (_ | task)
  · rfl
  · rfl

end ChunkCommit

end BrewFs.Vfs
