import BrewFs.Vfs.Writer.Commit

/-! A truncation bumps the data epoch of the inode; commits of slices sealed before it must not
reach the metadata store. -/

namespace BrewFs.Vfs

open Function (forall_update_iff update update_of_ne update_self)

/-- Only freezing a writable slice records an epoch, and a sealed slice stays sealed. -/
theorem SliceState.Effect.epoch {cfg : WriteConfig} {dataEpoch : Nat} {s next : SliceState}
    {event : SliceEvent} (effect : Effect cfg dataEpoch s event next) :
    (s.state ≠ .writable → next.state ≠ .writable ∧ next.frozenEpoch = s.frozenEpoch) ∧
    (event ≠ .freeze → next.frozenEpoch = s.frozenEpoch) ∧
    (next.frozenEpoch = dataEpoch ∨ next.frozenEpoch = s.frozenEpoch) ∧
    (next.state = .writable → next.frozenEpoch = s.frozenEpoch) := by
  cases effect with
  | unchanged | write | setSliceId | prepareUpload | advance | advanceReleased =>
    exact ⟨fun closed => ⟨closed, rfl⟩, fun _ => rfl, .inr rfl, fun _ => rfl⟩
  | discard | advanceUploaded =>
    exact ⟨fun _ => ⟨by simp, rfl⟩, fun _ => rfl, .inr rfl, fun _ => rfl⟩
  | freeze writable | freezeUploaded writable =>
    exact ⟨fun closed => absurd writable closed, fun other => absurd rfl other, .inl rfl, nofun⟩
  | markFailed => exact ⟨fun _ => ⟨by simp [SliceState.markFailed], rfl⟩, fun _ => rfl, .inr rfl,
      fun _ => rfl⟩

namespace ChunkCommit

variable {cfg : WriteConfig} {commitBeforeUpload : Bool} {s next : ChunkCommit}

/-- At an epoch check of a slice sealed before the last truncation, it carries an epoch to which the
counter has not come back. -/
def EpochTold (s : ChunkCommit) : CommitAction → Prop
  | .checkEpoch task => ∀ attempt ∈ s.tasks task, ∀ count ∈ s.sealedAt attempt.slice,
      count < s.truncations →
        (s.slices attempt.slice).frozenEpoch ≠ 0 ∧ (s.truncations - count) % 2 ^ 64 ≠ 0
  | _ => True

/-- The epochs of slices and attempts, by the truncations so far. -/
structure Dated (s : ChunkCommit) : Prop extends Known s where
  epoch : s.dataEpoch = s.truncations % 2 ^ 64
  fresh : ∀ index, (s.slices index).state = .writable → (s.slices index).frozenEpoch = 0
  recorded : ∀ {index count}, s.sealedAt index = some count → index < s.created ∧
    ((s.slices index).frozenEpoch = count % 2 ^ 64 ∨ (s.slices index).frozenEpoch = 0)
  closed : ∀ {task attempt}, s.tasks task = some attempt →
    (s.slices attempt.slice).state ≠ .writable
  current : ∀ {task attempt}, s.tasks task = some attempt → attempt.stage.current = true →
    ∀ count, s.sealedAt attempt.slice = some count → attempt.checkedAt ≤ count

theorem dated_init : Dated init where
  toKnown := known_init
  epoch := rfl
  fresh := fun _ _ => rfl
  recorded := nofun
  closed := nofun
  current := nofun

variable {attempt : Attempt}

/-- A passed check has seen every truncation since the seal. -/
theorem Dated.check_current (dated : Dated s) {task : Nat} (told : EpochTold s (.checkEpoch task))
    (found : s.tasks task = some attempt) (fine : s.isStale attempt.slice = false) {count : Nat}
    (sealed : s.sealedAt attempt.slice = some count) : s.truncations ≤ count := by
  by_contra bumped
  obtain ⟨marked, apart⟩ := told attempt found count sealed (by omega)
  have epoch : (s.slices attempt.slice).frozenEpoch = count % 2 ^ 64 :=
    (dated.recorded sealed).2.resolve_right marked
  have same : s.dataEpoch = (s.slices attempt.slice).frozenEpoch := by
    simpa [isStale, marked] using fine
  rw [dated.epoch] at same
  omega

theorem TaskEdit.epoch {slice later : SliceState} (edit : TaskEdit slice later) :
    later.frozenEpoch = slice.frozenEpoch ∧
      (later.state = .writable → slice.state = .writable) := by
  cases edit with
  | same | flag => exact ⟨rfl, id⟩
  | committed | failed => exact ⟨rfl, nofun⟩

variable {action : CommitAction}

/-- An attempt after a task step: another task's, or its own successor. -/
theorem TaskEffect.tasks_epoch {task other : Nat} {later : Attempt}
    (effect : TaskEffect s task attempt action next) (found : next.tasks other = some later) :
    (other ≠ task ∧ s.tasks other = some later) ∨
    (other = task ∧ later.slice = attempt.slice ∧ (later.stage.current = true →
      (attempt.stage.current = true ∧ later.checkedAt = attempt.checkedAt) ∨
      ((∃ asked, action = .checkEpoch asked) ∧ s.isStale attempt.slice = false ∧
        later.checkedAt = s.truncations))) := by
  by_cases here : other = task
  · subst here
    refine .inr ⟨rfl, ?_⟩
    cases effect with
    | checked asked _ _ tasks =>
      rw [tasks, update_self] at found
      cases found
      refine ⟨rfl, fun current => .inr ⟨asked, ?_, rfl⟩⟩
      by_contra stale
      rw [Bool.not_eq_false] at stale
      simp [stale, Stage.current] at current
    | move stage _ kept _ tasks =>
      rw [tasks, update_self] at found
      cases found
      exact ⟨rfl, fun current => .inl ⟨kept current, rfl⟩⟩
    | claim current _ _ tasks =>
      rw [tasks, update_self] at found
      cases found
      exact ⟨rfl, fun _ => .inl ⟨current, rfl⟩⟩
    | settle _ _ _ rest leaves tasks =>
      rw [tasks, update_self] at found
      obtain rfl := leaves later found
      exact ⟨rfl, nofun⟩
    | undescribed _ _ _ _ tasks =>
      rw [tasks, update_self] at found
      cases found
      exact ⟨rfl, nofun⟩
    | release _ _ tasks | stop _ _ tasks | abandon _ _ _ _ _ _ tasks =>
      rw [tasks, update_self] at found
      cases found
  · obtain ⟨rest, tasks, _⟩ := effect.tasks_update
    rw [tasks, update_of_ne here] at found
    exact .inl ⟨here, found⟩

theorem Dated.task (dated : Dated s) (known : Known next) {task : Nat}
    (found : s.tasks task = some attempt) (effect : TaskEffect s task attempt action next)
    (frame : Frame s next)
    (told : (∃ asked, action = .checkEpoch asked) → EpochTold s (.checkEpoch task)) :
    Dated next where
  toKnown := known
  epoch := by rw [frame.dataEpoch, frame.truncations, dated.epoch]
  fresh := by
    intro index writable
    obtain ⟨epoch, status⟩ := (effect.slices_edit index).epoch
    rw [epoch]
    exact dated.fresh index (status writable)
  recorded := by
    intro index count sealed
    rw [frame.sealedAt] at sealed
    rw [frame.created, (effect.slices_edit index).epoch.1]
    exact dated.recorded sealed
  closed := by
    intro other later listed writable
    have before := (effect.slices_edit later.slice).epoch.2 writable
    rcases effect.tasks_epoch listed with ⟨_, kept⟩ | ⟨_, same, _⟩
    · exact dated.closed kept before
    · exact dated.closed found (same ▸ before)
  current := by
    intro other later listed current count sealed
    rw [frame.sealedAt] at sealed
    rcases effect.tasks_epoch listed with ⟨_, before⟩ | ⟨_, same, origin⟩
    · exact dated.current before current count sealed
    rw [same] at sealed
    rcases origin current with ⟨before, unchanged⟩ | ⟨asked, fine, now⟩
    · rw [unchanged]
      exact dated.current found before count sealed
    · rw [now]
      exact dated.check_current (told asked) found fine sealed

variable {index : Nat}

section

variable (dated : Dated s)

include dated

theorem Dated.put {slice : SliceState} {created : Nat} {queue : List Nat}
    {sealedAt : Nat → Option Nat} (grows : s.created ≤ created)
    (queued : ∀ index ∈ queue, index < created)
    (others : ∀ other ≠ index, sealedAt other = s.sealedAt other)
    (fresh : slice.state = .writable → slice.frozenEpoch = 0)
    (recorded : ∀ count, sealedAt index = some count → index < created ∧
      (slice.frozenEpoch = count % 2 ^ 64 ∨ slice.frozenEpoch = 0))
    (kept : index < s.created → (s.slices index).state ≠ .writable →
      slice.state ≠ .writable ∧ sealedAt index = s.sealedAt index) :
    Dated { s.setSlice index slice with
      created := created, queue := queue, sealedAt := sealedAt } := by
  have left : ∀ task attempt, s.tasks task = some attempt →
      (update s.slices index slice attempt.slice).state ≠ .writable ∧
        sealedAt attempt.slice = s.sealedAt attempt.slice := by
    intro task attempt found
    have known := dated.started found
    have closed := dated.closed found
    by_cases here : attempt.slice = index
    · subst here
      rw [update_self]
      exact kept known closed
    · rw [update_of_ne here]
      exact ⟨closed, others _ here⟩
  exact {
    queued := queued
    started := fun found => (dated.started found).trans_le grows
    epoch := dated.epoch
    fresh := (forall_update_iff _ fun _ (slice : SliceState) => slice.state = .writable →
      slice.frozenEpoch = 0).mpr ⟨fresh, fun other _ => dated.fresh other⟩
    recorded := by
      intro other count sealed
      by_cases here : other = index
      · subst here
        rw [setSlice_slices, update_self]
        exact recorded count sealed
      obtain ⟨known, epoch⟩ := dated.recorded ((others other here).symm.trans sealed)
      rw [setSlice_slices, update_of_ne here]
      exact ⟨known.trans_le grows, epoch⟩
    closed := fun found => (left _ _ found).1
    current := fun found current count sealed =>
      dated.current found current count ((left _ _ found).2 ▸ sealed) }

theorem Dated.create (slice : SliceState) (position : Nat) (new : slice.frozenEpoch = 0) :
    Dated { s.setSlice s.created slice with
      created := s.created + 1
      queue := s.queue.insertIdx position s.created } :=
  dated.put (Nat.le_succ _) (fun _ listed => dated.insert position listed) (fun _ _ => rfl)
    (fun _ => new) (fun _ sealed => absurd (dated.recorded sealed).1 (Nat.lt_irrefl _))
    fun known => absurd known (Nat.lt_irrefl _)

theorem Dated.slice (known : index < s.created) {event : SliceEvent} {slice : SliceState}
    (applied : (s.slices index).apply cfg s.dataEpoch event = some slice) :
    Dated { s.setSlice index slice with
      sealedAt := if (s.slices index).state = .writable ∧ event.seals = true then
        update s.sealedAt index (some s.truncations) else s.sealedAt } := by
  obtain ⟨closed, unfrozen, epochs, reopened⟩ := (SliceState.apply_effect applied).epoch
  refine dated.put le_rfl dated.queued (fun other here => ?_) (fun writable => ?_)
    (fun count sealed => ⟨known, ?_⟩) fun _ sealed => ⟨(closed sealed).1, ?_⟩
  · split
    · exact update_of_ne here ..
    · rfl
  · rw [reopened writable]
    apply dated.fresh index
    by_contra sealed
    exact (closed sealed).1 writable
  · split at sealed
    · rename_i frozen
      rw [update_self] at sealed
      cases sealed
      rcases epochs with now | before
      · exact .inl (now.trans dated.epoch)
      · exact .inr (before.trans (dated.fresh index frozen.1))
    rename_i kept
    rw [not_and_or] at kept
    have same : slice.frozenEpoch = (s.slices index).frozenEpoch := by
      rcases kept with sealedBefore | notFreeze
      · exact (closed sealedBefore).2
      refine unfrozen fun freeze => notFreeze ?_
      rw [freeze]
      rfl
    rw [same]
    exact (dated.recorded sealed).2
  · rw [if_neg fun frozen => sealed frozen.1]

theorem Dated.split {parts : SliceState × SliceState}
    (done : (s.slices index).splitUploadedPrefixTail cfg = some parts) (known : index < s.created) :
    Dated { (s.setSlice index parts.1).setSlice s.created parts.2 with
      created := s.created + 1
      queue := s.queue.insertIdx 1 s.created
      sealedAt := update s.sealedAt index (some s.truncations) } := by
  obtain ⟨⟨writable, _⟩, _, data, tailData, _, _, rfl⟩ :=
    SliceState.splitUploadedPrefixTail_spec done
  have halved : Dated { s.setSlice index { s.slices index with state := .uploaded, data := data }
      with sealedAt := update s.sealedAt index (some s.truncations) } :=
    dated.put le_rfl dated.queued (fun other here => update_of_ne here ..) nofun
      (fun _ _ => ⟨known, .inr (dated.fresh index writable)⟩) fun _ closed => absurd writable closed
  exact halved.create _ 1 rfl

theorem Dated.begin {task : Nat} {path : CommitPath}
    (known : Known (s.setTask task (some ⟨index, path, .started, s.truncations⟩)))
    (closed : (s.slices index).state ≠ .writable) :
    Dated (s.setTask task (some ⟨index, path, .started, s.truncations⟩)) where
  toKnown := known
  epoch := dated.epoch
  fresh := dated.fresh
  recorded := dated.recorded
  closed := by
    intro other attempt found
    rcases Slots.mem_put found with ⟨_, rfl⟩ | ⟨_, old⟩
    · exact closed
    · exact dated.closed old
  current := by
    intro other attempt found current
    rcases Slots.mem_put found with ⟨_, rfl⟩ | ⟨_, old⟩
    · cases current
    · exact dated.current old current

theorem Dated.advance (told : EpochTold s action)
    (taken : s.step cfg commitBeforeUpload action = some next) : Dated next := by
  have effect := step_effect taken
  have known := dated.toKnown.advance effect
  cases effect with
  | task task attempt owned found effect frame =>
    apply dated.task known found effect frame
    rintro ⟨asked, rfl⟩
    cases owned
    exact told
  | create offset creationUnique writeOrder => exact dated.create _ _ rfl
  | slice index event slice inside applied => exact dated.slice inside applied
  | split index parts front done => exact dated.split done (dated.queued index front)
  | bumpDataEpoch =>
    refine ⟨known, ?_, dated.fresh, dated.recorded, dated.closed, dated.current⟩
    change (s.dataEpoch + 1) % 2 ^ 64 = (s.truncations + 1) % 2 ^ 64
    rw [dated.epoch]
    omega
  | start task path index idle inside able =>
    exact dated.begin known fun writable => by cases path <;> simp [startable, writable] at able
  | dequeue queue commitFailures tasks fewer kept ended =>
    exact ⟨known, dated.epoch, dated.fresh, dated.recorded,
      fun found => dated.closed (kept _ _ found), fun found => dated.current (kept _ _ found)⟩

end

/-- In every run whose epoch checks are told of the truncations since the seal, the slice under a
metadata write was sealed after the last truncation before its attempt's check. -/
theorem writing_not_stale {actions : List CommitAction}
    (run : Run.exec (step cfg commitBeforeUpload) init actions = some s)
    (told : Run.Along (step cfg commitBeforeUpload) EpochTold init actions)
    {task failures count : Nat} {attempt : Attempt} (found : s.tasks task = some attempt)
    (writing : attempt.stage = .writing failures) (sealed : s.sealedAt attempt.slice = some count) :
    attempt.checkedAt ≤ count := by
  have dated : Dated s := Run.invariant_along (fun _ _ _ dated => dated.advance) dated_init told run
  refine dated.current found ?_ count sealed
  rw [writing]
  rfl

/-- `try_commit` up to its metadata write. -/
def commitByte : List CommitAction := [.start 1 .tryCommit 0, .checkEpoch 1, .claim 1, .issue 1]

instance (s : ChunkCommit) (action : CommitAction) : Decidable (EpochTold s action) := by
  cases action <;> unfold EpochTold <;> infer_instance

/-- The inode is truncated before the freeze, and again during the metadata write. -/
theorem writing_not_stale_truncated : ∃ s attempt, Run.exec (step Uploads.tinyConfig false) init
      (.bumpDataEpoch :: uploadByte ++ commitByte ++ [.bumpDataEpoch]) = some s ∧
    s.tasks 1 = some attempt ∧ s.truncations = 2 ∧ attempt.checkedAt ≤ 1 := by
  have run : Run.exec (step Uploads.tinyConfig false) init
      (.bumpDataEpoch :: uploadByte ++ commitByte ++ [.bumpDataEpoch]) = some _ := rfl
  refine ⟨_, ⟨0, .tryCommit, .writing 0, 1⟩, run, rfl, rfl, ?_⟩
  exact @writing_not_stale Uploads.tinyConfig false _ _ run (by decide) 1 0 1 _ rfl rfl rfl

/-- The inode's first truncation comes between a slice's freeze and commit. -/
theorem writing_after_first_truncation : ∃ s attempt count,
    Run.exec (step Uploads.tinyConfig false) init
      (uploadByte ++ [.bumpDataEpoch] ++ commitByte) = some s ∧
    s.tasks 1 = some attempt ∧ attempt.stage = .writing 0 ∧
    s.sealedAt attempt.slice = some count ∧ count < attempt.checkedAt :=
  ⟨_, ⟨0, .tryCommit, .writing 0, 1⟩, 0, rfl, rfl, rfl, rfl, by decide⟩

end ChunkCommit

end BrewFs.Vfs
