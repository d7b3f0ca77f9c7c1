import BrewFs.Vfs.Writer.Upload

/-! What the writer does to a slice outside of its commit: the events and their effects. -/

namespace BrewFs.Vfs

inductive SliceEvent where
  | write (offset : Nat) (buf : List UInt8) (allowGapFrom : Option Nat)
  | freeze
  | setSliceId (id : Nat)
  | prepareUpload
  /-- A batch has been uploaded; the slice has an id by then. -/
  | advanceUploadRange (start stop : Nat)
  | markFailed (message : String)

def SliceEvent.seals : SliceEvent → Bool
  | .freeze => true
  | .write _ _ _ | .setSliceId _ | .prepareUpload | .advanceUploadRange _ _ | .markFailed _ => false

def SliceEvent.writes : SliceEvent → Bool
  | .write _ _ _ => true
  | .freeze | .setSliceId _ | .prepareUpload | .advanceUploadRange _ _ | .markFailed _ => false

def SliceState.apply (cfg : WriteConfig) (dataEpoch : Nat) (s : SliceState) :
    SliceEvent → Option SliceState
  | .write offset buf allowGapFrom => (s.tryWrite cfg offset buf allowGapFrom).map (·.2)
  | .freeze => some (s.freeze cfg dataEpoch).2
  | .setSliceId id => some (s.setSliceId id)
  | .prepareUpload => (s.prepareUpload cfg).map (·.2)
  | .advanceUploadRange start stop =>
    if s.sliceId.isSome ∧ 0 < s.dispatchedEnd then some (s.advanceUploadRange cfg start stop)
    else none
  | .markFailed message => some (s.markFailed message)

namespace SliceState

variable {cfg : WriteConfig} {dataEpoch : Nat} {s next : SliceState} {event : SliceEvent}

/-- Every way an event can change a slice. -/
inductive Effect (cfg : WriteConfig) (dataEpoch : Nat) (s : SliceState) :
    SliceEvent → SliceState → Prop
  | unchanged (event : SliceEvent) : Effect cfg dataEpoch s event s
  | write {offset : Nat} {buf : List UInt8} {allowGapFrom : Option Nat} (action : WriteAction)
      (data : CacheSlice) (able : s.canWrite cfg offset buf.length allowGapFrom = some action)
      (written : s.data.write cfg (offset - s.offset) buf action = some data) :
      Effect cfg dataEpoch s (.write offset buf allowGapFrom) { s with data := data }
  /-- An empty slice has nothing to commit. -/
  | discard (writable : s.state = .writable) (blank : s.data.len = 0) :
      Effect cfg dataEpoch s .freeze { s with state := .committed, err := none }
  | freeze (writable : s.state = .writable) : Effect cfg dataEpoch s .freeze
      { s with state := .readonly, frozenEpoch := dataEpoch, data := s.data.freeze }
  | freezeUploaded (writable : s.state = .writable) (filled : 0 < s.data.len)
      (idle : s.inFlight = 0)
      (out : s.data.len ≤ max (s.dispatchedEnd * cfg.blockSize) s.uploaded) :
      Effect cfg dataEpoch s .freeze
        { s with state := .uploaded, frozenEpoch := dataEpoch, data := s.data.freeze, err := none }
  | setSliceId (id : Nat) (unnamed : s.sliceId = none) :
      Effect cfg dataEpoch s (.setSliceId id) { s with sliceId := some id }
  | prepareUpload (stop : Nat) (idle : s.hasIdleBlock cfg = true) (filled : 0 < s.data.len)
      (forward : s.dispatchedEnd < stop) :
      Effect cfg dataEpoch s .prepareUpload { s with
          data := s.data.freezeBlocks cfg s.dispatchedEnd stop
          dispatchedEnd := stop
          inFlight := s.inFlight + 1 }
  | advance (start stop : Nat) (named : s.sliceId.isSome = true)
      (pending : ¬ (s.state = .committed ∧
        (s.recordRange cfg start stop).uploadComplete cfg = true)) :
      Effect cfg dataEpoch s (.advanceUploadRange start stop) (s.recordRange cfg start stop)
  | advanceUploaded (start stop : Nat) (named : s.sliceId.isSome = true)
      (dispatched : 0 < s.dispatchedEnd) (closed : s.state = .readonly ∨ s.state = .failed) :
      Effect cfg dataEpoch s (.advanceUploadRange start stop)
        { s.recordRange cfg start stop with state := .uploaded, err := none }
  | advanceReleased (start stop : Nat) (named : s.sliceId.isSome = true)
      (committed : s.state = .committed)
      (complete : (s.recordRange cfg start stop).uploadComplete cfg = true) :
      Effect cfg dataEpoch s (.advanceUploadRange start stop)
        { s.recordRange cfg start stop with data := s.data.releaseAll }
  | markFailed (message : String) :
      Effect cfg dataEpoch s (.markFailed message) (s.markFailed message)

theorem freeze_effect : Effect cfg dataEpoch s .freeze (s.freeze cfg dataEpoch).2 := by
  unfold freeze
  split
  · exact .unchanged _
  rename_i writable
  rw [not_not] at writable
  split
  · rename_i blank
    exact .discard writable blank
  rename_i filled
  dsimp only
  rcases Uploads.settleUpload_cases cfg
      { s with state := .readonly, frozenEpoch := dataEpoch, data := s.data.freeze } with
    same | ⟨settled, _, idle, busy⟩
  · rw [same]
    exact .freeze writable
  rw [settled]
  have out := Uploads.len_of_not_idle rfl busy
  exact .freezeUploaded writable (Nat.pos_of_ne_zero filled) idle out

theorem prepareUpload_effect {plan : UploadPlan}
    (prepared : s.prepareUpload cfg = some (plan, next)) :
    Effect cfg dataEpoch s .prepareUpload next := by
  unfold prepareUpload at prepared
  split at prepared
  · cases prepared
  rename_i able
  rw [not_or, Bool.not_eq_false] at able
  obtain ⟨forward, ⟨⟩⟩ := Option.ite_none_left_eq_some.mp prepared
  have inside := Uploads.dispatchedEnd_of_idle able.2
  exact .prepareUpload _ able.2 (Nat.zero_lt_of_lt inside) (not_le.mp forward)

theorem advance_effect {start stop : Nat} (named : s.sliceId.isSome = true)
    (dispatched : 0 < s.dispatchedEnd) : Effect cfg dataEpoch s (.advanceUploadRange start stop)
      (s.advanceUploadRange cfg start stop) := by
  unfold advanceUploadRange
  rcases Uploads.settleUpload_cases cfg (s.recordRange cfg start stop) with
    same | ⟨settled, closed, _, _⟩
  · rw [same]
    unfold releaseIfComplete
    split
    · rename_i released
      exact .advanceReleased start stop named released.1 released.2
    · rename_i pending
      exact .advance start stop named pending
  · rw [settled]
    exact .advanceUploaded start stop named dispatched closed

theorem apply_effect (applied : s.apply cfg dataEpoch event = some next) :
    Effect cfg dataEpoch s event next := by
  cases event with
  | write offset buf allowGapFrom =>
    obtain ⟨result, tried, rfl⟩ := Option.map_eq_some_iff.mp applied
    unfold tryWrite at tried
    split at tried
    · cases tried
      exact .unchanged _
    rename_i action able
    obtain ⟨data, written, rfl⟩ := Option.map_eq_some_iff.mp tried
    exact .write action data able written
  | freeze =>
    cases applied
    exact freeze_effect
  | setSliceId id =>
    cases applied
    unfold SliceState.setSliceId
    split
    · rename_i unnamed
      exact .setSliceId id unnamed
    · exact .unchanged _
  | prepareUpload =>
    obtain ⟨⟨plan, prepared⟩, done, rfl⟩ := Option.map_eq_some_iff.mp applied
    exact prepareUpload_effect done
  | advanceUploadRange start stop =>
    obtain ⟨⟨named, dispatched⟩, ⟨⟩⟩ := Option.ite_none_right_eq_some.mp applied
    exact advance_effect named dispatched
  | markFailed message =>
    cases applied
    exact .markFailed message

theorem Effect.writeOrder (effect : Effect cfg dataEpoch s event next) :
    next.writeOrder = s.writeOrder := by
  cases effect <;> rfl

end SliceState

end BrewFs.Vfs
