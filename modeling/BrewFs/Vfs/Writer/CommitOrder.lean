import BrewFs.Vfs.Writer.Overlay

/-! Writers of one chunk and its commit task. A writer takes its number under the lock, may then
wait at the flush gate while others pass it, and chooses its slice when it has the lock again; the
commit task takes the front slice, writes it to the metadata store and pops the queue in separate
steps. -/

namespace BrewFs.Vfs

open BrewFs.Interval List
open Function (update)

/-- A write between its number and its slice. -/
structure PendingWrite where
  order : Nat
  offset : Nat
  buf : List UInt8
  creationUnique : Nat

/-- Where the commit task stands with its slice. -/
inductive CommitStage where
  | taken
  /-- The slice is in the metadata store. -/
  | written
  /-- The slice is marked; the queue is popped next. -/
  | popping
  /-- The slice has failed and is dropped next. -/
  | dropping
deriving DecidableEq, Repr

structure ChunkSchedule where
  chunk : ChunkState
  /-- The counter behind `next_write_order`. -/
  writeOrder : Nat
  waiting : Nat → Option PendingWrite
  committing : Option (Nat × CommitStage)
  /-- The slices in the order the metadata store got them. -/
  log : List Nat

inductive ScheduleAction where
  /-- A writer takes the lock and its number. -/
  | arrive (writer offset : Nat) (buf : List UInt8) (creationUnique : Nat)
  /-- The writer is through the gate and writes. -/
  | insert (writer : Nat)
  | slice (index dataEpoch : Nat) (event : SliceEvent)
  | split
  | drain (aged : Nat → Bool)
  | take
  /-- The slice is not ready: the task waits and looks again. -/
  | abandon
  | metaWrite
  | mark
  /-- A truncation overtook the slice; it is marked without a metadata write. -/
  | skipStale
  | fail (message : String)
  /-- `checked`: only if the slice is still the front one. -/
  | pop (checked : Bool)
  | drop

namespace ChunkSchedule

variable (cfg : WriteConfig) (commitBeforeUpload : Bool)

def init : ChunkSchedule where
  chunk := ChunkState.new 0
  writeOrder := 0
  waiting := fun _ => none
  committing := none
  log := []

variable (s : ChunkSchedule)

/-- The slice taken, when the task is at this stage. -/
def at? (stage : CommitStage) : Option Nat :=
  s.committing.bind fun current => if current.2 = stage then some current.1 else none

def setChunk (chunk : ChunkState) : ChunkSchedule := { s with chunk := chunk }

def setStage (index : Nat) (stage : CommitStage) : ChunkSchedule :=
  { s with committing := some (index, stage) }

def step : ScheduleAction → Option ChunkSchedule
  | .arrive writer offset buf creationUnique =>
    if (s.waiting writer).isNone then
      some { s with
        writeOrder := s.writeOrder + 1
        waiting := update s.waiting writer (some ⟨s.writeOrder + 1, offset, buf, creationUnique⟩) }
    else none
  | .insert writer => (s.waiting writer).bind fun w =>
    (s.chunk.writeAt cfg w.offset w.buf w.creationUnique w.order none).map fun chunk =>
      { s with chunk := chunk, waiting := update s.waiting writer none }
  | .slice index dataEpoch event =>
    (s.chunk.step cfg commitBeforeUpload (.slice index dataEpoch event)).map s.setChunk
  | .split => (s.chunk.step cfg commitBeforeUpload .split).map s.setChunk
  | .drain aged => (s.chunk.step cfg commitBeforeUpload (.drain aged)).map s.setChunk
  | .take => if s.committing = none then
      s.chunk.queue.head?.map fun index => s.setStage index .taken else none
  | .abandon => (s.at? .taken).map fun _ => { s with committing := none }
  | .metaWrite => (s.at? .taken).bind fun index =>
    if (s.chunk.slices index).state = .writable then none
    else some { s.setStage index .written with log := s.log ++ [index] }
  | .mark => (s.at? .written).map fun index =>
    (s.setChunk (s.chunk.setSlice index (s.chunk.slices index).markCommitted)).setStage index
      .popping
  | .skipStale => (s.at? .taken).bind fun index =>
    if (s.chunk.slices index).state = .writable then none
    else some ((s.setChunk (s.chunk.setSlice index
      (s.chunk.slices index).markCommitted)).setStage index .popping)
  | .fail message => (s.at? .taken).map fun index =>
    (s.setChunk (s.chunk.setSlice index
      ((s.chunk.slices index).markFailed message))).setStage index .dropping
  | .pop checked => (s.at? .popping).bind fun index =>
    if checked = true ∧ s.chunk.queue.head? ≠ some index then some { s with committing := none }
    else (s.chunk.moveFront cfg).map fun chunk => { s with chunk := chunk, committing := none }
  | .drop => (s.at? .dropping).bind fun _ =>
    s.chunk.popFront.map fun chunk => { s with chunk := chunk, committing := none }

/-- A writer that makes a new slice was not overtaken: the commit task is at no slice with a larger
number, and no recently committed one with a larger number has written in the range. -/
def NotOvertaken : ScheduleAction → Prop
  | .insert writer => ∀ w ∈ s.waiting writer,
      s.chunk.findLoop cfg w.offset w.buf.length w.creationUnique none false
        s.chunk.queue.reverse = none →
      (∀ current ∈ s.committing, (s.chunk.slices current.1).writeOrder < w.order) ∧
        ∀ recent ∈ s.chunk.recentlyCommitted, w.order < (s.chunk.slices recent).writeOrder →
          (s.chunk.slices recent).writeRangeHasWrittenOverlap w.offset w.buf.length = false
  | _ => True

end ChunkSchedule

/-! ### The slices of the chunk -/

/-- Two slices have written at a common position. -/
def SliceState.Conflict (a b : SliceState) : Prop := ∃ q, a.wrote q = true ∧ b.wrote q = true

theorem SliceState.Conflict.symm {a b : SliceState} (conflict : Conflict a b) : Conflict b a :=
  conflict.imp fun _ => And.symm

/-- Only parts of a split slice share a write number; the later begins where the earlier ends. -/
def SliceState.Continues (a b : SliceState) : Prop :=
  a.writeOrder = b.writeOrder → a.state ≠ .writable ∧ a.offset + a.data.len ≤ b.offset

namespace ChunkState

variable {cfg : WriteConfig}

/-- The queue stands in the order of the write numbers. -/
structure Arranged (cfg : WriteConfig) (c : ChunkState) : Prop where
  nodup : c.held.Nodup
  known : ∀ index ∈ c.held, index < c.created
  solid : ∀ index ∈ c.held, (c.slices index).Solid cfg
  sorted : c.queue.Pairwise fun a b => (c.slices a).writeOrder ≤ (c.slices b).writeOrder
  parts : c.held.Pairwise fun a b => (c.slices a).Continues (c.slices b)

variable {c next : ChunkState} {index : Nat}

theorem mem_held_of_queue (queued : index ∈ c.queue) : index ∈ c.held :=
  mem_append_right _ queued

/-- Of two conflicting slices of the queue the front one has the smaller number. -/
theorem Arranged.front_lt (arranged : Arranged cfg c) {front : Nat} {rest : List Nat}
    (queue : c.queue = front :: rest) {other : Nat} (listed : other ∈ rest)
    (conflict : (c.slices front).Conflict (c.slices other)) :
    (c.slices front).writeOrder < (c.slices other).writeOrder := by
  have sorted := arranged.sorted
  have parts := arranged.parts
  rw [held, pairwise_append] at parts
  rw [queue] at sorted parts
  have le := (pairwise_cons.mp sorted).1 other listed
  refine Nat.lt_of_le_of_ne le fun same => ?_
  obtain ⟨q, left, right⟩ := conflict
  have lower := (arranged.solid front (mem_held_of_queue (by simp [queue]))).wrote_iff.mp left
  have upper := (arranged.solid other (mem_held_of_queue (by simp [queue, listed]))).wrote_iff.mp
    right
  have := ((pairwise_cons.mp parts.2.1).1 other listed same).2
  omega

/-- A slice changes without moving; only a writable one may grow. -/
structure Alters (cfg : WriteConfig) (before after : SliceState) : Prop where
  order : after.writeOrder = before.writeOrder
  offset : after.offset = before.offset
  closed : before.state ≠ .writable → after.state ≠ .writable
  grows : before.state ≠ .writable → after.data.len = before.data.len
  solid : after.Solid cfg

variable {slice : SliceState}

theorem writeOrder_setSlice (order : slice.writeOrder = (c.slices index).writeOrder) (other : Nat) :
    ((c.setSlice index slice).slices other).writeOrder = (c.slices other).writeOrder := by
  by_cases here : other = index
  · rw [here, setSlice_self, order]
  · rw [setSlice_of_ne c slice here]

theorem Arranged.alter (arranged : Arranged cfg c)
    (alters : Alters cfg (c.slices index) slice) : Arranged cfg (c.setSlice index slice) := by
  have placed : ∀ other, (c.setSlice index slice).slices other = c.slices other ∨
      other = index ∧ (c.setSlice index slice).slices other = slice := by
    intro other
    by_cases here : other = index
    · exact .inr ⟨here, by rw [here, setSlice_self]⟩
    · exact .inl (setSlice_of_ne c slice here)
  have orders := writeOrder_setSlice alters.order
  refine ⟨arranged.nodup, arranged.known, fun other held => ?_, ?_, ?_⟩
  · rcases placed other with same | ⟨rfl, new⟩
    · rw [same]
      exact arranged.solid other held
    · rw [new]
      exact alters.solid
  · simp only [orders]
    exact arranged.sorted
  · refine arranged.parts.imp fun {a b} continues same => ?_
    rw [orders, orders] at same
    obtain ⟨closed, ends⟩ := continues same
    have start : ((c.setSlice index slice).slices b).offset = (c.slices b).offset := by
      rcases placed b with same | ⟨rfl, new⟩
      · rw [same]
      · rw [new, alters.offset]
    rw [start]
    rcases placed a with same | ⟨rfl, new⟩
    · rw [same]
      exact ⟨closed, ends⟩
    · rw [new, alters.offset, alters.grows closed]
      exact ⟨alters.closed closed, ends⟩

theorem Arranged.shrink (arranged : Arranged cfg c) (slices : next.slices = c.slices)
    (created : next.created = c.created) (held : next.held.Sublist c.held)
    (queue : next.queue.Sublist c.queue) : Arranged cfg next := by
  refine ⟨arranged.nodup.sublist held, ?_, ?_, ?_, ?_⟩
  · rw [created]
    exact fun index listed => arranged.known index (held.subset listed)
  · rw [slices]
    exact fun index listed => arranged.solid index (held.subset listed)
  · rw [slices]
    exact arranged.sorted.sublist queue
  · rw [slices]
    exact arranged.parts.sublist held

/-- A new slice in the queue, between the two parts. -/
def place (c : ChunkState) (older newer : List Nat) (slice : SliceState) : ChunkState := { c with
    slices := update c.slices c.created slice
    created := c.created + 1
    queue := older ++ c.created :: newer }

variable {older newer : List Nat}

@[simp] theorem place_self (c : ChunkState) (older newer : List Nat) (slice : SliceState) :
    (c.place older newer slice).slices c.created = slice := Function.update_self ..

theorem mem_place {c : ChunkState} (queue : c.queue = older ++ newer) :
    index ∈ (c.place older newer slice).held ↔ index = c.created ∨ index ∈ c.held := by
  simp only [held, place, queue, mem_append, mem_cons]
  tauto

theorem pairwise_insert {R : Nat → Nat → Prop} {below above : List Nat} {item : Nat}
    (pairs : (below ++ above).Pairwise R) (before : ∀ other ∈ below, R other item)
    (after : ∀ other ∈ above, R item other) : (below ++ item :: above).Pairwise R := by
  rw [pairwise_append] at pairs
  rw [pairwise_append, pairwise_cons]
  refine ⟨pairs.1, ⟨after, pairs.2.1⟩, fun other listed => ?_⟩
  exact forall_mem_cons.mpr ⟨before other listed, pairs.2.2 other listed⟩

theorem Arranged.place_old (arranged : Arranged cfg c) (held : index ∈ c.held) :
    (c.place older newer slice).slices index = c.slices index :=
  Function.update_of_ne (arranged.known index held).ne ..

theorem Arranged.place (arranged : Arranged cfg c) (queue : c.queue = older ++ newer)
    (solid : slice.Solid cfg)
    (above : ∀ index ∈ older, (c.slices index).writeOrder ≤ slice.writeOrder)
    (below : ∀ index ∈ newer, slice.writeOrder ≤ (c.slices index).writeOrder)
    (before : ∀ index ∈ c.recentlyCommitted ++ older, (c.slices index).Continues slice)
    (after : ∀ index ∈ newer, slice.Continues (c.slices index)) :
    Arranged cfg (c.place older newer slice) := by
  have split : c.held = (c.recentlyCommitted ++ older) ++ newer := by
    rw [held, queue, append_assoc]
  have placed : (c.place older newer slice).held =
      (c.recentlyCommitted ++ older) ++ c.created :: newer := (append_assoc ..).symm
  have inOlder : ∀ {index}, index ∈ c.recentlyCommitted ++ older → index ∈ c.held :=
    fun listed => by
    rw [split]
    exact mem_append_left _ listed
  have inNewer : ∀ {index}, index ∈ newer → index ∈ c.held := fun listed => by
    rw [split]
    exact mem_append_right _ listed
  refine ⟨?_, fun index listed => ?_, fun index listed => ?_, ?_, ?_⟩
  · rw [placed, perm_middle.nodup_iff, nodup_cons, ← split]
    exact ⟨fun listed => (arranged.known _ listed).ne rfl, arranged.nodup⟩
  · rcases (mem_place queue).mp listed with rfl | listed
    · exact Nat.lt_succ_self _
    · exact Nat.lt_succ_of_lt (arranged.known index listed)
  · rcases (mem_place queue).mp listed with rfl | listed
    · rw [place_self]
      exact solid
    · rw [arranged.place_old listed]
      exact arranged.solid index listed
  · have sorted := arranged.sorted
    rw [queue] at sorted
    refine pairwise_insert (sorted.imp_of_mem fun {a b} first second le => ?_)
      (fun index listed => ?_) fun index listed => ?_
    · have inside : ∀ {index}, index ∈ older ++ newer → index ∈ c.held := fun listed =>
        mem_held_of_queue (by rw [queue]; exact listed)
      rw [arranged.place_old (inside first),
        arranged.place_old (inside second)]
      exact le
    · rw [place_self, arranged.place_old (inOlder (mem_append_right _ listed))]
      exact above index listed
    · rw [place_self, arranged.place_old (inNewer listed)]
      exact below index listed
  · have parts := arranged.parts
    rw [split] at parts
    rw [placed]
    refine pairwise_insert (parts.imp_of_mem fun {a b} first second continues => ?_)
      (fun index listed => ?_) fun index listed => ?_
    · rw [← split] at first second
      rw [arranged.place_old first, arranged.place_old second]
      exact continues
    · rw [place_self, arranged.place_old (inOlder listed)]
      exact before index listed
    · rw [place_self, arranged.place_old (inNewer listed)]
      exact after index listed

theorem insertIdx_append (new : Nat) :
    (older ++ newer).insertIdx older.length new = older ++ new :: newer := by
  induction older with
  | nil => rfl
  | cons first rest ih => rw [cons_append, length_cons, insertIdx_succ_cons, ih]; rfl

/-- A new slice goes in front of the slices with larger numbers. -/
theorem insertPos_split {slices : Nat → SliceState} {queue : List Nat} {writeOrder : Nat}
    (numbered : 0 < writeOrder)
    (sorted : queue.Pairwise fun a b => (slices a).writeOrder ≤ (slices b).writeOrder) (new : Nat) :
    ∃ older newer, queue = older ++ newer ∧
      queue.insertIdx (ChunkCommit.insertPos slices queue writeOrder) new = older ++ new :: newer ∧
      (∀ index ∈ older, (slices index).writeOrder ≤ writeOrder) ∧
      ∀ index ∈ newer, writeOrder < (slices index).writeOrder := by
  unfold ChunkCommit.insertPos
  rw [if_neg (Nat.ne_of_gt numbered)]
  cases found : queue.findIdx? fun index =>
      decide ((slices index).writeOrder ≠ 0 ∧ writeOrder < (slices index).writeOrder) with
  | none =>
    refine ⟨queue, [], (append_nil _).symm, ?_, fun index listed => ?_, by simp⟩
    · rw [Option.getD_none, insertIdx_length_self]
    have := List.findIdx?_eq_none_iff.mp found index listed
    rw [decide_eq_false_iff_not] at this
    omega
  | some place =>
    obtain ⟨inside, larger, smaller⟩ := List.findIdx?_eq_some_iff_getElem.mp found
    rw [decide_eq_true_eq] at larger
    refine ⟨queue.take place, queue.drop place, (take_append_drop _ _).symm, ?_,
      fun index listed => ?_, fun index listed => ?_⟩
    · rw [Option.getD_some, ← insertIdx_append, take_append_drop, length_take,
        Nat.min_eq_left inside.le]
    · obtain ⟨i, early, rfl⟩ := mem_take_iff_getElem.mp listed
      have := smaller i (by omega)
      simp only [decide_eq_true_eq] at this
      omega
    · rw [drop_eq_getElem_cons inside, mem_cons] at listed
      have later := sorted.sublist (drop_sublist place queue)
      rw [drop_eq_getElem_cons inside, pairwise_cons] at later
      rcases listed with rfl | behind
      · exact larger.2
      · exact larger.2.trans_le (later.1 index behind)

theorem effect_alters (dataEpoch : Nat) {before after : SliceState} {event : SliceEvent}
    (solid : before.Solid cfg) (quiet : event.writes = false)
    (effect : SliceState.Effect cfg dataEpoch before event after) :
    Alters cfg before after ∧ after.data.len = before.data.len := by
  refine ⟨⟨effect.writeOrder, ?_, ?_, ?_, effect.solid solid quiet⟩, ?_⟩
  · cases effect <;> rfl
  · cases effect with
    | unchanged | setSliceId | prepareUpload | advance | advanceReleased => exact id
    | write => cases quiet
    | discard | freeze | freezeUploaded | advanceUploaded | markFailed =>
      exact nofun
  · cases effect with
    | write => cases quiet
    | _ => exact fun _ => rfl
  · cases effect with
    | write => cases quiet
    | _ => rfl

/-! ### The numbers -/

/-- No two writes share a number, waiting or in their slice. -/
structure Numbered (c : ChunkState) (writeOrder : Nat) (waiting : Nat → Option PendingWrite) :
    Prop where
  used : ∀ index ∈ c.held, (c.slices index).writeOrder ≤ writeOrder ∧
    ∀ writer, ∀ w ∈ waiting writer, (c.slices index).writeOrder ≠ w.order
  counted : ∀ writer, ∀ w ∈ waiting writer, 0 < w.order ∧ w.order ≤ writeOrder
  distinct : ∀ first second, ∀ v ∈ waiting first, ∀ w ∈ waiting second,
    v.order = w.order → first = second

variable {writeOrder : Nat} {waiting : Nat → Option PendingWrite}

section

variable (numbered : Numbered c writeOrder waiting)

include numbered

theorem Numbered.congr (orders : ∀ index ∈ next.held, ∃ other ∈ c.held,
      (next.slices index).writeOrder = (c.slices other).writeOrder) :
    Numbered next writeOrder waiting := by
  refine { numbered with used := fun index held => ?_ }
  obtain ⟨other, known, same⟩ := orders index held
  rw [same]
  exact numbered.used other known

theorem Numbered.alter (order : slice.writeOrder = (c.slices index).writeOrder) :
    Numbered (c.setSlice index slice) writeOrder waiting :=
  numbered.congr fun other held => ⟨other, held, writeOrder_setSlice order other⟩

theorem Numbered.shrink (slices : next.slices = c.slices)
    (held : next.held.Sublist c.held) : Numbered next writeOrder waiting :=
  numbered.congr fun index listed => ⟨index, held.subset listed, by rw [slices]⟩

theorem Numbered.settle (writer : Nat) : Numbered c writeOrder (update waiting writer none) := by
  have still : ∀ other, ∀ w ∈ update waiting writer none other, w ∈ waiting other :=
    fun other w found => (Slots.mem_free found).2
  exact ⟨fun index held => ⟨(numbered.used index held).1, fun other w found =>
      (numbered.used index held).2 other w (still other w found)⟩,
    fun other w found => numbered.counted other w (still other w found),
    fun first second v left w right => numbered.distinct first second v (still first v left) w
      (still second w right)⟩

theorem Numbered.arrive (writer : Nat) (w : PendingWrite) (order : w.order = writeOrder + 1) :
    Numbered c (writeOrder + 1) (update waiting writer (some w)) := by
  have either : ∀ other, ∀ v ∈ update waiting writer (some w) other,
      other = writer ∧ v = w ∨ v ∈ waiting other :=
    fun other v found => (Slots.mem_put found).imp_right And.right
  refine ⟨fun index held => ?_, fun other v found => ?_, fun first second u left v right same => ?_⟩
  · obtain ⟨bounded, apart⟩ := numbered.used index held
    refine ⟨by omega, fun other v found => ?_⟩
    rcases either other v found with ⟨_, rfl⟩ | old
    · omega
    · exact apart other v old
  · rcases either other v found with ⟨_, rfl⟩ | old
    · omega
    · have := numbered.counted other v old
      omega
  · rcases either first u left with ⟨rfl, rfl⟩ | before <;>
      rcases either second v right with ⟨rfl, rfl⟩ | after
    · rfl
    · have := numbered.counted second v after
      omega
    · have := numbered.counted first u before
      omega
    · exact numbered.distinct first second u before v after same

theorem Numbered.place (arranged : Arranged cfg c)
    (queue : c.queue = older ++ newer) (bounded : slice.writeOrder ≤ writeOrder)
    (apart : ∀ writer, ∀ w ∈ waiting writer, slice.writeOrder ≠ w.order) :
    Numbered (c.place older newer slice) writeOrder waiting := by
  refine { numbered with used := fun index listed => ?_ }
  rcases (mem_place queue).mp listed with rfl | held
  · rw [place_self]
    exact ⟨bounded, apart⟩
  · rw [arranged.place_old held]
    exact numbered.used index held

end

/-! ### The commits -/

/-- The slices in the metadata store: where they conflict they got there in the order of their
numbers, and so will those in the queue. -/
structure Logged (c : ChunkState) (committing : Option (Nat × CommitStage)) (log : List Nat) :
    Prop where
  nodup : log.Nodup
  known : ∀ index ∈ log, index < c.created
  closed : ∀ index ∈ log, index ∈ c.held → (c.slices index).state ≠ .writable
  front : ∀ current ∈ committing, c.queue.head? = some current.1
  queued : ∀ index ∈ c.queue, index ∈ log →
    committing = some (index, .written) ∨ committing = some (index, .popping)
  pending : ∀ x ∈ c.held, x ∈ log → ∀ y ∈ c.queue, y ∉ log →
    (c.slices x).Conflict (c.slices y) → (c.slices x).writeOrder < (c.slices y).writeOrder
  ranked : log.Pairwise fun x y => x ∈ c.held → y ∈ c.held →
    (c.slices x).Conflict (c.slices y) → (c.slices x).writeOrder < (c.slices y).writeOrder

variable {committing : Option (Nat × CommitStage)} {log : List Nat}

section

variable (logged : Logged c committing log)

include logged

theorem Logged.alter (order : slice.writeOrder = (c.slices index).writeOrder)
    (closed : (c.slices index).state ≠ .writable → slice.state ≠ .writable)
    (conflicts : ∀ x ∈ c.held, x ≠ index → (c.slices x).Conflict slice →
      (c.slices x).Conflict (c.slices index) ∨ index ∉ log ∧
        (x ∈ log → (c.slices x).writeOrder < (c.slices index).writeOrder)) :
    Logged (c.setSlice index slice) committing log := by
  have orders := writeOrder_setSlice order
  -- a conflict with the changed slice is an old one, or that slice is not committed
  have back : ∀ x ∈ c.held, ∀ y ∈ c.held, x ≠ y → x ∈ log →
      ((c.setSlice index slice).slices x).Conflict ((c.setSlice index slice).slices y) →
      (c.slices x).Conflict (c.slices y) ∨
        y ∉ log ∧ (c.slices x).writeOrder < (c.slices y).writeOrder := by
    intro x first y second apart listed conflict
    by_cases here : y = index
    · subst here
      rw [setSlice_self, setSlice_of_ne c slice apart] at conflict
      exact (conflicts x first apart conflict).imp id fun later => ⟨later.1, later.2 listed⟩
    rw [setSlice_of_ne c slice here] at conflict
    by_cases there : x = index
    · subst there
      rw [setSlice_self] at conflict
      rcases conflicts y second here conflict.symm with old | ⟨unlisted, _⟩
      · exact .inl old.symm
      · exact absurd listed unlisted
    · rw [setSlice_of_ne c slice there] at conflict
      exact .inl conflict
  refine ⟨logged.nodup, logged.known, fun other listed held => ?_, logged.front, logged.queued,
    fun x held listed y queued unlisted conflict => ?_, ?_⟩
  · have before := logged.closed other listed held
    by_cases here : other = index
    · subst here
      rw [setSlice_self]
      exact closed before
    · rw [setSlice_of_ne c slice here]
      exact before
  · rw [orders, orders]
    rcases back x held y (mem_held_of_queue queued) (ne_of_mem_of_not_mem listed unlisted) listed
        conflict with old | ⟨_, less⟩
    · exact logged.pending x held listed y queued unlisted old
    · exact less
  · refine (logged.ranked.and logged.nodup).imp_of_mem
      fun {x y} first second both left right conflict => ?_
    rw [orders, orders]
    rcases back x left y right both.2 first conflict with old | ⟨unlisted, _⟩
    · exact both.1 left right old
    · exact absurd second unlisted

theorem Logged.shrink {stage : Option (Nat × CommitStage)}
    (slices : next.slices = c.slices) (created : next.created = c.created)
    (held : next.held.Sublist c.held) (queue : next.queue.Sublist c.queue)
    (front : ∀ current ∈ stage, next.queue.head? = some current.1)
    (queued : ∀ index ∈ next.queue, index ∈ log →
      stage = some (index, .written) ∨ stage = some (index, .popping)) :
    Logged next stage log := by
  refine ⟨logged.nodup, ?_, ?_, front, queued, ?_, ?_⟩
  · rw [created]
    exact logged.known
  · rw [slices]
    exact fun index listed stays => logged.closed index listed (held.subset stays)
  · rw [slices]
    exact fun x stays listed y waits => logged.pending x (held.subset stays) listed y
      (queue.subset waits)
  · rw [slices]
    exact logged.ranked.imp fun less left right => less (held.subset left) (held.subset right)

theorem Logged.place (arranged : Arranged cfg c)
    (queue : c.queue = older ++ newer) (behind : ∀ current ∈ committing, older ≠ [])
    (fresh : ∀ x ∈ c.held, x ∈ log → (c.slices x).Conflict slice →
      (c.slices x).writeOrder < slice.writeOrder) :
    Logged (c.place older newer slice) committing log := by
  have unlisted : c.created ∉ log := fun listed => Nat.lt_irrefl _ (logged.known _ listed)
  have old : ∀ {index}, index ∈ log → index ∈ (c.place older newer slice).held →
      index ∈ c.held ∧ (c.place older newer slice).slices index = c.slices index := by
    intro index listed held
    rcases (mem_place queue).mp held with rfl | stays
    · exact absurd listed unlisted
    · exact ⟨stays, arranged.place_old stays⟩
  have waits : ∀ {index}, index ∈ (c.place older newer slice).queue →
      index = c.created ∨ index ∈ c.queue := by
    intro index listed
    rw [queue]
    simp only [ChunkState.place, mem_append, mem_cons] at listed ⊢
    tauto
  refine ⟨logged.nodup, fun index listed => Nat.lt_succ_of_lt (logged.known index listed),
    fun index listed held => ?_, fun current found => ?_, fun index queued listed => ?_,
    fun x held listed y queued missing conflict => ?_, ?_⟩
  · obtain ⟨stays, same⟩ := old listed held
    rw [same]
    exact logged.closed index listed stays
  · have head := logged.front current found
    cases split : older with
    | nil => exact absurd split (behind current found)
    | cons first rest =>
      rw [queue, split] at head
      exact head
  · rcases waits queued with rfl | still
    · exact absurd listed unlisted
    · exact logged.queued index still listed
  · obtain ⟨stays, same⟩ := old listed held
    rw [same] at conflict ⊢
    rcases waits queued with rfl | still
    · rw [place_self] at conflict ⊢
      exact fresh x stays listed conflict
    · rw [arranged.place_old (mem_held_of_queue still)] at conflict ⊢
      exact logged.pending x stays listed y still missing conflict
  · refine logged.ranked.imp_of_mem fun {x y} first second less left right conflict => ?_
    obtain ⟨before, same⟩ := old first left
    obtain ⟨after, equal⟩ := old second right
    rw [same, equal] at conflict ⊢
    exact less before after conflict

/-- The front slice goes to the metadata store. -/
theorem Logged.append (arranged : Arranged cfg c)
    (taken : committing = some (index, .taken)) (sealed : (c.slices index).state ≠ .writable) :
    Logged c (some (index, .written)) (log ++ [index]) := by
  have head := logged.front (index, .taken) taken
  obtain ⟨rest, queue⟩ := List.head?_eq_some_iff.mp head
  have first : index ∈ c.queue := by
    rw [queue]
    exact mem_cons_self
  have free : ∀ other ∈ c.queue, other ∉ log := by
    intro other queued listed
    rcases logged.queued other queued listed with stage | stage <;>
      (rw [taken] at stage; cases stage)
  have unlisted := free index first
  refine ⟨?_, ?_, ?_, ?_, ?_, ?_, ?_⟩
  · rw [nodup_append]
    exact ⟨logged.nodup, nodup_singleton _, fun a listed b single => by
      rw [mem_singleton] at single
      rw [single]
      exact ne_of_mem_of_not_mem listed unlisted⟩
  · rw [forall_mem_append, forall_mem_singleton]
    exact ⟨logged.known, arranged.known index (mem_held_of_queue first)⟩
  · rw [forall_mem_append, forall_mem_singleton]
    exact ⟨logged.closed, fun _ => sealed⟩
  · rintro current found
    cases found
    exact head
  · intro other queued listed
    rcases mem_append.mp listed with before | single
    · exact absurd before (free other queued)
    rw [mem_singleton] at single
    rw [single]
    exact .inl rfl
  · intro x held listed y queued missing conflict
    rw [mem_append, not_or, mem_singleton] at missing
    rcases mem_append.mp listed with before | single
    · exact logged.pending x held before y queued missing.1 conflict
    rw [mem_singleton] at single
    subst single
    rw [queue, mem_cons] at queued
    exact arranged.front_lt queue (queued.resolve_left missing.2) conflict
  · rw [pairwise_append]
    refine ⟨logged.ranked, pairwise_singleton _ _, fun x listed y single held _ conflict => ?_⟩
    rw [mem_singleton] at single
    subst single
    exact logged.pending x held listed y first unlisted conflict

end

end ChunkState

end BrewFs.Vfs
