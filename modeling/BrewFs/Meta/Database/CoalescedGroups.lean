import BrewFs.Meta.Database.Coalesced

/-! Coalesced groups over whole runs: writers, compactors and collectors share the tables. Each
transaction is one step. What a worker has read stays available to later steps, so that a step
may act on stale data any number of times. -/

namespace BrewFs.Meta.Database.Coalesce

open BrewFs.Chunk BrewFs.Chunk.Compact List

structure System where
  store : Store
  /-- The counter of `next_id(SLICE_ID_KEY)`. -/
  nextSlice : Nat
  /-- Ids the counter gave out that nobody has used yet. -/
  pool : List Nat
  /-- Ids that heavy compactions reserved. -/
  compacting : List Nat
  /-- The slice lists compactors have read, with their chunks. -/
  views : List (Nat × List SliceDesc)
  /-- The delayed records collectors have selected. -/
  selected : List DelayedRow
  /-- The slices handed to collectors: claimed orphans and reclaimed slices. -/
  handed : List Nat
  /-- The groups a collector was told are dead, so that it deletes their object. -/
  doomed : List Nat

def System.init : System where
  store := ⟨Tables.empty, fun _ => none, fun _ => none⟩
  nextSlice := 1
  pool := []
  compacting := []
  views := []
  selected := []
  handed := []
  doomed := []

inductive Action where
  | createFile (ino : Int)
  | nextId
  | register (group : Nat) (members : List (Nat × Nat × Nat))
  | publish (ino : Int) (chunkId : Nat) (slice : SliceDesc) (newSize : Nat) (compactLocked : Bool)
  | write (ino : Int) (chunkId : Nat) (slice : SliceDesc) (newSize : Nat) (compactLocked : Bool)
  | truncate (ino : Int) (size chunkSize : Nat)
  | readSlices (chunkId : Nat)
  | compactLight (chunkId : Nat) (slices : List SliceDesc)
  | reserve (newId chunkId size : Nat)
  | compactHeavy (chunkId : Nat) (slices : List SliceDesc) (newId length : Nat)
  | confirmCommitted (newId : Nat)
  | selectDelayed (ids : List Nat)
  | processDelayed (rows : List DelayedRow)
  | confirmDelayed (ids : List Nat)
  | claimOrphans (aged orphaned : List Nat)
  | retire (sliceId : Nat)
  | deleteUncommitted (sliceIds : List Nat)
  | forget (group : Nat)

namespace System

variable (s : System)

/-- A failed transaction leaves the store as it was. -/
def commit (result : Except StoreError Store) : System :=
  match result with
  | .ok store => { s with store := store }
  | .error _ => s

/-- The same for the transactions on the slice tables. -/
def commitTables (result : Option Tables) : System :=
  { s with store := { s.store with db := result.getD s.store.db } }

def take (id : Nat) : System := { s with pool := s.pool.erase id }

/-- `retire_coalesced_member` as `delete_slice_blocks` calls it. -/
def retire (group slot : Nat) : System :=
  match s.store.retireCoalescedMember group slot with
  | .ok (dead, store) =>
    { s with store := store, doomed := if dead = some true then group :: s.doomed else s.doomed }
  | .error _ => s

end System

/-- The fields of a `SliceDesc` are `u64`. -/
def wellSized (slice : SliceDesc) : Prop := slice.sliceId < 2 ^ 64 ∧ slice.offset < 2 ^ 64

instance (slice : SliceDesc) : Decidable (wellSized slice) := inferInstanceAs (Decidable (_ ∧ _))

def step (s : System) : Action → Option System
  | .createFile ino =>
    some (s.commitTables (some { s.store.db with
      fileSize := Function.update s.store.db.fileSize ino (some 0) }))
  | .nextId =>
    let id := s.nextSlice
    let counted := { s with nextSlice := id + 1 }
    -- an id in the members' range is refused, and the column is an `i64`
    if decodeId id = none ∧ id < 2 ^ 63 then some { counted with pool := id :: s.pool }
    else some counted
  | .register group members =>
    if group ∈ s.pool then
      some ((s.take group).commit (s.store.registerCoalescedGroup group members))
    else none
  | .publish ino chunkId slice newSize compactLocked =>
    if wellSized slice then
      some (s.commit
        (s.store.writeWithCoalescedReservation ino chunkId slice newSize true compactLocked))
    else none
  | .write ino chunkId slice newSize compactLocked =>
    if slice.sliceId ∈ s.pool ∧ wellSized slice then
      some ((s.take slice.sliceId).commit
        (s.store.writeWithCoalescedReservation ino chunkId slice newSize false compactLocked))
    else none
  | .truncate ino size chunkSize =>
    some (s.commitTables (Database.truncate s.store.db ino size chunkSize))
  | .readSlices chunkId =>
    some { s with views := (chunkId, getSlices s.store.db.sliceMeta chunkId) :: s.views }
  | .compactLight chunkId slices =>
    if (chunkId, slices) ∈ s.views then
      some (s.commitTables (replaceSlicesForCompact s.store.db chunkId []
        (encodeDelayedData slices (lightReplaced slices))))
    else none
  | .reserve newId chunkId size =>
    if newId ∈ s.pool then
      some
      { (s.take newId).commitTables (some (recordUncommittedSlice s.store.db newId chunkId size))
        with compacting := newId :: s.compacting }
    else none
  | .compactHeavy chunkId slices newId length =>
    if (chunkId, slices) ∈ s.views ∧ newId ∈ s.compacting then
      some (s.commitTables (replaceSlicesForCompactWithVersion s.store.db chunkId
        [⟨newId, chunkId, 0, length⟩]
        (encodeDelayedData slices (slices.map (·.sliceId))) slices))
    else none
  | .confirmCommitted newId =>
    if newId ∈ s.compacting then
      some (s.commitTables (some (confirmSliceCommitted s.store.db newId)))
    else none
  | .selectDelayed ids =>
    some { s with selected := Compact.selectDelayed s.store.db.delayed ids ++ s.selected }
  | .processDelayed rows =>
    if ∀ row ∈ rows, row ∈ s.selected then
      let processed := processDelayedSlices rows s.store.db
      some { s.commitTables (some processed.1) with
        handed := processed.2.map (·.sliceId) ++ s.handed }
    else none
  | .confirmDelayed ids => some (s.commitTables (some (confirmDelayedDeleted s.store.db ids)))
  | .claimOrphans aged orphaned =>
    let claimed := cleanupOrphanUncommittedSlices s.store.db aged orphaned
    some { s.commitTables (some claimed.1) with handed := claimed.2.map (·.1) ++ s.handed }
  | .retire sliceId =>
    if sliceId ∈ s.handed then
      match decodeId sliceId with
      | none => some s
      | some (group, slot) => some (s.retire group slot)
    else none
  | .deleteUncommitted sliceIds =>
    if ∀ id ∈ sliceIds, id ∈ s.handed then
      some (s.commitTables (some (deleteUncommittedSlices s.store.db sliceIds)))
    else none
  | .forget group => some (s.commit (s.store.forgetCoalescedGroup group))

/-! ### Members that are out of a writer's reach -/

variable (s : System) (id : Nat)

def Mapped : Prop := ∃ row ∈ s.store.db.sliceMeta, row.sliceId = id

def Reserved : Prop :=
  ∃ row ∈ s.store.db.uncommitted.rows, row.sliceId = id ∧ row.status = .pending

/-- The counter has passed the id and no group can use it any more. -/
def Used (s : System) (group : Nat) : Prop := group < s.nextSlice ∧ group ∉ s.pool

/-- The member of a used group has no pending reservation: nothing publishes it. -/
def Spent : Prop :=
  (∀ {group slot}, decodeId id = some (group, slot) → Used s group) ∧ ¬ Reserved s id

/-- Nothing maps the member, now or later. -/
def Settled : Prop := Spent s id ∧ ¬ Mapped s id

/-- The places of a member that has been mapped. -/
inductive Touched (store : Store) (selected : List DelayedRow) (views : List (Nat × List SliceDesc))
    (id : Nat) : Prop
  | mapped {row : SliceDesc} (listed : row ∈ store.db.sliceMeta) (same : row.sliceId = id)
  | staged {row : DelayedRow} (listed : row ∈ store.db.delayed.rows) (same : row.sliceId = id)
  | selected {row : DelayedRow} (listed : row ∈ selected) (same : row.sliceId = id)
  | viewed {view : Nat × List SliceDesc} (taken : view ∈ views) {row : SliceDesc}
      (listed : row ∈ view.2) (same : row.sliceId = id)
  | published {group slot bits : Nat} (mem : decodeId id = some (group, slot))
      (found : store.published group = some bits) (bit : bits.testBit slot = true)

/-- The places of a member that may be deleted. -/
inductive Condemned (store : Store) (selected : List DelayedRow) (handed doomed : List Nat)
    (id : Nat) : Prop
  | staged {row : DelayedRow} (listed : row ∈ store.db.delayed.rows) (same : row.sliceId = id)
      (status : row.status = .metaDeleted)
  | selected {row : DelayedRow} (listed : row ∈ selected) (same : row.sliceId = id)
      (status : row.status = .metaDeleted)
  | orphan {row : UncommittedRow} (listed : row ∈ store.db.uncommitted.rows)
      (same : row.sliceId = id) (status : row.status = .orphan)
  | handed (listed : id ∈ handed)
  | retired {group slot bits : Nat} (mem : decodeId id = some (group, slot))
      (found : store.ledger group = some bits) (bit : bits.testBit slot = true)
  | outside {group slot bits : Nat} (mem : decodeId id = some (group, slot))
      (found : store.ledger group = some bits) (beyond : bits >>> 32 ≤ slot)
  | doomed {group slot : Nat} (mem : decodeId id = some (group, slot)) (listed : group ∈ doomed)

def System.Touched (s : System) : Nat → Prop := Coalesce.Touched s.store s.selected s.views

def System.Condemned (s : System) : Nat → Prop :=
  Coalesce.Condemned s.store s.selected s.handed s.doomed

/-- Each place of a mapped member after a change. -/
structure TouchedCases (s s' : System) (id : Nat) (other : Prop) : Prop where
  mapped : ∀ row ∈ s'.store.db.sliceMeta, row.sliceId = id → s.Touched id ∨ other
  staged : ∀ row ∈ s'.store.db.delayed.rows, row.sliceId = id → s.Touched id ∨ other
  selected : ∀ row ∈ s'.selected, row.sliceId = id → s.Touched id ∨ other
  viewed : ∀ view ∈ s'.views, ∀ row ∈ view.2, row.sliceId = id → s.Touched id ∨ other
  published : ∀ {group slot bits}, decodeId id = some (group, slot) →
    s'.store.published group = some bits → bits.testBit slot = true → s.Touched id ∨ other

variable {other : Prop} {id : Nat}

theorem System.sameTouched (s : System) : TouchedCases s s id other where
  mapped _ listed same := .inl (.mapped listed same)
  staged _ listed same := .inl (.staged listed same)
  selected _ listed same := .inl (.selected listed same)
  viewed _ taken _ listed same := .inl (.viewed taken listed same)
  published mem found bit := .inl (.published mem found bit)

theorem System.Touched.via {s s' : System} (touched : s'.Touched id)
    (change : TouchedCases s s' id other) : s.Touched id ∨ other := by
  cases touched with
  | mapped listed same => exact change.mapped _ listed same
  | staged listed same => exact change.staged _ listed same
  | selected listed same => exact change.selected _ listed same
  | viewed taken listed same => exact change.viewed _ taken _ listed same
  | published mem found bit => exact change.published mem found bit

/-- Each place of a condemned member after a change. -/
structure CondemnedCases (s s' : System) (id : Nat) (other : Prop) : Prop where
  staged : ∀ row ∈ s'.store.db.delayed.rows, row.sliceId = id → row.status = .metaDeleted →
    s.Condemned id ∨ other
  selected : ∀ row ∈ s'.selected, row.sliceId = id → row.status = .metaDeleted →
    s.Condemned id ∨ other
  orphan : ∀ row ∈ s'.store.db.uncommitted.rows, row.sliceId = id → row.status = .orphan →
    s.Condemned id ∨ other
  handed : id ∈ s'.handed → s.Condemned id ∨ other
  retired : ∀ {group slot bits}, decodeId id = some (group, slot) →
    s'.store.ledger group = some bits → bits.testBit slot = true → s.Condemned id ∨ other
  outside : ∀ {group slot bits}, decodeId id = some (group, slot) →
    s'.store.ledger group = some bits → bits >>> 32 ≤ slot → s.Condemned id ∨ other
  doomed : ∀ {group slot}, decodeId id = some (group, slot) → group ∈ s'.doomed →
    s.Condemned id ∨ other

theorem System.sameCondemned (s : System) : CondemnedCases s s id other where
  staged _ listed same status := .inl (.staged listed same status)
  selected _ listed same status := .inl (.selected listed same status)
  orphan _ listed same status := .inl (.orphan listed same status)
  handed listed := .inl (.handed listed)
  retired mem found bit := .inl (.retired mem found bit)
  outside mem found beyond := .inl (.outside mem found beyond)
  doomed mem listed := .inl (.doomed mem listed)

theorem System.Condemned.via {s s' : System} (condemned : s'.Condemned id)
    (change : CondemnedCases s s' id other) : s.Condemned id ∨ other := by
  cases condemned with
  | staged listed same status => exact change.staged _ listed same status
  | selected listed same status => exact change.selected _ listed same status
  | orphan listed same status => exact change.orphan _ listed same status
  | handed listed => exact change.handed listed
  | retired mem found bit => exact change.retired mem found bit
  | outside mem found beyond => exact change.outside mem found beyond
  | doomed mem listed => exact change.doomed mem listed

/-- The bookkeeping independent of what is published. -/
structure Books (s : System) : Prop where
  pool : ∀ id ∈ s.pool, id < s.nextSlice ∧ decodeId id = none ∧ id < 2 ^ 63
  poolNodup : s.pool.Nodup
  compacting : ∀ id ∈ s.compacting, decodeId id = none ∧ id < 2 ^ 64
  rows : ∀ row ∈ s.store.db.sliceMeta, wellSized row
  views : ∀ view ∈ s.views, ∀ row ∈ view.2, wellSized row
  reserved : ∀ {id group slot}, decodeId id = some (group, slot) → Reserved s id → Used s group
  /-- A member has one reservation. -/
  single : s.store.db.uncommitted.rows.Pairwise fun row other =>
    row.sliceId = other.sliceId → decodeId row.sliceId = none
  records : ∀ row ∈ s.store.db.delayed.rows, row.id < s.store.db.delayed.seq
  distinct : (s.store.db.delayed.rows.map (·.id)).Nodup
  /-- A selected record is still about its slice. -/
  agrees : ∀ row ∈ s.selected, row.status ≠ .retained ∧ row.id < s.store.db.delayed.seq ∧
    ∀ current ∈ s.store.db.delayed.rows, current.id = row.id →
      current.sliceId = row.sliceId ∧ current.status ≠ .retained

structure Sound (s : System) : Prop extends Books s where
  touched : ∀ {id group slot}, decodeId id = some (group, slot) → s.Touched id → Spent s id
  condemned : ∀ {id group slot}, decodeId id = some (group, slot) → s.Condemned id → Settled s id

variable {s s' s'' : System}

/-- What every step respects: a spent member gets no reservation and no mapping. -/
structure Calm (s s' : System) : Prop where
  used : ∀ group, Used s group → Used s' group
  reserved : ∀ {id group slot}, decodeId id = some (group, slot) → Used s group → Reserved s' id →
    Reserved s id
  mapped : ∀ {id group slot}, decodeId id = some (group, slot) → Spent s id → Mapped s' id →
    Mapped s id

theorem Calm.spent (calm : Calm s s') {group slot : Nat} (mem : decodeId id = some (group, slot))
    (spent : Spent s id) : Spent s' id := by
  refine ⟨fun decoded => calm.used _ (spent.1 decoded), ?_⟩
  intro reserved
  exact spent.2 (calm.reserved mem (spent.1 mem) reserved)

theorem Calm.settled (calm : Calm s s') {group slot : Nat} (mem : decodeId id = some (group, slot))
    (settled : Settled s id) : Settled s' id :=
  ⟨calm.spent mem settled.1,
    fun mapped => settled.2 (calm.mapped mem settled.1 mapped)⟩

theorem Calm.refl (s : System) : Calm s s where
  used _ used := used
  reserved _ _ reserved := reserved
  mapped _ _ mapped := mapped

theorem Calm.trans (early : Calm s s') (late : Calm s' s'') : Calm s s'' where
  used group used := late.used group (early.used group used)
  reserved mem used reserved := early.reserved mem used
    (late.reserved mem (early.used _ used) reserved)
  mapped mem spent mapped := early.mapped mem spent (late.mapped mem (early.spent mem spent) mapped)

/-- The next system is sound and reached calmly. -/
structure Next (s s' : System) : Prop where
  sound : Sound s'
  calm : Calm s s'

theorem Sound.stay (sound : Sound s) : Next s s := ⟨sound, Calm.refl s⟩

theorem Next.trans (early : Next s s') (late : Next s' s'') : Next s s'' :=
  ⟨late.sound, early.calm.trans late.calm⟩

/-- A calm step that puts only spent and settled members where they belong. -/
theorem Sound.advance (sound : Sound s) (books : Books s') (calm : Calm s s')
    (touched : ∀ {id group slot}, decodeId id = some (group, slot) →
      TouchedCases s s' id (Spent s' id))
    (condemned : ∀ {id group slot}, decodeId id = some (group, slot) →
      CondemnedCases s s' id (Settled s' id)) : Next s s' := by
  refine ⟨⟨books, ?_, ?_⟩, calm⟩ <;> intro id group slot mem now
  · rcases now.via (touched mem) with before | spent
    · exact calm.spent mem (sound.touched mem before)
    · exact spent
  rcases now.via (condemned mem) with before | settled
  · exact calm.settled mem (sound.condemned mem before)
  · exact settled

theorem sound_init : Sound System.init where
  pool _ listed := by cases listed
  poolNodup := .nil
  compacting _ listed := by cases listed
  rows _ listed := by cases listed
  views _ listed := by cases listed
  reserved := by
    rintro id group slot _ ⟨row, listed, _⟩
    cases listed
  single := .nil
  records _ listed := by cases listed
  distinct := .nil
  agrees _ listed := by cases listed
  touched := by
    intro id group slot _ touched
    cases touched with
    | mapped listed | staged listed | selected listed => cases listed
    | viewed taken => cases taken
    | published _ found => cases found
  condemned := by
    intro id group slot _ condemned
    cases condemned with
    | staged listed | selected listed | orphan listed | handed listed => cases listed
    | retired _ found | outside _ found => cases found
    | doomed _ listed => cases listed

/-! ### Transactions on the slice tables -/

/-- What transactions on the slice tables do: map no member, reserve none, and stage only members
from `source`. -/
structure TableStep (source : Nat → Prop) (db db' : Tables) : Prop where
  mapped : ∀ row' ∈ db'.sliceMeta, (wellSized row' ∧ decodeId row'.sliceId = none) ∨
    ∃ row ∈ db.sliceMeta, row.sliceId = row'.sliceId ∧ row.offset = row'.offset
  reservations : ∀ row ∈ db'.uncommitted.rows, decodeId row.sliceId = none ∨
    row ∈ db.uncommitted.rows
  single : (db.uncommitted.rows.Pairwise fun row other =>
      row.sliceId = other.sliceId → decodeId row.sliceId = none) →
    db'.uncommitted.rows.Pairwise fun row other =>
      row.sliceId = other.sliceId → decodeId row.sliceId = none
  delayed : db.delayed.Extends db'.delayed
  staged : ∀ row ∈ db'.delayed.rows, row ∈ db.delayed.rows ∨
    (source row.sliceId ∧ row.status ≠ .metaDeleted)

/-- The record keeps its meaning while the table grows. -/
theorem agrees_extends {table newer : DelayedTable} (grows : table.Extends newer)
    (records : ∀ row ∈ table.rows, row.id < table.seq) {row : DelayedRow}
    (agrees : row.id < table.seq ∧ ∀ current ∈ table.rows, current.id = row.id →
      current.sliceId = row.sliceId ∧ current.status ≠ .retained) :
    row.id < newer.seq ∧ ∀ current ∈ newer.rows, current.id = row.id →
      current.sliceId = row.sliceId ∧ current.status ≠ .retained := by
  refine ⟨agrees.1.trans_le grows.seq, ?_⟩
  intro current listed same
  obtain ⟨before, beforeListed, beforeId, how⟩ :=
    grows.kept records current listed (by rw [same]; exact agrees.1)
  have facts := agrees.2 before beforeListed (beforeId.trans same)
  rcases how with retained | ⟨sliceId, _, status⟩
  · exact absurd retained facts.2
  · exact ⟨sliceId.trans facts.1, status⟩

variable {db' : Tables} {staged : List (SliceDesc × Bool)}

theorem Sound.table {source : Nat → Prop} (sound : Sound s)
    (effect : TableStep source s.store.db db')
    (spent : ∀ {id group slot}, decodeId id = some (group, slot) → source id → Spent s id) :
    Next s { s with store := { s.store with db := db' } } := by
  have reserved : ∀ {id group slot}, decodeId id = some (group, slot) →
      Reserved { s with store := { s.store with db := db' } } id → Reserved s id := by
    rintro id group slot mem ⟨row, listed, rfl, status⟩
    rcases effect.reservations row listed with ordinary | before
    · rw [ordinary] at mem
      cases mem
    · exact ⟨row, before, rfl, status⟩
  have mapped : ∀ {id group slot}, decodeId id = some (group, slot) →
      Mapped { s with store := { s.store with db := db' } } id → Mapped s id := by
    rintro id group slot mem ⟨row, listed, rfl⟩
    rcases effect.mapped row listed with ⟨_, ordinary⟩ | ⟨before, beforeListed, same, _⟩
    · rw [ordinary] at mem
      cases mem
    · exact ⟨before, beforeListed, same⟩
  have calm : Calm s { s with store := { s.store with db := db' } } :=
    ⟨fun _ => id, fun mem _ => reserved mem, fun mem _ => mapped mem⟩
  refine sound.advance ?_ calm ?_ ?_
  · exact { sound.toBooks with
      rows := by
        intro row listed
        rcases effect.mapped row listed with ⟨sized, _⟩ | ⟨before, beforeListed, same, offset⟩
        · exact sized
        · have sized := sound.rows before beforeListed
          exact ⟨same ▸ sized.1, offset ▸ sized.2⟩
      reserved := fun mem held => sound.reserved mem (reserved mem held)
      single := effect.single sound.single
      records := effect.delayed.below sound.records
      distinct := effect.delayed.distinct sound.records sound.distinct
      agrees := fun row listed => ⟨(sound.agrees row listed).1,
        agrees_extends effect.delayed sound.records (sound.agrees row listed).2⟩ }
  · intro id group slot mem
    refine { s.sameTouched with
      mapped := fun row listed same => ?_, staged := fun row listed same => ?_ }
    · obtain ⟨before, beforeListed, beforeSame⟩ := mapped mem ⟨row, listed, same⟩
      exact .inl (.mapped beforeListed beforeSame)
    rcases effect.staged row listed with before | ⟨sourced, _⟩
    · exact .inl (.staged before same)
    · exact .inr (calm.spent mem (spent mem (same ▸ sourced)))
  · intro id group slot mem
    refine { s.sameCondemned with
      staged := fun row listed same status => ?_, orphan := fun row listed same status => ?_ }
    · rcases effect.staged row listed with before | ⟨_, live⟩
      · exact .inl (.staged before same status)
      · exact absurd status live
    rcases effect.reservations row listed with ordinary | before
    · rw [same, mem] at ordinary
      cases ordinary
    · exact .inl (.orphan before same status)

/-- Nothing staged. -/
def noSource (_ : Nat) : Prop := False

/-- A change of the tables that marks nothing for deletion. -/
theorem Sound.tableUnstaged (sound : Sound s) (effect : TableStep noSource s.store.db db') :
    Next s { s with store := { s.store with db := db' } } :=
  sound.table effect fun _ none => none.elim

theorem tableStep_refl (db : Tables) : TableStep noSource db db where
  mapped row listed := .inr ⟨row, listed, rfl, rfl⟩
  reservations _ listed := .inr listed
  single := id
  delayed := .refl _
  staged _ listed := .inl listed

theorem tableStep_sublist (db : Tables) {rows : List UncommittedRow}
    (fewer : rows.Sublist db.uncommitted.rows) :
    TableStep noSource db { db with uncommitted := { db.uncommitted with rows := rows } } where
  __ := tableStep_refl db
  reservations _ listed := .inr (fewer.subset listed)
  single pairwise := pairwise.sublist fewer

/-- Staging writes no record that is ready for deletion. -/
theorem stageAll_status {table : DelayedTable} {record : DelayedRow}
    (mem : record ∈ (stageAll table staged).rows) :
    record ∈ table.rows ∨ record.status ≠ .metaDeleted := by
  induction staged generalizing table with
  | nil => exact .inl mem
  | cons item rest ih =>
    rcases ih mem with early | live
    · rcases mem_stage early with old | ⟨_, _, _, status, _⟩
      · exact .inl old
      · rw [status]
        cases item.2 <;> exact .inr (by decide)
    · exact .inr live

/-- Staging slices while mappings go, get shorter or come in under ordinary ids. -/
theorem tableStep_stage {db : Tables}
    (mapped : ∀ row' ∈ db'.sliceMeta, (wellSized row' ∧ decodeId row'.sliceId = none) ∨
      ∃ row ∈ db.sliceMeta, row.sliceId = row'.sliceId ∧ row.offset = row'.offset)
    (uncommitted : db'.uncommitted = db.uncommitted)
    (delayed : db'.delayed = stageAll db.delayed staged) :
    TableStep (fun id => ∃ item ∈ staged, item.1.sliceId = id) db db' where
  mapped := mapped
  reservations _ listed := .inr (uncommitted ▸ listed)
  single pairwise := by rw [uncommitted]; exact pairwise
  delayed := by rw [delayed]; exact extends_stageAll _ _
  staged row listed := by
    rw [delayed] at listed
    rcases stageAll_status listed with before | live
    · exact .inl before
    rcases stageAll_source listed with before | ⟨item, itemListed, same, _⟩
    · exact .inl before
    · exact .inr ⟨⟨item, itemListed, same.symm⟩, live⟩

theorem trimRow_fields {action : SliceDesc → TrimAction} {row row' : SliceDesc}
    (trimmed : trimRow action row = some row') :
    row.sliceId = row'.sliceId ∧ row.offset = row'.offset := by
  unfold trimRow at trimmed
  split at trimmed <;> cases trimmed
  · exact ⟨rfl, rfl⟩
  · exact ⟨rfl, rfl⟩

theorem Sound.prune (sound : Sound s) (action : SliceDesc → TrimAction) :
    Next s { s with store := { s.store with db := pruneTables action s.store.db } } := by
  have kept : ∀ row' ∈ (pruneTables action s.store.db).sliceMeta,
      (wellSized row' ∧ decodeId row'.sliceId = none) ∨
      ∃ row ∈ s.store.db.sliceMeta, row.sliceId = row'.sliceId ∧ row.offset = row'.offset := by
    intro row' listed
    rw [pruneTables, pruneRows_eq] at listed
    obtain ⟨row, before, trimmed⟩ := mem_filterMap.mp listed
    exact .inr ⟨row, before, trimRow_fields trimmed⟩
  have staging : (pruneTables action s.store.db).delayed = stageAll s.store.db.delayed
      (s.store.db.sliceMeta.filterMap (stagedBy action)) := by
    rw [pruneTables, pruneRows_eq]
  apply sound.table (tableStep_stage kept rfl staging)
  · rintro id group slot mem ⟨item, itemListed, same⟩
    obtain ⟨row, before, staged⟩ := mem_filterMap.mp itemListed
    rw [(stagedBy_eq_some staged).1] at same
    exact sound.touched mem (.mapped before same)

theorem Sound.truncate (sound : Sound s) (ino : Int) (size chunkSize : Nat) :
    Next s (s.commitTables (Database.truncate s.store.db ino size chunkSize)) := by
  cases done : Database.truncate s.store.db ino size chunkSize with
  | none => exact sound.stay
  | some after =>
    obtain ⟨current, _, pruned⟩ := Option.bind_eq_some_iff.mp done
    rw [pruneSlicesForTruncate_eq] at pruned
    obtain ⟨cuts, _, rfl⟩ := Option.map_eq_some_iff.mp pruned
    have resizing : TableStep noSource s.store.db { s.store.db with
        fileSize := Function.update s.store.db.fileSize ino (some (asI64 size)) } :=
      { tableStep_refl s.store.db with }
    have resized := sound.tableUnstaged resizing
    have rewritten := resized.sound.prune (cutAction cuts.1)
    exact (resized.trans rewritten).trans (rewritten.sound.prune (cutAction cuts.2))

variable {chunkId : Nat} {slices : List SliceDesc}

section

variable (sound : Sound s) (viewed : (chunkId, slices) ∈ s.views)

include sound viewed

/-- Replacing mappings of a chunk; the replaced slices come from a compactor's list. -/
theorem Sound.reclaim {newSlices : List SliceDesc} {replaced : SliceDesc → Bool}
    (ordinary : ∀ slice ∈ newSlices, wellSized slice ∧ decodeId slice.sliceId = none) :
    Next s { s with store := { s.store with
      db := reclaimReplaced s.store.db chunkId newSlices ((slices.filter replaced).map fun slice =>
          (slice.sliceId, slice.offset, min slice.length u32Max)) } } := by
  refine sound.table (tableStep_stage ?_ rfl (reclaimReplaced_delayed _ _ _ _)) ?_
  · intro row' listed
    rcases mem_append.mp listed with kept | new
    · exact .inr ⟨row', (mem_filter.mp kept).1, rfl, rfl⟩
    · obtain ⟨slice, sliceListed, rfl⟩ := mem_map.mp new
      exact .inl (ordinary slice sliceListed)
  rintro id group slot mem ⟨item, itemListed, rfl⟩
  obtain ⟨record, recordListed, rfl⟩ := mem_map.mp itemListed
  obtain ⟨slice, sliceListed, rfl⟩ := mem_map.mp recordListed
  exact sound.touched mem
    (.viewed viewed (mem_filter.mp sliceListed).1 rfl)

theorem Sound.decoded (replacedIds : List Nat) :
    decodeDelayedData (encodeDelayedData slices replacedIds) =
      some ((slices.filter fun slice => replacedIds.contains slice.sliceId).map
        fun slice => (slice.sliceId, slice.offset, min slice.length u32Max)) :=
  decode_encodeDelayedData slices replacedIds
    (fun slice listed => (sound.views _ viewed slice listed).1)
    (fun slice listed => (sound.views _ viewed slice listed).2)

theorem Sound.compactHeavy {newId length : Nat} (ours : newId ∈ s.compacting) :
    Next s (s.commitTables (replaceSlicesForCompactWithVersion s.store.db chunkId
      [⟨newId, chunkId, 0, length⟩] (encodeDelayedData slices (slices.map (·.sliceId))) slices))
        := by
  cases done : replaceSlicesForCompactWithVersion s.store.db chunkId [⟨newId, chunkId, 0, length⟩]
      (encodeDelayedData slices (slices.map (·.sliceId))) slices with
  | none => exact sound.stay
  | some after =>
    unfold replaceSlicesForCompactWithVersion at done
    rw [sound.decoded viewed] at done
    split at done
    · obtain ⟨rows, consumed, rfl⟩ := Option.map_eq_some_iff.mp done
      obtain ⟨left, taken, same⟩ := Option.bind_eq_some_iff.mp consumed
      cases same
      have fewer := (consumeReservation_spec taken).2.1
      have spent := sound.tableUnstaged (tableStep_sublist s.store.db fewer)
      have ordinary := sound.compacting newId ours
      refine spent.trans (spent.sound.reclaim viewed ?_)
      intro slice listed
      rw [mem_singleton.mp listed]
      exact ⟨⟨ordinary.2, Nat.two_pow_pos 64⟩, ordinary.1⟩
    · cases done

end

/-! ### Identifiers -/

theorem Sound.take (sound : Sound s) (id : Nat) : Next s (s.take id) := by
  have used : ∀ group, Used s group → Used (s.take id) group :=
    fun group used => ⟨used.1, fun listed => used.2 (mem_of_mem_erase listed)⟩
  refine sound.advance ?_ { Calm.refl s with used := used } (fun _ => { s.sameTouched with })
    fun _ => { s.sameCondemned with }
  exact { sound.toBooks with
    pool := fun other listed => sound.pool other (mem_of_mem_erase listed)
    poolNodup := sound.poolNodup.erase id
    reserved := fun mem reserved => used _ (sound.reserved mem reserved) }

theorem Sound.nextId (sound : Sound s) (next : step s .nextId = some s') : Next s s' := by
  simp only [step] at next
  have grown : ∀ pool, (∀ id ∈ pool, id = s.nextSlice ∨ id ∈ s.pool) → ∀ group, Used s group →
      Used { s with nextSlice := s.nextSlice + 1, pool := pool } group := by
    intro pool new group used
    refine ⟨Nat.lt_succ_of_lt used.1, fun listed => ?_⟩
    rcases new group listed with rfl | before
    · exact Nat.lt_irrefl _ used.1
    · exact used.2 before
  have counted : ∀ pool, (∀ id ∈ pool, id = s.nextSlice ∧ (decodeId id = none ∧ id < 2 ^ 63) ∨
      id ∈ s.pool) → pool.Nodup → Next s { s with nextSlice := s.nextSlice + 1, pool := pool } := by
    intro pool new nodup
    have used := grown pool fun id listed => (new id listed).imp_left And.left
    refine sound.advance ?_ { Calm.refl s with used := used }
      (fun _ => { s.sameTouched with }) fun _ => { s.sameCondemned with }
    exact { sound.toBooks with
      pool := by
        intro id listed
        rcases new id listed with ⟨rfl, valid⟩ | before
        · exact ⟨Nat.lt_succ_self _, valid⟩
        · exact ⟨Nat.lt_succ_of_lt (sound.pool id before).1, (sound.pool id before).2⟩
      poolNodup := nodup
      reserved := fun mem reserved => used _ (sound.reserved mem reserved) }
  split at next <;> cases next
  · rename_i valid
    refine counted _ (fun id listed => ?_) (nodup_cons.mpr
      ⟨fun listed => Nat.lt_irrefl _ (sound.pool _ listed).1, sound.poolNodup⟩)
    exact (mem_cons.mp listed).imp_left fun here => ⟨here, here ▸ valid⟩
  · exact counted s.pool (fun id listed => .inr listed) sound.poolNodup

end BrewFs.Meta.Database.Coalesce
