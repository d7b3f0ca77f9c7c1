import BrewFs.Vfs.Cache.PageBytes
import BrewFs.Vfs.Writer.Commit

/-! `vfs/io/writer.rs`: the slices of a chunk, which of them takes a write, and how they leave the
chunk. Freezing a slice because of its size or its age is an event of its own here. -/

namespace BrewFs.Vfs

open List Option CacheSlice
open SliceState (canWrite)
open Function (update update_self)

/-- `ChunkState`. A slice is known by its number, in the source by its address. -/
structure ChunkState where
  chunkId : Nat
  slices : Nat → SliceState
  created : Nat
  recentlyCommitted : List Nat
  /-- `chunk.slices`, the front first. -/
  queue : List Nat

/-- What happens to a chunk besides writes. -/
inductive ChunkAction where
  | slice (index dataEpoch : Nat) (event : SliceEvent)
  /-- A slice of the queue is marked committed. -/
  | commit (index : Nat)
  | split
  | moveFront
  | popFront
  /-- `auto_flush` drops the recently committed slices that are old enough. -/
  | drain (aged : Nat → Bool)

def writeSliceMaxRetries : Nat := 1024

namespace ChunkState

def new (chunkId : Nat) : ChunkState where
  chunkId := chunkId
  slices := fun _ => SliceState.new chunkId 0 0
  created := 0
  recentlyCommitted := []
  queue := []

def held (c : ChunkState) : List Nat := c.recentlyCommitted ++ c.queue

def setSlice (c : ChunkState) (index : Nat) (slice : SliceState) : ChunkState :=
  { c with slices := update c.slices index slice }

@[simp] theorem setSlice_self (c : ChunkState) (index : Nat) (slice : SliceState) :
    (c.setSlice index slice).slices index = slice := update_self ..

theorem setSlice_of_ne (c : ChunkState) {index other : Nat} (slice : SliceState)
    (apart : other ≠ index) : (c.setSlice index slice).slices other = c.slices other :=
  Function.update_of_ne apart ..

variable (cfg : WriteConfig)

/-! ### Writes -/

variable (c : ChunkState)

/-- A recently committed slice would cover the write in the candidate. -/
def newerRecentlyCommittedOverlap (candidate : SliceState) (offset len : Nat) : Bool :=
  c.recentlyCommitted.any fun recent =>
    (candidate.writeOrder = 0 || (c.slices recent).writeOrder = 0 ||
      candidate.writeOrder < (c.slices recent).writeOrder) &&
      (c.slices recent).writeRangeHasWrittenOverlap offset len

/-- The slice is a newer request's that has written here. -/
def rejectsOlderUnique (candidate : SliceState) (offset len creationUnique : Nat) : Bool :=
  creationUnique ≠ 0 && candidate.maxWriteUnique ≠ 0 && creationUnique < candidate.maxWriteUnique &&
    candidate.writeRangeHasWrittenOverlap offset len

/-- The scan of `find_slice_or_create` from the back of the queue; the flag is
`newer_written_overlap`. -/
def findLoop (c : ChunkState) (offset len creationUnique : Nat) (allowGapFrom : Option Nat) :
    Bool → List Nat → Option Nat
  | _, [] => none
  | newer, index :: rest =>
    let overlap := (c.slices index).writeRangeHasWrittenOverlap offset len
    match (c.slices index).canWrite cfg offset len allowGapFrom with
    | some action =>
      if action = .overlap ∧ overlap = true then
        c.findLoop offset len creationUnique allowGapFrom true rest
      else if newer || c.newerRecentlyCommittedOverlap (c.slices index) offset len then
        c.findLoop offset len creationUnique allowGapFrom newer rest
      else if rejectsOlderUnique (c.slices index) offset len creationUnique then
        c.findLoop offset len creationUnique allowGapFrom newer rest
      else some index
    | none => c.findLoop offset len creationUnique allowGapFrom (newer || overlap) rest

/-- A new slice, at its place in the queue. -/
def insertSlice (offset creationUnique writeOrder : Nat) : ChunkState := { c with
    slices := update c.slices c.created
      { SliceState.new c.chunkId offset creationUnique with writeOrder := writeOrder }
    created := c.created + 1
    queue := c.queue.insertIdx (ChunkCommit.insertPos c.slices c.queue writeOrder) c.created }

/-- A reused slice remembers the newest request that wrote to it. -/
def touchSlice (index creationUnique : Nat) : ChunkState :=
  c.setSlice index { c.slices index with
    maxWriteUnique := max (c.slices index).maxWriteUnique creationUnique }

def findSliceOrCreate (offset len creationUnique writeOrder : Nat)
    (allowGapFrom : Option Nat) : Option (Nat × ChunkState) :=
  if cfg.chunkSize < offset + len then none
  else
    match c.findLoop cfg offset len creationUnique allowGapFrom false c.queue.reverse with
    | some index => some (index, c.touchSlice index creationUnique)
    | none => some (c.created, c.insertSlice offset creationUnique writeOrder)

/-- The loop of `write_at`: look again when the slice found does not take the write. -/
def writeLoop (offset : Nat) (buf : List UInt8) (creationUnique writeOrder : Nat)
    (allowGapFrom : Option Nat) : Nat → ChunkState → Option ChunkState
  | 0, _ => none
  | tries + 1, c =>
    (c.findSliceOrCreate cfg offset buf.length creationUnique writeOrder allowGapFrom).bind
      fun found =>
        match (found.2.slices found.1).tryWrite cfg offset buf allowGapFrom with
        | none => none
        | some (true, written) => some (found.2.setSlice found.1 written)
        | some (false, _) =>
          writeLoop offset buf creationUnique writeOrder allowGapFrom tries found.2

def writeAt (offset : Nat) (buf : List UInt8) (creationUnique writeOrder : Nat)
    (allowGapFrom : Option Nat) : Option ChunkState :=
  writeLoop cfg offset buf creationUnique writeOrder allowGapFrom writeSliceMaxRetries c

/-! ### The other actions -/

/-- `split_uploaded_prefix_tail` -/
def split : Option ChunkState :=
  match c.queue with
  | [] => none
  | front :: rest => ((c.slices front).splitUploadedPrefixTail cfg).map fun parts =>
    { c with
      slices := update (update c.slices front parts.1) c.created parts.2
      created := c.created + 1
      queue := front :: c.created :: rest }

/-- `keep_recently_committed_if_overlay_needed` -/
def moveFront : Option ChunkState :=
  match c.queue with
  | [] => none
  | front :: rest => some { c with
      recentlyCommitted := if (c.slices front).canOverlayRead cfg then
        c.recentlyCommitted ++ [front] else c.recentlyCommitted
      queue := rest }

/-- `pop_front_slice` -/
def popFront : Option ChunkState :=
  match c.queue with
  | [] => none
  | _ :: rest => some { c with queue := rest }

/-- Does `auto_flush` keep a slice however old it is? -/
def pendingWritebackUpload (commitBeforeUpload : Bool) (s : SliceState) : Bool :=
  commitBeforeUpload && (s.state = .committed || s.state = .failed) && !s.uploadComplete cfg

def drain (commitBeforeUpload : Bool) (c : ChunkState) (aged : Nat → Bool) : ChunkState :=
  { c with recentlyCommitted := c.recentlyCommitted.filter fun index =>
      !aged index || pendingWritebackUpload cfg commitBeforeUpload (c.slices index) }

/-- One action on the chunk. Writes come through `writeAt` only; prefixes are split off only where
uploads come before commits. -/
def step (commitBeforeUpload : Bool) (c : ChunkState) : ChunkAction → Option ChunkState
  | .slice index dataEpoch event =>
    if index ∈ c.held ∧ event.writes = false then
      ((c.slices index).apply cfg dataEpoch event).map (c.setSlice index)
    else none
  | .commit index =>
    if index ∈ c.queue then some (c.setSlice index (c.slices index).markCommitted) else none
  | .split => if commitBeforeUpload then none else c.split cfg
  | .moveFront => c.moveFront cfg
  | .popFront => c.popFront
  | .drain aged => some (c.drain cfg commitBeforeUpload aged)

/-! ### What a write does -/

variable {cfg}

variable {offset len : Nat} {allowGapFrom : Option Nat} {action : WriteAction} {s : SliceState}

theorem not_overlap_of_canWrite (able : s.canWrite cfg offset len allowGapFrom = some action)
    (fresh : ¬ (action = .overlap ∧ s.writeRangeHasWrittenOverlap offset len = true)) :
    s.writeRangeHasWrittenOverlap offset len = false := by
  rw [Bool.eq_false_iff]
  intro overlap
  refine fresh ⟨?_, overlap⟩
  unfold canWrite at able
  split at able
  · cases able
  split at able
  · cases able
  unfold SliceState.writeRangeHasWrittenOverlap at overlap
  dsimp only at overlap
  split at overlap
  · unfold canWriteWithGap at able
    split at able
    · rename_i here
      simp only [canAppend, decide_eq_true_eq] at here
      omega
    split at able
    · cases able
      rfl
    split at able
    · rename_i gap
      simp only [canGapAppend, Bool.and_eq_true, decide_eq_true_eq] at gap
      omega
    · cases able
  · cases overlap

/-- The slice found: it takes the write, and no slice behind it and no newer recently committed one
has written there. -/
structure Found (cfg : WriteConfig) (c : ChunkState) (offset len : Nat) (allowGapFrom : Option Nat)
    (newer : List Nat) (index : Nat) (action : WriteAction) : Prop where
  able : (c.slices index).canWrite cfg offset len allowGapFrom = some action
  fresh : (c.slices index).writeRangeHasWrittenOverlap offset len = false
  behind : ∀ other ∈ newer, (c.slices other).writeRangeHasWrittenOverlap offset len = false
  recent : c.newerRecentlyCommittedOverlap (c.slices index) offset len = false

variable {c next : ChunkState} {creationUnique writeOrder : Nat}

theorem findLoop_spec {newer : Bool} {order : List Nat} {index : Nat}
    (found : c.findLoop cfg offset len creationUnique allowGapFrom newer order = some index) :
    newer = false ∧ ∃ above below action, order = above ++ index :: below ∧
      Found cfg c offset len allowGapFrom above index action := by
  induction order generalizing newer with
  | nil => cases found
  | cons first rest ih =>
    -- a slice that is passed over has not written there either
    have skip : ∀ {flag}, (flag = false → newer = false ∧
          (c.slices first).writeRangeHasWrittenOverlap offset len = false) →
        c.findLoop cfg offset len creationUnique allowGapFrom flag rest = some index →
        newer = false ∧ ∃ above below action, first :: rest = above ++ index :: below ∧
          Found cfg c offset len allowGapFrom above index action := by
      intro flag clear later
      obtain ⟨unset, above, below, action, rfl, spec⟩ := ih later
      obtain ⟨still, fresh⟩ := clear unset
      refine ⟨still, first :: above, below, action, rfl, spec.able, spec.fresh, ?_, spec.recent⟩
      exact forall_mem_cons.mpr ⟨fresh, spec.behind⟩
    unfold findLoop at found
    dsimp only at found
    split at found
    · rename_i action able
      split at found
      · exact skip (fun unset => by cases unset) found
      rename_i fresh
      have clean := not_overlap_of_canWrite able fresh
      split at found
      · exact skip (fun unset => ⟨unset, clean⟩) found
      rename_i older
      rw [Bool.or_eq_true, not_or, Bool.not_eq_true, Bool.not_eq_true] at older
      split at found
      · exact skip (fun unset => ⟨unset, clean⟩) found
      · cases found
        exact ⟨older.1, [], rest, action, rfl, able, clean, nofun, older.2⟩
    · exact skip (fun unset => by
        rw [Bool.or_eq_false_iff] at unset
        exact unset) found

/-- A reused slice after the write. -/
def reused (s : SliceState) (data : CacheSlice) (creationUnique : Nat) : SliceState :=
  { s with data := data, maxWriteUnique := max s.maxWriteUnique creationUnique }

/-- The two ways of a write: into a slice of the queue, or a new one. -/
inductive WriteEffect (cfg : WriteConfig) (c : ChunkState) (offset : Nat) (buf : List UInt8)
    (creationUnique writeOrder : Nat) (allowGapFrom : Option Nat) : ChunkState → Prop
  | reuse (older newer : List Nat) (index : Nat) (action : WriteAction) (data : CacheSlice)
      (queue : c.queue = older ++ index :: newer)
      (found : Found cfg c offset buf.length allowGapFrom newer index action)
      (written : (c.slices index).data.write cfg (offset - (c.slices index).offset) buf action =
        some data) :
      WriteEffect cfg c offset buf creationUnique writeOrder allowGapFrom
        (c.setSlice index (reused (c.slices index) data creationUnique))
  | create (data : CacheSlice)
      (missed : c.findLoop cfg offset buf.length creationUnique allowGapFrom false
        c.queue.reverse = none)
      (written : CacheSlice.empty.append cfg buf = some data) :
      WriteEffect cfg c offset buf creationUnique writeOrder allowGapFrom
        ((c.insertSlice offset creationUnique writeOrder).setSlice c.created
          { SliceState.new c.chunkId offset creationUnique with
            writeOrder := writeOrder
            data := data })

@[simp] theorem touchSlice_self (c : ChunkState) (index creationUnique : Nat) :
    (c.touchSlice index creationUnique).slices index = { c.slices index with
      maxWriteUnique := max (c.slices index).maxWriteUnique creationUnique } :=
  update_self ..

@[simp] theorem insertSlice_self (c : ChunkState) (offset creationUnique writeOrder : Nat) :
    (c.insertSlice offset creationUnique writeOrder).slices c.created =
      { SliceState.new c.chunkId offset creationUnique with writeOrder := writeOrder } :=
  update_self ..

theorem canWrite_created (offset creationUnique writeOrder len : Nat) : canWrite cfg
      ((c.insertSlice offset creationUnique writeOrder).slices c.created) offset len allowGapFrom =
        some .append := by
  rw [insertSlice_self]
  exact SliceState.canWrite_new ..

variable {buf : List UInt8}

theorem tryWrite_able (able : s.canWrite cfg offset buf.length allowGapFrom = some action) :
    s.tryWrite cfg offset buf allowGapFrom =
      (s.data.write cfg (offset - s.offset) buf action).map fun data =>
        (true, { s with data := data }) := by
  rw [SliceState.tryWrite, able]

/-- One round of `write_at` is enough: the slice found takes the write, or it fails for good. -/
theorem writeLoop_effect {tries : Nat}
    (done : writeLoop cfg offset buf creationUnique writeOrder allowGapFrom tries c = some next) :
    offset + buf.length ≤ cfg.chunkSize ∧
      WriteEffect cfg c offset buf creationUnique writeOrder allowGapFrom next := by
  cases tries with
  | zero => cases done
  | succ tries =>
    obtain ⟨found, chosen, done⟩ := bind_eq_some_iff.mp done
    unfold findSliceOrCreate at chosen
    split at chosen
    · cases chosen
    rename_i fits
    refine ⟨not_lt.mp fits, ?_⟩
    split at chosen
    · rename_i index scanned
      cases chosen
      obtain ⟨_, above, below, action, order, spec⟩ := findLoop_spec scanned
      have able : canWrite cfg ((c.touchSlice index creationUnique).slices index)
          offset buf.length allowGapFrom = some action := by
        rw [touchSlice_self]
        exact spec.able
      rw [tryWrite_able able] at done
      cases written : (c.slices index).data.write cfg (offset - (c.slices index).offset) buf
          action with
      | none =>
        simp only [touchSlice_self, written] at done
        cases done
      | some data =>
        simp only [touchSlice_self, written] at done
        simp only [touchSlice, setSlice, Function.update_idem] at done
        cases done
        refine .reuse below.reverse above.reverse index action data ?_ ?_ written
        · rw [reverse_eq_iff] at order
          rw [order, reverse_append, reverse_cons, append_assoc,
            singleton_append]
        · exact ⟨spec.able, spec.fresh, fun other listed =>
            spec.behind other (mem_reverse.mp listed), spec.recent⟩
    · rename_i missed
      cases chosen
      rw [tryWrite_able (canWrite_created ..)] at done
      cases written : CacheSlice.empty.append cfg buf with
      | none =>
        simp only [insertSlice_self, SliceState.new, write, written] at done
        cases done
      | some data =>
        simp only [insertSlice_self, SliceState.new, write, written] at done
        cases done
        exact .create data missed written

theorem writeAt_effect
    (done : c.writeAt cfg offset buf creationUnique writeOrder allowGapFrom = some next) :
    offset + buf.length ≤ cfg.chunkSize ∧
      WriteEffect cfg c offset buf creationUnique writeOrder allowGapFrom next :=
  writeLoop_effect done

/-- A write that fits the chunk succeeds when the slice it finds takes it. -/
theorem writeAt_isSome (creationUnique writeOrder : Nat)
    (fits : offset + buf.length ≤ cfg.chunkSize) (takes : ∀ index ∈ c.queue, ∀ action,
      (c.slices index).canWrite cfg offset buf.length allowGapFrom = some action →
      ∃ data, (c.slices index).data.write cfg (offset - (c.slices index).offset) buf action =
        some data) (blank : ∃ data, CacheSlice.empty.append cfg buf = some data) :
    (c.writeAt cfg offset buf creationUnique writeOrder allowGapFrom).isSome = true := by
  unfold writeAt writeSliceMaxRetries
  rw [writeLoop, findSliceOrCreate, if_neg (not_lt.mpr fits)]
  split
  · rename_i index scanned
    obtain ⟨_, above, below, action, order, spec⟩ := findLoop_spec scanned
    obtain ⟨data, written⟩ := takes index (by
      rw [← mem_reverse, order]
      exact mem_append_right _ mem_cons_self) action spec.able
    have able : canWrite cfg ((c.touchSlice index creationUnique).slices index)
        offset buf.length allowGapFrom = some action := by
      rw [touchSlice_self]
      exact spec.able
    rw [bind_some, tryWrite_able able]
    simp only [touchSlice_self, written, map_some, isSome_some]
  · obtain ⟨data, written⟩ := blank
    rw [bind_some, tryWrite_able (canWrite_created ..)]
    simp only [insertSlice_self, SliceState.new, write, written, map_some,
      isSome_some]

end ChunkState

end BrewFs.Vfs
