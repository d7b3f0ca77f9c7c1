import BrewFs.Vfs.Writer.CommitOrder

/-! The overlay and the metadata store lay the slices of a chunk over each other in the same order,
as long as no writer is overtaken on its way to a new slice. -/

namespace BrewFs.Vfs

open BrewFs.Layers List Option SliceState
open Function (update comp_update)

namespace SliceState

variable {cfg : WriteConfig} {s : SliceState}

theorem wrote_create (chunkId creationUnique writeOrder : Nat) {offset : Nat} {buf : List UInt8}
    {data : CacheSlice} (written : CacheSlice.empty.append cfg buf = some data)
    (fits : offset + buf.length ≤ cfg.chunkSize) {q : Nat}
    (wrote : wrote { SliceState.new chunkId offset creationUnique with
      writeOrder := writeOrder, data := data } q = true) :
    offset ≤ q ∧ q < offset + buf.length := by
  obtain ⟨solid, shown⟩ := solid_create chunkId creationUnique writeOrder written fits
  have top := shown q
  rw [solid.layer_eq (canOverlayRead_of_ne (by simp [SliceState.new])),
    if_pos (solid.wrote_iff.mp wrote)] at top
  exact patchLayer_isSome.mp (isSome_of_mem top.symm)

end SliceState

namespace ChunkSchedule

open ChunkState

variable {cfg : WriteConfig} {commitBeforeUpload : Bool} {s next : ChunkSchedule}

structure Agrees (cfg : WriteConfig) (s : ChunkSchedule) : Prop where
  arranged : Arranged cfg s.chunk
  numbered : Numbered s.chunk s.writeOrder s.waiting
  logged : Logged s.chunk s.committing s.log

theorem agrees_init : Agrees cfg init where
  arranged := ⟨.nil, nofun, nofun, .nil, .nil⟩
  numbered := ⟨nofun, nofun, nofun⟩
  logged := ⟨.nil, nofun, nofun, nofun, nofun, nofun, .nil⟩

variable {stage : CommitStage} {index y : Nat}

theorem at?_eq_some : s.at? stage = some index ↔ s.committing = some (index, stage) := by
  unfold at?
  cases s.committing with
  | none => simp
  | some current =>
    simp only [bind_some, ite_none_right_eq_some, Option.some.injEq, Prod.ext_iff]
    exact and_comm

/-! ### Writes -/

variable {older newer : List Nat} {x offset writer : Nat} {action : WriteAction} {data : CacheSlice}

/-- Does an earlier slice that conflicts with a write have a smaller number than the one that takes
it? -/
theorem Agrees.lt_of_reuse (agrees : Agrees cfg s) {len : Nat}
    (queue : s.chunk.queue = older ++ index :: newer)
    (found : Found cfg s.chunk offset len none newer index action) (held : x ∈ s.chunk.held)
    (apart : x ≠ index) {q : Nat} (wrote : (s.chunk.slices x).wrote q = true)
    (requested : offset ≤ q ∧ q < offset + len) :
    (s.chunk.slices x).writeOrder < (s.chunk.slices index).writeOrder := by
  have solid := agrees.arranged.solid x held
  have overlap : (s.chunk.slices x).writeRangeHasWrittenOverlap offset len = true :=
    solid.overlap_iff.mpr ⟨q, requested, wrote⟩
  have split : s.chunk.held = (s.chunk.recentlyCommitted ++ older) ++ index :: newer := by
    rw [ChunkState.held, queue, append_assoc]
  obtain ⟨_, placed, _⟩ := canWrite_spec found.able
  have parts := agrees.arranged.parts
  rw [split, pairwise_append] at parts
  have before : x ∈ s.chunk.recentlyCommitted ++ older →
      (s.chunk.slices x).writeOrder ≤ (s.chunk.slices index).writeOrder →
      (s.chunk.slices x).writeOrder < (s.chunk.slices index).writeOrder := by
    intro listed le
    have continues := parts.2.2 x listed index mem_cons_self
    have inside := solid.wrote_iff.mp wrote
    refine Nat.lt_of_le_of_ne le fun same => ?_
    have := (continues same).2
    omega
  rw [split, mem_append, mem_append, mem_cons] at held
  rcases held with (recent | listed) | (rfl | behind)
  · refine before (mem_append_left _ recent) (not_lt.mp fun less => ?_)
    have clear := any_eq_false.mp found.recent x recent
    simp [less, overlap] at clear
  · have sorted := agrees.arranged.sorted
    rw [queue, pairwise_append] at sorted
    exact before (mem_append_right _ listed) (sorted.2.2 x listed index mem_cons_self)
  · exact absurd rfl apart
  · rw [found.behind x behind] at overlap
    cases overlap

theorem Agrees.reuse (agrees : Agrees cfg s) (creationUnique : Nat) {buf : List UInt8}
    (queue : s.chunk.queue = older ++ index :: newer)
    (found : Found cfg s.chunk offset buf.length none newer index action)
    (written : (s.chunk.slices index).data.write cfg (offset - (s.chunk.slices index).offset) buf
      action = some data) (fits : offset + buf.length ≤ cfg.chunkSize) :
    Agrees cfg (s.setChunk (s.chunk.setSlice index
      (reused (s.chunk.slices index) data creationUnique))) := by
  have held : index ∈ s.chunk.held := mem_held_of_queue (by
    rw [queue]
    exact mem_append_right _ mem_cons_self)
  have solid := agrees.arranged.solid index held
  have after : (reused (s.chunk.slices index) data creationUnique).Solid cfg :=
    (solid.write found.able _ written fits).1
  obtain ⟨writable, placed, _, gap, reach⟩ := canWrite_spec found.able
  refine ⟨agrees.arranged.alter ⟨rfl, rfl, id, fun sealed => absurd writable sealed, after⟩,
    agrees.numbered.alter rfl, agrees.logged.alter rfl id fun x other apart conflict => ?_⟩
  obtain ⟨q, left, right⟩ := conflict
  have len := (CacheSlice.write_spec gap written).1
  rw [after.wrote_iff] at right
  simp only [reused] at right
  by_cases old : (s.chunk.slices index).wrote q = true
  · exact .inl ⟨q, left, old⟩
  have requested : offset ≤ q ∧ q < offset + buf.length := by
    rw [solid.wrote_iff] at old
    omega
  exact .inr ⟨fun listed => agrees.logged.closed index listed held writable,
    fun _ => agrees.lt_of_reuse queue found other apart left requested⟩

variable {c chunk : ChunkState} {w : PendingWrite}

theorem insertSlice_eq_place {creationUnique writeOrder : Nat} {slice : SliceState}
    (inserted : c.queue.insertIdx (ChunkCommit.insertPos c.slices c.queue writeOrder) c.created =
      older ++ c.created :: newer) :
    (c.insertSlice offset creationUnique writeOrder).setSlice c.created slice =
      c.place older newer slice := by
  simp only [insertSlice, ChunkState.setSlice, Function.update_idem, inserted, place]

theorem Agrees.create (agrees : Agrees cfg s) (waits : s.waiting writer = some w)
    (written : CacheSlice.empty.append cfg w.buf = some data)
    (fits : w.offset + w.buf.length ≤ cfg.chunkSize)
    (first : ∀ current ∈ s.committing, (s.chunk.slices current.1).writeOrder < w.order)
    (recent : ∀ index ∈ s.chunk.recentlyCommitted, w.order < (s.chunk.slices index).writeOrder →
      (s.chunk.slices index).writeRangeHasWrittenOverlap w.offset w.buf.length = false) :
    Agrees cfg { s with
      chunk := (s.chunk.insertSlice w.offset w.creationUnique w.order).setSlice s.chunk.created
        { SliceState.new s.chunk.chunkId w.offset w.creationUnique with
          writeOrder := w.order, data := data }
      waiting := Function.update s.waiting writer none } := by
  obtain ⟨pos, bounded⟩ := agrees.numbered.counted writer w waits
  obtain ⟨older, newer, queue, inserted, below, above⟩ :=
    insertPos_split pos agrees.arranged.sorted s.chunk.created
  rw [insertSlice_eq_place inserted]
  have solid := (solid_create s.chunk.chunkId w.creationUnique w.order written fits).1
  have unused : ∀ index ∈ s.chunk.held, (s.chunk.slices index).writeOrder ≠ w.order :=
    fun index held => (agrees.numbered.used index held).2 writer w waits
  have split : s.chunk.held = (s.chunk.recentlyCommitted ++ older) ++ newer := by
    rw [ChunkState.held, queue, append_assoc]
  refine ⟨agrees.arranged.place queue solid ?_ ?_ ?_ ?_,
    (agrees.numbered.settle writer).place agrees.arranged queue bounded ?_,
    agrees.logged.place agrees.arranged queue ?_ ?_⟩
  · exact below
  · exact fun index listed => (above index listed).le
  · intro index listed same
    exact absurd same (unused index (by rw [split]; exact mem_append_left _ listed))
  · intro index listed same
    exact absurd same.symm (unused index (by rw [split]; exact mem_append_right _ listed))
  · intro other v found same
    by_cases here : other = writer
    · rw [here, Function.update_self] at found
      cases found
    · rw [Function.update_of_ne here] at found
      exact here (agrees.numbered.distinct other writer v found w waits same.symm)
  · rintro current found rfl
    -- the slice being committed is in front and has a smaller number
    have head := agrees.logged.front current found
    have larger := above current.1 (by
      rw [queue] at head
      exact mem_of_head? head)
    exact Nat.lt_asymm larger (first current found)
  · intro x held listed conflict
    obtain ⟨q, left, right⟩ := conflict
    rcases mem_append.mp held with old | queued
    · by_contra larger
      have clear := recent x old (Nat.lt_of_le_of_ne (not_lt.mp larger) (unused x held).symm)
      have blank := (agrees.arranged.solid x held).not_wrote clear
        (wrote_create _ _ _ written fits right)
      rw [blank] at left
      cases left
    rcases agrees.logged.queued x queued listed with stage | stage
    · exact first (x, .written) stage
    · exact first (x, .popping) stage

theorem Agrees.insert (agrees : Agrees cfg s) (waits : s.waiting writer = some w)
    (ahead : NotOvertaken cfg s (.insert writer))
    (done : s.chunk.writeAt cfg w.offset w.buf w.creationUnique w.order none = some chunk) :
    Agrees cfg { s with chunk := chunk, waiting := Function.update s.waiting writer none } := by
  obtain ⟨fits, effect⟩ := writeAt_effect done
  cases effect with
  | reuse older newer index action data queue found written =>
    have reused := agrees.reuse w.creationUnique queue found written fits
    exact ⟨reused.arranged, reused.numbered.settle writer, reused.logged⟩
  | create data missed written =>
    obtain ⟨first, recent⟩ := ahead w waits missed
    exact agrees.create waits written fits first recent

/-! ### The other steps -/

theorem Agrees.alter (agrees : Agrees cfg s) {slice : SliceState}
    (alters : Alters cfg (s.chunk.slices index) slice)
    (wrote : ∀ q, slice.wrote q = true → (s.chunk.slices index).wrote q = true) :
    Agrees cfg (s.setChunk (s.chunk.setSlice index slice)) :=
  ⟨agrees.arranged.alter alters, agrees.numbered.alter alters.order,
    agrees.logged.alter alters.order alters.closed fun _ _ _ conflict =>
      .inl (conflict.imp fun q both => ⟨both.1, wrote q both.2⟩)⟩

theorem wrote_of_len {before after : SliceState} (solid : before.Solid cfg)
    (alters : Alters cfg before after) (len : after.data.len ≤ before.data.len) (q : Nat)
    (wrote : after.wrote q = true) : before.wrote q = true := by
  have inside := alters.solid.wrote_iff.mp wrote
  rw [alters.offset] at inside
  rw [solid.wrote_iff]
  omega

section

variable (agrees : Agrees cfg s)

include agrees

theorem Agrees.slice {dataEpoch : Nat} {event : SliceEvent}
    {slice : SliceState} (held : index ∈ s.chunk.held) (quiet : event.writes = false)
    (applied : (s.chunk.slices index).apply cfg dataEpoch event = some slice) :
    Agrees cfg (s.setChunk (s.chunk.setSlice index slice)) := by
  have solid := agrees.arranged.solid index held
  obtain ⟨alters, len⟩ := effect_alters _ solid quiet (apply_effect applied)
  exact agrees.alter alters (wrote_of_len solid alters len.le)

theorem Agrees.restage {stage : Option (Nat × CommitStage)}
    (front : ∀ current ∈ stage, s.chunk.queue.head? = some current.1)
    (queued : ∀ index ∈ s.chunk.queue, index ∈ s.log →
      stage = some (index, .written) ∨ stage = some (index, .popping)) :
    Agrees cfg { s with committing := stage } :=
  ⟨agrees.arranged, agrees.numbered, agrees.logged.shrink rfl rfl (.refl _) (.refl _) front queued⟩

/-- Until the task has written its slice nothing queued is committed. -/
theorem Agrees.unlogged
    (early : ∀ index, s.committing ≠ some (index, .written) ∧ s.committing ≠ some (index, .popping))
    (queued : index ∈ s.chunk.queue) : index ∉ s.log := by
  intro listed
  rcases agrees.logged.queued index queued listed with stage | stage
  · exact (early index).1 stage
  · exact (early index).2 stage

theorem Agrees.markCommitted (current : s.committing = some (index, stage))
    (queued : ∀ other ∈ s.chunk.queue, other ∈ s.log → other = index) :
    Agrees cfg ((s.setChunk (s.chunk.setSlice index
      (s.chunk.slices index).markCommitted)).setStage index .popping) := by
  have head := agrees.logged.front _ current
  have solid := agrees.arranged.solid index (mem_held_of_queue (mem_of_head? head))
  have alters : Alters cfg (s.chunk.slices index) (s.chunk.slices index).markCommitted :=
    ⟨rfl, rfl, nofun, fun _ => rfl, solid.markCommitted⟩
  apply (agrees.alter alters (wrote_of_len solid alters (le_rfl))).restage
  · rintro current found
    cases found
    exact head
  · exact fun other waits listed => .inr (by rw [queued other waits listed])

theorem Agrees.fail (message : String) (current : s.committing = some (index, .taken)) :
    Agrees cfg ((s.setChunk (s.chunk.setSlice index
      ((s.chunk.slices index).markFailed message))).setStage index .dropping) := by
  have head := agrees.logged.front _ current
  have solid := agrees.arranged.solid index (mem_held_of_queue (mem_of_head? head))
  obtain ⟨alters, len⟩ := effect_alters 0 solid rfl (SliceState.Effect.markFailed message)
  apply (agrees.alter alters (wrote_of_len solid alters len.le)).restage
  · rintro current found
    cases found
    exact head
  · exact fun _ waits listed => (agrees.unlogged (by simp [current]) waits listed).elim

/-- The front slice leaves the queue; it may stay as recently committed. -/
theorem Agrees.leave {front : Nat} {rest recent : List Nat}
    (current : s.committing = some (front, stage)) (queue : s.chunk.queue = front :: rest)
    (kept : recent = s.chunk.recentlyCommitted ∨ recent = s.chunk.recentlyCommitted ++ [front]) :
    Agrees cfg { s with
      chunk := { s.chunk with recentlyCommitted := recent, queue := rest }
      committing := none } := by
  have held : (recent ++ rest).Sublist s.chunk.held := by
    rw [ChunkState.held, queue]
    rcases kept with rfl | rfl
    · exact (sublist_cons_self front rest).append_left _
    · rw [append_assoc, singleton_append]
  have shorter : rest.Sublist s.chunk.queue := by
    rw [queue]
    exact sublist_cons_self front rest
  refine ⟨agrees.arranged.shrink rfl rfl held shorter, agrees.numbered.shrink rfl held,
    agrees.logged.shrink rfl rfl held shorter (by simp) ?_⟩
  intro index waits listed
  have nodup := (nodup_append.mp agrees.arranged.nodup).2.1
  rw [queue] at nodup
  have apart : index ≠ front := ne_of_mem_of_not_mem waits (nodup_cons.mp nodup).1
  rcases agrees.logged.queued index (shorter.subset waits) listed with found | found <;>
    (rw [current] at found; cases found; exact absurd rfl apart)

end

theorem split_parts {slice : SliceState} {parts : SliceState × SliceState}
    (solid : slice.Solid cfg) (split : slice.splitUploadedPrefixTail cfg = some parts) :
    (slice.state = .writable ∧ parts.1.state ≠ .writable) ∧ Alters cfg slice parts.1 ∧
      parts.2.Solid cfg ∧
      (parts.2.writeOrder = slice.writeOrder ∧ parts.1.offset + parts.1.data.len = parts.2.offset) ∧
      (∀ q, parts.1.wrote q = true → slice.wrote q = true) ∧
      ∀ q, parts.2.wrote q = true → slice.wrote q = true := by
  obtain ⟨⟨first, second⟩, _⟩ := split_layers solid split
  obtain ⟨⟨writable, _⟩, ⟨_, inside, _⟩, data, tailData, truncated, appended, rfl⟩ :=
    splitUploadedPrefixTail_spec split
  have len := CacheSlice.truncate_len truncated
  have alters : Alters cfg slice { slice with state := .uploaded, data := data } :=
    ⟨rfl, rfl, nofun, fun sealed => absurd writable sealed, first⟩
  refine ⟨⟨writable, nofun⟩, alters, second, ⟨rfl, ?_⟩,
    wrote_of_len solid alters ?_, fun q wrote => ?_⟩
  · exact congrArg (slice.offset + ·) len
  · dsimp only
    omega
  · have fits := solid.fits
    have within := wrote_create slice.chunkId slice.creationUnique slice.writeOrder
      appended (by rw [CacheSlice.length_copyInto]; omega) wrote
    rw [CacheSlice.length_copyInto] at within
    rw [solid.wrote_iff]
    omega

theorem Agrees.split (agrees : Agrees cfg s) (cut : s.chunk.split cfg = some chunk) :
    Agrees cfg (s.setChunk chunk) := by
  unfold ChunkState.split at cut
  split at cut
  · cases cut
  rename_i front rest queue
  obtain ⟨parts, split, rfl⟩ := map_eq_some_iff.mp cut
  have queued : front ∈ s.chunk.queue := by
    rw [queue]
    exact mem_cons_self
  have held := mem_held_of_queue queued
  obtain ⟨⟨writable, sealed⟩, alters, second, ⟨order, adjacent⟩, shorter, tail⟩ :=
    split_parts (agrees.arranged.solid front held) split
  have shortened := agrees.alter alters shorter
  have elsewhere : ∀ index ∈ s.chunk.recentlyCommitted ++ rest, index ≠ front ∧
      (s.chunk.setSlice front parts.1).slices index = s.chunk.slices index := by
    intro index listed
    have nodup := agrees.arranged.nodup
    rw [ChunkState.held, queue, perm_middle.nodup_iff, nodup_cons] at nodup
    have apart := ne_of_mem_of_not_mem listed nodup.1
    exact ⟨apart, setSlice_of_ne s.chunk parts.1 apart⟩
  have sorted := agrees.arranged.sorted
  have continued := agrees.arranged.parts
  rw [queue, pairwise_cons] at sorted
  rw [ChunkState.held, queue, pairwise_append, pairwise_cons] at continued
  have placed : Agrees cfg (s.setChunk ((s.chunk.setSlice front parts.1).place [front] rest
      parts.2)) := by
    refine ⟨shortened.arranged.place queue second ?_ ?_ ?_ ?_,
      shortened.numbered.place shortened.arranged queue ?_ ?_,
      shortened.logged.place shortened.arranged queue (fun _ _ => cons_ne_nil _ _) ?_⟩
    · rw [forall_mem_singleton, order, ← alters.order]
      exact (congrArg SliceState.writeOrder (setSlice_self ..)).le
    · intro index listed
      have same := (elsewhere index (mem_append_right _ listed)).2
      rw [order]
      exact Nat.le_trans (sorted.1 index listed) (congrArg SliceState.writeOrder same.symm).le
    · rw [forall_mem_append, forall_mem_singleton]
      constructor
      · intro index listed equal
        have same := (elsewhere index (mem_append_left _ listed)).2
        have start := alters.offset
        rw [show (s.setChunk (s.chunk.setSlice front parts.1)).chunk.slices index =
          s.chunk.slices index from same] at equal ⊢
        obtain ⟨closed, ends⟩ := continued.2.2 index listed front mem_cons_self (equal.trans order)
        exact ⟨closed, by omega⟩
      · rw [show (s.setChunk (s.chunk.setSlice front parts.1)).chunk.slices front = parts.1 from
          setSlice_self ..]
        exact fun _ => ⟨sealed, adjacent.le⟩
    · intro index listed equal
      have same := (elsewhere index (mem_append_right _ listed)).2
      have closed := (continued.2.1.1 index listed (by
        rw [← order, equal]
        exact congrArg SliceState.writeOrder same)).1
      exact absurd writable closed
    · rw [order]
      exact (agrees.numbered.used front held).1
    · rw [order]
      exact (agrees.numbered.used front held).2
    · intro x mem listed conflict
      have unlisted : front ∉ s.log := fun logged =>
        agrees.logged.closed front logged held writable
      have same : (s.setChunk (s.chunk.setSlice front parts.1)).chunk.slices x = s.chunk.slices x :=
        setSlice_of_ne s.chunk parts.1 (ne_of_mem_of_not_mem listed unlisted)
      rw [same] at conflict ⊢
      rw [order]
      exact agrees.logged.pending x mem listed front queued unlisted
        (conflict.imp fun q both => ⟨both.1, tail q both.2⟩)
  exact placed

theorem Agrees.step (s : ChunkSchedule) (action : ScheduleAction) (next : ChunkSchedule)
    (agrees : Agrees cfg s) (ahead : NotOvertaken cfg s action)
    (taken : s.step cfg commitBeforeUpload action = some next) : Agrees cfg next := by
  cases action with
  | arrive writer offset buf creationUnique =>
    obtain ⟨_, ⟨⟩⟩ := ite_none_right_eq_some.mp taken
    exact ⟨agrees.arranged, agrees.numbered.arrive writer _ rfl, agrees.logged⟩
  | insert writer =>
    obtain ⟨w, waits, done⟩ := bind_eq_some_iff.mp taken
    obtain ⟨chunk, written, rfl⟩ := map_eq_some_iff.mp done
    exact agrees.insert waits ahead written
  | slice index dataEpoch event =>
    simp only [ChunkSchedule.step, ChunkState.step, map_eq_some_iff,
      ite_none_right_eq_some] at taken
    obtain ⟨_, ⟨⟨held, quiet⟩, slice, applied, rfl⟩, rfl⟩ := taken
    exact agrees.slice held quiet applied
  | split =>
    obtain ⟨chunk, cut, rfl⟩ := map_eq_some_iff.mp taken
    simp only [ChunkState.step, ite_none_left_eq_some] at cut
    exact agrees.split cut.2
  | drain aged =>
    cases taken
    have fewer : (s.chunk.drain cfg commitBeforeUpload aged).held.Sublist s.chunk.held :=
      filter_sublist.append_right _
    exact ⟨agrees.arranged.shrink rfl rfl fewer (.refl _),
      agrees.numbered.shrink rfl fewer, agrees.logged.shrink rfl rfl fewer (.refl _)
        agrees.logged.front agrees.logged.queued⟩
  | take =>
    simp only [ChunkSchedule.step, ite_none_right_eq_some, map_eq_some_iff] at taken
    obtain ⟨idle, index, head, rfl⟩ := taken
    refine agrees.restage ?_ fun _ waits listed =>
      (agrees.unlogged (by simp [idle]) waits listed).elim
    rintro current found
    cases found
    exact head
  | abandon =>
    obtain ⟨index, current, rfl⟩ := map_eq_some_iff.mp taken
    rw [at?_eq_some] at current
    exact agrees.restage (by simp) fun _ waits listed =>
      (agrees.unlogged (by simp [current]) waits listed).elim
  | metaWrite =>
    obtain ⟨index, current, done⟩ := bind_eq_some_iff.mp taken
    rw [at?_eq_some] at current
    rw [ite_none_left_eq_some, Option.some.injEq] at done
    obtain ⟨sealed, rfl⟩ := done
    exact ⟨agrees.arranged, agrees.numbered, agrees.logged.append agrees.arranged current sealed⟩
  | mark =>
    obtain ⟨index, current, rfl⟩ := map_eq_some_iff.mp taken
    rw [at?_eq_some] at current
    refine agrees.markCommitted current fun other waits listed => ?_
    rcases agrees.logged.queued other waits listed with stage | stage <;>
      (rw [current] at stage; cases stage)
    rfl
  | skipStale =>
    obtain ⟨index, current, done⟩ := bind_eq_some_iff.mp taken
    rw [at?_eq_some] at current
    rw [ite_none_left_eq_some, Option.some.injEq] at done
    obtain ⟨_, rfl⟩ := done
    exact agrees.markCommitted current fun _ waits listed =>
      (agrees.unlogged (by simp [current]) waits listed).elim
  | fail message =>
    obtain ⟨index, current, rfl⟩ := map_eq_some_iff.mp taken
    exact agrees.fail message (at?_eq_some.mp current)
  | pop checked =>
    obtain ⟨index, current, done⟩ := bind_eq_some_iff.mp taken
    rw [at?_eq_some] at current
    obtain ⟨rest, queue⟩ := List.head?_eq_some_iff.mp (agrees.logged.front _ current)
    rw [if_neg (by simp [queue]), ChunkState.moveFront, queue, map_some, Option.some.injEq] at done
    subst done
    apply agrees.leave current queue
    split
    · exact .inr rfl
    · exact .inl rfl
  | drop =>
    obtain ⟨index, current, done⟩ := bind_eq_some_iff.mp taken
    rw [at?_eq_some] at current
    obtain ⟨rest, queue⟩ := List.head?_eq_some_iff.mp (agrees.logged.front _ current)
    rw [ChunkState.popFront, queue, map_some, Option.some.injEq] at done
    subst done
    exact agrees.leave current queue (.inl rfl)

/-! ### The overlay -/

theorem overlayKey_writeOrder {a b : Nat × Nat} (le : c.overlayKey a ≤ c.overlayKey b) :
    (c.slices a.1).writeOrder ≤ (c.slices b.1).writeOrder := by
  unfold overlayKey at le
  rw [Prod.Lex.toLex_le_toLex, Prod.Lex.toLex_le_toLex] at le
  rcases le with less | ⟨_, less | ⟨same, _⟩⟩
  · have zero : (c.slices a.1).writeOrder = 0 := by
      by_contra pos
      rw [decide_eq_true pos] at less
      exact absurd less (not_lt.mpr (Bool.le_true _))
    omega
  · exact less.le
  · exact same.le

theorem overlaySlices_sorted (c : ChunkState) : c.overlaySlices.Pairwise fun a b =>
    (c.slices a).writeOrder ≤ (c.slices b).writeOrder := by
  unfold overlaySlices
  rw [pairwise_map]
  exact (pairwise_insertionSort _ _).imp overlayKey_writeOrder

theorem nodup_overlaySlices (nodup : c.held.Nodup) : c.overlaySlices.Nodup := by
  unfold overlaySlices
  rw [((perm_insertionSort _ _).map Prod.fst).nodup_iff, zipIdx_map_fst]
  exact nodup

/-- The slice with the smaller number is ranked below. -/
theorem overlaySlices_ranks (first : x ∈ c.held) (second : y ∈ c.held)
    (less : (c.slices x).writeOrder < (c.slices y).writeOrder) :
    [x, y].Sublist c.overlaySlices := by
  rw [← FileWriter.mem_overlaySlices] at first second
  obtain ⟨below, above, split⟩ := append_of_mem first
  have sorted := overlaySlices_sorted c
  rw [split, pairwise_append] at sorted
  rw [split, mem_append, mem_cons] at second
  rw [split]
  rcases second with under | rfl | above
  · have := sorted.2.2 y under x mem_cons_self
    omega
  · omega
  · exact ((singleton_sublist.mpr above).cons_cons x).trans (sublist_append_right _ _)

theorem stack_wrote (items : List Nat) (q : Nat) :
    stack (items.map fun index => (c.slices index).layer cfg) q =
      stack ((items.filter fun index => (c.slices index).wrote q).map fun index =>
        (c.slices index).layer cfg) q := by
  rw [stack_filter]
  refine stack_map_congr fun index _ => ?_
  split
  · rfl
  · rename_i blank
    exact layer_of_not_wrote (Bool.not_eq_true _ ▸ blank)

theorem Agrees.order_ne (agrees : Agrees cfg s) (first : x ∈ s.log) (second : y ∈ s.log)
    (apart : x ≠ y) (left : x ∈ s.chunk.held) (right : y ∈ s.chunk.held)
    (conflict : (s.chunk.slices x).Conflict (s.chunk.slices y)) :
    (s.chunk.slices x).writeOrder ≠ (s.chunk.slices y).writeOrder := by
  obtain ⟨below, above, split⟩ := append_of_mem first
  have ranked := agrees.logged.ranked
  rw [split, pairwise_append, pairwise_cons] at ranked
  rw [split, mem_append, mem_cons] at second
  rcases second with under | rfl | above
  · exact Nat.ne_of_gt (ranked.2.2 y under x mem_cons_self right left conflict.symm)
  · exact absurd rfl apart
  · exact (ranked.2.1.1 y above left right conflict).ne

/-- At each position the overlay has the committed slices in the order of their commits. -/
theorem Agrees.overlay_eq_log (agrees : Agrees cfg s) (q : Nat) :
    (s.chunk.overlaySlices.filter (· ∈ s.log)).filter (fun index =>
      (s.chunk.slices index).wrote q) =
      (s.log.filter (· ∈ s.chunk.held)).filter fun index => (s.chunk.slices index).wrote q := by
  have overlay := nodup_overlaySlices agrees.arranged.nodup
  have ranked : ((s.chunk.overlaySlices.filter (· ∈ s.log)).filter fun index =>
      (s.chunk.slices index).wrote q).Pairwise fun x y =>
        (s.chunk.slices x).writeOrder < (s.chunk.slices y).writeOrder := by
    have sorted := (overlaySlices_sorted s.chunk).and overlay
    refine ((sorted.filter _).filter _).imp_of_mem fun {x y} first second pair => ?_
    simp only [mem_filter, FileWriter.mem_overlaySlices, decide_eq_true_eq] at first second
    exact Nat.lt_of_le_of_ne pair.1 (agrees.order_ne first.1.2 second.1.2 pair.2 first.1.1
      second.1.1 ⟨q, first.2, second.2⟩)
  have logged : ((s.log.filter (· ∈ s.chunk.held)).filter fun index =>
      (s.chunk.slices index).wrote q).Pairwise fun x y =>
        (s.chunk.slices x).writeOrder < (s.chunk.slices y).writeOrder := by
    refine ((agrees.logged.ranked.filter _).filter _).imp_of_mem fun {x y} first second less => ?_
    simp only [mem_filter, decide_eq_true_eq] at first second
    exact less first.1.2 second.1.2 ⟨q, first.2, second.2⟩
  refine List.Perm.eq_of_pairwise (fun x y _ _ less more => absurd more (Nat.lt_asymm less)) ranked
    logged ?_
  rw [perm_ext_iff_of_nodup ((overlay.filter _).filter _)
    ((agrees.logged.nodup.filter _).filter _)]
  simp only [mem_filter, FileWriter.mem_overlaySlices, decide_eq_true_eq]
  tauto

/-- In a run in which no writer is overtaken on its way to a new slice, of two conflicting slices
the one that is committed first, or alone, is ranked below the other; and the committed slices show
the same bytes in the overlay's order as in that of their commits. -/
theorem overlay_agrees_with_commits (commitBeforeUpload : Bool) (actions : List ScheduleAction)
    (final : ChunkSchedule)
    (ahead : Run.Along (step cfg commitBeforeUpload) (NotOvertaken cfg) init actions)
    (run : Run.exec (step cfg commitBeforeUpload) init actions = some final) :
    (∀ x y, [x, y].Sublist final.log → x ∈ final.chunk.held → y ∈ final.chunk.held →
        (final.chunk.slices x).Conflict (final.chunk.slices y) →
        [x, y].Sublist final.chunk.overlaySlices) ∧
      (∀ x ∈ final.chunk.held, x ∈ final.log → ∀ y ∈ final.chunk.queue, y ∉ final.log →
        (final.chunk.slices x).Conflict (final.chunk.slices y) →
        [x, y].Sublist final.chunk.overlaySlices) ∧
      ∀ q, stack ((final.chunk.overlaySlices.filter (· ∈ final.log)).map fun index =>
          (final.chunk.slices index).layer cfg) q =
        stack ((final.log.filter (· ∈ final.chunk.held)).map fun index =>
          (final.chunk.slices index).layer cfg) q := by
  have agrees : Agrees cfg final :=
    Run.invariant_along Agrees.step agrees_init ahead run
  refine ⟨fun x y order left right conflict => ?_,
    fun x held listed y queued unlisted conflict => ?_, fun q => ?_⟩
  · have ranked := agrees.logged.ranked.sublist order
    rw [pairwise_pair] at ranked
    exact overlaySlices_ranks left right (ranked left right conflict)
  · exact overlaySlices_ranks held (mem_held_of_queue queued)
      (agrees.logged.pending x held listed y queued unlisted conflict)
  · rw [stack_wrote, agrees.overlay_eq_log, ← stack_wrote]

instance (s : ChunkSchedule) (action : ScheduleAction) : Decidable (NotOvertaken cfg s action) := by
  cases action <;> unfold NotOvertaken <;> infer_instance

/-- The queue's one slice goes to the metadata store before its upload. -/
def commitFront (index id : Nat) : List ScheduleAction :=
  [.slice index 0 .freeze, .slice index 0 (.setSliceId id), .slice index 0 .prepareUpload, .take,
    .metaWrite]

/-- Two writers of one byte; the first goes second or not. -/
def twoWriters (first second : Nat) : List ScheduleAction :=
  [.arrive 0 0 [1] 0, .arrive 1 0 [2] 0, .insert first] ++ commitFront 0 7 ++
    [.mark, .pop false, .insert second] ++ commitFront 1 8

theorem overlay_agrees_in_turn :
    ∃ final, Run.exec (step Uploads.tinyConfig true) init (twoWriters 0 1) = some final ∧
      final.log = [0, 1] ∧ [0, 1].Sublist final.chunk.overlaySlices :=
  have run : Run.exec (step Uploads.tinyConfig true) init (twoWriters 0 1) = some _ := rfl
  ⟨_, run, rfl, (overlay_agrees_with_commits true _ _ (by decide +kernel) run).1 0 1 (by decide)
    (by decide) (by decide) ⟨0, rfl, rfl⟩⟩

/-- The second writer passes the first and is committed; the first then makes a slice with the
smaller number, committed last and yet at the bottom of the overlay. -/
theorem overtaken_writer :
    ∃ final, Run.exec (step Uploads.tinyConfig true) init (twoWriters 1 0) = some final ∧
      final.log = [0, 1] ∧ final.chunk.overlaySlices = [1, 0] ∧
      (final.chunk.slices 0).wrote 0 = true ∧ (final.chunk.slices 1).wrote 0 = true ∧
      stack ((final.chunk.overlaySlices.filter (· ∈ final.log)).map fun index =>
        (final.chunk.slices index).layer Uploads.tinyConfig) 0 = some 2 ∧
      stack ((final.log.filter (· ∈ final.chunk.held)).map fun index =>
        (final.chunk.slices index).layer Uploads.tinyConfig) 0 = some 1 :=
  Run.reaches (by decide +kernel)

/-! ### The commit task of `ChunkCommit` -/

/-- Where the schedule has a stage of the commit task. -/
def scheduled (status : SliceStatus) : Stage → CommitStage
  | .wrote => .written
  | .popping => if status = .failed then .dropping else .popping
  | _ => .taken

/-- The queue and the slices' states are those of the other model, and the commit task is where its
task 0 is. -/
structure Follows (s : ChunkSchedule) (c : ChunkCommit) : Prop where
  queue : s.chunk.queue = c.queue
  states : SliceState.state ∘ s.chunk.slices = SliceState.state ∘ c.slices
  committing : s.committing = (c.tasks 0).map fun attempt =>
    (attempt.slice, scheduled (c.slices attempt.slice).state attempt.stage)

variable {c next : ChunkCommit} {attempt : Attempt} {action : CommitAction} (follows : Follows s c)

include follows

theorem Follows.settle (slice' : SliceState) {slice : SliceState}
    (same : slice'.state = slice.state) :
    Follows ((s.setChunk (s.chunk.setSlice attempt.slice slice')).setStage attempt.slice
      (scheduled slice.state .popping)) ((c.setSlice attempt.slice slice).leave 0 attempt) where
  queue := follows.queue
  states := by
    change _ ∘ (update _ _ _) = _ ∘ (update _ _ _)
    rw [comp_update, comp_update, follows.states, same]
  committing := by simp [ChunkCommit.leave, ChunkCommit.setStage, ChunkCommit.setTask, setStage]

/-- A step of the commit task is one of the schedule's, or none it sees. -/
theorem Follows.taskStep (found : c.tasks 0 = some attempt) (path : attempt.path = .commitChunk)
    (sealed : (c.slices attempt.slice).state ≠ .writable)
    (described : (c.slices attempt.slice).descForCommit.isSome)
    (taken : c.taskStep 0 attempt action = some next) :
    Follows s next ∨
      ∃ action s', step cfg commitBeforeUpload s action = some s' ∧ Follows s' next := by
  obtain ⟨index, _, stage, checkedAt⟩ := attempt
  cases path
  have ⟨queue, states, here⟩ := follows
  rw [found, map_some] at here
  have now at' (same : scheduled (c.slices index).state stage = at') : s.at? at' = some index :=
    at?_eq_some.mpr (same ▸ here)
  have unwritable : (s.chunk.slices index).state ≠ .writable :=
    fun eq => sealed ((congrFun states index).symm.trans eq)
  have abandon (now : s.at? .taken = some index) :
      step cfg commitBeforeUpload s .abandon = some { s with committing := none } := by
    rw [step, now]
    rfl
  cases action with
  | checkEpoch _ =>
    obtain ⟨rfl, ⟨⟩⟩ := ite_none_right_eq_some.mp taken
    refine .inl ⟨queue, states, ?_⟩
    split <;> exact here
  | skipStale _ =>
    obtain ⟨rfl, ⟨⟩⟩ := ite_none_right_eq_some.mp taken
    refine .inr ⟨.skipStale, _, ?_, follows.settle (s.chunk.slices index).markCommitted rfl⟩
    rw [step, now .taken rfl, bind_some, if_neg unwritable]
    rfl
  | stage _ _ => obtain ⟨⟨_, ⟨⟩⟩, _⟩ := ite_none_right_eq_some.mp taken
  | claim _ =>
    obtain ⟨rfl : stage = .passed, taken⟩ := ite_none_right_eq_some.mp taken
    split at taken <;> cases taken
    · exact .inr ⟨_, _, abandon (now .taken rfl), queue, states, rfl⟩
    refine .inl ⟨queue, ?_, here⟩
    change _ = _ ∘ (update _ _ _)
    rw [comp_update, states]
    exact (Function.update_eq_self ..).symm
  | issue _ =>
    obtain ⟨rfl, taken⟩ := ite_none_right_eq_some.mp taken
    rw [if_pos described] at taken
    cases taken
    exact .inl ⟨queue, states, here⟩
  | result _ result =>
    cases stage <;> cases taken
    cases result with
    | ok =>
      refine .inr ⟨.metaWrite, { s.setStage index .written with log := s.log ++ [index] }, ?_,
        queue, states, rfl⟩
      rw [step, now .taken rfl, bind_some, if_neg unwritable]
    | permanent => exact .inl ⟨queue, states, here⟩
    | retryable =>
      rw [ChunkCommit.afterWrite]
      split
      · exact .inl ⟨queue, states, here⟩
      · exact .inr ⟨_, _, abandon (now .taken rfl), queue, states, rfl⟩
  | retry _ =>
    cases stage <;> cases taken
    exact .inl ⟨queue, states, here⟩
  | finish _ message =>
    cases stage <;> cases taken
    · exact .inr ⟨.mark, _, by rw [step, now .written rfl]; rfl,
        follows.settle (s.chunk.slices index).markCommitted rfl⟩
    · exact .inr ⟨.fail message, _, by rw [step, now .taken rfl]; rfl,
        follows.settle ((s.chunk.slices index).markFailed message) rfl⟩
  | create _ _ _ | slice _ _ | split | bumpDataEpoch | start _ _ _ | pop | dropFront => cases taken

end ChunkSchedule

end BrewFs.Vfs
