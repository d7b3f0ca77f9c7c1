import BrewFs.Vfs.Cache.PageBytes
import BrewFs.Vfs.Writer.SliceEvents

/-! What a slice holds for readers. Without gap appends a slice has no holes, and nothing but its
retirement takes bytes away from readers. -/

namespace BrewFs.Vfs

open BrewFs.Interval BrewFs.Layers Option CacheSlice
open CacheSlice (canAppend canWriteWithGap pagesPerBlock)

namespace SliceState

variable {cfg : WriteConfig}

/-- Was the slice written at this position of the chunk? -/
def wrote (s : SliceState) (q : Nat) : Bool := s.offset ≤ q && s.data.writtenRanges.any fun range =>
    range.1 ≤ q - s.offset && q - s.offset < range.2

/-- The bytes of a slice that reads still take from it. -/
def layer (cfg : WriteConfig) (s : SliceState) (q : Nat) : Option UInt8 :=
  if s.canOverlayRead cfg && s.wrote q then some (s.data.byteAt cfg (q - s.offset)) else none

/-- A slice written from start to end; what is handed out for upload is frozen, the pages behind are
not. -/
structure Solid (cfg : WriteConfig) (s : SliceState) : Prop where
  ranges : Runs s.data.writtenRanges fun p => p < s.data.len
  fits : s.offset + s.data.len ≤ cfg.chunkSize
  mutable : s.state = .writable → ∀ i, s.dispatchedEnd * pagesPerBlock cfg ≤ i →
    ∀ page ∈ s.data.pages i, page.frozen = false

variable {s next : SliceState} {q : Nat}

theorem Solid.wrote_iff (solid : Solid cfg s) :
    s.wrote q = true ↔ s.offset ≤ q ∧ q < s.offset + s.data.len := by
  have points := solid.ranges.points (q - s.offset)
  simp only [wrote, Bool.and_eq_true, decide_eq_true_eq, List.any_eq_true]
  simp only [Within] at points
  rw [points]
  omega

theorem Solid.layer_eq (solid : Solid cfg s) (readable : s.canOverlayRead cfg = true) (q : Nat) :
    s.layer cfg q = if s.offset ≤ q ∧ q < s.offset + s.data.len then
      some (s.data.byteAt cfg (q - s.offset)) else none := by
  rw [layer, readable]
  exact if_congr solid.wrote_iff rfl rfl

theorem layer_unreadable (hidden : s.canOverlayRead cfg = false) (q : Nat) :
    s.layer cfg q = none := by
  rw [layer, hidden]
  rfl

theorem canOverlayRead_of_ne (other : s.state ≠ .committed) : s.canOverlayRead cfg = true := by
  rw [canOverlayRead, if_neg other]

variable {offset len : Nat}

theorem Solid.overlap_iff (solid : Solid cfg s) :
    s.writeRangeHasWrittenOverlap offset len = true ↔
      ∃ q, (offset ≤ q ∧ q < offset + len) ∧ s.wrote q = true := by
  have points := solid.ranges.points
  simp only [solid.wrote_iff]
  unfold writeRangeHasWrittenOverlap hasWrittenOverlap
  dsimp only
  split
  · simp only [Bool.and_eq_true, decide_eq_true_eq, List.any_eq_true]
    refine ⟨fun _ => ⟨max offset s.offset, by omega, by omega⟩, fun _ => ⟨by omega, ?_⟩⟩
    obtain ⟨range, listed, within⟩ := (points (max offset s.offset - s.offset)).mpr (by omega)
    simp only [Within] at within
    exact ⟨range, listed, by omega, by omega⟩
  · simp only [Bool.false_eq_true, false_iff]
    omega

theorem Solid.not_wrote (solid : Solid cfg s)
    (clear : s.writeRangeHasWrittenOverlap offset len = false)
    (requested : offset ≤ q ∧ q < offset + len) : s.wrote q = false := by
  rw [Bool.eq_false_iff] at clear ⊢
  exact fun held => clear (solid.overlap_iff.mpr ⟨q, requested, held⟩)

theorem layer_of_not_wrote (blank : s.wrote q = false) : s.layer cfg q = none := by
  rw [layer, blank, Bool.and_false]
  rfl

/-! ### Writes -/

theorem solid_new (cfg : WriteConfig) (chunkId creationUnique writeOrder : Nat)
    (inside : offset ≤ cfg.chunkSize) :
    Solid cfg { SliceState.new chunkId offset creationUnique with writeOrder := writeOrder } where
  ranges := Runs.nil.congr fun p => by simp [SliceState.new, CacheSlice.empty]
  fits := inside
  mutable := nofun

variable {action : WriteAction}

theorem canWrite_spec (able : s.canWrite cfg offset len none = some action) :
    s.state = .writable ∧ s.offset ≤ offset ∧ s.pendingStart cfg ≤ offset - s.offset ∧
      s.data.canWriteWithGap cfg (offset - s.offset) len false = some action ∧
      (offset = s.offset + s.data.len ∨ offset + len ≤ s.offset + s.data.len) := by
  unfold canWrite at able
  split at able
  · cases able
  rename_i placed
  rw [not_or, not_not] at placed
  split at able
  · cases able
  refine ⟨placed.1, by omega, by omega, able, ?_⟩
  unfold canWriteWithGap at able
  split at able
  · rename_i here
    simp only [canAppend, decide_eq_true_eq] at here
    omega
  split at able
  · rename_i inside
    simp only [canWriteAt, decide_eq_true_eq] at inside
    omega
  · simp at able

variable {buf : List UInt8} {data : CacheSlice}

section

variable (solid : Solid cfg s) (able : s.canWrite cfg offset buf.length none = some action)

include solid able

/-- The pages behind what has been handed out take the write. -/
theorem Solid.accepts :
    ∃ pages, writeBytes cfg s.data.pages (offset - s.offset) buf = some pages ∧
      ∀ i, s.dispatchedEnd * pagesPerBlock cfg ≤ i → ∀ page ∈ pages i, page.frozen = false := by
  obtain ⟨writable, _, pending, _, _⟩ := canWrite_spec able
  refine writeBytes_isSome cfg (solid.mutable writable) ?_ buf
  rw [Nat.le_div_iff_mul_le cfg.pageSize_pos, Nat.mul_assoc, pagesPerBlock,
    Nat.div_mul_cancel cfg.paged]
  exact (Nat.le_max_left _ _).trans pending

theorem Solid.write_isSome (fits : offset + buf.length ≤ cfg.chunkSize) :
    ∃ data, s.data.write cfg (offset - s.offset) buf action = some data := by
  obtain ⟨pages, filled, _⟩ := solid.accepts able
  obtain ⟨_, placed, _, gap, _⟩ := canWrite_spec able
  unfold canWriteWithGap at gap
  split at gap
  · rename_i here
    cases gap
    simp only [canAppend, decide_eq_true_eq] at here
    rw [← here] at filled
    have room : s.data.len + buf.length ≤ cfg.chunkSize := by omega
    simp [write, append, writeAt, filled, room]
  split at gap
  · cases gap
    simp [write, writeAt, filled]
  · simp at gap

theorem Solid.write (unique : Nat)
    (written : s.data.write cfg (offset - s.offset) buf action = some data)
    (fits : offset + buf.length ≤ cfg.chunkSize) :
    Solid cfg { s with data := data, maxWriteUnique := unique } ∧
      ∀ q, layer cfg { s with data := data, maxWriteUnique := unique } q =
        (patchLayer (offset, buf) q).or (s.layer cfg q) := by
  obtain ⟨writable, placed, _, gap, reach⟩ := canWrite_spec able
  obtain ⟨len, ranges, pages⟩ := write_spec gap written
  have after : Solid cfg { s with data := data, maxWriteUnique := unique } := by
    refine ⟨?_, ?_, fun _ => ?_⟩
    · rw [ranges]
      refine (recordWritten_runs solid.ranges _ _).congr fun p => ?_
      simp only [Within]
      omega
    · have := solid.fits
      dsimp only
      omega
    · obtain ⟨filled, accepted, unfrozen⟩ := solid.accepts able
      rw [pages, Option.some.injEq] at accepted
      rw [accepted]
      exact unfrozen
  refine ⟨after, fun q => ?_⟩
  have unsealed : s.state ≠ .committed := by
    rw [writable]
    decide
  rw [after.layer_eq (canOverlayRead_of_ne unsealed),
    solid.layer_eq (canOverlayRead_of_ne unsealed)]
  dsimp only
  rw [byteAt_eq, writeBytes_byte pages]
  have shift : s.offset ≤ q → patchLayer (offset - s.offset, buf) (q - s.offset) =
      patchLayer (offset, buf) q := by
    intro inside
    refine if_congr (by omega) ?_ rfl
    congr 1
    omega
  cases shown : patchLayer (offset, buf) q with
  | some byte =>
    have within := patchLayer_isSome.mp (isSome_of_mem shown)
    simp only [Buffer.patchSpan, Within] at within
    rw [if_pos (by omega), shift (by omega), shown]
    rfl
  | none =>
    have outside : ¬ Within (offset, offset + buf.length) q := by
      intro within
      rw [← not_isSome_iff_eq_none, patchLayer_isSome] at shown
      exact shown within
    simp only [Within] at outside
    rw [none_or]
    by_cases inside : s.offset ≤ q
    · rw [shift inside, shown]
      exact if_congr (by omega) rfl rfl
    · rw [if_neg (by omega), if_neg (by omega)]

end

theorem solid_create (chunkId creationUnique writeOrder : Nat)
    (written : CacheSlice.empty.append cfg buf = some data)
    (fits : offset + buf.length ≤ cfg.chunkSize) :
    Solid cfg { SliceState.new chunkId offset creationUnique with
        writeOrder := writeOrder, data := data } ∧
      ∀ q, layer cfg { SliceState.new chunkId offset creationUnique with
        writeOrder := writeOrder, data := data } q = patchLayer (offset, buf) q := by
  have fresh := solid_new cfg chunkId creationUnique writeOrder
    (show offset ≤ cfg.chunkSize by omega)
  obtain ⟨solid, shown⟩ := fresh.write (canWrite_new ..) creationUnique written fits
  refine ⟨solid, fun q => ?_⟩
  have blank : layer cfg { SliceState.new chunkId offset creationUnique with
      writeOrder := writeOrder } q = none := layer_of_not_wrote (by
    simp [wrote, SliceState.new, CacheSlice.empty])
  exact (shown q).trans ((congrArg _ blank).trans or_none)

/-! ### The other events -/

theorem layer_congr (readable : next.canOverlayRead cfg = s.canOverlayRead cfg)
    (offset : next.offset = s.offset) (ranges : next.data.writtenRanges = s.data.writtenRanges)
    (bytes : ∀ p, next.data.byteAt cfg p = s.data.byteAt cfg p) (q : Nat) :
    next.layer cfg q = s.layer cfg q := by
  have written : next.wrote q = s.wrote q := by simp only [wrote, offset, ranges]
  rw [layer, layer, readable, written, offset, bytes]

theorem Solid.congr (solid : Solid cfg s) (ranges : next.data.writtenRanges = s.data.writtenRanges)
    (len : next.data.len = s.data.len) (offset : next.offset = s.offset)
    (mutable : next.state = .writable → ∀ i, next.dispatchedEnd * pagesPerBlock cfg ≤ i →
      ∀ page ∈ next.data.pages i, page.frozen = false) : Solid cfg next where
  ranges := by
    rw [ranges, len]
    exact solid.ranges
  fits := by
    rw [offset, len]
    exact solid.fits
  mutable := mutable

variable {dataEpoch : Nat} {event : SliceEvent}

theorem Effect.solid (solid : Solid cfg s) (quiet : event.writes = false)
    (effect : Effect cfg dataEpoch s event next) : Solid cfg next := by
  cases effect with
  | unchanged => exact solid
  | write => cases quiet
  | discard | freeze | freezeUploaded | advanceUploaded | markFailed =>
    exact solid.congr rfl rfl rfl nofun
  | setSliceId | advance => exact solid.congr rfl rfl rfl solid.mutable
  | prepareUpload stop _ _ forward =>
    refine solid.congr rfl rfl rfl fun writable i behind page found => ?_
    have later : s.dispatchedEnd * pagesPerBlock cfg ≤ i :=
      (Nat.mul_le_mul_right _ (Nat.le_of_lt forward)).trans behind
    apply solid.mutable writable i later page
    have unselected : ¬ (s.dispatchedEnd * pagesPerBlock cfg ≤ i ∧
        i < stop * pagesPerBlock cfg) := fun both => not_lt.mpr behind both.2
    simpa [freezeBlocks, freezePages, unselected] using found
  | advanceReleased =>
    exact solid.congr rfl rfl rfl nofun

theorem hasIdleBlock_recordRange {start stop : Nat}
    (idle : (s.recordRange cfg start stop).hasIdleBlock cfg = true) :
    s.hasIdleBlock cfg = true := by
  have less : s.pendingStart cfg ≤ (s.recordRange cfg start stop).pendingStart cfg := by
    simp only [pendingStart, recordRange]
    omega
  unfold hasIdleBlock at idle ⊢
  have ready : (s.recordRange cfg start stop).uploadReadyLen = s.uploadReadyLen := rfl
  have tail : (s.recordRange cfg start stop).uploadsTail = s.uploadsTail := rfl
  split at idle <;> simp_all <;> omega

theorem uploadComplete_recordRange {start stop : Nat} (complete : s.uploadComplete cfg = true) :
    (s.recordRange cfg start stop).uploadComplete cfg = true := by
  simp only [uploadComplete, Bool.and_eq_true, decide_eq_true_eq, Bool.not_eq_true',
    Bool.eq_false_iff] at complete ⊢
  refine ⟨?_, fun idle => complete.2 (hasIdleBlock_recordRange idle)⟩
  simp only [recordRange]
  omega

/-- Apart from writes, an event leaves a slice's bytes to readers, or completes the upload of a
committed slice. -/
theorem Effect.layer (solid : Solid cfg s) (quiet : event.writes = false)
    (effect : Effect cfg dataEpoch s event next)
    (readable : ∀ message, event = .markFailed message → s.canOverlayRead cfg = true) :
    (∀ q, next.layer cfg q = s.layer cfg q) ∨
      (∃ start stop, event = .advanceUploadRange start stop) ∧ s.state = .committed ∧
        s.inFlight ≤ 1 ∧ next.canOverlayRead cfg = false := by
  cases effect with
  | unchanged | setSliceId => exact .inl fun _ => rfl
  | write => cases quiet
  | discard _ blank =>
    refine .inl fun q => ?_
    have none : s.wrote q = false := by
      rw [Bool.eq_false_iff]
      intro held
      have := solid.wrote_iff.mp held
      omega
    rw [layer_of_not_wrote none, layer_of_not_wrote (by exact none)]
  | freeze writable | freezeUploaded writable =>
    refine .inl (layer_congr ?_ rfl rfl (freezePages_byteAt cfg s.data _))
    rw [canOverlayRead_of_ne (by simp), canOverlayRead_of_ne (by simp [writable])]
  | prepareUpload stop idle =>
    refine .inl (layer_congr ?_ rfl rfl (freezePages_byteAt cfg s.data _))
    have before : s.canOverlayRead cfg = true := by
      simp [canOverlayRead, uploadComplete, idle]
    rw [before]
    simp [canOverlayRead, uploadComplete]
  | advance start stop _ pending =>
    refine .inl (layer_congr ?_ rfl rfl fun _ => rfl)
    by_cases committed : s.state = .committed
    · have after : (s.recordRange cfg start stop).uploadComplete cfg = false := by
        rw [Bool.eq_false_iff]
        exact fun complete => pending ⟨committed, complete⟩
      have before : s.uploadComplete cfg = false := by
        rw [Bool.eq_false_iff] at after ⊢
        exact fun complete => after (uploadComplete_recordRange complete)
      have state : (s.recordRange cfg start stop).state = .committed := committed
      rw [canOverlayRead, canOverlayRead, if_pos state, if_pos committed, after, before]
    · rw [canOverlayRead_of_ne committed, canOverlayRead_of_ne (by exact committed)]
  | advanceUploaded start stop _ _ closed =>
    refine .inl (layer_congr ?_ rfl rfl fun _ => rfl)
    rw [canOverlayRead_of_ne (by simp), canOverlayRead_of_ne (by
      rcases closed with state | state <;> simp [state])]
  | advanceReleased start stop _ committed complete =>
    refine .inr ⟨⟨start, stop, rfl⟩, committed, ?_, ?_⟩
    · simp only [uploadComplete, Bool.and_eq_true, decide_eq_true_eq] at complete
      have landed : s.inFlight - 1 = 0 := complete.1
      omega
    have same : uploadComplete cfg
        { s.recordRange cfg start stop with data := s.data.releaseAll } =
        (s.recordRange cfg start stop).uploadComplete cfg := by
      rfl
    have state : SliceState.state
        { s.recordRange cfg start stop with data := s.data.releaseAll } = .committed :=
      committed
    rw [canOverlayRead, if_pos state, same, complete]
    rfl
  | markFailed message =>
    refine .inl (layer_congr ?_ rfl rfl fun _ => rfl)
    rw [readable message rfl, canOverlayRead_of_ne (by simp [SliceState.markFailed])]

theorem Solid.markCommitted (solid : Solid cfg s) : Solid cfg s.markCommitted :=
  solid.congr rfl rfl rfl nofun

/-- A commit hides the bytes only with nothing left to upload. -/
theorem markCommitted_layer (cfg : WriteConfig) (s : SliceState) :
    (∀ q, s.markCommitted.layer cfg q = s.layer cfg q) ∨
      s.inFlight = 0 ∧ s.data.len ≤ s.pendingStart cfg ∧
        s.markCommitted.canOverlayRead cfg = false := by
  by_cases committed : s.state = .committed
  · have same : s.markCommitted = s := by
      rw [SliceState.markCommitted, ← committed]
    exact .inl fun q => by rw [same]
  by_cases complete : s.markCommitted.uploadComplete cfg = true
  · right
    have hidden : s.markCommitted.canOverlayRead cfg = false := by
      rw [canOverlayRead, complete]
      rfl
    simp only [uploadComplete, Bool.and_eq_true, decide_eq_true_eq, Bool.not_eq_true'] at complete
    have out := Uploads.len_of_not_idle (s := s.markCommitted) rfl complete.2
    exact ⟨complete.1, out, hidden⟩
  · refine .inl (layer_congr ?_ rfl rfl fun _ => rfl)
    rw [Bool.not_eq_true] at complete
    rw [canOverlayRead, complete, canOverlayRead_of_ne committed]
    rfl

theorem split_layers (solid : Solid cfg s) {parts : SliceState × SliceState}
    (done : s.splitUploadedPrefixTail cfg = some parts) :
    (Solid cfg parts.1 ∧ Solid cfg parts.2) ∧
      ∀ q, (parts.2.layer cfg q).or (parts.1.layer cfg q) = s.layer cfg q := by
  obtain ⟨⟨writable, _⟩, ⟨_, inside, _⟩, data, tailData, truncated, appended, rfl⟩ :=
    splitUploadedPrefixTail_spec done
  have fits := solid.fits
  obtain ⟨_, _, ranges⟩ := truncate_spec truncated
  have len := truncate_len truncated
  have count : (s.data.copyInto cfg s.uploaded (s.data.len - s.uploaded)).length =
      s.data.len - s.uploaded := by
    rw [length_copyInto]
    omega
  have first : Solid cfg { s with state := .uploaded, data := data } := by
    refine ⟨?_, ?_, nofun⟩
    · refine (ranges _ solid.ranges fun _ => id).congr fun p => ?_
      rw [len]
      omega
    · dsimp only
      omega
  obtain ⟨second, tail⟩ := solid_create s.chunkId s.creationUnique s.writeOrder appended
    (show s.offset + s.uploaded + _ ≤ cfg.chunkSize from by
      omega)
  refine ⟨⟨first, { second with }⟩, fun q => ?_⟩
  have sealed : s.state ≠ .committed := by
    rw [writable]
    decide
  rw [first.layer_eq (canOverlayRead_of_ne (by simp)), solid.layer_eq (canOverlayRead_of_ne sealed)]
  apply (congrArg (fun shown => Option.or shown _) (tail q)).trans
  dsimp only
  rw [len]
  by_cases behind : s.offset + s.uploaded ≤ q ∧ q < s.offset + s.data.len
  · rw [if_neg (by omega), if_pos (by omega), or_none, patchLayer, if_pos behind.1,
      getElem?_copyInto s.data (by omega) (by omega)]
    congr 2
    omega
  have none : patchLayer (s.offset + s.uploaded,
      s.data.copyInto cfg s.uploaded (s.data.len - s.uploaded)) q = none := by
    rw [← not_isSome_iff_eq_none, patchLayer_isSome, Buffer.patchSpan]
    simp only [Within]
    omega
  rw [none, none_or]
  by_cases front : s.offset ≤ q ∧ q < s.offset + s.uploaded
  · rw [if_pos front, if_pos (by omega), truncate_byteAt truncated (by omega)]
  · rw [if_neg front, if_neg (by omega)]

end SliceState

end BrewFs.Vfs
