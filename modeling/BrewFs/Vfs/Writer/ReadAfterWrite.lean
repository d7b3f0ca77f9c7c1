import BrewFs.Vfs.Writer.Overlay

/-! Reads through the overlay after any sequence of writes. The slices of a chunk lie on each other
like sheets; what shows through from above is the last write, as long as a sheet is taken away only
when no older one lies beneath it. -/

namespace BrewFs.Vfs

open Uploads
open BrewFs.Buffer BrewFs.Interval BrewFs.Layers List Option ChunkState FileWriter SliceState
open BrewFs.Chunk (Span Tiles)
open Function (update update_of_ne update_self)
open SliceState (layer layer_of_not_wrote layer_unreadable solid_create)

namespace ChunkState

variable {cfg : WriteConfig}

/-- The held slices themselves. -/
def states (c : ChunkState) : List SliceState := c.held.map c.slices

/-! ### The order of the slices -/

theorem overlayKey_le (c : ChunkState) {a b : Nat × Nat}
    (order : (c.slices a.1).writeOrder ≤ (c.slices b.1).writeOrder) (place : a.2 ≤ b.2) :
    c.overlayKey a ≤ c.overlayKey b := by
  unfold overlayKey
  generalize (c.slices a.1).writeOrder = x at order ⊢
  rcases Nat.lt_or_eq_of_le order with less | rfl
  · rcases Nat.eq_zero_or_pos x with rfl | positive
    · refine le_of_lt (Prod.Lex.toLex_lt_toLex.mpr (.inl ?_))
      simp [Nat.pos_iff_ne_zero.mp less]
    · refine Prod.Lex.toLex_le_toLex.mpr (.inr ⟨?_, Prod.Lex.toLex_le_toLex.mpr (.inl less)⟩)
      simp [Nat.pos_iff_ne_zero.mp positive, Nat.pos_iff_ne_zero.mp (positive.trans less)]
  · exact Prod.Lex.toLex_le_toLex.mpr (.inr ⟨rfl, Prod.Lex.toLex_le_toLex.mpr (.inr ⟨rfl, place⟩)⟩)

/-- Slices in the order of their write numbers are laid over each other in that order. -/
theorem overlaySlices_eq_held {c : ChunkState}
    (sorted : c.states.Pairwise fun a b => a.writeOrder ≤ b.writeOrder) :
    c.overlaySlices = c.held := by
  have keys : ∀ (items : List Nat) (k : Nat),
      items.Pairwise (fun a b => (c.slices a).writeOrder ≤ (c.slices b).writeOrder) →
      (items.zipIdx k).Pairwise fun a b => c.overlayKey a ≤ c.overlayKey b := by
    intro items
    induction items with
    | nil => exact fun _ _ => .nil
    | cons item rest ih =>
      intro k sorted
      obtain ⟨first, later⟩ := pairwise_cons.mp sorted
      refine pairwise_cons.mpr ⟨fun entry listed => ?_, ih (k + 1) later⟩
      have behind := le_snd_of_mem_zipIdx listed
      exact c.overlayKey_le (first entry.1 (fst_mem_of_mem_zipIdx listed)) (by omega)
  rw [states, pairwise_map] at sorted
  unfold overlaySlices
  rw [List.Pairwise.insertionSort_eq (keys c.held 0 sorted), zipIdx_map_fst]

theorem insertPos_last {slices : Nat → SliceState} {queue : List Nat} {writeOrder : Nat}
    (newest : ∀ index ∈ queue, (slices index).writeOrder ≤ writeOrder) :
    ChunkCommit.insertPos slices queue writeOrder = queue.length := by
  unfold ChunkCommit.insertPos
  split
  · rfl
  have none : (queue.findIdx? fun index =>
      decide ((slices index).writeOrder ≠ 0 ∧ writeOrder < (slices index).writeOrder)) = none := by
    rw [findIdx?_eq_none_iff]
    intro index listed
    have := newest index listed
    simp only [decide_eq_false_iff_not]
    omega
  rw [none]
  rfl

/-! ### Taking slices away -/

/-- No older slice still read has written where this one has. -/
def NothingBeneath (cfg : WriteConfig) (c : ChunkState) (index : Nat) : Prop :=
  ∀ older ∈ c.held.takeWhile (· ≠ index), (c.slices older).canOverlayRead cfg = true →
    (c.slices older).writeRangeHasWrittenOverlap (c.slices index).offset
      (c.slices index).data.len = false

instance (c : ChunkState) (index : Nat) : Decidable (NothingBeneath cfg c index) :=
  inferInstanceAs (Decidable (∀ older ∈ c.held.takeWhile (· ≠ index), _ → _))

/-- A slice leaves the overlay only with nothing older beneath it: when its upload completes after
its commit, when it is committed with nothing left to upload, and when it is dropped. -/
def Clears (cfg : WriteConfig) (c : ChunkState) : ChunkAction → Prop
  | .slice index _ event =>
    match event with
    | .advanceUploadRange _ _ => (c.slices index).state = .committed →
        (c.slices index).inFlight ≤ 1 → NothingBeneath cfg c index
    | .markFailed _ => (c.slices index).canOverlayRead cfg = true
    | .write _ _ _ | .freeze | .setSliceId _ | .prepareUpload => True
  | .commit index => (c.slices index).inFlight = 0 →
      (c.slices index).data.len ≤ (c.slices index).pendingStart cfg → NothingBeneath cfg c index
  | .popFront => ∀ index ∈ c.queue.head?, (c.slices index).canOverlayRead cfg = true →
      NothingBeneath cfg c index
  | .drain aged => ∀ index ∈ c.recentlyCommitted, aged index = true →
      (c.slices index).canOverlayRead cfg = true → NothingBeneath cfg c index
  | .split | .moveFront => True

instance (c : ChunkState) (action : ChunkAction) : Decidable (Clears cfg c action) := by
  cases action with
  | slice index dataEpoch event => cases event <;> unfold Clears <;> infer_instance
  | _ => unfold Clears; infer_instance

/-- A chunk's slices are in the order of their writes, and what shows of them is the latest. -/
structure Shows (cfg : WriteConfig) (c : ChunkState) (order : Nat)
    (latest : Nat → Option UInt8) : Prop where
  nodup : c.held.Nodup
  known : ∀ index ∈ c.held, index < c.created
  sorted : c.states.Pairwise fun a b => a.writeOrder ≤ b.writeOrder
  bounded : ∀ s ∈ c.states, s.writeOrder ≤ order
  solid : ∀ s ∈ c.states, s.Solid cfg
  shows : ∀ q byte, stack (c.states.map (layer cfg)) q = some byte → latest q = some byte

variable {c next : ChunkState} {order : Nat} {latest : Nat → Option UInt8}

theorem layers_eq (cfg : WriteConfig) (c : ChunkState) : c.states.map (layer cfg) =
    c.held.map fun index => (c.slices index).layer cfg := map_map ..

variable {index q front : Nat}

theorem Shows.solid_of_mem (shows : Shows cfg c order latest) (held : index ∈ c.held) :
    (c.slices index).Solid cfg :=
  shows.solid _ (mem_map_of_mem held)

theorem Shows.mono (shows : Shows cfg c order latest) {later : Nat} (grows : order ≤ later) :
    Shows cfg c later latest :=
  { shows with bounded := fun s held => (shows.bounded s held).trans grows }

theorem shows_new (cfg : WriteConfig) (chunkId : Nat) :
    Shows cfg (ChunkState.new chunkId) order latest where
  nodup := .nil
  known := nofun
  sorted := .nil
  bounded := nofun
  solid := nofun
  shows := nofun

variable {below above : List Nat}

section

variable (split : c.held = below ++ index :: above)

include split

theorem Shows.apart (shows : Shows cfg c order latest) : index ∉ below ∧ index ∉ above := by
  have nodup := shows.nodup
  rw [split] at nodup
  obtain ⟨_, rest, separate⟩ := nodup_append.mp nodup
  exact ⟨fun listed => separate index listed index mem_cons_self rfl, (nodup_cons.mp rest).1⟩

/-- Beneath a slice that may leave nothing shows where it wrote. -/
theorem Shows.beneath (shows : Shows cfg c order latest) (alone : NothingBeneath cfg c index)
    (top : ((c.slices index).layer cfg q).isSome = true) :
    ∀ other ∈ below, (c.slices other).layer cfg q = none := by
  intro other listed
  have mem : other ∈ c.held := by
    rw [split]
    exact mem_append_left _ listed
  have held : index ∈ c.held := split ▸ mem_append_cons_self
  have wrote : (c.slices index).wrote q = true := by
    by_contra blank
    rw [Bool.not_eq_true] at blank
    rw [layer_of_not_wrote blank] at top
    cases top
  cases readable : (c.slices other).canOverlayRead cfg with
  | false => exact layer_unreadable readable q
  | true =>
    have clear := alone other (by
      rw [split, takeWhile_append_of_pos fun other listed =>
        decide_eq_true (ne_of_mem_of_not_mem listed (shows.apart split).1)]
      simpa using listed) readable
    exact layer_of_not_wrote ((shows.solid_of_mem mem).not_wrote clear
      ((shows.solid_of_mem held).wrote_iff.mp wrote))

theorem states_split : c.states = below.map c.slices ++ c.slices index :: above.map c.slices := by
  rw [states, split, map_append, map_cons]

end

section

variable (shows : Shows cfg c order latest) {slice : SliceState}

include shows

theorem Shows.setSlice_states (split : c.held = below ++ index :: above) (slice : SliceState) :
    (c.setSlice index slice).states = below.map c.slices ++ slice :: above.map c.slices := by
  obtain ⟨before, behind⟩ := shows.apart split
  rw [states_split (c := c.setSlice index slice) split, setSlice_self,
    map_congr_left fun other listed =>
      setSlice_of_ne c slice (ne_of_mem_of_not_mem listed before),
    map_congr_left fun other listed =>
      setSlice_of_ne c slice (ne_of_mem_of_not_mem listed behind)]

section

variable (held : index ∈ c.held) (same : slice.writeOrder = (c.slices index).writeOrder)
  (solid : slice.Solid cfg)

include held same solid

theorem Shows.replace {newest : Nat → Option UInt8}
    (shown : ∀ q byte, stack ((c.setSlice index slice).states.map (layer cfg)) q = some byte →
      newest q = some byte) :
    Shows cfg (c.setSlice index slice) order newest := by
  obtain ⟨below, above, split⟩ := append_of_mem held
  have states := shows.setSlice_states split slice
  obtain ⟨nodup, known, sorted, bounded, whole, _⟩ := shows
  rw [states_split split] at sorted bounded whole
  refine ⟨nodup, known, ?_, ?_, ?_, shown⟩ <;> rw [states] <;>
    simp only [pairwise_append, pairwise_cons, forall_mem_append, forall_mem_cons, same]
      at sorted bounded whole ⊢
  · exact sorted
  · exact bounded
  · exact ⟨whole.1, solid, whole.2.2⟩

/-- A slice changes and keeps its bytes, or loses them with nothing beneath. -/
theorem Shows.setSlice
    (kept : (∀ q, slice.layer cfg q = (c.slices index).layer cfg q) ∨
      slice.canOverlayRead cfg = false ∧ NothingBeneath cfg c index) :
    Shows cfg (c.setSlice index slice) order latest := by
  refine shows.replace held same solid fun q byte shown => shows.shows q byte ?_
  rw [layers_eq] at shown ⊢
  refine stack_hide (fun below item above split => ?_) shown
  by_cases here : item = index
  · subst here
    rw [setSlice_self]
    rcases kept with same | ⟨hidden, alone⟩
    · exact .inl (same q)
    refine .inr ⟨layer_unreadable hidden q, fun top other listed => ?_⟩
    rw [setSlice_of_ne c slice (ne_of_mem_of_not_mem listed (shows.apart split).1)]
    exact shows.beneath split alone top other listed
  · rw [setSlice_of_ne c slice here]
    exact .inl rfl

end

/-- Slices no longer read, or with nothing beneath, may be dropped. -/
theorem Shows.drop (keep : Nat → Bool) (alone : ∀ index ∈ c.held, keep index = false →
      (c.slices index).canOverlayRead cfg = true → NothingBeneath cfg c index)
    (slices : next.slices = c.slices) (created : next.created = c.created)
    (held : next.held = c.held.filter keep) : Shows cfg next order latest := by
  have sublist : next.held.Sublist c.held := by
    rw [held]
    exact filter_sublist
  have fewer : next.states.Sublist c.states := by
    rw [states, slices]
    exact sublist.map _
  refine ⟨shows.nodup.sublist sublist, ?_, shows.sorted.sublist fewer,
    fun s listed => shows.bounded s (fewer.subset listed),
    fun s listed => shows.solid s (fewer.subset listed), fun q byte shown => shows.shows q byte ?_⟩
  · rw [created]
    exact fun index listed => shows.known index (sublist.subset listed)
  rw [layers_eq, held, slices, stack_filter] at shown
  rw [layers_eq]
  refine stack_hide (fun below item above split => ?_) shown
  have mem : item ∈ c.held := split ▸ mem_append_cons_self
  cases stays : keep item with
  | true => exact .inl (if_pos rfl)
  | false =>
    refine .inr ⟨if_neg Bool.false_ne_true, fun top other listed => ?_⟩
    have readable : (c.slices item).canOverlayRead cfg = true := by
      by_contra hidden
      rw [Bool.not_eq_true] at hidden
      rw [layer_unreadable hidden] at top
      cases top
    have beneath := shows.beneath split (alone item mem stays readable) top other listed
    rw [beneath]
    exact ite_self _

theorem Shows.filter_front {rest : List Nat} (queue : c.queue = front :: rest) :
    c.recentlyCommitted ++ rest = c.held.filter (· ≠ front) := by
  have split : c.held = c.recentlyCommitted ++ front :: rest := by rw [held, queue]
  obtain ⟨before, behind⟩ := shows.apart split
  rw [split, filter_append, filter_cons_of_neg (by simp),
    filter_eq_self.mpr (fun other listed => decide_eq_true (ne_of_mem_of_not_mem listed before)),
    filter_eq_self.mpr (fun other listed => decide_eq_true (ne_of_mem_of_not_mem listed behind))]

theorem Shows.popFront (clears : Clears cfg c .popFront)
    (popped : c.popFront = some next) : Shows cfg next order latest := by
  unfold ChunkState.popFront at popped
  split at popped
  · cases popped
  rename_i front rest queue
  cases popped
  refine shows.drop (· ≠ front) (fun index _ dropped readable => ?_) rfl rfl
    (shows.filter_front queue)
  obtain rfl : index = front := by simpa using dropped
  exact clears index (by rw [queue]; rfl) readable

theorem Shows.moveFront
    (moved : c.moveFront cfg = some next) : Shows cfg next order latest := by
  unfold ChunkState.moveFront at moved
  split at moved
  · cases moved
  rename_i front rest queue
  cases moved
  cases readable : (c.slices front).canOverlayRead cfg with
  | true =>
    refine shows.drop (fun _ => true) nofun rfl rfl ?_
    simp only [held, if_true, append_assoc, singleton_append, queue, filter_true]
  | false =>
    refine shows.drop (· ≠ front) (fun index _ dropped seen => ?_) rfl rfl
      (shows.filter_front queue)
    obtain rfl : index = front := by simpa using dropped
    rw [readable] at seen
    cases seen

theorem Shows.drain (commitBeforeUpload : Bool)
    {aged : Nat → Bool} (clears : Clears cfg c (.drain aged)) :
    Shows cfg (c.drain cfg commitBeforeUpload aged) order latest := by
  let keep := fun index => !aged index ||
    pendingWritebackUpload cfg commitBeforeUpload (c.slices index)
  obtain ⟨_, _, apart⟩ := nodup_append.mp shows.nodup
  refine shows.drop (fun index => decide (index ∈ c.queue) || keep index) ?_ rfl rfl ?_
  · intro index held dropped readable
    rw [Bool.or_eq_false_iff, decide_eq_false_iff_not] at dropped
    have recent := (mem_append.mp held).resolve_right dropped.1
    have old : aged index = true := by
      have := (Bool.or_eq_false_iff.mp dropped.2).1
      simpa using this
    exact clears index recent old readable
  · simp only [held, ChunkState.drain, filter_append]
    congr 1
    · refine filter_congr fun index listed => ?_
      have other : index ∉ c.queue := fun queued => apart index listed index queued rfl
      simp [other, keep]
    · exact (filter_eq_self.mpr fun index listed => by simp [listed]).symm

/-- A slice in two parts, one directly over the other, shows the same as whole. -/
theorem Shows.splitSlice {parts : SliceState × SliceState}
    (split : c.held = below ++ front :: above)
    (orders : parts.1.writeOrder = (c.slices front).writeOrder ∧
      parts.2.writeOrder = (c.slices front).writeOrder)
    (solid : parts.1.Solid cfg ∧ parts.2.Solid cfg)
    (layers : ∀ q, (parts.2.layer cfg q).or (parts.1.layer cfg q) =
      (c.slices front).layer cfg q)
    (slices : next.slices =
      update (update c.slices front parts.1) c.created parts.2)
    (created : next.created = c.created + 1)
    (held : next.held = below ++ front :: c.created :: above) : Shows cfg next order latest := by
  have old := states_split split
  obtain ⟨before, behind⟩ := shows.apart split
  have fresh : c.created ∉ c.held := fun listed => Nat.lt_irrefl _ (shows.known _ listed)
  have atOther : ∀ {index}, index ∈ c.held → index ≠ front →
      next.slices index = c.slices index := by
    intro index listed other
    rw [slices, update_of_ne (ne_of_mem_of_not_mem listed fresh), update_of_ne other]
  have states : next.states = below.map c.slices ++ parts.1 :: parts.2 :: above.map c.slices := by
    rw [states_split held, map_cons]
    congr 1
    · refine map_congr_left fun index listed => ?_
      exact atOther (by rw [split]; exact mem_append_left _ listed)
        (ne_of_mem_of_not_mem listed before)
    congr 1
    · rw [slices, update_of_ne (ne_of_mem_of_not_mem (by rw [split]; simp) fresh), update_self]
    congr 1
    · rw [slices, update_self]
    refine map_congr_left fun index listed => ?_
    exact atOther (by rw [split]; exact mem_append_right _ (mem_cons_of_mem _ listed))
      (ne_of_mem_of_not_mem listed behind)
  obtain ⟨nodup, known, sorted, bounded, whole, latest⟩ := shows
  rw [split] at nodup known fresh
  rw [old] at sorted bounded whole latest
  simp only [pairwise_append, pairwise_cons, forall_mem_append, forall_mem_cons]
    at known sorted bounded whole
  constructor
  · rw [held, append_cons, perm_middle.nodup_iff, ← append_cons]
    exact nodup_cons.mpr ⟨fresh, nodup⟩
  · rw [held, created]
    simp only [forall_mem_append, forall_mem_cons]
    exact ⟨fun index listed => Nat.lt_succ_of_lt (known.1 index listed),
      Nat.lt_succ_of_lt known.2.1, Nat.lt_succ_self _,
      fun index listed => Nat.lt_succ_of_lt (known.2.2 index listed)⟩
  · rw [states]
    simp only [pairwise_append, pairwise_cons, forall_mem_cons, orders]
    exact ⟨sorted.1, ⟨⟨le_rfl, sorted.2.1.1⟩, sorted.2.1⟩, fun other listed =>
      have lower := sorted.2.2 other listed
      ⟨lower.1, lower.1, lower.2⟩⟩
  · rw [states]
    simp only [forall_mem_append, forall_mem_cons, orders]
    exact ⟨bounded.1, bounded.2.1, bounded.2.1, bounded.2.2⟩
  · rw [states]
    simp only [forall_mem_append, forall_mem_cons]
    exact ⟨whole.1, solid.1, solid.2, whole.2.2⟩
  · intro q byte shown
    apply latest q byte
    rw [← shown, states]
    simp only [map_append, map_cons, stack_append, stack_cons, ← layers, Option.or_assoc]

theorem Shows.split (done : c.split cfg = some next) : Shows cfg next order latest := by
  unfold ChunkState.split at done
  cases queue : c.queue with
  | nil =>
    rw [queue] at done
    cases done
  | cons front rest =>
    rw [queue] at done
    obtain ⟨parts, cut, rfl⟩ := map_eq_some_iff.mp done
    have split : c.held = c.recentlyCommitted ++ front :: rest := by rw [held, queue]
    have mem : front ∈ c.held := split ▸ mem_append_cons_self
    obtain ⟨solid, layers⟩ := split_layers (shows.solid_of_mem mem) cut
    have orders : parts.1.writeOrder = (c.slices front).writeOrder ∧
        parts.2.writeOrder = (c.slices front).writeOrder := by
      obtain ⟨_, _, _, _, _, _, rfl⟩ := splitUploadedPrefixTail_spec cut
      exact ⟨rfl, rfl⟩
    exact shows.splitSlice split orders solid layers rfl rfl rfl

theorem Shows.step {commitBeforeUpload : Bool}
    {action : ChunkAction} (clears : Clears cfg c action)
    (taken : c.step cfg commitBeforeUpload action = some next) : Shows cfg next order latest := by
  cases action with
  | slice index dataEpoch event =>
    simp only [ChunkState.step, ite_none_right_eq_some, map_eq_some_iff] at taken
    obtain ⟨⟨held, quiet⟩, slice, applied, rfl⟩ := taken
    have effect := apply_effect applied
    have solid := shows.solid_of_mem held
    apply shows.setSlice held effect.writeOrder (effect.solid solid quiet)
    rcases effect.layer solid quiet (fun message failed => by rw [failed] at clears; exact clears)
      with
      same | ⟨⟨start, stop, rfl⟩, committed, landed, hidden⟩
    · exact .inl same
    · exact .inr ⟨hidden, clears committed landed⟩
  | commit index =>
    obtain ⟨queued, ⟨⟩⟩ := ite_none_right_eq_some.mp taken
    have held : index ∈ c.held := mem_append_right _ queued
    refine shows.setSlice held rfl (shows.solid_of_mem held).markCommitted ?_
    rcases markCommitted_layer cfg (c.slices index) with same | ⟨idle, out, hidden⟩
    · exact .inl same
    · exact .inr ⟨hidden, clears idle out⟩
  | split =>
    simp only [ChunkState.step, ite_none_left_eq_some] at taken
    exact shows.split taken.2
  | moveFront => exact shows.moveFront taken
  | popFront => exact shows.popFront clears taken
  | drain aged =>
    cases taken
    exact shows.drain commitBeforeUpload clears

end

/-! ### Writes -/

/-- The bytes of a write, over what there was. -/
def overwrite (latest : Nat → Option UInt8) (offset : Nat) (buf : List UInt8) :
    Nat → Option UInt8 :=
  fun q => (patchLayer (offset, buf) q).or (latest q)

variable {offset creationUnique : Nat} {buf : List UInt8}

section

variable (shows : Shows cfg c order latest) {data : CacheSlice}

include shows

/-- A write into a slice without newer overlap shows on top. -/
theorem Shows.reuse {older newer : List Nat} {action : WriteAction}
    (fits : offset + buf.length ≤ cfg.chunkSize) (queue : c.queue = older ++ index :: newer)
    (found : Found cfg c offset buf.length none newer index action)
    (written : (c.slices index).data.write cfg (offset - (c.slices index).offset) buf action =
      some data) :
    Shows cfg (c.setSlice index (reused (c.slices index) data creationUnique)) order
      (overwrite latest offset buf) := by
  have split : c.held = (c.recentlyCommitted ++ older) ++ index :: newer := by
    rw [held, queue, append_assoc]
  have mem : index ∈ c.held := split ▸ mem_append_cons_self
  obtain ⟨solid, layers⟩ := (shows.solid_of_mem mem).write found.able
    (max (c.slices index).maxWriteUnique creationUnique) written fits
  have number : (reused (c.slices index) data creationUnique).writeOrder =
      (c.slices index).writeOrder := rfl
  rw [← reused] at solid layers
  refine shows.replace mem number solid fun q byte shown => ?_
  rw [shows.setSlice_states split, map_append, stack_append, map_cons, stack_cons, layers] at shown
  unfold overwrite
  cases patched : patchLayer (offset, buf) q with
  | some fresh =>
    have inside := patchLayer_isSome.mp (isSome_of_mem patched)
    have hidden : stack ((newer.map c.slices).map (layer cfg)) q = none := by
      rw [stack_eq_none, List.map_map, List.forall_mem_map]
      intro other listed
      have held : other ∈ c.held := by
        rw [split]
        exact mem_append_right _ (mem_cons_of_mem _ listed)
      exact layer_of_not_wrote ((shows.solid_of_mem held).not_wrote
        (found.behind other listed) inside)
    rw [hidden, patched] at shown
    exact shown
  | none =>
    rw [patched] at shown
    apply shows.shows q byte
    rw [states_split split, map_append, stack_append]
    exact shown

/-- A new slice with the newest number stands last. -/
theorem Shows.insertSlice (offset creationUnique : Nat) (slice : SliceState) :
    ((c.insertSlice offset creationUnique order).setSlice c.created slice).held =
        c.held ++ [c.created] ∧
      ((c.insertSlice offset creationUnique order).setSlice c.created slice).states =
        c.states ++ [slice] := by
  have last : ChunkCommit.insertPos c.slices c.queue order = c.queue.length :=
    insertPos_last fun index queued =>
      shows.bounded _ (mem_map_of_mem (mem_append_right _ queued))
  have held : ((c.insertSlice offset creationUnique order).setSlice c.created slice).held =
      c.held ++ [c.created] := by
    simp only [ChunkState.held, ChunkState.setSlice, ChunkState.insertSlice, last,
      insertIdx_length_self, append_assoc]
  refine ⟨held, ?_⟩
  rw [ChunkState.states, held, map_append, map_singleton, setSlice_self]
  congr 1
  refine map_congr_left fun index listed => ?_
  have other := (shows.known index listed).ne
  rw [setSlice_of_ne _ slice other]
  exact update_of_ne other ..

theorem Shows.create (fits : offset + buf.length ≤ cfg.chunkSize)
    (written : CacheSlice.empty.append cfg buf = some data) :
    Shows cfg ((c.insertSlice offset creationUnique order).setSlice c.created
      { SliceState.new c.chunkId offset creationUnique with writeOrder := order, data := data })
      order (overwrite latest offset buf) := by
  obtain ⟨solid, layers⟩ := solid_create c.chunkId creationUnique order written fits
  have fresh : c.created ∉ c.held := fun listed => Nat.lt_irrefl _ (shows.known _ listed)
  obtain ⟨held, states⟩ := shows.insertSlice offset creationUnique
    { SliceState.new c.chunkId offset creationUnique with writeOrder := order, data := data }
  refine ⟨?_, ?_, ?_, ?_, ?_, fun q byte shown => ?_⟩
  · rw [held, nodup_append]
    refine ⟨shows.nodup, nodup_singleton _, fun index listed other new => ?_⟩
    obtain rfl := mem_singleton.mp new
    exact ne_of_mem_of_not_mem listed fresh
  · rw [held, forall_mem_append, forall_mem_singleton]
    exact ⟨fun index old => Nat.lt_succ_of_lt (shows.known index old), Nat.lt_succ_self _⟩
  · rw [states, pairwise_append]
    refine ⟨shows.sorted, pairwise_singleton _ _, fun old listed new only => ?_⟩
    obtain rfl := mem_singleton.mp only
    exact shows.bounded old listed
  · rw [states, forall_mem_append, forall_mem_singleton]
    exact ⟨shows.bounded, le_rfl⟩
  · rw [states, forall_mem_append, forall_mem_singleton]
    exact ⟨shows.solid, solid⟩
  · rw [states, map_append, stack_append] at shown
    simp only [map_cons, stack_cons, layers] at shown
    unfold overwrite
    cases patched : patchLayer (offset, buf) q <;> rw [patched] at shown
    · exact shows.shows q byte shown
    · exact shown

theorem Shows.writeAt (done : c.writeAt cfg offset buf creationUnique order none = some next) :
    Shows cfg next order (overwrite latest offset buf) := by
  obtain ⟨fits, effect⟩ := writeAt_effect done
  cases effect with
  | reuse older newer index action data queue found written =>
    exact shows.reuse fits queue found written
  | create data _ written => exact shows.create fits written

/-- A write loses nothing that showed, and all of it shows. -/
theorem Shows.writeAt_covers (done : c.writeAt cfg offset buf creationUnique order none = some next)
    (covered : (overwrite (stack (c.states.map (layer cfg))) offset buf q).isSome = true) :
    (stack (next.states.map (layer cfg)) q).isSome = true := by
  obtain ⟨fits, effect⟩ := writeAt_effect done
  unfold overwrite at covered
  cases effect with
  | reuse older newer index action data queue found written =>
    have split : c.held = (c.recentlyCommitted ++ older) ++ index :: newer := by
      rw [held, queue, append_assoc]
    have mem : index ∈ c.held := split ▸ mem_append_cons_self
    have layers := ((shows.solid_of_mem mem).write found.able
      (max (c.slices index).maxWriteUnique creationUnique) written fits).2
    rw [← reused] at layers
    rw [shows.setSlice_states split, map_append, stack_append, map_cons, stack_cons, layers]
    rw [states_split split, map_append, stack_append, map_cons, stack_cons] at covered
    simp only [isSome_or, Bool.or_eq_true] at covered ⊢
    tauto
  | create data _ written =>
    obtain ⟨_, layers⟩ := solid_create c.chunkId creationUnique order written fits
    rw [(shows.insertSlice offset creationUnique _).2, map_append, stack_append]
    simp only [map_cons, stack_cons]
    rw [layers]
    exact covered

theorem Shows.accepts (creationUnique : Nat) (fits : offset + buf.length ≤ cfg.chunkSize) :
    (c.writeAt cfg offset buf creationUnique order none).isSome = true := by
  refine writeAt_isSome creationUnique order fits (fun index queued action able => ?_) ?_
  · exact (shows.solid_of_mem (mem_append_right _ queued)).write_isSome able fits
  have fresh := solid_new cfg c.chunkId creationUnique order
    (show offset ≤ cfg.chunkSize by omega)
  obtain ⟨data, written⟩ := fresh.write_isSome
    (canWrite_new cfg c.chunkId offset creationUnique order buf.length none) fits
  exact ⟨data, written⟩

end

end ChunkState

/-! ### The file -/

inductive WriterAction where
  /-- A call of `write_at_inner`, from its number to its last chunk. -/
  | write (offset : Nat) (buf : List UInt8) (creationUnique : Nat)
  | chunk (k : Nat) (action : ChunkAction)

namespace FileWriter

variable (cfg : WriteConfig)

def init : FileWriter := ⟨ChunkState.new, 0⟩

variable (w : FileWriter)

def setChunk (k : Nat) (c : ChunkState) : FileWriter :=
  { w with chunks := update w.chunks k c }

def writeChunk (k offset : Nat) (buf : List UInt8) (creationUnique : Nat) : Option FileWriter :=
  ((w.chunks k).writeAt cfg offset buf creationUnique w.writeOrder none).map (w.setChunk k)

/-- The loop over the chunks of a write. -/
def writeSpans (w : FileWriter) (creationUnique : Nat) : List Span → List UInt8 → Option FileWriter
  | [], _ => some w
  | span :: rest, buf =>
    (w.writeChunk cfg span.index span.offset (buf.take span.len) creationUnique).bind
      fun written =>
        if buf.length ≤ span.len then some written
        else written.writeSpans creationUnique rest (buf.drop span.len)

/-- `write_at_inner` -/
def write (offset : Nat) (buf : List UInt8) (creationUnique : Nat) : Option FileWriter :=
  let w := { w with writeOrder := w.writeOrder + 1 }
  if offset % cfg.chunkSize + buf.length ≤ cfg.chunkSize then
    w.writeChunk cfg (offset / cfg.chunkSize) (offset % cfg.chunkSize) buf creationUnique
  else w.writeSpans cfg creationUnique (splitChunkSpans cfg offset buf.length) buf

def step (commitBeforeUpload : Bool) (w : FileWriter) : WriterAction → Option FileWriter
  | .write offset buf creationUnique => w.write cfg offset buf creationUnique
  | .chunk k action => ((w.chunks k).step cfg commitBeforeUpload action).map (w.setChunk k)

/-- Nothing older comes to light. -/
def Clears : WriterAction → Prop
  | .write _ _ _ => True
  | .chunk k action => (w.chunks k).Clears cfg action

instance (action : WriterAction) : Decidable (Clears cfg w action) :=
  match action with
  | .write _ _ _ => isTrue trivial
  | .chunk k action => inferInstanceAs (Decidable ((w.chunks k).Clears cfg action))

/-- The last byte written at each position. -/
def latest (bytes : Nat → Option UInt8) : WriterAction → Nat → Option UInt8
  | .write offset buf _ => overwrite bytes offset buf
  | .chunk _ _ => bytes

/-- A slice still read has been written at the position. -/
def Held (p : Nat) : Prop := ∃ s ∈ (w.chunks (p / cfg.chunkSize)).states,
    s.canOverlayRead cfg = true ∧ s.wrote (p % cfg.chunkSize) = true

instance (p : Nat) : Decidable (Held cfg w p) :=
  inferInstanceAs (Decidable (∃ s ∈ (w.chunks (p / cfg.chunkSize)).states, _ ∧ _))

def Shows (bytes : Nat → Option UInt8) : Prop :=
  ∀ k, (w.chunks k).Shows cfg w.writeOrder fun q => bytes (k * cfg.chunkSize + q)

variable {cfg} {w next : FileWriter} {bytes : Nat → Option UInt8} {k : Nat}

section

variable (shows : Shows cfg w bytes)

include shows

theorem Shows.setChunk {c : ChunkState} {newest : Nat → Option UInt8}
    (here : c.Shows cfg w.writeOrder fun q => newest (k * cfg.chunkSize + q))
    (elsewhere : ∀ p, p / cfg.chunkSize ≠ k → newest p = bytes p) :
    Shows cfg (w.setChunk k c) newest := by
  intro j
  by_cases same : j = k
  · subst same
    simp only [setChunk, update_self]
    exact here
  simp only [FileWriter.setChunk, update_of_ne same]
  have old := shows j
  refine { old with shows := fun q byte shown => ?_ }
  -- a byte that shows lies inside its chunk
  have inside : q < cfg.chunkSize := by
    by_contra outside
    have none : stack ((w.chunks j).states.map (layer cfg)) q = none := by
      rw [stack_eq_none, List.forall_mem_map]
      intro s listed
      have solid := old.solid s listed
      refine layer_of_not_wrote (Bool.eq_false_iff.mpr fun wrote => ?_)
      have := solid.wrote_iff.mp wrote
      have := solid.fits
      omega
    rw [none] at shown
    cases shown
  rw [elsewhere]
  · exact old.shows q byte shown
  · rw [Nat.add_comm, Nat.add_mul_div_right _ _ (by omega), Nat.div_eq_of_lt inside, Nat.zero_add]
    exact same

variable {creationUnique count offset : Nat} {buf : List UInt8} {spans : List Span}

theorem Shows.writeChunk (done : w.writeChunk cfg k offset buf creationUnique = some next) :
    next.writeOrder = w.writeOrder ∧
      Shows cfg next (overwrite bytes (k * cfg.chunkSize + offset) buf) := by
  obtain ⟨c, written, rfl⟩ := map_eq_some_iff.mp done
  refine ⟨rfl, shows.setChunk ?_ fun p elsewhere => ?_⟩
  · have here := (shows k).writeAt written
    refine { here with shows := fun q byte shown => ?_ }
    have top := here.shows q byte shown
    simp only [overwrite] at top ⊢
    rw [← top]
    congr 1
    refine if_congr (by omega) ?_ rfl
    congr 1
    omega
  · have fits := (writeAt_effect written).1
    have none : patchLayer (k * cfg.chunkSize + offset, buf) p = none := by
      rw [← not_isSome_iff_eq_none, patchLayer_isSome, patchSpan]
      simp only [Within]
      intro inside
      apply elsewhere
      rw [Nat.div_eq_iff (by omega)]
      omega
    rw [overwrite, none, none_or]

omit shows in
theorem patchLayer_split (pos p : Nat) (short : count ≤ buf.length) :
    patchLayer (pos, buf) p =
      (patchLayer (pos + count, buf.drop count) p).or (patchLayer (pos, buf.take count) p) := by
  simp only [patchLayer_mk]
  by_cases first : p < pos + count
  · rw [if_neg (show ¬ pos + count ≤ p by omega), none_or]
    by_cases behind : pos ≤ p
    · rw [if_pos behind, if_pos behind, getElem?_take_of_lt (by omega)]
    · rw [if_neg behind, if_neg behind]
  rw [if_pos (by omega), if_pos (by omega), getElem?_drop, if_pos (by omega),
    getElem?_eq_none (l := buf.take count) (by rw [length_take]; omega), or_none]
  congr 1
  omega

omit shows in
theorem overwrite_split (pos : Nat) (short : count ≤ buf.length) :
    overwrite bytes pos buf = overwrite
      (overwrite bytes pos (buf.take count)) (pos + count) (buf.drop count) := by
  funext p
  simp only [overwrite]
  rw [patchLayer_split pos p short, Option.or_assoc]

theorem Shows.writeSpans {pos len : Nat} (tiles : Tiles cfg.chunkSize pos len spans)
    (whole : buf.length = len) (done : w.writeSpans cfg creationUnique spans buf = some next) :
    Shows cfg next (overwrite bytes pos buf) := by
  induction tiles generalizing w bytes buf with
  | done pos =>
    cases done
    obtain rfl := eq_nil_of_length_eq_zero whole
    have same : overwrite bytes pos [] = bytes := by
      funext p
      simp [overwrite, patchLayer_mk]
    rw [same]
    exact shows
  | block pos len take rest positive bounded fits tail ih =>
    obtain ⟨written, first, later⟩ := bind_eq_some_iff.mp done
    obtain ⟨_, middle⟩ := shows.writeChunk first
    rw [Nat.div_add_mod'] at middle
    split at later
    · rename_i last
      cases later
      rw [take_of_length_le last] at middle
      exact middle
    · rw [overwrite_split pos (show take ≤ buf.length by omega)]
      exact ih middle (by rw [length_drop]; omega) later

theorem Shows.numbered : Shows cfg { w with writeOrder := w.writeOrder + 1 } bytes :=
  fun k => (shows k).mono (Nat.le_succ _)

theorem Shows.write (positive : 0 < cfg.chunkSize)
    (done : w.write cfg offset buf creationUnique = some next) :
    Shows cfg next (overwrite bytes offset buf) := by
  unfold FileWriter.write at done
  split at done
  · have written := (shows.numbered.writeChunk done).2
    rwa [Nat.div_add_mod'] at written
  · exact shows.numbered.writeSpans (splitChunkSpans_tiles positive offset buf.length) rfl done

theorem Shows.step (positive : 0 < cfg.chunkSize) {commitBeforeUpload : Bool}
    {action : WriterAction} (clears : Clears cfg w action)
    (taken : w.step cfg commitBeforeUpload action = some next) :
    Shows cfg next (latest bytes action) := by
  cases action with
  | write offset buf creationUnique => exact shows.write positive taken
  | chunk k action =>
    obtain ⟨c, moved, rfl⟩ := map_eq_some_iff.mp taken
    exact shows.setChunk ((shows k).step clears moved) fun _ _ => rfl

/-! ### Reads -/

theorem Shows.allSolid : AllSolid cfg w :=
  fun k _ held => (shows k).solid_of_mem held

omit shows in
theorem held_iff (w : FileWriter) (p : Nat) : Held cfg w p ↔
    (stack ((w.chunks (p / cfg.chunkSize)).states.map (layer cfg))
      (p % cfg.chunkSize)).isSome = true := by
  rw [isSome_iff_ne_none, ne_eq, stack_eq_none, List.forall_mem_map]
  push Not
  refine exists_congr fun s => and_congr_right fun _ => ?_
  rw [layer]
  split
  · rename_i both
    simpa using both
  · rename_i neither
    simpa using neither

/-- The overlay shows the latest write, and something exactly where a slice is held. -/
theorem Shows.shown (p : Nat) :
    (∀ byte, w.shown cfg p = some byte → bytes p = some byte) ∧
      ((w.shown cfg p).isSome = true ↔ Held cfg w p) := by
  have here := shows (p / cfg.chunkSize)
  have order : w.shown cfg p = stack ((w.chunks (p / cfg.chunkSize)).states.map
      (layer cfg)) (p % cfg.chunkSize) := by
    rw [FileWriter.shown, overlaySlices_eq_held here.sorted, layers_eq]
  rw [held_iff, order]
  refine ⟨fun byte top => ?_, Iff.rfl⟩
  have latest := here.shows _ byte top
  rwa [Nat.div_add_mod'] at latest

theorem Shows.readDirty (positive : 0 < cfg.chunkSize) (offset len : Nat) (out : List UInt8) :
    w.readDirtyIfFullyCovered cfg offset len = some out ↔
      (∀ i < len, Held cfg w (offset + i)) ∧ out.length = len ∧
        ∀ i < len, out[i]? = bytes (offset + i) := by
  obtain ⟨length, top, covered, _⟩ :=
    overlayDirtyImpl_spec positive shows.allSolid offset (replicate len 0)
  rw [length_replicate] at length top covered
  have held : (w.overlayDirtyImpl cfg offset (replicate len 0)).1 = true ↔
      ∀ i < len, Held cfg w (offset + i) :=
    covered.trans (forall₂_congr fun i _ => (shows.shown (offset + i)).2)
  have latest : (∀ i < len, Held cfg w (offset + i)) → ∀ i < len,
      (w.overlayDirty cfg offset (replicate len 0))[i]? = bytes (offset + i) := by
    intro all i inside
    obtain ⟨newest, some⟩ := shows.shown (offset + i)
    obtain ⟨byte, shown⟩ := isSome_iff_exists.mp (some.mpr (all i inside))
    rw [top i inside, shown, newest byte shown]
    rfl
  have answer : w.readDirtyIfFullyCovered cfg offset len =
      if (w.overlayDirtyImpl cfg offset (replicate len 0)).1 then
        some (w.overlayDirty cfg offset (replicate len 0)) else none := rfl
  rw [answer, ite_none_right_eq_some, held, Option.some.injEq]
  refine and_congr_right fun all => ⟨?_, fun ⟨size, same⟩ => ext_getElem? fun i => ?_⟩
  · rintro rfl
    exact ⟨length, latest all⟩
  by_cases inside : i < len
  · rw [latest all i inside, same i inside]
  · rw [getElem?_eq_none (by omega), getElem?_eq_none (by omega)]

theorem Shows.acceptsSpans {pos len : Nat} (tiles : Tiles cfg.chunkSize pos len spans)
    (whole : buf.length = len) : (w.writeSpans cfg creationUnique spans buf).isSome = true := by
  induction tiles generalizing w bytes buf with
  | done pos => rfl
  | block pos len take rest positive bounded fits tail ih =>
    have room : pos % cfg.chunkSize + (buf.take take).length ≤ cfg.chunkSize := by
      rw [length_take]
      omega
    obtain ⟨c, written⟩ := isSome_iff_exists.mp
      ((shows (pos / cfg.chunkSize)).accepts creationUnique room)
    have done : w.writeChunk cfg (pos / cfg.chunkSize) (pos % cfg.chunkSize)
        (buf.take take) creationUnique = some (w.setChunk (pos / cfg.chunkSize) c) := by
      rw [FileWriter.writeChunk, written]
      rfl
    rw [FileWriter.writeSpans, done]
    split
    · rfl
    · exact ih (shows.writeChunk done).2
        (show (buf.drop take).length = len - take from by rw [length_drop]; omega)

theorem Shows.accepts (positive : 0 < cfg.chunkSize) (offset : Nat) (buf : List UInt8)
    (creationUnique : Nat) : (w.write cfg offset buf creationUnique).isSome = true := by
  unfold FileWriter.write
  split
  · rename_i room
    rw [FileWriter.writeChunk, isSome_map]
    exact (shows.numbered (offset / cfg.chunkSize)).accepts creationUnique room
  · exact shows.numbered.acceptsSpans (splitChunkSpans_tiles positive offset buf.length) rfl

end

/-- In a run in which no slice leaves the overlay while an older one lies beneath it, reads through
the overlay see the last write wherever a slice is held and change nothing elsewhere; a read of
dirty data alone is answered exactly when all of it is held; and so do the snapshot's patches. -/
theorem read_after_write (positive : 0 < cfg.chunkSize) (commitBeforeUpload : Bool)
    (actions : List WriterAction) (final : FileWriter)
    (clears : Run.Along (step cfg commitBeforeUpload) (Clears cfg) .init actions)
    (run : Run.exec (step cfg commitBeforeUpload) .init actions = some final)
    (offset : Nat) :
    let bytes := actions.foldl latest fun _ => none
    (∀ buf : List UInt8, (final.overlayDirty cfg offset buf).length = buf.length ∧
        (∀ i < buf.length, Held cfg final (offset + i) →
          (final.overlayDirty cfg offset buf)[i]? = bytes (offset + i)) ∧
        (∀ i < buf.length, ¬ Held cfg final (offset + i) →
          (final.overlayDirty cfg offset buf)[i]? = buf[i]?) ∧
        applyPatches buf (final.snapshotDirtyOverlay cfg offset buf.length) =
          final.overlayDirty cfg offset buf) ∧
      (∀ len out, final.readDirtyIfFullyCovered cfg offset len = some out ↔
        (∀ i < len, Held cfg final (offset + i)) ∧ out.length = len ∧
          ∀ i < len, out[i]? = bytes (offset + i)) ∧
      ∀ buf creationUnique, (final.write cfg offset buf creationUnique).isSome = true := by
  intro bytes
  have start : Shows cfg FileWriter.init fun _ => none := fun k => shows_new cfg k
  have shows : Shows cfg final bytes := Run.tracks
    (fun _ _ _ _ shows clears taken => shows.step positive clears taken) start clears run
  refine ⟨fun buf => ?_, shows.readDirty positive offset, shows.accepts positive offset⟩
  obtain ⟨length, top, _, patched⟩ := overlayDirtyImpl_spec positive shows.allSolid offset buf
  refine ⟨length, fun i inside held => ?_, fun i inside free => ?_, patched⟩
  · obtain ⟨newest, some⟩ := shows.shown (offset + i)
    obtain ⟨byte, shown⟩ := isSome_iff_exists.mp (some.mpr held)
    rw [top i inside, shown, newest byte shown]
    rfl
  have none : final.shown cfg (offset + i) = none := by
    rw [← not_isSome_iff_eq_none, (shows.shown (offset + i)).2]
    exact free
  rw [top i inside, none, none_or]

/-- Two one-byte slices at the same place, both committed before their upload. -/
def overlapping : List WriterAction :=
  [.write 0 [1] 0, .chunk 0 (.slice 0 0 .freeze), .chunk 0 (.slice 0 0 (.setSliceId 7)),
    .chunk 0 (.slice 0 0 .prepareUpload), .chunk 0 (.commit 0), .chunk 0 .moveFront,
    .write 0 [2] 0, .chunk 0 (.slice 1 0 .freeze), .chunk 0 (.slice 1 0 (.setSliceId 8)),
    .chunk 0 (.slice 1 0 .prepareUpload), .chunk 0 (.commit 1), .chunk 0 .moveFront]

/-- With uploads finished in the order of the writes the newer byte shows. -/
theorem read_after_write_in_order :
    ∃ final, Run.exec (step tinyConfig true) .init
        (overlapping ++ [.chunk 0 (.slice 0 0 (.advanceUploadRange 0 1))]) = some final ∧
      Held tinyConfig final 0 ∧
        (final.overlayDirty tinyConfig 0 [0])[0]? = some 2 := by
  refine (Run.reaches (P := fun final => Held tinyConfig final 0)
    (by decide +kernel)).imp fun final ⟨run, held⟩ => ⟨run, held, ?_⟩
  exact ((read_after_write (by decide) true _ final (by decide +kernel) run 0).1 [0]).2.1 0
    (by decide) held

/-- The newer of two committed slices finishes its upload first and leaves the overlay; the older
one still covers the newer byte. -/
theorem stale_after_upload : ∃ final, Run.exec (step tinyConfig true) .init
        (overlapping ++ [.chunk 0 (.slice 1 0 (.advanceUploadRange 0 1))]) = some final ∧
      Held tinyConfig final 0 ∧ final.overlayDirty tinyConfig 0 [0] = [1] ∧
      ((overlapping ++ [WriterAction.chunk 0 (.slice 1 0 (.advanceUploadRange 0 1))]).foldl latest
        fun _ => none) 0 = some 2 := by
  exact (Run.reaches (P := fun final => Held tinyConfig final 0 ∧
    final.overlayDirty tinyConfig 0 [0] = [1]) (by decide +kernel)).imp
    fun final ⟨run, held, shown⟩ => ⟨run, held, shown, by decide⟩

end FileWriter

end BrewFs.Vfs
