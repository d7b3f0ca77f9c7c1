import BrewFs.Meta.Redis.ChunkScripts

/-! The version of a chunk identifies its slice list: it rises whenever the list changes, so a
compare-and-set on a version that was read before the list replaces the list that was read. -/

namespace BrewFs.Meta.Redis.Chunk

open BrewFs.Chunk BrewFs.Guard BrewFs.Meta BrewFs.Versioned List Option ChunkStore
open Run (exec)
open BrewFs.Meta.Database.Coalesce (decodeId)

variable {chunkId : Nat} {s next : System} {store : ChunkStore}

/-! ### What each script does to the list and the version -/

variable {slice : SliceDesc} {permitted : Bool} {now : Int} {r : Replacement}

/-- A write script past its checks has pushed the slice, whatever it answers. -/
theorem writeSlice_admitted {s admitted : ChunkStore} {newSize : Nat} {mem : Option (Nat × Nat)}
    (passed : checkMember chunkId s slice mem permitted = .ok admitted) :
    (writeSlice chunkId s slice newSize now mem permitted).2.getSlicesWithVersion =
      ⟨s.slices ++ [slice], s.getChunkVersion + 1⟩ := by
  have kept : admitted.slices = s.slices ∧ admitted.version = s.version := by
    cases mem with
    | none =>
      cases passed
      exact ⟨rfl, rfl⟩
    | some mem =>
      simp only [checkMember, publishCoalesced, bind_eq_ok, check_eq_ok,
        pure_eq_ok, exists_const] at passed
      obtain ⟨_, _, _, _, _, _, _, rfl⟩ := passed
      exact ⟨rfl, rfl⟩
  have pushed : (admitted.appendSlice slice).getSlicesWithVersion =
      ⟨s.slices ++ [slice], s.getChunkVersion + 1⟩ := by
    simp [getSlicesWithVersion, getChunkVersion, appendSlice,
      incr, kept]
  simp only [writeSlice, passed]
  split
  · exact pushed
  split
  · exact pushed
  · exact pushed

/-- A failed coalesced write has changed nothing: its checks come before its writes. -/
theorem writeSlice_coalesced (s : ChunkStore) (newSize : Nat) (mem : Nat × Nat) :
    (∃ done, (writeSlice chunkId s slice newSize now (some mem) permitted).1 = .done done) ∨
      (writeSlice chunkId s slice newSize now (some mem) permitted).2 = s := by
  cases admitted : checkMember chunkId s slice (some mem) permitted with
  | error reply => exact .inr (by simp only [writeSlice, admitted])
  | ok next =>
    have checked := admitted
    simp only [checkMember, publishCoalesced, bind_eq_ok, check_eq_ok,
      pure_eq_ok, need_eq_ok, exists_const] at checked
    obtain ⟨_, _, _, attr, held, _, _, rfl⟩ := checked
    simp only [writeSlice, admitted, appendSlice, incr, held]
    split <;> simp

/-- An ordinary write succeeds when it finds a node, having pushed the slice. -/
theorem writeSlice_ordinary (chunkId : Nat) (s : ChunkStore) (slice : SliceDesc) (newSize : Nat)
    (now : Int) (permitted : Bool) :
    ((∃ done, (writeSlice chunkId s slice newSize now none permitted).1 = .done done) ↔
      s.records.node ≠ none) ∧ (writeSlice chunkId s slice newSize now none permitted).2 ≠ s := by
  constructor
  · simp only [writeSlice, checkMember, appendSlice, incr]
    cases s.records.node with
    | none => simp
    | some attr =>
      dsimp only
      split <;> simp
  intro same
  have pushed : (writeSlice chunkId s slice newSize now none permitted).2.getSlicesWithVersion =
    _ := writeSlice_admitted rfl
  rw [same] at pushed
  have := congrArg (fun cell => cell.content.length) pushed
  simp [getSlicesWithVersion] at this

theorem report_eq_ok (unreadable : Bool) (reply : WriteReply) :
    reply.report unreadable = .ok () ↔ ∃ updated, reply = .done updated := by
  cases reply <;> simp [WriteReply.report]

/-- A failed write leaves the chunk exactly when the write is coalesced or the node can be read: the
ordinary path pushes the slice before it looks for the node. -/
theorem failed_write_unchanged_iff (chunkId : Nat) (s : ChunkStore) (unreadable : Bool)
    (slice : SliceDesc) (newSize : Nat) (now : Int) (coalesced permitted : Bool) :
    ((writeWithCoalescedReservation chunkId s unreadable slice newSize now coalesced permitted).1 ≠
        .ok () →
      (writeWithCoalescedReservation chunkId s unreadable slice newSize now coalesced
        permitted).2 = s) ↔
      coalesced = true ∨ s.records.node ≠ none := by
  cases coalesced with
  | false =>
    obtain ⟨done, pushed⟩ := writeSlice_ordinary chunkId s slice newSize now permitted
    simp [writeWithCoalescedReservation, report_eq_ok, done, pushed]
  | true =>
    simp only [writeWithCoalescedReservation, if_true, true_or, iff_true]
    split
    · exact fun _ => rfl
    next mem _ =>
      intro failed
      rw [Ne, report_eq_ok] at failed
      exact (writeSlice_coalesced s newSize mem).resolve_left failed

theorem failed_write_not_unchanged : ¬ ∀ (chunkId : Nat) (s : ChunkStore) (unreadable : Bool)
    (slice : SliceDesc) (newSize : Nat) (now : Int) (coalesced permitted : Bool),
    (writeWithCoalescedReservation chunkId s unreadable slice newSize now coalesced permitted).1 ≠
        .ok () →
      (writeWithCoalescedReservation chunkId s unreadable slice newSize now coalesced
        permitted).2 = s := by
  intro unchanged
  have same := unchanged 7
    ⟨[], none, ⟨fun _ => none, 0, fun _ => none, fun _ => none, fun _ => none,
      fun _ => ⟨false, fun _ => false, fun _ => false⟩, none⟩⟩
    false ⟨1, 7, 0, 4096⟩ 4096 0 false true nofun
  exact absurd (congrArg slices same) (by decide)

/-- The compare-and-set: it replaces the list of the expected version, or changes nothing. -/
theorem chunkCompact_spec (s : ChunkStore) (r : Replacement) :
    ((chunkCompact chunkId s r).1 = .replaced ∧ s.getChunkVersion = r.expected ∧
      (chunkCompact chunkId s r).2.getSlicesWithVersion = ⟨r.final, r.newVersion⟩) ∨
    ((chunkCompact chunkId s r).1 ≠ .replaced ∧
      (chunkCompact chunkId s r).2.getSlicesWithVersion = s.getSlicesWithVersion) := by
  unfold chunkCompact
  split
  · exact .inr ⟨by simp, rfl⟩
  rename_i expected
  split
  · exact .inr ⟨by simp, rfl⟩
  split
  · exact .inr ⟨by simp, rfl⟩
  refine .inl ⟨rfl, not_not.mp expected, ?_⟩
  simp only [getSlicesWithVersion, getChunkVersion, Cell.mk.injEq, true_and]
  split
  · rfl
  · simp only [getD_none]
    omega

theorem chunkCompact_failed {s : ChunkStore} (failed : (chunkCompact chunkId s r).1 ≠ .replaced) :
    (chunkCompact chunkId s r).2.getSlicesWithVersion = s.getSlicesWithVersion :=
  ((chunkCompact_spec s r).resolve_left fun done => failed done.1).2

/-! ### Steps -/

/-- The slices a mutation adds to the list. -/
def System.published (chunkId : Nat) (s : System) : Mutation → List SliceDesc
  | .append slice => [slice]
  | .write slice _ _ coalesced permitted =>
    if coalesced then
      match decodeId slice.sliceId with
      | some mem =>
        if (checkMember chunkId s.store slice (some mem) permitted).isOk then [slice] else []
      | none => []
    else [slice]
  | .compactLight view newSlices oldSlicesToDelay now =>
    match decodeDelayedData oldSlicesToDelay with
    | some delayed =>
      if (chunkCompact chunkId s.store (replaceSlicesForCompact view newSlices delayed now)).1 =
        .replaced then newSlices else []
    | none => []
  | .compactHeavy view newSlices oldSlicesToDelay expected now =>
    if (replaceSlicesForCompactWithVersion chunkId s.store view newSlices oldSlicesToDelay expected
      now).1 = .script .replaced then newSlices else []
  | .truncate _ _ _ | .deleteMeta _ _ | .elsewhere _ => []

/-- What clients have read is no later than the current version, and a list that is current while
the version read before it is. -/
structure Sound (s : System) : Prop where
  versions : ∀ version ∈ s.versions, version ≤ s.store.getChunkVersion
  views : ∀ view ∈ s.views, Dated s.store.getSlicesWithVersion view.1 view.2

/-- What a mutation does: list entries are dropped or cut, new ones added; and the version follows.
-/
structure Evolves (older newer : ChunkStore) (published : List SliceDesc) : Prop where
  follows : Follows older.getSlicesWithVersion newer.getSlicesWithVersion
  slices : ∃ (keep : SliceDesc → Bool) (cut : SliceDesc → SliceDesc),
    (∀ slice, (cut slice).sliceId = slice.sliceId ∧ (cut slice).chunkId = slice.chunkId) ∧
    newer.slices = (older.slices.filter keep).map cut ++ published

variable {older newer : ChunkStore} {published : List SliceDesc}

theorem Evolves.of_same (same : newer.getSlicesWithVersion = older.getSlicesWithVersion) :
    Evolves older newer [] := by
  refine ⟨same ▸ .refl _, fun _ => true, id, fun _ => ⟨rfl, rfl⟩, ?_⟩
  have slices : newer.slices = older.slices := congrArg Cell.content same
  simp [slices]

/-- A filtered list with new entries behind it, under the next version. -/
theorem Evolves.of_filter (keep : SliceDesc → Bool) (result : newer.getSlicesWithVersion =
      ⟨older.slices.filter keep ++ published, older.getChunkVersion + 1⟩) :
    Evolves older newer published := by
  have slices : newer.slices = older.slices.filter keep ++ published := congrArg Cell.content result
  refine ⟨Follows.of_lt ?_, keep, id, fun _ => ⟨rfl, rfl⟩, by simp [slices]⟩
  rw [result]
  exact Nat.lt_succ_self _

theorem Evolves.of_push (result : newer.getSlicesWithVersion =
      ⟨older.slices ++ [slice], older.getChunkVersion + 1⟩) : Evolves older newer [slice] :=
  Evolves.of_filter (fun _ => true) (by simpa using result)

theorem evolves_write (s : ChunkStore) (newSize : Nat) (mem : Option (Nat × Nat)) :
    Evolves s (writeSlice chunkId s slice newSize now mem permitted).2
      (if (checkMember chunkId s slice mem permitted).isOk then [slice] else []) := by
  cases admitted : checkMember chunkId s slice mem permitted with
  | ok _ => exact Evolves.of_push (writeSlice_admitted admitted)
  | error _ =>
    simp only [writeSlice, admitted]
    exact Evolves.of_same rfl

variable {view : View} {actions : List Action}

section

variable (sound : Sound s) (held : view ∈ s.views)

include sound held

/-- A replacement computed from a snapshot goes through only if that is the list. -/
theorem Sound.replaced_view (computed : r.expected = view.1)
    (replaced : (chunkCompact chunkId s.store r).1 = .replaced) :
    s.store.getChunkVersion = view.1 ∧ s.store.slices = view.2 ∧
      (chunkCompact chunkId s.store r).2.getSlicesWithVersion = ⟨r.final, r.newVersion⟩ := by
  rcases chunkCompact_spec s.store r with ⟨_, expected, result⟩ | ⟨failed, _⟩
  · rw [computed] at expected
    exact ⟨expected, (sound.views view held).current expected, result⟩
  · exact absurd replaced failed

theorem evolves_truncate (cutoffOffset : Nat) :
    Evolves s.store (chunkCompact chunkId s.store (rewriteTrimmedSlices view cutoffOffset now)).2
      [] := by
  by_cases replaced :
      (chunkCompact chunkId s.store (rewriteTrimmedSlices view cutoffOffset now)).1 = .replaced
  · obtain ⟨version, slices, result⟩ := sound.replaced_view held rfl replaced
    have trimmed := congrArg Cell.content result
    constructor
    · cases empty : view.2.isEmpty with
      | true =>
        -- a sparse chunk keeps its version and its empty list
        rw [List.isEmpty_iff] at empty
        rw [result]
        refine ⟨?_, fun changed => absurd ?_ changed⟩
        · simp [getSlicesWithVersion, rewriteTrimmedSlices, version]
        · simp [getSlicesWithVersion, rewriteTrimmedSlices, trimSlicesInPlace, slices,
            empty]
      | false =>
        rw [result]
        apply Follows.of_lt
        simp [getSlicesWithVersion, rewriteTrimmedSlices, version, empty]
    · refine ⟨fun slice => slice.offset < cutoffOffset, fun slice =>
        if cutoffOffset < addU64 slice.offset slice.length then
          { slice with length := cutoffOffset - slice.offset } else slice, ?_, ?_⟩
      · intro slice
        dsimp only
        split <;> exact ⟨rfl, rfl⟩
      · rw [slices, append_nil]
        exact trimmed
  · exact Evolves.of_same (chunkCompact_failed replaced)

theorem evolves_compactLight (newSlices : List SliceDesc) (delayed : List (Nat × Nat × Nat)) :
    Evolves s.store
      (chunkCompact chunkId s.store (replaceSlicesForCompact view newSlices delayed now)).2
      (if (chunkCompact chunkId s.store (replaceSlicesForCompact view newSlices delayed now)).1 =
        .replaced then newSlices else []) := by
  split
  · rename_i replaced
    obtain ⟨version, slices, result⟩ := sound.replaced_view held rfl replaced
    apply Evolves.of_filter (fun slice => !(delayed.map (·.1)).contains slice.sliceId)
    rw [result, version, slices]
    rfl
  · rename_i failed
    exact Evolves.of_same (chunkCompact_failed failed)

end

variable {newSlices expected current : List SliceDesc} {oldSlicesToDelay : List UInt8}

theorem replaceWithVersion_cases {s : ChunkStore} {reply : HeavyReply}
    (done : replaceSlicesForCompactWithVersion chunkId s view newSlices oldSlicesToDelay expected
      now = (reply, store)) : (∃ delayed answer, matchesExpected view.2 expected = true ∧
        reply = .script answer ∧
        chunkCompact chunkId s (replaceAll view newSlices delayed now) = (answer, store)) ∨
      reply ≠ .script .replaced ∧ store = s := by
  unfold replaceSlicesForCompactWithVersion at done
  split at done
  · cases done
    exact .inr ⟨nofun, rfl⟩
  rename_i delayed _
  split at done
  · rename_i agrees
    cases done
    exact .inl ⟨delayed, _, agrees, rfl, rfl⟩
  · cases done
    exact .inr ⟨nofun, rfl⟩

theorem evolves_compactHeavy (sound : Sound s) (held : view ∈ s.views) : Evolves s.store
    (replaceSlicesForCompactWithVersion chunkId s.store view newSlices
        oldSlicesToDelay expected now).2
      (if (replaceSlicesForCompactWithVersion chunkId s.store view newSlices oldSlicesToDelay
        expected now).1 = .script .replaced then newSlices else []) := by
  generalize done : replaceSlicesForCompactWithVersion .. = outcome
  rcases replaceWithVersion_cases done with ⟨delayed, answer, _, script, compacted⟩ | ⟨failed, same⟩
  · simp only [script, HeavyReply.script.injEq]
    rw [Prod.ext_iff] at compacted
    split
    · rename_i replaced
      obtain ⟨version, slices, result⟩ := sound.replaced_view held rfl (compacted.1.trans replaced)
      apply Evolves.of_filter (fun _ => false)
      rw [← compacted.2, result, version]
      simp [replaceAll]
    · rename_i failed
      exact Evolves.of_same (compacted.2 ▸ chunkCompact_failed (compacted.1 ▸ failed))
  · rw [if_neg failed, same]
    exact Evolves.of_same rfl

theorem evolves_mutate (sound : Sound s) {mutation : Mutation}
    (made : s.mutate chunkId mutation = some store) :
    Evolves s.store store (s.published chunkId mutation) := by
  cases mutation with
  | append slice =>
    cases made
    exact Evolves.of_push rfl
  | write slice newSize now coalesced permitted =>
    cases coalesced with
    | false =>
      cases made
      exact evolves_write s.store newSize none
    | true =>
      obtain ⟨mem, decoded, rfl⟩ := map_eq_some_iff.mp made
      simp only [System.published, decoded]
      exact evolves_write s.store newSize (some mem)
  | truncate view cutoffOffset now =>
    obtain ⟨held, ⟨⟩⟩ := ite_none_right_eq_some.mp made
    exact evolves_truncate sound held cutoffOffset
  | compactLight view newSlices oldSlicesToDelay now =>
    obtain ⟨held, made⟩ := ite_none_right_eq_some.mp made
    obtain ⟨delayed, decoded, rfl⟩ := map_eq_some_iff.mp made
    simp only [System.published, decoded]
    exact evolves_compactLight sound held newSlices delayed
  | compactHeavy view newSlices oldSlicesToDelay expected now =>
    obtain ⟨held, ⟨⟩⟩ := ite_none_right_eq_some.mp made
    exact evolves_compactHeavy sound held
  | deleteMeta delayedId target =>
    obtain ⟨_, ⟨⟩⟩ := ite_none_right_eq_some.mp made
    cases target with
    | none => exact Evolves.of_same rfl
    | some entry =>
      apply Evolves.of_filter (· ≠ entry)
      rw [System.published, append_nil]
      rfl
  | elsewhere records =>
    cases made
    exact Evolves.of_same rfl

/-- No slice of `origin` is published by the action. -/
def NotRepublished (chunkId : Nat) (origin : List SliceDesc) (s : System) : Action → Prop
  | .mutate mutation =>
    ∀ slice ∈ s.published chunkId mutation, slice.sliceId ∉ origin.map (·.sliceId)
  | _ => True

theorem Sound.advance (sound : Sound s) {action : Action}
    (taken : step chunkId s action = some next) :
    Sound next ∧ ∃ published, Evolves s.store next.store published ∧
      ∀ origin, NotRepublished chunkId origin s action →
        ∀ slice ∈ published, slice.sliceId ∉ origin.map (·.sliceId) := by
  cases action with
  | mutate mutation =>
    obtain ⟨store, made, rfl⟩ := map_eq_some_iff.mp taken
    have evolves := evolves_mutate sound made
    refine ⟨⟨fun version read => ?_, fun view held => (sound.views view held).follows
      evolves.follows⟩, _, evolves, fun _ => id⟩
    exact (sound.versions version read).trans evolves.follows.rises
  | getVersion =>
    cases taken
    refine ⟨⟨fun version read => ?_, sound.views⟩, [], .of_same rfl, nofun⟩
    rcases mem_cons.mp read with rfl | before
    · exact le_rfl
    · exact sound.versions version before
  | lrange version =>
    obtain ⟨read, ⟨⟩⟩ := ite_none_right_eq_some.mp taken
    refine ⟨⟨sound.versions, fun view held => ?_⟩, [], .of_same rfl, nofun⟩
    rcases mem_cons.mp held with rfl | before
    · exact Dated.read (sound.versions version read)
    · exact sound.views view before
  | findTarget delayedId cutoff =>
    obtain ⟨_, taken⟩ := ite_none_right_eq_some.mp taken
    obtain ⟨_, _, rfl⟩ := map_eq_some_iff.mp taken
    exact ⟨⟨sound.versions, sound.views⟩, [], .of_same rfl, nofun⟩

theorem sound_init (records : Records) : Sound (System.init records) :=
  ⟨fun _ read => (not_mem_nil read).elim, fun _ held => (not_mem_nil held).elim⟩

theorem Sound.run (sound : Sound s) (run : exec (step chunkId) s actions = some next) :
    Sound next ∧ Follows s.store.getSlicesWithVersion next.store.getSlicesWithVersion := by
  apply Run.invariant ?_ ?_ run
  · intro middle action after ⟨middleSound, before⟩ taken
    obtain ⟨afterSound, _, evolves, _⟩ := middleSound.advance taken
    exact ⟨afterSound, before.trans evolves.follows⟩
  · exact ⟨sound, .refl _⟩

/-! ### A compactor's snapshot -/

/-- The part of an entry that a truncation keeps. -/
def identity (slice : SliceDesc) : Nat × Nat := (slice.sliceId, slice.chunkId)

/-- The list is what is left of `origin`, in its order, and slices `origin` does not have. -/
def Descends (origin current : List SliceDesc) : Prop :=
  ∃ kept newer, current = kept ++ newer ∧ (kept.map identity).Sublist (origin.map identity) ∧
    ∀ slice ∈ newer, slice.sliceId ∉ origin.map (·.sliceId)

theorem Descends.evolves {origin : List SliceDesc} (descends : Descends origin older.slices)
    (evolves : Evolves older newer published)
    (fresh : ∀ slice ∈ published, slice.sliceId ∉ origin.map (·.sliceId)) :
    Descends origin newer.slices := by
  obtain ⟨kept, added, split, sublist, foreign⟩ := descends
  obtain ⟨keep, cut, same, slices⟩ := evolves.slices
  refine ⟨(kept.filter keep).map cut, (added.filter keep).map cut ++ published, ?_, ?_, ?_⟩
  · rw [slices, split, filter_append, map_append, append_assoc]
  · have cutIdentity : ((kept.filter keep).map cut).map identity =
        (kept.filter keep).map identity := by
      rw [List.map_map]
      refine map_congr_left fun slice _ => ?_
      exact Prod.ext (same slice).1 (same slice).2
    rw [cutIdentity]
    exact (filter_sublist.map identity).trans sublist
  · intro slice listed
    rcases mem_append.mp listed with old | new
    · obtain ⟨before, mem, rfl⟩ := mem_map.mp old
      rw [(same before).1]
      exact foreign before (mem_filter.mp mem).1
    · exact fresh slice new

theorem Descends.refl (origin : List SliceDesc) : Descends origin origin :=
  ⟨origin, [], by simp, .refl _, nofun⟩

theorem Descends.run (sound : Sound s) (run : exec (step chunkId) s actions = some next)
    (fresh : Run.Along (step chunkId) (NotRepublished chunkId s.store.slices) s actions) :
    Sound next ∧ Descends s.store.slices next.store.slices := by
  apply Run.invariant_along ?_ ?_ fresh run
  · intro middle action after ⟨middleSound, descends⟩ freshHere taken
    obtain ⟨afterSound, _, evolves, fresh⟩ := middleSound.advance taken
    exact ⟨afterSound, descends.evolves evolves (fresh _ freshHere)⟩
  · exact ⟨sound, Descends.refl _⟩

/-! ### Runs of a chunk -/

/-- Why republication matters: the comparison ignores the entries' order. -/
example : matchesExpected [⟨2, 7, 0, 20⟩, ⟨1, 7, 0, 10⟩] [⟨1, 7, 0, 10⟩, ⟨2, 7, 0, 20⟩] = true := by
  decide

end BrewFs.Meta.Redis.Chunk
