import BrewFs.Library.Slots
import BrewFs.Meta.Database.CoalescedGroups
import Mathlib.Data.List.Pairwise

/-! The life of a coalesced group: what each step does to its members, and what therefore holds in
every run. -/

namespace BrewFs.Meta.Database.Coalesce

open BrewFs.Chunk BrewFs.Chunk.Compact List
open Slots (mem_free mem_put)
open Guard (bind_eq_ok check_eq_ok pure_eq_ok)

variable {s s' : System}

/-! ### Registration -/

variable {group id slot seq : Nat}

/-- Nothing in the system is about a group whose seed is unused. -/
theorem Sound.unseen (sound : Sound s) (seed : group ∈ s.pool)
    (mem : decodeId id = some (group, slot)) : ¬ Reserved s id ∧ ¬ s.Touched id := by
  constructor
  · intro reserved
    exact (sound.reserved mem reserved).2 seed
  · intro touched
    exact ((sound.touched mem touched).1 mem).2 seed

variable {row : UncommittedRow} {members : List (Nat × Nat × Nat)}

section

variable (valid : ∀ mem ∈ members.zipIdx, encodeId group mem.2 = some mem.1.1 ∧
  mem.1.2.2 ≠ 0 ∧ mem.1.2.2 ≤ 65536)

include valid

theorem mem_memberRows (listed : row ∈ memberRows seq members) :
    row.status = .pending ∧ ∃ slot < members.length, decodeId row.sliceId = some (group, slot) := by
  obtain ⟨⟨mem, slot⟩, indexed, rfl⟩ := mem_map.mp listed
  have bounds := mem_zipIdx indexed
  exact ⟨rfl, slot, by omega, decodeId_encodeId (valid _ indexed).1⟩

theorem memberRows_pairwise :
    (memberRows seq members).Pairwise fun row other => row.sliceId ≠ other.sliceId := by
  have indices : members.zipIdx.Pairwise fun mem other => mem.2 ≠ other.2 := by
    rw [← pairwise_map, zipIdx_map_snd]
    exact nodup_range'
  unfold memberRows
  rw [pairwise_map]
  apply indices.imp_of_mem
  intro mem other listed otherListed differ same
  have first := decodeId_encodeId (valid mem listed).1
  have second := decodeId_encodeId (valid other otherListed).1
  rw [show mem.1.1 = other.1.1 from same, second] at first
  exact differ (Prod.mk.inj (Option.some.inj first)).2.symm

end

theorem Sound.register (sound : Sound s) (members : List (Nat × Nat × Nat)) (seed : group ∈ s.pool)
    : Next s ((s.take group).commit (s.store.registerCoalescedGroup group members)) := by
  cases done : s.store.registerCoalescedGroup group members with
  | error _ => exact sound.take group
  | ok store =>
    simp only [Store.registerCoalescedGroup, bind_eq_ok, check_eq_ok,
      pure_eq_ok, exists_const] at done
    obtain ⟨_, valid, _, rfl⟩ := done
    have used : ∀ other, Used s other → Used (s.take group) other := (sound.take group).calm.used
    have usedNow : Used (s.take group) group :=
      ⟨(sound.pool group seed).1, fun listed => (sound.poolNodup.mem_erase_iff.mp listed).1 rfl⟩
    -- the new rows are about this group, which nothing was about before
    have fresh : ∀ row ∈ memberRows s.store.db.uncommitted.seq members, ∀ other slot,
        decodeId row.sliceId = some (other, slot) → other = group ∧ slot < members.length := by
      intro row listed other slot mem
      obtain ⟨_, own, inside, decoded⟩ := mem_memberRows valid listed
      rw [decoded, Option.some.injEq, Prod.mk.injEq] at mem
      exact ⟨mem.1.symm, mem.2 ▸ inside⟩
    refine sound.advance ?_ ⟨used, ?_, fun _ _ => id⟩ ?_ ?_
    · exact { (sound.take group).sound.toBooks with
        reserved := by
          rintro id other slot mem ⟨row, listed, rfl, status⟩
          rcases mem_append.mp listed with before | new
          · exact used other (sound.reserved mem ⟨row, before, rfl, status⟩)
          · rw [(fresh row new other slot mem).1]
            exact usedNow
        single := by
          refine pairwise_append.mpr ⟨sound.single, ?_, ?_⟩
          · exact (memberRows_pairwise valid).imp fun differ same => absurd same differ
          intro row before other new same
          obtain ⟨status, slot, inside, decoded⟩ := mem_memberRows valid new
          by_contra mem
          -- an old row of this group is pending or an orphan, so the seed was used
          cases kind : row.status with
          | pending =>
            exact (sound.unseen seed decoded).1 ⟨row, before, same, kind⟩
          | orphan =>
            have settled := sound.condemned decoded (.orphan before same kind)
            exact (settled.1.1 decoded).2 seed }
    · rintro id other slot mem usedBefore ⟨row, listed, rfl, status⟩
      rcases mem_append.mp listed with before | new
      · exact ⟨row, before, rfl, status⟩
      · rw [(fresh row new other slot mem).1] at usedBefore
        exact absurd seed usedBefore.2
    · intro id other slot mem
      refine { s.sameTouched with
        published := fun decoded found bit => ?_ }
      rcases mem_put found with ⟨_, rfl⟩ | ⟨_, before⟩
      · rw [Nat.zero_testBit] at bit
        cases bit
      · exact .inl (.published decoded before bit)
    · intro id other slot mem
      refine { s.sameCondemned with
        orphan := fun row listed same status => ?_
        retired := fun decoded found bit => ?_
        outside := fun decoded found beyond => ?_ }
      · rcases mem_append.mp listed with before | new
        · exact .inl (.orphan before same status)
        · rw [(mem_memberRows valid new).1] at status
          cases status
      · rcases mem_put found with ⟨_, whole⟩ | ⟨_, before⟩
        · simp [whole, not_le.mpr (decodeId_slot decoded)] at bit
        · exact .inl (.retired decoded before bit)
      · rcases mem_put found with ⟨rfl, whole⟩ | ⟨_, before⟩
        · have unseen := sound.unseen seed decoded
          refine .inr ⟨⟨?_, ?_⟩, ?_⟩
          · intro group'' slot'' again
            rw [decoded, Option.some.injEq, Prod.mk.injEq] at again
            rw [← again.1]
            exact usedNow
          · rintro ⟨row, listed, rfl, status⟩
            rcases mem_append.mp listed with before | new
            · exact unseen.1 ⟨row, before, rfl, status⟩
            · have inside := (fresh row new _ _ decoded).2
              omega
          · rintro ⟨row, listed, same⟩
            exact unseen.2 (.mapped listed same)
        · exact .inl (.outside decoded before beyond)

/-! ### Publication -/

theorem Books.single_eq (books : Books s) {other : UncommittedRow}
    (listed : row ∈ s.store.db.uncommitted.rows)
    (otherListed : other ∈ s.store.db.uncommitted.rows) (same : row.sliceId = other.sliceId)
    {mem : Nat × Nat} (decoded : decodeId row.sliceId = some mem) : row = other := by
  by_contra differ
  have symmetric : Std.Symm fun row other : UncommittedRow =>
      row.sliceId = other.sliceId → decodeId row.sliceId = none :=
    ⟨fun _ _ related same => same ▸ related same.symm⟩
  have ordinary := books.single.forall listed otherListed differ same
  rw [decoded] at ordinary
  cases ordinary

variable {slice : SliceDesc}

theorem reservationOf_eq_true (matched : Store.reservationOf slice row = true) :
    row.sliceId = slice.sliceId ∧ row.status = .pending := by
  simp only [Store.reservationOf, Bool.and_eq_true, decide_eq_true_iff] at matched
  exact ⟨matched.1.1.1, matched.2⟩

variable {store : Store} {ino : Int} {chunkId newSize : Nat}

/-- A publication consumes the member's only reservation. -/
theorem Published.spent (sound : Sound s)
    (published : Published s.store store ino chunkId slice newSize group slot) :
    Spent { s with store := store } slice.sliceId := by
  obtain ⟨consumed, consumedListed, matched⟩ := published.reserved
  obtain ⟨own, pending⟩ := reservationOf_eq_true matched
  constructor
  · intro _ _ mem
    exact sound.reserved mem ⟨consumed, consumedListed, own, pending⟩
  rintro ⟨row, listed, same, status⟩
  rw [published.uncommitted, mem_filter] at listed
  have decoded := published.decoded
  rw [← same] at decoded
  have equal := sound.single_eq listed.1 consumedListed (same.trans own.symm) decoded
  rw [equal, matched] at listed
  cases listed.2

theorem Sound.published (sound : Sound s) (sized : wellSized slice)
    (published : Published s.store store ino chunkId slice newSize group slot) :
    Next s { s with store := store } := by
  have spent := published.spent sound
  obtain ⟨consumed, consumedListed, matched⟩ := published.reserved
  have reservedBefore : Reserved s slice.sliceId :=
    ⟨consumed, consumedListed, reservationOf_eq_true matched⟩
  have kept : ∀ row ∈ store.db.uncommitted.rows, row ∈ s.store.db.uncommitted.rows := by
    intro row listed
    rw [published.uncommitted] at listed
    exact (mem_filter.mp listed).1
  have mapped : ∀ row ∈ store.db.sliceMeta, row ∈ s.store.db.sliceMeta ∨
      row = { slice with chunkId := chunkId } := by
    intro row listed
    rw [published.sliceMeta] at listed
    rcases mem_append.mp listed with before | new
    · exact .inl before
    · exact .inr (mem_singleton.mp new)
  have reserved : ∀ id, Reserved { s with store := store } id → Reserved s id := by
    rintro id ⟨row, listed, facts⟩
    exact ⟨row, kept row listed, facts⟩
  refine sound.advance ?_ ⟨fun _ => id, fun _ _ => reserved _, ?_⟩ ?_ ?_
  · exact { sound.toBooks with
      rows := by
        intro row listed
        rcases mapped row listed with before | rfl
        · exact sound.rows row before
        · exact sized
      reserved := fun mem held => sound.reserved mem (reserved _ held)
      single := by
        rw [published.uncommitted]
        exact sound.single.sublist filter_sublist
      records := by rw [published.delayed]; exact sound.records
      distinct := by rw [published.delayed]; exact sound.distinct
      agrees := by rw [published.delayed]; exact sound.agrees }
  · rintro id group' slot' mem spentBefore ⟨row, listed, rfl⟩
    rcases mapped row listed with before | rfl
    · exact ⟨row, before, rfl⟩
    · exact absurd reservedBefore spentBefore.2
  · intro id group' slot' mem
    refine { s.sameTouched with
      mapped := fun row listed same => ?_
      staged := fun row listed same => .inl (.staged (published.delayed ▸ listed) same)
      published := fun decoded found bit => ?_ }
    · rcases mapped row listed with before | rfl
      · exact .inl (.mapped before same)
      · rw [← same]
        exact .inr spent
    obtain ⟨before, foundBefore, updated⟩ := published.published
    rw [updated] at found
    rcases mem_put found with ⟨rfl, rfl⟩ | ⟨_, kept⟩
    · rw [testBit_mark, Bool.or_eq_true, decide_eq_true_iff] at bit
      rcases bit with old | rfl
      · exact .inl (.published decoded foundBefore old)
      · rw [decodeId_inj decoded published.decoded]
        exact .inr spent
    · exact .inl (.published decoded kept bit)
  · intro id group' slot' mem
    exact { s.sameCondemned with
      staged := fun row listed same status =>
        .inl (.staged (published.delayed ▸ listed) same status)
      orphan := fun row listed same status => .inl (.orphan (kept row listed) same status)
      retired := fun decoded found bit =>
        .inl (.retired decoded (published.ledger ▸ found) bit)
      outside := fun decoded found beyond =>
        .inl (.outside decoded (published.ledger ▸ found) beyond) }

variable {compactLocked : Bool}

theorem Sound.publish (sound : Sound s) (sized : wellSized slice) : Next s (s.commit
      (s.store.writeWithCoalescedReservation ino chunkId slice newSize true compactLocked)) := by
  cases done : s.store.writeWithCoalescedReservation ino chunkId slice newSize true compactLocked
    with
  | error _ => exact sound.stay
  | ok store =>
    obtain ⟨rfl, _⟩ | ⟨group, slot, published⟩ := publish_ok done
    · exact sound.stay
    · exact sound.published sized published

/-- A publication of a spent member maps nothing. -/
theorem publish_idle (spent : Spent s id) (same : slice.sliceId = id)
    (done : s.store.writeWithCoalescedReservation ino chunkId slice newSize true compactLocked =
      .ok store) : store.db.sliceMeta = s.store.db.sliceMeta := by
  obtain ⟨rfl, _⟩ | ⟨group, slot, published⟩ := publish_ok done
  · rfl
  obtain ⟨row, listed, matched⟩ := published.reserved
  obtain ⟨own, pending⟩ := reservationOf_eq_true matched
  exact absurd ⟨row, listed, own.trans same, pending⟩ spent.2

section

variable (sound : Sound s)

include sound

/-- An ordinary slice has an id of its own. -/
theorem Sound.write (unused : slice.sliceId ∈ s.pool) (sized : wellSized slice) :
    Next s ((s.take slice.sliceId).commit
      (s.store.writeWithCoalescedReservation ino chunkId slice newSize false compactLocked)) := by
  have taken := sound.take slice.sliceId
  cases done : s.store.writeWithCoalescedReservation ino chunkId slice newSize false compactLocked
    with
  | error _ => exact taken
  | ok store =>
    simp only [Store.writeWithCoalescedReservation, bind_eq_ok, check_eq_ok,
      pure_eq_ok, exists_const, Bool.false_eq_true, if_false] at done
    obtain ⟨_, reserved, rfl, done⟩ := done
    simp only [Bool.true_eq_false, if_false, bind_eq_ok, Guard.need_eq_ok,
      pure_eq_ok] at done
    obtain ⟨db, written, rfl⟩ := done
    obtain ⟨fileSize, _, rfl⟩ := Option.map_eq_some_iff.mp written
    have ordinary := (sound.pool _ unused).2.1
    refine taken.trans (taken.sound.tableUnstaged ?_)
    exact { tableStep_refl s.store.db with
      mapped := by
        intro row listed
        rcases mem_append.mp listed with before | new
        · exact .inr ⟨row, before, rfl, rfl⟩
        · rw [mem_singleton.mp new]
          exact .inl ⟨sized, ordinary⟩ }

/-! ### Compactors -/

theorem Sound.readSlices (chunkId : Nat) :
    Next s { s with views := (chunkId, getSlices s.store.db.sliceMeta chunkId) :: s.views } := by
  refine sound.advance ?_ { Calm.refl s with } ?_ fun _ => { s.sameCondemned with }
  · exact { sound.toBooks with
      views := by
        intro view listed
        rcases mem_cons.mp listed with rfl | before
        · exact fun row rowListed => sound.rows row (mem_filter.mp rowListed).1
        · exact sound.views view before }
  intro id group slot mem
  refine { s.sameTouched with viewed := fun view taken row listed same => ?_ }
  rcases mem_cons.mp taken with rfl | before
  · exact .inl (.mapped (mem_filter.mp listed).1 same)
  · exact .inl (.viewed before listed same)

theorem Sound.reserve {newId : Nat} (chunkId size : Nat) (unused : newId ∈ s.pool)
    : Next s { (s.take newId).commitTables
      (some (recordUncommittedSlice s.store.db newId chunkId size)) with
        compacting := newId :: s.compacting } := by
  have facts := sound.pool newId unused
  have taken := sound.take newId
  have recorded : TableStep noSource s.store.db
      (recordUncommittedSlice s.store.db newId chunkId size) := { tableStep_refl s.store.db with
    reservations := by
      intro row listed
      rcases mem_append.mp listed with before | new
      · exact .inr before
      · rw [mem_singleton.mp new]
        exact .inl facts.2.1
    single := by
      intro pairwise
      refine pairwise_append.mpr ⟨pairwise, pairwise_singleton _ _, ?_⟩
      intro row _ other new same
      rw [same, mem_singleton.mp new]
      exact facts.2.1 }
  have stored := taken.trans (taken.sound.tableUnstaged recorded)
  refine stored.trans (stored.sound.advance ?_ { Calm.refl _ with }
    (fun _ => { System.sameTouched _ with }) fun _ => { System.sameCondemned _ with })
  exact { stored.sound.toBooks with
    compacting := by
      intro id listed
      rcases mem_cons.mp listed with rfl | before
      · exact ⟨facts.2.1, by omega⟩
      · exact sound.compacting id before }

/-! ### Collectors -/

theorem Sound.selectDelayed (ids : List Nat) :
    Next s { s with selected := Compact.selectDelayed s.store.db.delayed ids ++ s.selected } := by
  have stored : ∀ row ∈ Compact.selectDelayed s.store.db.delayed ids,
      row ∈ s.store.db.delayed.rows ∧ row.status ≠ .retained := by
    intro row listed
    obtain ⟨before, chosen⟩ := mem_filter.mp listed
    refine ⟨before, fun retained => ?_⟩
    rw [retained] at chosen
    simp at chosen
  refine sound.advance ?_ { Calm.refl s with } ?_ ?_
  · exact { sound.toBooks with
      agrees := by
        intro row listed
        rcases mem_append.mp listed with new | before
        · obtain ⟨here, live⟩ := stored row new
          refine ⟨live, sound.records row here, ?_⟩
          intro current currentListed same
          rw [inj_on_of_nodup_map sound.distinct currentListed here same]
          exact ⟨rfl, live⟩
        · exact sound.agrees row before }
  · intro id group slot mem
    refine { s.sameTouched with selected := fun row listed same => ?_ }
    rcases mem_append.mp listed with new | before
    · exact .inl (.staged (stored row new).1 same)
    · exact .inl (.selected before same)
  · intro id group slot mem
    refine { s.sameCondemned with selected := fun row listed same status => ?_ }
    rcases mem_append.mp listed with new | before
    · exact .inl (.staged (stored row new).1 same status)
    · exact .inl (.selected before same status)

theorem Sound.processDelayed {rows : List DelayedRow} (chosen : ∀ row ∈ rows, row ∈ s.selected) :
    Next s { s.commitTables (some (processDelayedSlices rows s.store.db).1) with
      handed := (processDelayedSlices rows s.store.db).2.map (·.sliceId) ++ s.handed } := by
  set after : System := { s.commitTables (some (processDelayedSlices rows s.store.db).1) with
    handed := (processDelayedSlices rows s.store.db).2.map (·.sliceId) ++ s.handed }
  have collects := processDelayedSlices_spec rows s.store.db
  have ⟨grows, uncommitted, _, _, gone, ready, _⟩ := collects
  have calm : Calm s after := by
    refine ⟨fun _ => id, ?_, ?_⟩
    · rintro id group slot _ _ ⟨row, listed, facts⟩
      exact ⟨row, uncommitted ▸ listed, facts⟩
    · rintro id group slot _ _ ⟨row, listed, same⟩
      exact ⟨row, (gone _ listed).1, same⟩
  -- a record the collector was given is about a member that nothing maps any more
  have settled : ∀ record ∈ rows, ∀ group slot, decodeId record.sliceId = some (group, slot) →
      Settled after record.sliceId := by
    intro record listed group slot mem
    have here := chosen record listed
    cases status : record.status with
    | retained => exact absurd status (sound.agrees record here).1
    | metaDeleted =>
      exact calm.settled mem
        (sound.condemned mem (.selected here rfl status))
    | pending =>
      refine ⟨calm.spent mem (sound.touched mem (.selected here rfl)), ?_⟩
      rintro ⟨row, rowListed, same⟩
      exact (gone _ rowListed).2 record listed status same
  refine sound.advance ?_ calm ?_ ?_
  · exact { sound.toBooks with
      rows := fun row listed => sound.rows row (gone _ listed).1
      reserved := by
        rintro id group slot mem ⟨row, listed, facts⟩
        exact sound.reserved mem ⟨row, uncommitted ▸ listed, facts⟩
      single := by
        show (processDelayedSlices rows s.store.db).1.uncommitted.rows.Pairwise _
        rw [uncommitted]
        exact sound.single
      records := grows.below sound.records
      distinct := grows.distinct sound.records sound.distinct
      agrees := fun row listed => ⟨(sound.agrees row listed).1,
        agrees_extends grows sound.records (sound.agrees row listed).2⟩ }
  · intro id group slot mem
    refine { s.sameTouched with
      mapped := fun row listed same => .inl (.mapped (gone _ listed).1 same)
      staged := fun row listed same => ?_ }
    obtain ⟨before, beforeListed, rfl | ⟨rfl, _⟩⟩ := collects.marked listed
    · exact .inl (.staged beforeListed same)
    · exact .inl (.staged beforeListed same)
  · intro id group slot mem
    refine { s.sameCondemned with
      staged := fun row listed same status => ?_
      orphan := fun row listed same status =>
        .inl (.orphan (uncommitted ▸ listed) same status)
      handed := fun listed => ?_ }
    · obtain ⟨before, beforeListed, rfl | ⟨rfl, record, recordListed, sameId⟩⟩ :=
        collects.marked listed
      · exact .inl (.staged beforeListed same status)
      -- the marked record is the selected one, under the same slice
      have agrees := (sound.agrees record (chosen record recordListed)).2.2 before beforeListed
        sameId.symm
      have about : record.sliceId = id := agrees.1.symm.trans same
      rw [← about] at mem ⊢
      exact .inr (settled record recordListed group slot mem)
    · rcases mem_append.mp listed with new | before
      · obtain ⟨item, itemListed, rfl⟩ := mem_map.mp new
        obtain ⟨record, recordListed, rfl⟩ := ready item itemListed
        exact .inr (settled record recordListed group slot mem)
      · exact .inl (.handed before)

theorem Sound.confirmDelayed (ids : List Nat) :
    Next s (s.commitTables (some (confirmDelayedDeleted s.store.db ids))) := by
  apply sound.tableUnstaged
  exact { tableStep_refl s.store.db with
    delayed := extends_filter _ _
    staged := fun _ listed => .inl (mem_filter.mp listed).1 }

theorem Sound.claimOrphans (aged orphaned : List Nat) : Next s { s.commitTables
      (some (cleanupOrphanUncommittedSlices s.store.db aged orphaned).1) with
        handed := (cleanupOrphanUncommittedSlices s.store.db aged orphaned).2.map (·.1) ++
          s.handed } := by
  set claimed := Database.claimOrphans s.store.db.sliceMeta aged s.store.db.uncommitted.rows
  set after : System := { s.commitTables
      (some (cleanupOrphanUncommittedSlices s.store.db aged orphaned).1) with
        handed := (cleanupOrphanUncommittedSlices s.store.db aged orphaned).2.map (·.1) ++ s.handed
        }
  have rows : after.store.db.uncommitted.rows = claimed.1 := rfl
  have pending : ∀ id, Reserved after id → Reserved s id := by
    rintro id ⟨row, listed, same, status⟩
    obtain ⟨_, beforeListed, _, kept⟩ := mem_claimOrphans listed
    cases kept status
    exact ⟨row, beforeListed, same, status⟩
  have calm : Calm s after := ⟨fun _ => id, fun _ _ => pending _, fun _ _ => id⟩
  have books : Books after := { sound.toBooks with
    reserved := fun mem reserved => sound.reserved mem (pending _ reserved)
    single := by
      have before : (s.store.db.uncommitted.rows.map (·.sliceId)).Pairwise fun id other =>
          id = other → decodeId id = none := pairwise_map.mpr sound.single
      exact pairwise_map.mp (before.sublist (claimOrphans_ids _ _ _)) }
  -- an orphan has no second, pending row
  have orphans : ∀ row ∈ claimed.1, row.status = .orphan → ∀ group slot,
      decodeId row.sliceId = some (group, slot) → Settled after row.sliceId := by
    intro row listed status group slot mem
    rcases claimOrphans_cases listed with before | ⟨_, unmapped, before, beforeListed, same, was⟩
    · exact calm.settled mem (sound.condemned mem (.orphan before rfl status))
    refine ⟨⟨?_, ?_⟩, ?_⟩
    · intro _ _ again
      exact sound.reserved again ⟨before, beforeListed, same, was⟩
    · rintro ⟨other, otherListed, otherSame, otherStatus⟩
      have equal := books.single_eq (rows ▸ listed) otherListed otherSame.symm mem
      rw [equal, otherStatus] at status
      cases status
    · rintro ⟨slice, sliceListed, sliceSame⟩
      exact unmapped slice sliceListed sliceSame
  apply sound.advance books calm (fun _ => { s.sameTouched with })
  intro id group slot mem
  refine { s.sameCondemned with
    orphan := fun row listed same status => ?_, handed := fun listed => ?_ }
  · rw [← same] at mem ⊢
    exact .inr (orphans row listed status group slot mem)
  rcases mem_append.mp listed with new | before
  · obtain ⟨item, itemListed, rfl⟩ := mem_map.mp new
    obtain ⟨row, rowListed, same, status⟩ := orphan_of_cleanup itemListed
    rw [← same] at mem ⊢
    exact .inr (orphans row rowListed status group slot mem)
  · exact .inl (.handed before)

/-! ### Ledgers -/

theorem Sound.retire (handed : id ∈ s.handed)
    (mem : decodeId id = some (group, slot)) : Next s (s.retire group slot) := by
  unfold System.retire Store.retireCoalescedMember
  cases found : s.store.ledger group with
  | none => exact sound.stay
  | some bits =>
    by_cases invalid : slot ≥ bits >>> 32 ∨ bits >>> 32 > 32
    · simp only [invalid]
      exact sound.stay
    simp only [invalid, if_false]
    have inside := decodeId_slot mem
    refine sound.advance { sound.toBooks with } { Calm.refl s with } ?_ ?_
    · exact fun _ => { s.sameTouched with }
    -- the new bit is that of a member a collector was given
    have marked : ∀ other otherSlot, decodeId other = some (group, otherSlot) →
        (bits ||| 1 <<< slot).testBit otherSlot = true → s.Condemned other := by
      intro other otherSlot decoded bit
      rw [testBit_mark, Bool.or_eq_true, decide_eq_true_iff] at bit
      rcases bit with old | rfl
      · exact .retired decoded found old
      · rw [decodeId_inj decoded mem]
        exact .handed handed
    intro other group' slot' otherMember
    refine { s.sameCondemned with
      retired := fun decoded foundBits bit => ?_
      outside := fun decoded foundBits beyond => ?_
      doomed := @fun third thirdSlot decoded listed => ?_ }
    · rcases mem_put foundBits with ⟨rfl, rfl⟩ | ⟨_, before⟩
      · exact .inl (marked other _ decoded bit)
      · exact .inl (.retired decoded before bit)
    · rcases mem_put foundBits with ⟨rfl, rfl⟩ | ⟨_, before⟩
      · rw [count_mark inside] at beyond
        exact .inl (.outside decoded found beyond)
      · exact .inl (.outside decoded before beyond)
    · split at listed
      · rename_i dead
        rcases mem_cons.mp listed with rfl | before
        · by_cases within : thirdSlot < bits >>> 32
          · exact .inl (marked other thirdSlot decoded
              (allDead_bit (Option.some.inj dead) within))
          · exact .inl (.outside decoded found (not_lt.mp within))
        · exact .inl (.doomed decoded before)
      · exact .inl (.doomed decoded listed)

theorem Sound.forget (group : Nat) : Next s (s.commit (s.store.forgetCoalescedGroup group)) := by
  cases done : s.store.forgetCoalescedGroup group with
  | error _ => exact sound.stay
  | ok store =>
    simp only [Store.forgetCoalescedGroup, bind_eq_ok, check_eq_ok,
      pure_eq_ok, exists_const] at done
    obtain ⟨_, rfl⟩ := done
    refine sound.advance { sound.toBooks with } { Calm.refl s with } ?_ ?_
    · exact fun _ => { s.sameTouched with
        published := fun decoded found bit =>
          .inl (.published decoded (mem_free found).2 bit) }
    exact fun _ => { s.sameCondemned with
      retired := fun decoded found bit =>
        .inl (.retired decoded (mem_free found).2 bit)
      outside := fun decoded found beyond =>
        .inl (.outside decoded (mem_free found).2 beyond) }

/-! ### Runs -/

theorem Sound.step {action : Action} (taken : step s action = some s') : Next s s' := by
  cases action <;>
    simp only [Coalesce.step, Option.ite_none_right_eq_some, Option.some.injEq] at taken
  case nextId => exact sound.nextId taken
  case createFile ino =>
    subst taken
    exact sound.tableUnstaged { tableStep_refl s.store.db with }
  case register group members =>
    obtain ⟨seed, rfl⟩ := taken
    exact sound.register members seed
  case publish =>
    obtain ⟨sized, rfl⟩ := taken
    exact sound.publish sized
  case write =>
    obtain ⟨⟨unused, sized⟩, rfl⟩ := taken
    exact sound.write unused sized
  case truncate ino size chunkSize =>
    subst taken
    exact sound.truncate ino size chunkSize
  case readSlices chunkId =>
    subst taken
    exact sound.readSlices chunkId
  case compactLight =>
    obtain ⟨viewed, rfl⟩ := taken
    rw [replaceSlicesForCompact, sound.decoded viewed]
    exact sound.reclaim viewed (by simp)
  case reserve newId chunkId size =>
    obtain ⟨unused, rfl⟩ := taken
    exact sound.reserve chunkId size unused
  case compactHeavy =>
    obtain ⟨⟨viewed, ours⟩, rfl⟩ := taken
    exact sound.compactHeavy viewed ours
  case confirmCommitted | deleteUncommitted =>
    obtain ⟨_, rfl⟩ := taken
    exact sound.tableUnstaged (tableStep_sublist _ filter_sublist)
  case selectDelayed ids =>
    subst taken
    exact sound.selectDelayed ids
  case processDelayed =>
    obtain ⟨chosen, rfl⟩ := taken
    exact sound.processDelayed chosen
  case confirmDelayed ids =>
    subst taken
    exact sound.confirmDelayed ids
  case claimOrphans aged orphaned =>
    subst taken
    exact sound.claimOrphans aged orphaned
  case retire sliceId =>
    obtain ⟨handed, taken⟩ := taken
    cases mem : decodeId sliceId with
    | none =>
      rw [mem] at taken
      cases taken
      exact sound.stay
    | some pair =>
      rw [mem] at taken
      cases taken
      exact sound.retire handed mem
  case forget group =>
    subst taken
    exact sound.forget group

theorem Sound.run {actions : List Action}
    (run : Run.exec Coalesce.step s actions = some s') : Next s s' := by
  refine Run.invariant ?_ sound.stay run
  exact fun _ _ _ before taken => before.trans (before.sound.step taken)

end

/-- Publishing the slice adds no mapping: it fails or finds it published. -/
def PublicationIdle (s : System) (id : Nat) : Prop :=
  ∀ ino chunkId slice newSize compactLocked store, slice.sliceId = id →
    s.store.writeWithCoalescedReservation ino chunkId slice newSize true compactLocked = .ok store →
    store.db.sliceMeta = s.store.db.sliceMeta

theorem publicationIdle_of_handed (sound : Sound s) (handed : id ∈ s.handed) :
    PublicationIdle s id := by
  intro ino chunkId slice newSize compactLocked store same done
  cases mem : decodeId id with
  | none =>
    obtain ⟨_, group, slot, _, decoded, _⟩ | ⟨group, slot, published⟩ := publish_ok done
    · rw [same, mem] at decoded
      cases decoded
    have decoded := published.decoded
    rw [same, mem] at decoded
    cases decoded
  | some pair =>
    exact publish_idle (sound.condemned mem (.handed handed)).1 same done

/-- In every run: a group whose object may be deleted has no mapped member; a member claimed as an
orphan or handed to a collector is not mapped by a later publication; nor is a member whose
publication has returned. -/
theorem coalesced_group_lifecycle {actions : List Action}
    (run : Run.exec step System.init actions = some s) :
    (∀ group ∈ s.doomed, ∀ slot id, encodeId group slot = some id →
      ∀ row ∈ s.store.db.sliceMeta, row.sliceId ≠ id) ∧
    (∀ id ∈ s.handed, PublicationIdle s id) ∧
    ∀ ino chunkId slice newSize compactLocked store,
      s.store.writeWithCoalescedReservation ino chunkId slice newSize true compactLocked =
        .ok store →
      wellSized slice → ∀ later final,
      Run.exec step { s with store := store } later = some final →
        PublicationIdle final slice.sliceId := by
  have sound := (sound_init.run run).sound
  refine ⟨?_, fun id handed => publicationIdle_of_handed sound handed, ?_⟩
  · intro group doomed slot id encoded row listed same
    have mem := decodeId_encodeId encoded
    exact (sound.condemned mem (.doomed mem doomed)).2
      ⟨row, listed, same⟩
  intro ino chunkId slice newSize compactLocked store done sized later final rest
  obtain ⟨group, slot, decoded, spent⟩ : ∃ group slot,
      decodeId slice.sliceId = some (group, slot) ∧
      Spent { s with store := store } slice.sliceId := by
    obtain ⟨rfl, group, slot, bits, decoded, found, bit⟩ | ⟨group, slot, published⟩ :=
      publish_ok done
    · exact ⟨group, slot, decoded,
        sound.touched decoded (.published decoded found bit)⟩
    · exact ⟨group, slot, published.decoded, published.spent sound⟩
  have next : Next s { s with store := store } := by
    have published : Next s (s.commit
        (s.store.writeWithCoalescedReservation ino chunkId slice newSize true compactLocked)) :=
      sound.publish sized
    rwa [done] at published
  have later := (next.sound.run rest).calm.spent decoded spent
  exact fun _ _ _ _ _ _ same published => publish_idle later same published

/-- A group of two: one member is published and truncated away again, the other is claimed as an
orphan. -/
def pairRun : List Action :=
  let first := 2 ^ 52 + 32
  let second := 2 ^ 52 + 33
  let chunk := 7 * 10 ^ 9
  [.createFile 7, .nextId, .register 1 [(first, chunk, 10), (second, chunk, 5)],
    .publish 7 chunk ⟨first, chunk, 0, 10⟩ 10 false,
    .claimOrphans [2] [], .retire second, .truncate 7 0 100, .selectDelayed [1],
    .processDelayed [⟨1, first, chunk, 0, 10, .pending⟩], .retire first, .forget 1]

theorem coalesced_group_lifecycle_pair : ∃ s, Run.exec step System.init pairRun = some s ∧
    s.doomed = [1] ∧ (∀ row ∈ s.store.db.sliceMeta, row.sliceId ≠ 2 ^ 52 + 32) ∧
    PublicationIdle s (2 ^ 52 + 33) := by
  have run : Run.exec step System.init pairRun = some _ := rfl
  have lifecycle := coalesced_group_lifecycle run
  refine ⟨_, run, rfl, ?_, ?_⟩
  · exact lifecycle.1 1 (mem_singleton_self 1) 0 (2 ^ 52 + 32) (by decide)
  · exact lifecycle.2.1 (2 ^ 52 + 33) (by decide)

end BrewFs.Meta.Database.Coalesce
