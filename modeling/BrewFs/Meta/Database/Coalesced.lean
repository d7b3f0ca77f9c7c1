import BrewFs.Chunk.Compact.Transactions
import BrewFs.Library.Guard
import Mathlib.Data.Nat.Bitwise

/-! `chunk/store/coalesce.rs` and its ledgers in the SQL store: several small slices share one
object, and a ledger row of the group says which of them are dead. -/

namespace BrewFs.Meta.Database.Coalesce

open BrewFs.Chunk
open Guard (bind_eq_ok check need need_eq_ok pure_eq_ok)
open Function (update)

/-! ### Slice ids of group members -/

def idFlag : Nat := 2 ^ 52

def maxMembers : Nat := 32

def encodeId (group slot : Nat) : Option Nat :=
  if (1 ≤ group ∧ group < 2 ^ 47) ∧ slot < maxMembers then some (idFlag ||| (group <<< 5) ||| slot)
  else none

def decodeId (id : Nat) : Option (Nat × Nat) :=
  if idFlag ≤ id ∧ id < idFlag * 2 then
    -- `id & !ID_FLAG`
    some ((id - (id &&& idFlag)) >>> 5, id &&& 31)
  else none

variable {id group slot : Nat}

theorem decodeId_eq_some : decodeId id = some (group, slot) ↔
    2 ^ 52 ≤ id ∧ id < 2 ^ 53 ∧ group = (id - 2 ^ 52) / 32 ∧ slot = id % 32 := by
  have flag : 2 ^ 52 ≤ id → id < 2 ^ 53 → id &&& 2 ^ 52 = 2 ^ 52 := by
    intro least below
    have set : id.testBit 52 = true := by
      rw [Nat.testBit_eq_decide_div_mod_eq, decide_eq_true_iff]
      omega
    rw [Nat.and_two_pow, set]
    rfl
  have low : id &&& 31 = id % 32 := Nat.and_two_pow_sub_one_eq_mod id 5
  unfold decodeId idFlag
  rw [low, Nat.shiftRight_eq_div_pow]
  constructor
  · intro decoded
    split at decoded
    · rename_i inside
      have upper : id < 2 ^ 53 := by omega
      rw [flag inside.1 upper, Option.some.injEq, Prod.mk.injEq] at decoded
      exact ⟨inside.1, upper, decoded.1.symm, decoded.2.symm⟩
    · cases decoded
  · rintro ⟨least, below, rfl, rfl⟩
    rw [if_pos ⟨least, by omega⟩, flag least below]

theorem encodeId_eq_some : encodeId group slot = some id ↔
    (1 ≤ group ∧ group < 2 ^ 47) ∧ slot < 32 ∧ id = 2 ^ 52 + 32 * group + slot := by
  have packed : group < 2 ^ 47 → slot < 32 →
      idFlag ||| group <<< 5 ||| slot = 2 ^ 52 + 32 * group + slot := by
    intro small inside
    have inner : group <<< 5 ||| slot = 32 * group + slot := by
      rw [← Nat.shiftLeft_add_eq_or_of_lt (show slot < 2 ^ 5 from inside)]
      omega
    have outer := Nat.two_pow_add_eq_or_of_lt (i := 52) (b := 32 * group + slot) (by omega) 1
    rw [Nat.mul_one] at outer
    rw [Nat.or_assoc, inner, idFlag]
    omega
  unfold encodeId maxMembers
  constructor
  · intro encoded
    obtain ⟨valid, ⟨⟩⟩ := Option.ite_none_right_eq_some.mp encoded
    exact ⟨valid.1, valid.2, packed valid.1.2 valid.2⟩
  · rintro ⟨valid, inside, rfl⟩
    rw [if_pos ⟨valid, inside⟩, packed valid.2 inside]

theorem decodeId_encodeId (encoded : encodeId group slot = some id) :
    decodeId id = some (group, slot) := by
  obtain ⟨⟨_, below⟩, inside, rfl⟩ := encodeId_eq_some.mp encoded
  rw [decodeId_eq_some]
  omega

theorem decodeId_slot (decoded : decodeId id = some (group, slot)) : slot < 32 := by
  obtain ⟨_, _, _, rfl⟩ := decodeId_eq_some.mp decoded
  omega

theorem decodeId_inj {other : Nat} (first : decodeId id = some (group, slot))
    (second : decodeId other = some (group, slot)) : id = other := by
  have left := decodeId_eq_some.mp first
  have right := decodeId_eq_some.mp second
  omega

/-! ### The ledgers -/

structure Store where
  db : Tables
  /-- The row `write_coalesce/{group}`: the member count above 32 bits of dead ones. -/
  ledger : Nat → Option Nat
  /-- The row `write_coalesce/{group}/published`: a bit per published member. -/
  published : Nat → Option Nat

inductive StoreError where
  | internal (message : String)
  | database
  | notFound (ino : Int)
  | continueRetry
deriving DecidableEq, Repr

/-- All of the `count` members are dead. -/
def allDead (bits count : Nat) : Bool := bits &&& (2 ^ 32 - 1) = (1 <<< count) - 1

/-- The pending reservations of a group's members. -/
def memberRows (seq : Nat) (members : List (Nat × Nat × Nat)) : List UncommittedRow :=
  members.zipIdx.map fun mem =>
    ⟨seq + mem.2, mem.1.1, mem.1.2.1, mem.1.2.2, .pending⟩

namespace Store

variable (s : Store)

/-- `register_coalesced_group`: a member is its id, chunk and length. -/
def registerCoalescedGroup (group : Nat) (members : List (Nat × Nat × Nat)) :
    Except StoreError Store := do
  check (members ≠ [] ∧ members.length ≤ 32) (StoreError.internal "invalid coalesced group")
  check (∀ mem ∈ members.zipIdx, encodeId group mem.2 = some mem.1.1 ∧
      mem.1.2.2 ≠ 0 ∧ mem.1.2.2 ≤ 65536)
    (StoreError.internal "invalid coalesced member")
  check (s.ledger group = none ∧ s.published group = none) StoreError.database
  let uncommitted := s.db.uncommitted
  return {
    db := { s.db with
      uncommitted :=
        ⟨uncommitted.rows ++ memberRows uncommitted.seq members, uncommitted.seq + members.length⟩ }
    ledger := update s.ledger group (some (members.length <<< 32))
    published := update s.published group (some 0) }

/-- `retire_coalesced_member`: whether the group is dead now; `none` for a forgotten one. -/
def retireCoalescedMember (group slot : Nat) : Except StoreError (Option Bool × Store) :=
  match s.ledger group with
  | none => .ok (none, s)
  | some bits =>
    let count := bits >>> 32
    if slot ≥ count ∨ count > 32 then .error (.internal "invalid coalesced retirement slot")
    else
      let updated := bits ||| (1 <<< slot)
      .ok (some (allDead updated count), { s with ledger := update s.ledger group (some updated) })

/-- `forget_coalesced_group` -/
def forgetCoalescedGroup (group : Nat) : Except StoreError Store := do
  check (∀ bits ∈ s.ledger group,
      ¬ (bits >>> 32 = 0 ∨ bits >>> 32 > 32 ∨ allDead bits (bits >>> 32) = false))
    (StoreError.internal "cannot forget live coalesced group")
  return { s with
    ledger := update s.ledger group none
    published := update s.published group none }

/-- Delete the matching rows; anything but exactly one is an error. -/
def takeOne (matching : UncommittedRow → Bool) (rows : List UncommittedRow) :
    Option (List UncommittedRow) :=
  if (rows.filter matching).length = 1 then some (rows.filter fun row => !matching row) else none

/-- The pending reservation of exactly this slice. -/
def reservationOf (slice : SliceDesc) (row : UncommittedRow) : Bool :=
  row.sliceId = slice.sliceId && row.chunkId = slice.chunkId && row.size = slice.length &&
    row.status = .pending

/-- `consume_coalesced_reservation`: false for a published member. -/
def consumeCoalescedReservation (slice : SliceDesc) : Except StoreError (Bool × Store) := do
  let mem ← need (decodeId slice.sliceId) (StoreError.internal "invalid coalesced ID")
  let bits ← need (s.ledger mem.1) (StoreError.internal "coalesced ledger missing")
  check (¬ (mem.2 ≥ bits >>> 32 ∨ bits &&& (1 <<< mem.2) ≠ 0))
    (StoreError.internal "coalesced member retired")
  let published ← need (s.published mem.1)
    (StoreError.internal "coalesced publication ledger missing")
  if published &&& (1 <<< mem.2) ≠ 0 then return (false, s)
  else do
    let rows ← need (takeOne (reservationOf slice) s.db.uncommitted.rows)
      (StoreError.internal "coalesced reservation lost")
    return (true, { s with
      db := { s.db with uncommitted := { s.db.uncommitted with rows := rows } }
      published := update s.published mem.1 (some (published ||| (1 <<< mem.2))) })

/-- `write_with_coalesced_reservation`; `compactLocked`: a compaction of the chunk holds its global
lock. -/
def writeWithCoalescedReservation (ino : Int) (chunkId : Nat) (slice : SliceDesc)
    (newSize : Nat) (coalesced compactLocked : Bool) : Except StoreError Store := do
  check (compactLocked = false) StoreError.continueRetry
  let reserved ← if coalesced then s.consumeCoalescedReservation slice else pure (true, s)
  if reserved.1 = false then return reserved.2
  else do
    let db ← need (Database.write reserved.2.db ino chunkId slice newSize) (StoreError.notFound ino)
    return { reserved.2 with db := db }

end Store

/-! ### Ledger bits -/

variable {bits : Nat}

theorem and_bit_eq_zero : bits &&& (1 <<< slot) = 0 ↔ bits.testBit slot = false := by
  rw [Nat.one_shiftLeft, Nat.and_two_pow]
  cases bits.testBit slot <;> simp

theorem testBit_mark (bits slot other : Nat) :
    (bits ||| (1 <<< slot)).testBit other = (bits.testBit other || decide (slot = other)) := by
  rw [Nat.testBit_or, Nat.one_shiftLeft, Nat.testBit_two_pow]

theorem count_mark (inside : slot < 32) : (bits ||| (1 <<< slot)) >>> 32 = bits >>> 32 := by
  have small : (1 <<< slot) >>> 32 = 0 := by
    rw [Nat.one_shiftLeft, Nat.shiftRight_eq_div_pow]
    exact Nat.div_eq_of_lt (Nat.pow_lt_pow_right (by decide) inside)
  rw [Nat.shiftRight_or_distrib, small, Nat.or_zero]

theorem allDead_bit {count : Nat} (dead : allDead bits count = true) (inside : slot < count) :
    bits.testBit slot = true := by
  have same : bits &&& (2 ^ 32 - 1) = 2 ^ count - 1 := by
    simpa only [allDead, decide_eq_true_iff, Nat.one_shiftLeft] using dead
  have bit : (bits &&& (2 ^ 32 - 1)).testBit slot = (2 ^ count - 1).testBit slot := by rw [same]
  rw [Nat.testBit_and, Nat.testBit_two_pow_sub_one, Nat.testBit_two_pow_sub_one,
    decide_eq_true inside, Bool.and_eq_true] at bit
  exact bit.1

/-! ### What the transactions do -/

theorem takeOne_spec {matching : UncommittedRow → Bool} {rows left : List UncommittedRow}
    (taken : Store.takeOne matching rows = some left) :
    (∃ row ∈ rows, matching row = true) ∧ left = rows.filter fun row => !matching row := by
  obtain ⟨single, ⟨⟩⟩ := Option.ite_none_right_eq_some.mp taken
  refine ⟨?_, rfl⟩
  obtain ⟨row, only⟩ := List.length_eq_one_iff.mp single
  have mem : row ∈ rows.filter matching := by
    rw [only]
    exact List.mem_singleton_self row
  exact ⟨row, List.mem_filter.mp mem⟩

/-- A publication that writes: what was there before and after. -/
structure Published (s s' : Store) (ino : Int) (chunkId : Nat) (slice : SliceDesc) (newSize : Nat)
    (group slot : Nat) : Prop where
  decoded : decodeId slice.sliceId = some (group, slot)
  reserved : ∃ row ∈ s.db.uncommitted.rows, Store.reservationOf slice row = true
  uncommitted : s'.db.uncommitted.rows =
    s.db.uncommitted.rows.filter fun row => !Store.reservationOf slice row
  sliceMeta : s'.db.sliceMeta = s.db.sliceMeta ++ [{ slice with chunkId := chunkId }]
  delayed : s'.db.delayed = s.db.delayed
  ledger : s'.ledger = s.ledger
  published : ∃ bits, s.published group = some bits ∧
    s'.published = update s.published group (some (bits ||| (1 <<< slot)))

/-- A publication finds the member published, or publishes it. -/
theorem publish_ok {s s' : Store} {ino : Int} {chunkId : Nat} {slice : SliceDesc} {newSize : Nat}
    {compactLocked : Bool}
    (ok : s.writeWithCoalescedReservation ino chunkId slice newSize true compactLocked = .ok s') :
    (s' = s ∧ ∃ group slot bits, decodeId slice.sliceId = some (group, slot) ∧
      s.published group = some bits ∧ bits.testBit slot = true) ∨
    ∃ group slot, Published s s' ino chunkId slice newSize group slot := by
  simp only [Store.writeWithCoalescedReservation, Store.consumeCoalescedReservation,
    bind_eq_ok, Guard.check_eq_ok, need_eq_ok, exists_const, if_true] at ok
  obtain ⟨_, ⟨fresh, middle⟩, ⟨⟨group, slot⟩, decoded, bits, _, _, published, found, marked⟩, ok⟩ :=
    ok
  split at marked
  · rename_i repeated
    cases (pure_eq_ok _ _).mp marked
    rw [if_pos rfl, pure_eq_ok] at ok
    refine .inl ⟨ok.symm, group, slot, published, decoded, found, ?_⟩
    rw [ne_eq, and_bit_eq_zero, Bool.not_eq_false] at repeated
    exact repeated
  simp only [bind_eq_ok, need_eq_ok] at marked
  obtain ⟨rows, taken, rfl, rfl⟩ := marked
  simp only [Bool.true_eq_false, if_false, bind_eq_ok, need_eq_ok,
    pure_eq_ok] at ok
  obtain ⟨db, written, rfl⟩ := ok
  obtain ⟨fileSize, _, rfl⟩ := Option.map_eq_some_iff.mp written
  obtain ⟨reserved, left⟩ := takeOne_spec taken
  exact .inr ⟨group, slot, decoded, reserved, left, rfl, rfl, rfl, published, found, rfl⟩

end BrewFs.Meta.Database.Coalesce
