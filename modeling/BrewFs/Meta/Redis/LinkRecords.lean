import BrewFs.Meta.Redis.Scripts

/-! What one file's node and link-parent set say about its directory entries, and how each
script's change of the two keeps it. -/

namespace BrewFs.Meta.Redis

open List StoredNode Text
open BrewFs.Text (Bytes)

/-! ### Members and their three readings -/

theorem colon_notMem_decimal (n : Nat) : colon ∉ decimal n :=
  fun mem => absurd (decimal_isDigit n colon mem) (by decide)

theorem splitMember_member (place : Place) :
    splitMember place.member = some (place.1, place.2.val) := by
  unfold splitMember Place.member member
  rw [splitFirst_append colon _ _ (colon_notMem_decimal place.1)]
  simp [decimal_ne_nil, place.2.property.1, toNumber_decimal]

theorem matchMember_member (place : Place) :
    matchMember place.member = some (place.1, place.2.val) := by
  have digits := decimal_isDigit place.1
  have stop : isDigit colon = false := rfl
  unfold matchMember Place.member member
  rw [dropWhile_append_of_pos digits, takeWhile_append_of_pos digits]
  simp [stop, place.2.property.1, toNumber_decimal]

theorem Place.member_injective : Function.Injective Place.member := by
  intro first second same
  have split := splitMember_member first
  rw [same, splitMember_member] at split
  obtain ⟨parents, names⟩ := Prod.ext_iff.mp (Option.some.inj split)
  exact Prod.ext parents.symm (Subtype.ext names.symm)

theorem splitMember_member_iff (place source : Place) :
    splitMember place.member = some (source.1, source.2.val) ↔ place = source := by
  rw [splitMember_member]
  constructor
  · intro same
    obtain ⟨parents, names⟩ := Prod.ext_iff.mp (Option.some.inj same)
    exact Prod.ext parents (Subtype.ext names)
  · rintro rfl
    rfl

/-- Splitting at every run of colons recovers only a name with no colon first, last or doubled. -/
theorem restoredPath_member (node : StoredNode) (place : Place)
    (separated : Text.Separated colon place.2.val) :
    restoredPath node place.member = (place.1, place.2.val) := by
  have joined := separated.join_fields colon place.2.property.1
  have pieces : fields colon place.member =
      decimal place.1 :: fields colon place.2.val :=
    fields_append colon _ _ (colon_notMem_decimal place.1) (decimal_ne_nil place.1)
  unfold restoredPath
  rw [pieces]
  cases fields : fields colon place.2.val with
  | nil =>
    rw [fields] at joined
    exact absurd joined.symm place.2.property.1
  | cons first rest =>
    rw [fields] at joined
    simp [joined, toNumber_decimal]

/-! ### Sets as lists -/

theorem mem_sadd (members : List Bytes) (text other : Bytes) :
    other ∈ sadd members text ↔ other ∈ members ∨ other = text := by
  unfold sadd
  split
  · rename_i present
    constructor
    · exact .inl
    rintro (mem | rfl)
    · exact mem
    · exact present
  · simp

theorem nodup_sadd {members : List Bytes} (nodup : members.Nodup) (text : Bytes) :
    (sadd members text).Nodup := by
  unfold sadd
  split
  · exact nodup
  rename_i absent
  rw [nodup_append]
  refine ⟨nodup, nodup_singleton text, ?_⟩
  intro first mem second here same
  rw [mem_singleton] at here
  exact absent (here ▸ same ▸ mem)

theorem foldl_sadd_spec (texts : List Bytes) : ∀ (members : List Bytes), members.Nodup →
    (texts.foldl sadd members).Nodup ∧
      ∀ text, text ∈ texts.foldl sadd members ↔ text ∈ members ∨ text ∈ texts := by
  induction texts with
  | nil => exact fun members nodup => ⟨nodup, by simp⟩
  | cons first rest ih =>
    intro members nodup
    obtain ⟨nodup', mem_iff⟩ := ih (sadd members first) (nodup_sadd nodup first)
    refine ⟨nodup', fun text => ?_⟩
    rw [foldl_cons, mem_iff, mem_sadd, mem_cons, or_assoc]

theorem mem_srem (members : List Bytes) (text other : Bytes) :
    other ∈ srem members text ↔ other ∈ members ∧ other ≠ text := by
  simp [srem]

/-! ### The record of one file -/

/-- The node counts its entries, and is deleted without any. -/
structure Counted (node : StoredNode) (links : Finset Place) : Prop where
  count : node.attr.nlink = links.card
  deleted : node.deleted = true ↔ node.attr.nlink = 0

/-- A file's node and link-parent set describe exactly its entries: one entry inline in the
node, several in the set. -/
structure Booked (node : StoredNode) (members : List Bytes) (links : Finset Place) : Prop
    extends Counted node links where
  unlinked : node.attr.nlink = 0 → members = []
  single : node.attr.nlink = 1 →
    ∃ place, links = {place} ∧ node.parent = place.1 ∧ node.name = place.2.val ∧ members = []
  several : 1 < node.attr.nlink → ∀ text, text ∈ members ↔ ∃ place ∈ links, text = place.member
  nodup : members.Nodup

namespace Counted

variable {node : StoredNode} {links : Finset Place}

theorem nlink_nonneg (counted : Counted node links) : 0 ≤ node.attr.nlink := by
  rw [counted.count]
  exact Int.natCast_nonneg _

variable {place : Place}

section

variable (counted : Counted node links)

include counted

theorem nlink_pos (mem : place ∈ links) : 0 < node.attr.nlink := by
  rw [counted.count]
  exact_mod_cast Finset.card_pos.mpr ⟨place, mem⟩

theorem card_erase (mem : place ∈ links) :
    ((links.erase place).card : Int) = node.attr.nlink - 1 := by
  have pos := counted.nlink_pos mem
  rw [counted.count] at pos ⊢
  rw [Finset.card_erase_of_mem mem]
  omega

theorem add (now : Int) (fresh : place ∉ links)
    (alive : ¬ (node.deleted = true ∨ node.attr.nlink = 0)) :
    Counted (node.addLink now) (insert place links) := by
  obtain ⟨live, linked⟩ := not_or.mp alive
  have nonneg := counted.nlink_nonneg
  constructor
  · rw [Finset.card_insert_of_notMem fresh]
    simp [addLink, counted.count]
  constructor
  · exact fun deleted => absurd deleted live
  intro zero
  change node.attr.nlink + 1 = 0 at zero
  omega

theorem drop (members : List Bytes) (now : Int)
    (mem : place ∈ links) : Counted (node.dropLink members place now) (links.erase place) := by
  have pos := counted.nlink_pos mem
  have live : node.deleted = false := by
    rw [← Bool.not_eq_true, counted.deleted]
    omega
  have less : unlinkedNlink node.attr.nlink = node.attr.nlink - 1 := if_pos pos
  constructor
  · rw [counted.card_erase mem]
    simp [dropLink, less]
  · simp [dropLink, live]

theorem dropTarget (remaining : Ino × Bytes) (now : Int)
    (mem : place ∈ links) : Counted (node.dropTarget remaining now) (links.erase place) := by
  have pos := counted.nlink_pos mem
  have live : node.deleted = false := by
    rw [← Bool.not_eq_true, counted.deleted]
    omega
  have card := counted.card_erase mem
  unfold StoredNode.dropTarget
  dsimp only
  split
  · constructor
    · show (0 : Int) = _
      omega
    · simp
  constructor
  · exact card.symm
  · simp only [live, false_iff, Bool.false_eq_true]
    omega

theorem move (now : Int) {source target : Place} (mem : source ∈ links) (fresh : target ∉ links) :
    Counted (node.moveLink target now) (insert target (links.erase source)) := by
  constructor
  · have outside : target ∉ links.erase source := fun present =>
      fresh (Finset.mem_of_mem_erase present)
    rw [Finset.card_insert_of_notMem outside]
    push_cast
    rw [counted.card_erase mem]
    simp [moveLink]
  · exact counted.deleted

end

end Counted

namespace Booked

variable {node : StoredNode} {members members' : List Bytes} {links : Finset Place}

theorem fresh (node : StoredNode) (place : Place) (nlink : node.attr.nlink = 1)
    (live : node.deleted = false) (parent : node.parent = place.1)
    (name : node.name = place.2.val) :
    Booked node [] {place} where
  count := by simp [nlink]
  deleted := by simp [live, nlink]
  unlinked := by simp
  single := fun _ => ⟨place, rfl, parent, name, rfl⟩
  several := by simp [nlink]
  nodup := .nil

theorem links_eq_empty (booked : Booked node members links) (zero : node.attr.nlink = 0) :
    links = ∅ := by
  have card := booked.count
  exact Finset.card_eq_zero.mp (by omega)

variable {place : Place}

section

variable (booked : Booked node members links)

include booked

theorem add (now : Int) (fresh : place ∉ links)
    (alive : ¬ (node.deleted = true ∨ node.attr.nlink = 0)) :
    Booked (node.addLink now) (addLinkMembers node members place) (insert place links) := by
  have nonneg := booked.nlink_nonneg
  have counted := booked.toCounted.add now fresh alive
  have nlink : (node.addLink now).attr.nlink = node.attr.nlink + 1 := rfl
  refine { counted with unlinked := ?_, single := ?_, several := ?_, nodup := ?_ }
  · omega
  · omega
  · intro _ text
    unfold addLinkMembers
    rw [mem_sadd]
    by_cases one : node.attr.nlink = 1
    · obtain ⟨first, only, parent, name, empty⟩ := booked.single one
      have inline : member node.parent node.name = first.member := by rw [parent, name]; rfl
      simp [one, mem_sadd, empty, only, inline, or_comm]
    · have several := booked.several (by omega) text
      simp [one, several, or_comm]
  · apply nodup_sadd
    split
    · exact nodup_sadd booked.nodup _
    · exact booked.nodup

/-- Two links are the removed one and one other. -/
theorem other_link (two : node.attr.nlink = 2)
    (mem : place ∈ links) : ∃ other, links.erase place = {other} := by
  have card := booked.toCounted.card_erase mem
  exact Finset.card_eq_one.mp (by omega)

theorem mem_remaining (more : 1 < node.attr.nlink) (place : Place) (text : Bytes) :
    (text ∈ members ∧ text ≠ place.member) ↔ ∃ other ∈ links.erase place, text = other.member := by
  rw [booked.several more text]
  constructor
  · rintro ⟨⟨other, mem, rfl⟩, differs⟩
    refine ⟨other, Finset.mem_erase.mpr ⟨?_, mem⟩, rfl⟩
    rintro rfl
    exact differs rfl
  rintro ⟨other, mem, rfl⟩
  obtain ⟨differs, inside⟩ := Finset.mem_erase.mp mem
  exact ⟨⟨other, inside, rfl⟩, fun same => differs (Place.member_injective same)⟩

theorem remaining_eq (two : node.attr.nlink = 2) {other : Place}
    (rest : links.erase place = {other}) : remainingMembers members place = [other.member] := by
  have mem_iff : ∀ text, text ∈ remainingMembers members place ↔ text = other.member := by
    intro text
    have left := booked.mem_remaining (by omega) place text
    simpa [remainingMembers, rest] using left
  have nodup : (remainingMembers members place).Nodup := booked.nodup.filter _
  exact perm_singleton.mp ((perm_ext_iff_of_nodup nodup (nodup_singleton _)).mpr
    (by simpa using mem_iff))

/-- `UNLINK_LUA` keeps the record, provided the name it restores from the set survives the cut at
its colons. -/
theorem drop (now : Int) (mem : place ∈ links)
    (safe : node.attr.nlink = 2 → ∀ other ∈ links.erase place, Text.Separated colon other.2.val) :
    Booked (node.dropLink members place now) (dropLinkMembers node members place)
      (links.erase place) := by
  have pos := booked.nlink_pos mem
  have less : unlinkedNlink node.attr.nlink = node.attr.nlink - 1 := if_pos pos
  have nlink : (node.dropLink members place now).attr.nlink = node.attr.nlink - 1 := less
  refine { booked.toCounted.drop members now mem with
    unlinked := ?_, single := ?_, several := ?_, nodup := ?_ }
  · intro zero
    obtain ⟨_, _, _, _, empty⟩ := booked.single (by omega)
    simp [dropLinkMembers, empty, srem]
  · intro one
    have two : node.attr.nlink = 2 := by omega
    obtain ⟨other, rest⟩ := booked.other_link two mem
    have remaining := booked.remaining_eq two rest
    have path := restoredPath_member node other
      (safe two other (by rw [rest]; exact Finset.mem_singleton_self other))
    have last : unlinkedNlink node.attr.nlink = 1 := by omega
    refine ⟨other, rest, ?_, ?_, ?_⟩
    · simp [dropLink, last, remaining, path]
    · simp [dropLink, last, remaining, path]
    · simp [dropLinkMembers, last, remaining]
  · intro more text
    have many : ¬ (unlinkedNlink node.attr.nlink = 1 ∧
        (remainingMembers members place).length = 1) := by omega
    rw [dropLinkMembers, if_neg many, mem_srem]
    exact booked.mem_remaining (by omega) place text
  · unfold dropLinkMembers
    split
    · exact .nil
    · exact booked.nodup.filter _

theorem dropTarget (now : Int) (mem : place ∈ links)
    (remaining : Ino × Bytes) (verified : node.attr.nlink = 2 →
      ∃ other ∈ links.erase place, remaining = (other.1, other.2.val)) :
    Booked (node.dropTarget remaining now) (dropTargetMembers node members place)
      (links.erase place) := by
  have pos := booked.nlink_pos mem
  have nlink : (node.dropTarget remaining now).attr.nlink = node.attr.nlink - 1 := by
    unfold StoredNode.dropTarget
    dsimp only
    split
    · show (0 : Int) = _
      omega
    · rfl
  refine { booked.toCounted.dropTarget remaining now mem with
    unlinked := ?_, single := ?_, several := ?_, nodup := ?_ }
  · intro zero
    exact if_pos (by omega)
  · intro one
    have two : node.attr.nlink = 2 := by omega
    obtain ⟨last, rest⟩ := booked.other_link two mem
    obtain ⟨other, other_mem, path⟩ := verified two
    have same : other = last := by
      rw [rest] at other_mem
      exact Finset.mem_singleton.mp other_mem
    subst same
    refine ⟨other, rest, ?_, ?_, if_pos (by omega)⟩ <;> simp [StoredNode.dropTarget, two, path]
  · intro more text
    rw [dropTargetMembers, if_neg (by omega), mem_srem]
    exact booked.mem_remaining (by omega) place text
  · unfold dropTargetMembers
    split
    · exact .nil
    · exact booked.nodup.filter _

/-- The path `RENAME_LUA` verifies for a replaced file with two links is the other one. -/
theorem survivingPath_spec (s : Store) (target : Ino)
    (two : node.attr.nlink = 2) (size : (members.length : Int) = node.attr.nlink)
    {path : Ino × Bytes} (found : survivingPath s target members place = .ok path) :
    ∃ other ∈ links.erase place, path = (other.1, other.2.val) := by
  obtain ⟨first, second, rfl⟩ := length_eq_two.mp (show members.length = 2 by omega)
  have distinct : first ≠ second := by simpa using booked.nodup
  have chosen : (if first = place.member then second else first) ∈ [first, second] ∧
      (if first = place.member then second else first) ≠ place.member := by
    by_cases here : first = place.member
    · rw [if_pos here]
      exact ⟨by simp, fun same => distinct (here.trans same.symm)⟩
    · rw [if_neg here]
      exact ⟨by simp, here⟩
  obtain ⟨other, other_mem, text⟩ := (booked.mem_remaining (by omega) place _).mp chosen
  refine ⟨other, other_mem, ?_⟩
  simp only [survivingPath, need, text, matchMember_member, Guard.bind_eq_ok,
    Guard.need_eq_ok, Guard.pure_eq_ok, Option.some.injEq] at found
  obtain ⟨read, rfl, _, _, rfl⟩ := found
  rfl

/-- Replacing the source's member leaves the other links' members and the target's. -/
theorem replaceMember_spec (more : 1 < node.attr.nlink) {source target : Place}
    (mem : source ∈ links) (replaced : replaceMember members source target = some members') :
    members'.Nodup ∧ ∀ text, text ∈ members' ↔
      ∃ place ∈ insert target (links.erase source), text = place.member := by
  unfold replaceMember at replaced
  dsimp only at replaced
  split at replaced
  · obtain rfl := Option.some.inj replaced
    obtain ⟨nodup, mem_iff⟩ := foldl_sadd_spec (members.map fun text =>
        if splitMember text = some (source.1, source.2.val) then target.member else text)
      [] .nil
    refine ⟨nodup, fun text => ?_⟩
    rw [mem_iff, mem_map]
    constructor
    · rintro (none | ⟨old, old_mem, rfl⟩)
      · cases none
      obtain ⟨place, place_mem, rfl⟩ := (booked.several more old).mp old_mem
      have here_iff := splitMember_member_iff place source
      by_cases here : place = source
      · exact ⟨target, Finset.mem_insert_self _ _, if_pos (here_iff.mpr here)⟩
      · exact ⟨place, Finset.mem_insert_of_mem (Finset.mem_erase.mpr ⟨here, place_mem⟩),
          if_neg fun found => here (here_iff.mp found)⟩
    · rintro ⟨place, place_mem, rfl⟩
      right
      obtain rfl | others := Finset.mem_insert.mp place_mem
      · refine ⟨source.member, (booked.several more _).mpr ⟨source, mem, rfl⟩, ?_⟩
        rw [if_pos ((splitMember_member_iff source source).mpr rfl)]
      obtain ⟨differs, inside⟩ := Finset.mem_erase.mp others
      refine ⟨place.member, (booked.several more _).mpr ⟨place, inside, rfl⟩, ?_⟩
      rw [if_neg (fun here => differs ((splitMember_member_iff place source).mp here))]
  · cases replaced

theorem move (now : Int) (file : node.kind ≠ .dir) {source target : Place} (mem : source ∈ links)
    (fresh : target ∉ links) (moved : moveLinkMembers node members source target = some members') :
    Booked (node.moveLink target now) members' (insert target (links.erase source)) := by
  have pos := booked.nlink_pos mem
  have nlink : (node.moveLink target now).attr.nlink = node.attr.nlink := rfl
  have inline_iff : node.inline = true ↔ node.attr.nlink = 1 := by
    simp [StoredNode.inline, file]
    omega
  unfold moveLinkMembers at moved
  by_cases one : node.attr.nlink = 1
  · obtain ⟨first, only, _, _, empty⟩ := booked.single one
    rw [if_pos (inline_iff.mpr one)] at moved
    obtain rfl := Option.some.inj moved
    have here : source = first := by
      rw [only] at mem
      exact Finset.mem_singleton.mp mem
    refine { booked.toCounted.move now mem fresh with
      unlinked := fun _ => empty, single := ?_, several := ?_, nodup := booked.nodup }
    · intro _
      refine ⟨target, ?_, ?_, ?_, empty⟩
      · simp [only, here]
      · simp [StoredNode.moveLink, inline_iff.mpr one]
      · simp [StoredNode.moveLink, inline_iff.mpr one]
    · omega
  · rw [if_neg (fun inline => one (inline_iff.mp inline))] at moved
    obtain ⟨nodup, mem_iff⟩ := booked.replaceMember_spec (by omega) mem moved
    refine { booked.toCounted.move now mem fresh with
      unlinked := ?_, single := ?_, several := fun _ => mem_iff, nodup := nodup }
    · omega
    · omega

end

end Booked

end BrewFs.Meta.Redis
