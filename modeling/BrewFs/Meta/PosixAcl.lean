import Mathlib.Data.List.Pairwise
import Mathlib.Tactic.SplitIfs

/-! `meta/posix_acl.rs`: the access check of a POSIX ACL. -/

namespace BrewFs.Meta

open List

/-- The tags 1, 2, 4, 8, 16 and 32 of the xattr. -/
inductive AclTag where
  | userObj
  | user
  | groupObj
  | group
  | mask
  | other
deriving DecidableEq, Repr

structure AclEntry where
  tag : AclTag
  permissions : Nat
  id : Nat
deriving DecidableEq, Repr

/-- The entries as `decode` accepts them: one for each tag, and for each identity of a named tag;
the base entries; a mask beside named ones. Nothing reads their order or the placeholder identity of
an unnamed one. -/
structure PosixAcl where
  entries : List AclEntry
  distinct : entries.Pairwise fun a b => a.tag = b.tag → a.tag ∈ [.user, .group] ∧ a.id ≠ b.id
  small : ∀ entry ∈ entries, entry.permissions ≤ 7
  base : ∀ tag ∈ [.userObj, .groupObj, .other], ∃ entry ∈ entries, entry.tag = tag
  masked : (∃ entry ∈ entries, entry.tag ∈ [.user, .group]) → ∃ entry ∈ entries, entry.tag = .mask

namespace PosixAcl

variable (acl : PosixAcl) (owner owningGroup uid : Nat) (groups : List Nat) (requested : Nat)

def permission (tag : AclTag) : Nat :=
  (acl.entries.find? fun entry => entry.tag = tag).elim 0 (·.permissions)

def modeBits : Nat :=
  let group := if acl.entries.any fun entry => entry.tag = .mask then acl.permission .mask
    else acl.permission .groupObj
  acl.permission .userObj <<< 6 ||| group <<< 3 ||| acl.permission .other

def mask : Nat := (acl.entries.find? fun entry => entry.tag = .mask).elim 7 (·.permissions)

def userAccessMode : Option Nat :=
  if uid = owner then some (acl.permission .userObj)
  else if acl.modeBits &&& 0o070 = 0 then none
  else (acl.entries.find? fun entry => entry.tag = .user ∧ entry.id = uid).map
    (·.permissions &&& acl.mask)

def allows (mode : Nat) : Bool := mode &&& requested = requested

/-- An entry for one of the caller's groups. -/
def matchesGroup (entry : AclEntry) : Bool :=
  (entry.tag = .groupObj && groups.contains owningGroup) ||
    (entry.tag = .group && groups.contains entry.id)

/-- The loop: the first matching entry that grants everything ends it. -/
def groupLoop (mask other : Nat) : List AclEntry → Bool → Bool
  | [], matched => !matched && allows requested other
  | entry :: rest, matched =>
    if matchesGroup owningGroup groups entry then
      if allows requested (entry.permissions &&& mask) then true
      else groupLoop mask other rest true
    else groupLoop mask other rest matched

def allowsAccess : Bool :=
  match acl.userAccessMode owner uid with
  | some mode => allows requested mode
  | none =>
    if acl.modeBits &&& 0o070 = 0 then
      allows requested (if groups.contains owningGroup then 0 else acl.permission .other)
    else groupLoop owningGroup groups requested acl.mask (acl.permission .other) acl.entries false

/-! ### The algorithm of POSIX.1e -/

/-- One entry of this kind grants all that is requested. -/
def Grants (kind : AclEntry → Prop) (view : Nat → Nat) : Prop :=
  ∃ entry ∈ acl.entries, kind entry ∧ allows requested (view entry.permissions) = true

/-- The first class with an entry for the caller decides. -/
def PosixAllows : Prop :=
  let named (entry : AclEntry) := entry.tag = .user ∧ entry.id = uid
  let grouped (entry : AclEntry) := matchesGroup owningGroup groups entry = true
  if uid = owner then acl.Grants requested (·.tag = .userObj) id
  else if ∃ entry ∈ acl.entries, named entry then acl.Grants requested named (· &&& acl.mask)
  else if ∃ entry ∈ acl.entries, grouped entry then acl.Grants requested grouped (· &&& acl.mask)
  else acl.Grants requested (·.tag = .other) id

variable {acl owner owningGroup uid groups requested} {kind : AclEntry → Prop} {view : Nat → Nat}

/-- Where one entry is of the kind, the one found decides. -/
theorem grants_of_found [DecidablePred kind] {entry : AclEntry}
    (found : acl.entries.find? (fun entry => kind entry) = some entry)
    (single : ∀ a b, kind a → kind b → a.tag = b.tag ∧ (a.tag ∈ [.user, .group] → a.id = b.id)) :
    acl.Grants requested kind view ↔ allows requested (view entry.permissions) = true := by
  have fits : kind entry := by simpa using find?_some found
  have mem := mem_of_find?_eq_some found
  refine ⟨?_, fun granted => ⟨entry, mem, fits, granted⟩⟩
  rintro ⟨other, listed, alike, granted⟩
  have : Std.Symm fun a b : AclEntry => a.tag = b.tag → a.tag ∈ [.user, .group] ∧ a.id ≠ b.id :=
    ⟨fun a b apart tag => ⟨tag ▸ (apart tag.symm).1, (apart tag.symm).2.symm⟩⟩
  obtain ⟨tag, same⟩ := single other entry alike fits
  have unique : other = entry := by
    by_contra different
    obtain ⟨named, apart⟩ := acl.distinct.forall listed mem different tag
    exact apart (same named)
  rwa [unique] at granted

theorem grants_base {tag : AclTag} (base : tag ∈ [.userObj, .groupObj, .other]) :
    acl.Grants requested (·.tag = tag) id ↔ allows requested (acl.permission tag) = true := by
  have unnamed : ∀ tag ∈ [AclTag.userObj, .groupObj, .other], tag ∉ [AclTag.user, .group] := by
    decide
  unfold permission
  cases found : acl.entries.find? fun entry => entry.tag = tag with
  | none =>
    obtain ⟨entry, mem, rfl⟩ := acl.base tag base
    simpa using find?_eq_none.mp found entry mem
  | some entry =>
    refine grants_of_found found fun a b first second => ⟨first.trans second.symm, fun named => ?_⟩
    exact absurd (first ▸ named) (unnamed tag base)

theorem groupLoop_iff {mask other : Nat} {entries : List AclEntry} {matched : Bool} :
    groupLoop owningGroup groups requested mask other entries matched = true ↔
      (∃ entry ∈ entries, matchesGroup owningGroup groups entry = true ∧
        allows requested (entry.permissions &&& mask) = true) ∨
      (matched = false ∧ ¬ ∃ entry ∈ entries, matchesGroup owningGroup groups entry = true) ∧
        allows requested other = true := by
  induction entries generalizing matched with
  | nil => simp [groupLoop]
  | cons entry rest ih =>
    simp only [groupLoop]
    split
    · next here =>
      split
      · next granted => simp [here, granted]
      · next denied => simp [ih, here, denied]
    · next apart => simp [ih, apart]

theorem Grants.mono {sub : Nat} (part : sub &&& requested = sub)
    (granted : acl.Grants requested kind view) : acl.Grants sub kind view := by
  obtain ⟨entry, mem, fits, granted⟩ := granted
  refine ⟨entry, mem, fits, ?_⟩
  simp only [allows, decide_eq_true_eq] at granted ⊢
  rw [← part, Nat.and_comm sub, ← Nat.and_assoc, granted]

theorem allowsAccess_posix (reached : acl.modeBits &&& 0o070 ≠ 0) :
    acl.allowsAccess owner owningGroup uid groups requested = true ↔
      acl.PosixAllows owner owningGroup uid groups requested := by
  unfold allowsAccess userAccessMode PosixAllows
  by_cases own : uid = owner
  · simp only [if_pos own]
    exact (grants_base (by simp)).symm
  rw [if_neg own, if_neg own, if_neg reached, if_neg reached]
  cases found : acl.entries.find? fun entry => entry.tag = .user ∧ entry.id = uid with
  | some entry =>
    have fits : entry.tag = .user ∧ entry.id = uid := by simpa using find?_some found
    rw [if_pos ⟨entry, mem_of_find?_eq_some found, fits⟩, grants_of_found found]
    · rfl
    · exact fun a b first second =>
        ⟨first.1.trans second.1.symm, fun _ => first.2.trans second.2.symm⟩
  | none =>
    rw [if_neg (by simpa using found), Option.map_none, groupLoop_iff]
    by_cases grouped : ∃ entry ∈ acl.entries, matchesGroup owningGroup groups entry = true
    · rw [if_pos grouped]
      exact ⟨fun granted => granted.resolve_right fun none => none.1.2 grouped, .inl⟩
    rw [if_neg grouped, grants_base (by simp)]
    refine ⟨fun granted => ?_, fun granted => .inr ⟨⟨rfl, grouped⟩, granted⟩⟩
    obtain ⟨entry, mem, here, _⟩ | ⟨_, granted⟩ := granted
    · exact absurd ⟨entry, mem, here⟩ grouped
    · exact granted

theorem allowsAccess_closed (closed : acl.modeBits &&& 0o070 = 0) :
    acl.allowsAccess owner owningGroup uid groups requested = true ↔
      if uid = owner then acl.Grants requested (·.tag = .userObj) id
      else if owningGroup ∈ groups then requested = 0
      else acl.Grants requested (·.tag = .other) id := by
  rw [grants_base (by simp), grants_base (by simp)]
  simp only [allowsAccess, userAccessMode, closed]
  by_cases own : uid = owner
  · simp only [if_pos own]
  · by_cases mem : owningGroup ∈ groups <;> simp [own, mem, allows, eq_comm]

/-- Where the mode's group bits are not all zero the check is the one of POSIX.1e. Where they are,
as in Linux, the named entries are passed over and the owning group gets nothing. A granted request
grants every part of it. -/
theorem allowsAccess_spec (acl : PosixAcl) (owner owningGroup uid : Nat) (groups : List Nat)
    (requested : Nat) :
    (acl.modeBits &&& 0o070 ≠ 0 →
      (acl.allowsAccess owner owningGroup uid groups requested = true ↔
        acl.PosixAllows owner owningGroup uid groups requested)) ∧
    (acl.modeBits &&& 0o070 = 0 →
      (acl.allowsAccess owner owningGroup uid groups requested = true ↔
        if uid = owner then acl.Grants requested (·.tag = .userObj) id
        else if owningGroup ∈ groups then requested = 0
        else acl.Grants requested (·.tag = .other) id)) ∧
    ∀ sub, sub &&& requested = sub →
      acl.allowsAccess owner owningGroup uid groups requested = true →
      acl.allowsAccess owner owningGroup uid groups sub = true := by
  refine ⟨allowsAccess_posix, allowsAccess_closed, fun sub part granted => ?_⟩
  by_cases closed : acl.modeBits &&& 0o070 = 0
  · rw [allowsAccess_closed closed] at granted ⊢
    split_ifs at granted ⊢
    · exact granted.mono part
    · simpa [granted] using part.symm
    · exact granted.mono part
  · rw [allowsAccess_posix closed, PosixAllows] at granted ⊢
    split_ifs at granted ⊢ <;> exact granted.mono part

/-- A named user whose entry is masked away gets what others get. -/
theorem masked_user_falls_through :
    let undefined := 4294967295
    let acl : PosixAcl := ⟨[⟨.userObj, 7, undefined⟩, ⟨.user, 7, 1234⟩, ⟨.groupObj, 7, undefined⟩,
      ⟨.mask, 0, undefined⟩, ⟨.other, 4, undefined⟩], by decide, by decide, by decide, by decide⟩
    acl.allowsAccess 1000 2000 1234 [] 4 = true ∧ ¬ acl.PosixAllows 1000 2000 1234 [] 4 := by
  refine ⟨by decide, ?_⟩
  simp [PosixAllows, Grants, PosixAcl.mask, allows]

end PosixAcl

end BrewFs.Meta
