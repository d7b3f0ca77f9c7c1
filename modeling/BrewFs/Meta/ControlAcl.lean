import Mathlib.Data.Nat.Bitwise

/-! The two evaluators of control ACLs in `meta/posix_acl.rs`. -/

namespace BrewFs.Meta.ControlAcl

structure ControlAclEntry where
  scope : String
  tag : String
  id : Option Nat
  perm : List Char

/-- One position of `control_acl_perm_bits`. -/
def permBit (ch letter : Char) (bit : Nat) : Option Nat :=
  if ch = letter then some bit else if ch = '-' then some 0 else none

def permBits : List Char → Option Nat
  | [r, w, x] => do
    return (← permBit r 'r' 4) ||| (← permBit w 'w' 2) ||| (← permBit x 'x' 1)
  | _ => none

/-- `mode & requested == requested` -/
def grants (requested mode : Nat) : Bool := mode &&& requested == requested

section

variable (entries : List ControlAclEntry) (ownerUid ownerGid uid : Nat) (groups : List Nat)

def find (tag : String) (id : Option Nat) : Option Nat :=
  (entries.find? fun entry => entry.scope == "access" && entry.tag == tag && entry.id == id).bind
    (permBits ·.perm)

def masked (mode : Nat) : Nat := mode &&& (find entries "mask" none).getD 7

/-- A round of the loop over the groups: the entries that match are united. -/
def unite (matched : Option Nat) (gid : Nat) : Option Nat :=
  match find entries "group" (some gid) with
  | some mode => some (matched.getD 0 ||| mode)
  | none => matched

/-- `control_acl_access_mode` -/
def accessMode : Option Nat :=
  if uid = ownerUid then find entries "user_obj" none
  else match find entries "user" (some uid) with
    | some mode => some (masked entries mode)
    | none =>
      let matched := if ownerGid ∈ groups then find entries "group_obj" none else none
      ((groups.foldl (unite entries) matched).map (masked entries)).or (find entries "other" none)

/-- The loop over the groups and its end: one entry must grant everything. -/
def allowsGroup (requested : Nat) : List Nat → Bool → Option Bool
  | [], matchedGroup =>
    if matchedGroup then some false else (find entries "other" none).map (grants requested)
  | gid :: rest, matchedGroup =>
    match find entries "group" (some gid) with
    | some mode =>
      if grants requested (masked entries mode) then some true else allowsGroup requested rest true
    | none => allowsGroup requested rest matchedGroup

/-- `control_acl_allows_access` -/
def allowsAccess (requested : Nat) : Option Bool :=
  if uid = ownerUid then (find entries "user_obj" none).map (grants requested)
  else match find entries "user" (some uid) with
    | some mode => some (grants requested (masked entries mode))
    | none =>
      if ownerGid ∈ groups ∧
          grants requested (masked entries ((find entries "group_obj" none).getD 0)) then some true
      else allowsGroup entries requested groups (ownerGid ∈ groups)

end

variable {entries : List ControlAclEntry} {groups : List Nat} {matched : Option Nat} {k : Nat}

theorem grants_two_pow (mode : Nat) : grants (2 ^ k) mode = mode.testBit k := by
  rw [grants, Nat.and_two_pow]
  cases mode.testBit k <;> simp [(Nat.two_pow_pos k).ne]

theorem masked_or (first second : Nat) : (masked entries (first ||| second)).testBit k =
    ((masked entries first).testBit k || (masked entries second).testBit k) := by
  simp only [masked, Nat.testBit_and, Nat.testBit_or, Bool.and_or_distrib_right]

/-- The bit of the mode that is returned. -/
def HasBit (mode : Option Nat) (k : Nat) : Prop := ∃ bits, mode = some bits ∧ bits.testBit k = true

theorem unite_keeps (other : Option Nat) {mode : Nat}
    (set : (masked entries mode).testBit k = true) :
    HasBit (((groups.foldl (unite entries) (some mode)).map (masked entries)).or other) k := by
  induction groups generalizing mode with
  | nil => exact ⟨_, rfl, set⟩
  | cons gid rest ih =>
    rw [List.foldl_cons, unite]
    cases find entries "group" (some gid) with
    | none => exact ih set
    | some more => exact ih ((masked_or ..).trans (by rw [Option.getD_some, set, Bool.true_or]))

/-- No group entry before has granted the bit; both sides know of a match. -/
theorem allowsGroup_iff {matchedGroup : Bool}
    (denied : (masked entries (matched.getD 0)).testBit k = false)
    (seen : matched.isSome → matchedGroup)
    (known : matchedGroup → matched.isSome ∨ ∃ gid ∈ groups,
      (find entries "group" (some gid)).isSome) :
    allowsGroup entries (2 ^ k) groups matchedGroup = some true ↔ HasBit (((groups.foldl
      (unite entries) matched).map (masked entries)).or (find entries "other" none)) k := by
  induction groups generalizing matched matchedGroup with
  | nil =>
    cases matched with
    | none =>
      have unmatched : matchedGroup = false := by simpa using known
      simp [allowsGroup, unmatched, HasBit, grants_two_pow]
    | some mode => simpa [allowsGroup, seen rfl, HasBit] using denied
  | cons gid rest ih =>
    rw [List.foldl_cons, allowsGroup, unite]
    cases found : find entries "group" (some gid) with
    | none =>
      refine ih denied seen fun known' => (known known').imp_right ?_
      simp [found]
    | some mode =>
      simp only [grants_two_pow]
      split
      · rename_i set
        refine iff_of_true rfl (unite_keeps _ ?_)
        rw [masked_or, set, Bool.or_true]
      rename_i unset
      refine ih ?_ (fun _ => rfl) fun _ => .inl rfl
      rw [Option.getD_some, masked_or, denied]
      exact Bool.eq_false_iff.mpr unset

/-- The evaluators agree on a single bit if the caller is not in the owning group, or an entry is
there for it or for another group of the caller. -/
theorem allowsAccess_iff_accessMode (entries : List ControlAclEntry) (ownerUid ownerGid uid : Nat)
    (groups : List Nat) (k : Nat)
    (entered : ownerGid ∈ groups → (find entries "group_obj" none).isSome ∨
      ∃ gid ∈ groups, (find entries "group" (some gid)).isSome) :
    allowsAccess entries ownerUid ownerGid uid groups (2 ^ k) = some true ↔
      HasBit (accessMode entries ownerUid ownerGid uid groups) k := by
  have zero : (masked entries 0).testBit k = false := by simp [masked]
  unfold allowsAccess accessMode
  split
  · simp [HasBit, grants_two_pow]
  cases find entries "user" (some uid) with
  | some mode => simp [HasBit, grants_two_pow]
  | none =>
    simp only [grants_two_pow]
    by_cases mem : ownerGid ∈ groups
    · simp only [mem, true_and]
      cases own : find entries "group_obj" none with
      | none =>
        rw [own] at entered
        rw [Option.getD_none, zero]
        exact allowsGroup_iff zero nofun fun _ => entered mem
      | some mode =>
        split
        · exact iff_of_true rfl (unite_keeps _ ‹_›)
        · exact allowsGroup_iff (Bool.eq_false_iff.mpr ‹_›) (fun _ => rfl) fun _ => .inl rfl
    · simp only [mem]
      exact allowsGroup_iff zero nofun nofun

/-- A caller in two groups, of which one grants the bit. -/
theorem named_group_grants_read :
    let entries := [⟨"access", "group_obj", none, ['-', 'w', '-']⟩,
      ⟨"access", "group", some 6, ['r', '-', '-']⟩, ⟨"access", "mask", none, ['r', 'w', '-']⟩]
    allowsAccess entries 1 5 2 [5, 6] (2 ^ 2) = some true ↔
      HasBit (accessMode entries 1 5 2 [5, 6]) 2 :=
  allowsAccess_iff_accessMode _ _ _ _ _ _ fun _ => .inl (by decide)

/-- In the owning group without an entry for it: one falls back on `other`, one denies. -/
theorem missing_group_entry_differs :
    let entries := [⟨"access", "other", none, ['r', 'w', 'x']⟩]
    accessMode entries 1 5 2 [5] = some 7 ∧
    allowsAccess entries 1 5 2 [5] (2 ^ 2) = some false := by
  decide

end BrewFs.Meta.ControlAcl
