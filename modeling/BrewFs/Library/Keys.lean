import Mathlib.Data.Finmap
import Mathlib.Data.Finset.Card
import Mathlib.Tactic.Ring

/-! Finite maps read backwards: the set of keys that hold a given value. -/

namespace BrewFs.Keys

open List AList

variable {κ ν : Type} [DecidableEq κ]

theorem lookup_insert_eq (table : AList fun _ : κ => ν) (key key' : κ) (value : ν) :
    (table.insert key value).lookup key' =
      if key' = key then some value else table.lookup key' := by
  by_cases same : key' = key
  · rw [if_pos same, same, lookup_insert]
  · rw [if_neg same, lookup_insert_ne same]

theorem lookup_erase_eq (table : AList fun _ : κ => ν) (key key' : κ) :
    (table.erase key).lookup key' = if key' = key then none else table.lookup key' := by
  by_cases same : key' = key
  · rw [if_pos same, same, lookup_erase]
  · rw [if_neg same, lookup_erase_ne same]

section

variable {table : AList fun _ : κ => ν} {key other : κ} {value found : ν}

/-- What is under a key after an insertion. -/
theorem mem_insert (here : found ∈ (table.insert key value).lookup other) :
    other = key ∧ found = value ∨ other ≠ key ∧ found ∈ table.lookup other := by
  rw [lookup_insert_eq] at here
  split at here
  · exact .inl ⟨‹_›, (Option.some.inj here).symm⟩
  · exact .inr ⟨‹_›, here⟩

theorem mem_erase (here : found ∈ (table.erase key).lookup other) :
    other ≠ key ∧ found ∈ table.lookup other := by
  rwa [lookup_erase_eq, Option.mem_def, Option.ite_none_left_eq_some] at here

end

theorem any_others_iff {α β : Type} [DecidableEq α] [DecidableEq β]
    (table : AList fun _ : α × β => ν)
    (place : α) (mine : β) (chosen : ν → Bool) :
    (table.entries.any fun entry => entry.1.1 = place && entry.1.2 ≠ mine && chosen entry.2) =
      true ↔ ∃ other, other ≠ mine ∧ ∃ value, table.lookup (place, other) = some value ∧
        chosen value = true := by
  rw [any_eq_true]
  simp only [Bool.and_eq_true, decide_eq_true_iff]
  constructor
  · rintro ⟨⟨⟨place, other⟩, value⟩, listed, ⟨rfl, differs⟩, picked⟩
    exact ⟨other, differs, value, mem_lookup_iff.mpr listed, picked⟩
  · rintro ⟨other, differs, value, found, picked⟩
    exact ⟨⟨(place, other), value⟩, mem_lookup_iff.mp found, ⟨rfl, differs⟩, picked⟩

section Select

variable (selected : κ → Bool) (table : AList fun _ : κ => ν)

/-- The number of selected keys. -/
def count : Nat := (table.keys.filter selected).length

theorem count_eq_zero :
    count selected table = 0 ↔ ∀ key, selected key = true → table.lookup key = none := by
  unfold count
  rw [length_eq_zero_iff, filter_eq_nil_iff]
  constructor
  · intro none_selected key chosen
    rw [lookup_eq_none]
    intro present
    exact none_selected key (mem_keys.mp present) chosen
  · intro absent key present chosen
    exact lookup_eq_none.mp (absent key chosen) (mem_keys.mpr present)

/-- The map without its selected keys. -/
def remove : AList fun _ : κ => ν :=
  ⟨table.entries.filter fun entry => !selected entry.1,
    List.NodupKeys.sublist filter_sublist table.nodupKeys⟩

theorem lookup_remove (key : κ) : (remove selected table).lookup key =
      if selected key = true then none else table.lookup key := by
  apply Option.ext
  intro value
  have kept : (remove selected table).lookup key = some value ↔
      ⟨key, value⟩ ∈ table.entries ∧ selected key = false := by
    have stored := mem_lookup_iff (a := key) (b := value) (s := remove selected table)
    simpa [remove] using stored
  have present : table.lookup key = some value ↔ ⟨key, value⟩ ∈ table.entries :=
    mem_lookup_iff
  by_cases chosen : selected key = true <;> simp [kept, present, chosen]

theorem mem_remove {key : κ} {found : ν} (here : found ∈ (remove selected table).lookup key) :
    ¬ selected key = true ∧ found ∈ table.lookup key := by
  rwa [lookup_remove, Option.mem_def, Option.ite_none_left_eq_some] at here

end Select

/-! ### Weights -/

section Weight

variable (weight : ν → Nat) (table : AList fun _ : κ => ν)

/-- The weight of all values together. -/
def total : Nat :=
  (table.entries.map fun entry => weight entry.2).sum

/-- What a key weighs, nothing when it is absent. -/
def weigh (key : κ) : Nat := ((table.lookup key).map weight).getD 0

theorem total_erase (key : κ) :
    total weight (table.erase key) + weigh weight table key = total weight table := by
  obtain ⟨entries, distinct⟩ := table
  simp only [total, weigh, AList.erase, AList.lookup]
  clear distinct
  induction entries with
  | nil => rfl
  | cons entry rest ih =>
    by_cases same : key = entry.1
    · cases same
      rw [kerase_cons_eq rfl, dlookup_cons_eq]
      simp only [map_cons, sum_cons, Option.map_some, Option.getD_some]
      omega
    rw [kerase_cons_ne same, dlookup_cons_ne rest entry same]
    simp only [map_cons, sum_cons]
    omega

theorem total_insert (key : κ) (value : ν) :
    total weight (table.insert key value) + weigh weight table key =
      total weight table + weight value := by
  have erased := total_erase weight table key
  have inserted : total weight (table.insert key value) =
      weight value + total weight (table.erase key) := by
    simp only [total, entries_insert, erase, map_cons, sum_cons]
  omega

theorem weigh_le_total (key : κ) : weigh weight table key ≤ total weight table := by
  have erased := total_erase weight table key
  omega

theorem weigh_add_le_total {key other : κ} (differ : other ≠ key) :
    weigh weight table key + weigh weight table other ≤ total weight table := by
  have erased := total_erase weight table key
  have rest := weigh_le_total weight (table.erase key) other
  rw [weigh, lookup_erase_eq, if_neg differ, ← weigh] at rest
  omega

end Weight

/-! ### The keys whose values are chosen -/

section Chosen

variable (chosen : ν → Bool) (table : AList fun _ : κ => ν)

/-- The keys that hold a chosen value. -/
def keysWhere : Finset κ :=
  (table.keys.filter fun key => (table.lookup key).any chosen).toFinset

@[simp] theorem mem_keysWhere (key : κ) :
    key ∈ keysWhere chosen table ↔
      ∃ value, table.lookup key = some value ∧ chosen value = true := by
  unfold keysWhere
  rw [mem_toFinset, mem_filter, Option.any_eq_true]
  constructor
  · exact And.right
  rintro ⟨value, holds, picked⟩
  refine ⟨mem_keys.mp ?_, value, holds, picked⟩
  rw [← lookup_isSome, holds]
  rfl

theorem keysWhere_insert (key : κ) (value : ν) : keysWhere chosen (table.insert key value) =
      if chosen value = true then insert key (keysWhere chosen table)
      else (keysWhere chosen table).erase key := by
  ext key'
  by_cases here : key' = key <;> by_cases picked : chosen value = true <;> simp [here, picked]

theorem keysWhere_erase (key : κ) :
    keysWhere chosen (table.erase key) = (keysWhere chosen table).erase key := by
  ext key'
  by_cases here : key' = key <;> simp [here]

end Chosen

section Preimage

variable [DecidableEq ν] (table : AList fun _ : κ => ν)

/-- The keys that hold `value`. -/
def keysTo (value : ν) : Finset κ :=
  (table.keys.filter fun key => table.lookup key = some value).toFinset

@[simp] theorem mem_keysTo (value : ν) (key : κ) :
    key ∈ keysTo table value ↔ table.lookup key = some value := by
  unfold keysTo
  rw [mem_toFinset, mem_filter]
  constructor
  · rintro ⟨_, holds⟩
    exact of_decide_eq_true holds
  intro holds
  refine ⟨?_, decide_eq_true holds⟩
  apply AList.mem_keys.mp
  rw [← AList.lookup_isSome, holds]
  rfl

theorem keysTo_insert (key : κ) (value other : ν) : keysTo (table.insert key value) other =
      if other = value then insert key (keysTo table other) else
        (keysTo table other).erase key := by
  ext key'
  by_cases here : key' = key
  · by_cases same : other = value
    · simp [same, here]
    · simp [same, here, Ne.symm same]
  · by_cases same : other = value <;> simp [same, here]

theorem keysTo_erase (key : κ) (other : ν) :
    keysTo (table.erase key) other = (keysTo table other).erase key := by
  ext key'
  by_cases here : key' = key <;> simp [here]

theorem keysTo_remove_absent (selected : κ → Bool) (table : AList fun _ : κ => ν) (other : ν)
    (absent : count selected table = 0) :
    keysTo (remove selected table) other = keysTo table other := by
  ext key
  rw [mem_keysTo, mem_keysTo, lookup_remove]
  by_cases chosen : selected key = true
  · rw [if_pos chosen, (count_eq_zero selected table).mp absent key chosen]
  · rw [if_neg chosen]

end Preimage

end BrewFs.Keys
