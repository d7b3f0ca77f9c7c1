import Mathlib.Data.List.Induction
import BrewFs.Library.Buffer

/- Partial maps stacked on each other: where several answer, the last one wins. -/
namespace BrewFs.Layers

open BrewFs.Buffer BrewFs.Interval List Option

variable {ι α β : Type} {layers : List (ι → Option α)} {p : ι} {items : List β} {i : Nat} {a : α}

/-- What the stack shows at a point; the list's head lies at the bottom. -/
def stack : List (ι → Option α) → ι → Option α
  | [], _ => none
  | layer :: above, p => (stack above p).or (layer p)

@[simp] theorem stack_nil (p : ι) : stack ([] : List (ι → Option α)) p = none := rfl

@[simp] theorem stack_cons (layer : ι → Option α) (above : List (ι → Option α)) (p : ι) :
    stack (layer :: above) p = (stack above p).or (layer p) := rfl

@[simp] theorem stack_append (below above : List (ι → Option α)) (p : ι) :
    stack (below ++ above) p = (stack above p).or (stack below p) := by
  induction below with
  | nil => simp
  | cons layer rest ih => rw [cons_append, stack_cons, stack_cons, ih, Option.or_assoc]

theorem stack_eq_none : stack layers p = none ↔ ∀ layer ∈ layers, layer p = none := by
  induction layers with
  | nil => simp
  | cons layer above ih => rw [stack_cons, or_eq_none_iff, ih, forall_mem_cons, and_comm]

theorem exists_layer_of_stack (shown : stack layers p = some a) :
    ∃ layer ∈ layers, layer p = some a := by
  induction layers with
  | nil => cases shown
  | cons layer above ih =>
    rcases or_eq_some_iff.mp shown with top | ⟨_, bottom⟩
    · obtain ⟨found, mem, same⟩ := ih top
      exact ⟨found, mem_cons_of_mem _ mem, same⟩
    · exact ⟨layer, mem_cons_self, bottom⟩

theorem stack_map_congr {first second : β → ι → Option α} {q : ι}
    (same : ∀ item ∈ items, first item p = second item q) :
    stack (items.map first) p = stack (items.map second) q := by
  induction items with
  | nil => rfl
  | cons item rest ih =>
    rw [forall_mem_cons] at same
    rw [map_cons, map_cons, stack_cons, stack_cons, ih same.2, same.1]

theorem stack_filterMap {γ : Type} (items : List β) (pick : β → Option γ) (layer : γ → ι → Option α)
    (p : ι) : stack ((items.filterMap pick).map layer) p =
      stack (items.map fun item p => (pick item).bind fun picked => layer picked p) p := by
  induction items with
  | nil => rfl
  | cons item rest ih =>
    rw [map_cons, stack_cons, ← ih]
    cases picked : pick item with
    | none => simp [picked]
    | some _ => simp [picked]

theorem stack_filter (items : List β) (keep : β → Bool) (layer : β → ι → Option α) (p : ι) :
    stack ((items.filter keep).map layer) p =
      stack (items.map fun item p => if keep item then layer item p else none) p := by
  induction items with
  | nil => rfl
  | cons item rest ih =>
    rw [map_cons, stack_cons, ← ih]
    cases kept : keep item with
    | false | true => simp [kept]

/-- Hiding items with nothing beneath them brings up nothing new. -/
theorem stack_hide {before after : β → ι → Option α}
    (hides : ∀ below item above, items = below ++ item :: above → after item p = before item p ∨
      after item p = none ∧ ((before item p).isSome = true → ∀ other ∈ below, after other p = none))
    (shown : stack (items.map after) p = some a) : stack (items.map before) p = some a := by
  induction items using reverseRecOn with
  | nil => exact shown
  | append_singleton init last ih =>
    simp only [map_append, map_cons, map_nil, stack_append, stack_cons, stack_nil,
      none_or] at shown ⊢
    have inner : stack (init.map after) p = some a → stack (init.map before) p = some a := by
      refine ih fun below item above split => ?_
      apply hides below item (above ++ [last])
      rw [split, append_assoc, cons_append]
    rcases hides init last [] rfl with same | ⟨hidden, alone⟩
    · rw [same] at shown
      cases top : before last p with
      | some byte => rwa [top] at shown
      | none =>
        rw [top] at shown
        rw [none_or, inner shown]
    rw [hidden] at shown
    cases top : before last p with
    | none => rw [none_or, inner shown]
    | some byte =>
      have empty : stack (init.map after) p = none := by
        rw [stack_eq_none]
        intro layer listed
        obtain ⟨other, mem, rfl⟩ := mem_map.mp listed
        exact alone (by rw [top]; rfl) other mem
      rw [empty] at shown
      cases shown

/-! ### Patches as layers -/

/-- What a patch has at a position. -/
def patchLayer (item : Nat × List α) (i : Nat) : Option α :=
  if item.1 ≤ i then item.2[i - item.1]? else none

theorem patchLayer_mk (pos : Nat) (bytes : List α) (i : Nat) :
    patchLayer (pos, bytes) i = if pos ≤ i then bytes[i - pos]? else none := rfl

theorem patchLayer_isSome {item : Nat × List α} :
    (patchLayer item i).isSome = true ↔ Within (patchSpan item) i := by
  unfold patchLayer Within patchSpan
  split
  · rw [isSome_getElem?]
    omega
  · simp only [isSome_none, Bool.false_eq_true, false_iff]
    omega

theorem stack_patches_isSome {patches : List (Nat × List α)} :
    (stack (patches.map patchLayer) i).isSome = true ↔
      ∃ span ∈ patches.map patchSpan, Within span i := by
  induction patches with
  | nil => simp
  | cons item rest ih =>
    rw [map_cons, stack_cons, isSome_or, Bool.or_eq_true, ih, patchLayer_isSome,
      or_comm]
    simp only [map_cons, mem_cons, exists_eq_or_imp]

/-- Patches applied in order leave what their stack shows, or the old content. -/
theorem getElem?_applyPatches (buf : List α) (patches : List (Nat × List α)) (i : Nat)
    (fits : ∀ item ∈ patches, item.1 + item.2.length ≤ buf.length) :
    (applyPatches buf patches)[i]? = (stack (patches.map patchLayer) i).or buf[i]? := by
  induction patches generalizing buf with
  | nil => simp
  | cons item rest ih =>
    rw [forall_mem_cons] at fits
    have length := length_patch buf item.1 item.2 fits.1
    rw [applyPatches_cons, ih _ (length ▸ fits.2), map_cons, stack_cons, Option.or_assoc]
    by_cases inside : Within (patchSpan item) i
    · rw [patch_inside buf item.1 item.2 i fits.1 inside.1 inside.2]
      have shown := patchLayer_isSome.mpr inside
      rw [or_of_isSome shown, patchLayer, if_pos (show item.1 ≤ i from inside.1)]
    have hidden : patchLayer item i = none := by
      rw [← not_isSome_iff_eq_none, patchLayer_isSome]
      exact inside
    simp only [Within, patchSpan] at inside
    rw [hidden, patch_outside buf item.1 item.2 i fits.1 (by omega), none_or]

end BrewFs.Layers
