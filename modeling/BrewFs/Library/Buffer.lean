import BrewFs.Library.Interval

/- Byte buffers that are filled by patches at fixed positions. -/
namespace BrewFs.Buffer

open BrewFs.Interval List

variable {α : Type} (buf : List α)

/-- Overwrite `buf` from position `pos` with `bytes`. -/
def patch (pos : Nat) (bytes : List α) : List α :=
  buf.take pos ++ bytes ++ buf.drop (pos + bytes.length)

theorem length_patch (pos : Nat) (bytes : List α)
    (fits : pos + bytes.length ≤ buf.length) : (patch buf pos bytes).length = buf.length := by
  simp only [patch, length_append, length_take, length_drop]
  omega

section

variable (pos : Nat) (bytes : List α) (i : Nat) (fits : pos + bytes.length ≤ buf.length)

include pos bytes i fits

theorem patch_inside (lower : pos ≤ i) (upper : i < pos + bytes.length) :
    (patch buf pos bytes)[i]? = bytes[i - pos]? := by
  have front := length_take_of_le (show pos ≤ buf.length by omega)
  rw [patch, append_assoc, getElem?_append_right (by omega), front,
    getElem?_append_left (by omega)]

theorem patch_outside (outside : i < pos ∨ pos + bytes.length ≤ i) :
    (patch buf pos bytes)[i]? = buf[i]? := by
  have front := length_take_of_le (show pos ≤ buf.length by omega)
  rcases outside with before | after
  · rw [patch, append_assoc, getElem?_append_left (by omega),
      getElem?_take_of_lt before]
  rw [patch, append_assoc, getElem?_append_right (by omega), getElem?_append_right (by omega),
    getElem?_drop]
  congr 1
  omega

end

/-- Positions written by one patch. -/
def patchSpan (item : Nat × List α) : Nat × Nat := (item.1, item.1 + item.2.length)

def applyPatches (patches : List (Nat × List α)) : List α :=
  patches.foldl (fun acc item => patch acc item.1 item.2) buf

@[simp] theorem applyPatches_nil : applyPatches buf [] = buf := rfl

@[simp] theorem applyPatches_cons (item : Nat × List α) (rest : List (Nat × List α))
    : applyPatches buf (item :: rest) = applyPatches (patch buf item.1 item.2) rest := rfl

theorem length_applyPatches (patches : List (Nat × List α))
    (fits : ∀ item ∈ patches, item.1 + item.2.length ≤ buf.length) :
    (applyPatches buf patches).length = buf.length := by
  induction patches generalizing buf with
  | nil => rfl
  | cons item rest ih =>
    have here := length_patch buf item.1 item.2 (fits item mem_cons_self)
    rw [applyPatches_cons, ih, here]
    intro other mem
    rw [here]
    exact fits other (mem_cons_of_mem _ mem)

end BrewFs.Buffer
