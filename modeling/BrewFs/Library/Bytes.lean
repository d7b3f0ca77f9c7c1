import Mathlib.Tactic.Ring

/- Little-endian integers in byte strings. -/
namespace BrewFs.Bytes

/-- The `width` low bytes of `n`, least significant first. -/
def toLe : Nat → Nat → List UInt8
  | 0, _ => []
  | width + 1, n => UInt8.ofNat n :: toLe width (n / 256)

def fromLe : List UInt8 → Nat
  | [] => 0
  | byte :: rest => byte.toNat + 256 * fromLe rest

@[simp] theorem length_toLe (width n : Nat) : (toLe width n).length = width := by
  induction width generalizing n with
  | zero => rfl
  | succ width ih => simp only [toLe, List.length_cons, ih]

theorem fromLe_toLe (width n : Nat) : fromLe (toLe width n) = n % 256 ^ width := by
  induction width generalizing n with
  | zero => simp only [toLe, fromLe, Nat.pow_zero, Nat.mod_one]
  | succ width ih =>
    have low : (UInt8.ofNat n).toNat = n % 256 := by simp
    rw [toLe, fromLe, ih, low, Nat.pow_succ, Nat.mul_comm (256 ^ width) 256, Nat.mod_mul]

theorem fromLe_toLe_of_lt (width n : Nat) (fits : n < 256 ^ width) : fromLe (toLe width n) = n := by
  rw [fromLe_toLe, Nat.mod_eq_of_lt fits]

end BrewFs.Bytes
