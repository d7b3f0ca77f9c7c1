import Mathlib.Data.Nat.Bitwise
import Mathlib.Tactic.Ring

/-! `native_base/wire/uvarint.rs`: shortest unsigned LEB128 for `u64` values. -/

namespace BrewFs.Native

open List

def uvarintMaxLen : Nat := 10

def encodeUvarint (value : Nat) : List UInt8 :=
  let byte := value &&& 0x7f
  let rest := value >>> 7
  if rest = 0 then [.ofNat byte] else .ofNat (byte ||| 0x80) :: encodeUvarint rest
termination_by value
decreasing_by
  rw [Nat.shiftRight_eq_div_pow] at *
  omega

/-- The errors, each with the number its text holds. -/
inductive UvarintError where
  | tooLong
  | lastByteExceeds (byte : UInt8)
  | nonShortest (index : Nat)
  | truncated (available : Nat)
deriving DecidableEq

/-- The loop of `decode_uvarint`; no shift reaches past the 64 bits. -/
def decodeLoop (total : Nat) : List UInt8 → Nat → Nat → Nat → Except UvarintError (Nat × Nat)
  | [], _, _, _ => .error (.truncated total)
  | byte :: later, i, value, shift =>
    let payload := byte.toNat &&& 0x7f
    if uvarintMaxLen ≤ i then .error .tooLong
    else if i = uvarintMaxLen - 1 ∧ 1 < payload then .error (.lastByteExceeds byte)
    else
      let value := value ||| payload <<< shift
      if byte.toNat &&& 0x80 = 0 then
        if i + 1 < uvarintMaxLen ∧ payload = 0 ∧ value >>> shift = 0 ∧ 0 < i then
          .error (.nonShortest i)
        else .ok (value, i + 1)
      else decodeLoop total later (i + 1) value (shift + 7)

def decodeUvarint (buf : List UInt8) : Except UvarintError (Nat × Nat) :=
  decodeLoop buf.length buf 0 0 0

theorem and_low (x : Nat) : x &&& 0x7f = x % 128 := Nat.and_two_pow_sub_one_eq_mod x 7

theorem and_high {x : Nat} (small : x < 256) : x &&& 0x80 = 0 ↔ x < 128 := by
  rw [show 0x80 = 2 ^ 7 from rfl, Nat.and_two_pow, Nat.testBit_eq_decide_div_mod_eq]
  by_cases low : x < 128
  · simp [low, Nat.div_eq_of_lt low]
  · simp [show x / 128 = 1 by omega, low]

theorem toNat_byte {x : Nat} (small : x < 256) : (UInt8.ofNat x).toNat = x :=
  Nat.mod_eq_of_lt small

/-- The digits of base 128, lowest first, all but the last with the high bit. -/
theorem encodeUvarint_eq (value : Nat) : encodeUvarint value =
    if value < 128 then [.ofNat value]
    else .ofNat (value % 128 + 128) :: encodeUvarint (value / 128) := by
  have high : value % 128 ||| 0x80 = value % 128 + 128 := by
    rw [Nat.or_comm, ← Nat.two_pow_add_eq_or_of_lt (i := 7) (by omega) 1, Nat.add_comm]
  rw [encodeUvarint, and_low, high, Nat.shiftRight_eq_div_pow]
  by_cases small : value < 128
  · rw [if_pos small, if_pos (by omega), Nat.mod_eq_of_lt small]
  · rw [if_neg small, if_neg (by omega)]

/-- No byte of a shortest encoding is zero, apart from that of zero. -/
theorem zero_notMem_encodeUvarint {value : Nat} (nonzero : value ≠ 0) :
    0 ∉ encodeUvarint value := by
  induction value using Nat.strongRecOn with
  | ind value ih =>
    have byte : ∀ x, x ≠ 0 → x < 256 → (0 : UInt8) ≠ .ofNat x := by
      intro x positive small same
      exact positive ((toNat_byte small).symm.trans (congrArg UInt8.toNat same.symm))
    rw [encodeUvarint_eq]
    split
    · exact fun mem => byte value nonzero (by omega) (mem_singleton.mp mem)
    · rw [mem_cons, not_or]
      exact ⟨byte _ (by omega) (by omega), ih (value / 128) (by omega) (by omega)⟩

section

variable {total i shift value w : Nat} {later : List UInt8} (small : value < 2 ^ shift)
include small

theorem digit_lt (x : Nat) : value + x % 128 * 2 ^ shift < 2 ^ (shift + 7) := by
  have digit := Nat.mul_le_mul_right (2 ^ shift) (show x % 128 ≤ 127 by omega)
  rw [Nat.pow_add]
  omega

theorem decodeLoop_cons (byte : UInt8) : decodeLoop total (byte :: later) i value shift =
    if 10 ≤ i then .error .tooLong
    else if i = 10 - 1 ∧ 1 < byte.toNat % 128 then .error (.lastByteExceeds byte)
    else if byte.toNat < 128 then
      if i + 1 < 10 ∧ byte.toNat = 0 ∧ 0 < i then .error (.nonShortest i)
      else .ok (value + byte.toNat * 2 ^ shift, i + 1)
    else decodeLoop total later (i + 1) (value + byte.toNat % 128 * 2 ^ shift) (shift + 7) := by
  have bits : value ||| (byte.toNat % 128) <<< shift = value + byte.toNat % 128 * 2 ^ shift := by
    rw [Nat.or_comm, ← Nat.shiftLeft_add_eq_or_of_lt small, Nat.shiftLeft_eq, Nat.add_comm]
  have top : (value + byte.toNat % 128 * 2 ^ shift) >>> shift = byte.toNat % 128 := by
    rw [Nat.shiftRight_eq_div_pow, Nat.add_mul_div_right _ _ (Nat.two_pow_pos _),
      Nat.div_eq_of_lt small, Nat.zero_add]
  simp only [decodeLoop, uvarintMaxLen, and_low, and_high byte.toNat_lt, bits, top]
  by_cases low : byte.toNat < 128
  · simp only [Nat.mod_eq_of_lt low, if_pos low, ← and_assoc, and_self_right]
  · simp only [if_neg low]

theorem decodeLoop_encode (place : shift = 7 * i) (fits : w < 2 ^ (64 - shift))
    (needed : 0 < i → w ≠ 0) : decodeLoop total (encodeUvarint w ++ later) i value shift =
      .ok (value + w * 2 ^ shift, i + (encodeUvarint w).length) := by
  induction w using Nat.strongRecOn generalizing i value shift with
  | ind w ih =>
    have short : i ≤ 9 := by
      by_contra long
      rw [show 64 - shift = 0 by omega] at fits
      exact needed (by omega) (by omega)
    have last : i = 9 → w < 2 := by
      rintro rfl
      rwa [place] at fits
    rw [encodeUvarint_eq]
    by_cases single : w < 128
    · rw [if_pos single, singleton_append, decodeLoop_cons small, toNat_byte (by omega),
        if_neg (by omega), if_neg (by omega), if_pos single, if_neg (by omega)]
      rfl
    have room : w < 128 * 2 ^ (64 - (shift + 7)) := by
      rwa [show 64 - shift = 7 + (64 - (shift + 7)) by omega, Nat.pow_add] at fits
    rw [if_neg single, cons_append, decodeLoop_cons small, toNat_byte (by omega),
      if_neg (by omega), if_neg (by omega), if_neg (by omega), Nat.add_mod_right, Nat.mod_mod,
      ih (w / 128) (by omega) (digit_lt small w) (by omega) (by omega) (by omega), length_cons]
    refine congrArg Except.ok (Prod.ext ?_ (by omega))
    calc value + w % 128 * 2 ^ shift + w / 128 * 2 ^ (shift + 7)
      _ = value + (w % 128 + 128 * (w / 128)) * 2 ^ shift := by ring
      _ = value + w * 2 ^ shift := by rw [Nat.mod_add_div]

/-- What is decoded is encoded in the bytes read, unless the tenth is zero. -/
theorem decodeLoop_ok {bytes : List UInt8} {v n : Nat}
    (ok : decodeLoop total bytes i value shift = .ok (v, n)) : ∃ w, v = value + w * 2 ^ shift ∧
      i < n ∧ (bytes.take (n - i) = encodeUvarint w ∧ (0 < i → w ≠ 0) ∨
        n = 10 ∧ bytes[9 - i]? = some 0) := by
  induction bytes generalizing i value shift with
  | nil => cases ok
  | cons byte later ih =>
    rw [decodeLoop_cons small] at ok
    split at ok
    · cases ok
    split at ok
    · cases ok
    split at ok
    · next low =>
      split at ok
      · cases ok
      cases ok
      refine ⟨byte.toNat, rfl, Nat.lt_succ_self i, ?_⟩
      by_cases blank : byte.toNat = 0 ∧ 0 < i
      · have last : i = 9 := by omega
        have zero : byte = 0 := UInt8.toNat_inj.mp blank.1
        exact .inr ⟨by omega, by simp [last, zero]⟩
      refine .inl ⟨?_, fun later zero => blank ⟨zero, later⟩⟩
      rw [encodeUvarint_eq, if_pos low, Nat.add_sub_cancel_left, UInt8.ofNat_toNat]
      rfl
    · obtain ⟨w, rfl, before, rest⟩ := ih (digit_lt small _) ok
      have bound := byte.toNat_lt
      refine ⟨byte.toNat % 128 + 128 * w, by ring, by omega, ?_⟩
      rcases rest with ⟨same, nonzero⟩ | ⟨rfl, zero⟩
      · have nonzero := nonzero (Nat.succ_pos i)
        refine .inl ⟨?_, fun _ => by omega⟩
        rw [encodeUvarint_eq, if_neg (by omega), show n - i = n - (i + 1) + 1 by omega,
          take_succ_cons, same, show (byte.toNat % 128 + 128 * w) % 128 + 128 = byte.toNat by omega,
          UInt8.ofNat_toNat, show (byte.toNat % 128 + 128 * w) / 128 = w by omega]
      · exact .inr ⟨rfl, by rwa [show 9 - i = 9 - (i + 1) + 1 by omega, getElem?_cons_succ]⟩

end

/-- Encodings are decoded, whatever follows; and a decoded one is the shortest except when its
tenth byte is zero, which the check for shortest encodings leaves out. -/
theorem uvarint_canonical (value : Nat) (buf : List UInt8) :
    (value < 2 ^ 64 → decodeUvarint (encodeUvarint value ++ buf) =
      .ok (value, (encodeUvarint value).length)) ∧
    ∀ len, decodeUvarint buf = .ok (value, len) →
      (buf.take len = encodeUvarint value ↔ ¬ (len = 10 ∧ buf[9]? = some 0)) := by
  refine ⟨fun fits => ?_, fun len ok => ?_⟩
  · rw [decodeUvarint, decodeLoop_encode (by decide) rfl fits (by omega)]
    simp
  obtain ⟨w, rfl, _, rest⟩ := decodeLoop_ok (by decide) ok
  simp only [Nat.pow_zero, Nat.mul_one, Nat.zero_add, Nat.sub_zero] at rest ⊢
  constructor
  · rintro same ⟨rfl, zero⟩
    have ninth : (encodeUvarint w)[9]? = some 0 := by
      rwa [← same, getElem?_take_of_lt (by decide : 9 < 10)]
    by_cases none : w = 0
    · rw [none, encodeUvarint_eq] at ninth
      cases ninth
    · exact zero_notMem_encodeUvarint none (mem_of_getElem? ninth)
  · exact fun full => (rest.resolve_right full).1

/-- Zero in ten bytes. -/
theorem overlong_zero_decoded :
    decodeUvarint (replicate 9 0x80 ++ [0]) = .ok (0, 10) ∧
      (replicate 9 0x80 ++ [0] : List UInt8).take 10 ≠ encodeUvarint 0 := by
  refine ⟨by decide, ?_⟩
  rw [encodeUvarint_eq]
  decide

end BrewFs.Native
