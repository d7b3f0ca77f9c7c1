import Mathlib.Data.Nat.Digits.Lemmas

/-! Byte strings with decimal numbers and separators, as a scripting language prints and
takes them apart. -/

namespace BrewFs.Text

open List

abbrev Bytes := List UInt8

def isDigit (byte : UInt8) : Bool := 48 ≤ byte && byte ≤ 57

/-- The decimal digits of `n`, least significant first; `0` has one digit. -/
def digitsOf (n : Nat) : List Nat := if n = 0 then [0] else Nat.digits 10 n

/-- A number as a script prints it. -/
def decimal (n : Nat) : Bytes := (digitsOf n).reverse.map fun digit => UInt8.ofNat (48 + digit)

/-- The number a text of decimal digits stands for. -/
def toNumber (text : Bytes) : Option Nat :=
  if text ≠ [] ∧ text.all isDigit = true then
    some (Nat.ofDigits 10 (text.reverse.map fun byte => byte.toNat - 48))
  else none

theorem digitsOf_ne_nil (n : Nat) : digitsOf n ≠ [] := by
  unfold digitsOf
  split
  · simp
  · rename_i pos
    exact Nat.digits_ne_nil_iff_ne_zero.mpr pos

theorem digitsOf_lt (n : Nat) : ∀ digit ∈ digitsOf n, digit < 10 := by
  intro digit
  unfold digitsOf
  split
  · intro zero
    rw [mem_singleton.mp zero]
    decide
  · intro mem
    exact Nat.digits_lt_base (by decide) mem

theorem ofDigits_digitsOf (n : Nat) : Nat.ofDigits 10 (digitsOf n) = n := by
  unfold digitsOf
  split
  · rename_i zero
    rw [zero]
    rfl
  · exact Nat.ofDigits_digits 10 n

theorem digit_byte {digit : Nat} (small : digit < 10) :
    isDigit (UInt8.ofNat (48 + digit)) = true ∧ (UInt8.ofNat (48 + digit)).toNat - 48 = digit := by
  have cases : digit = 0 ∨ digit = 1 ∨ digit = 2 ∨ digit = 3 ∨ digit = 4 ∨ digit = 5 ∨
      digit = 6 ∨ digit = 7 ∨ digit = 8 ∨ digit = 9 := by omega
  rcases cases with rfl | rfl | rfl | rfl | rfl | rfl | rfl | rfl | rfl | rfl <;> decide

theorem decimal_ne_nil (n : Nat) : decimal n ≠ [] := by
  simp [decimal, digitsOf_ne_nil]

theorem decimal_isDigit (n : Nat) : ∀ byte ∈ decimal n, isDigit byte = true := by
  intro byte mem
  obtain ⟨digit, digit_mem, rfl⟩ := mem_map.mp mem
  exact (digit_byte (digitsOf_lt n digit (mem_reverse.mp digit_mem))).1

theorem toNumber_decimal (n : Nat) : toNumber (decimal n) = some n := by
  have printed : decimal n ≠ [] ∧ (decimal n).all isDigit = true :=
    ⟨decimal_ne_nil n, all_eq_true.mpr (decimal_isDigit n)⟩
  unfold toNumber
  rw [if_pos printed]
  have digits : (decimal n).reverse.map (fun byte => byte.toNat - 48) = digitsOf n := by
    unfold decimal
    rw [← map_reverse, reverse_reverse, map_map]
    conv_rhs => rw [← map_id (digitsOf n)]
    apply map_congr_left
    intro digit mem
    exact (digit_byte (digitsOf_lt n digit mem)).2
  rw [digits, ofDigits_digitsOf]

section Separators

variable {α : Type} (sep : α) {rest text : List α}

/-- A separator neither first, nor last, nor next to another one. -/
def Separated (text : List α) : Prop :=
  text.head? ≠ some sep ∧ text.getLast? ≠ some sep ∧ ¬ [sep, sep] <:+: text

theorem Separated.tail {first second : α} (separated : Separated sep (first :: second :: rest))
    (differs : second ≠ sep) : Separated sep (second :: rest) := by
  refine ⟨by simpa using differs, by simpa using separated.2.1, ?_⟩
  intro doubled
  exact separated.2.2 (doubled.trans (suffix_cons first _).isInfix)

theorem Separated.after {first : α} (separated : Separated sep (first :: sep :: rest)) :
    rest ≠ [] ∧ Separated sep rest := by
  have some_text : rest ≠ [] := by
    intro empty
    apply separated.2.1
    simp [empty]
  refine ⟨some_text, ?_, ?_, ?_⟩
  · intro again
    obtain ⟨rest', rfl⟩ : ∃ rest', rest = sep :: rest' := by
      cases rest with
      | nil => exact absurd rfl some_text
      | cons second rest' => exact ⟨rest', by simpa using again⟩
    exact separated.2.2 ⟨[first], rest', by simp⟩
  · intro last
    apply separated.2.1
    cases rest with
    | nil => exact absurd rfl some_text
    | cons second rest' => exact last
  · intro doubled
    exact separated.2.2 (doubled.trans ⟨[first, sep], [], by simp⟩)

variable [DecidableEq α]

instance decidableSeparated (text : List α) : Decidable (Separated sep text) :=
  inferInstanceAs (Decidable (_ ∧ _ ∧ _))

/-- The text before and after the first separator. -/
def splitFirst (text : List α) : Option (List α × List α) :=
  match text.dropWhile (· ≠ sep) with
  | [] => none
  | _ :: rest => some (text.takeWhile (· ≠ sep), rest)

theorem splitFirst_append (front back : List α) (clean : sep ∉ front) :
    splitFirst sep (front ++ sep :: back) = some (front, back) := by
  have before : ∀ a ∈ front, decide (a ≠ sep) = true := by
    intro a mem
    exact decide_eq_true fun same => clean (same ▸ mem)
  unfold splitFirst
  rw [dropWhile_append_of_pos before, takeWhile_append_of_pos before]
  simp

/-- The maximal runs of text without a separator. -/
def fields (text : List α) : List (List α) := (text.splitOn sep).filter (· ≠ [])

theorem fields_append (front back : List α) (clean : sep ∉ front) (some_text : front ≠ []) :
    fields sep (front ++ sep :: back) = front :: fields sep back := by
  have split : (front ++ sep :: back).splitOn sep = front :: back.splitOn sep := by
    apply splitOnP_append_cons_of_forall_mem
    · intro a mem
      exact beq_eq_false_iff_ne.mpr fun same => clean (same ▸ mem)
    · exact beq_self_eq_true sep
  unfold fields
  rw [split, filter_cons_of_pos (by simpa using some_text)]

/-- No piece of a separated text is empty, so cutting it loses nothing. -/
theorem Separated.nil_notMem (some_text : text ≠ []) (separated : Separated sep text) :
    [] ∉ text.splitOn sep := by
  -- Two symbols at a time: a separator is always followed by more text.
  induction text using twoStepInduction with
  | nil => exact absurd rfl some_text
  | singleton first =>
    have differs : first ≠ sep := by simpa using separated.1
    simp [splitOn, splitOnP_cons_eq_if_modifyHead, differs]
  | cons_cons first second rest ih_rest ih_tail =>
    have differs : first ≠ sep := by simpa using separated.1
    have head : (first :: second :: rest).splitOn sep =
        ((second :: rest).splitOn sep).modifyHead (cons first) := by
      simp [splitOn, splitOnP_cons_eq_if_modifyHead, differs]
    rw [head]
    by_cases here : second = sep
    · subst here
      obtain ⟨more, later⟩ := separated.after
      have pieces : (second :: rest).splitOn second = [] :: rest.splitOn second := by
        simp [splitOn, splitOnP_cons_eq_if_modifyHead]
      rw [pieces]
      simpa using ih_rest more later
    have inner := ih_tail second (by simp) (separated.tail sep here)
    cases pieces : (second :: rest).splitOn sep with
    | nil => simp
    | cons piece others =>
      rw [pieces] at inner
      simp only [modifyHead_cons, mem_cons, not_or] at inner ⊢
      exact ⟨by simp, inner.2⟩

theorem Separated.join_fields (some_text : text ≠ []) (separated : Separated sep text) :
    [sep].intercalate (fields sep text) = text := by
  have kept : fields sep text = text.splitOn sep := by
    unfold fields
    rw [filter_eq_self]
    intro piece mem
    apply decide_eq_true
    rintro rfl
    exact separated.nil_notMem sep some_text mem
  rw [kept, intercalate_splitOn]

end Separators

end BrewFs.Text
