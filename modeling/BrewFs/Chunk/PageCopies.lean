import BrewFs.Chunk.CachedStore
import BrewFs.Library.Layers
import Mathlib.Data.List.Infix

/-! The copies that `read_range` makes out of pages of a block. -/

namespace BrewFs.Chunk.ObjectBlockStore

open BrewFs.Buffer BrewFs.Interval BrewFs.Layers List

/-- A piece of a piece of a block. -/
theorem isPrefix_slice {block data : List UInt8} {start : Nat} (piece : data <+: block.drop start)
    (skip count : Nat) : (data.drop skip).take count <+: block.drop (start + skip) := by
  rw [← drop_drop]
  apply IsPrefix.trans ?_ (piece.drop skip)
  exact take_prefix _ _

theorem isPrefix_getElem? {block data : List UInt8} {start i : Nat}
    (piece : data <+: block.drop start)
    (inside : i < data.length) : data[i]? = block[start + i]? := by
  rw [← getElem?_drop]
  obtain ⟨rest, same⟩ := piece
  rw [← same, getElem?_append_left inside]

/-- The pages that a range touches. -/
structure Touches (pageSize offset len startPage endPage : Nat) : Prop where
  pageSize_pos : 0 < pageSize
  start_le : startPage * pageSize ≤ offset
  lt_start : offset < (startPage + 1) * pageSize
  end_lt : endPage * pageSize < offset + len
  le_end : offset + len ≤ (endPage + 1) * pageSize

theorem touches {pageSize len : Nat} (offset : Nat) (pageSize_pos : 0 < pageSize) (pos : 0 < len) :
    Touches pageSize offset len (offset / pageSize) ((offset + len - 1) / pageSize) := by
  have low := Nat.div_mul_le_self offset pageSize
  have high := Nat.div_mul_le_self (offset + len - 1) pageSize
  have lowNext := Nat.lt_mul_of_div_lt (Nat.lt_add_one (offset / pageSize)) pageSize_pos
  have highNext := Nat.lt_mul_of_div_lt (Nat.lt_add_one ((offset + len - 1) / pageSize))
    pageSize_pos
  exact ⟨pageSize_pos, low, lowNext, by omega, by omega⟩

theorem Touches.start_le_end {pageSize offset len startPage endPage : Nat}
    (range : Touches pageSize offset len startPage endPage) (pos : 0 < len) :
    startPage ≤ endPage := by
  have low := range.start_le
  have high := range.le_end
  have bound : startPage * pageSize < (endPage + 1) * pageSize := by omega
  exact Nat.lt_succ_iff.mp (Nat.lt_of_mul_lt_mul_right bound)

/-- Where the copy out of a page begins and ends in the block. -/
def pageLow (pageSize offset page : Nat) : Nat := max offset (page * pageSize)

def pageHigh (pageSize offset len page : Nat) : Nat := min (offset + len) ((page + 1) * pageSize)

section

variable {pageSize offset len startPage endPage middleEnd page : Nat} {block data : List UInt8}

/-- A page's copy begins at the right place and does not go too far. -/
theorem copyOfPage_spec (range : Touches pageSize offset len startPage endPage)
    (lower : startPage ≤ page) (upper : page ≤ endPage)
    (middle : page < endPage → middleEnd = pageSize)
    (piece : data <+: block.drop (page * pageSize)) :
    ∃ bytes : List UInt8,
      (copyOfPage pageSize offset len startPage endPage middleEnd page data).toList =
        (if bytes = [] then [] else [(pageLow pageSize offset page - offset, bytes)]) ∧
      bytes <+: block.drop (pageLow pageSize offset page) ∧
      bytes.length ≤ pageHigh pageSize offset len page - pageLow pageSize offset page := by
  have copyStart : page * pageSize + (if page = startPage then offset - page * pageSize else 0) =
      pageLow pageSize offset page := by
    split
    · simp only [pageLow]
      omega
    have next : (startPage + 1) * pageSize ≤ page * pageSize := Nat.mul_le_mul_right _ (by omega)
    have below := range.lt_start
    simp only [pageLow]
    omega
  have requestedEnd : page * pageSize +
      (if page = endPage then offset + len - page * pageSize else middleEnd) =
      pageHigh pageSize offset len page := by
    have high := range.le_end
    have below := range.end_lt
    split
    · rename_i same
      subst same
      simp only [pageHigh]
      omega
    have next : (page + 1) * pageSize ≤ endPage * pageSize := Nat.mul_le_mul_right _ (by omega)
    have step := Nat.add_one_mul page pageSize
    simp only [pageHigh]
    omega
  simp only [copyOfPage]
  generalize (if page = startPage then offset - page * pageSize else 0) = skip at copyStart ⊢
  generalize (if page = endPage then offset + len - page * pageSize else middleEnd) = stop
    at requestedEnd ⊢
  split
  · refine ⟨(data.drop skip).take (min stop data.length - skip), ?_, ?_, ?_⟩
    · have length : ((data.drop skip).take (min stop data.length - skip)).length ≠ 0 := by
        simp only [length_take, length_drop]
        omega
      rw [if_neg (fun empty => length (length_eq_zero_iff.mpr empty)), copyStart]
      rfl
    · rw [← copyStart]
      exact isPrefix_slice piece skip _
    · simp only [length_take]
      omega
  · exact ⟨[], rfl, nil_prefix, Nat.zero_le _⟩

end

section

variable {pageSize offset len startPage endPage page : Nat} {middleEnd : Nat → Nat}
  {block : List UInt8}

/-- Bytes still to be copied from a page on. -/
def pagesLeft (pageSize offset len page : Nat) : Nat := offset + len - pageLow pageSize offset page

/-- Copies that are right, and complete if they add up to what was asked for. -/
structure CopiesFrom (block : List UInt8) (pageSize offset len page : Nat)
    (copies : List (Nat × List UInt8)) : Prop where
  right : ∀ copy ∈ copies, copy.2 <+: block.drop (offset + copy.1)
  fits : ∀ copy ∈ copies, copy.1 + copy.2.length ≤ len
  sum_le : (copies.map fun copy => copy.2.length).sum ≤ pagesLeft pageSize offset len page
  complete : (copies.map fun copy => copy.2.length).sum = pagesLeft pageSize offset len page →
    ∀ i, pageLow pageSize offset page - offset ≤ i → i < len →
      ∃ span ∈ copies.map patchSpan, Within span i

section

variable (range : Touches pageSize offset len startPage endPage) {copies : List (Nat × List UInt8)}

include range

theorem pageHigh_eq (lower : startPage ≤ page) :
    pageHigh pageSize offset len page = min (offset + len)
      (pageLow pageSize offset (page + 1)) := by
  have start : (startPage + 1) * pageSize ≤ (page + 1) * pageSize :=
    Nat.mul_le_mul_right _ (by omega)
  have low := range.lt_start
  simp only [pageHigh, pageLow]
  omega

theorem pageLow_le_pageHigh (lower : startPage ≤ page) (upper : page ≤ endPage) (pos : 0 < len) :
    pageLow pageSize offset page ≤ pageHigh pageSize offset len page := by
  have last : page * pageSize ≤ endPage * pageSize := Nat.mul_le_mul_right _ upper
  have start : (startPage + 1) * pageSize ≤ (page + 1) * pageSize :=
    Nat.mul_le_mul_right _ (by omega)
  have below := range.end_lt
  have low := range.lt_start
  have step := Nat.add_one_mul page pageSize
  simp only [pageHigh, pageLow]
  omega

theorem CopiesFrom.cons (pos : 0 < len) {bytes : List UInt8} (lower : startPage ≤ page)
    (upper : page ≤ endPage) (piece : bytes <+: block.drop (pageLow pageSize offset page))
    (short : bytes.length ≤ pageHigh pageSize offset len page - pageLow pageSize offset page)
    (tail : CopiesFrom block pageSize offset len (page + 1) copies) :
    CopiesFrom block pageSize offset len page
      ((if bytes = [] then [] else [(pageLow pageSize offset page - offset, bytes)]) ++
        copies) := by
  have ordered := pageLow_le_pageHigh range lower upper pos
  have high := pageHigh_eq range lower
  have from_offset : offset ≤ pageLow pageSize offset page := Nat.le_max_left _ _
  have sum_le := tail.sum_le
  simp only [pagesLeft] at sum_le
  by_cases empty : bytes = []
  · rw [if_pos empty, nil_append]
    refine ⟨tail.right, tail.fits, ?_, fun all i low inside => tail.complete ?_ i ?_ inside⟩
    · simp only [pagesLeft]
      omega
    · simp only [pagesLeft] at all ⊢
      omega
    · simp only [pagesLeft] at all
      omega
  · rw [if_neg empty, singleton_append]
    have place : offset + (pageLow pageSize offset page - offset) =
        pageLow pageSize offset page := by
      omega
    refine ⟨forall_mem_cons.mpr ⟨?_, tail.right⟩, forall_mem_cons.mpr ⟨?_, tail.fits⟩, ?_,
      fun all i low inside => ?_⟩
    · rw [place]
      exact piece
    · simp only
      omega
    · simp only [map_cons, sum_cons, pagesLeft]
      omega
    · simp only [map_cons, sum_cons, pagesLeft] at all
      by_cases here : offset + i < pageHigh pageSize offset len page
      · refine ⟨_, mem_cons_self, ?_⟩
        simp only [Within, patchSpan]
        omega
      obtain ⟨span, listed, within⟩ := tail.complete (by simp only [pagesLeft]; omega) i
        (by omega)
        inside
      exact ⟨span, mem_cons_of_mem _ listed, within⟩

theorem copiesOfPages_spec
    (pos : 0 < len) (middle : ∀ page < endPage, middleEnd page = pageSize) (page : Nat)
    {pages : List (List UInt8)} (lower : startPage ≤ page)
    (count : page + pages.length = endPage + 1)
    (pieces : ∀ k data, pages[k]? = some data → data <+: block.drop ((page + k) * pageSize)) :
    CopiesFrom block pageSize offset len page
      (copiesOfPages pageSize offset len startPage endPage middleEnd page pages) := by
  induction pages generalizing page with
  | nil =>
    have past : (endPage + 1) * pageSize ≤ page * pageSize :=
      Nat.mul_le_mul_right _ (by simp only [length_nil] at count; omega)
    have high := range.le_end
    refine ⟨nofun, nofun, Nat.zero_le _,
      fun _ i low inside => ?_⟩
    simp only [pageLow] at low
    omega
  | cons data rest ih =>
    rw [length_cons] at count
    have tail := ih (page + 1) (by omega) (by omega) fun k later found => by
      have piece := pieces (k + 1) later found
      rwa [show page + (k + 1) = page + 1 + k by omega] at piece
    obtain ⟨bytes, listed, piece, short⟩ := copyOfPage_spec range lower (by omega) (middle page)
      (pieces 0 data rfl)
    rw [copiesOfPages, listed]
    exact CopiesFrom.cons range pos lower (by omega) piece short tail

/-- Copies that add up to what was asked for are it. -/
theorem CopiesFrom.applyPatches_eq
    (from_start : CopiesFrom block pageSize offset len startPage copies)
    (all : (copies.map fun copy => copy.2.length).sum = len) :
    (applyPatches (replicate len 0) copies).length = len ∧
      applyPatches (replicate len 0) copies <+: block.drop offset := by
  have low : pageLow pageSize offset startPage = offset := Nat.max_eq_left range.start_le
  have fits : ∀ copy ∈ copies, copy.1 + copy.2.length ≤ (replicate len (0 : UInt8)).length := by
    rw [length_replicate]
    exact from_start.fits
  have length : (applyPatches (replicate len 0) copies).length = len := by
    rw [length_applyPatches _ copies fits, length_replicate]
  have covered := from_start.complete (by rw [pagesLeft]; omega)
  refine ⟨length, prefix_iff_getElem?.mpr fun i inside => ?_⟩
  rw [length] at inside
  obtain ⟨byte, shown⟩ := Option.isSome_iff_exists.mp
    (stack_patches_isSome.mpr (covered i (by omega) inside))
  obtain ⟨layer, listed, found⟩ := exists_layer_of_stack shown
  obtain ⟨copy, mem, rfl⟩ := mem_map.mp listed
  have within := patchLayer_isSome.mp (Option.isSome_of_eq_some found)
  simp only [Within, patchSpan] at within
  rw [patchLayer, if_pos within.1, isPrefix_getElem? (from_start.right copy mem) (by omega),
    show offset + copy.1 + (i - copy.1) = offset + i by omega] at found
  rw [getElem?_drop, found, ← getElem?_eq_getElem, getElem?_applyPatches _ copies i fits,
    shown, Option.some_or]

end

end

end BrewFs.Chunk.ObjectBlockStore
