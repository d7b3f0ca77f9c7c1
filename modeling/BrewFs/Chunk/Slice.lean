import BrewFs.Library.Bytes

/- `chunk/slice.rs`: slice descriptors, light compaction and the delayed-deletion record format.
The `u64` fields are natural numbers. Ends are added as the release build adds them (`addU64`);
`stop` is the end without a wrap, and results about ranges ask for ends below `2 ^ 64`. -/
namespace BrewFs.Chunk

open BrewFs.Bytes List

def u32Max : Nat := 4294967295

/-- `u64` addition of the release build. -/
def addU64 (a b : Nat) : Nat := (a + b) % 2 ^ 64

theorem addU64_of_lt {a b : Nat} (fits : a + b < 2 ^ 64) : addU64 a b = a + b :=
  Nat.mod_eq_of_lt fits

structure SliceDesc where
  sliceId : Nat
  chunkId : Nat
  /-- Offset relative to the start of the chunk (bytes). -/
  offset : Nat
  /-- Length in bytes. -/
  length : Nat
  deriving DecidableEq, Repr

namespace SliceDesc

/-- One past the last byte of the slice. -/
def stop (slice : SliceDesc) : Nat := slice.offset + slice.length

def Covers (slice : SliceDesc) (p : Nat) : Prop := slice.offset ≤ p ∧ p < slice.stop

instance (slice : SliceDesc) (p : Nat) : Decidable (slice.Covers p) :=
  inferInstanceAs (Decidable (_ ∧ _))

/-- The whole range of `inner` lies in the range of `outer`. -/
def Encloses (outer inner : SliceDesc) : Prop :=
  outer.offset ≤ inner.offset ∧ inner.stop ≤ outer.stop

instance (outer inner : SliceDesc) : Decidable (outer.Encloses inner) :=
  inferInstanceAs (Decidable (_ ∧ _))

theorem Encloses.trans {a b c : SliceDesc} (outer : a.Encloses b) (inner : b.Encloses c) :
    a.Encloses c :=
  ⟨outer.1.trans inner.1, inner.2.trans outer.2⟩

theorem Encloses.covers {outer inner : SliceDesc} (encloses : outer.Encloses inner) {p : Nat}
    (covers : inner.Covers p) : outer.Covers p :=
  ⟨encloses.1.trans covers.1, covers.2.trans_le encloses.2⟩

end SliceDesc

/-- The last entry whose range contains `p`: the writer a reader must see there. -/
def owner (slices : List SliceDesc) (p : Nat) : Option SliceDesc :=
  slices.reverse.find? fun slice => decide (slice.Covers p)

@[simp] theorem owner_nil (p : Nat) : owner [] p = none := rfl

theorem owner_concat (older : List SliceDesc) (slice : SliceDesc) (p : Nat) :
    owner (older ++ [slice]) p = if slice.Covers p then some slice else owner older p := by
  by_cases covers : slice.Covers p <;> simp [owner, covers]

theorem owner_cons (slice : SliceDesc) (newer : List SliceDesc) (p : Nat) :
    owner (slice :: newer) p =
      (owner newer p).or (if slice.Covers p then some slice else none) := by
  by_cases covers : slice.Covers p <;> simp [owner]

variable {slices : List SliceDesc} {p : Nat}

theorem owner_eq_none : owner slices p = none ↔ ∀ slice ∈ slices, ¬ slice.Covers p := by
  simp [owner]

variable {slice : SliceDesc}

theorem owner_mem (owned : owner slices p = some slice) : slice ∈ slices :=
  mem_reverse.mp (mem_of_find?_eq_some owned)

theorem owner_covers (owned : owner slices p = some slice) : slice.Covers p := by
  simpa using find?_some owned

/-- The loop of `remove_fully_covered`, from newest to oldest. -/
def removeLoop : List SliceDesc → List (Nat × Nat) → List SliceDesc → List SliceDesc
  | [], _, result => result
  | slice :: rest, coveredRanges, result =>
    let start := slice.offset
    let stop := addU64 slice.offset slice.length
    let isFullyCovered := coveredRanges.any fun range => decide (range.1 ≤ start ∧ stop ≤ range.2)
    removeLoop rest (coveredRanges ++ [(start, stop)])
      (if isFullyCovered then result else result ++ [slice])

def removeFullyCovered (slices : List SliceDesc) : List SliceDesc :=
  if slices.isEmpty then [] else (removeLoop slices.reverse [] []).reverse

/-- Slice ids of `original` that `merged` lost, in the order of `original`. -/
def findReplacedIds (original merged : List SliceDesc) : List Nat :=
  (original.filter fun slice => !(merged.map (·.sliceId)).contains slice.sliceId).map (·.sliceId)

/-- The same selection from oldest to newest: an entry goes when a later one encloses it. -/
def dropEnclosed : List SliceDesc → List SliceDesc
  | [] => []
  | slice :: newer =>
    if newer.any fun later => decide (later.Encloses slice) then dropEnclosed newer
    else slice :: dropEnclosed newer

private theorem removeLoop_append (front back : List SliceDesc) (ranges : List (Nat × Nat))
    (result : List SliceDesc) (fits : ∀ slice ∈ front, slice.stop < 2 ^ 64) :
    removeLoop (front ++ back) ranges result =
      removeLoop back (ranges ++ front.map fun slice => (slice.offset, slice.stop))
        (removeLoop front ranges result) := by
  induction front generalizing ranges result with
  | nil => simp [removeLoop]
  | cons slice rest ih =>
    rw [forall_mem_cons] at fits
    simp only [cons_append, removeLoop, ih _ _ fits.2, map_cons, addU64_of_lt fits.1]
    rw [append_assoc, singleton_append, SliceDesc.stop]

theorem removeFullyCovered_eq (fits : ∀ slice ∈ slices, slice.stop < 2 ^ 64) :
    removeFullyCovered slices = dropEnclosed slices := by
  have loop : removeLoop slices.reverse [] [] = (dropEnclosed slices).reverse := by
    induction slices with
    | nil => rfl
    | cons slice newer ih =>
      rw [forall_mem_cons] at fits
      rw [reverse_cons, removeLoop_append _ _ _ _ (by simpa using fits.2), ih fits.2]
      have same : ((newer.reverse.map fun later => (later.offset, later.stop)).any fun range =>
            decide (range.1 ≤ slice.offset ∧ slice.offset + slice.length ≤ range.2)) =
          newer.any fun later => decide (later.Encloses slice) := by
        simp only [any_map, any_reverse]
        rfl
      simp only [nil_append, removeLoop, addU64_of_lt fits.1, same, dropEnclosed]
      split <;> simp
  unfold removeFullyCovered
  split
  · next empty => simp [isEmpty_iff.mp empty, dropEnclosed]
  · rw [loop, reverse_reverse]

/-- A slice that light compaction replaces has a later slice around it. -/
theorem enclosed_of_replaced {older newer : List SliceDesc}
    (fits : ∀ other ∈ older ++ slice :: newer, other.stop < 2 ^ 64)
    (replaced : slice.sliceId ∈ findReplacedIds (older ++ slice :: newer)
      (removeFullyCovered (older ++ slice :: newer))) :
    ∃ later ∈ newer, later.Encloses slice := by
  have gone : slice ∉ dropEnclosed (older ++ slice :: newer) := by
    intro mem
    simp only [findReplacedIds, removeFullyCovered_eq fits, mem_map, mem_filter,
      Bool.not_eq_eq_eq_not, Bool.not_true, contains_eq_mem, decide_eq_false_iff_not] at replaced
    obtain ⟨other, ⟨_, missing⟩, same⟩ := replaced
    exact missing ⟨slice, mem, same.symm⟩
  by_contra alone
  apply gone
  clear replaced gone fits
  have stays : slice ∈ dropEnclosed (slice :: newer) := by
    unfold dropEnclosed
    rw [if_neg]
    · exact mem_cons_self
    intro enclosed
    obtain ⟨later, mem, encloses⟩ := any_eq_true.mp enclosed
    exact alone ⟨later, mem, of_decide_eq_true encloses⟩
  induction older with
  | nil => exact stays
  | cons first rest ih =>
    rw [cons_append, dropEnclosed]
    split
    · exact ih
    · exact mem_cons_of_mem _ ih

theorem dropEnclosed_sublist : (dropEnclosed slices).Sublist slices := by
  induction slices with
  | nil => exact .slnil
  | cons slice newer ih =>
    unfold dropEnclosed
    split
    · exact ih.cons slice
    · exact ih.cons_cons slice

/-- The slice around a dropped one covers its bytes, so a newer slice owns them. -/
theorem owner_dropEnclosed (p : Nat) : owner (dropEnclosed slices) p = owner slices p := by
  induction slices with
  | nil => rfl
  | cons slice newer ih =>
    unfold dropEnclosed
    split
    · next enclosed =>
      obtain ⟨later, mem, encloses⟩ := any_eq_true.mp enclosed
      rw [ih, owner_cons]
      cases owned : owner newer p with
      | some _ => rfl
      | none =>
        have free : ¬ slice.Covers p := fun covers =>
          owner_eq_none.mp owned later mem ((of_decide_eq_true encloses).covers covers)
        rw [if_neg free, Option.none_or]
    · rw [owner_cons, owner_cons, ih]

theorem dropEnclosed_pairwise :
    (dropEnclosed slices).Pairwise fun earlier later => ¬ later.Encloses earlier := by
  induction slices with
  | nil => exact .nil
  | cons slice newer ih =>
    unfold dropEnclosed
    split
    · exact ih
    next alone =>
    refine pairwise_cons.mpr ⟨fun later mem encloses => alone ?_, ih⟩
    exact any_eq_true.mpr
      ⟨later, dropEnclosed_sublist.subset mem, decide_eq_true encloses⟩

/-- Light compaction keeps the view: every byte has the owner it had. -/
theorem light_compaction_keeps_view (slices : List SliceDesc)
    (fits : ∀ slice ∈ slices, slice.stop < 2 ^ 64) :
    (removeFullyCovered slices).Sublist slices ∧
      (∀ p, owner (removeFullyCovered slices) p = owner slices p) ∧
      ((removeFullyCovered slices).Pairwise fun earlier later => ¬ later.Encloses earlier) ∧
      ∀ id, id ∈ findReplacedIds slices (removeFullyCovered slices) ↔
        id ∈ slices.map (·.sliceId) ∧ id ∉ (removeFullyCovered slices).map (·.sliceId) := by
  rw [removeFullyCovered_eq fits]
  refine ⟨dropEnclosed_sublist, owner_dropEnclosed, dropEnclosed_pairwise, fun id => ?_⟩
  simp only [findReplacedIds, mem_map, mem_filter, Bool.not_eq_true',
    contains_eq_mem, decide_eq_false_iff_not]
  constructor
  · rintro ⟨slice, ⟨mem, gone⟩, rfl⟩
    exact ⟨⟨slice, mem, rfl⟩, gone⟩
  · rintro ⟨⟨slice, mem, rfl⟩, gone⟩
    exact ⟨slice, ⟨mem, gone⟩, rfl⟩

theorem light_compaction_keeps_view_nested :
    owner (removeFullyCovered [⟨1, 7, 2, 3⟩, ⟨2, 7, 0, 8⟩, ⟨3, 7, 6, 4⟩]) 3 = some ⟨2, 7, 0, 8⟩ :=
  ((light_compaction_keeps_view _ (by decide)).2.1 3).trans rfl

/-- An end that wraps: the old slice goes, and byte 100 loses its only owner. -/
theorem light_compaction_wraps :
    (owner [⟨1, 7, 10, 2 ^ 64 - 10⟩, ⟨2, 7, 0, 20⟩] 100).isSome ∧
      owner (removeFullyCovered [⟨1, 7, 10, 2 ^ 64 - 10⟩, ⟨2, 7, 0, 20⟩]) 100 = none := by
  decide

/-- One 20-byte delayed-deletion record: id, chunk offset, size capped at `u32::MAX`. -/
def delayedRecord (slice : SliceDesc) : List UInt8 :=
  let size := min slice.length u32Max
  toLe 8 slice.sliceId ++ toLe 8 slice.offset ++ toLe 4 size

def encodeDelayedData (slices : List SliceDesc) (replacedIds : List Nat) : List UInt8 :=
  (slices.filter fun slice => replacedIds.contains slice.sliceId).flatMap delayedRecord

/-- `as_chunks::<20>` with the record fields read out of each chunk. -/
def decodeChunks : Nat → List UInt8 → List (Nat × Nat × Nat)
  | 0, _ => []
  | count + 1, data =>
    let chunk := data.take 20
    (fromLe (chunk.take 8), fromLe ((chunk.drop 8).take 8), fromLe (chunk.drop 16)) ::
      decodeChunks count (data.drop 20)

def decodeDelayedData (data : List UInt8) : Option (List (Nat × Nat × Nat)) :=
  if data.length % 20 ≠ 0 then none else some (decodeChunks (data.length / 20) data)

theorem length_delayedRecord : (delayedRecord slice).length = 20 := by
  simp [delayedRecord]

theorem length_flatMap_delayedRecord :
    (slices.flatMap delayedRecord).length = 20 * slices.length := by
  induction slices with
  | nil => rfl
  | cons slice rest ih =>
    rw [flatMap_cons, length_append, length_delayedRecord, length_cons]
    omega

theorem decodeChunks_records (ids : ∀ slice ∈ slices, slice.sliceId < 2 ^ 64)
    (offsets : ∀ slice ∈ slices, slice.offset < 2 ^ 64) :
    decodeChunks slices.length (slices.flatMap delayedRecord) =
      slices.map fun slice => (slice.sliceId, slice.offset, min slice.length u32Max) := by
  induction slices with
  | nil => rfl
  | cons slice rest ih =>
    have there : ((slice :: rest).flatMap delayedRecord).drop 20 = rest.flatMap delayedRecord := by
      rw [flatMap_cons, ← length_delayedRecord, drop_left]
    have id := ids slice mem_cons_self
    have offset := offsets slice mem_cons_self
    have size : min slice.length u32Max < 256 ^ 4 := by
      simp only [u32Max]
      omega
    rw [length_cons, decodeChunks, there,
      ih (fun other mem => ids other (mem_cons_of_mem _ mem))
        (fun other mem => offsets other (mem_cons_of_mem _ mem)), map_cons]
    simp only [List.cons.injEq, Prod.mk.injEq, and_true]
    refine ⟨fromLe_toLe_of_lt 8 _ (by omega), fromLe_toLe_of_lt 8 _ (by omega), ?_⟩
    exact fromLe_toLe_of_lt 4 _ size

/-- What the transaction decodes from a compactor's record list. -/
theorem decode_encodeDelayedData (slices : List SliceDesc) (replacedIds : List Nat)
    (ids : ∀ slice ∈ slices, slice.sliceId < 2 ^ 64)
    (offsets : ∀ slice ∈ slices, slice.offset < 2 ^ 64) :
    decodeDelayedData (encodeDelayedData slices replacedIds) =
      some ((slices.filter fun slice => replacedIds.contains slice.sliceId).map
        fun slice => (slice.sliceId, slice.offset, min slice.length u32Max)) := by
  unfold decodeDelayedData encodeDelayedData
  rw [length_flatMap_delayedRecord, if_neg (by omega),
    Nat.mul_div_cancel_left _ (by decide : 0 < 20), decodeChunks_records]
  · exact fun slice mem => ids slice (mem_filter.mp mem).1
  · exact fun slice mem => offsets slice (mem_filter.mp mem).1

/-- The records give back the slices exactly if every length fits into 32 bits; and bytes are read
exactly if they are whole records. -/
theorem delayed_data_exact_iff {replacedIds : List Nat}
    (words : ∀ slice ∈ slices, slice.sliceId < 2 ^ 64 ∧ slice.offset < 2 ^ 64) :
    (decodeDelayedData (encodeDelayedData slices replacedIds) =
        some ((slices.filter fun slice => replacedIds.contains slice.sliceId).map
          fun slice => (slice.sliceId, slice.offset, slice.length)) ↔
      ∀ slice ∈ slices, slice.sliceId ∈ replacedIds → slice.length ≤ u32Max) ∧
    ∀ data, (decodeDelayedData data).isSome ↔ 20 ∣ data.length := by
  constructor
  · rw [decode_encodeDelayedData _ _ (fun slice mem => (words slice mem).1)
      fun slice mem => (words slice mem).2, Option.some.injEq, map_inj_left]
    simp only [mem_filter, contains_iff_mem, Prod.mk.injEq, true_and, and_imp, min_eq_left_iff]
  intro data
  rw [decodeDelayedData, Nat.dvd_iff_mod_eq_zero]
  split <;> simp_all

theorem delayed_data_exact_small :
    decodeDelayedData (encodeDelayedData [⟨7, 1, 0, 10⟩, ⟨8, 1, 4, 2 ^ 32⟩, ⟨9, 1, 20, u32Max⟩]
      [9, 7]) = some [(7, 0, 10), (9, 20, u32Max)] :=
  (delayed_data_exact_iff (by decide)).1.mpr (by decide)

/-- A slice of 4 GiB in a chunk of that size loses a byte. -/
theorem delayed_length_capped :
    decodeDelayedData (encodeDelayedData [⟨7, 1, 0, 2 ^ 32⟩] [7]) = some [(7, 0, 2 ^ 32 - 1)] := by
  decide

end BrewFs.Chunk
