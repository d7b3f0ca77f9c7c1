import BrewFs.Chunk.Compact.Blocks
import BrewFs.Library.Layers
import Mathlib.Data.Set.Finite.Lemmas

/-! `vfs/cache/write_back.rs`, `vfs/fs/mod.rs`: dirty slices on the local disk, the reads that find
them there and their recovery after a restart. A directory is the list of its files in the order in
which the listing returns them. -/

namespace BrewFs.Vfs

open BrewFs.Buffer BrewFs.Chunk BrewFs.Interval BrewFs.Layers List Option
open BrewFs.Chunk.Compact (chunkByte_concat chunkByte_congr uploadSlice uploadSlice_byte
  uploadSlice_other)
open BrewFs.Meta (extractInoAndChunkIndex)

inductive DirtySliceState where
  | opened
  | sealed
  | uploading
  | uploaded
  | committing
  | committed
  | failed
  | obsolete
deriving DecidableEq, Repr

structure DirtySliceKey where
  ino : Nat
  chunkId : Nat
  localSeq : Nat
  epoch : Nat
deriving DecidableEq, Repr

structure DirtySliceRecord where
  key : DirtySliceKey
  chunkOffset : Nat
  length : Nat
  state : DirtySliceState
  /-- The file at the record's path. -/
  data : Option (List UInt8)
deriving DecidableEq, Repr

/-- A file of the `dirty` tree; no record if unreadable or of another volume. -/
inductive DirtyFile where
  | metaFile (record : Option DirtySliceRecord)
  | sealedFile (record : Option DirtySliceRecord)
  | other

/-- An entry of the directory `dirty`. -/
inductive DirtyEntry where
  | file (file : DirtyFile)
  | dir (files : List DirtyFile) (nested : List (List DirtyFile))

structure WriteBackCache where
  root : List DirtyEntry
  /-- The directory `dirty/<ino>/<chunk>` of the older layout. -/
  legacy : Nat → Nat → List DirtyFile
  recoverableKeys : List DirtySliceKey
  inventoryComplete : Bool

namespace DirtySliceRecord

/-- The record has a byte for the position in the chunk. -/
def Covers (record : DirtySliceRecord) (p : Nat) : Prop :=
  record.chunkOffset ≤ p ∧ p < record.chunkOffset + record.length

instance (record : DirtySliceRecord) (p : Nat) : Decidable (record.Covers p) :=
  inferInstanceAs (Decidable (_ ∧ _))

/-- The record's byte for the position in the chunk. -/
def byteAt (record : DirtySliceRecord) (p : Nat) : Option UInt8 :=
  if record.Covers p then (record.data.getD [])[p - record.chunkOffset]? else none

/-- `read_exact` after a seek. -/
def readExact (data : List UInt8) (offset len : Nat) : Option (List UInt8) :=
  if offset + len ≤ data.length then some ((data.drop offset).take len) else none

/-- What is copied into a buffer from the offset; `none` when the file is too short. -/
def copied (record : DirtySliceRecord) (chunkOffset size : Nat) :
    Option (Option (Nat × List UInt8)) :=
  match record.data with
  | none => some none
  | some data =>
    let start := max chunkOffset record.chunkOffset
    let stop := min (chunkOffset + size) (record.chunkOffset + record.length)
    if stop ≤ start then some none
    else (readExact data (start - record.chunkOffset) (stop - start)).map fun bytes =>
      some (start - chunkOffset, bytes)

end DirtySliceRecord

/-- The record of a file, if it is one of the chunk. -/
def DirtyFile.recordFor (ino chunkId : Nat) : DirtyFile → Option DirtySliceRecord
  | .metaFile record | .sealedFile record =>
    record.filter fun record => record.key.ino = ino ∧ record.key.chunkId = chunkId
  | .other => none

/-- `push_recoverable_meta`, `push_recoverable_sealed` -/
def DirtyFile.recoverable : DirtyFile → Option DirtySliceRecord
  | .metaFile record => record.filter fun record => record.state ∉ [.committed, .obsolete]
  | .sealedFile record => record
  | .other => none

def DirtyEntry.dir? : DirtyEntry → Option (List DirtyFile)
  | .file _ => none
  | .dir files _ => some files

/-- A copy into the buffer, with the spans that have been filled. -/
def overlayFile (ino chunkId chunkOffset : Nat) (buf : List UInt8 × List (Nat × Nat))
    (file : DirtyFile) : Option (List UInt8 × List (Nat × Nat)) :=
  match file.recordFor ino chunkId with
  | none => some buf
  | some record => (record.copied chunkOffset buf.1.length).map fun
      | none => buf
      | some (pos, bytes) => (patch buf.1 pos bytes, buf.2 ++ [(pos, pos + bytes.length)])

/-- `covered` is filled from its start, as far as it goes. -/
def filledUpTo (len : Nat) : List (Nat × Nat) → Nat → Bool
  | [], _ => false
  | (start, next) :: rest, stop =>
    if stop < start then false
    else if len ≤ max stop next then true
    else filledUpTo len rest (max stop next)

namespace WriteBackCache

variable (cache : WriteBackCache)

def hasRecoverableData : Bool :=
  !cache.inventoryComplete || !cache.recoverableKeys.isEmpty

/-- The directories that a read looks through. -/
def dirs (ino chunkId : Nat) : List (List DirtyFile) :=
  cache.root.filterMap DirtyEntry.dir? ++ [cache.legacy ino chunkId]

variable (ino chunkId chunkOffset : Nat) (buf : List UInt8)

/-- `overlay_from_meta_dir`, `read_covered_from_meta_dir` in all the directories. -/
def overlayDirs : Option (List UInt8 × List (Nat × Nat)) :=
  (cache.dirs ino chunkId).foldlM
    (fun buf files => files.foldlM (overlayFile ino chunkId chunkOffset) buf) (buf, [])

def overlayDirtyRange : Option (List UInt8) :=
  if cache.hasRecoverableData then
    (cache.overlayDirs ino chunkId chunkOffset buf).map Prod.fst
  else some buf

def readDirtyRangeIfFullyCovered (ino chunkId chunkOffset len : Nat) :
    Option (Option (List UInt8)) :=
  if len = 0 then some (some [])
  else if cache.hasRecoverableData then
    (cache.overlayDirs ino chunkId chunkOffset (replicate len 0)).map fun read =>
      if filledUpTo len (read.2.insertionSort fun a b => a.1 ≤ b.1) 0 then some read.1 else none
  else some none

/-- `recover` -/
def recover : List DirtySliceRecord := cache.root.flatMap fun
    | .file file => file.recoverable.toList
    | .dir files nested => files.filterMap DirtyFile.recoverable ++
        nested.flatMap fun files => files.filterMap DirtyFile.recoverable

end WriteBackCache

/-- The store the slices are uploaded to. Slice ids are given once. -/
structure Backend where
  nextId : Nat
  blocks : BlockStore
  slices : Nat → List SliceDesc
  inodes : Int → Bool
  given : ∀ chunkId, ∀ slice ∈ slices chunkId, slice.sliceId < nextId

namespace Backend

variable (layout : ChunkLayout) (backend : Backend) (record : DirtySliceRecord) (data : List UInt8)

/-- The metadata commit of an uploaded slice. -/
def commit : Backend where
  nextId := backend.nextId + 1
  blocks := uploadSlice layout backend.blocks backend.nextId data
  slices := Function.update backend.slices record.key.chunkId (backend.slices record.key.chunkId ++
      [⟨backend.nextId, record.key.chunkId, record.chunkOffset, record.length⟩])
  inodes := backend.inodes
  given := by
    intro chunkId slice listed
    by_cases here : chunkId = record.key.chunkId
    · subst here
      rw [Function.update_self] at listed
      rcases mem_append.mp listed with old | new
      · exact Nat.lt_succ_of_lt (backend.given _ slice old)
      · obtain rfl := mem_singleton.mp new
        exact Nat.lt_succ_self _
    · rw [Function.update_of_ne here] at listed
      exact Nat.lt_succ_of_lt (backend.given _ slice listed)

/-- The upload for an inode that is gone. -/
def uploadOrphan : Backend where
  nextId := backend.nextId + 1
  blocks := uploadSlice layout backend.blocks backend.nextId data
  slices := backend.slices
  inodes := backend.inodes
  given := fun chunkId slice listed => Nat.lt_succ_of_lt (backend.given chunkId slice listed)

/-- `reupload_recovered_slice`, when all calls of the backend succeed. -/
def reuploadRecoveredSlice : Backend :=
  if backend.inodes (extractInoAndChunkIndex record.key.chunkId).1 then
    backend.commit layout record data
  else backend.uploadOrphan layout data

/-- A round of `recover_dirty_slices`; other records are removed. -/
def recoverSlice : Backend :=
  match record.data with
  | none => backend
  | some data =>
    match record.state with
    | .sealed | .failed | .uploading => backend.reuploadRecoveredSlice layout record data
    | .opened | .uploaded | .committing | .committed | .obsolete => backend

def recoverDirtySlices (records : List DirtySliceRecord) : Backend :=
  records.foldl (recoverSlice layout) backend

/-- The byte that a reader of the chunk sees. -/
def visible (chunkId p : Nat) : Option UInt8 :=
  chunkByte layout backend.blocks (backend.slices chunkId) p

end Backend

/-! ### The newest record -/

/-- The record covers the position, and no newer one does. -/
def Newest (records : List DirtySliceRecord) (p : Nat) (record : DirtySliceRecord) : Prop :=
  record ∈ records ∧ record.Covers p ∧
    ∀ other ∈ records, other.Covers p → other.key.localSeq ≤ record.key.localSeq

namespace DirtySliceRecord

def Overlaps (first second : DirtySliceRecord) : Prop := max first.chunkOffset second.chunkOffset <
    min (first.chunkOffset + first.length) (second.chunkOffset + second.length)

instance (first second : DirtySliceRecord) : Decidable (first.Overlaps second) :=
  inferInstanceAs (Decidable (_ < _))

/-- The file has all bytes of the record and fits into a chunk. -/
structure Complete (layout : ChunkLayout) (record : DirtySliceRecord) : Prop where
  isSome : record.data.isSome
  whole : record.length ≤ (record.data.getD []).length
  fits : (record.data.getD []).length ≤ layout.chunkSize

end DirtySliceRecord

/-- Overlapping records are listed in the order of their writes. -/
def InOrder (records : List DirtySliceRecord) : Prop := records.Pairwise fun first second =>
    first.Overlaps second → first.key.localSeq < second.key.localSeq

instance (records : List DirtySliceRecord) : Decidable (InOrder records) :=
  inferInstanceAs (Decidable (List.Pairwise _ _))

theorem InOrder.tail {first : DirtySliceRecord} {rest : List DirtySliceRecord}
    (ordered : InOrder (first :: rest)) : InOrder rest :=
  (pairwise_cons.mp ordered).2

variable {p chunkId : Nat} {record : DirtySliceRecord} {records : List DirtySliceRecord}

theorem exists_newest (covered : ∃ record ∈ records, record.Covers p) :
    ∃ record, Newest records p record := by
  obtain ⟨record, ⟨listed, covers⟩, newest⟩ := Set.exists_max_image
    {record | record ∈ records ∧ record.Covers p} (fun record => record.key.localSeq)
    (records.finite_toSet.subset fun _ => And.left) covered
  exact ⟨record, listed, covers, fun other here coversOther => newest other ⟨here, coversOther⟩⟩

/-- What the records show, laid on each other as listed. -/
def shown (records : List DirtySliceRecord) (p : Nat) : Option UInt8 :=
  stack (records.map DirtySliceRecord.byteAt) p

theorem shown_eq_none (bare : ∀ record ∈ records, ¬ record.Covers p) : shown records p = none := by
  refine stack_eq_none.mpr fun layer listed => ?_
  obtain ⟨record, mem, rfl⟩ := mem_map.mp listed
  exact if_neg (bare record mem)

variable {layout : ChunkLayout}

theorem DirtySliceRecord.Complete.byteAt_isSome (complete : record.Complete layout)
    (covers : record.Covers p) : (record.byteAt p).isSome := by
  have whole := complete.whole
  have inside : p - record.chunkOffset < (record.data.getD []).length := by
    simp only [Covers] at covers
    omega
  rw [byteAt, if_pos covers, getElem?_eq_getElem inside]
  rfl

theorem shown_isSome (complete : ∀ record ∈ records, record.Complete layout) :
    (shown records p).isSome = true ↔ ∃ record ∈ records, record.Covers p := by
  constructor
  · intro found
    by_contra bare
    rw [shown_eq_none fun record listed covers => bare ⟨record, listed, covers⟩] at found
    cases found
  rintro ⟨record, listed, covers⟩
  by_contra missing
  rw [Bool.not_eq_true, isSome_eq_false_iff, isNone_iff_eq_none] at missing
  have absent := stack_eq_none.mp missing record.byteAt (mem_map_of_mem listed)
  have found := (complete record listed).byteAt_isSome covers
  rw [absent] at found
  cases found

/-- Listed in order, the records show the newest one. -/
theorem InOrder.shown_newest (ordered : InOrder records)
    (complete : ∀ record ∈ records, record.Complete layout) (newest : Newest records p record) :
    shown records p = record.byteAt p := by
  induction records with
  | nil => cases newest.1
  | cons first rest ih =>
    rw [forall_mem_cons] at complete
    rw [shown, map_cons, stack_cons, ← shown]
    obtain ⟨listed, covers, newer⟩ := newest
    rcases mem_cons.mp listed with rfl | listed
    · rw [shown_eq_none, none_or]
      intro other later coversOther
      have after := (pairwise_cons.mp ordered).1 other later (by
        simp only [DirtySliceRecord.Covers, DirtySliceRecord.Overlaps] at *
        omega)
      exact after.not_ge (newer other (mem_cons_of_mem _ later) coversOther)
    rw [ih ordered.tail complete.2 ⟨listed, covers, fun other later =>
      newer other (mem_cons_of_mem _ later)⟩]
    exact or_of_isSome ((complete.2 record listed).byteAt_isSome covers)

/-! ### Reads -/

theorem DirtySliceRecord.Complete.copied_spec (complete : record.Complete layout)
    (chunkOffset size : Nat) : ∃ copy, record.copied chunkOffset size = some copy ∧
      (∀ item ∈ copy, item.1 + item.2.length ≤ size) ∧
      ∀ i < size, (copy.bind fun item => patchLayer item i) = record.byteAt (chunkOffset + i) := by
  obtain ⟨data, found⟩ := isSome_iff_exists.mp complete.isSome
  have whole := complete.whole
  rw [found, getD_some] at whole
  simp only [copied, byteAt, found]
  split
  · refine ⟨none, rfl, nofun, fun i inside => ?_⟩
    rw [if_neg (by simp only [Covers]; omega)]
    rfl
  rw [readExact, if_pos (by omega)]
  refine ⟨_, rfl, fun item same => ?_, fun i inside => ?_⟩
  · cases same
    simp only [length_take]
    omega
  rw [bind_some, patchLayer_mk]
  by_cases covers : record.Covers (chunkOffset + i)
  · rw [if_pos covers]
    simp only [Covers] at covers
    rw [if_pos (by omega), getElem?_take_of_lt (by omega), getElem?_drop]
    congr 1
    omega
  rw [if_neg covers]
  simp only [Covers] at covers
  split
  · rw [getElem?_eq_none]
    simp only [length_take]
    omega
  · rfl

theorem overlayFiles_spec {ino : Nat} {files : List DirtyFile} (chunkOffset : Nat)
    (buf : List UInt8) (spans : List (Nat × Nat))
    (complete : ∀ record ∈ files.filterMap (DirtyFile.recordFor ino chunkId),
      record.Complete layout) : ∃ copies : List (Nat × List UInt8),
      files.foldlM (overlayFile ino chunkId chunkOffset) (buf, spans) =
        some (applyPatches buf copies, spans ++ copies.map patchSpan) ∧
      (∀ item ∈ copies, item.1 + item.2.length ≤ buf.length) ∧
      ∀ i < buf.length, stack (copies.map patchLayer) i =
        shown (files.filterMap (DirtyFile.recordFor ino chunkId)) (chunkOffset + i) := by
  induction files generalizing buf spans with
  | nil => exact ⟨[], by simp, by simp, fun _ _ => rfl⟩
  | cons file rest ih =>
    rw [foldlM_cons]
    cases found : file.recordFor ino chunkId with
    | none =>
      rw [filterMap_cons_none found] at complete ⊢
      simp only [overlayFile, found]
      exact ih buf spans complete
    | some record =>
      rw [filterMap_cons_some found] at complete ⊢
      rw [forall_mem_cons] at complete
      obtain ⟨copy, copied, fits, layer⟩ := complete.1.copied_spec chunkOffset buf.length
      simp only [overlayFile, found, copied]
      cases copy with
      | none =>
        obtain ⟨copies, run, inside, same⟩ := ih buf spans complete.2
        refine ⟨copies, run, inside, fun i bound => ?_⟩
        rw [same i bound, shown, shown, map_cons, stack_cons, ← layer i bound]
        simp
      | some item =>
        have fit := fits item rfl
        have length := length_patch buf item.1 item.2 fit
        obtain ⟨copies, run, inside, same⟩ := ih (patch buf item.1 item.2)
          (spans ++ [patchSpan item]) complete.2
        rw [length] at inside same
        refine ⟨item :: copies, ?_, forall_mem_cons.mpr ⟨fit, inside⟩, fun i bound => ?_⟩
        · simpa [patchSpan] using run
        rw [map_cons, stack_cons, same i bound, shown, shown, map_cons, stack_cons,
          ← layer i bound]
        simp

theorem foldlM_flatten {σ α : Type} (step : σ → α → Option σ) (lists : List (List α)) (s : σ) :
    lists.foldlM (fun s list => list.foldlM step s) s = lists.flatten.foldlM step s := by
  induction lists generalizing s with
  | nil => rfl
  | cons first rest ih =>
    rw [flatten_cons, foldlM_append]
    exact congrArg _ (funext ih)

/-- The loop over the sorted spans finds whether they cover all. -/
theorem filledUpTo_iff {len stop : Nat} {spans : List (Nat × Nat)} (below : stop < len)
    (sorted : spans.Pairwise fun a b => a.1 ≤ b.1) :
    filledUpTo len spans stop = true ↔ ∀ p, stop ≤ p → p < len → ∃ span ∈ spans, Within span p := by
  induction spans generalizing stop with
  | nil =>
    simp only [filledUpTo, Bool.false_eq_true, false_iff]
    intro covered
    obtain ⟨_, listed, _⟩ := covered stop (le_rfl) below
    cases listed
  | cons span rest ih =>
    obtain ⟨start, next⟩ := span
    obtain ⟨first, sorted⟩ := pairwise_cons.mp sorted
    simp only [filledUpTo]
    split
    · simp only [Bool.false_eq_true, false_iff]
      intro covered
      obtain ⟨span, listed, inside⟩ := covered stop (le_rfl) below
      have later : start ≤ span.1 := by
        rcases mem_cons.mp listed with rfl | listed
        · exact le_rfl
        · exact first span listed
      have := inside.1
      omega
    · split
      · simp only [true_iff]
        exact fun p lower upper => ⟨_, mem_cons_self, by simp only [Within]; omega⟩
      rw [ih (by omega) sorted]
      constructor <;> intro covered p lower upper
      · by_cases beyond : max stop next ≤ p
        · obtain ⟨span, listed, inside⟩ := covered p beyond upper
          exact ⟨span, mem_cons_of_mem _ listed, inside⟩
        · exact ⟨_, mem_cons_self, by simp only [Within]; omega⟩
      obtain ⟨span, listed, inside⟩ := covered p (by omega) upper
      rcases mem_cons.mp listed with rfl | listed
      · simp only [Within] at inside
        omega
      · exact ⟨span, listed, inside⟩

namespace WriteBackCache

/-- The records of the chunk, in the order a read meets them. -/
def listed (cache : WriteBackCache) (ino chunkId : Nat) : List DirtySliceRecord :=
  (cache.dirs ino chunkId).flatten.filterMap (DirtyFile.recordFor ino chunkId)

variable {layout : ChunkLayout} {cache : WriteBackCache} {ino chunkId : Nat}

/-- The inventory has the records that are on the disk. -/
def Known (cache : WriteBackCache) (ino chunkId : Nat) : Prop := cache.inventoryComplete = true →
    ∀ record ∈ cache.listed ino chunkId, record.key ∈ cache.recoverableKeys

theorem Known.listed_eq_nil (known : cache.Known ino chunkId)
    (nothing : cache.hasRecoverableData = false) : cache.listed ino chunkId = [] := by
  simp only [hasRecoverableData, Bool.or_eq_false_iff, Bool.not_eq_false', List.isEmpty_iff]
    at nothing
  refine List.eq_nil_iff_forall_not_mem.mpr fun record listed => ?_
  have found := known nothing.1 record listed
  rw [nothing.2] at found
  cases found

section

variable (complete : ∀ record ∈ cache.listed ino chunkId, record.Complete layout)

include complete

theorem overlayDirs_spec (chunkOffset : Nat) (buf : List UInt8) :
    ∃ out spans, cache.overlayDirs ino chunkId chunkOffset buf = some (out, spans) ∧
      out.length = buf.length ∧
      (∀ i < buf.length, out[i]? =
        (shown (cache.listed ino chunkId) (chunkOffset + i)).or buf[i]?) ∧
      ∀ i < buf.length, (∃ span ∈ spans, Within span i) ↔
        (shown (cache.listed ino chunkId) (chunkOffset + i)).isSome := by
  obtain ⟨copies, run, fits, same⟩ := overlayFiles_spec chunkOffset buf [] complete
  refine ⟨_, _, (foldlM_flatten _ _ _).trans run, length_applyPatches buf copies fits,
    fun i inside => ?_, fun i inside => ?_⟩
  · rw [getElem?_applyPatches buf copies i fits, same i inside]
    rfl
  have same : stack (copies.map patchLayer) i =
      shown (cache.listed ino chunkId) (chunkOffset + i) := same i inside
  rw [← same, stack_patches_isSome, nil_append]

variable (known : cache.Known ino chunkId)

include known

theorem overlayDirtyRange_spec (chunkOffset : Nat) (buf : List UInt8)
    : ∃ out, cache.overlayDirtyRange ino chunkId chunkOffset buf = some out ∧
      out.length = buf.length ∧
      ∀ i < buf.length, out[i]? =
        (shown (cache.listed ino chunkId) (chunkOffset + i)).or buf[i]? := by
  unfold overlayDirtyRange
  split
  · obtain ⟨out, spans, run, length, bytes, _⟩ := overlayDirs_spec complete chunkOffset buf
    exact ⟨out, by rw [run]; rfl, length, bytes⟩
  rename_i nothing
  refine ⟨buf, rfl, rfl, fun i inside => ?_⟩
  rw [known.listed_eq_nil (by simpa using nothing)]
  rfl

theorem readDirtyRangeIfFullyCovered_spec (chunkOffset len : Nat) :
    ∃ answer, cache.readDirtyRangeIfFullyCovered ino chunkId chunkOffset len = some answer ∧
      (answer.isSome = true ↔
        ∀ i < len, (shown (cache.listed ino chunkId) (chunkOffset + i)).isSome = true) ∧
      ∀ bytes ∈ answer, bytes.length = len ∧
        ∀ i < len, bytes[i]? = shown (cache.listed ino chunkId) (chunkOffset + i) := by
  unfold readDirtyRangeIfFullyCovered
  split
  · rename_i empty
    subst empty
    exact ⟨some [], rfl, by simp, by simp⟩
  rename_i positive
  split
  · obtain ⟨out, spans, run, length, bytes, filled⟩ :=
      overlayDirs_spec complete chunkOffset (replicate len 0)
    rw [length_replicate] at length bytes filled
    have covered : filledUpTo len (spans.insertionSort fun a b => a.1 ≤ b.1) 0 = true ↔
        ∀ i < len, (shown (cache.listed ino chunkId) (chunkOffset + i)).isSome = true := by
      rw [filledUpTo_iff (Nat.pos_of_ne_zero positive) (pairwise_insertionSort _ spans)]
      simp only [mem_insertionSort, Nat.zero_le, true_implies]
      exact forall₂_congr filled
    simp only [run, map_some]
    refine ⟨_, rfl, ?_, fun answer given => ?_⟩
    · rw [← covered]
      split <;> simp [*]
    simp only [mem_def, ite_none_right_eq_some, Option.some.injEq] at given
    obtain ⟨full, rfl⟩ := given
    refine ⟨length, fun i inside => ?_⟩
    rw [bytes i inside]
    exact or_of_isSome (covered.mp full i inside)
  · rename_i nothing
    rw [known.listed_eq_nil (by simpa using nothing)]
    refine ⟨none, rfl, ?_, by simp⟩
    simp only [isSome_none, Bool.false_eq_true, false_iff]
    intro covered
    cases covered 0 (Nat.pos_of_ne_zero positive)

end

end WriteBackCache

/-! ### Recovery -/

namespace Backend

variable {layout : ChunkLayout} {backend : Backend} {record : DirtySliceRecord}

/-- An upload under a new id changes no visible byte. -/
theorem chunkByte_upload (backend : Backend) (data : List UInt8) (chunkId p : Nat) :
    chunkByte layout (uploadSlice layout backend.blocks backend.nextId data)
      (backend.slices chunkId) p = backend.visible layout chunkId p :=
  chunkByte_congr (fun slice listed => uploadSlice_other (backend.given chunkId slice listed).ne) p

theorem visible_commit (complete : record.Complete layout) :
    (backend.commit layout record (record.data.getD [])).visible layout record.key.chunkId p =
      (record.byteAt p).or (backend.visible layout record.key.chunkId p) := by
  simp only [commit, visible, Function.update_self]
  rw [chunkByte_concat]
  by_cases covers : record.Covers p
  · have inside : p - record.chunkOffset < (record.data.getD []).length := by
      have whole := complete.whole
      simp only [DirtySliceRecord.Covers] at covers
      omega
    rw [or_of_isSome (complete.byteAt_isSome covers), if_pos (by exact covers),
      uploadSlice_byte complete.fits inside, DirtySliceRecord.byteAt, if_pos covers]
  · rw [if_neg (by exact covers), DirtySliceRecord.byteAt, if_neg covers]
    exact backend.chunkByte_upload (record.data.getD []) record.key.chunkId p

theorem recoverSlice_cases : backend.recoverSlice layout record = backend ∨
      ∃ data, backend.recoverSlice layout record = backend.commit layout record data ∨
        backend.recoverSlice layout record = backend.uploadOrphan layout data := by
  unfold recoverSlice reuploadRecoveredSlice
  grind

theorem visible_recoverSlice_other (other : record.key.chunkId ≠ chunkId) :
    (backend.recoverSlice layout record).visible layout chunkId p =
      backend.visible layout chunkId p := by
  rcases backend.recoverSlice_cases with same | ⟨data, same | same⟩ <;> rw [same]
  · simp only [commit, visible, Function.update_of_ne other.symm]
    exact backend.chunkByte_upload data chunkId p
  · exact backend.chunkByte_upload data chunkId p

/-- The record is uploaded and committed by the recovery. -/
structure Recovers (layout : ChunkLayout) (backend : Backend)
    (record : DirtySliceRecord) : Prop where
  complete : record.Complete layout
  sealed : record.state = .sealed
  exists_inode : backend.inodes (extractInoAndChunkIndex record.key.chunkId).1 = true

theorem recoverSlice_eq (recovers : Recovers layout backend record) :
    backend.recoverSlice layout record = backend.commit layout record (record.data.getD []) := by
  obtain ⟨data, found⟩ := isSome_iff_exists.mp recovers.complete.isSome
  simp only [recoverSlice, found, recovers.sealed, reuploadRecoveredSlice, recovers.exists_inode,
    if_true, getD_some]

theorem inodes_recoverSlice : (backend.recoverSlice layout record).inodes = backend.inodes := by
  rcases backend.recoverSlice_cases with same | ⟨data, same | same⟩ <;> rw [same] <;> rfl

/-- The recovered records lie on what was visible, in the order found. -/
theorem visible_recoverDirtySlices {records : List DirtySliceRecord}
    (recovers : ∀ record ∈ records, record.key.chunkId = chunkId → Recovers layout backend record) :
    (backend.recoverDirtySlices layout records).visible layout chunkId p =
      (shown (records.filter fun record => record.key.chunkId = chunkId) p).or
        (backend.visible layout chunkId p) := by
  induction records generalizing backend with
  | nil => rfl
  | cons first rest ih =>
    rw [forall_mem_cons] at recovers
    have later : ∀ record ∈ rest, record.key.chunkId = chunkId →
        Recovers layout (backend.recoverSlice layout first) record := by
      intro record listed same
      obtain ⟨complete, sealed, present⟩ := recovers.2 record listed same
      exact ⟨complete, sealed, by rw [inodes_recoverSlice]; exact present⟩
    rw [recoverDirtySlices, foldl_cons, ← recoverDirtySlices, ih later]
    by_cases here : first.key.chunkId = chunkId
    · subst here
      have found := recovers.1 rfl
      rw [recoverSlice_eq found, visible_commit found.complete,
        filter_cons_of_pos (by simp), shown, shown, map_cons, stack_cons, Option.or_assoc]
    · rw [visible_recoverSlice_other here, filter_cons_of_neg (by simpa using here)]

end Backend

/-! ### The order of writing -/

/-- The records in the order in which they were written. -/
def byLocalSeq (records : List DirtySliceRecord) : List DirtySliceRecord :=
  records.insertionSort fun first second => first.key.localSeq ≤ second.key.localSeq

theorem mem_byLocalSeq : record ∈ byLocalSeq records ↔ record ∈ records := mem_insertionSort _

theorem InOrder.byLocalSeq (ordered : InOrder records) : InOrder (byLocalSeq records) := by
  have distinct : records.Pairwise fun first second =>
      first.Overlaps second → first.key.localSeq ≠ second.key.localSeq :=
    ordered.imp fun earlier overlap => (earlier overlap).ne
  have kept := (perm_insertionSort
    (fun first second : DirtySliceRecord => first.key.localSeq ≤ second.key.localSeq)
    records).symm.pairwise
      distinct (fun {first second} apart overlap => by
        refine (apart ?_).symm
        simp only [DirtySliceRecord.Overlaps] at overlap ⊢
        omega)
  have sorted := pairwise_insertionSort
    (fun first second : DirtySliceRecord => first.key.localSeq ≤ second.key.localSeq) records
  exact kept.imp₂ (fun _ _ apart before overlap => Nat.lt_of_le_of_ne before (apart overlap)) sorted

/-- Records listed in order show the same when sorted. -/
theorem InOrder.shown_byLocalSeq (ordered : InOrder records)
    (complete : ∀ record ∈ records, record.Complete layout) :
    shown (Vfs.byLocalSeq records) p = shown records p := by
  by_cases covered : ∃ record ∈ records, record.Covers p
  · obtain ⟨record, newest⟩ := exists_newest covered
    rw [ordered.shown_newest complete newest, ordered.byLocalSeq.shown_newest
      (fun record listed => complete record (mem_byLocalSeq.mp listed))
      (by simpa only [Newest, mem_byLocalSeq] using newest)]
  have bare : ∀ record ∈ records, ¬ record.Covers p := fun record listed covers =>
    covered ⟨record, listed, covers⟩
  rw [shown_eq_none bare, shown_eq_none fun record listed =>
    bare record (mem_byLocalSeq.mp listed)]

/-- The chunk's records among those a recovery has found. -/
def ofChunk (chunkId : Nat) (records : List DirtySliceRecord) : List DirtySliceRecord :=
  records.filter fun record => record.key.chunkId = chunkId

/-- Where overlapping records are found in the order of their writes, the reads find the newest
record of every byte, and the recovery leaves what commits in that order would. -/
theorem recovery_follows_writes (layout : ChunkLayout) (cache : WriteBackCache) (backend : Backend)
    (ino chunkId : Nat) (known : cache.Known ino chunkId)
    (complete : ∀ record ∈ cache.listed ino chunkId, record.Complete layout)
    (ordered : InOrder (cache.listed ino chunkId))
    (recovers : ∀ record ∈ ofChunk chunkId cache.recover, Backend.Recovers layout backend record)
    (recoverOrdered : InOrder (ofChunk chunkId cache.recover)) :
    (∀ chunkOffset buf, ∃ out, cache.overlayDirtyRange ino chunkId chunkOffset buf = some out ∧
      out.length = buf.length ∧ ∀ i < buf.length,
        (∀ record, Newest (cache.listed ino chunkId) (chunkOffset + i) record →
          out[i]? = record.byteAt (chunkOffset + i)) ∧
        ((∀ record ∈ cache.listed ino chunkId, ¬ record.Covers (chunkOffset + i)) →
          out[i]? = buf[i]?)) ∧
    (∀ chunkOffset len, ∃ answer,
      cache.readDirtyRangeIfFullyCovered ino chunkId chunkOffset len = some answer ∧
      (answer.isSome = true ↔
        ∀ i < len, ∃ record ∈ cache.listed ino chunkId, record.Covers (chunkOffset + i)) ∧
      ∀ bytes ∈ answer, bytes.length = len ∧ ∀ i < len,
        ∀ record, Newest (cache.listed ino chunkId) (chunkOffset + i) record →
          bytes[i]? = record.byteAt (chunkOffset + i)) ∧
    ∀ p, (backend.recoverDirtySlices layout cache.recover).visible layout chunkId p =
      (backend.recoverDirtySlices layout (byLocalSeq (ofChunk chunkId cache.recover))).visible
        layout chunkId p := by
  refine ⟨fun chunkOffset buf => ?_, fun chunkOffset len => ?_, fun p => ?_⟩
  · obtain ⟨out, run, length, bytes⟩ :=
      WriteBackCache.overlayDirtyRange_spec complete known chunkOffset buf
    refine ⟨out, run, length, fun i inside => ⟨fun record newest => ?_, fun bare => ?_⟩⟩
    · rw [bytes i inside, ordered.shown_newest complete newest]
      exact or_of_isSome ((complete record newest.1).byteAt_isSome newest.2.1)
    · rw [bytes i inside, shown_eq_none bare, none_or]
  · obtain ⟨answer, run, full, bytes⟩ :=
      WriteBackCache.readDirtyRangeIfFullyCovered_spec complete known chunkOffset len
    simp only [shown_isSome complete] at full
    refine ⟨answer, run, full, fun read given =>
      ⟨(bytes read given).1, fun i inside record newest => ?_⟩⟩
    rw [(bytes read given).2 i inside, ordered.shown_newest complete newest]
  · have sortedRecovers : ∀ record ∈ byLocalSeq (ofChunk chunkId cache.recover),
        Backend.Recovers layout backend record :=
      fun record listed => recovers record (mem_byLocalSeq.mp listed)
    have sameChunk : (byLocalSeq (ofChunk chunkId cache.recover)).filter
        (fun record => record.key.chunkId = chunkId) =
          byLocalSeq (ofChunk chunkId cache.recover) := by
      refine filter_eq_self.mpr fun record listed => ?_
      exact (mem_filter.mp (mem_byLocalSeq.mp listed)).2
    rw [Backend.visible_recoverDirtySlices (fun record listed same => recovers record
        (mem_filter.mpr ⟨listed, decide_eq_true same⟩)),
      Backend.visible_recoverDirtySlices (fun record listed _ => sortedRecovers record listed),
      sameChunk, recoverOrdered.shown_byLocalSeq fun record listed =>
        (recovers record listed).complete]
    rfl

def twoBlockLayout : ChunkLayout where
  chunkSize := 4
  blockSize := 2
  blockSize_pos := Nat.two_pos
  aligned := by decide
  blocksFit := by decide
  chunkFits := show 5 ≤ 2 ^ 64 by decide

/-- Two bytes at the start of a chunk. -/
def dirtyPair (localSeq : Nat) (byte : UInt8) : DirtySliceRecord :=
  ⟨⟨1, 7, localSeq, 0⟩, 0, 2, .sealed, some [byte, byte]⟩

/-- A bucket with sealed files, as it is listed. -/
def bucketOf (records : List DirtySliceRecord) : WriteBackCache where
  root := [.dir (records.map fun record => .sealedFile (some record)) []]
  legacy := fun _ _ => []
  recoverableKeys := []
  inventoryComplete := false

def bareBackend : Backend where
  nextId := 1
  blocks := fun _ => none
  slices := fun _ => []
  inodes := fun _ => true
  given := nofun

theorem dirtyPair_recovers (localSeq : Nat) (byte : UInt8) :
    Backend.Recovers twoBlockLayout bareBackend (dirtyPair localSeq byte) :=
  ⟨⟨rfl, by simp [dirtyPair], by simp [dirtyPair, twoBlockLayout]⟩, rfl, rfl⟩

theorem recovery_follows_writes_in_order : InOrder [dirtyPair 1 1, dirtyPair 2 2] ∧
      ∀ p, (bareBackend.recoverDirtySlices twoBlockLayout
          (bucketOf [dirtyPair 1 1, dirtyPair 2 2]).recover).visible twoBlockLayout 7 p =
        (bareBackend.recoverDirtySlices twoBlockLayout (byLocalSeq (ofChunk 7
          (bucketOf [dirtyPair 1 1, dirtyPair 2 2]).recover))).visible twoBlockLayout 7 p := by
  have both : ∀ record ∈ [dirtyPair 1 1, dirtyPair 2 2],
      Backend.Recovers twoBlockLayout bareBackend record := by
    simp only [forall_mem_cons]
    exact ⟨dirtyPair_recovers 1 1, dirtyPair_recovers 2 2, by simp⟩
  have ordered : InOrder [dirtyPair 1 1, dirtyPair 2 2] := by decide
  exact ⟨ordered, (recovery_follows_writes twoBlockLayout (bucketOf [dirtyPair 1 1, dirtyPair 2 2])
    bareBackend 1 7 nofun
    (fun record listed => (both record listed).complete) ordered both ordered).2.2⟩

/-- The bucket lists the newer of two overlapping slices first: reads and recovery end with the
older one. -/
theorem older_slice_listed_last :
    Newest ((bucketOf [dirtyPair 2 2, dirtyPair 1 1]).listed 1 7) 0 (dirtyPair 2 2) ∧
      (bucketOf [dirtyPair 2 2, dirtyPair 1 1]).overlayDirtyRange 1 7 0 [0, 0] = some [1, 1] ∧
      (bucketOf [dirtyPair 2 2, dirtyPair 1 1]).readDirtyRangeIfFullyCovered 1 7 0 2 =
        some (some [1, 1]) ∧
      (bareBackend.recoverDirtySlices twoBlockLayout
        (bucketOf [dirtyPair 2 2, dirtyPair 1 1]).recover).visible twoBlockLayout 7 0 = some 1 ∧
      (bareBackend.recoverDirtySlices twoBlockLayout (byLocalSeq (ofChunk 7
        (bucketOf [dirtyPair 2 2, dirtyPair 1 1]).recover))).visible twoBlockLayout 7 0 =
          some 2 := by
  unfold Newest
  decide +kernel

end BrewFs.Vfs
