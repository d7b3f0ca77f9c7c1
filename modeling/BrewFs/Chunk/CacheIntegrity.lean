import BrewFs.Library.Bytes

/-! `chunk/cache_integrity.rs` and the loads of `chunk/cache.rs`: files of the disk cache with
checksums. -/

namespace BrewFs.Chunk.CacheIntegrity

open BrewFs.Bytes List

inductive CacheIntegrityMode where
  | full
  | none
deriving DecidableEq, Repr

/-- `CS_BLOCK` -/
def csBlock : Nat := 32 * 1024

/-- `MAGIC` -/
def magic : List UInt8 := [0x53, 0x46, 0x43, 0x31]

/-- `HEADER_LEN` -/
def headerLen : Nat := 8

/-- How many checksums data of this length has. -/
def numBlocks (len : Nat) : Nat := (len + csBlock - 1) / csBlock

def blockOf (data : List UInt8) (i : Nat) : List UInt8 := (data.drop (i * csBlock)).take csBlock

/-- The checksum at a place of the file. -/
def checksumAt (raw : List UInt8) (place : Nat) : UInt32 :=
  UInt32.ofNat (fromLe ((raw.drop place).take 4))

section

variable (crc32c : List UInt8 → UInt32)

/-- The header and the checksums. The length is cast to `u32`. -/
def computeFraming (data : List UInt8) : List UInt8 × List UInt8 := (magic ++ toLe 4 data.length,
    (range (numBlocks data.length)).flatMap fun i => toLe 4 (crc32c (blockOf data i)).toNat)

/-- What a store writes. -/
def encode (data : List UInt8) : List UInt8 :=
  (computeFraming crc32c data).1 ++ data ++ (computeFraming crc32c data).2

/-- A file without a frame. -/
def unframed (raw : List UInt8) : Prop := raw.length < headerLen ∨ raw.take 4 ≠ magic

instance (raw : List UInt8) : Decidable (unframed raw) := inferInstanceAs (Decidable (_ ∨ _))

variable (raw : List UInt8)

/-- The length in the header. -/
def dataLen : Nat := fromLe ((raw.drop 4).take 4)

/-- `None` is a damaged file, `Some(None)` one of the older format. -/
def verifiedPayloadRange : Option (Option (Nat × Nat)) :=
  if unframed raw then some none
  else
    let len := dataLen raw
    if raw.length < headerLen + len + numBlocks len * 4 then none
    else
      let data := (raw.drop headerLen).take len
      if ∀ i ∈ range (numBlocks len),
          crc32c (blockOf data i) = checksumAt raw (headerLen + len + i * 4) then
        some (some (headerLen, headerLen + len))
      else none

def decodeBytes : Option (List UInt8) :=
  match verifiedPayloadRange crc32c raw with
  | none => none
  | some none => some raw
  | some (some (start, stop)) => some ((raw.take stop).drop start)

/-- `load` of a file that is there; after `none` it is deleted. -/
def load (mode : CacheIntegrityMode) (raw : List UInt8) : Option (List UInt8) :=
  match mode with
  | .none => some raw
  | .full => decodeBytes crc32c raw

def readLegacyRange (file : List UInt8) (offset len : Nat) : List UInt8 :=
  (file.drop offset).take len

/-- `load_range` of a file that is there; after `none` it is deleted. -/
def loadRange (mode : CacheIntegrityMode) (file : List UInt8) (offset len : Nat) :
    Option (List UInt8) :=
  if len = 0 then some []
  else if mode = .none ∨ unframed file then some (readLegacyRange file offset len)
  else
    let total := dataLen file
    if file.length < headerLen + total + numBlocks total * 4 then none
    else if total ≤ offset then some []
    else
      let copyLen := min len (total - offset)
      let firstBlock := offset / csBlock
      let lastBlock := (offset + copyLen - 1) / csBlock
      let alignedStart := firstBlock * csBlock
      let alignedEnd := min ((lastBlock + 1) * csBlock) total
      let aligned := (file.drop (headerLen + alignedStart)).take (alignedEnd - alignedStart)
      let checksums := (file.drop (headerLen + total + firstBlock * 4)).take
        ((lastBlock - firstBlock + 1) * 4)
      if ∀ i ∈ range (lastBlock - firstBlock + 1),
          let blockStart := (firstBlock + i) * csBlock
          let blockEnd := min (blockStart + csBlock) total
          crc32c ((aligned.take (blockEnd - alignedStart)).drop (blockStart - alignedStart)) =
            checksumAt checksums (i * 4) then
        some ((aligned.drop (offset - alignedStart)).take copyLen)
      else none

/-! ### Damaged files -/

/-- Where the data of a file of that length is. -/
def payload (file : List UInt8) (len : Nat) : List UInt8 := (file.drop headerLen).take len

/-- The magic number is there, and the length is the one written or a larger one, in a file that did
not grow. -/
structure Framed (data file : List UInt8) : Prop where
  framed : ¬ unframed file
  length : dataLen file = data.length ∨
    data.length < dataLen file ∧ file.length ≤ (encode crc32c data).length

/-- The block has kept its bytes; or its checksum, which tells it from the one written. -/
def Recognisable (data file : List UInt8) (i : Nat) : Prop :=
  blockOf (payload file data.length) i = blockOf data i ∨
    checksumAt file (headerLen + data.length + i * 4) = crc32c (blockOf data i) ∧
      ((blockOf (payload file data.length) i).length = (blockOf data i).length →
        crc32c (blockOf (payload file data.length) i) = crc32c (blockOf data i) →
          blockOf (payload file data.length) i = blockOf data i)

end

variable {crc32c : List UInt8 → UInt32} {data file : List UInt8}

theorem getElem?_blockOf (data : List UInt8) (i : Nat) {j : Nat} (inside : j < csBlock) :
    (blockOf data i)[j]? = data[i * csBlock + j]? := by
  rw [blockOf, getElem?_take_of_lt inside, getElem?_drop]

theorem length_blockOf (i : Nat) :
    (blockOf data i).length = min csBlock (data.length - i * csBlock) := by
  rw [blockOf, length_take, length_drop]

theorem getElem?_eq_of_block {first second : List UInt8} {p : Nat}
    (same : blockOf first (p / csBlock) = blockOf second (p / csBlock)) :
    first[p]? = second[p]? := by
  have inside : p % csBlock < csBlock := Nat.mod_lt _ (by decide)
  have split : p / csBlock * csBlock + p % csBlock = p := Nat.div_add_mod' p csBlock
  have left := getElem?_blockOf first (p / csBlock) inside
  have right := getElem?_blockOf second (p / csBlock) inside
  rw [split] at left right
  rw [← left, ← right, same]

theorem lt_numBlocks {len p : Nat} (inside : p < len) : p / csBlock < numBlocks len := by
  have pos : 0 < csBlock := by decide
  have low := Nat.div_mul_le_self p csBlock
  have := Nat.lt_div_mul_add pos (a := len + csBlock - 1)
  rw [numBlocks]
  apply Nat.lt_of_mul_lt_mul_right (a := csBlock)
  omega

/-- A block whose checksum is right is the one that was written. -/
theorem Recognisable.block_eq {i : Nat} (recognisable : Recognisable crc32c data file i)
    (whole : headerLen + data.length ≤ file.length)
    (verified : crc32c (blockOf (payload file data.length) i) =
      checksumAt file (headerLen + data.length + i * 4)) :
    blockOf (payload file data.length) i = blockOf data i := by
  rcases recognisable with same | ⟨kept, distinguishes⟩
  · exact same
  refine distinguishes ?_ (verified.trans kept)
  rw [length_blockOf, length_blockOf, payload, length_take, length_drop]
  omega

section

variable (framed : Framed crc32c data file)

include framed

/-- A length that was made larger asks for more than the file has. -/
theorem Framed.dataLen_eq
    (room : ¬ file.length < headerLen + dataLen file + numBlocks (dataLen file) * 4) :
    dataLen file = data.length := by
  rcases framed.length with same | ⟨larger, written⟩
  · exact same
  have blocks : numBlocks data.length ≤ numBlocks (dataLen file) :=
    Nat.div_le_div_right (by omega)
  simp only [encode, computeFraming, length_append, length_flatMap, length_toLe, map_const',
    length_range, sum_replicate_nat, show magic.length + 4 = headerLen from rfl] at written
  omega

theorem Framed.load_eq (blocks : ∀ i < numBlocks data.length, Recognisable crc32c data file i) :
    load crc32c .full file = none ∨ load crc32c .full file = some data := by
  simp only [load, decodeBytes, verifiedPayloadRange, if_neg framed.framed]
  by_cases cut : file.length < headerLen + dataLen file + numBlocks (dataLen file) * 4
  · rw [if_pos cut]
    exact .inl rfl
  have length := framed.dataLen_eq cut
  rw [length] at cut ⊢
  rw [if_neg cut]
  split_ifs with verified
  · refine .inr (congrArg some ?_)
    rw [drop_take, Nat.add_sub_cancel_left]
    have whole : headerLen + data.length ≤ file.length := by omega
    refine ext_getElem? fun p => ?_
    by_cases inside : p < data.length
    · refine getElem?_eq_of_block ((blocks _ (lt_numBlocks inside)).block_eq whole ?_)
      exact verified _ (mem_range.mpr (lt_numBlocks inside))
    · rw [getElem?_eq_none (by rw [length_take]; omega), getElem?_eq_none (by omega)]
  · exact .inl rfl

end

/-! ### Ranges -/

/-- A block among those that are read at once. -/
theorem block_of_aligned {start stop first last : Nat} (low : start ≤ first) (high : last ≤ stop) :
    ((((file.drop (headerLen + start)).take (stop - start)).take (last - start)).drop
      (first - start)) = (file.drop (headerLen + first)).take (last - first) := by
  rw [take_take, drop_take, drop_drop,
    show headerLen + start + (first - start) = headerLen + first by omega]
  congr 1
  omega

theorem checksumAt_slice {file : List UInt8} {start count place : Nat}
    (inside : place + 4 ≤ count) :
    checksumAt ((file.drop start).take count) place = checksumAt file (start + place) := by
  rw [checksumAt, checksumAt, drop_take, drop_drop, take_take, Nat.min_eq_left (by omega)]

/-- A range needs only the blocks it touches. -/
theorem Framed.loadRange_eq (framed : Framed crc32c data file) {offset len : Nat}
    (blocks : ∀ i, offset / csBlock ≤ i → i * csBlock < min data.length (offset + len) →
      Recognisable crc32c data file i) : loadRange crc32c .full file offset len = none ∨
      loadRange crc32c .full file offset len = some ((data.drop offset).take len) := by
  simp only [loadRange, reduceCtorEq, false_or, if_neg framed.framed]
  by_cases cut : file.length < headerLen + dataLen file + numBlocks (dataLen file) * 4
  · rw [if_pos cut]
    split_ifs with empty
    · exact .inr (by rw [empty, take_zero])
    · exact .inl rfl
  have length := framed.dataLen_eq cut
  rw [length] at cut
  simp only [length, if_neg cut]
  split_ifs with empty beyond verified
  · exact .inr (by rw [empty, take_zero])
  · exact .inr (by rw [drop_eq_nil_of_le beyond, take_nil])
  · refine .inr (congrArg some ?_)
    have whole : headerLen + data.length ≤ file.length := by omega
    generalize copied : min len (data.length - offset) = count at verified ⊢
    have agree : ∀ p < count, (payload file data.length)[offset + p]? = data[offset + p]? := by
      intro p inside
      have touched : offset / csBlock ≤ (offset + p) / csBlock ∧
          (offset + p) / csBlock ≤ (offset + count - 1) / csBlock :=
        ⟨Nat.div_le_div_right (by omega), Nat.div_le_div_right (by omega)⟩
      have below := Nat.div_mul_le_self (offset + p) csBlock
      refine getElem?_eq_of_block ((blocks _ touched.1 (by omega)).block_eq whole ?_)
      have check := verified ((offset + p) / csBlock - offset / csBlock)
        (mem_range.mpr (by omega))
      generalize (offset + p) / csBlock = block at touched check ⊢
      have low : offset / csBlock * csBlock ≤ block * csBlock := Nat.mul_le_mul_right _ touched.1
      have high : (block + 1) * csBlock ≤ ((offset + count - 1) / csBlock + 1) * csBlock :=
        Nat.mul_le_mul_right _ (by omega)
      rw [Nat.add_one_mul] at high
      rw [Nat.add_sub_cancel' touched.1, block_of_aligned low (by omega),
        checksumAt_slice (by omega)] at check
      rw [blockOf, payload, drop_take, drop_drop, take_take, show min csBlock (data.length -
        block * csBlock) = min (block * csBlock + csBlock) data.length - block * csBlock by
          omega, check]
      congr 1
      omega
    refine ext_getElem? fun p => ?_
    by_cases inside : p < count
    · have low := Nat.div_mul_le_self offset csBlock
      have high := Nat.lt_div_mul_add (a := offset + count - 1) (b := csBlock) (by decide)
      rw [getElem?_take_of_lt inside, getElem?_drop, getElem?_take_of_lt,
        getElem?_drop, getElem?_take_of_lt (by omega), getElem?_drop, ← agree p inside,
        payload, getElem?_take_of_lt (by omega), getElem?_drop]
      · congr 1
        omega
      · rw [Nat.add_one_mul]
        omega
    · rw [getElem?_eq_none (by rw [length_take]; omega),
        getElem?_eq_none (by rw [length_take, length_drop]; omega)]
  · exact .inl rfl

/-- While the magic number is intact, the length not smaller, and no block that is read has lost
both its bytes and its checksum, a damaged file is found out or read as written. -/
theorem damaged_file_not_served (crc32c : List UInt8 → UInt32) (data file : List UInt8)
    (framed : Framed crc32c data file) :
    ((∀ i < numBlocks data.length, Recognisable crc32c data file i) →
      load crc32c .full file = none ∨ load crc32c .full file = some data) ∧
    ∀ offset len,
      (∀ i, offset / csBlock ≤ i → i * csBlock < min data.length (offset + len) →
        Recognisable crc32c data file i) →
      loadRange crc32c .full file offset len = none ∨
        loadRange crc32c .full file offset len = some ((data.drop offset).take len) :=
  ⟨framed.load_eq, fun _ _ => framed.loadRange_eq⟩

/-- A checksum for small examples. -/
def sumOf (data : List UInt8) : UInt32 := UInt32.ofNat (fromLe data)

/-- The file of three bytes, the last of them changed. -/
def changedByte : List UInt8 := magic ++ toLe 4 3 ++ [1, 2, 9] ++ toLe 4 (sumOf [1, 2, 3]).toNat

theorem damaged_file_not_served_changed_byte : changedByte ≠ encode sumOf [1, 2, 3] ∧
      (load sumOf .full changedByte = none ∨ load sumOf .full changedByte = some [1, 2, 3]) ∧
      ∀ offset len, loadRange sumOf .full changedByte offset len = none ∨
        loadRange sumOf .full changedByte offset len = some (([1, 2, 3].drop offset).take len) := by
  have first : Recognisable sumOf [1, 2, 3] changedByte 0 := .inr (by decide)
  have served := damaged_file_not_served sumOf [1, 2, 3] changedByte ⟨by decide, .inl rfl⟩
  refine ⟨by decide, served.1 fun i inside => ?_, fun offset len => served.2 offset len
    fun i _ inside => ?_⟩
  · obtain rfl : i = 0 := Nat.lt_one_iff.mp inside
    exact first
  obtain rfl : i = 0 := by
    simp only [csBlock, length_cons, length_nil] at inside
    omega
  exact first

/-- Without a byte of the magic number the whole file is served, header and checksums included; with
the length zeroed nothing is left to verify, and the file is served empty; a block changed together
with its checksum is served changed. -/
theorem unverified_file_served : encode sumOf [1, 2, 3] = 0x53 :: (encode sumOf [1, 2, 3]).tail ∧
      load sumOf .full (0 :: (encode sumOf [1, 2, 3]).tail) =
        some (0 :: (encode sumOf [1, 2, 3]).tail) ∧
      loadRange sumOf .full (0 :: (encode sumOf [1, 2, 3]).tail) 0 3 = some [0, 0x46, 0x43] ∧
      load sumOf .full (magic ++ toLe 4 0 ++ (encode sumOf [1, 2, 3]).drop 8) = some [] ∧
      load sumOf .full (encode sumOf [1, 2, 9]) = some [1, 2, 9] := by
  decide

end BrewFs.Chunk.CacheIntegrity
