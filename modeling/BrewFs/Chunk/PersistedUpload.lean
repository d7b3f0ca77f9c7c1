import BrewFs.Chunk.Compress
import BrewFs.Library.Buffer

/-! Blocks that are uploaded from their parts: `prepare_persisted_upload` in `chunk/compress.rs`. -/

namespace BrewFs.Chunk

open BrewFs.Buffer List

/-- `ZSTD_PROBE_MIN_BLOCK` -/
def zstdProbeMinBlock : Nat := 1024 * 1024

/-- `ZSTD_PROBE_LEN` -/
def zstdProbeLen : Nat := 8192

/-- The compression libraries. `zstd` is `bulk::compress` here, without samples. -/
structure Libraries extends Codec where
  /-- `Compressor::new` succeeds. -/
  compressor : Int → Bool
  sample : Int → List UInt8 → Option (List UInt8)
  unzstd_short : ∀ level data body limit, zstd level data = some body → limit < data.length →
    unzstd body limit = none

structure PersistedUpload where
  cacheBlock : Option (List UInt8)
  chunks : List (List UInt8)
  compression : Compression

namespace Libraries

variable (lib : Libraries)

/-- The loop of `zstd_samples_worth_compressing`. -/
def probe (level : Int) : List (List UInt8) → Nat → Bool
  | [], compressedLen => compressedLen * 100 < 3 * zstdProbeLen * 95
  | sample :: rest, compressedLen =>
    match lib.sample level sample with
    | none => true
    | some compressed =>
      compressed.length * 5 ≤ sample.length * 4 ||
        probe level rest (compressedLen + compressed.length)

def samplesWorthCompressing (level : Int) (first second third : List UInt8) : Bool :=
  first == second || first == third || second == third || !lib.compressor level ||
    lib.probe level [first, second, third] 0

/-- The three samples of a block of this length. -/
def worth (level : Int) (total : Nat) (sample : Nat → List UInt8) : Bool :=
  lib.samplesWorthCompressing level (sample 0) (sample (total / 2)) (sample (total - zstdProbeLen))

def compressZstd (level : Int) (data : List UInt8) : Option (List UInt8) :=
  if zstdProbeMinBlock ≤ data.length ∧
      lib.worth level data.length (fun start => (data.drop start).take zstdProbeLen) =
      false then none
  else lib.zstd level data

/-- The codec of the store, which samples large blocks. -/
def codec : Codec :=
  { lib.toCodec with
    zstd := lib.compressZstd
    unzstd_zstd := fun level data body limit encoded => by
      obtain ⟨_, encoded⟩ := Option.ite_none_left_eq_some.mp encoded
      exact lib.unzstd_zstd level data body limit encoded }

/-- The copies of one sample from the parts, which begin at `partStart`. -/
def gather (start : Nat) : Nat → List (List UInt8) → List UInt8 → List UInt8
  | _, [], sampled => sampled
  | partStart, part :: rest, sampled =>
    let first := max start partStart
    let stop := min (start + zstdProbeLen) (partStart + part.length)
    let sampled :=
      if first < stop then
        patch sampled (first - start) ((part.drop (first - partStart)).take (stop - first))
      else sampled
    if start + zstdProbeLen ≤ partStart + part.length then sampled
    else gather start (partStart + part.length) rest sampled

variable (parts : List (List UInt8))

def encodeVectored (compression : Compression) : List UInt8 × List UInt8 :=
  match parts with
  | [single] => (single, lib.codec.encodePersistedBlock single compression)
  | parts =>
    let framed := magic ++ [Compression.none.algoByte, 0] ++ parts.flatten
    let raw := framed.drop persistedHeaderLen
    (raw, (lib.codec.compress raw compression).getD framed)

/-- The parts of a large block are uploaded as they are. -/
def uploadsRaw : Compression → Bool
  | .none => true
  | .lz4 => false
  | .zstd level => !lib.worth level (parts.map length).sum fun start =>
      gather start 0 parts (replicate zstdProbeLen 0)

/-- `prepare_persisted_upload`; `none` would be its panic. -/
def prepareUpload (compression : Compression) (needsContiguous : Bool) : Option PersistedUpload :=
  if needsContiguous = false ∧ zstdProbeMinBlock ≤ (parts.map length).sum ∧
      lib.uploadsRaw parts compression then
    some ⟨none, (magic ++ [0, 0]) :: parts, .none⟩
  else
    let (cacheBlock, frame) := lib.encodeVectored parts compression
    match parsePersistedHeader frame with
    | .framed compression => some ⟨some cacheBlock, [frame], compression⟩
    | _ => none

variable {lib} {data sampled : List UInt8} {parts : List (List UInt8)} {compression : Compression}
  {limit start : Nat}

theorem decompressFramed_short (short : limit < data.length) :
    lib.codec.decompressFramed (lib.codec.encodePersistedBlock data compression) limit = none := by
  have refused : ¬ data.length ≤ limit := by omega
  cases encoded : lib.codec.compress data compression with
  | none =>
    rw [Codec.encodePersistedBlock, encoded]
    exact if_neg refused
  | some frame =>
    rw [Codec.encodePersistedBlock, encoded]
    obtain ⟨body, found, rfl⟩ := Codec.compress_eq_some encoded
    cases compression with
    | none => cases found
    | lz4 =>
      cases found
      have size := lib.lz4Size_lz4 data
      simp [Codec.decompressFramed, parsePersistedHeader, magic, Compression.algoByte,
        Compression.fromAlgoByte, persistedHeaderLen, codec, size, refused]
    | zstd level =>
      obtain ⟨_, found⟩ := Option.ite_none_left_eq_some.mp found
      exact lib.unzstd_short level data body limit found short

theorem sample_eq {all : List UInt8} (size : sampled.length = zstdProbeLen)
    (right : ∀ i < zstdProbeLen, start + i < all.length → sampled[i]? = all[start + i]?)
    (inside : start + zstdProbeLen ≤ all.length) :
    sampled = (all.drop start).take zstdProbeLen := by
  apply ext_getElem?
  intro i
  by_cases short : i < zstdProbeLen
  · rw [getElem?_take_of_lt short, getElem?_drop]
    exact right i short (by omega)
  rw [getElem?_eq_none (by omega), getElem?_eq_none]
  simp only [length_take]
  omega

theorem gather_eq (before : List UInt8) (size : sampled.length = zstdProbeLen)
    (right : ∀ i < zstdProbeLen, start + i < before.length → sampled[i]? = before[start + i]?)
    (inside : start + zstdProbeLen ≤ (before ++ parts.flatten).length) :
    gather start before.length parts sampled =
      ((before ++ parts.flatten).drop start).take zstdProbeLen := by
  induction parts generalizing before sampled with
  | nil =>
    rw [flatten_nil, append_nil] at inside ⊢
    exact sample_eq size right inside
  | cons part rest ih =>
    rw [flatten_cons, ← append_assoc] at inside ⊢
    simp only [gather]
    generalize first_eq : max start before.length = first
    generalize stop_eq : min (start + zstdProbeLen) (before.length + part.length) = stop
    have piece : ((part.drop (first - before.length)).take (stop - first)).length =
        stop - first := by
      rw [length_take, length_drop]
      omega
    generalize copied : (if first < stop then patch sampled (first - start)
      ((part.drop (first - before.length)).take (stop - first)) else sampled) = next
    have kept : next.length = zstdProbeLen := by
      subst copied
      split
      · rw [length_patch _ _ _ (by omega), size]
      · exact size
    have filled : ∀ i < zstdProbeLen, start + i < (before ++ part).length →
        next[i]? = (before ++ part)[start + i]? := by
      intro i short reached
      rw [length_append] at reached
      subst copied
      by_cases old : start + i < before.length
      · rw [getElem?_append_left old, ← right i short old]
        split
        · exact patch_outside _ _ _ i (by omega) (.inl (by omega))
        · rfl
      rw [if_pos (by omega), patch_inside _ _ _ i (by omega) (by omega) (by omega),
        getElem?_take_of_lt (by omega), getElem?_drop, getElem?_append_right (by omega)]
      congr 1
      omega
    split
    · rename_i ends
      rw [← length_append] at ends
      rw [drop_append_of_le_length (by omega),
        take_append_of_le_length (by rw [length_drop]; omega)]
      exact sample_eq kept filled ends
    · rw [← length_append]
      exact ih (before ++ part) kept filled inside

theorem compress_eq_none (large : zstdProbeMinBlock ≤ parts.flatten.length)
    (raw : lib.uploadsRaw parts compression = true) :
    lib.codec.compress parts.flatten compression = none := by
  have same : ∀ start, start + zstdProbeLen ≤ parts.flatten.length →
      gather start 0 parts (replicate zstdProbeLen 0) =
        (parts.flatten.drop start).take zstdProbeLen :=
    fun start inside => gather_eq [] length_replicate nofun inside
  have body : lib.codec.body parts.flatten compression = none := by
    cases compression with
    | none => rfl
    | lz4 => cases raw
    | zstd level =>
      simp only [zstdProbeMinBlock, zstdProbeLen] at large same
      simp only [uploadsRaw, worth, ← length_flatten, Bool.not_eq_true', zstdProbeLen] at raw
      rw [same _ (by omega), same _ (by omega), same _ (by omega)] at raw
      exact if_pos ⟨large, raw⟩
  unfold Codec.compress
  split
  · rfl
  · rw [body, Option.bind_none]

theorem encodeVectored_eq : lib.encodeVectored parts compression =
    (parts.flatten, lib.codec.encodePersistedBlock parts.flatten compression) := by
  unfold encodeVectored
  split
  · rw [flatten_singleton]
  · rfl

theorem parse_encode (data : List UInt8) (compression : Compression) : ∃ used,
    parsePersistedHeader (lib.codec.encodePersistedBlock data compression) = .framed used := by
  have decoded := @Codec.decompressFramed_encode lib.codec data _ compression le_rfl
  unfold Codec.decompressFramed at decoded
  split at decoded <;> first | exact ⟨_, ‹_›⟩ | cases decoded

/-- A frame decodes to its block within the limit only, and parts are uploaded as their block's
frame. -/
theorem persisted_block_round_trip (lib : Libraries) (compression : Compression) :
    (∀ data limit, lib.codec.decompressFramed (lib.codec.encodePersistedBlock data compression)
      limit = if data.length ≤ limit then some data else none) ∧
    ∀ parts needsContiguous, ∃ upload, lib.prepareUpload parts compression needsContiguous =
      some upload ∧
      upload.chunks.flatten = lib.codec.encodePersistedBlock parts.flatten compression ∧
        ∀ block ∈ upload.cacheBlock, block = parts.flatten := by
  constructor
  · intro data limit
    split
    · exact Codec.decompressFramed_encode compression ‹_›
    · exact decompressFramed_short (by omega)
  intro parts needsContiguous
  simp only [prepareUpload, ← length_flatten]
  split
  · rename_i raw
    refine ⟨_, rfl, ?_, nofun⟩
    rw [Codec.encodePersistedBlock, compress_eq_none raw.2.1 raw.2.2]
    rfl
  rw [encodeVectored_eq]
  obtain ⟨used, framed⟩ := @parse_encode lib parts.flatten compression
  refine ⟨⟨some parts.flatten, [_], used⟩, by simp only [framed], flatten_singleton, ?_⟩
  exact fun _ same => (Option.some.inj same).symm

/-- `zstd` that knows one thing: a short run of one byte becomes the byte and its count. -/
def runs : Libraries where
  lz4 := reverse
  lz4Size := fun body => some body.length
  unlz4 := fun body => some body.reverse
  zstd := fun _ data =>
    if data = replicate data.length (data.headD 0) ∧ data.length < 256 then
      some [data.headD 0, UInt8.ofNat data.length]
    else none
  unzstd := fun body limit =>
    match body with
    | [byte, count] => if count.toNat ≤ limit then some (replicate count.toNat byte) else none
    | _ => none
  lz4Size_lz4 := by simp
  unlz4_lz4 := by simp
  unzstd_zstd := by
    intro _ data body limit found fits
    obtain ⟨⟨run, short⟩, found⟩ := Option.ite_none_right_eq_some.mp found
    cases found
    simp only [UInt8.toNat_ofNat_of_lt' short, if_pos fits]
    rw [← run]
  compressor := fun _ => true
  sample := fun _ => some
  unzstd_short := by
    intro _ data body limit found short
    obtain ⟨⟨_, small⟩, found⟩ := Option.ite_none_right_eq_some.mp found
    cases found
    simp only [UInt8.toNat_ofNat_of_lt' small, if_neg (Nat.not_le.mpr short)]

/-- Twenty equal bytes are stored as two behind the header, and come back within the limit only. -/
theorem persisted_block_round_trip_run :
    (runs.codec.encodePersistedBlock (replicate 20 7) (.zstd 3)).length = 6 ∧
      runs.codec.decompressFramed (runs.codec.encodePersistedBlock (replicate 20 7) (.zstd 3)) 20 =
        some (replicate 20 7) ∧
      runs.codec.decompressFramed (runs.codec.encodePersistedBlock (replicate 20 7) (.zstd 3)) 19 =
        none :=
  have frame := (persisted_block_round_trip runs (.zstd 3)).1 (replicate 20 7)
  ⟨by decide, frame 20, frame 19⟩

end Libraries

end BrewFs.Chunk
