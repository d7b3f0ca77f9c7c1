import Mathlib.Tactic.Ring

/-! `chunk/compress.rs`: the frames of persisted blocks. -/

namespace BrewFs.Chunk

inductive Compression where
  | none
  | lz4
  | zstd (level : Int)
deriving DecidableEq, Repr

namespace Compression

def algoByte : Compression → UInt8
  | .none => 0
  | .lz4 => 1
  | .zstd _ => 2

/-- The level of zstd is not stored. -/
def fromAlgoByte (byte : UInt8) : Option Compression :=
  if byte = 0 then some .none
  else if byte = 1 then some .lz4
  else if byte = 2 then some (.zstd 0)
  else Option.none

end Compression

inductive PersistedHeader where
  | incomplete
  | notFramed
  | framed (compression : Compression)
  | invalid
deriving DecidableEq, Repr

/-- `PERSISTED_HEADER_LEN` -/
def persistedHeaderLen : Nat := 4

/-- `MAGIC` -/
def magic : List UInt8 := [0x53, 0x46]

def parsePersistedHeader : List UInt8 → PersistedHeader
  | hi :: lo :: algo :: reserved :: _ =>
    if [hi, lo] ≠ magic then .notFramed
    else if reserved ≠ 0 then .invalid
    else match Compression.fromAlgoByte algo with
      | some compression => .framed compression
      | none => .invalid
  | _ => .incomplete

/-- `lz4_flex` and `zstd`. The zstd encoder may give up on a block, also by its samples
(`zstd_samples_worth_compressing`). -/
structure Codec where
  lz4 : List UInt8 → List UInt8
  lz4Size : List UInt8 → Option Nat
  unlz4 : List UInt8 → Option (List UInt8)
  zstd : Int → List UInt8 → Option (List UInt8)
  unzstd : List UInt8 → Nat → Option (List UInt8)
  lz4Size_lz4 : ∀ data, lz4Size (lz4 data) = some data.length
  unlz4_lz4 : ∀ data, unlz4 (lz4 data) = some data
  unzstd_zstd : ∀ level data body limit, zstd level data = some body → data.length ≤ limit →
    unzstd body limit = some data

namespace Codec

variable (codec : Codec) (data : List UInt8)

/-- The compressed body. -/
def body : Compression → Option (List UInt8)
  | .none => none
  | .lz4 => some (codec.lz4 data)
  | .zstd level => codec.zstd level data

/-- `compress`; `none` where the data is stored as it is. -/
def compress (algo : Compression) : Option (List UInt8) :=
  if data = [] then none
  else (codec.body data algo).bind fun body =>
    if data.length ≤ body.length + persistedHeaderLen then none
    else some (magic ++ [algo.algoByte, 0] ++ body)

def encodePersistedBlock (compression : Compression) : List UInt8 :=
  (codec.compress data compression).getD (magic ++ [Compression.none.algoByte, 0] ++ data)

/-- `decompress_framed`; `none` is an error. -/
def decompressFramed (maxDecodedLen : Nat) : Option (List UInt8) :=
  match parsePersistedHeader data with
  | .framed .none =>
    let body := data.drop persistedHeaderLen
    if body.length ≤ maxDecodedLen then some body else none
  | .framed .lz4 => do
      let body := data.drop persistedHeaderLen
      let decodedLen ← codec.lz4Size body
      if decodedLen ≤ maxDecodedLen then codec.unlz4 body else none
  | .framed (.zstd _) => codec.unzstd (data.drop persistedHeaderLen) maxDecodedLen
  | .incomplete | .notFramed | .invalid => none

/-- `decompress`: a payload of the older layout, which may have no frame. -/
def decompress (maxDecodedLen : Nat) : Option (List UInt8) :=
  if data.length < 4 ∨ data.take 2 ≠ magic then
    if data.length ≤ maxDecodedLen then some data else none
  else codec.decompressFramed data maxDecodedLen

variable {codec} {data : List UInt8} {limit : Nat}

theorem compress_eq_some {frame : List UInt8} {algo : Compression}
    (encoded : codec.compress data algo = some frame) :
    ∃ body, codec.body data algo = some body ∧ frame = magic ++ [algo.algoByte, 0] ++ body := by
  unfold compress at encoded
  split at encoded
  · cases encoded
  obtain ⟨body, found, kept⟩ := Option.bind_eq_some_iff.mp encoded
  cases (Option.ite_none_left_eq_some.mp kept).2
  exact ⟨body, found, rfl⟩

theorem decompressFramed_encode (compression : Compression) (fits : data.length ≤ limit) :
    codec.decompressFramed (codec.encodePersistedBlock data compression) limit = some data := by
  cases encoded : codec.compress data compression with
  | none =>
    rw [encodePersistedBlock, encoded]
    exact if_pos fits
  | some frame =>
    rw [encodePersistedBlock, encoded]
    obtain ⟨body, found, rfl⟩ := compress_eq_some encoded
    cases compression with
    | none => cases found
    | lz4 =>
      cases found
      have size := codec.lz4Size_lz4 data
      have whole := codec.unlz4_lz4 data
      simp [decompressFramed, parsePersistedHeader, magic, Compression.algoByte,
        Compression.fromAlgoByte, persistedHeaderLen, size, whole, fits]
    | zstd level => exact codec.unzstd_zstd level data body limit found fits

end Codec

end BrewFs.Chunk
