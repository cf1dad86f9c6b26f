/-
The wire codec (`hotmint-network/src/codec.rs`).

* `WireLibraries`: `postcard` for the messages and `zstd` for the frames, parameters, and
  `RoundTrips`: what is assumed of them;
* `encode`, `decode`: a frame is a tag and the message, compressed when it is long;
* `decode_encode`: what becomes of a frame at its receiver;
* `frame_readable_iff`: **a frame is read back exactly when the message is not longer than
  the receiver's limit**;
* `frame_unreadable`: a longer message is sent, but not read.
-/
import Hotmint.Types.Basic
import Mathlib.Algebra.Ring.Nat

namespace Hotmint.Network

/-- The libraries that the codec uses: `postcard::to_allocvec` and `from_bytes`,
`zstd::encode_all`, and the stream that `zstd::stream::read::Decoder` gives: what it yields,
and the error that it then ends with, if any. -/
structure WireLibraries (α : Type) where
  toAllocvec : α → Except String Bytes
  fromBytes : Bytes → Except String α
  encodeAll : Bytes → Except String Bytes
  newDecoder : Bytes → Except String (Bytes × Option String)

/-- The libraries give back what they were given. -/
structure WireLibraries.RoundTrips {α : Type} (lib : WireLibraries α) : Prop where
  postcard : ∀ value raw, lib.toAllocvec value = .ok raw → lib.fromBytes raw = .ok value
  zstd : ∀ raw compressed, lib.encodeAll raw = .ok compressed →
    lib.newDecoder compressed = .ok (raw, none)

/-- `EncodeError`. -/
inductive EncodeError
  | postcard (err : String)
  | zstd (err : String)
deriving DecidableEq, Repr

/-- `DecodeError`. -/
inductive DecodeError
  | emptyFrame
  | unknownTag (tag : UInt8)
  | postcard (err : String)
  | zstd (err : String)
  | decompressedTooLarge
deriving DecidableEq, Repr

/-- `COMPRESS_THRESHOLD`. -/
def compressThreshold : ℕ := 256

/-- `MAX_DECOMPRESSED_SIZE`. -/
def maxDecompressedSize : ℕ := 16 * 1024 * 1024

/-- `TAG_RAW`. -/
def tagRaw : UInt8 := 0x00

/-- `TAG_ZSTD`. -/
def tagZstd : UInt8 := 0x01

/-- The texts of `EncodeError`. -/
def EncodeError.message : EncodeError → String
  | postcard err => "postcard: " ++ err
  | zstd err => "zstd: " ++ err

/-- A byte in two hexadecimal digits. -/
def hexByte (b : UInt8) : String :=
  String.ofList [Nat.digitChar (b.toNat / 16), Nat.digitChar (b.toNat % 16)]

/-- The texts of `DecodeError`. -/
def DecodeError.message : DecodeError → String
  | emptyFrame => "empty frame"
  | unknownTag tag => "unknown codec tag: 0x" ++ hexByte tag
  | postcard err => "postcard: " ++ err
  | zstd err => "zstd: " ++ err
  | decompressedTooLarge =>
    "decompressed payload exceeds " ++ toString maxDecompressedSize ++ " bytes"

variable {α : Type} (lib : WireLibraries α)

/-- `encode`. -/
def encode (value : α) : Except EncodeError Bytes :=
  match lib.toAllocvec value with
  | .error err => .error (.postcard err)
  | .ok raw =>
    if compressThreshold < raw.length then
      match lib.encodeAll raw with
      | .error err => .error (.zstd err)
      | .ok compressed => .ok (tagZstd :: compressed)
    else .ok (tagRaw :: raw)

/-- `read_to_end` on a stream that is cut after `limit` bytes: an error of the stream is only
met when it comes before. -/
def readToEnd (limit : ℕ) (stream : Bytes × Option String) : Except String Bytes :=
  if limit ≤ stream.1.length then .ok (stream.1.take limit)
  else
    match stream.2 with
    | some err => .error err
    | none => .ok stream.1

/-- `postcard::from_bytes` with its error mapped. -/
def decodePostcard (bytes : Bytes) : Except DecodeError α :=
  (lib.fromBytes bytes).mapError .postcard

/-- `decode`. -/
def decode : Bytes → Except DecodeError α
  | [] => .error .emptyFrame
  | tag :: data =>
    if tag = tagRaw then decodePostcard lib data
    else if tag = tagZstd then
      match lib.newDecoder data with
      | .error err => .error (.zstd err)
      | .ok stream =>
        match readToEnd (maxDecompressedSize + 1) stream with
        | .error err => .error (.zstd err)
        | .ok decompressed =>
          if maxDecompressedSize < decompressed.length then .error .decompressedTooLarge
          else decodePostcard lib decompressed
    else .error (.unknownTag tag)

variable {lib}

/-- **What becomes of a frame at its receiver.** -/
lemma decode_encode (h : lib.RoundTrips) {value : α} {raw frame : Bytes}
    (hraw : lib.toAllocvec value = .ok raw) (hframe : encode lib value = .ok frame) :
    decode lib frame
      = if raw.length ≤ maxDecompressedSize then .ok value else .error .decompressedTooLarge := by
  have hpostcard : decodePostcard lib raw = .ok value := by
    rw [decodePostcard, h.postcard value raw hraw]
    rfl
  unfold encode at hframe
  rw [hraw] at hframe
  dsimp only at hframe
  by_cases hlong : compressThreshold < raw.length
  · rw [if_pos hlong] at hframe
    cases hzstd : lib.encodeAll raw with
    | error err =>
      rw [hzstd] at hframe
      cases hframe
    | ok compressed =>
      rw [hzstd] at hframe
      obtain rfl := Except.ok.inj hframe
      have htag : tagZstd ≠ tagRaw := by decide
      rw [decode, if_neg htag, if_pos rfl, h.zstd raw compressed hzstd]
      -- the reader sees one byte more than the limit, which is enough to refuse
      dsimp only [readToEnd]
      by_cases hfits : raw.length ≤ maxDecompressedSize
      · rw [if_neg (by omega), if_pos hfits]
        dsimp only
        rw [if_neg (by omega), hpostcard]
      · rw [if_pos (by omega), if_neg hfits]
        dsimp only
        rw [if_pos (by rw [List.length_take]; omega)]
  · rw [if_neg hlong] at hframe
    obtain rfl := Except.ok.inj hframe
    have hfits : raw.length ≤ maxDecompressedSize :=
      Nat.le_trans (Nat.le_of_not_lt hlong) (by decide)
    rw [decode, if_pos rfl, if_pos hfits, hpostcard]

/-- **Which frames are read back.**  When the encoding of a message succeeds, decoding the
frame gives the message back exactly when its serialisation is not longer than
`MAX_DECOMPRESSED_SIZE`. -/
theorem frame_readable_iff (h : lib.RoundTrips) (value : α) (frame : Bytes)
    (hframe : encode lib value = .ok frame) : decode lib frame = .ok value
      ↔ ∀ raw, lib.toAllocvec value = .ok raw → raw.length ≤ 16 * 1024 * 1024 := by
  cases hraw : lib.toAllocvec value with
  | error err =>
    rw [encode, hraw] at hframe
    cases hframe
  | ok raw =>
    rw [decode_encode h hraw hframe]
    constructor
    · intro hok raw' hraw'
      obtain rfl := Except.ok.inj hraw'
      by_contra hlong
      have hlong : ¬raw.length ≤ maxDecompressedSize := hlong
      rw [if_neg hlong] at hok
      cases hok
    · intro hall
      exact if_pos (hall raw rfl)

/-- Libraries that leave everything as it is. -/
def plainLibraries : WireLibraries Bytes where
  toAllocvec := .ok
  fromBytes := .ok
  encodeAll := .ok
  newDecoder bytes := .ok (bytes, none)

lemma plainLibraries_roundTrips : plainLibraries.RoundTrips where
  postcard _ _ hraw := by
    obtain rfl := Except.ok.inj hraw
    rfl
  zstd _ _ hcompressed := by
    obtain rfl := Except.ok.inj hcompressed
    rfl

lemma encode_plainLibraries {message : Bytes} (h : compressThreshold < message.length) :
    encode plainLibraries message = .ok (tagZstd :: message) :=
  if_pos h

lemma exists_message (n : ℕ) : ∃ message : Bytes, message.length = n :=
  ⟨List.replicate n 0, List.length_replicate⟩

/-- A message of exactly the limit is read back. -/
theorem frame_readable_limit : ∃ message : Bytes, message.length = 16 * 1024 * 1024
      ∧ decode plainLibraries (tagZstd :: message) = .ok message := by
  obtain ⟨message, hlength⟩ := exists_message (16 * 1024 * 1024)
  refine ⟨message, hlength, ?_⟩
  have hlong : compressThreshold < message.length := by
    rw [hlength]
    decide
  have hframe := encode_plainLibraries hlong
  refine (frame_readable_iff plainLibraries_roundTrips message _ hframe).mpr fun raw hraw => ?_
  rw [← Except.ok.inj hraw, hlength]

/-- **A longer message is sent, but not read.** -/
theorem frame_unreadable : ∃ message frame : Bytes, message.length = 16 * 1024 * 1024 + 1
      ∧ encode plainLibraries message = .ok frame
      ∧ decode plainLibraries frame = .error .decompressedTooLarge := by
  obtain ⟨message, hlength⟩ := exists_message (16 * 1024 * 1024 + 1)
  have hlong : compressThreshold < message.length := by
    rw [hlength]
    decide
  have hframe := encode_plainLibraries hlong
  refine ⟨message, _, hlength, hframe, ?_⟩
  rw [decode_encode plainLibraries_roundTrips rfl hframe, if_neg]
  rw [hlength]
  decide

end Hotmint.Network
