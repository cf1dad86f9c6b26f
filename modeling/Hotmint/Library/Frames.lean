/-
Length-prefixed frames on a byte stream: four bytes of length, least significant first,
and the payload.

* `Frames.frame`, `Frames.ofLenBytes_lenBytes`: a frame, and the round trip of its length;
* `Frames.next`, `Frames.frames`: what a reader that refuses lengths above a limit takes
  from the front of a stream, once and as often as it can;
* `Frames.frames_flatten`: **a stream of whole frames is read back frame by frame**;
* `Frames.frames_append_rest`: **what is read from any stream is the front of it**, up to where no
  whole frame follows.
-/
import Mathlib.Algebra.Ring.Nat
import Mathlib.Data.List.Basic

namespace Frames

open List
variable {bytes payload rest : List UInt8}

/-- The length as four bytes, least significant first. -/
def lenBytes (n : ℕ) : List UInt8 :=
  [UInt8.ofNat n, UInt8.ofNat (n / 2 ^ 8), UInt8.ofNat (n / 2 ^ 16), UInt8.ofNat (n / 2 ^ 24)]

/-- The number that bytes stand for, least significant first. -/
def ofLenBytes (bytes : List UInt8) : ℕ := bytes.foldr (fun b n => b.toNat + 2 ^ 8 * n) 0

@[simp] lemma length_lenBytes (n : ℕ) : (lenBytes n).length = 4 := rfl

lemma ofLenBytes_lenBytes {n : ℕ} (h : n < 2 ^ 32) : ofLenBytes (lenBytes n) = n := by
  simp only [ofLenBytes, lenBytes, foldr_cons, foldr_nil, UInt8.toNat_ofNat']
  omega

/-- Four bytes are the bytes of their number. -/
lemma lenBytes_ofLenBytes (bytes : List UInt8) (h : bytes.length = 4) :
    lenBytes (ofLenBytes bytes) = bytes ∧ ofLenBytes bytes < 2 ^ 32 := by
  obtain ⟨b₀, b₁, b₂, b₃, rfl⟩ := length_eq_four.mp h
  have h₀ := b₀.toNat_lt
  have h₁ := b₁.toNat_lt
  have h₂ := b₂.toNat_lt
  have h₃ := b₃.toNat_lt
  have hbyte : ∀ (b : UInt8) (n : ℕ), n % 2 ^ 8 = b.toNat → UInt8.ofNat n = b := by
    intro b n hn
    refine UInt8.toNat.inj ?_
    rw [UInt8.toNat_ofNat', hn]
  simp only [ofLenBytes, lenBytes, foldr_cons, foldr_nil]
  refine ⟨?_, by omega⟩
  rw [hbyte b₀ _ (by omega), hbyte b₁ _ (by omega), hbyte b₂ _ (by omega), hbyte b₃ _ (by omega)]

/-- The frame of a payload. -/
def frame (payload : List UInt8) : List UInt8 := lenBytes payload.length ++ payload

@[simp] lemma length_frame (payload : List UInt8) :
    (frame payload).length = 4 + payload.length := by
  rw [frame, length_append, length_lenBytes]

lemma take_frame_append (payload rest : List UInt8) :
    (frame payload ++ rest).take 4 = lenBytes payload.length := by
  rw [frame, append_assoc]
  exact take_left' rfl

lemma drop_frame_append (payload rest : List UInt8) :
    (frame payload ++ rest).drop 4 = payload ++ rest := by
  rw [frame, append_assoc]
  exact drop_left' rfl

/-- What a reader finds at the front of a stream. -/
inductive Next
  /-- No whole frame yet. -/
  | more
  /-- A length above the limit. -/
  | tooLong (length : ℕ)
  | frame (payload rest : List UInt8)
deriving DecidableEq, Repr

/-- Reading a frame. -/
def next (limit : ℕ) (bytes : List UInt8) : Next :=
  if bytes.length < 4 then .more
  else if limit < ofLenBytes (bytes.take 4) then .tooLong (ofLenBytes (bytes.take 4))
  else if bytes.length < 4 + ofLenBytes (bytes.take 4) then .more
  else .frame ((bytes.drop 4).take (ofLenBytes (bytes.take 4)))
    (bytes.drop (4 + ofLenBytes (bytes.take 4)))

section Limit

variable {limit : ℕ}

/-- A frame at the front is read. -/
lemma next_frame (hle : payload.length ≤ limit) (hlimit : limit < 2 ^ 32)
    (rest : List UInt8) : next limit (frame payload ++ rest) = .frame payload rest := by
  have hlen : ofLenBytes ((frame payload ++ rest).take 4) = payload.length := by
    rw [take_frame_append, ofLenBytes_lenBytes (by omega)]
  have hlong : (frame payload ++ rest).length = 4 + payload.length + rest.length := by
    rw [length_append, length_frame]
  unfold next
  rw [hlen, if_neg (by omega), if_neg (by omega), if_neg (by omega),
    drop_frame_append, take_left' rfl, drop_left' (length_frame payload)]

/-- What is left after a frame is shorter. -/
lemma length_lt_of_next
    (h : next limit bytes = .frame payload rest) : rest.length < bytes.length := by
  unfold next at h
  split_ifs at h with hshort hlong hmore
  obtain ⟨-, rfl⟩ := Next.frame.inj h
  rw [length_drop]
  omega

/-- The frames of a stream, at most `fuel` many. -/
def split (limit : ℕ) : ℕ → List UInt8 → List (List UInt8)
  | 0, _ => []
  | fuel + 1, bytes =>
    match next limit bytes with
    | .frame payload rest => payload :: split limit fuel rest
    | _ => []

/-- The frames of a stream, up to the first that is incomplete or too long. -/
def frames (limit : ℕ) (bytes : List UInt8) : List (List UInt8) := split limit bytes.length bytes

lemma split_nil (limit fuel : ℕ) : split limit fuel [] = [] := by
  cases fuel <;> rfl

/-- A stream has no more frames than bytes, so that any fuel above its length will do. -/
lemma split_congr {fuel fuel' : ℕ} (h : bytes.length ≤ fuel)
    (h' : bytes.length ≤ fuel') : split limit fuel bytes = split limit fuel' bytes := by
  induction fuel generalizing fuel' bytes with
  | zero =>
    obtain rfl := length_eq_zero_iff.mp (Nat.le_zero.mp h)
    rw [split_nil, split_nil]
  | succ fuel ih =>
    cases fuel' with
    | zero =>
      obtain rfl := length_eq_zero_iff.mp (Nat.le_zero.mp h')
      rw [split_nil, split_nil]
    | succ fuel' =>
      unfold split
      cases hnext : next limit bytes with
      | more => rfl
      | tooLong length => rfl
      | frame payload rest =>
        have hlt := length_lt_of_next hnext
        exact congrArg (payload :: ·) (ih (by omega) (by omega))

lemma frames_frame_append (hle : payload.length ≤ limit)
    (hlimit : limit < 2 ^ 32) (rest : List UInt8) :
    frames limit (frame payload ++ rest) = payload :: frames limit rest := by
  have hlen : (frame payload ++ rest).length = rest.length + payload.length + 3 + 1 := by
    rw [length_append, length_frame]
    omega
  unfold frames
  rw [hlen, split, next_frame hle hlimit]
  exact congrArg (payload :: ·) (split_congr (by omega) (le_rfl))

/-- **A stream of whole frames** is read back frame by frame. -/
lemma frames_flatten {payloads : List (List UInt8)} (hle : ∀ p ∈ payloads, p.length ≤ limit)
    (hlimit : limit < 2 ^ 32) : frames limit (payloads.map frame).flatten = payloads := by
  induction payloads with
  | nil => rfl
  | cons payload payloads ih =>
    rw [map_cons, flatten_cons, frames_frame_append (hle _ mem_cons_self) hlimit,
      ih fun p hp => hle p (.tail _ hp)]

/-- A frame that is read is at the front. -/
lemma frame_append_of_next (h : next limit bytes = .frame payload rest) :
    bytes = frame payload ++ rest ∧ payload.length ≤ limit ∧ payload.length < 2 ^ 32 := by
  unfold next at h
  split_ifs at h with hshort hlong hmore
  obtain ⟨rfl, rfl⟩ := Next.frame.inj h
  obtain ⟨hbytes, hlt⟩ := lenBytes_ofLenBytes (bytes.take 4) (by rw [length_take]; omega)
  have hlength : ((bytes.drop 4).take (ofLenBytes (bytes.take 4))).length
      = ofLenBytes (bytes.take 4) := by
    rw [length_take, length_drop]
    omega
  refine ⟨?_, by omega, by omega⟩
  rw [frame, hlength, hbytes, append_assoc, ← drop_drop, take_append_drop, take_append_drop]

/-- **What is read from any stream is the front of it**, and no whole frame follows. -/
lemma frames_append_rest (hlimit : limit < 2 ^ 32) (bytes : List UInt8) :
    (∀ payload ∈ frames limit bytes, payload.length ≤ limit)
      ∧ ∃ rest, bytes = ((frames limit bytes).map frame).flatten ++ rest
        ∧ ∀ payload tail, payload.length ≤ limit → rest ≠ frame payload ++ tail := by
  suffices hsplit : ∀ fuel bytes, bytes.length ≤ fuel →
      (∀ payload ∈ split limit fuel bytes, payload.length ≤ limit)
        ∧ ∃ rest, bytes = ((split limit fuel bytes).map frame).flatten ++ rest
          ∧ ∀ payload tail, payload.length ≤ limit → rest ≠ frame payload ++ tail from
    hsplit bytes.length bytes (le_rfl)
  intro fuel
  induction fuel with
  | zero =>
    intro bytes hle
    obtain rfl := length_eq_zero_iff.mp (Nat.le_zero.mp hle)
    refine ⟨by simp [split], [], rfl, fun payload tail _ heq => ?_⟩
    have hlength := congrArg length heq
    rw [length_append, length_frame, length_nil] at hlength
    omega
  | succ fuel ih =>
    intro bytes hle
    have hstop : (∀ payload rest, next limit bytes ≠ .frame payload rest) →
        ∀ payload tail, payload.length ≤ limit → bytes ≠ frame payload ++ tail := by
      rintro hnone payload tail hpayload rfl
      exact hnone payload tail (next_frame hpayload hlimit tail)
    unfold split
    cases hnext : next limit bytes with
    | more | tooLong length => exact ⟨by simp, bytes, rfl, hstop (by simp [hnext])⟩
    | frame payload rest =>
      have hlt := length_lt_of_next hnext
      obtain ⟨heq, hpayload, -⟩ := frame_append_of_next hnext
      obtain ⟨hall, rest', hrest, hno⟩ := ih rest (by omega)
      refine ⟨forall_mem_cons.mpr ⟨hpayload, hall⟩, rest', ?_, hno⟩
      dsimp only
      rw [map_cons, flatten_cons, append_assoc, ← hrest]
      exact heq

end Limit

end Frames
