/-
Payloads: the transactions of a block, each with its length in front.

* `Mempool.decodePayload`, with `decodePayload` of `commit.rs`: the two decoders;
* `decodePayload_eq_frames`, `Mempool.decodePayload_eq_frames`: both read frame by frame;
* `payload_framing`: **they read back what was encoded, and the same from any bytes**;
* `Pool.collect`, `Pool.collectPayloadWithGas`: the selection of transactions for a proposal, with
  the loop variables it ends with;
* `Collected`: what the loop has selected from a list of entries, round by round
  (`collectLoop_collected`);
* `payload_selection`: **the selection keeps the limits, and leaves out nothing that would still
  fit**, unless it gave up.

`usize` has 64 bits.
-/
import Hotmint.Consensus.Commit
import Hotmint.Library.Frames
import Hotmint.Mempool.Pool

namespace Hotmint

open Frames List
variable {entries selected : List TxEntry} {entry : TxEntry}

/-! ### Decoders -/

/-- The largest length that four bytes can hold. -/
def maxLen : ℕ := 2 ^ 32 - 1

lemma maxLen_lt : maxLen < 2 ^ 32 := by decide

lemma decodePayloadAux_eq_split (fuel : ℕ) (bytes : Bytes) :
    decodePayloadAux fuel bytes = split maxLen fuel bytes := by
  induction fuel generalizing bytes with
  | zero => rfl
  | succ fuel ih =>
    rcases bytes with _ | ⟨b₀, _ | ⟨b₁, _ | ⟨b₂, _ | ⟨b₃, rest⟩⟩⟩⟩
    · rfl
    · rfl
    · rfl
    · rfl
    have hlen : ofLenBytes [b₀, b₁, b₂, b₃] = u32FromLeBytes b₀ b₁ b₂ b₃ := rfl
    have hlt := (lenBytes_ofLenBytes [b₀, b₁, b₂, b₃] rfl).2
    have htake : (b₀ :: b₁ :: b₂ :: b₃ :: rest).take 4 = [b₀, b₁, b₂, b₃] := rfl
    have hshort : ¬ (b₀ :: b₁ :: b₂ :: b₃ :: rest).length < 4 := by simp
    have hlimit : ¬ maxLen < ofLenBytes [b₀, b₁, b₂, b₃] := by
      unfold maxLen
      omega
    unfold decodePayloadAux split Frames.next
    rw [htake, if_neg hshort, if_neg hlimit, hlen]
    dsimp only
    by_cases hwhole : u32FromLeBytes b₀ b₁ b₂ b₃ ≤ rest.length
    · have hmore : ¬ (b₀ :: b₁ :: b₂ :: b₃ :: rest).length < 4 + u32FromLeBytes b₀ b₁ b₂ b₃ := by
        simp only [length_cons]
        omega
      rw [if_pos hwhole, if_neg hmore, ih, Nat.add_comm 4]
      rfl
    · have hmore : (b₀ :: b₁ :: b₂ :: b₃ :: rest).length < 4 + u32FromLeBytes b₀ b₁ b₂ b₃ := by
        simp only [length_cons]
        omega
      rw [if_neg hwhole, if_pos hmore]

/-- **The decoder of the consensus engine reads frame by frame.** -/
lemma decodePayload_eq_frames (payload : Bytes) : decodePayload payload = frames maxLen payload :=
  decodePayloadAux_eq_split _ _

namespace Mempool

/-- The loop of `Mempool::decode_payload`; every round advances the offset. -/
def decodeLoop (payload : Bytes) : ℕ → ℕ → List Bytes → List Bytes
  | 0, _, txs => txs
  | fuel + 1, offset, txs =>
    if offset + 4 ≤ payload.length then
      let len := ofLenBytes ((payload.drop offset).take 4)
      let offset := offset + 4
      if payload.length < offset + len then txs
      else decodeLoop payload fuel (offset + len) (txs ++ [(payload.drop offset).take len])
    else txs

/-- `Mempool::decode_payload`. -/
def decodePayload (payload : Bytes) : List Bytes := decodeLoop payload payload.length 0 []

/-- The loop reads what is behind the offset. -/
lemma decodeLoop_eq (payload : Bytes) (fuel offset : ℕ) (txs : List Bytes) :
    decodeLoop payload fuel offset txs = txs ++ split maxLen fuel (payload.drop offset) := by
  induction fuel generalizing offset txs with
  | zero => simp [decodeLoop, split]
  | succ fuel ih =>
    unfold decodeLoop split Frames.next
    dsimp only
    rw [length_drop]
    by_cases hhead : offset + 4 ≤ payload.length
    · have hlt := (lenBytes_ofLenBytes ((payload.drop offset).take 4)
        (by rw [length_take, length_drop]; omega)).2
      have hlimit : ¬ maxLen < ofLenBytes ((payload.drop offset).take 4) := by
        unfold maxLen
        omega
      have hshort : ¬ payload.length - offset < 4 := by omega
      rw [if_pos hhead, if_neg hshort, if_neg hlimit]
      by_cases hmore : payload.length < offset + 4 + ofLenBytes ((payload.drop offset).take 4)
      · have hmore' : payload.length - offset
            < 4 + ofLenBytes ((payload.drop offset).take 4) := by omega
        rw [if_pos hmore, if_pos hmore', append_nil]
      · have hmore' : ¬ payload.length - offset
            < 4 + ofLenBytes ((payload.drop offset).take 4) := by omega
        rw [if_neg hmore, if_neg hmore', ih, drop_drop, append_assoc, drop_drop, Nat.add_assoc]
        rfl
    · have hshort : payload.length - offset < 4 := by omega
      rw [if_neg hhead, if_pos hshort, append_nil]

/-- **The decoder of the mempool reads frame by frame.** -/
lemma decodePayload_eq_frames (payload : Bytes) : decodePayload payload = frames maxLen payload :=
  decodeLoop_eq payload _ 0 []

end Mempool

/-- The encoding of transactions. -/
def encodePayload (txs : List Bytes) : Bytes := (txs.map frame).flatten

/-- **Payload framing.**  Both decoders return the transactions that were encoded; and from any
bytes they return the same transactions, whose encoding is the front of the bytes, such that the
rest does not begin with a whole frame. -/
theorem payload_framing : (∀ txs : List Bytes, (∀ tx ∈ txs, tx.length < 2 ^ 32) →
      decodePayload (encodePayload txs) = txs ∧ Mempool.decodePayload (encodePayload txs) = txs)
    ∧ ∀ bytes : Bytes, Mempool.decodePayload bytes = decodePayload bytes
      ∧ ∃ rest, bytes = encodePayload (decodePayload bytes) ++ rest
        ∧ ∀ tx tail, tx.length < 2 ^ 32 → rest ≠ frame tx ++ tail := by
  refine ⟨fun txs htxs => ?_, fun bytes => ?_⟩
  · have hread : frames maxLen (encodePayload txs) = txs :=
      frames_flatten (fun tx htx => Nat.le_pred_of_lt (htxs tx htx)) maxLen_lt
    rw [decodePayload_eq_frames, Mempool.decodePayload_eq_frames]
    exact ⟨hread, hread⟩
  · obtain ⟨-, rest, heq, hno⟩ := frames_append_rest maxLen_lt bytes
    rw [decodePayload_eq_frames, Mempool.decodePayload_eq_frames]
    exact ⟨rfl, rest, heq, fun tx tail htx => hno tx tail (Nat.le_pred_of_lt htx)⟩

/-! ### Selection -/

namespace Mempool

/-- `MAX_SKIPPED`. -/
def maxSkipped : ℕ := 200

/-- `checked_add` of `u64` and `usize`. -/
def checkedAdd (a b : ℕ) : Option ℕ := if a + b < 2 ^ 64 then some (a + b) else none

/-- The variables of the loop of `collect_payload_with_gas`. -/
structure Collect where
  payload : Bytes
  totalGas : ℕ
  skipped : ℕ

/-- A skip that is counted; too many of them end the loop. -/
def Collect.skip (c : Collect) (next : Collect → Collect) : Collect :=
  let c := { c with skipped := c.skipped + 1 }
  if maxSkipped ≤ c.skipped then c else next c

/-- The loop of `collect_payload_with_gas`. -/
def collectLoop (maxBytes maxGas : ℕ) : List TxEntry → Collect → Collect
  | [], c => c
  | entry :: entries, c =>
    let txFrame := min (4 + entry.tx.length) (2 ^ 64 - 1)
    if maxBytes < txFrame then collectLoop maxBytes maxGas entries c
    else if 0 < maxGas ∧ maxGas < entry.gasWanted then collectLoop maxBytes maxGas entries c
    else
      match checkedAdd c.payload.length txFrame with
      | none => c.skip (collectLoop maxBytes maxGas entries)
      | some nextLen =>
        if maxBytes < nextLen then c.skip (collectLoop maxBytes maxGas entries)
        else if 0 < maxGas then
          match checkedAdd c.totalGas entry.gasWanted with
          | none => c.skip (collectLoop maxBytes maxGas entries)
          | some nextGas =>
            if maxGas < nextGas then c.skip (collectLoop maxBytes maxGas entries)
            else collectLoop maxBytes maxGas entries
              { c with payload := c.payload ++ frame entry.tx, totalGas := nextGas }
        else collectLoop maxBytes maxGas entries { c with payload := c.payload ++ frame entry.tx }

/-- `collect_payload_with_gas`, with the loop variables it ends with; the entries of the highest
priority come first. -/
def Pool.collect (p : Pool) (maxBytes maxGas : UInt64) : Collect :=
  collectLoop maxBytes.toNat maxGas.toNat p.entries.toList.reverse ⟨[], 0, 0⟩

/-- `collect_payload_with_gas`. -/
def Pool.collectPayloadWithGas (p : Pool) (maxBytes maxGas : UInt64) : Bytes :=
  (p.collect maxBytes maxGas).payload

section Loop

variable {maxBytes maxGas : ℕ}

/-- The entry fits in the bytes and the gas that remain. -/
def Collect.Fits (maxBytes maxGas : ℕ) (c : Collect) (entry : TxEntry) : Prop :=
  c.payload.length + (4 + entry.tx.length) ≤ maxBytes
    ∧ (0 < maxGas → c.totalGas + entry.gasWanted ≤ maxGas)

instance (c : Collect) (entry : TxEntry) : Decidable (c.Fits maxBytes maxGas entry) :=
  inferInstanceAs (Decidable (_ ∧ _))

/-- The variables after an entry is taken; gas is counted only if it is limited. -/
def Collect.take (maxGas : ℕ) (c : Collect) (entry : TxEntry) : Collect :=
  { c with
    payload := c.payload ++ frame entry.tx
    totalGas := if 0 < maxGas then c.totalGas + entry.gasWanted else c.totalGas }

/-- **One round**: an entry is taken if it fits, and passed over or skipped if not. -/
lemma collectLoop_cons (hbytes : maxBytes < 2 ^ 64) (hgas : maxGas < 2 ^ 64)
    (hentry : entry.tx.length < 2 ^ 32) (entries : List TxEntry) (c : Collect) :
    (c.Fits maxBytes maxGas entry ∧ collectLoop maxBytes maxGas (entry :: entries) c
        = collectLoop maxBytes maxGas entries (c.take maxGas entry))
      ∨ (¬ c.Fits maxBytes maxGas entry ∧ (collectLoop maxBytes maxGas (entry :: entries) c
          = collectLoop maxBytes maxGas entries c
        ∨ collectLoop maxBytes maxGas (entry :: entries) c
          = c.skip (collectLoop maxBytes maxGas entries))) := by
  have hframe : min (4 + entry.tx.length) (2 ^ 64 - 1) = 4 + entry.tx.length :=
    min_eq_left (by omega)
  rw [collectLoop, hframe]
  unfold Collect.Fits
  by_cases hlong : maxBytes < 4 + entry.tx.length
  · exact .inr ⟨by omega, .inl (if_pos hlong)⟩
  rw [if_neg hlong]
  by_cases hwants : 0 < maxGas ∧ maxGas < entry.gasWanted
  · exact .inr ⟨by omega, .inl (if_pos hwants)⟩
  rw [if_neg hwants]
  unfold checkedAdd
  by_cases hroom : c.payload.length + (4 + entry.tx.length) ≤ maxBytes
  swap
  · refine .inr ⟨by omega, .inr ?_⟩
    by_cases hsum : c.payload.length + (4 + entry.tx.length) < 2 ^ 64
    · rw [if_pos hsum]
      exact if_pos (by omega)
    · rw [if_neg hsum]
  have hsum : c.payload.length + (4 + entry.tx.length) < 2 ^ 64 := by omega
  have hwhole : ¬ maxBytes < c.payload.length + (4 + entry.tx.length) := by omega
  rw [if_pos hsum]
  dsimp only
  rw [if_neg hwhole]
  by_cases hlimited : 0 < maxGas
  swap
  · refine .inl ⟨⟨hroom, fun h => absurd h hlimited⟩, ?_⟩
    rw [if_neg hlimited, Collect.take, if_neg hlimited]
  rw [if_pos hlimited]
  by_cases hcheap : c.totalGas + entry.gasWanted ≤ maxGas
  · refine .inl ⟨⟨hroom, fun _ => hcheap⟩, ?_⟩
    have hcost : c.totalGas + entry.gasWanted < 2 ^ 64 := by omega
    have hpaid : ¬ maxGas < c.totalGas + entry.gasWanted := by omega
    rw [if_pos hcost]
    dsimp only
    rw [if_neg hpaid, Collect.take, if_pos hlimited]
  · refine .inr ⟨fun h => hcheap (h.2 hlimited), .inr ?_⟩
    by_cases hcost : c.totalGas + entry.gasWanted < 2 ^ 64
    · rw [if_pos hcost]
      exact if_pos (by omega)
    · rw [if_neg hcost]

/-- What the loop has made of some entries, from one state of its variables to another. -/
structure Collected (maxBytes maxGas : ℕ) (entries selected : List TxEntry) (c c' : Collect) :
    Prop where
  sublist : selected.Sublist entries
  payload : c'.payload = c.payload ++ encodePayload (selected.map (·.tx))
  totalGas : 0 < maxGas → c'.totalGas = c.totalGas + (selected.map (·.gasWanted)).sum
  bytes_le : c.payload.length ≤ maxBytes → c'.payload.length ≤ maxBytes
  gas_le : 0 < maxGas → c.totalGas ≤ maxGas → c'.totalGas ≤ maxGas
  skipped_le : c.skipped ≤ c'.skipped
  /-- What is left out does not fit any more, unless the loop gave up. -/
  maximal : c'.skipped < maxSkipped → ∀ e ∈ entries, e ∈ selected ∨ ¬ c'.Fits maxBytes maxGas e

lemma Collect.Fits.mono {c c' : Collect}
    (h : Collected maxBytes maxGas entries selected c c') (hfits : c'.Fits maxBytes maxGas entry) :
    c.Fits maxBytes maxGas entry := by
  obtain ⟨hroom, hcheap⟩ := hfits
  rw [h.payload, length_append] at hroom
  refine ⟨by omega, fun hlimited => ?_⟩
  have hle := hcheap hlimited
  rw [h.totalGas hlimited] at hle
  omega

/-- An entry that does not fit is left out. -/
lemma Collected.leave {c c' : Collect}
    (h : Collected maxBytes maxGas entries selected c c') (hfits : ¬ c.Fits maxBytes maxGas entry) :
    Collected maxBytes maxGas (entry :: entries) selected c c' where
  sublist := h.sublist.cons entry
  payload := h.payload
  totalGas := h.totalGas
  bytes_le := h.bytes_le
  gas_le := h.gas_le
  skipped_le := h.skipped_le
  maximal hskipped e he := by
    rcases mem_cons.mp he with rfl | he
    · exact .inr fun hlater => hfits (hlater.mono h)
    · exact h.maximal hskipped e he

/-- An entry that fits is taken. -/
lemma Collected.take {c c' : Collect}
    (h : Collected maxBytes maxGas entries selected (c.take maxGas entry) c')
    (hfits : c.Fits maxBytes maxGas entry) :
    Collected maxBytes maxGas (entry :: entries) (entry :: selected) c c' where
  sublist := h.sublist.cons_cons entry
  payload := by
    rw [h.payload, Collect.take, append_assoc]
    rfl
  totalGas hlimited := by
    rw [h.totalGas hlimited, Collect.take, if_pos hlimited, map_cons, sum_cons, Nat.add_assoc]
  bytes_le _ := h.bytes_le (by
    rw [Collect.take, length_append, length_frame]
    exact hfits.1)
  gas_le hlimited _ := h.gas_le hlimited (by
    rw [Collect.take, if_pos hlimited]
    exact hfits.2 hlimited)
  skipped_le := h.skipped_le
  maximal hskipped e he := by
    rcases mem_cons.mp he with rfl | he
    · exact .inl mem_cons_self
    · exact (h.maximal hskipped e he).imp_left (mem_cons_of_mem _)

/-- A counted skip, and the rest of the loop or its end. -/
lemma Collected.skip {c : Collect} {next : Collect → Collect}
    (h : ∀ c, ∃ selected, Collected maxBytes maxGas entries selected c (next c)) :
    ∃ selected, Collected maxBytes maxGas entries selected c (c.skip next) := by
  unfold Collect.skip
  dsimp only
  split_ifs with hmany
  · refine ⟨[], nil_sublist _, (append_nil _).symm, fun _ => rfl, id, fun _ => id,
      Nat.le_succ _, fun hfew => absurd hfew (Nat.not_lt.mpr hmany)⟩
  · obtain ⟨selected, hrest⟩ := h { c with skipped := c.skipped + 1 }
    exact ⟨selected, hrest.sublist, hrest.payload, hrest.totalGas, hrest.bytes_le, hrest.gas_le,
      (Nat.le_succ _).trans hrest.skipped_le, hrest.maximal⟩

/-- **The loop.** -/
lemma collectLoop_collected (hbytes : maxBytes < 2 ^ 64) (hgas : maxGas < 2 ^ 64)
    (hentries : ∀ e ∈ entries, e.tx.length < 2 ^ 32) (c : Collect) : ∃ selected,
      Collected maxBytes maxGas entries selected c (collectLoop maxBytes maxGas entries c) := by
  induction entries generalizing c with
  | nil => exact ⟨[], .slnil, (append_nil _).symm, fun _ => rfl, id, fun _ => id, le_rfl,
      fun _ _ he => absurd he not_mem_nil⟩
  | cons entry entries ih =>
    have ih := ih fun e he => hentries e (.tail _ he)
    rcases collectLoop_cons hbytes hgas (hentries entry mem_cons_self) entries c with
      ⟨hfits, heq⟩ | ⟨hfits, heq | heq⟩
    · obtain ⟨selected, hrest⟩ := ih (c.take maxGas entry)
      exact ⟨entry :: selected, heq ▸ hrest.take hfits⟩
    · obtain ⟨selected, hrest⟩ := ih c
      exact ⟨selected, heq ▸ hrest.leave hfits⟩
    · obtain ⟨selected, hrest⟩ := Collected.skip (c := c) ih
      exact ⟨selected, heq ▸ hrest.leave hfits⟩

end Loop

/-- The entries of a pool in descending order of priority. -/
lemma Pool.descending (p : Pool) :
    p.entries.toList.reverse.Pairwise fun a b => b.priority ≤ a.priority :=
  pairwise_reverse.mpr (p.entries.sorted.imp fun hlt => Pool.priority_le_of_key_le hlt.le)

/-- **Payload selection.**  For every pool of transactions below `2 ^ 32` bytes and all limits, the
payload decodes to some of the transactions, in descending order of priority, of at most `maxBytes`
bytes with their lengths and, if gas is limited, at most `maxGas` gas; and unless 200 skips were
counted, no transaction that was left out would still fit. -/
theorem payload_selection (p : Pool) (maxBytes maxGas : UInt64)
    (hentries : ∀ e ∈ p.entries.toList, e.tx.length < 2 ^ 32) :
    ∃ selected : List TxEntry, selected.Sublist p.entries.toList.reverse
      ∧ selected.Pairwise (fun a b => b.priority ≤ a.priority)
      ∧ decodePayload (p.collectPayloadWithGas maxBytes maxGas) = selected.map (·.tx)
      ∧ (p.collectPayloadWithGas maxBytes maxGas).length ≤ maxBytes.toNat
      ∧ (0 < maxGas.toNat → (selected.map (·.gasWanted)).sum ≤ maxGas.toNat)
      ∧ ((p.collect maxBytes maxGas).skipped < 200 → ∀ e ∈ p.entries.toList, e ∉ selected →
        ¬ ((p.collectPayloadWithGas maxBytes maxGas).length + (4 + e.tx.length) ≤ maxBytes.toNat
          ∧ (0 < maxGas.toNat →
            (selected.map (·.gasWanted)).sum + e.gasWanted ≤ maxGas.toNat))) := by
  obtain ⟨selected, h⟩ := collectLoop_collected maxBytes.toNat_lt maxGas.toNat_lt
    (fun e he => hentries e (mem_reverse.mp he)) ⟨[], 0, 0⟩
  have hgas : 0 < maxGas.toNat →
      (p.collect maxBytes maxGas).totalGas = (selected.map (·.gasWanted)).sum := fun hlimited =>
    (h.totalGas hlimited).trans (Nat.zero_add _)
  refine ⟨selected, h.sublist, p.descending.sublist h.sublist, ?_, h.bytes_le (Nat.zero_le _),
    fun hlimited => ?_, fun hskipped e he hout hfits => ?_⟩
  · have hpayload : p.collectPayloadWithGas maxBytes maxGas
        = encodePayload (selected.map (·.tx)) := h.payload
    rw [hpayload, Mempool.decodePayload_eq_frames]
    refine frames_flatten (fun tx htx => ?_) maxLen_lt
    obtain ⟨e, he, rfl⟩ := mem_map.mp htx
    exact Nat.le_pred_of_lt (hentries e (mem_reverse.mp (h.sublist.subset he)))
  · rw [← hgas hlimited]
    exact h.gas_le hlimited (Nat.zero_le _)
  · refine (h.maximal hskipped e (mem_reverse.mpr he)).resolve_left hout ⟨hfits.1, ?_⟩
    intro hlimited
    have hle := hfits.2 hlimited
    rwa [← hgas hlimited] at hle

/-- A pool whose most urgent transaction wants most of the gas. -/
def contestedPool : Pool :=
  { Pool.new 8 64 with
    entries := ((OrderedSet.empty.insert ⟨[1], 9, 7, 1⟩).insert ⟨[2, 2], 5, 6, 2⟩).insert
      ⟨[3], 1, 3, 3⟩ }

/-- Of ten gas, the first transaction wants seven; the second does not fit any more, the third
does. -/
theorem payload_selection_contested : ∃ selected : List TxEntry,
    decodePayload (contestedPool.collectPayloadWithGas 100 10) = selected.map (·.tx)
      ∧ selected.map (·.tx) = [[1], [3]]
      ∧ (selected.map (·.gasWanted)).sum ≤ 10 := by
  have hentries : ∀ e ∈ contestedPool.entries.toList, e.tx.length < 2 ^ 32 := by decide
  obtain ⟨selected, -, -, hdecode, -, hgas, -⟩ :=
    payload_selection contestedPool 100 10 hentries
  have hpayload : decodePayload (contestedPool.collectPayloadWithGas 100 10) = [[1], [3]] := by
    decide
  exact ⟨selected, hdecode, hdecode.symm.trans hpayload, hgas (by decide)⟩

end Mempool

end Hotmint
