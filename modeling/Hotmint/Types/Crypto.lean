/-
Signatures and aggregates (`hotmint-types/src/crypto.rs`, the signing-bytes
functions of `vote.rs`, `view_protocol.rs`, `pacemaker.rs`, and
`hotmint-crypto/src/aggregate.rs`):

* `SigningPayload`: what each of the five signing-bytes functions writes into
  its buffer, field by field;
* `Crypto`: the hash functions and the signature verifier, as parameters;
* `aggregateVotes`, `hasQuorum`: building and counting an aggregate;
* `verifySigners`: the loop over a signer bitfield shared by every aggregate
  check, with `verifySigners_sound`: each set bit has a signature that passed.
-/
import Hotmint.Types.Message

namespace Hotmint

open List

/-- The contents of the byte strings the engine signs.  One constructor per
signing-bytes function (each writes its own domain tag first). -/
inductive SigningPayload
  | vote (chainIdHash : Digest) (epoch : ℕ) (view : ℕ)
      (validator : ℕ) (blockHash : BlockHash) (voteType : VoteType)
      (extension : Option (ℕ × Digest))
  | proposal (chainIdHash : Digest) (epoch : ℕ) (blockHash : BlockHash)
      (justifyHash : BlockHash) (justifyView : ℕ)
  | prepare (chainIdHash : Digest) (epoch : ℕ) (blockHash : BlockHash)
      (view : ℕ)
  | wish (chainIdHash : Digest) (epoch : ℕ) (targetView : ℕ)
      (highestQc : Option Digest)
  | status (chainIdHash : Digest) (epoch : ℕ) (view : ℕ)
      (validator : ℕ) (lockedQc : Option (BlockHash × ℕ))
deriving DecidableEq, Repr

/-- `proposal_signing_bytes`. -/
def proposalPayload (chainIdHash : Digest) (epoch : ℕ) (block : Block)
    (justify : QuorumCertificate) : SigningPayload :=
  .proposal chainIdHash epoch block.hash justify.blockHash justify.view

/-- `prepare_signing_bytes`. -/
def preparePayload (chainIdHash : Digest) (epoch : ℕ) (qc : QuorumCertificate) :
    SigningPayload :=
  .prepare chainIdHash epoch qc.blockHash qc.view

/-- `status_signing_bytes`. -/
def statusPayload (chainIdHash : Digest) (epoch : ℕ) (view : ℕ)
    (validator : ℕ) (lockedQc : Option QuorumCertificate) : SigningPayload :=
  .status chainIdHash epoch view validator (lockedQc.map fun qc => (qc.blockHash, qc.view))

/-- The cryptographic primitives the engine is given: `blake3` on blocks, on
certificates and on byte strings, and `Verifier::verify`. -/
structure Crypto where
  /-- `Block::compute_hash`. -/
  computeHash : Block → BlockHash
  /-- It reads every field but `hash`. -/
  computeHash_content : ∀ b h, computeHash { b with hash := h } = computeHash b
  /-- `QuorumCertificate::digest`. -/
  qcDigest : QuorumCertificate → Digest
  /-- `blake3::hash` of a vote extension. -/
  hashBytes : Bytes → Digest
  /-- `Verifier::verify`. -/
  verify : PublicKey → SigningPayload → Signature → Bool

namespace Crypto

variable (c : Crypto)

/-- `Vote::signing_bytes`. -/
def votePayload (chainIdHash : Digest) (epoch : ℕ) (view : ℕ)
    (validator : ℕ) (blockHash : BlockHash) (voteType : VoteType)
    (extension : Option Bytes) : SigningPayload :=
  .vote chainIdHash epoch view validator blockHash voteType
    (extension.map fun bytes => (bytes.length, c.hashBytes bytes))

/-- The signing payload of a given vote. -/
def payloadOfVote (chainIdHash : Digest) (vote : Vote) : SigningPayload :=
  c.votePayload chainIdHash vote.epoch vote.view vote.validator vote.blockHash vote.voteType
    vote.extension

/-- `wish_signing_bytes`. -/
def wishPayload (chainIdHash : Digest) (epoch : ℕ) (targetView : ℕ)
    (highestQc : Option QuorumCertificate) : SigningPayload :=
  .wish chainIdHash epoch targetView (highestQc.map c.qcDigest)

end Crypto

/-! ### Aggregates -/

/-- `aggregate_votes`; `none` for a vote of an unknown validator or a repeated
voter. -/
def aggregateVotes (vs : ValidatorSet) (votes : List Vote) : Option AggregateSignature :=
  votes.foldlM (fun agg vote =>
    match vs.indexOf vote.validator with
    | none => none
    | some idx => agg.add idx vote.signature) (AggregateSignature.new vs.validatorCount)

/-- The power of the validators whose bit is set. -/
def signedPower (signers : List Bool) (validators : List ValidatorInfo) : ℕ :=
  sumPower (((signers.zip validators).filter (·.1)).map (·.2))

/-- `has_quorum`.  Its running sum is at most the total power, which fits in a
`u64`, so the checked addition of the source never fails. -/
def hasQuorum (vs : ValidatorSet) (agg : AggregateSignature) : Bool :=
  vs.quorumThreshold ≤ signedPower agg.signers vs.validators

/-- The loop over a signer bitfield: the set bits consume the signatures in
order, each entry and its signature must pass `ok`, and no signature may be
left over. -/
def verifySigners {α : Type*} (ok : α → Signature → Bool) :
    List Bool → List α → List Signature → Bool
  | [], _, sigs => sigs.isEmpty
  | false :: bits, entries, sigs => verifySigners ok bits entries.tail sigs
  | true :: bits, a :: entries, sig :: sigs => ok a sig && verifySigners ok bits entries sigs
  | true :: _, [], _ => false
  | true :: _, _ :: _, [] => false

/-- Every set bit of an accepted bitfield has an entry, with a signature of the
aggregate that passed the check. -/
lemma verifySigners_sound {α : Type*} {ok : α → Signature → Bool} {bits : List Bool}
    {entries : List α} {sigs : List Signature} (h : verifySigners ok bits entries sigs = true)
    {a : α} (ha : (true, a) ∈ bits.zip entries) : ∃ sig ∈ sigs, ok a sig = true := by
  induction bits generalizing entries sigs with
  | nil => simp at ha
  | cons bit bits ih =>
    cases entries with
    | nil => simp at ha
    | cons a' entries =>
      cases bit with
      | false =>
        have ha' : (true, a) ∈ bits.zip entries := by simpa using ha
        exact ih (by simpa [verifySigners] using h) ha'
      | true =>
        cases sigs with
        | nil => simp [verifySigners] at h
        | cons sig sigs =>
          simp only [verifySigners, Bool.and_eq_true] at h
          rw [zip_cons_cons, mem_cons] at ha
          rcases ha with heq | hrest
          · cases heq
            exact ⟨sig, .head _, h.1⟩
          · obtain ⟨s, hs, hok⟩ := ih h.2 hrest
            exact ⟨s, .tail _ hs, hok⟩

/-- A bit set while aggregating belongs to one of the votes. -/
lemma signers_foldlM_add {vs : ValidatorSet} {votes : List Vote} {agg agg' : AggregateSignature}
    (h : votes.foldlM (fun agg vote =>
      match vs.indexOf vote.validator with
      | none => none
      | some idx => agg.add idx vote.signature) agg = some agg')
    {k : ℕ} (hk : agg'.signers[k]? = some true) :
    agg.signers[k]? = some true ∨ ∃ vote ∈ votes, vs.indexOf vote.validator = some k := by
  induction votes generalizing agg with
  | nil =>
    obtain rfl : agg = agg' := Option.some.inj h
    exact .inl hk
  | cons vote votes ih =>
    rw [foldlM_cons, Option.bind_eq_bind, Option.bind_eq_some_iff] at h
    obtain ⟨agg₁, hadd, hrest⟩ := h
    rcases ih hrest with hset | ⟨v, hv, hidx⟩
    · split at hadd
      · cases hadd
      · next idx hidx =>
          unfold AggregateSignature.add at hadd
          split at hadd
          · cases hadd
          · cases hadd
          · cases hadd
            by_cases heq : idx = k
            · exact .inr ⟨vote, .head _, heq ▸ hidx⟩
            · exact .inl (by simpa [getElem?_set_ne heq] using hset)
    · exact .inr ⟨v, .tail _ hv, hidx⟩

/-- **Every signer of an aggregate cast one of its votes.** -/
lemma exists_vote_of_signer {vs : ValidatorSet} {votes : List Vote} {agg : AggregateSignature}
    (h : aggregateVotes vs votes = some agg) {vi : ValidatorInfo}
    (hvi : (true, vi) ∈ agg.signers.zip vs.validators) :
    ∃ vote ∈ votes, vote.validator = vi.id := by
  obtain ⟨k, hk, hget⟩ := mem_iff_getElem.mp hvi
  rw [getElem_zip] at hget
  obtain ⟨hbit, hinfo⟩ := Prod.mk.inj hget
  have hset : agg.signers[k]? = some true := by
    rw [getElem?_eq_some_iff]
    exact ⟨_, hbit⟩
  rcases signers_foldlM_add h hset with hnew | ⟨vote, hvote, hidx⟩
  · simp [AggregateSignature.new, getElem?_replicate] at hnew
  · refine ⟨vote, hvote, ?_⟩
    obtain ⟨hlt, hid, -⟩ := findIdx?_eq_some_iff_getElem.mp hidx
    rw [← hinfo]
    exact (of_decide_eq_true hid).symm

end Hotmint
