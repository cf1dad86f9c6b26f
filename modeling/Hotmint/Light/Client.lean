/-
The light client (`hotmint-light/src/lib.rs`).

* `LightClient`: a validator set and a checkpoint the client trusts;
* `LightClient.verifyHeader`: one header and its certificate, in the order of the
  source's checks;
* `LightClient.updateValidatorSet`: a new set and checkpoint;
* `verifyHeader_ok`: **what an accepted header has passed**.
-/
import Hotmint.Types.Crypto

namespace Hotmint

/-- `BlockHeader`: a block without its payload. -/
structure BlockHeader where
  height : ℕ
  parentHash : BlockHash
  view : ℕ
  proposer : ℕ
  timestamp : ℕ
  appHash : BlockHash
  hash : BlockHash
deriving DecidableEq

/-- The header of a block. -/
def BlockHeader.ofBlock (block : Block) : BlockHeader :=
  ⟨block.height, block.parentHash, block.view, block.proposer, block.timestamp, block.appHash,
    block.hash⟩

/-- The reasons a light client gives. -/
inductive LightError
  | notAboveTrusted (height trusted : ℕ)
  | noTrustedHash (trusted : ℕ)
  | notAdjacent (height trusted : ℕ)
  | parentMismatch (expected parentHash : BlockHash)
  | qcHashMismatch (expected qcHash : BlockHash)
  | noQuorum
  | bitfieldLength
  | signerOutOfBounds
  | signatureMissing
  | badSignature
  | regression (current height : ℕ)
deriving DecidableEq

/-- A light client with its trusted state. -/
structure LightClient where
  trustedValidatorSet : ValidatorSet
  trustedHeight : ℕ
  trustedHash : Option BlockHash
  chainIdHash : Digest

namespace LightClient

/-- A client that trusts a height; only at genesis it knows the hash. -/
def new (vs : ValidatorSet) (height : ℕ) (chainIdHash : Digest) : LightClient :=
  ⟨vs, height, if height = 0 then some BlockHash.genesis else none, chainIdHash⟩

/-- A client that trusts a block. -/
def newWithTrustedHash (vs : ValidatorSet) (height : ℕ) (hash : BlockHash)
    (chainIdHash : Digest) : LightClient :=
  ⟨vs, height, some hash, chainIdHash⟩

/-- The loop over the signers of a certificate: the set bits consume the
signatures in order. -/
def checkSigners (ok : ValidatorInfo → Signature → Bool) :
    List Bool → List ValidatorInfo → List Signature → Except LightError Unit
  | [], _, sigs => if sigs.isEmpty then .ok () else .error .badSignature
  | false :: bits, validators, sigs => checkSigners ok bits validators.tail sigs
  | true :: _, [], _ => .error .signerOutOfBounds
  | true :: _, _ :: _, [] => .error .signatureMissing
  | true :: bits, vi :: validators, sig :: sigs =>
    if ok vi sig then checkSigners ok bits validators sigs else .error .badSignature

/-- The certificate checks of `verify_header`. -/
def checkCertificate (c : Crypto) (client : LightClient) (qc : QuorumCertificate) :
    Except LightError Unit :=
  if ¬ hasQuorum client.trustedValidatorSet qc.aggregateSignature then .error .noQuorum
  else if qc.aggregateSignature.signers.length ≠ client.trustedValidatorSet.validatorCount then
    .error .bitfieldLength
  else checkSigners (fun vi sig => c.verify vi.publicKey
      (c.votePayload client.chainIdHash qc.epoch qc.view vi.id qc.blockHash .vote none) sig)
    qc.aggregateSignature.signers client.trustedValidatorSet.validators
    qc.aggregateSignature.signatures

/-- `verify_header`.  A height that would overflow is not above the trusted one,
so the overflow branch of the source is never reached. -/
def verifyHeader (c : Crypto) (client : LightClient) (header : BlockHeader)
    (qc : QuorumCertificate) : Except LightError LightClient :=
  if header.height ≤ client.trustedHeight then
    .error (.notAboveTrusted header.height client.trustedHeight)
  else
    match client.trustedHash with
    | none => .error (.noTrustedHash client.trustedHeight)
    | some trusted =>
      if header.height ≠ client.trustedHeight + 1 then
        .error (.notAdjacent header.height client.trustedHeight)
      else if header.parentHash ≠ trusted then
        .error (.parentMismatch trusted header.parentHash)
      else if qc.blockHash ≠ header.hash then
        .error (.qcHashMismatch header.hash qc.blockHash)
      else
        match checkCertificate c client qc with
        | .error err => .error err
        | .ok () =>
          .ok { client with trustedHeight := header.height, trustedHash := some header.hash }

/-- `update_validator_set`. -/
def updateValidatorSet (client : LightClient) (vs : ValidatorSet) (height : ℕ)
    (hash : BlockHash) : Except LightError LightClient :=
  if height < client.trustedHeight then .error (.regression client.trustedHeight height)
  else .ok { client with
    trustedValidatorSet := vs, trustedHeight := height, trustedHash := some hash }

/-! ### What acceptance says -/

/-- The loop accepts what the loop of the engine accepts. -/
lemma checkSigners_ok_iff {ok : ValidatorInfo → Signature → Bool} {bits : List Bool}
    {validators : List ValidatorInfo} {sigs : List Signature} :
    checkSigners ok bits validators sigs = .ok () ↔ verifySigners ok bits validators sigs := by
  induction bits generalizing validators sigs with
  | nil => cases sigs <;> simp [checkSigners, verifySigners]
  | cons bit bits ih =>
    cases bit with
    | false => simp [checkSigners, verifySigners, ih]
    | true =>
      cases validators with
      | nil => simp [checkSigners, verifySigners]
      | cons vi validators =>
        cases sigs with
        | nil => simp [checkSigners, verifySigners]
        | cons sig sigs =>
          cases hok : ok vi sig <;> simp [checkSigners, verifySigners, hok, ih]

/-- What an accepted certificate has passed. -/
lemma checkCertificate_ok {c : Crypto} {client : LightClient} {qc : QuorumCertificate}
    (h : client.checkCertificate c qc = .ok ()) :
    hasQuorum client.trustedValidatorSet qc.aggregateSignature = true
      ∧ qc.aggregateSignature.signers.length = client.trustedValidatorSet.validatorCount
      ∧ verifySigners (fun vi sig => c.verify vi.publicKey
          (c.votePayload client.chainIdHash qc.epoch qc.view vi.id qc.blockHash .vote none) sig)
        qc.aggregateSignature.signers client.trustedValidatorSet.validators
        qc.aggregateSignature.signatures := by
  unfold checkCertificate at h
  split_ifs at h with hquorum hlength
  exact ⟨hquorum, not_not.mp hlength, checkSigners_ok_iff.mp h⟩

/-- **An accepted header** extends the trusted block by one height, carries an
accepted certificate for its hash, and becomes the trusted block. -/
theorem verifyHeader_ok {c : Crypto} {client client' : LightClient} {header : BlockHeader}
    {qc : QuorumCertificate} (h : client.verifyHeader c header qc = .ok client') :
    header.height = client.trustedHeight + 1 ∧ client.trustedHash = some header.parentHash
      ∧ qc.blockHash = header.hash ∧ client.checkCertificate c qc = .ok ()
      ∧ client' = { client with
          trustedHeight := header.height, trustedHash := some header.hash } := by
  unfold verifyHeader at h
  split at h
  · cases h
  split at h
  · cases h
  · next trusted htrusted =>
      split_ifs at h with hadjacent hparent hhash
      split at h
      · cases h
      · next hcert =>
          refine ⟨not_not.mp hadjacent, ?_, not_not.mp hhash, hcert, (Except.ok.inj h).symm⟩
          rw [htrusted, not_not.mp hparent]

end LightClient

end Hotmint
