/-
The values that travel between validators (`hotmint-types`):

* `Block`, `EquivocationProof`, `Vote`;
* `AggregateSignature`, `QuorumCertificate`, `DoubleCertificate`,
  `TimeoutCertificate`;
* `Epoch`, `BlockContext`, `EndBlockResponse`, `SnapshotInfo`: what is exchanged
  with the application;
* `ConsensusMessage`: the eight message kinds.
-/
import Hotmint.Types.ValidatorSet

namespace Hotmint

/-- `EquivocationProof`: two votes of one validator in one `(view, vote_type)`. -/
structure EquivocationProof where
  validator : ℕ
  view : ℕ
  voteType : VoteType
  epoch : ℕ
  blockHashA : BlockHash
  signatureA : Signature
  extensionA : Option Bytes
  blockHashB : BlockHash
  signatureB : Signature
  extensionB : Option Bytes
deriving DecidableEq, Repr

/-- `Block`. -/
structure Block where
  height : ℕ
  parentHash : BlockHash
  view : ℕ
  proposer : ℕ
  timestamp : ℕ
  payload : Bytes
  appHash : BlockHash
  evidence : List EquivocationProof
  hash : BlockHash
deriving DecidableEq, Repr

/-- `Block::genesis`. -/
def Block.genesis : Block where
  height := 0
  parentHash := BlockHash.genesis
  view := 0
  proposer := 0
  timestamp := 0
  payload := []
  appHash := BlockHash.genesis
  evidence := []
  hash := BlockHash.genesis

/-- `Vote`. -/
structure Vote where
  epoch : ℕ
  blockHash : BlockHash
  view : ℕ
  validator : ℕ
  signature : Signature
  voteType : VoteType
  extension : Option Bytes
deriving DecidableEq, Repr

/-- `AggregateSignature`: a bit per validator and the signatures of the set
bits, in index order. -/
structure AggregateSignature where
  signers : List Bool
  signatures : List Signature
deriving DecidableEq, Repr

namespace AggregateSignature

/-- `AggregateSignature::new`. -/
def new (validatorCount : ℕ) : AggregateSignature := ⟨List.replicate validatorCount false, []⟩

/-- `AggregateSignature::count`. -/
def count (agg : AggregateSignature) : ℕ := agg.signers.count true

/-- `AggregateSignature::add`; `none` for an index out of bounds or a repeated
one. -/
def add (agg : AggregateSignature) (index : ℕ) (sig : Signature) : Option AggregateSignature :=
  match agg.signers[index]? with
  | none => none
  | some true => none
  | some false =>
    let pos := (agg.signers.take index).count true
    some ⟨agg.signers.set index true, agg.signatures.insertIdx pos sig⟩

end AggregateSignature

/-- `QuorumCertificate`. -/
structure QuorumCertificate where
  blockHash : BlockHash
  view : ℕ
  aggregateSignature : AggregateSignature
  epoch : ℕ
deriving DecidableEq, Repr

/-- `DoubleCertificate`: a certificate of first-phase votes and one of
second-phase votes. -/
structure DoubleCertificate where
  innerQc : QuorumCertificate
  outerQc : QuorumCertificate
  voteExtensions : List (ℕ × Bytes)
deriving DecidableEq, Repr

/-- `TimeoutCertificate`. -/
structure TimeoutCertificate where
  view : ℕ
  aggregateSignature : AggregateSignature
  highestQcs : List (Option QuorumCertificate)
deriving DecidableEq, Repr

/-- `max_by_key(|qc| qc.view)`: the last certificate of the largest view. -/
def maxByView : List QuorumCertificate → Option QuorumCertificate
  | [] => none
  | qc :: qcs =>
    match maxByView qcs with
    | none => some qc
    | some best => if best.view < qc.view then some qc else some best

/-- `TimeoutCertificate::highest_qc`: over the entries of actual signers. -/
def TimeoutCertificate.highestQc (tc : TimeoutCertificate) : Option QuorumCertificate :=
  maxByView ((tc.aggregateSignature.signers.zip tc.highestQcs).filterMap
    fun p => if p.1 then p.2 else none)

/-- `Epoch`. -/
structure Epoch where
  number : ℕ
  startView : ℕ
  validatorSet : ValidatorSet
deriving DecidableEq

/-- `Epoch::genesis`. -/
def Epoch.genesis (vs : ValidatorSet) : Epoch := ⟨0, 1, vs⟩

/-- `BlockContext`. -/
structure BlockContext where
  height : ℕ
  view : ℕ
  proposer : ℕ
  epoch : ℕ
  epochStartView : ℕ
  validatorSet : ValidatorSet
  timestamp : ℕ
  voteExtensions : List (ℕ × Bytes)
deriving DecidableEq

/-- `Event`: a type and its key-value attributes. -/
structure Event where
  type : String
  attributes : List (String × String)
deriving DecidableEq, Repr

/-- `EndBlockResponse`. -/
structure EndBlockResponse where
  validatorUpdates : List ValidatorUpdate
  events : List Event
  appHash : BlockHash
deriving DecidableEq, Repr

/-- `EndBlockResponse::default`. -/
def EndBlockResponse.empty : EndBlockResponse := ⟨[], [], BlockHash.genesis⟩

/-- `SnapshotInfo`. -/
structure SnapshotInfo where
  height : ℕ
  chunks : ℕ
  hash : Digest
deriving DecidableEq

/-- `ConsensusMessage`. -/
inductive ConsensusMessage
  | propose (block : Block) (justify : QuorumCertificate)
      (doubleCert : Option DoubleCertificate) (signature : Signature)
      (ancestorBlocks : List Block)
  | voteMsg (vote : Vote)
  | prepare (certificate : QuorumCertificate) (signature : Signature)
  | vote2Msg (vote : Vote)
  | wish (targetView : ℕ) (validator : ℕ)
      (highestQc : Option QuorumCertificate) (signature : Signature)
  | timeoutCert (tc : TimeoutCertificate)
  | statusCert (lockedQc : Option QuorumCertificate) (validator : ℕ)
      (signature : Signature)
  | evidence (proof : EquivocationProof)
deriving DecidableEq, Repr

end Hotmint
