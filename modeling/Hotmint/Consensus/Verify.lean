/-
Checking certificates and messages (`hotmint-consensus/src/engine.rs`,
`verify_tc` to `verify_message`, and `validate_double_cert`):

* `Keyring`: the part of the engine these checks read;
* `Keyring.verifyVoteAggregate`, `verifyVoteQc`, `verifyJustifyQc`,
  `validateDoubleCert`, `verifyTc`: the certificate checks;
* `Keyring.verifyMessage`: the check in front of `handle_message`, including
  its shortcut for messages of past views.
-/
import Hotmint.Consensus.Commit

namespace Hotmint

/-- What the verification functions read from the engine. -/
structure Keyring where
  chainIdHash : Digest
  currentView : ℕ
  epochNumber : ℕ
  validatorSet : ValidatorSet
  previousEpoch : Option Epoch

namespace Keyring

variable (c : Crypto) (k : Keyring)

/-- `verification_epochs`. -/
def verificationEpochs : List ℕ :=
  [k.epochNumber, (k.previousEpoch.map (·.number)).getD k.epochNumber]

/-- `validator_set_for_epoch`. -/
def validatorSetForEpoch (epoch : ℕ) : Option ValidatorSet :=
  if epoch = k.epochNumber then some k.validatorSet
  else
    match k.previousEpoch with
    | some previous => if previous.number = epoch then some previous.validatorSet else none
    | none => none

/-- The extension map of `verify_vote_aggregate`: the last entry of an id. -/
def extensionOf (extensions : List (ℕ × Bytes)) (id : ℕ) : Option Bytes :=
  (extensions.reverse.find? (·.1 = id)).map (·.2)

/-- `verify_vote_aggregate`. -/
def verifyVoteAggregate (vs : ValidatorSet) (epoch view : ℕ) (blockHash : BlockHash)
    (voteType : VoteType) (agg : AggregateSignature) (extensions : List (ℕ × Bytes)) : Bool :=
  agg.signers.length = vs.validatorCount && !(voteType = .vote && !extensions.isEmpty)
    && verifySigners (fun vi sig => c.verify vi.publicKey
        (c.votePayload k.chainIdHash epoch view vi.id blockHash voteType
          (extensionOf extensions vi.id)) sig) agg.signers vs.validators agg.signatures
    && hasQuorum vs agg

/-- The loop of `canonical_vote_extensions` over the signer bits: the extensions
of actual signers in index order, and what is left over. -/
def takeExtensions : List Bool → List ValidatorInfo → List (ℕ × Bytes) →
    Option (List (ℕ × Bytes) × List (ℕ × Bytes))
  | [], _, exts => some ([], exts)
  | _ :: _, [], _ => none
  | bit :: bits, vi :: vs, exts =>
    match bit, exts.find? (·.1 = vi.id) with
    | true, some ext =>
      (takeExtensions bits vs (exts.filter (·.1 ≠ vi.id))).map fun r => (ext :: r.1, r.2)
    | _, _ => takeExtensions bits vs exts

/-- `canonical_vote_extensions`. -/
def canonicalVoteExtensions (dc : DoubleCertificate) (vs : ValidatorSet) :
    Option (List (ℕ × Bytes)) :=
  if dc.outerQc.aggregateSignature.signers.length ≠ vs.validatorCount then none
  else if ¬ (dc.voteExtensions.map (·.1)).Nodup then none
  else
    match takeExtensions dc.outerQc.aggregateSignature.signers vs.validators dc.voteExtensions with
    | some (canonical, rest) => if rest.isEmpty then some canonical else none
    | none => none

lemma takeExtensions_subset {bits : List Bool} {vs : List ValidatorInfo}
    {exts canonical rest : List (ℕ × Bytes)}
    (h : takeExtensions bits vs exts = some (canonical, rest)) : canonical ⊆ exts := by
  induction bits generalizing vs exts canonical with
  | nil =>
    obtain ⟨rfl, -⟩ := Prod.mk.inj (Option.some.inj h)
    exact List.nil_subset _
  | cons bit bits ih =>
    cases vs with
    | nil => cases h
    | cons vi vs =>
      unfold takeExtensions at h
      split at h
      · next ext hfound =>
          obtain ⟨⟨taken, left⟩, htaken, heq⟩ := Option.map_eq_some_iff.mp h
          cases heq
          refine List.cons_subset.mpr ⟨List.mem_of_find?_eq_some hfound, ?_⟩
          exact List.Subset.trans (ih htaken) (List.filter_subset_self exts)
      · exact ih h

/-- The canonical extensions are among those of the certificate. -/
lemma canonicalVoteExtensions_subset {dc : DoubleCertificate} {vs : ValidatorSet}
    {canonical : List (ℕ × Bytes)} (h : canonicalVoteExtensions dc vs = some canonical) :
    canonical ⊆ dc.voteExtensions := by
  unfold canonicalVoteExtensions at h
  split_ifs at h
  split at h
  · next taken rest htaken =>
      split_ifs at h
      exact Option.some.inj h ▸ takeExtensions_subset htaken
  · cases h

/-- `verify_vote_qc`. -/
def verifyVoteQc (qc : QuorumCertificate) (voteType : VoteType) : Bool :=
  match k.validatorSetForEpoch qc.epoch with
  | none => false
  | some vs =>
    k.verifyVoteAggregate c vs qc.epoch qc.view qc.blockHash voteType qc.aggregateSignature []

/-- The canonical genesis certificate: no signers, view, epoch and hash zero. -/
def isGenesisQc (qc : QuorumCertificate) : Bool :=
  qc.blockHash = BlockHash.genesis && qc.view = 0 && qc.epoch = 0
    && qc.aggregateSignature.count = 0 && qc.aggregateSignature.signatures.isEmpty

/-- `verify_justify_qc`. -/
def verifyJustifyQc (qc : QuorumCertificate) : Bool :=
  isGenesisQc qc || k.verifyVoteQc c qc .vote

/-- `validate_double_cert`. -/
def validateDoubleCert (dc : DoubleCertificate) : Bool :=
  if dc.innerQc.blockHash ≠ dc.outerQc.blockHash then false
  else if dc.outerQc.view ≠ dc.innerQc.view then false
  else if dc.innerQc.epoch ≠ dc.outerQc.epoch then false
  else
    match k.validatorSetForEpoch dc.innerQc.epoch with
    | none => false
    | some vs =>
      match canonicalVoteExtensions dc vs with
      | none => false
      | some extensions =>
        k.verifyVoteAggregate c vs dc.innerQc.epoch dc.innerQc.view dc.innerQc.blockHash
            .vote dc.innerQc.aggregateSignature []
          && k.verifyVoteAggregate c vs dc.outerQc.epoch dc.outerQc.view
            dc.outerQc.blockHash .vote2 dc.outerQc.aggregateSignature extensions

/-- Does the signature verify for one of the epochs to try? -/
def verifyAnyEpoch (pk : PublicKey) (payload : ℕ → SigningPayload) (sig : Signature) : Bool :=
  k.verificationEpochs.any fun epoch => c.verify pk (payload epoch) sig

/-- `verify_tc`. -/
def verifyTc (tc : TimeoutCertificate) (vs : ValidatorSet) : Bool :=
  tc.aggregateSignature.signers.length = vs.validatorCount
    && tc.highestQcs.length = vs.validatorCount
    && verifySigners (fun (p : ValidatorInfo × Option QuorumCertificate) sig =>
        (match p.2 with
          | some qc => k.verifyJustifyQc c qc
          | none => true)
        && k.verifyAnyEpoch c p.1.publicKey
          (fun epoch => c.wishPayload k.chainIdHash epoch (tc.view + 1) p.2) sig)
      tc.aggregateSignature.signers (vs.validators.zip tc.highestQcs)
      tc.aggregateSignature.signatures
    && vs.quorumThreshold ≤ signedPower tc.aggregateSignature.signers vs.validators

/-- `vs.get(id)`, falling back to the previous epoch's set. -/
def getRetained (id : ℕ) : Option ValidatorInfo :=
  (k.validatorSet.get id).or (k.previousEpoch.bind (·.validatorSet.get id))

/-- The view by which `verify_message` recognises a message of the past. -/
def messageView : ConsensusMessage → Option ℕ
  | .propose .. => none
  | .voteMsg vote => some vote.view
  | .vote2Msg vote => some vote.view
  | .prepare certificate _ => some certificate.view
  | .wish targetView _ _ _ => some targetView
  | .timeoutCert tc => some (tc.view + 1)
  | .statusCert .. => none
  | .evidence _ => none

/-- Is the message one of a past view, accepted unchecked and dropped later? -/
def isPast (msg : ConsensusMessage) : Bool :=
  match messageView msg with
  | some v => v < k.currentView
  | none => false

/-- The vote check of `verify_message`. -/
def verifyVote (vote : Vote) : Bool :=
  match k.validatorSetForEpoch vote.epoch with
  | none => false
  | some vs =>
    match vs.get vote.validator with
    | none => false
    | some vi =>
      !(vote.voteType = .vote && vote.extension.isSome)
        && c.verify vi.publicKey (c.payloadOfVote k.chainIdHash vote) vote.signature

/-- The checks of `verify_message` on a message that is not past. -/
def verifyCurrent : ConsensusMessage → Bool
  | .propose block justify _ signature _ =>
    match k.validatorSet.get block.proposer with
    | none => false
    | some vi =>
      k.verifyAnyEpoch c vi.publicKey
          (fun epoch => proposalPayload k.chainIdHash epoch block justify) signature
        && k.verifyJustifyQc c justify
  | .voteMsg vote => k.verifyVote c vote
  | .vote2Msg vote => k.verifyVote c vote
  | .prepare certificate signature =>
    match k.validatorSet.leaderForView certificate.view with
    | none => false
    | some leader =>
      k.verifyAnyEpoch c leader.publicKey
          (fun epoch => preparePayload k.chainIdHash epoch certificate) signature
        && k.verifyVoteQc c certificate .vote
  | .wish targetView validator highestQc signature =>
    match k.getRetained validator with
    | none => false
    | some vi =>
      k.verifyAnyEpoch c vi.publicKey
        (fun epoch => c.wishPayload k.chainIdHash epoch targetView highestQc) signature
  | .timeoutCert tc =>
    k.verifyTc c tc k.validatorSet
      || (match k.previousEpoch with
        | some previous => k.verifyTc c tc previous.validatorSet
        | none => false)
  | .statusCert lockedQc validator signature =>
    match k.validatorSet.get validator with
    | none => false
    | some vi =>
      k.verifyAnyEpoch c vi.publicKey
        (fun epoch => statusPayload k.chainIdHash epoch k.currentView validator lockedQc)
        signature
  | .evidence _ => true

/-- `verify_message`. -/
def verifyMessage (msg : ConsensusMessage) : Bool := k.isPast msg || k.verifyCurrent c msg

end Keyring

/-- The same epochs, whatever the view. -/
structure Keyring.SameEpochs (k k' : Keyring) : Prop where
  chainIdHash : k.chainIdHash = k'.chainIdHash
  epochNumber : k.epochNumber = k'.epochNumber
  validatorSet : k.validatorSet = k'.validatorSet
  previousEpoch : k.previousEpoch = k'.previousEpoch

/-- The checks of certificates do not read the view. -/
lemma Keyring.SameEpochs.eq {k k' : Keyring} (h : k.SameEpochs k') :
    k = { k' with currentView := k.currentView } := by
  obtain ⟨chainIdHash, currentView, epochNumber, validatorSet, previousEpoch⟩ := k
  obtain ⟨rfl, rfl, rfl, rfl⟩ := h
  rfl

end Hotmint
