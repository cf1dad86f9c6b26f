/-
The three verifiers of a quorum certificate: `verify_vote_qc` of the engine and of the sync
module, and the certificate checks of `LightClient::verify_header`.

* `scanSigners`: their loop over the signer bits, with the index of the next signature;
* `verifyVoteAggregateLoop`, `Sync.verifyVoteAggregateLoop`,
  `LightClient.checkCertificateLoop`: the three functions with this loop, each with its own
  checks in its own order;
* `scanSigners_spec`: **the loop reads the bits and signatures as the model does**, so that
  the three agree with the functions the rest of the development uses;
* `Certified`, `verifySigners_iff`: what they look for;
* `verifiers_agree`: **they accept the same certificates**.
-/
import Hotmint.Consensus.Sync
import Hotmint.Light.Client
import Hotmint.Types.Encoding
import Hotmint.Types.Power

namespace Hotmint

open List Keyring

/-! ### The loop -/

/-- Why a loop over the signer bits ends early. -/
inductive SignerFault
  | outOfBounds
  | missing
  | badSignature
deriving DecidableEq, Repr

/-- The loop `for (idx, signed) in signers.iter().enumerate()`: each set bit looks its
validator up by index and takes the signature at `sigIdx`; the result is the final
`sigIdx`. -/
def scanSigners (ok : ValidatorInfo → Signature → Bool) (validators : List ValidatorInfo)
    (signatures : List Signature) : List Bool → ℕ → ℕ → Except SignerFault ℕ
  | [], _, sigIdx => .ok sigIdx
  | false :: bits, idx, sigIdx => scanSigners ok validators signatures bits (idx + 1) sigIdx
  | true :: bits, idx, sigIdx =>
    match validators[idx]? with
    | none => .error .outOfBounds
    | some vi =>
      match signatures[sigIdx]? with
      | none => .error .missing
      | some sig =>
        if ok vi sig then scanSigners ok validators signatures bits (idx + 1) (sigIdx + 1)
        else .error .badSignature

/-- The error of the light client for each fault. -/
def LightError.ofFault : SignerFault → LightError
  | .outOfBounds => .signerOutOfBounds
  | .missing => .signatureMissing
  | .badSignature => .badSignature

section

variable (ok : ValidatorInfo → Signature → Bool) (validators : List ValidatorInfo)
  (signatures : List Signature) (bits : List Bool)

/-- **The loop with indices is the loop that consumes lists**: from any position it returns
what the latter returns on the rest of the validators and signatures. -/
lemma scanSigners_spec (idx : ℕ) {sigIdx : ℕ} (hsig : sigIdx ≤ signatures.length) :
    LightClient.checkSigners ok bits (validators.drop idx) (signatures.drop sigIdx)
      = match scanSigners ok validators signatures bits idx sigIdx with
        | .error fault => .error (.ofFault fault)
        | .ok sigIdx =>
          if sigIdx = signatures.length then .ok () else .error .badSignature := by
  induction bits generalizing idx sigIdx with
  | nil =>
    have hend : (signatures.drop sigIdx).isEmpty = true ↔ sigIdx = signatures.length := by
      rw [List.isEmpty_iff, List.drop_eq_nil_iff]
      omega
    simp only [LightClient.checkSigners, scanSigners, hend]
  | cons bit bits ih =>
    cases bit with
    | false =>
      rw [LightClient.checkSigners, List.tail_drop, ih _ hsig]
      rfl
    | true =>
      rcases Nat.lt_or_ge idx validators.length with hidx | hidx
      swap
      · rw [List.drop_eq_nil_of_le hidx]
        simp [LightClient.checkSigners, scanSigners, List.getElem?_eq_none hidx, LightError.ofFault]
      rcases Nat.lt_or_ge sigIdx signatures.length with hlt | hge
      swap
      · rw [List.drop_eq_nil_of_le hge, List.drop_eq_getElem_cons hidx]
        simp [LightClient.checkSigners, scanSigners, List.getElem?_eq_none hge,
          List.getElem?_eq_getElem hidx, LightError.ofFault]
      rw [List.drop_eq_getElem_cons hidx, List.drop_eq_getElem_cons hlt,
        LightClient.checkSigners, scanSigners, List.getElem?_eq_getElem hidx,
        List.getElem?_eq_getElem hlt]
      dsimp only
      split_ifs with hok
      · exact ih _ hlt
      · rfl

/-- The loop ends well and has read every signature. -/
lemma scanSigners_ok_iff : scanSigners ok validators signatures bits 0 0 = .ok signatures.length
      ↔ verifySigners ok bits validators signatures = true := by
  have hspec := scanSigners_spec ok validators signatures bits 0 (Nat.zero_le _)
  rw [drop_zero, drop_zero] at hspec
  rw [← LightClient.checkSigners_ok_iff, hspec]
  cases hscan : scanSigners ok validators signatures bits 0 0 with
  | error fault => simp
  | ok sigIdx => simp

end

/-! ### The three verifiers -/

/-- What a signer of a certificate has signed. -/
def signedVote (c : Crypto) (chainIdHash : Digest) (qc : QuorumCertificate) (vi : ValidatorInfo)
    (sig : Signature) : Bool :=
  c.verify vi.publicKey (c.votePayload chainIdHash qc.epoch qc.view vi.id qc.blockHash .vote none)
    sig

/-- `verify_vote_aggregate` of the engine, with its loop. -/
def Keyring.verifyVoteAggregateLoop (c : Crypto) (k : Keyring) (vs : ValidatorSet)
    (epoch view : ℕ) (blockHash : BlockHash) (voteType : VoteType) (agg : AggregateSignature)
    (extensions : List (ℕ × Bytes)) : Bool :=
  if agg.signers.length ≠ vs.validatorCount then false
  else if voteType = .vote ∧ ¬ extensions.isEmpty then false
  else
    match scanSigners (fun vi sig => c.verify vi.publicKey (c.votePayload k.chainIdHash epoch view
        vi.id blockHash voteType (extensionOf extensions vi.id)) sig) vs.validators
        agg.signatures agg.signers 0 0 with
    | .error _ => false
    | .ok sigIdx => sigIdx = agg.signatures.length && vs.hasQuorumU64 agg

/-- `verify_vote_aggregate` of the sync module, with its loop. -/
def Sync.verifyVoteAggregateLoop (c : Crypto) (chainIdHash : Digest) (vs : ValidatorSet)
    (epoch view : ℕ) (blockHash : BlockHash) (voteType : VoteType) (agg : AggregateSignature) :
    Bool :=
  if agg.signers.length ≠ vs.validatorCount then false
  else
    match scanSigners (fun vi sig => c.verify vi.publicKey
        (c.votePayload chainIdHash epoch view vi.id blockHash voteType none) sig) vs.validators
        agg.signatures agg.signers 0 0 with
    | .error _ => false
    | .ok sigIdx => sigIdx = agg.signatures.length && vs.hasQuorumU64 agg

/-- The certificate checks of `verify_header`, with their loop: the quorum comes first. -/
def LightClient.checkCertificateLoop (c : Crypto) (client : LightClient) (qc : QuorumCertificate) :
    Except LightError Unit :=
  if ¬ client.trustedValidatorSet.hasQuorumU64 qc.aggregateSignature then .error .noQuorum
  else if qc.aggregateSignature.signers.length ≠ client.trustedValidatorSet.validatorCount then
    .error .bitfieldLength
  else
    match scanSigners (signedVote c client.chainIdHash qc) client.trustedValidatorSet.validators
        qc.aggregateSignature.signatures qc.aggregateSignature.signers 0 0 with
    | .error fault => .error (.ofFault fault)
    | .ok sigIdx =>
      if sigIdx ≠ qc.aggregateSignature.signatures.length then .error .badSignature else .ok ()

/-- How the engine and the sync module end their loop. -/
lemma scanSigners_and_quorum (ok : ValidatorInfo → Signature → Bool) (vs : ValidatorSet)
    (agg : AggregateSignature) :
    (match scanSigners ok vs.validators agg.signatures agg.signers 0 0 with
      | .error _ => false
      | .ok sigIdx => sigIdx = agg.signatures.length && vs.hasQuorumU64 agg)
      = (verifySigners ok agg.signers vs.validators agg.signatures && hasQuorum vs agg) := by
  have hiff := scanSigners_ok_iff ok vs.validators agg.signatures agg.signers
  rw [ValidatorSet.hasQuorumU64_eq]
  cases hscan : scanSigners ok vs.validators agg.signatures agg.signers 0 0 with
  | error fault =>
    have hfalse : verifySigners ok agg.signers vs.validators agg.signatures = false := by
      rw [← Bool.not_eq_true, ← hiff, hscan]
      simp
    rw [hfalse]
    rfl
  | ok sigIdx =>
    rw [hscan, Except.ok.injEq] at hiff
    have hread : decide (sigIdx = agg.signatures.length)
        = verifySigners ok agg.signers vs.validators agg.signatures := by
      rw [Bool.eq_iff_iff, decide_eq_true_iff, hiff]
    exact congrArg (· && hasQuorum vs agg) hread

/-- The engine's function is the one of the model. -/
lemma Keyring.verifyVoteAggregateLoop_eq (c : Crypto) (k : Keyring) (vs : ValidatorSet)
    (epoch view : ℕ) (blockHash : BlockHash) (voteType : VoteType) (agg : AggregateSignature)
    (extensions : List (ℕ × Bytes)) :
    k.verifyVoteAggregateLoop c vs epoch view blockHash voteType agg extensions
      = k.verifyVoteAggregate c vs epoch view blockHash voteType agg extensions := by
  unfold verifyVoteAggregateLoop verifyVoteAggregate
  rw [scanSigners_and_quorum]
  split_ifs with hlength hextensions
  · simp [hlength]
  · simp [hextensions.1, hextensions.2]
  · have hallowed : (decide (voteType = .vote) && !extensions.isEmpty) = false := by
      simpa using hextensions
    rw [hallowed, not_not.mp hlength]
    simp

/-- The sync module's function is the one of the model. -/
lemma Sync.verifyVoteAggregateLoop_eq (c : Crypto) (chainIdHash : Digest) (vs : ValidatorSet)
    (epoch view : ℕ) (blockHash : BlockHash) (voteType : VoteType) (agg : AggregateSignature) :
    Sync.verifyVoteAggregateLoop c chainIdHash vs epoch view blockHash voteType agg
      = Sync.verifyVoteAggregate c chainIdHash vs epoch view blockHash voteType agg := by
  unfold verifyVoteAggregateLoop verifyVoteAggregate
  rw [scanSigners_and_quorum]
  split_ifs with hlength
  · simp [hlength]
  · rw [not_not.mp hlength]
    simp

/-- The light client's checks are those of the model, with the same errors. -/
lemma LightClient.checkCertificateLoop_eq (c : Crypto) (client : LightClient)
    (qc : QuorumCertificate) : client.checkCertificateLoop c qc = client.checkCertificate c qc := by
  have hspec := scanSigners_spec (signedVote c client.chainIdHash qc)
    client.trustedValidatorSet.validators qc.aggregateSignature.signatures
    qc.aggregateSignature.signers 0 (Nat.zero_le _)
  rw [drop_zero, drop_zero] at hspec
  unfold checkCertificateLoop checkCertificate
  rw [ValidatorSet.hasQuorumU64_eq]
  split_ifs with hquorum hlength
  · rfl
  · refine Eq.trans ?_ hspec.symm
    cases scanSigners (signedVote c client.chainIdHash qc) client.trustedValidatorSet.validators
        qc.aggregateSignature.signatures qc.aggregateSignature.signers 0 0 with
    | error fault => rfl
    | ok sigIdx => simp only [ite_not]
  · rfl

/-- `verify_vote_qc` of the engine. -/
def Keyring.verifyVoteQcLoop (c : Crypto) (k : Keyring) (qc : QuorumCertificate)
    (voteType : VoteType) : Bool :=
  match k.validatorSetForEpoch qc.epoch with
  | none => false
  | some vs =>
    k.verifyVoteAggregateLoop c vs qc.epoch qc.view qc.blockHash voteType qc.aggregateSignature []

/-- `verify_vote_qc` of the sync module. -/
def Sync.verifyVoteQcLoop (c : Crypto) (chainIdHash : Digest) (currentEpoch : Epoch)
    (qc : QuorumCertificate) : Bool :=
  qc.epoch = currentEpoch.number
    && Sync.verifyVoteAggregateLoop c chainIdHash currentEpoch.validatorSet qc.epoch qc.view
      qc.blockHash .vote qc.aggregateSignature

/-! ### What they accept -/

/-- A certificate of first-phase votes of a validator set: a bit for every validator, as many
signatures as set bits, the signature at the position of each set bit verifies for its
validator, and the signers have a quorum. -/
structure Certified (c : Crypto) (chainIdHash : Digest) (vs : ValidatorSet)
    (qc : QuorumCertificate) : Prop where
  length : qc.aggregateSignature.signers.length = vs.validatorCount
  count : qc.aggregateSignature.signatures.length = qc.aggregateSignature.signers.count true
  signed : ∀ i, qc.aggregateSignature.signers[i]? = some true → ∃ vi sig,
    vs.validators[i]? = some vi
      ∧ qc.aggregateSignature.signatures[(qc.aggregateSignature.signers.take i).count true]?
        = some sig
      ∧ signedVote c chainIdHash qc vi sig = true
  quorum : vs.quorumThreshold ≤ signedPower qc.aggregateSignature.signers vs.validators

/-- **What the loop over the bits checks**: the signatures match the set bits one to one, and
each passes. -/
lemma verifySigners_iff {α : Type*} {ok : α → Signature → Bool} {bits : List Bool}
    {entries : List α} {sigs : List Signature} : verifySigners ok bits entries sigs = true ↔
      sigs.length = bits.count true ∧ ∀ i, bits[i]? = some true → ∃ a sig,
        entries[i]? = some a ∧ sigs[(bits.take i).count true]? = some sig ∧ ok a sig = true := by
  induction bits generalizing entries sigs with
  | nil => simp [verifySigners]
  | cons bit bits ih =>
    rw [← Nat.and_forall_add_one]
    simp only [getElem?_cons_zero, getElem?_cons_succ, take_zero, take_succ_cons, count_nil]
    cases bit with
    | false =>
      have hcount : ∀ l : List Bool, (false :: l).count true = l.count true := fun l =>
        count_cons_of_ne (by decide)
      simp only [verifySigners, ih, hcount, getElem?_tail]
      simp
    | true =>
      cases entries with
      | nil => simp [verifySigners]
      | cons a entries =>
        cases sigs with
        | nil => simp [verifySigners]
        | cons sig sigs =>
          simp only [verifySigners, Bool.and_eq_true, ih, count_cons_self,
            length_cons, getElem?_cons_zero, getElem?_cons_succ]
          constructor
          · rintro ⟨hok, hlength, hrest⟩
            exact ⟨congrArg (· + 1) hlength, fun _ => ⟨a, sig, rfl, rfl, hok⟩, hrest⟩
          · rintro ⟨hlength, hhead, hrest⟩
            obtain ⟨a', sig', ha, hsig, hok⟩ := hhead trivial
            cases ha
            cases hsig
            exact ⟨hok, Nat.add_right_cancel hlength, hrest⟩

/-- The three checks of a certificate, together. -/
lemma certified_iff {c : Crypto} {chainIdHash : Digest} {vs : ValidatorSet}
    {qc : QuorumCertificate} : Certified c chainIdHash vs qc ↔
      qc.aggregateSignature.signers.length = vs.validatorCount
      ∧ verifySigners (signedVote c chainIdHash qc) qc.aggregateSignature.signers vs.validators
        qc.aggregateSignature.signatures = true
      ∧ hasQuorum vs qc.aggregateSignature = true := by
  rw [verifySigners_iff, hasQuorum, decide_eq_true_iff]
  constructor
  · rintro ⟨hlength, hcount, hsigned, hquorum⟩
    exact ⟨hlength, ⟨hcount, hsigned⟩, hquorum⟩
  · rintro ⟨hlength, ⟨hcount, hsigned⟩, hquorum⟩
    exact ⟨hlength, hcount, hsigned, hquorum⟩

/-- **Three verifiers agree.**  Given the validator set of a certificate's epoch, the engine,
which looks it up by epoch, the sync module in that epoch and a light client that trusts that
set accept exactly the certified ones. -/
theorem verifiers_agree (c : Crypto) (k : Keyring) (qc : QuorumCertificate) {vs : ValidatorSet}
    (hset : k.validatorSetForEpoch qc.epoch = some vs) (startView trustedHeight : ℕ)
    (trustedHash : Option BlockHash) :
    (k.verifyVoteQcLoop c qc .vote = true ↔ Certified c k.chainIdHash vs qc)
    ∧ (Sync.verifyVoteQcLoop c k.chainIdHash ⟨qc.epoch, startView, vs⟩ qc = true
        ↔ Certified c k.chainIdHash vs qc)
    ∧ (LightClient.checkCertificateLoop c ⟨vs, trustedHeight, trustedHash, k.chainIdHash⟩ qc = .ok
    ()
        ↔ Certified c k.chainIdHash vs qc) := by
  rw [certified_iff]
  refine ⟨?_, ?_, ?_⟩
  · rw [verifyVoteQcLoop, hset]
    dsimp only
    rw [verifyVoteAggregateLoop_eq]
    simp only [verifyVoteAggregate, isEmpty_nil, Bool.not_true, Bool.and_false,
      Bool.not_false, Bool.and_true, Bool.and_eq_true, decide_eq_true_iff, and_assoc]
    rfl
  · rw [Sync.verifyVoteQcLoop, Sync.verifyVoteAggregateLoop_eq]
    simp only [Sync.verifyVoteAggregate, decide_true, Bool.true_and, Bool.and_eq_true,
      decide_eq_true_iff, and_assoc]
    rfl
  · rw [LightClient.checkCertificateLoop_eq]
    constructor
    · intro h
      obtain ⟨hquorum, hlength, hsigned⟩ := LightClient.checkCertificate_ok h
      exact ⟨hlength, hsigned, hquorum⟩
    · rintro ⟨hlength, hsigned, hquorum⟩
      rw [LightClient.checkCertificate, if_neg (not_not.mpr hquorum), if_neg (not_not.mpr hlength)]
      exact LightClient.checkSigners_ok_iff.mpr hsigned

/-- The heaviest validator alone certifies a block, if its signature passes. -/
theorem verifiers_agree_weighted :
    Certified (.ofHash (fun _ => 0) fun _ _ sig => sig.bytes = [1]) 0 ValidatorSet.weighted
      ⟨BlockHash.genesis, 5, ⟨[false, false, false, true], [⟨[1]⟩]⟩, 2⟩
    ∧ LightClient.checkCertificateLoop (.ofHash (fun _ => 0) fun _ _ sig => sig.bytes = [1])
      ⟨ValidatorSet.weighted, 7, none, 0⟩
      ⟨BlockHash.genesis, 5, ⟨[false, false, false, true], [⟨[1]⟩]⟩, 2⟩ = .ok () := by
  obtain ⟨hengine, -, hlight⟩ := verifiers_agree
    (.ofHash (fun _ => 0) fun _ _ sig => sig.bytes = [1]) ⟨0, 9, 2, ValidatorSet.weighted, none⟩
    ⟨BlockHash.genesis, 5, ⟨[false, false, false, true], [⟨[1]⟩]⟩, 2⟩ rfl 1 7 none
  have hcertified := hengine.mp (by decide)
  exact ⟨hcertified, hlight.mpr hcertified⟩

end Hotmint
