/-
What a certificate proves about the votes of honest nodes.

* `Network.IsQuorum`: sets of honest nodes that the faulty validators complete
  to a quorum; two of them intersect (`IsQuorum.inter`);
* `Voted`, `Network.Proved`: the honest votes behind a certificate;
* `Network.proved_of_signatures`: **checked signatures of a quorum are proved**,
  by unforgeability;
* `Network.proved_of_votes`: so is one that was formed from collected votes;
* `Network.Backed`, `BackedCert`: what holds of every certificate a node checks,
  forms or keeps.
-/
import Hotmint.Library.Quorum
import Hotmint.Library.VoteHistory
import Hotmint.Proof.Holdings
import Hotmint.Types.ValidatorUpdates

namespace Hotmint

open VoteHistory
variable {agg : AggregateSignature} {hash : BlockHash} {k : Keyring} {t : VoteType} {view : ℕ}
variable {cert : Certificate} {epoch : ℕ}

/-- Votes of honest nodes for block hashes, newest first. -/
abbrev History (ι : Type) := List (VoteHistory.Vote ι BlockHash)

/-! ### Honest votes -/

/-- The history has a vote of the node of the given type, view and block. -/
def Voted {ι : Type} (H : History ι) (i : ι) (t : VoteType) (view : ℕ) (hash : BlockHash) :
    Prop :=
  match t with
  | .vote => ∃ parentView parent, VoteHistory.Vote.first i view hash parentView parent ∈ H
  | .vote2 => VoteHistory.Vote.second i view hash ∈ H

lemma Voted.mono {ι : Type} {H H' : History ι} (hsub : H ⊆ H') {i : ι}
    (h : Voted H i t view hash) : Voted H' i t view hash := by
  cases t with
  | vote =>
    obtain ⟨pv, p, hmem⟩ := h
    exact ⟨pv, p, hsub hmem⟩
  | vote2 => exact hsub h

/-- Set bits weigh at most as much as a property they all have. -/
lemma signedPower_le_weight (p : ValidatorInfo → Prop) [DecidablePred p] {signers : List Bool}
    {validators : List ValidatorInfo} (h : ∀ vi, (true, vi) ∈ signers.zip validators → p vi) :
    signedPower signers validators ≤ Quorum.weight (·.power) p validators := by
  induction validators generalizing signers with
  | nil => simp [signedPower, sumPower]
  | cons vi validators ih =>
    cases signers with
    | nil => simp [signedPower, sumPower]
    | cons bit signers =>
      have hrest : signedPower signers validators
          ≤ Quorum.weight (·.power) p validators := ih fun v hv =>
        h v (by rw [List.zip_cons_cons]; exact .tail _ hv)
      rw [Quorum.weight_cons]
      cases bit with
      | false =>
        have hskip : signedPower (false :: signers) (vi :: validators)
            = signedPower signers validators := by simp [signedPower]
        omega
      | true =>
        have hvi : p vi := h vi (by simp)
        have htake : signedPower (true :: signers) (vi :: validators)
            = vi.power + signedPower signers validators := by
          simp [signedPower, sumPower]
        rw [if_pos hvi]
        omega

namespace Network

variable {ι σ : Type} (N : Network ι σ) (faulty : List ℕ)

open Classical in
/-- The faulty validators complete these honest nodes to a quorum. -/
def IsQuorum (S : Set ι) : Prop :=
  N.validatorSet.quorumThreshold ≤ Quorum.weight (·.power)
    (fun v => v.id ∈ faulty ∨ ∃ i ∈ S, N.validatorId i = v.id) N.validatorSet.validators

/-- The faulty validators are few, and all others are run by honest nodes. -/
structure FaultBound : Prop where
  honest : ∀ v ∈ N.validatorSet.validators, v.id ∈ faulty ∨ ∃ i, N.validatorId i = v.id
  power : sumPower (N.validatorSet.validators.filter (·.id ∈ faulty))
    ≤ N.validatorSet.maxFaultyPower

variable {N faulty}

open Classical in
/-- **Two quorums share an honest node.** -/
lemma IsQuorum.inter (hbound : N.FaultBound faulty) (S T : Set ι) (hS : N.IsQuorum faulty S)
    (hT : N.IsQuorum faulty T) : ∃ i, i ∈ S ∧ i ∈ T := by
  have hfaulty : Quorum.weight (·.power) (fun v : ValidatorInfo => v.id ∈ faulty)
      N.validatorSet.validators ≤ N.validatorSet.maxFaultyPower := by
    simpa [Quorum.weight, sumPower] using hbound.power
  have hlight : (N.validatorSet.validators.map (·.power)).sum
      + Quorum.weight (·.power) (fun v : ValidatorInfo => v.id ∈ faulty) N.validatorSet.validators
      < 2 * N.validatorSet.quorumThreshold := by
    have htotal : (N.validatorSet.validators.map (·.power)).sum = N.validatorSet.totalPower := rfl
    unfold ValidatorSet.maxFaultyPower ValidatorSet.quorumThreshold at hfaulty
    unfold ValidatorSet.quorumThreshold
    rw [htotal]
    omega
  obtain ⟨v, -, hvS, hvT, hv⟩ := Quorum.exists_common_voter _ _ _ _ hS hT hlight
  obtain ⟨i, hi, heq⟩ := hvS.resolve_left hv
  obtain ⟨j, hj, heq'⟩ := hvT.resolve_left hv
  obtain rfl := N.validatorId_injective (heq.trans heq'.symm)
  exact ⟨i, hi, hj⟩

variable (N faulty)

/-- A quorum voted as given. -/
def Proved (H : History ι) (t : VoteType) (view : ℕ) (hash : BlockHash) : Prop :=
  ∃ S, N.IsQuorum faulty S ∧ ∀ i ∈ S, Voted H i t view hash

variable {N faulty}

open Classical in
/-- An aggregate with quorum power whose honest signers voted is proved. -/
lemma proved_of_signers (hbound : N.FaultBound faulty) {H : History ι}
    (hquorum : hasQuorum N.validatorSet agg = true)
    (hvoted : ∀ vi i, (true, vi) ∈ agg.signers.zip N.validatorSet.validators →
      N.validatorId i = vi.id → Voted H i t view hash) : N.Proved faulty H t view hash := by
  refine ⟨{i | Voted H i t view hash}, ?_, fun i hi => hi⟩
  refine (of_decide_eq_true hquorum).trans (signedPower_le_weight _ fun vi hvi => ?_)
  rcases hbound.honest vi (List.of_mem_zip hvi).2 with hfaulty | ⟨i, hi⟩
  · exact .inl hfaulty
  · exact .inr ⟨i, hvoted vi i hvi hi, hi⟩

/-- What the signatures a node has signed so far say about its votes. -/
def SignedVoted (N : Network ι σ) (s : ι → Engine σ) (H : History ι) : Prop :=
  ∀ i epoch view validator hash t ext,
    N.Signed s i (.vote N.chainIdHash epoch view validator hash t ext) → Voted H i t view hash

/-- Unforgeability, for one signature. -/
def AuthenticSignature (N : Network ι σ) (s : ι → Engine σ) (sig : Signature) : Prop :=
  ∀ i info payload, N.validatorSet.get (N.validatorId i) = some info →
    N.crypto.verify info.publicKey payload sig = true → N.Signed s i payload

variable {s : ι → Engine σ} {H : History ι}

/-- **Checked signatures of a quorum are proved**: the signatures of honest signers
are their own. -/
lemma proved_of_signatures (hbound : N.FaultBound faulty) (hsigned : N.SignedVoted s H)
    {ext : ValidatorInfo → Option Bytes} (hquorum : hasQuorum N.validatorSet agg = true)
    (h : verifySigners (fun vi sig => N.crypto.verify vi.publicKey
        (N.crypto.votePayload N.chainIdHash epoch view vi.id hash t (ext vi)) sig)
      agg.signers N.validatorSet.validators agg.signatures = true)
    (hauth : ∀ sig ∈ agg.signatures, N.AuthenticSignature s sig) :
    N.Proved faulty H t view hash := by
  refine proved_of_signers hbound hquorum fun vi i hvi hi => ?_
  obtain ⟨sig, hsig, hok⟩ := verifySigners_sound h hvi
  have hget : N.validatorSet.get (N.validatorId i) = some vi :=
    ValidatorSet.get_eq_some.mpr ⟨(List.of_mem_zip hvi).2, hi.symm⟩
  exact hsigned i _ _ _ _ _ _ (hauth sig hsig i vi _ hget hok)

/-- So is an aggregate that passes the engine's check. -/
lemma proved_of_aggregate (hbound : N.FaultBound faulty) (hsigned : N.SignedVoted s H)
    (hchain : k.chainIdHash = N.chainIdHash) {exts : List (ℕ × Bytes)}
    (h : k.verifyVoteAggregate N.crypto N.validatorSet epoch view hash t agg exts = true)
    (hauth : ∀ sig ∈ agg.signatures, N.AuthenticSignature s sig) :
    N.Proved faulty H t view hash := by
  simp only [Keyring.verifyVoteAggregate, Bool.and_eq_true, hchain] at h
  exact proved_of_signatures hbound hsigned h.2 h.1.2 hauth

/-- **A certificate formed from collected votes is proved.** -/
lemma proved_of_votes (hbound : N.FaultBound faulty) {votes : List Vote}
    (hagg : aggregateVotes N.validatorSet votes = some agg)
    (hquorum : hasQuorum N.validatorSet agg = true)
    (hvotes : ∀ v ∈ votes, ∀ i, N.validatorId i = v.validator → Voted H i t view hash) :
    N.Proved faulty H t view hash := by
  refine proved_of_signers hbound hquorum fun vi i hvi hi => ?_
  obtain ⟨v, hv, hid⟩ := exists_vote_of_signer hagg hvi
  exact hvotes v hv i (hi.trans hid.symm)

/-! ### Certificates -/

variable (N faulty)

/-- A certificate of first votes: the genesis one, or proved. -/
def Backed (H : History ι) (qc : QuorumCertificate) : Prop :=
  (qc.view = 0 ∧ qc.blockHash = BlockHash.genesis) ∨ N.Proved faulty H .vote qc.view qc.blockHash

/-- What a certificate of any kind proves. -/
def BackedCert (H : History ι) : Certificate → Prop
  | .qc .vote qc => N.Backed faulty H qc
  | .qc .vote2 qc => N.Proved faulty H .vote2 qc.view qc.blockHash
  | .dc dc => N.Backed faulty H dc.innerQc
      ∧ N.Proved faulty H .vote2 dc.outerQc.view dc.outerQc.blockHash
      ∧ dc.innerQc.blockHash = dc.outerQc.blockHash
  | .tc tc => ∀ qc ∈ tc.signedQcs, N.Backed faulty H qc

variable {N faulty} {H' : History ι}

lemma Proved.mono (hsub : H ⊆ H')
    (h : N.Proved faulty H t view hash) : N.Proved faulty H' t view hash := by
  obtain ⟨S, hS, hvotes⟩ := h
  exact ⟨S, hS, fun i hi => (hvotes i hi).mono hsub⟩

lemma Backed.mono (hsub : H ⊆ H') {qc : QuorumCertificate} (h : N.Backed faulty H qc) :
    N.Backed faulty H' qc :=
  h.imp id (·.mono hsub)

lemma BackedCert.mono (hsub : H ⊆ H') (h : N.BackedCert faulty H cert) :
    N.BackedCert faulty H' cert := by
  match cert, h with
  | .qc .vote _, h => exact Backed.mono hsub h
  | .qc .vote2 _, h => exact Proved.mono hsub h
  | .dc _, ⟨hinner, houter, heq⟩ => exact ⟨hinner.mono hsub, houter.mono hsub, heq⟩
  | .tc _, h => exact fun qc hqc => (h qc hqc).mono hsub

/-- The keys under which an engine checks are those of the network. -/
structure KeysFixed (N : Network ι σ) (k : Keyring) : Prop where
  chainIdHash : k.chainIdHash = N.chainIdHash
  validatorSet : k.validatorSet = N.validatorSet
  previousEpoch : ∀ epoch, k.previousEpoch = some epoch → epoch.validatorSet = N.validatorSet

lemma KeysFixed.validatorSetForEpoch (hk : N.KeysFixed k)
    {vs : ValidatorSet} (h : k.validatorSetForEpoch epoch = some vs) : vs = N.validatorSet := by
  unfold Keyring.validatorSetForEpoch at h
  split_ifs at h
  · exact (Option.some.inj h).symm.trans hk.validatorSet
  · split at h
    · next previous hprevious =>
        split_ifs at h
        exact (Option.some.inj h).symm.trans (hk.previousEpoch previous hprevious)
    · cases h

/-- An accepted certificate of votes is backed. -/
lemma backed_of_accepts (hbound : N.FaultBound faulty) (hsigned : N.SignedVoted s H)
    (hk : N.KeysFixed k) {qc : QuorumCertificate} (h : k.Accepts N.crypto t qc)
    (hauth : ∀ sig ∈ qc.signatures, N.AuthenticSignature s sig) :
    N.BackedCert faulty H (.qc t qc) := by
  rcases h with ⟨rfl, hgenesis⟩ | ⟨vs, exts, hvs, hvotes⟩
  · simp only [Keyring.isGenesisQc, Bool.and_eq_true, decide_eq_true_eq] at hgenesis
    exact .inl ⟨hgenesis.1.1.1.2, hgenesis.1.1.1.1⟩
  · rw [hk.validatorSetForEpoch hvs] at hvotes
    have hproved := proved_of_aggregate hbound hsigned hk.chainIdHash hvotes hauth
    cases t with
    | vote => exact .inr hproved
    | vote2 => exact hproved

/-- A certificate is backed when its parts are. -/
lemma certWhere_backed :
    CertWhere (fun t qc => N.BackedCert faulty H (.qc t qc)) cert ↔ N.BackedCert faulty H cert := by
  cases cert <;> rfl

/-- **Every certificate that passes its check is backed.** -/
lemma backedCert_of_checks (hbound : N.FaultBound faulty) (hsigned : N.SignedVoted s H)
    (hk : N.KeysFixed k) (h : k.checks N.crypto cert = true)
    (hauth : ∀ sig ∈ cert.signatures, N.AuthenticSignature s sig) : N.BackedCert faulty H cert := by
  refine certWhere_backed.mp ((certWhere_of_checks h).mono fun t qc haccepts => ?_)
  exact backed_of_accepts hbound hsigned hk haccepts.1 fun sig hsig => hauth sig (haccepts.2 hsig)

end Network

end Hotmint
