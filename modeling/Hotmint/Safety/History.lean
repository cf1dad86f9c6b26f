/-
The votes of a whole network form a valid history.

* `Network.CertInv`: every certificate a node holds, has checked or has formed
  is backed by honest votes;
* `Network.VoteInv`: a node's slots and lock cover its own votes;
* `Network.extends_history`: **every act extends a valid history of votes to a
  valid one**, with the invariants kept.
-/
import Hotmint.Safety.Resumed

namespace Hotmint

open VoteHistory List

variable {ι σ : Type} {N : Network ι σ} {faulty : List ℕ} {i : ι} {A : Allowance}
variable {block : Block} {B : Block → Prop} {e : Engine σ} {justify qc : QuorumCertificate}
  {vote : Vote}

/-! ### What certificates and collected votes rest on -/

namespace Network

/-- Everything a node holds or has seen is backed by the votes of a history. -/
structure CertInv (N : Network ι σ) (faulty : List ℕ) (H : History ι) (e : Engine σ) : Prop where
  lockedQc : ∀ qc, e.state.lockedQc = some qc → N.Backed faulty H qc
  highestQc : ∀ qc, e.state.highestQc = some qc → N.Backed faulty H qc
  currentViewQc : ∀ qc, e.currentViewQc = some qc → N.Backed faulty H qc
  certs : ∀ cert, Effect.verified cert ∈ e.trace ∨ Effect.formed cert ∈ e.trace →
    N.BackedCert faulty H cert
  buckets : ∀ key v, v ∈ e.voteCollector.bucket key →
    key = (v.epoch, v.view, v.blockHash, v.voteType)
      ∧ ∀ j, N.validatorId j = v.validator → Voted H j v.voteType v.view v.blockHash
  wishes : ∀ view w, w ∈ e.pacemaker.bucket view → ∀ qc, w.highestQc = some qc →
    N.Backed faulty H qc

lemma CertInv.mono {H H' : History ι} (hsub : H ⊆ H') (h : N.CertInv faulty H e) :
    N.CertInv faulty H' e where
  lockedQc qc hqc := (h.lockedQc qc hqc).mono hsub
  highestQc qc hqc := (h.highestQc qc hqc).mono hsub
  currentViewQc qc hqc := (h.currentViewQc qc hqc).mono hsub
  certs cert hcert := (h.certs cert hcert).mono hsub
  buckets key v hv := ⟨(h.buckets key v hv).1, fun j hj => ((h.buckets key v hv).2 j hj).mono hsub⟩
  wishes view w hw qc hqc := (h.wishes view w hw qc hqc).mono hsub

variable {H : History ι} {s : ι → Engine σ} {x y : Flow σ}

lemma CertInv.qcs (h : N.CertInv faulty H e) :
    QcHoldings (fun t qc => N.BackedCert faulty H (.qc t qc)) e :=
  ⟨h.lockedQc, h.highestQc, h.currentViewQc, fun cert hcert => certWhere_backed.mpr
    (h.certs cert hcert), h.wishes⟩

/-- What a step knows: the signatures it reads are authentic, proposals it resumes in
another view are stale, signatures are votes in the history, and so are the node's own. -/
structure StepContext (N : Network ι σ) (i : ι) (A : Allowance) (s : ι → Engine σ)
    (H : History ι) (e : Engine σ) : Prop where
  auth : ∀ sig, A.auth sig → N.AuthenticSignature s sig
  resumed : ∀ block, A.resumed block → N.Stale e.trace block
  signed : N.SignedVoted s H
  own : ∀ vote, SignedVote e.trace vote → vote.validator = N.validatorId i
    ∧ Voted H i vote.voteType vote.view vote.blockHash

/-- An accepted vote of an honest node is in the history. -/
lemma StepContext.voted (hctx : N.StepContext i A s H x.engine) (hkeys : N.NodeKeys i x.engine)
    (hvote : (x.engine.keyring.verifyVote N.crypto vote = true
      ∧ A.auth vote.signature) ∨ SignedVote x.engine.trace vote) {j : ι}
    (hj : N.validatorId j = vote.validator) : Voted H j vote.voteType vote.view vote.blockHash := by
  rcases hvote with ⟨hverify, hauth⟩ | hown
  · unfold Keyring.verifyVote at hverify
    split at hverify
    · cases hverify
    · next vs hvs =>
        split at hverify
        · cases hverify
        · next vi hvi =>
            rw [Bool.and_eq_true] at hverify
            rw [hkeys.keysFixed.validatorSetForEpoch hvs, ← hj] at hvi
            have hsigned := hctx.auth _ hauth j vi _ hvi hverify.2
            rw [show x.engine.keyring.chainIdHash = N.chainIdHash
              from hkeys.keysFixed.chainIdHash] at hsigned
            exact hctx.signed j _ _ _ _ _ _ hsigned
  · obtain ⟨hid, hvoted⟩ := hctx.own vote hown
    obtain rfl := N.validatorId_injective (hj.trans hid)
    exact hvoted

section

variable (hbound : N.FaultBound faulty) (hx : N.CertInv faulty H x.engine)
  (hctx : N.StepContext i A s H x.engine) (hkeys : N.NodeKeys i x.engine)

include hbound hx hctx hkeys

/-- A certificate formed from collected votes is backed. -/
lemma CertInv.formedQc {agg : AggregateSignature}
    (hvote : (x.engine.keyring.verifyVote N.crypto vote = true ∧ A.auth vote.signature)
      ∨ SignedVote x.engine.trace vote)
    (hagg : aggregateVotes x.engine.state.validatorSet (x.engine.voteCollector.bucket
      (x.engine.state.currentEpoch.number, vote.view, vote.blockHash, vote.voteType) ++ [vote])
      = some agg) (hquorum : hasQuorum x.engine.state.validatorSet agg = true)
    (hqc : qc = ⟨vote.blockHash, vote.view, agg, x.engine.state.currentEpoch.number⟩) :
    N.BackedCert faulty H (.qc vote.voteType qc) := by
  rw [hkeys.validatorSet] at hagg hquorum
  have hproved : N.Proved faulty H vote.voteType vote.view vote.blockHash := by
    refine proved_of_votes hbound hagg hquorum fun v hv j hj => ?_
    rcases mem_append.mp hv with hv | hv
    · obtain ⟨hkey, hvoted⟩ := hx.buckets _ v hv
      simp only [Prod.mk.injEq] at hkey
      obtain ⟨-, hview, hhash, htype⟩ := hkey
      rw [hview, hhash, htype]
      exact hvoted j hj
    · rw [mem_singleton.mp hv] at hj
      exact hctx.voted hkeys hvote hj
  subst hqc
  cases htype : vote.voteType with
  | vote =>
    rw [htype] at hproved
    exact .inr hproved
  | vote2 =>
    rw [htype] at hproved
    exact hproved

/-- **Every act keeps certificates backed**, while the history may grow. -/
lemma CertInv.step (h : Act (N.deps i) A x y) : N.CertInv faulty H y.engine := by
  have hqcs : QcHoldings (fun t qc => N.BackedCert faulty H (.qc t qc)) y.engine := by
    refine h.qcHoldings (fun cert hnew => ?_) (fun t qc hnew => ?_) hx.qcs
    · cases hnew with
      | verified _ hcheck hauth _ =>
        refine hauth.symm.imp id fun hauth => ?_
        rw [N.crypto_eq i] at hcheck
        exact certWhere_backed.mpr (backedCert_of_checks hbound hctx.signed hkeys.keysFixed hcheck
          fun sig hsig => hctx.auth sig (hauth sig hsig))
    · cases hnew with
      | formedQc vote _ agg hvote _ _ hagg hquorum hqc _ =>
        rw [N.crypto_eq i] at hvote
        exact hx.formedQc hbound hctx hkeys hvote hagg hquorum hqc
  refine ⟨hqcs.lockedQc, hqcs.highestQc, hqcs.currentViewQc, fun cert hcert =>
    certWhere_backed.mp (hqcs.certs cert hcert), fun key v hv => ?_, hqcs.wishes⟩
  rcases h.bucket hv with hold | ⟨hkey, -, hvote, -⟩
  · exact hx.buckets key v hold
  · rw [N.crypto_eq i] at hvote
    exact ⟨hkey, fun j hj => hctx.voted hkeys hvote hj⟩

end

/-! ### What a node's state says about its own votes -/

/-- The genesis certificate, or one for first-phase votes that the trace accounts for. -/
def RootOrKnownQc (trace : List Effect) (qc : QuorumCertificate) : Prop :=
  (qc.view = 0 ∧ qc.blockHash = BlockHash.genesis) ∨ KnownQc trace qc

/-- What a node has when it votes for the block of the given hash in a view, on a
certificate for its parent: both blocks, the certificate and the vote. -/
structure VotedBlock (trace : List Effect) (view : ℕ) (hash : BlockHash) (parentView : ℕ)
    (parentHash : BlockHash) (block parent : Block) : Prop where
  known : KnownBlock trace block
  hash_eq : block.hash = hash
  view_eq : block.view = view
  pos : 0 < view
  parentHash_eq : block.parentHash = parentHash
  parentKnown : KnownBlock trace parent
  parent_hash : parent.hash = parentHash
  height : block.height = parent.height + 1
  timestamp : parent.timestamp ≤ block.timestamp
  justified : ∃ qc, RootOrKnownQc trace qc ∧ qc.view = parentView ∧ qc.blockHash = parentHash
  signed : ∃ vote justify locked, Effect.signVote1 vote block justify locked ∈ trace
    ∧ vote.voteType = .vote ∧ vote.view = view ∧ vote.blockHash = hash

lemma VotedBlock.mono {t t' : List Effect} (h : t ⊆ t') {view : ℕ} {hash : BlockHash}
    {parentView : ℕ} {parentHash : BlockHash} {parent : Block}
    (hvoted : VotedBlock t view hash parentView parentHash block parent) :
    VotedBlock t' view hash parentView parentHash block parent where
  known := hvoted.known.mono h
  hash_eq := hvoted.hash_eq
  view_eq := hvoted.view_eq
  pos := hvoted.pos
  parentHash_eq := hvoted.parentHash_eq
  parentKnown := hvoted.parentKnown.mono h
  parent_hash := hvoted.parent_hash
  height := hvoted.height
  timestamp := hvoted.timestamp
  justified := by
    obtain ⟨qc, hqc, hrest⟩ := hvoted.justified
    exact ⟨qc, hqc.imp id fun hk => hk.mono h, hrest⟩
  signed := by
    obtain ⟨vote, justify, locked, hmem, hrest⟩ := hvoted.signed
    exact ⟨vote, justify, locked, h hmem, hrest⟩

open ConsensusState in
/-- The slots and the lock cover the node's votes in a history. -/
structure VoteInv (N : Network ι σ) (i : ι) (H : History ι) (e : Engine σ) : Prop where
  slot : ∀ v hash pv p, VoteHistory.Vote.first i v hash pv p ∈ H → v ≤ e.state.currentView
    ∧ ∃ v' hash', e.state.lastVote1 = some (v', hash') ∧ (v < v' ∨ (v = v' ∧ hash = hash'))
  lock : ∀ v hash, VoteHistory.Vote.second i v hash ∈ H →
    ∃ locked, e.state.lockedQc = some locked ∧ v ≤ locked.view
  highest : QcLe e.state.lockedQc e.state.highestQc
  known : ∀ qc, e.state.highestQc = some qc → RootOrKnownQc e.trace qc
  block : ∀ v hash pv p, VoteHistory.Vote.first i v hash pv p ∈ H →
    ∃ b parent, VotedBlock e.trace v hash pv p b parent
  signed : ∀ vote, SignedVote e.trace vote → vote.validator = N.validatorId i
    ∧ Voted H i vote.voteType vote.view vote.blockHash

/-- Votes of other nodes do not matter. -/
lemma VoteInv.mono_other {H' : History ι} {j : ι} (h : N.VoteInv j H e)
    (hsub : H ⊆ H') (hown : ∀ v ∈ H', v.voter = j → v ∈ H) : N.VoteInv j H' e where
  slot v hash pv p hmem := h.slot v hash pv p (hown _ hmem rfl)
  lock v hash hmem := h.lock v hash (hown _ hmem rfl)
  highest := h.highest
  known := h.known
  block v hash pv p hmem := h.block v hash pv p (hown _ hmem rfl)
  signed vote hvote := ⟨(h.signed vote hvote).1, (h.signed vote hvote).2.mono hsub⟩

/-- An act that signs no vote keeps the history. -/
lemma VoteInv.step (hx : N.VoteInv i H x.engine) (h : Act (N.deps i) A x y)
    (hslot : y.engine.state.lastVote1 = x.engine.state.lastVote1)
    (hold : ∀ effect ∈ y.engine.trace, effect.signsVote = true → effect ∈ x.engine.trace) :
    N.VoteInv i H y.engine where
  slot v hash pv p hmem := by
    obtain ⟨hle, hrest⟩ := hx.slot v hash pv p hmem
    exact ⟨hle.trans h.currentView_le, hslot ▸ hrest⟩
  lock v hash hmem := by
    obtain ⟨locked, hlocked, hle⟩ := hx.lock v hash hmem
    obtain ⟨locked', hlocked', hle'⟩ := h.qcLe_lockedQc locked hlocked
    exact ⟨locked', hlocked', hle.trans hle'⟩
  highest := h.lockedQc_le_highestQc hx.highest
  known qc hqc := by
    have hsub := h.trace_grows.subset
    rcases h.knownHighest hqc with hold | hknown
    · exact (hx.known qc hold).imp id fun hk => hk.mono hsub
    · exact .inr (hknown.mono hsub)
  block v hash pv p hmem := by
    obtain ⟨b, parent, hvoted⟩ := hx.block v hash pv p hmem
    exact ⟨b, parent, hvoted.mono h.trace_grows.subset⟩
  signed vote hvote := hx.signed vote (SignedVote.of_signsVote hold hvote)

/-- A proposal that passes the lock check is justified as high as the lock. -/
lemma le_of_lockedOut {locked : Option QuorumCertificate} {l : QuorumCertificate}
    (h : lockedOut locked justify = false) (hl : locked = some l) : l.view ≤ justify.view := by
  subst hl
  simp only [lockedOut, Bool.or_eq_false_iff, decide_eq_false_iff_not, not_lt] at h
  exact h.1

/-- What is known of the whole network when one node votes. -/
structure HistoryContext (N : Network ι σ) (faulty : List ℕ) (B : Block → Prop) (H : History ι) :
    Prop where
  valid : Valid (N.IsQuorum faulty) BlockHash.genesis H
  links : ∀ hash p, Link H hash p → ∃ b, B b ∧ b.hash = hash ∧ b.parentHash = p

/-- A voted block is not its own parent: its first vote would need an earlier
one. -/
lemma HistoryContext.parent_ne (hbound : N.FaultBound faulty)
    (hB : HashInjective B) (hroot : B Block.genesis) (hH : N.HistoryContext faulty B H)
    (hblock : B block) (hheight : 0 < block.height)
    (hparent : block.parentHash = justify.blockHash) (hbacked : N.Backed faulty H justify) :
    block.parentHash ≠ block.hash := by
  intro hself
  have hne : block.hash ≠ BlockHash.genesis := by
    intro hgen
    have heq : block = Block.genesis := hB _ _ hblock hroot hgen
    rw [heq] at hheight
    exact absurd hheight (lt_irrefl _)
  rcases hbacked with ⟨-, hgen⟩ | ⟨S, hS, hvotes⟩
  · exact hne (hself.symm.trans (hparent.trans hgen))
  · have hlink : ∀ p, Link H block.hash p → p = block.hash := by
      intro p hp
      obtain ⟨b, hb, hhash, hbp⟩ := hH.links block.hash p hp
      obtain rfl := hB _ _ hb hblock hhash
      exact hbp.symm.trans hself
    obtain ⟨j, hj, -⟩ := IsQuorum.inter hbound S S hS hS
    obtain ⟨pv, p, hmem⟩ := hvotes j hj
    rw [← hparent, hself] at hmem
    exact hH.valid.not_first_of_self_parent (IsQuorum.inter hbound) hne hlink hmem

/-- **A vote is for a block of the current view**: a stale proposal would share its
hash with another block. -/
lemma StepContext.view_eq (hB : HashInjective B)
    (hctx : N.StepContext i A s H x.engine) (hkeys : N.NodeKeys i x.engine)
    (hstored : StoredInv N.crypto x.engine) (hknown : ∀ b, KnownBlock x.engine.trace b → B b)
    {c : Crypto}
    (hblock : Votable c x.engine block justify) (hview : VotableView A x.engine block) :
    block.view = x.engine.state.currentView := by
  rcases hview with heq | ⟨hresumed, leader, hleader, hproposer⟩
  · exact heq
  rw [hkeys.validatorSet] at hleader
  obtain ⟨b, hb, hhash, hne⟩ := hctx.resumed block hresumed leader hleader hproposer
  obtain ⟨-, hk⟩ := hstored.getBlock _ _ hblock.stored
  exact absurd (congrArg Block.view (hB _ _ (hknown b hb) (hknown block hk) hhash)) hne

/-- **A second vote** keeps the history valid and the node's state covering it. -/
lemma VoteInv.second_step (hvalid : Valid (N.IsQuorum faulty) BlockHash.genesis H)
    (hx : N.VoteInv i H x.engine) (hpos : 0 < x.engine.state.currentView)
    (hcert : N.CertInv faulty H x.engine) (hkeys : N.NodeKeys i x.engine)
    (h : Tracked (N.deps i) A x.engine y.engine (.signVote2 vote qc)) :
    Valid (N.IsQuorum faulty) BlockHash.genesis
        (.second i x.engine.state.currentView qc.blockHash :: H)
      ∧ N.VoteInv i (.second i x.engine.state.currentView qc.blockHash :: H) y.engine := by
  cases h with
  | vote2 _ _ _ hvote _ hengine hqc hview hlock =>
  have hcertified : Certified (N.IsQuorum faulty) H x.engine.state.currentView qc.blockHash := by
    rcases hcert.qcs.known hqc with ⟨hzero, -⟩ | hproved
    · exact absurd hpos (by rw [← hview, hzero]; exact lt_irrefl 0)
    · rw [← hview]
      exact hproved
  have hsub : x.engine.trace ⊆ y.engine.trace := by
    rw [hengine]
    exact subset_append_left _ _
  refine ⟨.second hvalid (fun w hash pv p hmem => (hx.slot w hash pv p hmem).1) hpos hcertified, ?_⟩
  constructor
  case slot =>
    intro w hash pv p hmem
    rw [hengine]
    rcases mem_cons.mp hmem with heq | hmem
    · cases heq
    · exact hx.slot w hash pv p hmem
  case lock =>
    intro w hash hmem
    rw [hengine]
    rcases mem_cons.mp hmem with heq | hmem
    · cases heq
      exact hview ▸ hlock
    · exact hx.lock w hash hmem
  case highest => rw [hengine]; exact hx.highest
  case known =>
    intro qc hhigh
    rw [hengine] at hhigh
    exact (hx.known qc hhigh).imp id fun hk => hk.mono hsub
  case block =>
    intro w hash pv p hmem
    rcases mem_cons.mp hmem with heq | hmem
    · cases heq
    · obtain ⟨b, q, hvoted⟩ := hx.block w hash pv p hmem
      exact ⟨b, q, hvoted.mono hsub⟩
  case signed =>
    intro vote' hvote'
    rw [hengine] at hvote'
    rcases hvote'.append (fun _ => Engine.stored_slotEffects) with
      hold | ⟨_, _, _, heq⟩ | ⟨_, heq⟩
    · exact ⟨(hx.signed vote' hold).1, (hx.signed vote' hold).2.mono (subset_cons_self _ _)⟩
    · cases heq
    · cases heq
      rw [hvote]
      exact ⟨hkeys.validatorId, .head _⟩

section

variable (hbound : N.FaultBound faulty) (hB : HashInjective B)
  (hroot : B Block.genesis) (hH : N.HistoryContext faulty B H)
  (hpos : 0 < x.engine.state.currentView) (hx : N.VoteInv i H x.engine)
  (hcert : N.CertInv faulty H x.engine) (hctx : N.StepContext i A s H x.engine)
  (hkeys : N.NodeKeys i x.engine) (hstored : StoredInv N.crypto x.engine)
  (hknown : ∀ b, KnownBlock x.engine.trace b → B b)

include hbound hB hroot hH hpos hx hcert hctx hkeys hstored hknown

/-- **A first vote** keeps the history valid and the node's state covering it. -/
lemma VoteInv.first_step (h : Tracked (N.deps i) A x.engine y.engine
      (.signVote1 vote block justify x.engine.state.lockedQc)) :
    Valid (N.IsQuorum faulty) BlockHash.genesis (.first i x.engine.state.currentView block.hash
        justify.view justify.blockHash :: H)
      ∧ N.VoteInv i (.first i x.engine.state.currentView block.hash justify.view
        justify.blockHash :: H) y.engine := by
  cases h with
  | vote1 _ _ _ hvote hslot hengine hblock hvotable hjustify _ =>
  have hview := hctx.view_eq hB hkeys hstored hknown hblock hvotable
  have hqc : RootOrKnownQc x.engine.trace justify := by
    rcases hjustify with hhigh | ⟨hverified, -⟩
    · exact hx.known justify hhigh
    · exact .inr (KnownQc.of_verified hverified)
  have hbacked : N.Backed faulty H justify := by
    rcases hjustify with hhigh | ⟨hverified, -⟩
    · exact hcert.highestQc justify hhigh
    · exact hcert.certs (.qc .vote justify) (.inl hverified)
  have hone : ∀ w hash pv p, VoteHistory.Vote.first i w hash pv p ∈ H →
      w < x.engine.state.currentView ∨ (w = x.engine.state.currentView ∧ hash = block.hash) := by
    intro w hash pv p hmem
    obtain ⟨hle, w', hash', hlast, hcase⟩ := hx.slot w hash pv p hmem
    rcases hslot w' hash' hlast with hlt | ⟨rfl, rfl⟩
    · left
      rcases hcase with hlt' | ⟨rfl, -⟩
      · exact hlt'.trans hlt
      · exact hlt
    · exact hcase
  have hlock : ∀ w hash, VoteHistory.Vote.second i w hash ∈ H → w ≤ justify.view := by
    intro w hash hmem
    obtain ⟨locked, hlocked, hle⟩ := hx.lock w hash hmem
    rcases hjustify with hhigh | ⟨-, hout⟩
    · obtain ⟨high, hhigh', hle'⟩ := hx.highest locked hlocked
      obtain rfl := Option.some.inj (hhigh.symm.trans hhigh')
      exact hle.trans hle'
    · exact hle.trans (le_of_lockedOut hout hlocked)
  obtain ⟨-, hbk⟩ := hstored.getBlock _ _ hblock.stored
  have hne : block.parentHash ≠ block.hash := hH.parent_ne hbound hB hroot (hknown _ hbk)
    hblock.height hblock.parentHash hbacked
  obtain ⟨parent, hparent, hheight, htime⟩ := hblock.parent hne
  obtain ⟨hphash, hpk⟩ := hstored.getBlock _ _ hparent
  have hsub : x.engine.trace ⊆ y.engine.trace := by
    rw [hengine]
    exact subset_append_left _ _
  refine ⟨.first hH.valid hone hlock hbacked, ?_⟩
  constructor
  case slot =>
    intro w hash pv p hmem
    rw [hengine]
    rcases mem_cons.mp hmem with heq | hmem
    · cases heq
      exact ⟨le_rfl, _, _, rfl, .inr ⟨rfl, rfl⟩⟩
    · exact ⟨(hx.slot w hash pv p hmem).1, _, _, rfl, hone w hash pv p hmem⟩
  case lock =>
    intro w hash hmem
    rw [hengine]
    rcases mem_cons.mp hmem with heq | hmem
    · cases heq
    · exact hx.lock w hash hmem
  case highest => rw [hengine]; exact hx.highest
  case known =>
    intro qc hhigh
    rw [hengine] at hhigh
    exact (hx.known qc hhigh).imp id fun hk => hk.mono hsub
  case block =>
    intro w hash pv p hmem
    rcases mem_cons.mp hmem with heq | hmem
    · cases heq
      refine ⟨block, parent, hbk.mono hsub, rfl, hview, hpos, hblock.parentHash, hpk.mono hsub,
        hphash.trans hblock.parentHash, hheight, htime,
        ⟨justify, hqc.imp id fun hk => hk.mono hsub, rfl, rfl⟩, vote, justify,
        x.engine.state.lockedQc, ?_, ?_⟩
      · rw [hengine]
        simp
      · rw [hvote]
        exact ⟨rfl, rfl, rfl⟩
    · obtain ⟨b, q, hvoted⟩ := hx.block w hash pv p hmem
      exact ⟨b, q, hvoted.mono hsub⟩
  case signed =>
    intro vote' hvote'
    rw [hengine] at hvote'
    rcases hvote'.append (fun _ => Engine.stored_slotEffects) with
      hold | ⟨_, _, _, heq⟩ | ⟨_, heq⟩
    · exact ⟨(hx.signed vote' hold).1, (hx.signed vote' hold).2.mono (subset_cons_self _ _)⟩
    · cases heq
      rw [hvote]
      exact ⟨hkeys.validatorId, _, _, .head _⟩
    · cases heq

/-- **Every act extends a valid history to a valid one**, by a vote of the node
or not at all. -/
theorem extends_history (h : Act (N.deps i) A x y) :
    ∃ H', H ⊆ H' ∧ (∀ v ∈ H', v ∈ H ∨ v.voter = i)
      ∧ Valid (N.IsQuorum faulty) BlockHash.genesis H' ∧ N.CertInv faulty H' y.engine
      ∧ N.VoteInv i H' y.engine := by
  have hcert' : N.CertInv faulty H y.engine := hcert.step hbound hctx hkeys h
  have hnew : ∀ v : VoteHistory.Vote ι BlockHash, v.voter = i →
      ∀ w ∈ v :: H, w ∈ H ∨ w.voter = i := by
    intro v hv w hw
    rcases mem_cons.mp hw with rfl | hw
    · exact .inr hv
    · exact .inl hw
  rcases h.voting with ⟨vote, block, justify, hfirst⟩ | ⟨vote, qc, hsecond⟩ | ⟨hslot, -, hold⟩
  · obtain ⟨hvalid, hinv⟩ :=
      hx.first_step hbound hB hroot hH hpos hcert hctx hkeys hstored hknown hfirst
    exact ⟨_, subset_cons_self _ _, hnew _ rfl, hvalid, hcert'.mono (subset_cons_self _ _), hinv⟩
  · obtain ⟨hvalid, hinv⟩ := hx.second_step hH.valid hpos hcert hkeys hsecond
    exact ⟨_, subset_cons_self _ _, hnew _ rfl, hvalid, hcert'.mono (subset_cons_self _ _), hinv⟩
  · exact ⟨H, List.Subset.refl _, fun v hv => .inl hv, hH.valid, hcert', hx.step h hslot hold⟩

end

end Network

end Hotmint
