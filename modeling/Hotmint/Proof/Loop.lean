/-
Every step of the event loop is a sequence of acts.

* `reach_onDoubleCertFormed`, `reach_onQcFormed`: what a formed certificate
  triggers;
* `reach_tryPropose`, `reach_resumeProposal`: the leader's and the replica's
  side of a proposal;
* `reach_handleMessage`, `reach_handleTimeout`, `reach_runTask`: the handlers;
* `reach_apply`: **one step of the event loop**, from which every invariant of
  a run is derived by induction over acts (`RunWhere.invariant`).
-/
import Hotmint.Proof.Refine

namespace Hotmint

open Engine List Option Keyring
variable {σ : Type} {d : Deps σ} {A : Allowance} {env : Env}
variable {block : Block} {msg : ConsensusMessage} {c : Crypto} {e e' : Engine σ}
  {dc : Option DoubleCertificate} {justify qc : QuorumCertificate} {vote : Vote}
variable {k : Keyring} {highestQc lockedQc : Option QuorumCertificate} {sender : Option ℕ}
  {signature : Signature} {tc : TimeoutCertificate} {targetView validator : ℕ}

/-! ### Formed certificates -/

/-- A quiet change keeps the keys. -/
lemma Quiet.keyring (h : Quiet e e') : e'.keyring = e.keyring := by
  simp only [Engine.keyring, h.chainIdHash, h.currentView, h.currentEpoch, h.validatorSet,
    h.previousEpoch]

/-- A double certificate formed in the current view: commit, then advance. -/
lemma reach_onDoubleCertFormed {outer : QuorumCertificate}
    {exts : List (ℕ × Bytes)} (houter : Effect.formed (.qc .vote2 outer) ∈ e.trace)
    (hview : outer.view = e.state.currentView)
    (hyields : e.voteCollector.Yields e.state.validatorSet e.state.currentEpoch.number .vote2 outer
      exts) : Reach d A e (e.onDoubleCertFormed d env outer exts) := by
  unfold onDoubleCertFormed
  cases hinner : e.innerQcFor outer with
  | none => exact Reach.of_act (.viewQc none (by simp))
  | some inner =>
    have hform : Act d A ⟨e, .idle⟩ ⟨{ e with currentViewQc := none }.emit
        (.formed (.dc ⟨inner, outer, exts⟩)), .idle⟩ :=
      .formDc ⟨inner, outer, exts⟩ hinner houter hview hyields
    have hdc : Effect.formed (.dc ⟨inner, outer, exts⟩)
        ∈ ({ e with currentViewQc := none }.emit (.formed (.dc ⟨inner, outer, exts⟩))).trace :=
      mem_concat_self
    have hcommit : Reach d A _ (applyCommit d env _ _) := reach_applyCommit (.inr hdc)
    refine Reach.head (.single hform) (hcommit.andThen fun _ => ?_)
    have hdc' := hcommit.trace_grows.subset hdc
    change Reach d A _ ((withDc _ _).advanceViewTo d _ _)
    rw [advanceViewTo_withDc]
    · refine reach_advanceViewTo fun _ => .formedDc hdc' rfl ?_
      rw [applyCommit_currentView]
      exact hview
    · exact Nat.lt_succ_self _

lemma quiet_extendVote (e : Engine σ) (hash : BlockHash) : Quiet e (e.extendVote d hash).2 := by
  unfold extendVote
  split
  · exact Quiet.refl e
  · exact Quiet.call e _ rfl

/-- A second-phase vote, collected: it may complete a double certificate. -/
lemma reach_collectVote2 (htype : vote.voteType = .vote2)
    (hview : vote.view = e.state.currentView) (hepoch : vote.epoch = e.state.currentEpoch.number)
    (hvote : (e.keyring.verifyVote d.crypto vote = true ∧ A.auth vote.signature)
      ∨ SignedVote e.trace vote) (hkeys : A.keys e.keyring) (hext : ExtensionOk e vote) :
    Reach d A e (match e.collectVote d vote with
      | (some (outerQc, extensions), e) => e.onDoubleCertFormed d env outerQc extensions
      | (none, e) => e) := by
  have hcollect : Act d A ⟨e, .idle⟩ ⟨(e.collectVote d vote).2, .idle⟩ :=
    .collect vote hview hepoch hvote hkeys hext
  have hframe := collectVote_state (d := d) e vote
  refine Reach.head (.single hcollect) ?_
  split
  · next outer exts e' hcol =>
      obtain ⟨hformed, hqcview, -, hyields⟩ := collectVote_qc hcol
      rw [hcol] at hframe ⊢
      refine reach_onDoubleCertFormed (htype ▸ hformed) ?_ (htype ▸ hyields)
      rw [hqcview, hview, hframe]
  · next e' hcol =>
      rw [hcol]
      exact Reach.refl _

/-- A second-phase vote that is counted or sent after the lock was saved. -/
lemma reach_releaseVote2
    (hsigned : ∃ qc, Effect.signVote2 vote qc ∈ e.trace) (htype : vote.voteType = .vote2)
    (hslot : e.state.lastVote2 = some (vote.view, vote.blockHash))
    (hlock : ∃ locked, e.state.lockedQc = some locked ∧ vote.view ≤ locked.view)
    (hview : vote.view = e.state.currentView) (hown : vote.validator = e.state.validatorId)
    (hepoch : vote.epoch = e.state.currentEpoch.number) (hkeys : A.keys e.keyring) :
    Reach d A e ((e.persistState d).releaseVote2 d env vote) := by
  have hrelease : ∀ effect : Effect, (effect = .countVote vote
      ∨ ∃ leader, effect = .sendTo leader (.vote2Msg vote)) →
      Act d A ⟨e, .idle⟩ ⟨(e.persistState d).emit effect, .idle⟩ := fun effect heffect =>
    .release2 vote effect heffect hsigned htype hslot hlock
  have hstate : (e.persistState d).state = e.state := by rw [persistState_eq]; rfl
  unfold releaseVote2
  split
  · exact Reach.head (.single .persist) (Reach.of_quiet (Quiet.halt _))
  · next leader _ =>
      split_ifs
      · refine Reach.head (.single (hrelease _ (.inl rfl))) ?_
        refine reach_collectVote2 htype (by rw [state_emit, hstate, hview])
          (by rw [state_emit, hstate, hepoch]) (.inr (.inr ?_)) ?_
          (fun _ _ _ => .inl (by rw [state_emit, hstate, hown]))
        · obtain ⟨qc, hqc⟩ := hsigned
          refine ⟨qc, ?_⟩
          rw [persistState_eq]
          exact mem_append_left _ (mem_append_left _ hqc)
        · rw [persistState_eq]
          exact hkeys
      · exact Reach.of_act (hrelease _ (.inr ⟨leader, rfl⟩))

lemma keyring_updateLockedQc (e : Engine σ) (qc : QuorumCertificate) :
    (e.mapState (·.updateLockedQc qc)).keyring = e.keyring := by
  rw [mapState, ConsensusState.updateLockedQc_eq]
  rfl

/-- The second half of `on_qc_formed`, once the highest certificate is raised.
The lock commutes with the signature, so it is taken first here. -/
lemma reach_leaderVote2 {high : QuorumCertificate} (ext : Option Bytes)
    (hknown : KnownQc e.trace qc) (hview : qc.view = e.state.currentView)
    (hhigh : e.state.highestQc = some high) (hle : qc.view ≤ high.view) (hkeys : A.keys e.keyring) :
    Reach d A e (match e.signVote2 d qc ext with
      | (none, e) => e
      | (some vote, e) =>
        ((e.mapState (·.updateLockedQc qc)).persistState d).releaseVote2 d env vote) := by
  split
  · next e' hsign =>
      rw [signVote2_refused hsign]
      exact Reach.refl e
  · next vote e' hsign =>
      have hlockSign := signVote2_lock hsign
      have hsame : (e.state.updateLockedQc qc).updateHighestQc qc = e.state.updateLockedQc qc :=
        ConsensusState.updateHighestQc_of_le ((e.state.updateLockedQc_highestQc qc).trans hhigh) hle
      have hlock : Act d A ⟨e, .idle⟩ ⟨e.mapState (·.updateLockedQc qc), .idle⟩ := by
        have hact : Act d A ⟨e, .idle⟩ _ := .lock qc hknown hview
        simpa only [mapState, hsame] using hact
      have hview' : qc.view = (e.mapState (·.updateLockedQc qc)).state.currentView := by
        rw [state_mapState, ConsensusState.updateLockedQc_currentView]
        exact hview
      obtain ⟨locked, hlocked, hlelock⟩ := e.state.updateLockedQc_ge qc
      have hvote : Act d A ⟨e.mapState (·.updateLockedQc qc), .idle⟩
          ⟨e'.mapState (·.updateLockedQc qc), .idle⟩ :=
        .vote2 qc ext hlockSign hknown hview' ⟨locked, hlocked, hlelock⟩
      obtain ⟨hveq, heq, -⟩ := signVote2_spec hlockSign
      refine Reach.head (.head hlock (.single hvote)) ?_
      rw [heq]
      refine reach_releaseVote2 ⟨qc, by simp⟩ (by rw [hveq]; rfl) (by rw [hveq]; rfl)
        ⟨locked, hlocked, ?_⟩ (by rw [hveq]; rfl) (by rw [hveq]; rfl) (by rw [hveq]; rfl)
        ((keyring_updateLockedQc e qc).symm ▸ hkeys)
      rw [hveq]
      exact hview'.symm.trans_le hlelock

/-- **`on_qc_formed`**: raise the highest certificate, sign the second vote,
lock, save, release. -/
lemma reach_onQcFormed
    (hqc : Effect.formed (.qc .vote qc) ∈ e.trace) (hview : qc.view = e.state.currentView)
    (hkeys : A.keys e.keyring) : Reach d A e (e.onQcFormed d env qc) := by
  have hraise : Act d A ⟨{ e with currentViewQc := some qc }, .idle⟩
      ⟨{ e with currentViewQc := some qc }.mapState (·.updateHighestQc qc), .idle⟩ :=
    .raise qc (KnownQc.of_formed hqc)
  have hquiet : Quiet ({ e with currentViewQc := some qc }.mapState (·.updateHighestQc qc))
      (({ e with currentViewQc := some qc }.onVotesCollected d qc).extendVote d qc.blockHash).2 :=
    ((Quiet.emits _ (by simp [Effect.quiet, preparePayload])).trans (Quiet.setStep _ _)).trans
      (quiet_extendVote _ _)
  have hto := Relation.ReflTransGen.head (Act.viewQc (some qc) (by simpa using hqc))
    (.head hraise (.single (.quiet hquiet)))
  obtain ⟨high, hhigh, hle⟩ := e.state.updateHighestQc_ge qc
  refine Reach.head hto (reach_leaderVote2 _ ?_ ?_ (hquiet.highestQc.trans hhigh) hle ?_)
  · exact (KnownQc.of_formed hqc).mono (Acts.trace_grows hto).subset
  · rw [hquiet.currentView, state_mapState, ConsensusState.updateHighestQc_currentView]
    exact hview
  · rw [hquiet.keyring, mapState, ConsensusState.updateHighestQc_eq]
    exact hkeys

/-- A first-phase vote, collected: it may complete a certificate. -/
lemma reach_collectVote1 (htype : vote.voteType = .vote)
    (hview : vote.view = e.state.currentView) (hepoch : vote.epoch = e.state.currentEpoch.number)
    (hvote : (e.keyring.verifyVote d.crypto vote = true ∧ A.auth vote.signature)
      ∨ SignedVote e.trace vote) (hkeys : A.keys e.keyring) :
    Reach d A e (match e.collectVote d vote with
      | (some (qc, _), e) => e.onQcFormed d env qc
      | (none, e) => e) := by
  have hcollect : Act d A ⟨e, .idle⟩ ⟨(e.collectVote d vote).2, .idle⟩ :=
    .collect vote hview hepoch hvote hkeys fun hsecond => (by rw [htype] at hsecond; cases hsecond)
  have hframe := collectVote_state (d := d) e vote
  refine Reach.head (.single hcollect) ?_
  split
  · next qc exts e' hcol =>
      obtain ⟨hformed, hqcview, -⟩ := collectVote_qc hcol
      rw [hcol] at hframe ⊢
      refine reach_onQcFormed (htype ▸ hformed) ?_ ?_
      · rw [hqcview, hview, hframe]
      · rwa [← congrArg Prod.snd hcol, collectVote_keyring]
  · next e' hcol =>
      rw [hcol]
      exact Reach.refl _

/-! ### Proposing -/

lemma reach_leaderSelfVote
    (hblock : Votable d.crypto e block justify) (hview : block.view = e.state.currentView)
    (hjustify : e.state.highestQc = some justify) (hroot : block.appHash = e.state.lastAppHash)
    (hkeys : A.keys e.keyring) : Reach d A e (e.leaderSelfVote d env block justify) := by
  unfold leaderSelfVote
  split
  · next e' hsign =>
      rw [signVote1_refused hsign]
      exact Reach.refl e
  · next vote e' hsign =>
      have hvote : Act d A ⟨e, .idle⟩ ⟨e', .idle⟩ :=
        .vote1 block justify hsign hblock (.inl hview) (.inl hjustify) (fun _ => hroot)
          Phase.idle_ne_dead
      obtain ⟨hveq, heq, -⟩ := signVote1_spec hsign
      have hmem : Effect.signVote1 vote block justify e.state.lockedQc ∈ e'.trace := by
        rw [heq]
        simp
      have hcount : Act d A ⟨e', .idle⟩ ⟨e'.emit (.countVote vote), .idle⟩ := by
        refine .release1 vote _ (.inl rfl) ⟨_, _, _, hmem⟩ (by rw [hveq]; rfl) ?_
        rw [heq, hveq]
        rfl
      refine Reach.head (.head hvote (.single hcount)) (reach_collectVote1 ?_ ?_ ?_ ?_ ?_)
      · rw [hveq]
        rfl
      · rw [heq, hveq]
        rfl
      · rw [heq, hveq]
        rfl
      · exact .inr (.inl ⟨_, _, _, mem_append_left _ hmem⟩)
      · rw [heq]
        exact hkeys

lemma Votable.of_store (h : Votable c e block justify) (hstore : e'.store = e.store) :
    Votable c e' block justify := by
  obtain ⟨hhash, hparentHash, hheight, hparent, hstored⟩ := h
  exact ⟨hhash, hparentHash, hheight, hstore ▸ hparent, hstore ▸ hstored⟩

/-- A block that passed the checks is votable once it is stored. -/
lemma votable_putBlock {parent : Block} (hhash : block.hash = c.computeHash block)
    (hparentHash : block.parentHash = justify.blockHash)
    (hparent : e.store.getBlock block.parentHash = some parent)
    (hheight : block.height = parent.height + 1) (htime : parent.timestamp ≤ block.timestamp) :
    Votable c (e.putBlock block) block justify := by
  refine ⟨hhash, hparentHash, by omega, fun hne => ⟨parent, ?_, hheight, htime⟩, ?_⟩
  · rw [putBlock, store_emit, BlockStore.getBlock_putBlock, if_neg hne]
    exact hparent
  · rw [putBlock, store_emit, BlockStore.getBlock_putBlock, if_pos rfl]

/-- **`propose`** stores a block on the highest certificate's block. -/
lemma propose_spec (e : Engine σ)
    (hpayload : A.payload e.state.highestDoubleCert e.state.pendingVoteExtensions)
    {proposal : Option (Block × QuorumCertificate)} (h : e.propose d env = (proposal, e')) :
    match proposal with
    | none => e' = e
    | some (block, justify) => Acts d A ⟨e, .idle⟩ ⟨e', .idle⟩
        ∧ Votable d.crypto e' block justify ∧ block.view = e'.state.currentView
        ∧ e'.state.highestQc = some justify ∧ block.appHash = e'.state.lastAppHash
        ∧ e'.keyring = e.keyring := by
  unfold propose at h
  split at h
  · cases h
    rfl
  · next justify hjustify =>
      split at h
      · cases h
        rfl
      · next parent hparent =>
          have hcreate : Act d A ⟨e, .idle⟩ ⟨(e.createPayload d env parent).2, .idle⟩ :=
            .payload env parent hpayload
          set e₁ := (e.createPayload d env parent).2
          set draft := e₁.draftBlock d env justify.blockHash parent (e.createPayload d env parent).1
          cases h
          have hhash : d.crypto.computeHash draft
              = d.crypto.computeHash { draft with hash := d.crypto.computeHash draft } :=
            (d.crypto.computeHash_content draft _).symm
          set block := { draft with hash := d.crypto.computeHash draft }
          have hput : Act d A ⟨e₁, .idle⟩ ⟨e₁.putBlock block, .idle⟩ := .putBlock _ hhash
          have htime : parent.timestamp ≤ draft.timestamp :=
            (Nat.le_succ _).trans (le_max_right _ _)
          have hvotable : Votable d.crypto (e₁.putBlock block) block justify :=
            votable_putBlock hhash rfl hparent rfl htime
          have hsign : Act d A ⟨e₁.putBlock block, .idle⟩ ⟨(e₁.putBlock block).emit (.sign
              (proposalPayload e₁.state.chainIdHash e₁.state.currentEpoch.number block justify)),
              .idle⟩ := .proposal block justify hvotable.stored rfl
          refine ⟨?_, hvotable.of_store rfl, rfl, hjustify, rfl, rfl⟩
          refine .head hcreate (.head hput (.head hsign (.single (.quiet ?_))))
          rw [emits_cons]
          exact (Quiet.emit _ rfl).trans (Quiet.setStep _ _)

/-- **`try_propose`**: draft, store, broadcast, vote. -/
lemma reach_tryPropose (e : Engine σ) (hkeys : A.keys e.keyring)
    (hpayload : A.payload e.state.highestDoubleCert e.state.pendingVoteExtensions) :
    Reach d A e (e.tryPropose d env) := by
  unfold tryPropose
  split
  · next block justify e' h =>
      obtain ⟨hacts, hblock, hview, hjustify, hroot, hkeyring⟩ := propose_spec e hpayload h
      exact Reach.head hacts
        (reach_leaderSelfVote hblock hview hjustify hroot (hkeyring.symm ▸ hkeys))
  · next e' h =>
      rw [show e' = e from propose_spec e hpayload h]
      exact Reach.refl e

/-! ### Voting on a proposal -/

/-- What `on_proposal` has checked when it votes. -/
lemma checkProposal_ok (h : e.checkProposal d env block justify = .ok ()) :
    lockedOut e.state.lockedQc justify = false
      ∧ (∃ leader, e.state.validatorSet.leaderForView block.view = some leader
        ∧ block.proposer = leader.id)
      ∧ block.hash = d.crypto.computeHash block ∧ block.parentHash = justify.blockHash
      ∧ ∃ parent, e.store.getBlock block.parentHash = some parent
        ∧ block.height = parent.height + 1 ∧ parent.timestamp ≤ block.timestamp := by
  unfold checkProposal at h
  split at h <;> try contradiction
  next hlock =>
    split at h <;> try contradiction
    next leader hleader =>
      split at h <;> try contradiction
      next hproposer =>
        split at h <;> try contradiction
        next hhash =>
          split at h <;> try contradiction
          next hparentHash =>
            split at h <;> try contradiction
            next parent hparent =>
              split at h <;> try contradiction
              next hheight =>
                split at h <;> try contradiction
                split at h <;> try contradiction
                next htime =>
                  exact ⟨by simpa using hlock, ⟨leader, hleader, not_not.mp hproposer⟩,
                    not_not.mp hhash, not_not.mp hparentHash, parent, hparent,
                    not_not.mp hheight, not_lt.mp htime⟩

/-- What `on_proposal` leaves behind: a commit that is still to be processed, or
none. -/
def ProposalEnd (d : Deps σ) (A : Allowance) (e : Engine σ) :
    Option CommitResult × Engine σ → Prop
  | (some result, e') => Acts d A ⟨e, .idle⟩ ⟨e', phaseAfter (.ok result)⟩
  | (none, e') => Reach d A e e'

lemma ProposalEnd.head {e₁ : Engine σ} {r : Option CommitResult × Engine σ}
    (h : Acts d A ⟨e, .idle⟩ ⟨e₁, .idle⟩) (h' : ProposalEnd d A e₁ r) : ProposalEnd d A e r := by
  rcases r with ⟨_ | result, e'⟩
  · exact Reach.head h h'
  · exact h.trans h'

section

variable (hblock : Votable d.crypto e block justify) (hview : VotableView A e block)
  (hjustify : Effect.verified (.qc .vote justify) ∈ e.trace)
  (hlock : lockedOut e.state.lockedQc justify = false)

include hblock hview hjustify hlock

/-- The vote on a proposal, in or outside of a commit. -/
lemma acts_voteOnProposal {φ : Phase} (hphase : φ ≠ .dead) :
    Acts d A ⟨e, φ⟩ ⟨e.voteOnProposal d block justify, φ⟩ := by
  unfold voteOnProposal
  split_ifs with hroot hpower
  · exact .refl
  · split
    · next e' hsign =>
        rw [signVote1_refused hsign]
        exact Acts.of_quiet (Quiet.setStep _ _)
    · next vote e' hsign =>
        have hvote : Act d A ⟨e, φ⟩ ⟨e', φ⟩ :=
          .vote1 block justify hsign hblock hview (.inr ⟨hjustify, hlock⟩)
            (fun htracks => not_not.mp fun hne => hroot ⟨htracks, hne⟩) hphase
        obtain ⟨hveq, heq, -⟩ := signVote1_spec hsign
        split
        · next leader _ =>
            refine .head hvote (.head ?_ (Acts.of_quiet (Quiet.setStep _ _)))
            refine .release1 vote _ (.inr ⟨leader.id, rfl⟩)
              ⟨block, justify, e.state.lockedQc, ?_⟩ ?_ ?_
            · rw [heq]
              simp
            · rw [hveq]
              rfl
            · rw [heq, hveq]
              rfl
        · exact .head hvote (Acts.of_quiet (Quiet.halt _))
  · exact Acts.of_quiet (Quiet.setStep _ _)

/-- The commit and the vote at the end of `on_proposal`. -/
lemma proposalEnd_commit {cert : DoubleCertificate} (hcert : KnownDc e.trace cert)
    (hlogged : d.hasWal = true → A.unlogged
      ∨ ∀ target, e.store.getBlock cert.innerQc.blockHash = some target →
        IntentLogged e.trace target.height) : ProposalEnd d A e (match e.runTryCommit d cert with
      | (.ok result, e) => (some result, e.voteOnProposal d block justify)
      | (.err _, e) => (none, e)
      | (.panic, e) => (none, e)) := by
  have hact : Act d A ⟨e, .idle⟩
      ⟨(e.runTryCommit d cert).2, phaseAfter (e.runTryCommit d cert).1⟩ :=
    .commit cert hcert hlogged
  obtain ⟨appHash, halted, heq⟩ := runTryCommit_eq e cert
  have hmem := hact.trace_grows.subset hjustify
  split
  · next result e' hrun =>
      rw [hrun] at hact heq hmem
      refine Relation.ReflTransGen.head hact ?_
      refine acts_voteOnProposal (hblock.of_store (by rw [heq])) ?_ hmem ?_ ?_
      · rw [heq]
        exact hview
      · rw [heq]
        exact hlock
      · exact phaseAfter_ok_ne_dead result
  · next err e' hrun =>
      rw [hrun] at hact
      exact Reach.of_act hact
  · next e' hrun =>
      have hhalt : (e.runTryCommit d cert).2.halted = true := halted_of_panic (by rw [hrun])
      rw [hrun] at hact hhalt
      exact .inr ⟨hhalt, _, .single hact⟩

end

/-- The part of `on_proposal` before the commit. -/
lemma acts_acceptProposal (s : σ)
    (ok : Bool) (hcheck : e.checkProposal d env block justify = .ok ())
    (hjustify : Effect.verified (.qc .vote justify) ∈ e.trace)
    (hview : block.view = e.state.currentView ∨ A.resumed block) :
    let call := Effect.app (.validateBlock block (e.proposalContext block) ok)
    let e' := (({ e with app := s }.emit call).putBlock block).mapState (·.updateHighestQc justify)
    Acts d A ⟨e, .idle⟩ ⟨e', .idle⟩ ∧ Votable d.crypto e' block justify
      ∧ VotableView A e' block ∧ Effect.verified (.qc .vote justify) ∈ e'.trace
      ∧ lockedOut e'.state.lockedQc justify = false := by
  obtain ⟨hlock, hleader, hhash, hparentHash, parent, hparent, hheight, htime⟩ :=
    checkProposal_ok hcheck
  intro call e'
  have hput : Act d A ⟨{ e with app := s }.emit call, .idle⟩
      ⟨({ e with app := s }.emit call).putBlock block, .idle⟩ := .putBlock block hhash
  have hmem : Effect.verified (.qc .vote justify)
      ∈ (({ e with app := s }.emit call).putBlock block).trace :=
    mem_append_left _ (mem_append_left _ hjustify)
  have hraise : Act d A ⟨({ e with app := s }.emit call).putBlock block, .idle⟩ ⟨e', .idle⟩ :=
    .raise justify (KnownQc.of_verified hmem)
  refine ⟨.head (.quiet (Quiet.call e s rfl)) (.head hput (.single hraise)), ?_, ?_, hmem, ?_⟩
  · exact (votable_putBlock hhash hparentHash hparent hheight htime).of_store rfl
  · have hstate : e'.state = e.state.updateHighestQc justify := rfl
    rw [VotableView, hstate, ConsensusState.updateHighestQc_eq]
    exact hview.imp id fun hresumed => ⟨hresumed, hleader⟩
  · exact (ConsensusState.updateHighestQc_lockedQc e.state justify).symm ▸ hlock

/-- Storing the proposed block keeps the log. -/
lemma IntentLogged.acceptProposal {trace : List Effect} {height : ℕ}
    (h : IntentLogged trace height) (block : Block) (ctx : BlockContext) (ok : Bool) :
    IntentLogged (trace ++ [.app (.validateBlock block ctx ok)] ++ [.putBlock block]) height := by
  simpa [IntentLogged, Disk.after, Disk.apply] using h

lemma acts_recordJustify (h : Effect.verified (.qc .vote justify) ∈ e.trace) :
    Acts d A ⟨e, .idle⟩ ⟨e.recordJustify justify, .idle⟩ := by
  unfold recordJustify
  split_ifs
  · split
    · next justified hjustified =>
        split_ifs with hnone
        · exact .single (.putJustify justified justify h hjustified (by simpa using hnone))
        · exact .refl
    · exact .refl
  · exact .refl

section

variable (intent : Option ℕ) (hjustify : Effect.verified (.qc .vote justify) ∈ e.trace)
  (hview : block.view = e.state.currentView ∨ A.resumed block)
  (hdc : ∀ cert, dc = some cert → KnownDc e.trace cert)
  (hlogged : d.hasWal = true → A.unlogged ∨ ∀ cert, dc = some cert →
    cert.innerQc.blockHash ≠ block.hash ∧ ∀ target,
      e.store.getBlock cert.innerQc.blockHash = some target → IntentLogged e.trace target.height)

include hjustify hview hdc hlogged

/-- **`on_proposal`**: a commit is left for the caller to process, with the vote
cast in between. -/
lemma proposalEnd_onProposal (env : Env) :
    ProposalEnd d A e (e.onProposal d env block justify dc) := by
  unfold onProposal
  dsimp only
  split
  · exact Reach.refl e
  split
  · exact Reach.refl e
  · next hcheck =>
      set ok := (d.app.validateBlock e.app block (e.proposalContext block)).1
      set s := (d.app.validateBlock e.app block (e.proposalContext block)).2
      obtain ⟨hacts, hblock, hvotable, hmem, hlock⟩ :=
        acts_acceptProposal s ok hcheck hjustify hview
      split_ifs
      · refine ProposalEnd.head hacts ?_
        cases dc with
        | none =>
          exact Reach.of_acts (acts_voteOnProposal hblock hvotable hmem hlock Phase.idle_ne_dead)
        | some cert =>
          refine proposalEnd_commit hblock hvotable hmem hlock
            ((hdc cert rfl).mono hacts.trace_grows.subset) fun hwal => ?_
          refine (hlogged hwal).imp id fun h target htarget => ?_
          obtain ⟨hne, hlog⟩ := h cert rfl
          refine (hlog target ?_).acceptProposal block _ ok
          rwa [store_mapState, putBlock, store_emit,
            BlockStore.getBlock_putBlock, if_neg hne] at htarget
      · exact Reach.of_quiet (Quiet.call e s rfl)

/-- `on_proposal` and the processing of its commit. -/
lemma reach_processProposal : Reach d A e (let (result, e) := e.onProposal d env block justify dc
      e.andThen fun e =>
        match result with
        | some result => e.finishCommit d env intent (.ok result)
        | none => e.finishIntent d env intent) := by
  have hend := proposalEnd_onProposal hjustify hview hdc hlogged env
  cases hon : e.onProposal d env block justify dc with
  | mk result e₁ =>
    rw [hon] at hend
    cases result with
    | none => exact Reach.andThen hend fun _ => Reach.of_acts (acts_finishIntent _ intent)
    | some result =>
      dsimp only [andThen]
      split_ifs with hhalt
      · exact .inr ⟨hhalt, _, hend⟩
      · exact Reach.of_acts (hend.trans (acts_finishCommit _ intent (by simp)))

end

section

variable (hjustify : Effect.verified (.qc .vote justify) ∈ e.trace)
  (hview : block.view = e.state.currentView ∨ A.resumed block)

include hjustify hview

/-- The proposal once its certificates are recorded: log, vote and commit. -/
lemma reach_logAndVote (hdc : ∀ cert, dc = some cert → KnownDc e.trace cert)
    (hlogged : A.Logged block dc) :
    Reach d A e ((match e.commitTarget dc with
      | some height => e.logCommitIntent d env height
      | none => e).andThen fun e' =>
        let (result, e') := e'.onProposal d env block justify dc
        e'.andThen fun e' =>
          match result with
          | some result => e'.finishCommit d env (e.commitTarget dc) (.ok result)
          | none => e'.finishIntent d env (e.commitTarget dc)) := by
  have htarget : ∀ cert, dc = some cert → ∀ target,
      e.store.getBlock cert.innerQc.blockHash = some target →
        e.commitTarget dc = some target.height := by
    rintro cert rfl target h
    simp [commitTarget, h]
  cases hintent : e.commitTarget dc with
  | none =>
    refine (Reach.refl e).andThen fun _ => reach_processProposal none hjustify hview hdc fun _ => ?_
    refine hlogged.imp id fun h cert hcert => ⟨h cert hcert, fun target ht => ?_⟩
    exact absurd (hintent.symm.trans (htarget cert hcert target ht)) (by simp)
  | some height =>
    dsimp only [logCommitIntent]
    split_ifs with hwal hok
    · refine (Reach.of_act (.intent height)).andThen fun _ => ?_
      have hsub : e.trace ⊆ e.trace ++ [Effect.walWrite (.commitIntent height)] :=
        subset_append_left _ _
      refine reach_processProposal _ (hsub hjustify) hview (fun cert h => (hdc cert h).mono hsub)
        fun _ => hlogged.imp id fun h cert hcert => ⟨h cert hcert, fun target ht => ?_⟩
      have heq : height = target.height :=
        some.inj (hintent.symm.trans (htarget cert hcert target ht))
      exact heq ▸ intentLogged_append e.trace height
    · exact (Reach.of_quiet (Quiet.halt e)).andThen fun hhalt => by cases hhalt
    · exact (Reach.refl e).andThen fun _ =>
        reach_processProposal _ hjustify hview hdc fun h => absurd h hwal

/-- **The proposal branch** from the check of the double certificate on. -/
lemma reach_resumeProposal
    (hauth : ∀ cert, dc = some cert → (∀ sig ∈ (Certificate.dc cert).signatures, A.auth sig)
      ∨ Effect.verified (.dc cert) ∈ e.trace) (hlogged : A.Logged block dc)
    (hkeys : A.keys e.keyring) : Reach d A e (e.resumeProposal d env block justify dc) := by
  unfold resumeProposal
  dsimp only
  split_ifs with hok
  · have hverified : Acts d A ⟨e, .idle⟩
        ⟨e.emits ((dc.map fun dc => Effect.verified (.dc dc)).toList), .idle⟩ := by
      cases dc with
      | none =>
        rw [map_none, toList_none, emits_nil]
      | some cert => exact .single (.verified (.dc cert) hok (hauth cert rfl) hkeys)
    have hmem := hverified.trace_grows.subset hjustify
    have hrecord := acts_recordJustify (d := d) (A := A) hmem
    have hstate : ∀ m : Engine σ, (m.recordJustify justify).state = m.state := by
      intro m
      unfold recordJustify
      split_ifs <;> (try split) <;> (try split_ifs) <;> rfl
    refine Reach.head (hverified.trans hrecord)
      (reach_logAndVote (hrecord.trace_grows.subset hmem) ((hstate _).symm ▸ hview) ?_ hlogged)
    rintro cert rfl
    refine .inl (hrecord.trace_grows.subset ?_)
    exact mem_concat_self
  · exact Reach.refl e

end

lemma acts_storeAncestor (e : Engine σ) (ancestor : Block) :
    Acts d A ⟨e, .idle⟩ ⟨storeAncestor d e ancestor, .idle⟩ := by
  unfold storeAncestor
  split_ifs with h
  · exact .single (.putBlock ancestor h.2.2)
  · exact .refl

lemma acts_storeAncestors (ancestors : List Block) (e : Engine σ) :
    Acts d A ⟨e, .idle⟩ ⟨ancestors.foldl (storeAncestor d) e, .idle⟩ := by
  induction ancestors generalizing e with
  | nil => exact .refl
  | cons ancestor ancestors ih => exact (acts_storeAncestor e ancestor).trans (ih _)

/-- Storing ancestors leaves the consensus state and the keys alone. -/
lemma storeAncestors_state (ancestors : List Block) (e : Engine σ) :
    (ancestors.foldl (storeAncestor d) e).state = e.state
      ∧ (ancestors.foldl (storeAncestor d) e).keyring = e.keyring := by
  induction ancestors generalizing e with
  | nil => exact ⟨rfl, rfl⟩
  | cons ancestor ancestors ih =>
    rw [foldl_cons, (ih _).1, (ih _).2, storeAncestor]
    split_ifs <;> exact ⟨rfl, rfl⟩

/-- **The proposal branch**: a future view is reached through the double
certificate and the rest of the handler is left as a continuation. -/
lemma reach_handlePropose {ancestors : List Block} (hjustify : e.state.currentView ≤ block.view →
      Effect.verified (.qc .vote justify) ∈ e.trace)
    (hauth : ∀ cert, dc = some cert → ∀ sig ∈ (Certificate.dc cert).signatures, A.auth sig)
    (hjump : ∀ cert, dc = some cert → A.jump block.view justify cert)
    (hlogged : A.Logged block dc) (hkeys : A.keys e.keyring) :
    Reach d A e (e.handlePropose d env block justify dc ancestors) := by
  have hacts := acts_storeAncestors (d := d) (A := A) ancestors e
  obtain ⟨hstate, hkeyring⟩ := storeAncestors_state ancestors e
  unfold handlePropose
  dsimp only
  refine Reach.head hacts ?_
  have hsub := hacts.trace_grows.subset
  generalize ancestors.foldl (storeAncestor d) e = e₁ at hstate hkeyring hsub ⊢
  rw [← hstate] at hjustify
  rw [← hkeyring] at hkeys
  split_ifs with hfuture hpast
  · cases dc with
    | none => exact Reach.refl e₁
    | some cert =>
      dsimp only
      split_ifs with hok
      · have hcert : Effect.verified (.dc cert) ∈ (e₁.emit (.verified (.dc cert))).trace :=
          mem_concat_self
        have hcommit : Reach d A _ (applyCommit d env cert _) :=
          reach_applyCommit (.inl hcert)
        refine Reach.head (.single (.verified (.dc cert) hok (.inl (hauth cert rfl)) hkeys)) ?_
        refine hcommit.andThen fun _ => ?_
        have hpre := hcommit.trace_grows.subset
        have hverified : Effect.verified (.qc .vote justify) ∈ (applyCommit d env cert _).trace :=
          hpre (mem_append_left _ (hsub (hjustify hfuture.le)))
        have htask : TaskOk A (applyCommit d env cert _).trace
            (.resumeProposal block justify (some cert)) :=
          ⟨hverified, fun cert' h => some.inj h ▸ hpre hcert, hlogged⟩
        refine Reach.head (.single (.push _ htask)) ?_
        change Reach d A _ (advanceViewTo d _ _ (withDc cert (push
          (.resumeProposal block justify (some cert)) (applyCommit d env cert _))))
        rw [advanceViewTo_withDc]
        · exact reach_advanceViewTo fun _ => .jump (hpre hcert) hverified (hjump cert rfl)
        · change (applyCommit d env cert _).state.currentView < block.view
          rw [applyCommit_currentView]
          exact hfuture
      · exact Reach.refl e₁
  · unfold storePastBlock
    split_ifs with h
    · exact Reach.of_act (.putBlock block h.2)
    · exact Reach.refl e₁
  · exact reach_resumeProposal (hsub (hjustify (not_lt.mp hpast)))
      (.inl (le_antisymm (not_lt.mp hfuture) (not_lt.mp hpast)))
      (fun cert h => .inl (hauth cert h)) hlogged hkeys

/-! ### Votes and certificates -/

/-- **The vote branch.** -/
lemma reach_handleVote
    (hvote : e.state.currentView ≤ vote.view → e.keyring.verifyVote d.crypto vote = true)
    (hauth : A.auth vote.signature) (hkeys : A.keys e.keyring) :
    Reach d A e (e.handleVote d env vote) := by
  unfold handleVote
  split_ifs with h
  · obtain ⟨hview, hepoch, -, htype⟩ := h
    exact reach_collectVote1 htype hview hepoch (.inl ⟨hvote hview.ge, hauth⟩) hkeys
  · exact Reach.refl e

lemma quiet_acceptExtension (e : Engine σ) (vote : Vote) :
    Quiet e (e.acceptExtension d vote).2 := by
  unfold acceptExtension
  split
  · exact Quiet.refl e
  · exact Quiet.call e _ rfl

/-- An extension that passes is one that the application accepted. -/
lemma extensionOk_acceptExtension (e : Engine σ) (vote : Vote)
    (h : (e.acceptExtension d vote).1 = true) : ExtensionOk (e.acceptExtension d vote).2 vote := by
  intro _ ext hext
  refine .inr ?_
  unfold acceptExtension at h ⊢
  rw [hext] at h ⊢
  dsimp only at h ⊢
  rw [h]
  exact mem_concat_self

/-- **The second-phase vote branch.** -/
lemma reach_handleVote2
    (hvote : e.state.currentView ≤ vote.view → e.keyring.verifyVote d.crypto vote = true)
    (hauth : A.auth vote.signature) (hkeys : A.keys e.keyring) :
    Reach d A e (e.handleVote2 d env vote) := by
  unfold handleVote2
  have hquiet := quiet_acceptExtension (d := d) e vote
  have hext := extensionOk_acceptExtension (d := d) e vote
  dsimp only
  split_ifs with h hok
  · obtain ⟨hview, hepoch, htype⟩ := h
    refine Reach.head (.single (.quiet hquiet)) (reach_collectVote2 htype ?_ ?_ ?_ ?_ (hext hok))
    · rw [hquiet.currentView, hview]
    · rw [hquiet.currentEpoch, hepoch]
    · rw [hquiet.keyring]
      exact .inl ⟨hvote hview.ge, hauth⟩
    · rwa [hquiet.keyring]
  · exact Reach.of_quiet hquiet
  · exact Reach.refl e

/-- What `on_prepare` leaves for the handler: a signed second vote under a lock
at least as high, or no vote. -/
lemma acts_onPrepare {ext : Option Bytes} {vote2 : Option (ℕ × Vote)} (hknown : KnownQc e.trace qc)
    (hview : qc.view = e.state.currentView) (h : e.onPrepare d qc ext = (vote2, e')) :
    Acts d A ⟨e, .idle⟩ ⟨e', .idle⟩ ∧ ∀ leader vote, vote2 = some (leader, vote) →
        (∃ qc, Effect.signVote2 vote qc ∈ e'.trace) ∧ vote.voteType = .vote2
          ∧ e'.state.lastVote2 = some (vote.view, vote.blockHash)
          ∧ ∃ locked, e'.state.lockedQc = some locked ∧ vote.view ≤ locked.view := by
  unfold onPrepare at h
  split_ifs at h with hstep
  · cases h
    exact ⟨.refl, by simp⟩
  dsimp only at h
  have hlock : Act d A ⟨e, .idle⟩ ⟨_, .idle⟩ := .lock qc hknown hview
  obtain ⟨locked, hlocked, hle⟩ := e.state.updateLockedQc_ge qc
  have hlocked₁ := (ConsensusState.updateHighestQc_lockedQc (e.state.updateLockedQc qc) qc).trans
    hlocked
  have hview₁ : qc.view = ((e.state.updateLockedQc qc).updateHighestQc qc).currentView := by
    simpa using hview
  split_ifs at h
  · split at h
    · next e₁ hsign =>
        cases h
        rw [signVote2_refused hsign]
        exact ⟨.head hlock (Acts.of_quiet (Quiet.setStep _ _)), by simp⟩
    · next vote e₁ hsign =>
        have hvote : Act d A _ ⟨e₁, .idle⟩ :=
          .vote2 qc ext hsign hknown hview₁ ⟨locked, hlocked₁, hle⟩
        obtain ⟨hveq, heq, -⟩ := signVote2_spec hsign
        split at h
        · next leader _ =>
            cases h
            refine ⟨.head hlock (.head hvote (Acts.of_quiet (Quiet.setStep _ _))), ?_⟩
            intro leader' vote' hsome
            obtain ⟨-, rfl⟩ := Prod.mk.inj (some.inj hsome)
            refine ⟨⟨qc, ?_⟩, by rw [hveq]; rfl, by rw [heq, hveq]; rfl, locked, ?_, ?_⟩
            · rw [heq]
              simp [setStep]
            · rw [heq]
              exact hlocked₁
            · rw [hveq]
              exact hview₁.symm.trans_le hle
        · cases h
          exact ⟨.head hlock (.head hvote (Acts.of_quiet (Quiet.halt _))), by simp⟩
  · cases h
    exact ⟨.head hlock (Acts.of_quiet (Quiet.setStep _ _)), by simp⟩

/-- **The prepare branch.** -/
lemma reach_handlePrepare
    (hqc : e.state.currentView ≤ qc.view → Effect.verified (.qc .vote qc) ∈ e.trace) :
    Reach d A e (e.handlePrepare d qc) := by
  unfold handlePrepare
  split_ifs with hview
  · exact Reach.refl e
  · have hquiet := quiet_extendVote (d := d) e qc.blockHash
    dsimp only
    generalize e.extendVote d qc.blockHash = r at hquiet
    have hmem : KnownQc r.2.trace qc := by
      obtain ⟨effects, heq, -⟩ := hquiet.trace
      exact KnownQc.of_verified (heq ▸ mem_append_left _ (hqc hview.ge))
    cases hon : r.2.onPrepare d qc r.1 with
    | mk vote2 e₁ =>
      obtain ⟨hacts, hvote2⟩ :=
        acts_onPrepare hmem (hview.trans hquiet.currentView.symm) hon
      refine Reach.andThen (Reach.head (.single (.quiet hquiet)) (Reach.of_acts hacts)) fun _ => ?_
      rcases vote2 with _ | ⟨leader, vote⟩
      · exact Reach.of_act .persist
      · obtain ⟨hsigned, htype, hslot, hlock⟩ := hvote2 leader vote rfl
        exact Reach.of_act (.release2 vote _ (.inr ⟨leader, rfl⟩) hsigned htype hslot hlock)
  · exact Reach.refl e

/-! ### Timeouts -/

/-- A wish, and the view change a formed timeout certificate triggers. -/
lemma reach_collectWish
    (hlow : e.state.currentView ≤ targetView) (hhigh : targetView ≤ e.state.currentView + 1)
    (hqc : highestQc = e.state.highestQc ∨ ∀ qc, highestQc = some qc →
      Effect.verified (.qc .vote qc) ∈ e.trace)
    (haccepted : AcceptedWish d e targetView ⟨validator, highestQc, signature⟩) :
    Reach d A e (e.collectWish d targetView validator highestQc signature) := by
  have hwish : Act d A ⟨e, .idle⟩ ⟨(e.addWish targetView validator highestQc signature).2, .idle⟩ :=
    .wish targetView validator highestQc signature hlow hhigh hqc haccepted
  refine Reach.head (.single hwish) ?_
  unfold collectWish
  cases hadd : e.addWish targetView validator highestQc signature with
  | mk formed e₁ =>
    cases formed with
    | none => exact Reach.refl e₁
    | some tc =>
      have hmem : Effect.formed (.tc tc) ∈ e₁.trace := by
        unfold addWish at hadd
        split at hadd
        · obtain ⟨htc, rfl⟩ := Prod.mk.inj hadd
          rw [some.inj htc]
          simp
        · cases hadd
      exact reach_advanceViewTo fun _ => .timeout (.inr hmem) rfl

/-- **The wish branch.** -/
lemma reach_handleWish
    (hsigned : e.state.currentView ≤ targetView → e.keyring.verifyCurrent d.crypto
      (.wish targetView validator highestQc signature) = true)
    (hauth : ∀ qc, highestQc = some qc → ∀ sig ∈ qc.signatures, A.auth sig)
    (hkeys : A.keys e.keyring) :
    Reach d A e (e.handleWish d targetView validator highestQc signature) := by
  unfold handleWish
  dsimp only
  split_ifs with h
  · obtain ⟨hlow, hhigh, hok⟩ := h
    have hverified : Acts d A ⟨e, .idle⟩
        ⟨e.emits ((highestQc.map fun qc => Effect.verified (.qc .vote qc)).toList), .idle⟩ := by
      cases highestQc with
      | none => rw [map_none, toList_none, emits_nil]
      | some qc => exact .single (.verified (.qc .vote qc) hok (.inl (hauth qc rfl)) hkeys)
    refine Reach.head hverified (reach_collectWish hlow hhigh (.inr ?_)
      (.received hlow hhigh (hsigned hlow) ?_))
    · rintro qc rfl
      exact mem_concat_self
    · rintro qc hqc
      rw [show highestQc = some qc from hqc] at hok
      exact hok
  · exact Reach.refl e

lemma quiet_shouldRelayTc (e : Engine σ) (tc : TimeoutCertificate) :
    Quiet e { e with pacemaker := (e.pacemaker.shouldRelayTc tc).2 } := by
  constructor
  case trace => exact ⟨[], by simp, by simp⟩
  case wishes =>
    unfold Pacemaker.shouldRelayTc
    split <;> rfl
  all_goals rfl

/-- **The timeout certificate branch.** -/
lemma reach_handleTimeoutCert
    (htc : e.state.currentView < tc.view + 1 → Effect.verified (.tc tc) ∈ e.trace) :
    Reach d A e (e.handleTimeoutCert d tc) := by
  have hadvance : ∀ e₁ : Engine σ, Quiet e e₁ → Reach d A e
      (if e₁.state.currentView < tc.view + 1 then e₁.advanceView d (.timeoutCert tc) else e₁) := by
    intro e₁ hquiet
    refine Reach.head (.single (.quiet hquiet)) ?_
    split_ifs with hlt
    · refine reach_advanceViewTo fun _ => .timeout (.inl ?_) rfl
      obtain ⟨effects, htrace, -⟩ := hquiet.trace
      rw [htrace]
      exact mem_append_left _ (htc (hquiet.currentView ▸ hlt))
    · exact Reach.refl e₁
  unfold handleTimeoutCert
  dsimp only
  refine hadvance _ ?_
  split_ifs
  · exact (quiet_shouldRelayTc e tc).trans (Quiet.emit _ rfl)
  · exact quiet_shouldRelayTc e tc
  · exact Quiet.refl e

/-- **`handle_timeout`.** -/
lemma reach_handleTimeout (e : Engine σ) : Reach d A e (e.handleTimeout d) := by
  unfold handleTimeout
  split_ifs with hpower
  · refine Reach.head ?_ (reach_collectWish (Nat.le_succ _) le_rfl (.inl rfl) (.own hpower))
    exact .single (.quiet (Quiet.emits e (by simp [Effect.quiet, Crypto.wishPayload])))
  · exact Reach.refl e

/-! ### Statuses and evidence -/

/-- The check of a reported lock is the check of a justify certificate. -/
lemma verifyJustifyQc_of_verifyVoteQc
    (h : k.verifyVoteQc c qc .vote = true) : k.verifyJustifyQc c qc = true := by
  simp [verifyJustifyQc, h]

section

variable (hauth : ∀ qc, lockedQc = some qc → ∀ sig ∈ qc.signatures, A.auth sig)
  (hkeys : A.keys e.keyring)

include hauth hkeys

lemma acts_adoptStatusQc : Acts d A ⟨e, .idle⟩ ⟨e.adoptStatusQc d lockedQc, .idle⟩
      ∧ (e.adoptStatusQc d lockedQc).keyring = e.keyring
      ∧ (e.adoptStatusQc d lockedQc).state.highestDoubleCert = e.state.highestDoubleCert
      ∧ (e.adoptStatusQc d lockedQc).state.pendingVoteExtensions
        = e.state.pendingVoteExtensions := by
  unfold adoptStatusQc
  split
  · next qc =>
      split_ifs with h
      · refine ⟨.head (.verified (.qc .vote qc) (verifyJustifyQc_of_verifyVoteQc h.2)
          (.inl (hauth qc rfl)) hkeys) (.single (.raise qc (KnownQc.of_verified ?_))), ?_⟩
        · exact mem_concat_self
        · rw [mapState, ConsensusState.updateHighestQc_eq]
          exact ⟨rfl, rfl, rfl⟩
      · exact ⟨.refl, rfl, rfl, rfl⟩
  · exact ⟨.refl, rfl, rfl, rfl⟩

/-- **The status branch.** -/
lemma reach_handleStatusCert (hturn : e.AboutToPropose →
      A.payload e.state.highestDoubleCert e.state.pendingVoteExtensions) :
    Reach d A e (e.handleStatusCert d env lockedQc validator) := by
  obtain ⟨hadopt, hkeyring, hdc, hpending⟩ := acts_adoptStatusQc hauth hkeys
  unfold handleStatusCert
  dsimp only
  split_ifs with hwaits
  · refine Reach.head hadopt ?_
    refine Reach.head (.single (.quiet (Quiet.fields _ _ _))) (reach_tryPropose _ ?_ ?_)
    · exact hkeyring.symm ▸ hkeys
    · rw [hdc, hpending]
      exact hturn (.inr hwaits)
  · refine Reach.head hadopt ?_
    exact Reach.of_quiet (Quiet.fields _ _ _)
  · exact Reach.refl e

end

/-! ### The event loop -/

/-- A timeout certificate is only accepted with its signers' certificates. -/
lemma verifyTc_signedQcs {vs : ValidatorSet}
    (h : k.verifyTc c tc vs = true) (hqc : qc ∈ tc.signedQcs) : k.verifyJustifyQc c qc = true := by
  simp only [verifyTc, Bool.and_eq_true, decide_eq_true_eq] at h
  obtain ⟨⟨⟨hbits, hqcs⟩, hsigners⟩, -⟩ := h
  obtain ⟨⟨bit, entry⟩, hmem, hsome⟩ := mem_filterMap.mp hqc
  cases bit with
  | false => cases hsome
  | true =>
    obtain ⟨i, hi, hget⟩ := mem_iff_getElem.mp hmem
    rw [getElem_zip] at hget
    obtain ⟨hbit, hentry⟩ := Prod.mk.inj hget
    have hi' : i < tc.aggregateSignature.signers.length ∧ i < tc.highestQcs.length := by
      simpa using hi
    have hval : i < vs.validators.length := lt_of_lt_of_eq hi'.1 hbits
    have hzip : (true, (vs.validators[i], some qc))
        ∈ tc.aggregateSignature.signers.zip (vs.validators.zip tc.highestQcs) := by
      refine mem_iff_getElem.mpr ⟨i, by simp [hi'.1, hi'.2, hval], ?_⟩
      rw [getElem_zip, getElem_zip, hbit, hentry]
      exact congrArg _ (congrArg _ hsome)
    obtain ⟨sig, -, hok⟩ := verifySigners_sound hsigners hzip
    simp only [Bool.and_eq_true] at hok
    exact hok.1

/-- `verify_message` has checked every certificate it is credited with. -/
lemma checks_checkedCertificates (h : k.verifyCurrent c msg = true) :
    ∀ cert ∈ checkedCertificates msg, k.checks c cert = true := by
  intro cert hcert
  cases msg with
  | propose block justify dc signature ancestors =>
    obtain rfl := mem_singleton.mp hcert
    simp only [verifyCurrent] at h
    split at h
    · cases h
    · exact (Bool.and_eq_true_iff.mp h).2
  | prepare certificate signature =>
    obtain rfl := mem_singleton.mp hcert
    simp only [verifyCurrent] at h
    split at h
    · cases h
    · exact verifyJustifyQc_of_verifyVoteQc (Bool.and_eq_true_iff.mp h).2
  | timeoutCert tc =>
    rcases mem_cons.mp hcert with rfl | hmem
    · exact h
    · obtain ⟨qc, hqc, rfl⟩ := mem_map.mp hmem
      simp only [verifyCurrent, Bool.or_eq_true] at h
      rcases h with h | h
      · exact verifyTc_signedQcs h hqc
      · split at h
        · exact verifyTc_signedQcs h hqc
        · cases h
  | _ => cases hcert

/-- The checked certificates are part of the message. -/
lemma signatures_checkedCertificates {cert : Certificate}
    (hcert : cert ∈ checkedCertificates msg) : cert.signatures ⊆ msg.signatures := by
  cases msg with
  | propose block justify dc signature ancestors =>
    obtain rfl := mem_singleton.mp hcert
    intro sig hsig
    simp only [ConsensusMessage.signatures, mem_cons, mem_append]
    exact .inr (.inl (.inl (.inr hsig)))
  | prepare certificate signature =>
    obtain rfl := mem_singleton.mp hcert
    exact subset_cons_self _ _
  | timeoutCert tc =>
    rcases mem_cons.mp hcert with rfl | hmem
    · exact List.Subset.refl _
    · obtain ⟨qc, hqc, rfl⟩ := mem_map.mp hmem
      intro sig hsig
      refine mem_append_right _ (mem_flatMap.mpr ⟨some qc, mem_highestQcs hqc, ?_⟩)
      simpa [Certificate.signatures] using hsig
  | _ => cases hcert

/-- The certificates of a message, all checked under the same keys. -/
lemma acts_verified {certs : List Certificate}
    (hcheck : ∀ cert ∈ certs, e.keyring.checks d.crypto cert = true)
    (hauth : ∀ cert ∈ certs, ∀ sig ∈ cert.signatures, A.auth sig) (hkeys : A.keys e.keyring) :
    Acts d A ⟨e, .idle⟩ ⟨e.emits (certs.map .verified), .idle⟩ := by
  induction certs generalizing e with
  | nil => rw [map_nil, emits_nil]
  | cons cert certs ih =>
    have hcert : Act d A ⟨e, .idle⟩ ⟨e.emit (.verified cert), .idle⟩ :=
      .verified cert (hcheck cert mem_cons_self) (.inl (hauth cert mem_cons_self)) hkeys
    refine .head hcert ?_
    rw [map_cons, emits_cons]
    exact ih (fun cert' h => hcheck cert' (.tail _ h))
      (fun cert' h => hauth cert' (.tail _ h)) hkeys

lemma quiet_rateLimit (env : Env) (e : Engine σ) (sender : Option ℕ) :
    Quiet e (e.rateLimit env sender).2 := by
  unfold rateLimit
  split
  · exact Quiet.refl e
  · dsimp only
    split_ifs
    · exact Quiet.fields e _ _
    · exact Quiet.fields e _ _

lemma rateLimit_state (env : Env) (e : Engine σ) (sender : Option ℕ) :
    (e.rateLimit env sender).2.state = e.state ∧ (e.rateLimit env sender).2.todo = e.todo := by
  unfold rateLimit
  split
  · exact ⟨rfl, rfl⟩
  · dsimp only
    split_ifs <;> exact ⟨rfl, rfl⟩

/-- What is known of the message of a label. -/
def LabelOk (A : Allowance) : Label → Prop
  | .message _ _ msg => (∀ sig ∈ msg.signatures, A.auth sig)
      ∧ (∀ block justify dc signature ancestors,
        msg = .propose block justify dc signature ancestors →
        (∀ cert, dc = some cert → A.jump block.view justify cert) ∧ A.Logged block dc)
      ∧ ∀ proof, msg = .evidence proof → A.gossip proof
  | _ => True

/-- **The branches of `handle_message`**, for a message of the past or one whose
checks passed. -/
lemma reach_dispatch (hlabel : LabelOk A (.message env sender msg))
    (hverified : e.keyring.isPast msg = true ∨ (e.keyring.verifyCurrent d.crypto msg = true
      ∧ ∀ cert ∈ checkedCertificates msg, Effect.verified cert ∈ e.trace))
    (hkeys : A.keys e.keyring) (hturn : e.AboutToPropose →
      A.payload e.state.highestDoubleCert e.state.pendingVoteExtensions) :
    Reach d A e (e.dispatch d env msg) := by
  obtain ⟨hauth, hpropose, hgossip⟩ := hlabel
  -- a message at or above the current view was checked
  have hcurrent : ∀ view, messageView msg = some view → e.state.currentView ≤ view →
      e.keyring.verifyCurrent d.crypto msg = true
        ∧ ∀ cert ∈ checkedCertificates msg, Effect.verified cert ∈ e.trace := by
    intro view hview hle
    rcases hverified with hpast | hchecked
    · simp only [isPast, hview, decide_eq_true_eq] at hpast
      exact absurd hpast (not_lt.mpr hle)
    · exact hchecked
  cases msg with
  | propose block justify dc signature ancestors =>
    obtain ⟨hjump, hlogged⟩ := hpropose block justify dc signature ancestors rfl
    refine reach_handlePropose (fun _ => ?_) (fun cert hcert sig hsig => ?_) hjump hlogged hkeys
    · rcases hverified with hpast | ⟨-, hchecked⟩
      · cases hpast
      · exact hchecked _ mem_cons_self
    · subst hcert
      refine hauth sig (mem_cons_of_mem _ ?_)
      simp only [mem_append]
      exact .inl (.inr (by simpa [Certificate.signatures] using hsig))
  | voteMsg vote =>
    exact reach_handleVote (fun hle => (hcurrent vote.view rfl hle).1) (hauth _ mem_cons_self) hkeys
  | prepare certificate signature =>
    exact reach_handlePrepare fun hle =>
      (hcurrent certificate.view rfl hle).2 _ mem_cons_self
  | vote2Msg vote =>
    exact reach_handleVote2 (fun hle => (hcurrent vote.view rfl hle).1)
      (hauth _ mem_cons_self) hkeys
  | wish targetView validator highestQc signature =>
    refine reach_handleWish (fun hle => (hcurrent targetView rfl hle).1)
      (fun qc hqc sig hsig => hauth sig (mem_cons_of_mem _ ?_)) hkeys
    simpa [hqc] using hsig
  | timeoutCert tc =>
    exact reach_handleTimeoutCert fun hlt =>
      (hcurrent (tc.view + 1) rfl hlt.le).2 _ mem_cons_self
  | statusCert lockedQc validator signature =>
    refine reach_handleStatusCert
      (fun qc hqc sig hsig => hauth sig (mem_cons_of_mem _ ?_)) hkeys hturn
    simpa [hqc] using hsig
  | evidence proof => exact .inl (.single (.gossip proof (hgossip proof rfl)))

/-- **`handle_message`**: the rate limit, the checks, the branch. -/
lemma reach_handleMessage (hlabel : LabelOk A (.message env sender msg)) (hA : A.Holds e) :
    Reach d A e (e.handleMessage d env sender msg) := by
  have hquiet := quiet_rateLimit env e sender
  obtain ⟨hstate, htodo⟩ := rateLimit_state env e sender
  unfold handleMessage
  split
  · next e₁ heq =>
      rw [heq] at hquiet
      exact Reach.of_quiet hquiet
  · next e₁ heq =>
      rw [heq] at hquiet hstate htodo
      refine Reach.head (.single (.quiet hquiet)) ?_
      have hkeys : A.keys e₁.keyring := hquiet.keyring.symm ▸ hA.keys
      have hturn : e₁.AboutToPropose → A.payload e₁.state.highestDoubleCert
          e₁.state.pendingVoteExtensions := by
        unfold Engine.AboutToPropose
        rw [hstate, htodo]
        exact hA.payload
      split_ifs with hpast hcheck
      · exact reach_dispatch hlabel (.inl hpast) hkeys hturn
      · refine Reach.head (acts_verified (checks_checkedCertificates hcheck) ?_ hkeys) ?_
        · exact fun cert hcert sig hsig =>
            hlabel.1 sig (signatures_checkedCertificates hcert hsig)
        · refine reach_dispatch hlabel (.inr ⟨hcheck, fun cert hcert => ?_⟩) hkeys hturn
          exact mem_append_right _ (mem_map_of_mem hcert)
      · exact Reach.refl e₁

/-- **The next continuation.** -/
lemma reach_runTask (htodo : TodoOk A e) (hA : A.Holds e) : Reach d A e (e.runTask d env) := by
  unfold runTask
  cases hlist : e.todo with
  | nil => exact Reach.refl e
  | cons task todo =>
    have htask : TaskOk A e.trace task := htodo task (hlist ▸ .head _)
    refine Reach.head (.single (.pop task todo hlist)) ?_
    cases task with
    | tryPropose => exact reach_tryPropose _ hA.keys (hA.payload (.inl ⟨todo, hlist⟩))
    | resumeProposal block justify dc =>
      obtain ⟨hjustify, hdc, hlogged⟩ := htask
      exact reach_resumeProposal hjustify (hA.resumed block justify dc todo hlist)
        (fun cert h => .inr (hdc cert h)) hlogged hA.keys

/-- **One step of the event loop** is a sequence of acts. -/
theorem reach_apply {label : Label} (hlabel : LabelOk A label)
    (htodo : TodoOk A e) (hA : A.Holds e) : Reach d A e (e.apply d label) := by
  cases label with
  | message env sender msg => exact reach_handleMessage hlabel hA
  | timeout => exact reach_handleTimeout e
  | task env => exact reach_runTask htodo hA

end Hotmint
