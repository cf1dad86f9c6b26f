/-
The effects a safety argument follows, and the acts they come from.

* `tracked`: checked and formed certificates, signed votes and proposals,
  stored and executed blocks, detected equivocations;
* `Tracked`: where such an effect comes from;
* `Act.tracked`: **a tracked effect is old or comes from one of these acts**.
-/
import Hotmint.Proof.Fields
import Hotmint.Proof.Commits

namespace Hotmint

open Engine List Effect
variable {σ : Type} {d : Deps σ} {A : Allowance}
variable {effect : Effect} {x y : Flow σ}

lemma Engine.commitTrace (d : Deps σ) (dc : DoubleCertificate) (e : Engine σ) :
    CommitTrace d.app dc e.store (.start e.state.lastCommittedHeight e.state.currentEpoch
      e.previousEpoch e.pendingEpoch e.app) (e.commitRun d dc) :=
  tryCommit_spec d.app dc e.store e.app _ _ _ _

/-- The effects followed by the arguments on votes, certificates and blocks. -/
def Effect.tracked : Effect → Bool
  | .verified _ => true
  | .formed _ => true
  | .signVote1 _ _ _ _ => true
  | .signVote2 _ _ => true
  | .sign (.vote ..) => true
  | .sign (.proposal ..) => true
  | .putBlock _ => true
  | .app (.executeBlock _ _ _) => true
  | .app (.createPayload _ _) => true
  | .broadcastEvidence _ => true
  | _ => false

lemma Effect.tracked_of_calm (h : effect.calm = true) : effect.tracked = false := by
  cases effect with
  | sign payload =>
    cases payload with
    | vote | proposal => cases h
    | _ => rfl
  | app call =>
    cases call with
    | executeBlock | createPayload => cases h
    | _ => rfl
  | verified | formed | signVote1 | signVote2 | putBlock | broadcastEvidence => cases h
  | _ => rfl

/-- Where a tracked effect comes from, between the engine before and after an
act. -/
inductive Tracked (d : Deps σ) (A : Allowance) (e e' : Engine σ) : Effect → Prop
  | verified (cert : Certificate) (hcheck : e.keyring.checks d.crypto cert = true)
      (hauth : (∀ sig ∈ cert.signatures, A.auth sig) ∨ verified cert ∈ e.trace)
      (hkeys : A.keys e.keyring) : Tracked d A e e' (.verified cert)
  | formedQc (vote : Vote) (qc : QuorumCertificate) (agg : AggregateSignature)
      (hvote : (e.keyring.verifyVote d.crypto vote = true ∧ A.auth vote.signature)
        ∨ SignedVote e.trace vote)
      (hepoch : vote.epoch = e.state.currentEpoch.number)
      (hextension : vote.voteType = .vote → vote.extension = none)
      (hagg : aggregateVotes e.state.validatorSet (e.voteCollector.bucket
        (e.state.currentEpoch.number, vote.view, vote.blockHash, vote.voteType) ++ [vote])
        = some agg)
      (hquorum : hasQuorum e.state.validatorSet agg = true)
      (hqc : qc = ⟨vote.blockHash, vote.view, agg, e.state.currentEpoch.number⟩)
      (hkeys : A.keys e.keyring) : Tracked d A e e' (.formed (.qc vote.voteType qc))
  | formedTc (tc : TimeoutCertificate) (targetView validator : ℕ)
      (highestQc : Option QuorumCertificate) (signature : Signature)
      (hqc : highestQc = e.state.highestQc ∨ ∀ qc, highestQc = some qc →
        verified (.qc .vote qc) ∈ e.trace)
      (hlow : e.state.currentView ≤ targetView) (hhigh : targetView ≤ e.state.currentView + 1)
      (hadd : (e.pacemaker.addWish e.state.validatorSet targetView validator highestQc
        signature).1 = some tc) : Tracked d A e e' (.formed (.tc tc))
  | formedDc (dc : DoubleCertificate) (hinner : e.innerQcFor dc.outerQc = some dc.innerQc)
      (houter : formed (.qc .vote2 dc.outerQc) ∈ e.trace)
      (hview : dc.outerQc.view = e.state.currentView)
      (hyields : e.voteCollector.Yields e.state.validatorSet e.state.currentEpoch.number .vote2
        dc.outerQc dc.voteExtensions) :
      Tracked d A e e' (.formed (.dc dc))
  | vote1 (vote : Vote) (block : Block) (justify : QuorumCertificate)
      (hvote : vote = e.ownVote d .vote block.hash none)
      (hslot : ∀ v b, e.state.lastVote1 = some (v, b) →
        v < e.state.currentView ∨ (v = e.state.currentView ∧ b = block.hash))
      (hengine : e' = { e with
        state := { e.state with lastVote1 := some (e.state.currentView, block.hash) }
        trace := e.trace ++ (slotEffects d .vote e.state.currentView block.hash
          ++ [signVote1 vote block justify e.state.lockedQc]) })
      (hblock : Votable d.crypto e block justify) (hview : VotableView A e block)
      (hjustify : e.state.highestQc = some justify ∨ (verified (.qc .vote justify) ∈ e.trace
          ∧ lockedOut e.state.lockedQc justify = false))
      (hroot : d.app.tracksAppHash e.app = true → block.appHash = e.state.lastAppHash) :
      Tracked d A e e' (.signVote1 vote block justify e.state.lockedQc)
  | vote2 (vote : Vote) (qc : QuorumCertificate) (extension : Option Bytes)
      (hvote : vote = e.ownVote d .vote2 qc.blockHash extension)
      (hslot : ∀ v b, e.state.lastVote2 = some (v, b) →
        v < e.state.currentView ∨ (v = e.state.currentView ∧ b = qc.blockHash))
      (hengine : e' = { e with
        state := { e.state with lastVote2 := some (e.state.currentView, qc.blockHash) }
        trace := e.trace ++ (slotEffects d .vote2 e.state.currentView qc.blockHash
          ++ [signVote2 vote qc]) })
      (hqc : KnownQc e.trace qc) (hview : qc.view = e.state.currentView)
      (hlock : ∃ locked, e.state.lockedQc = some locked ∧ qc.view ≤ locked.view) :
      Tracked d A e e' (.signVote2 vote qc)
  | putBlock (block : Block) (hhash : block.hash = d.crypto.computeHash block)
      (hstore : e'.store = e.store.putBlock block) : Tracked d A e e' (.putBlock block)
  | proposal (block : Block) (justify : QuorumCertificate)
      (hblock : e.store.getBlock block.hash = some block)
      (hview : block.view = e.state.currentView) :
      Tracked d A e e' (.sign (proposalPayload e.state.chainIdHash e.state.currentEpoch.number
        block justify))
  | payload (env : Env) (parent : Block) (bytes : Bytes)
      (hpayload : A.payload e.state.highestDoubleCert e.state.pendingVoteExtensions) :
      Tracked d A e e' (.app (.createPayload (e.payloadContext env parent) bytes))
  | executed (dc : DoubleCertificate) (block : Block) (ctx : BlockContext)
      (response : Option EndBlockResponse) (hdc : KnownDc e.trace dc)
      (hcall : AppCall.executeBlock block ctx response ∈ (e.commitRun d dc).calls) :
      Tracked d A e e' (.app (.executeBlock block ctx response))
  | detected (vote : Vote) (proof : EquivocationProof) (hview : vote.view = e.state.currentView)
      (hepoch : vote.epoch = e.state.currentEpoch.number)
      (hvote : (e.keyring.verifyVote d.crypto vote = true ∧ A.auth vote.signature)
        ∨ SignedVote e.trace vote)
      (hproof : e.detected vote = some proof)
      (hstore : e'.evidenceStore = fileProof d (some proof) e.evidenceStore) :
      Tracked d A e e' (.broadcastEvidence proof)

lemma Effect.tracked_of_stored (h : effect.stored = true) : effect.tracked = false := by
  cases effect <;> first | rfl | cases h

section

variable {e e' : Engine σ} {effects : List Effect}

/-- An act whose new effects are not tracked. -/
lemma untracked (heq : e'.trace = e.trace ++ effects) (hnone : ∀ x ∈ effects, x.tracked = false) :
    ∃ effects, e'.trace = e.trace ++ effects
      ∧ ∀ x ∈ effects, x.tracked = true → Tracked d A e e' x :=
  ⟨effects, heq, fun x hx h => by rw [hnone x hx] at h; cases h⟩

/-- An act that only writes the disk or the log. -/
lemma untracked_stored (heq : e'.trace = e.trace ++ effects)
    (h : ∀ x ∈ effects, x.stored = true) : ∃ effects, e'.trace = e.trace ++ effects
      ∧ ∀ x ∈ effects, x.tracked = true → Tracked d A e e' x :=
  untracked heq fun x hx => tracked_of_stored (h x hx)

/-- An act with one new tracked effect, the last one. -/
lemma tracked_last (heq : e'.trace = e.trace ++ (effects ++ [effect]))
    (hstored : ∀ x ∈ effects, x.stored = true) (h : Tracked d A e e' effect) :
    ∃ effects, e'.trace = e.trace ++ effects
      ∧ ∀ x ∈ effects, x.tracked = true → Tracked d A e e' x := by
  refine ⟨_, heq, fun x hx htracked => ?_⟩
  rcases mem_append.mp hx with hx | hx
  · rw [tracked_of_stored (hstored x hx)] at htracked
    cases htracked
  · rw [mem_singleton.mp hx]
    exact h

lemma tracked_one (heq : e'.trace = e.trace ++ [effect]) (h : Tracked d A e e' effect) :
    ∃ effects, e'.trace = e.trace ++ effects
      ∧ ∀ x ∈ effects, x.tracked = true → Tracked d A e e' x :=
  ⟨[effect], heq, fun x hx _ => by rw [mem_singleton.mp hx]; exact h⟩

end

/-- **The new tracked effects of an act** come from where `Tracked` says. -/
theorem Act.effects (h : Act d A x y) : ∃ effects, y.engine.trace = x.engine.trace ++ effects
      ∧ ∀ effect ∈ effects, effect.tracked = true → Tracked d A x.engine y.engine effect := by
  cases h with
  | quiet h =>
    obtain ⟨effects, heq, hquiet⟩ := h.trace
    exact untracked heq fun x hx => tracked_of_calm (calm_of_quiet (hquiet x hx))
  | verified cert hcheck hauth hkeys => exact tracked_one rfl (.verified cert hcheck hauth hkeys)
  | @collect e vote hview hepoch hvote hkeys =>
    obtain ⟨effects, heq, heffects⟩ := collectVote_eq (d := d) e vote
    refine ⟨effects, by rw [heq], fun effect hmem htracked => ?_⟩
    rcases heffects effect hmem with hquiet | ⟨qc, rfl, result, vc, hadd, hqc⟩
      | ⟨proof, hproof, rfl⟩
    · exact absurd (tracked_of_calm (calm_of_quiet hquiet)) (by rw [htracked]; simp)
    · obtain ⟨agg, hagg, hquorum, hqceq, -⟩ := VoteCollector.addVote_formed hadd hqc
      exact .formedQc vote qc agg hvote hepoch (VoteCollector.addVote_ok_extension (by rw [hadd]))
        hagg hquorum hqceq hkeys
    · refine .detected vote proof hview hepoch hvote hproof ?_
      rw [heq, hproof]
  | @wish e targetView validator highestQc signature hlow hhigh hqc _ =>
    unfold addWish
    split
    · next tc pm hadd =>
        refine ⟨_, rfl, fun effect hmem htracked => ?_⟩
        rcases mem_cons.mp hmem with rfl | hmem
        · exact .formedTc tc targetView validator highestQc signature hqc hlow hhigh (by rw [hadd])
        · rw [mem_singleton.mp hmem] at htracked
          cases htracked
    · exact ⟨[], (append_nil _).symm, by simp⟩
  | formDc dc hinner houter hview hyields =>
    exact tracked_one rfl (.formedDc dc hinner houter hview hyields)
  | @vote1 e e' φ vote block justify hsign hblock hview hjustify hroot _ =>
    obtain ⟨hvote, heq, hslot⟩ := signVote1_spec hsign
    exact tracked_last (by rw [heq]; rfl) (fun _ => stored_slotEffects)
      (.vote1 vote block justify hvote hslot heq hblock hview hjustify hroot)
  | release1 vote effect' heffect _ _ _ =>
    refine untracked rfl fun x hx => ?_
    rw [mem_singleton.mp hx]
    rcases heffect with rfl | ⟨leader, rfl⟩ <;> rfl
  | vote2 qc extension hsign hqc hview hlock =>
    obtain ⟨hvote, heq, hslot⟩ := signVote2_spec hsign
    exact tracked_last (by rw [heq]; rfl) (fun _ => stored_slotEffects)
      (.vote2 _ qc extension hvote hslot heq hqc hview hlock)
  | release2 vote effect' heffect _ _ _ _ =>
    rw [persistState_eq]
    refine untracked (append_assoc _ _ _) fun x hx => ?_
    rcases mem_append.mp hx with hx | hx
    · exact tracked_of_stored (stored_persistEffects hx)
    · rw [mem_singleton.mp hx]
      rcases heffect with rfl | ⟨leader, rfl⟩ <;> rfl
  | persist =>
    rw [persistState_eq]
    exact untracked_stored rfl fun _ => stored_persistEffects
  | putBlock block hhash => exact tracked_one rfl (.putBlock block hhash rfl)
  | payload env parent hpayload => exact tracked_one rfl (.payload env parent _ hpayload)
  | proposal block justify hblock hview =>
    exact tracked_one rfl (.proposal block justify hblock hview)
  | putJustify justified qc _ _ _ =>
    exact untracked_stored rfl (forall_mem_singleton.mpr rfl)
  | intent height => exact untracked_stored rfl (forall_mem_singleton.mpr rfl)
  | @commit e dc hdc _ =>
    obtain ⟨_, _, heq⟩ := runTryCommit_eq (d := d) e dc
    refine ⟨_, by rw [heq], fun effect hmem htracked => ?_⟩
    rcases mem_commitEffects hmem with rfl | ⟨call, hcall, rfl⟩ | ⟨err, -, rfl⟩
    · cases htracked
    · cases call with
      | executeBlock block ctx response => exact .executed dc block ctx response hdc hcall
      | createPayload ctx bytes => cases ofCommit_tryCommit _ _ _ _ _ _ _ _ _ hcall
      | _ => cases htracked
    · cases htracked
  | settle result =>
    rw [settle_eq]
    exact untracked_stored rfl fun _ => stored_storeEffects
  | mark result =>
    obtain ⟨_, effects, heq, hflush⟩ := filed_markEvidence (d := d) _ result.committedBlocks
    exact untracked_stored (by rw [heq]) fun x hx => by rw [hflush x hx]; rfl
  | gossip proof _ =>
    obtain ⟨_, effects, heq, hflush⟩ := filed_handleEvidence (d := d) _ proof
    exact untracked_stored (by rw [heq]) fun x hx => by rw [hflush x hx]; rfl
  | saved env _ =>
    rw [persistState_eq, finishWalIntent_eq]
    exact untracked_stored (append_assoc _ _ _) fun x hx =>
      (mem_append.mp hx).elim stored_persistEffects stored_unlogEffects
  | unlog env height =>
    rw [finishWalIntent_eq]
    exact untracked_stored rfl fun _ => stored_unlogEffects
  | move view trigger _ _ =>
    obtain ⟨effects, heq, hcalm⟩ := trace_moveTo (d := d) _ view trigger
    exact untracked heq fun x hx => tracked_of_calm (hcalm x hx)
  | viewQc _ _ | raise _ _ | lock _ _ _ | push _ _
  | pop _ _ _ => exact ⟨[], (append_nil _).symm, by simp⟩

/-- A tracked effect in the trace is old or new. -/
lemma Act.tracked (h : Act d A x y)
    (hmem : effect ∈ y.engine.trace) (htracked : effect.tracked = true) :
    effect ∈ x.engine.trace ∨ Tracked d A x.engine y.engine effect := by
  obtain ⟨effects, heq, hnew⟩ := h.effects
  rw [heq] at hmem
  exact (mem_append.mp hmem).imp id fun hmem => hnew effect hmem htracked

/-- The effect of signing a vote. -/
def Effect.signsVote : Effect → Bool
  | .signVote1 _ _ _ _ => true
  | .signVote2 _ _ => true
  | _ => false

lemma Effect.signsVote_of_stored (h : effect.stored = true) : effect.signsVote = false := by
  cases effect <;> first | rfl | cases h

lemma SignedVote.of_signsVote {t t' : List Effect}
    (h : ∀ effect ∈ t', effect.signsVote = true → effect ∈ t) {vote : Vote}
    (hvote : SignedVote t' vote) : SignedVote t vote := by
  rcases hvote with ⟨block, justify, locked, hmem⟩ | ⟨qc, hmem⟩
  · exact .inl ⟨block, justify, locked, h _ hmem rfl⟩
  · exact .inr ⟨qc, h _ hmem rfl⟩

/-- A vote signed in a longer trace was signed before or by its last effect. -/
lemma SignedVote.append {t effects : List Effect} {vote : Vote}
    (hstored : ∀ effect ∈ effects, effect.stored = true)
    (h : SignedVote (t ++ (effects ++ [effect])) vote) :
    SignedVote t vote ∨ (∃ block justify locked, effect = .signVote1 vote block justify locked)
      ∨ ∃ qc, effect = .signVote2 vote qc := by
  have hcase : ∀ x ∈ t ++ (effects ++ [effect]), x.signsVote = true → x ∈ t ∨ x = effect := by
    intro x hx hsigns
    rcases mem_append.mp hx with hx | hx
    · exact .inl hx
    · rcases mem_append.mp hx with hx | hx
      · have hs := signsVote_of_stored (hstored x hx)
        rw [hs] at hsigns
        cases hsigns
      · exact .inr (mem_singleton.mp hx)
  rcases h with ⟨block, justify, locked, hmem⟩ | ⟨qc, hmem⟩
  · rcases hcase _ hmem rfl with hold | rfl
    · exact .inl (.inl ⟨block, justify, locked, hold⟩)
    · exact .inr (.inl ⟨block, justify, locked, rfl⟩)
  · rcases hcase _ hmem rfl with hold | rfl
    · exact .inl (.inr ⟨qc, hold⟩)
    · exact .inr (.inr ⟨qc, rfl⟩)

/-- **An act signs a first vote, a second vote, or none**; the slots change with
a vote only. -/
lemma Act.voting (h : Act d A x y) : (∃ vote block justify, Tracked d A x.engine y.engine
      (.signVote1 vote block justify x.engine.state.lockedQc))
    ∨ (∃ vote qc, Tracked d A x.engine y.engine (.signVote2 vote qc))
    ∨ (y.engine.state.lastVote1 = x.engine.state.lastVote1
      ∧ y.engine.state.lastVote2 = x.engine.state.lastVote2
      ∧ ∀ effect ∈ y.engine.trace, effect.signsVote = true → effect ∈ x.engine.trace) := by
  obtain ⟨effects, heq, hnew⟩ := h.effects
  by_cases hsigns : ∃ effect ∈ effects, effect.signsVote = true
  · obtain ⟨effect, hmem, hsign⟩ := hsigns
    cases effect with
    | signVote1 vote block justify locked =>
      have htracked := hnew _ hmem rfl
      cases htracked with
      | vote1 _ _ _ hvote hslot hengine hblock hview hjustify hroot =>
        exact .inl ⟨vote, block, justify,
          .vote1 _ _ _ hvote hslot hengine hblock hview hjustify hroot⟩
    | signVote2 vote qc => exact .inr (.inl ⟨vote, qc, hnew _ hmem rfl⟩)
    | _ => cases hsign
  · push Not at hsigns
    have hold : ∀ effect ∈ y.engine.trace, effect.signsVote = true → effect ∈ x.engine.trace := by
      intro effect hmem hsign
      rw [heq] at hmem
      rcases mem_append.mp hmem with hmem | hmem
      · exact hmem
      · exact absurd hsign (hsigns effect hmem)
    obtain ⟨e, φ⟩ := x
    obtain ⟨e', ψ⟩ := y
    cases h.change with
    | inert h => exact .inr (.inr ⟨h.lastVote1, h.lastVote2, hold⟩)
    | vote1 block effects' hsign =>
      obtain ⟨vote, justify, hmem⟩ := hsign
      rw [append_cancel_left heq] at hmem
      exact absurd rfl (hsigns _ hmem)
    | vote2 qc effects' hsign =>
      obtain ⟨vote, hmem⟩ := hsign
      rw [append_cancel_left heq] at hmem
      exact absurd rfl (hsigns _ hmem)
    | _ => exact .inr (.inr ⟨rfl, rfl, hold⟩)

/-- Votes are not signed as raw payloads. -/
lemma Act.sign_vote (h : Act d A x y) {chainIdHash : Digest}
    {epoch view validator : ℕ} {hash : BlockHash} {t : VoteType} {ext : Option (ℕ × Digest)}
    (hmem : sign (.vote chainIdHash epoch view validator hash t ext) ∈ y.engine.trace) :
    sign (.vote chainIdHash epoch view validator hash t ext) ∈ x.engine.trace := by
  rcases h.tracked hmem rfl with hold | hnew
  · exact hold
  · cases hnew

end Hotmint
