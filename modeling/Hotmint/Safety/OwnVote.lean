/-
The second vote of a node that leads the next view.

* `ownVote2`, `SignsVote2`: the vote that the prepare branch signs, and when;
* `handlePrepare_voteCollector`: the prepare branch never counts a vote;
* `signVote2_mem_handlePrepare`: what it signs;
* `ownVote2_counts_iff`: **so a next leader's own second vote is in its collector
  after the prepare branch only if it was there before**;
* `ownVote2_lost`: with the vote of the leader of the view it would make a quorum.
-/
import Hotmint.Consensus.Sample
import Hotmint.Proof.Durable
import Hotmint.Proof.Entry
import Hotmint.Safety.Certificates

namespace Hotmint

open Sample Engine List
variable {σ : Type} {d : Deps σ}
variable {e : Engine σ} {qc : QuorumCertificate}
variable {effect : Effect} {e' : Engine σ} {votes : List (Vote × QuorumCertificate)}
  {trace : List Effect} {extension : Option Bytes} {vote : Vote}

/-- The second vote of a node for a certificate of its view. -/
def ownVote2 (d : Deps σ) (certificate : QuorumCertificate) (e : Engine σ) : Vote :=
  e.ownVote d .vote2 certificate.blockHash (e.extendVote d certificate.blockHash).1

/-- The double-sign guard lets the node vote for the block in its view. -/
def SlotFree (st : ConsensusState) (blockHash : BlockHash) : Prop :=
  ∀ slot ∈ st.lastVote2, slot.1 < st.currentView ∨ (slot.1 = st.currentView ∧ slot.2 = blockHash)

/-- The node signs a second vote when it handles the certificate. -/
structure SignsVote2 (d : Deps σ) (certificate : QuorumCertificate) (e : Engine σ) : Prop where
  view : certificate.view = e.state.currentView
  appHash : e.appHashMismatch d certificate.blockHash = false
  step : e.state.step = .voted
  power : 0 < e.state.ownPower
  slot : SlotFree e.state certificate.blockHash

/-- The node leads the view after its current one. -/
def LeadsNext (e : Engine σ) : Prop :=
  nextLeader e.state.validatorSet e.state.currentView = some e.state.validatorId

/-- Whatever second vote the node signs when it handles the certificate as the next
leader is in its collector when the handler returns. -/
def OwnVote2Counts (d : Deps σ) (certificate : QuorumCertificate) (e : Engine σ) : Prop :=
  ∀ vote qc, Effect.signVote2 vote qc ∈ (e.handlePrepare d certificate).trace.drop e.trace.length →
    LeadsNext e → vote ∈ (e.handlePrepare d certificate).voteCollector.bucket vote.key

/-! ### The prepare branch -/

/-- A second vote that was signed. -/
def Effect.signedVote2 : Effect → Option (Vote × QuorumCertificate)
  | .signVote2 vote qc => some (vote, qc)
  | _ => none

/-- The second votes signed in a trace, in order. -/
def signedVotes2 (trace : List Effect) : List (Vote × QuorumCertificate) :=
  trace.filterMap Effect.signedVote2

@[simp] lemma signedVotes2_append (t t' : List Effect) :
    signedVotes2 (t ++ t') = signedVotes2 t ++ signedVotes2 t' :=
  filterMap_append

lemma mem_signedVotes2 : (vote, qc) ∈ signedVotes2 trace ↔ Effect.signVote2 vote qc ∈ trace := by
  unfold signedVotes2
  rw [mem_filterMap]
  constructor
  · rintro ⟨effect, hmem, heffect⟩
    cases effect with
    | signVote2 v q =>
      obtain ⟨rfl, rfl⟩ := Prod.mk.inj (Option.some.inj heffect)
      exact hmem
    | _ => cases heffect
  · exact fun hmem => ⟨_, hmem, rfl⟩

lemma signedVotes2_eq_nil (h : ∀ effect ∈ trace, effect.signedVote2 = none) :
    signedVotes2 trace = [] :=
  filterMap_eq_nil_iff.mpr h

lemma Effect.signedVote2_of_quiet (h : effect.quiet = true) : effect.signedVote2 = none := by
  cases effect with
  | signVote2 vote qc => cases h
  | _ => rfl

/-- A part of the prepare branch that counts no vote and signs the given ones. -/
structure Signs (votes : List (Vote × QuorumCertificate)) (e e' : Engine σ) : Prop where
  voteCollector : e'.voteCollector = e.voteCollector
  trace : ∃ effects, e'.trace = e.trace ++ effects ∧ signedVotes2 effects = votes

namespace Signs

lemma of_quiet (h : Quiet e e') : Signs [] e e' := by
  obtain ⟨effects, heq, hquiet⟩ := h.trace
  exact ⟨h.voteCollector, effects, heq,
    signedVotes2_eq_nil fun effect hmem => Effect.signedVote2_of_quiet (hquiet effect hmem)⟩

lemma trans {votes' : List (Vote × QuorumCertificate)} {e₁ e₂ e₃ : Engine σ}
    (h : Signs votes e₁ e₂) (h' : Signs votes' e₂ e₃) : Signs (votes ++ votes') e₁ e₃ := by
  obtain ⟨effects, heq, hvotes⟩ := h.trace
  obtain ⟨effects', heq', hvotes'⟩ := h'.trace
  refine ⟨h'.voteCollector.trans h.voteCollector, effects ++ effects', ?_, ?_⟩
  · rw [heq', heq, append_assoc]
  · rw [signedVotes2_append, hvotes, hvotes']

lemma persistState (e : Engine σ) : Signs [] e (e.persistState d) := by
  rw [persistState_eq]
  refine ⟨rfl, _, rfl, signedVotes2_eq_nil fun effect hmem => ?_⟩
  rcases mem_persistEffects hmem with ⟨item, rfl⟩ | rfl <;> rfl

lemma emit (e : Engine σ) (h : effect.signedVote2 = none) : Signs [] e (e.emit effect) :=
  ⟨rfl, [effect], rfl, signedVotes2_eq_nil (by simpa using h)⟩

/-- The vote is sent once the state is saved. -/
lemma sendVote2 (e : Engine σ) (leader : ℕ) (vote : Vote) :
    Signs [] e ((e.persistState d).emit (.sendTo leader (.vote2Msg vote))) :=
  (persistState e).trans (emit _ rfl)

/-- What follows a panic is skipped; it signs nothing here. -/
lemma andThen {m : Engine σ}
    {f : Engine σ → Engine σ} (h : Signs votes e m) (hf : ∀ m, Signs [] m (f m)) :
    Signs votes e (m.andThen f) := by
  unfold Engine.andThen
  split_ifs
  · exact h
  · simpa using h.trans (hf m)

lemma lock (e : Engine σ) (qc : QuorumCertificate) :
    Signs [] e (e.mapState fun st => (st.updateLockedQc qc).updateHighestQc qc) :=
  ⟨rfl, [], (append_nil _).symm, rfl⟩

/-- A granted vote is the only one signed. -/
lemma signVote2 (h : e.signVote2 d qc extension = (some vote, e')) : Signs [(vote, qc)] e e' := by
  obtain ⟨-, heq, -⟩ := signVote2_spec h
  rw [heq]
  refine ⟨rfl, _, rfl, ?_⟩
  have hslot : signedVotes2 (slotEffects d .vote2 e.state.currentView qc.blockHash) = [] := by
    unfold slotEffects
    split_ifs <;> rfl
  rw [signedVotes2_append, hslot]
  rfl

end Signs

lemma signVote2_of_slotFree (h : SlotFree e.state qc.blockHash) (extension : Option Bytes) :
    ∃ vote e', e.signVote2 d qc extension = (some vote, e') := by
  have hgrant := e.state.checkAndRecordVote_of_slot .vote2 e.state.currentView qc.blockHash
    fun view hash hslot => h (view, hash) hslot
  unfold signVote2 recordVote
  rw [hgrant]
  exact ⟨_, _, rfl⟩

lemma slotFree_of_signVote2 (h : e.signVote2 d qc extension = (some vote, e')) :
    SlotFree e.state qc.blockHash := by
  obtain ⟨-, -, hslot⟩ := signVote2_spec h
  rintro ⟨view, hash⟩ heq
  exact hslot view hash heq

/-- **`on_prepare`** signs the node's vote if the guards allow it, and none otherwise. -/
lemma signs_onPrepare (e : Engine σ) (qc : QuorumCertificate) (extension : Option Bytes) :
    (e.state.step = .voted ∧ 0 < e.state.ownPower ∧ SlotFree e.state qc.blockHash
        ∧ Signs [(e.ownVote d .vote2 qc.blockHash extension, qc)] e (e.onPrepare d qc extension).2)
      ∨ (¬ (e.state.step = .voted ∧ 0 < e.state.ownPower ∧ SlotFree e.state qc.blockHash)
        ∧ Signs [] e (e.onPrepare d qc extension).2) := by
  obtain ⟨locked, high, heq⟩ : ∃ locked high, (e.state.updateLockedQc qc).updateHighestQc qc
      = { e.state with lockedQc := locked, highestQc := high } := by
    rw [ConsensusState.updateHighestQc_eq, ConsensusState.updateLockedQc_eq]
    exact ⟨_, _, rfl⟩
  have hlock := Signs.lock e qc
  unfold onPrepare
  split_ifs with hstep
  · exact .inr ⟨fun h => hstep h.1, Signs.of_quiet (Quiet.refl e)⟩
  dsimp only [mapState] at hlock ⊢
  rw [heq] at hlock ⊢
  -- the lock changes none of the fields the vote and its guards read
  split_ifs with hpower
  · split
    · next e' hsign =>
        rw [signVote2_refused hsign]
        refine .inr ⟨fun h => ?_, hlock.trans (Signs.of_quiet (Quiet.setStep _ _))⟩
        obtain ⟨vote, e'', hgranted⟩ := signVote2_of_slotFree (d := d)
          (e := { e with state := { e.state with lockedQc := locked, highestQc := high } })
          h.2.2 extension
        rw [hsign] at hgranted
        cases hgranted
    · next vote e' hsign =>
        obtain ⟨rfl, -, -⟩ := signVote2_spec hsign
        have hslot := slotFree_of_signVote2 hsign
        have hsigns := hlock.trans (Signs.signVote2 hsign)
        refine .inl ⟨not_not.mp hstep, hpower, hslot, ?_⟩
        split
        · exact hsigns.trans (Signs.of_quiet (Quiet.setStep _ _))
        · exact hsigns.trans (Signs.of_quiet (Quiet.halt _))
  · exact .inr ⟨fun h => hpower h.2.1, hlock.trans (Signs.of_quiet (Quiet.setStep _ _))⟩

/-- **The prepare branch** counts no vote; it signs the node's vote if the guards
allow it, and none otherwise. -/
lemma signs_handlePrepare (e : Engine σ) (certificate : QuorumCertificate) :
    (SignsVote2 d certificate e
        ∧ Signs [(ownVote2 d certificate e, certificate)] e (e.handlePrepare d certificate))
      ∨ (¬ SignsVote2 d certificate e ∧ Signs [] e (e.handlePrepare d certificate)) := by
  unfold handlePrepare
  split_ifs with hview hmismatch
  · refine .inr ⟨fun h => ?_, Signs.of_quiet (Quiet.refl e)⟩
    rw [h.appHash] at hmismatch
    cases hmismatch
  · have hextended := Signs.of_quiet (quiet_extendVote (d := d) e certificate.blockHash)
    have hstate : (e.extendVote d certificate.blockHash).2.state = e.state := by
      unfold extendVote
      split <;> rfl
    unfold ownVote2
    dsimp only
    generalize e.extendVote d certificate.blockHash = r at hextended hstate
    have hvote : r.2.ownVote d .vote2 certificate.blockHash r.1
        = e.ownVote d .vote2 certificate.blockHash r.1 := by
      unfold ownVote
      rw [hstate]
    have hprepare := signs_onPrepare (d := d) r.2 certificate r.1
    rw [hstate, hvote] at hprepare
    generalize r.2.onPrepare d certificate r.1 = r' at hprepare
    rcases hprepare with ⟨hstep, hpower, hslot, hsigns⟩ | ⟨hguards, hsigns⟩
    · refine .inl ⟨⟨hview, ?_, hstep, hpower, hslot⟩, (hextended.trans hsigns).andThen fun m => ?_⟩
      · exact Bool.eq_false_iff.mpr hmismatch
      · split
        · exact Signs.sendVote2 m _ _
        · exact Signs.persistState m
    · refine .inr ⟨fun h => hguards ⟨h.step, h.power, h.slot⟩,
        (hextended.trans hsigns).andThen fun m => ?_⟩
      split
      · exact Signs.sendVote2 m _ _
      · exact Signs.persistState m
  · exact .inr ⟨fun h => hview h.view, Signs.of_quiet (Quiet.refl e)⟩

/-- A counted vote was collected before. -/
lemma OwnVote2Counts.collected {certificate : QuorumCertificate}
    (h : OwnVote2Counts d certificate e) (hguards : SignsVote2 d certificate e)
    (hleads : LeadsNext e) :
    ownVote2 d certificate e ∈ e.voteCollector.bucket (ownVote2 d certificate e).key := by
  rcases signs_handlePrepare (d := d) e certificate with ⟨-, hsigns⟩ | ⟨hnone, -⟩
  · obtain ⟨effects, heq, hvotes⟩ := hsigns.trace
    unfold OwnVote2Counts at h
    rw [hsigns.voteCollector, heq, drop_left] at h
    refine h _ certificate (mem_signedVotes2.mp ?_) hleads
    rw [hvotes]
    exact mem_singleton_self _
  · exact absurd hguards hnone

/-- **The next leader's own vote.**  Whatever the network does with it afterwards: the
second vote that the next leader signs on a prepare is in its collector when the
handler returns if and only if it was there before. -/
theorem ownVote2_counts_iff (d : Deps σ) (certificate : QuorumCertificate) (e : Engine σ) :
    OwnVote2Counts d certificate e ↔ (SignsVote2 d certificate e → LeadsNext e →
        ownVote2 d certificate e ∈ e.voteCollector.bucket (ownVote2 d certificate e).key) := by
  refine ⟨OwnVote2Counts.collected, fun h vote qc hmem hleads => ?_⟩
  rcases signs_handlePrepare (d := d) e certificate with ⟨hguards, hsigns⟩ | ⟨-, hsigns⟩
  · obtain ⟨effects, heq, hvotes⟩ := hsigns.trace
    rw [heq, drop_left, ← mem_signedVotes2, hvotes, mem_singleton] at hmem
    cases hmem
    rw [hsigns.voteCollector]
    exact h hguards hleads
  · obtain ⟨effects, heq, hvotes⟩ := hsigns.trace
    rw [heq, drop_left, ← mem_signedVotes2, hvotes] at hmem
    cases hmem

/-! Powers 2, 1 and 1: the first two validators make a quorum, and the second leads
view 2. -/

/-- Both have voted for the block of view 1, and its certificate is formed. -/
def preparing : Fin 2 → Engine Unit :=
  outcome trio [.task leader, .relay replica leader 0, .relay leader replica 0]

/-- The certificate the leader sends. -/
def prepareQc : QuorumCertificate :=
  (preparing leader).currentViewQc.getD (genesisQc trio.validatorSet)

/-- The second validator has handled the prepare and the leader's second vote. -/
def waiting : Fin 2 → Engine Unit :=
  outcome trio [.task leader, .relay replica leader 0,
    .relay leader replica 0, .relay replica leader 1,
    .relay replica leader 2]

/-- The second votes a node has collected in its view for a block. -/
def collected2 (hash : BlockHash) (e : Engine Unit) : List Vote :=
  e.voteCollector.bucket (e.state.currentEpoch.number, e.state.currentView, hash, .vote2)

/-- A double certificate was formed. -/
def Effect.formsDc : Effect → Bool
  | .formed (.dc _) => true
  | _ => false

/-- The second validator leads view 2 and signs a second vote on the prepare of view 1,
but does not count it; its power and that of the leader, whose vote it counts, reach
quorum, and it forms no certificate. -/
theorem ownVote2_lost : trio.FaultBound [2] ∧ trio.Run preparing
    ∧ ConsensusMessage.prepare prepareQc (sign 0 (preparePayload 0#256 0 prepareQc))
      ∈ outbox (preparing 0)
    ∧ SignsVote2 (trio.deps 1) prepareQc (preparing 1) ∧ LeadsNext (preparing 1)
    ∧ ¬ OwnVote2Counts (trio.deps 1) prepareQc (preparing 1) ∧ trio.Run waiting
    ∧ (waiting 1).state.validatorSet.quorumThreshold ≤ (waiting 1).state.ownPower
      + ((collected2 prepareQc.blockHash (waiting 1)).map fun vote =>
        (waiting 1).state.validatorSet.powerOf vote.validator).sum
    ∧ (∀ effect ∈ (waiting 1).trace, effect.formsDc = false)
    ∧ (waiting 1).state.currentView = 1 := by
  have hguards : SignsVote2 (trio.deps 1) prepareQc (preparing 1) :=
    ⟨by decide +kernel, by decide +kernel, by decide +kernel, by decide +kernel,
      by unfold SlotFree; decide +kernel⟩
  have hleads : LeadsNext (preparing 1) := by
    unfold LeadsNext
    decide +kernel
  have hfresh : ownVote2 (trio.deps 1) prepareQc (preparing 1)
      ∉ (preparing 1).voteCollector.bucket (ownVote2 (trio.deps 1) prepareQc (preparing 1)).key :=
        by
    decide +kernel
  exact ⟨⟨by decide +kernel, by decide +kernel⟩, run_outcome _ rfl _, by decide +kernel, hguards,
    hleads, fun h => hfresh (h.collected hguards hleads), run_outcome _ rfl _,
    by decide +kernel, by decide +kernel, by decide +kernel⟩

end Hotmint
