/-
Which acts change which field, and the invariant rule for runs.

* `Inert`, `Change`: every act, with its effect on the fields written out;
* `Act.todo`, `Act.lockedQc`, `Act.highestQc`, `Act.lastVote1`, …: the acts
  behind a change of one field;
* `Reach.invariant`, `RunWhere.invariant`: **what every act preserves holds in
  every state of every run**.
-/
import Hotmint.Proof.Loop

namespace Hotmint

open Engine List
variable {σ : Type} {d : Deps σ} {A : Allowance}
variable {e : Engine σ} {I : Flow σ → Prop}
variable {e' : Engine σ} {x y : Flow σ} {label : Label}

/-! ### Acts as record updates -/

/-- Only effects, the application and bookkeeping change. -/
structure Inert (e e' : Engine σ) : Prop where
  validatorId : e'.state.validatorId = e.state.validatorId
  validatorSet : e'.state.validatorSet = e.state.validatorSet
  chainIdHash : e'.state.chainIdHash = e.state.chainIdHash
  currentView : e'.state.currentView = e.state.currentView
  lockedQc : e'.state.lockedQc = e.state.lockedQc
  highestQc : e'.state.highestQc = e.state.highestQc
  highestDoubleCert : e'.state.highestDoubleCert = e.state.highestDoubleCert
  lastCommittedHeight : e'.state.lastCommittedHeight = e.state.lastCommittedHeight
  currentEpoch : e'.state.currentEpoch = e.state.currentEpoch
  lastVote1 : e'.state.lastVote1 = e.state.lastVote1
  lastVote2 : e'.state.lastVote2 = e.state.lastVote2
  store : e'.store = e.store
  voteCollector : e'.voteCollector = e.voteCollector
  wishes : e'.pacemaker.wishes = e.pacemaker.wishes
  currentViewQc : e'.currentViewQc = e.currentViewQc
  pendingEpoch : e'.pendingEpoch = e.pendingEpoch
  previousEpoch : e'.previousEpoch = e.previousEpoch
  evidenceStore : e'.evidenceStore = e.evidenceStore
  extensions : e'.state.pendingVoteExtensions = e.state.pendingVoteExtensions
    ∨ e'.state.pendingVoteExtensions = []
  todo : e'.todo = e.todo

/-- The acts with their changes written out. -/
inductive Change (d : Deps σ) (A : Allowance) (φ : Phase) : Engine σ → Engine σ → Prop
  | inert {e e' : Engine σ} (h : Inert e e') : Change d A φ e e'
  | collect {e : Engine σ} (vote : Vote) (hepoch : vote.epoch = e.state.currentEpoch.number)
      (hvote : (e.keyring.verifyVote d.crypto vote = true ∧ A.auth vote.signature)
        ∨ SignedVote e.trace vote) (effects : List Effect) (hext : ExtensionOk e vote) :
      Change d A φ e { e with
        voteCollector := e.collectorAfter vote
        evidenceStore := fileProof d (e.detected vote) e.evidenceStore
        trace := e.trace ++ effects }
  | mark {e : Engine σ} (result : CommitResult) (effects : List Effect)
      (hphase : φ = .adopted result) :
      Change d A φ e { e with
        evidenceStore := (e.markEvidence d result.committedBlocks).evidenceStore
        trace := e.trace ++ effects }
  | gossip {e : Engine σ} (proof : EquivocationProof) (effects : List Effect)
      (hproof : A.gossip proof) :
      Change d A φ e { e with
        evidenceStore := (e.handleEvidence d proof).evidenceStore
        trace := e.trace ++ effects }
  | wish {e : Engine σ} (targetView validator : ℕ) (highestQc : Option QuorumCertificate)
      (signature : Signature) (hqc : highestQc = e.state.highestQc ∨ ∀ qc, highestQc = some qc →
        Effect.verified (.qc .vote qc) ∈ e.trace)
      (hwish : AcceptedWish d e targetView ⟨validator, highestQc, signature⟩)
      (effects : List Effect) :
      Change d A φ e { e with
        pacemaker := (e.pacemaker.addWish e.state.validatorSet targetView validator highestQc
          signature).2
        trace := e.trace ++ effects }
  | viewQc {e : Engine σ} (qc : Option QuorumCertificate) (effects : List Effect)
      (h : ∀ q, qc = some q → Effect.formed (.qc .vote q) ∈ e.trace) :
      Change d A φ e { e with currentViewQc := qc, trace := e.trace ++ effects }
  | raise {e : Engine σ} (qc : QuorumCertificate) (h : KnownQc e.trace qc) :
      Change d A φ e { e with
        state := { e.state with highestQc := (e.state.updateHighestQc qc).highestQc } }
  | lock {e : Engine σ} (qc : QuorumCertificate) (hqc : KnownQc e.trace qc)
      (hview : qc.view = e.state.currentView) :
      Change d A φ e { e with
        state := { e.state with
          lockedQc := (e.state.updateLockedQc qc).lockedQc
          highestQc := (e.state.updateHighestQc qc).highestQc } }
  | vote1 {e : Engine σ} (block : Block) (effects : List Effect)
      (hsign : ∃ vote justify, Effect.signVote1 vote block justify e.state.lockedQc ∈ effects) :
      Change d A φ e { e with
        state := { e.state with lastVote1 := some (e.state.currentView, block.hash) }
        trace := e.trace ++ effects }
  | vote2 {e : Engine σ} (qc : QuorumCertificate) (effects : List Effect)
      (hsign : ∃ vote, Effect.signVote2 vote qc ∈ effects) :
      Change d A φ e { e with
        state := { e.state with lastVote2 := some (e.state.currentView, qc.blockHash) }
        trace := e.trace ++ effects }
  | putBlock {e : Engine σ} (block : Block)
      (hhash : block.hash = d.crypto.computeHash block) :
      Change d A φ e { e with
        store := e.store.putBlock block
        trace := e.trace ++ [.putBlock block] }
  | putJustify {e : Engine σ} (height : ℕ) (qc : QuorumCertificate)
      (hnone : e.store.getCommitQc height = none) :
      Change d A φ e { e with
        store := e.store.putCommitQc height qc
        trace := e.trace ++ [.putCommitQc height qc] }
  | commit {e : Engine σ} (height : ℕ) (app : σ) (appHash : BlockHash) (halted : Bool)
      (effects : List Effect) :
      Change d A φ e { e with
        state := { e.state with lastCommittedHeight := height, lastAppHash := appHash }
        app := app
        halted := halted
        trace := e.trace ++ effects }
  | settle {e : Engine σ} (result : CommitResult) (hphase : φ = .executed result) :
      Change d A φ e { e with
        pendingEpoch := result.pendingEpoch
        previousEpoch := (result.activatedEpoch.map fun _ => some e.state.currentEpoch).getD
          e.previousEpoch
        state := { e.state with
          currentEpoch := result.activatedEpoch.getD e.state.currentEpoch
          validatorSet := (result.activatedEpoch.map (·.validatorSet)).getD e.state.validatorSet }
        store := applyWrites (settleEffects result) e.store
        trace := e.trace ++ settleEffects result }
  | move {e : Engine σ} (view : ℕ) (trigger : ViewEntryTrigger)
      (extensions : List (ℕ × Bytes)) (role : ViewRole)
      (hlt : e.state.currentView < view) (hreason : EntryReason A e view trigger)
      (hext : ∀ p ∈ extensions, ∃ dc, trigger.newDc = some dc ∧ p ∈ dc.voteExtensions) :
      Change d A φ e { e with
        state := { e.state with
          pendingVoteExtensions := extensions
          currentView := view
          step := .entered
          role := role
          highestDoubleCert := trigger.newDc.or e.state.highestDoubleCert }
        voteCollector := (e.voteCollector.clearView e.state.currentView).pruneBefore
          e.state.currentView
        pacemaker := (e.pacemaker.clearView e.state.currentView).pruneBefore e.state.currentView
        statusSenders := []
        currentViewQc := none }
  | moveEpoch {e : Engine σ} (view : ℕ) (trigger : ViewEntryTrigger)
      (extensions : List (ℕ × Bytes)) (role : ViewRole) (epoch : Epoch) (app : σ)
      (effects : List Effect) (hlt : e.state.currentView < view)
      (hreason : EntryReason A e view trigger) (hpending : e.pendingEpoch = some epoch)
      (hstart : epoch.startView ≤ view)
      (hext : ∀ p ∈ extensions, ∃ dc, trigger.newDc = some dc ∧ p ∈ dc.voteExtensions) :
      Change d A φ e { e with
        state := { e.state with
          pendingVoteExtensions := extensions
          validatorSet := epoch.validatorSet
          currentEpoch := epoch
          currentView := view
          step := .entered
          role := role
          highestDoubleCert := trigger.newDc.or e.state.highestDoubleCert }
        app := app
        livenessTracker := LivenessTracker.new
        pendingEpoch := none
        previousEpoch := some e.state.currentEpoch
        voteCollector := VoteCollector.new
        pacemaker := Pacemaker.new
        statusSenders := []
        currentViewQc := none
        trace := e.trace ++ effects }
  | push {e : Engine σ} (task : Task) (htask : TaskOk A e.trace task) :
      Change d A φ e { e with todo := task :: e.todo }
  | pop {e : Engine σ} (task : Task) (todo : List Task) (h : e.todo = task :: todo) :
      Change d A φ e { e with todo }

lemma Quiet.inert (h : Quiet e e') : Inert e e' :=
  ⟨h.validatorId, h.validatorSet, h.chainIdHash, h.currentView, h.lockedQc, h.highestQc,
    h.highestDoubleCert, h.lastCommittedHeight, h.currentEpoch, h.lastVote1, h.lastVote2,
    h.store, h.voteCollector, h.wishes, h.currentViewQc, h.pendingEpoch, h.previousEpoch,
    h.evidenceStore, .inl h.pendingVoteExtensions, h.todo⟩

lemma inert_emits (e : Engine σ) (effects : List Effect) : Inert e (e.emits effects) := by
  constructor <;> first | rfl | exact .inl rfl

/-- **Every act is one of the changes.** -/
lemma Act.change (h : Act d A x y) : Change d A x.phase x.engine y.engine := by
  cases h with
  | quiet h => exact .inert h.inert
  | verified cert _ _ _ => exact .inert (inert_emits _ _)
  | @collect e vote _ hepoch hvote _ hext =>
    obtain ⟨effects, heq, -⟩ := collectVote_eq e vote
    rw [heq]
    exact .collect vote hepoch hvote effects hext
  | @mark e result =>
    obtain ⟨store, effects, heq, -⟩ := filed_markEvidence e result.committedBlocks
    have hchange : Change d A (.adopted result) e _ := .mark result effects rfl
    rw [heq] at hchange ⊢
    exact hchange
  | @gossip e proof hproof =>
    obtain ⟨store, effects, heq, -⟩ := filed_handleEvidence e proof
    have hchange : Change d A .idle e _ := .gossip proof effects hproof
    rw [heq] at hchange ⊢
    exact hchange
  | @wish e targetView validator highestQc signature _ _ hqc haccepted =>
    have hwish : ∃ effects, (e.addWish targetView validator highestQc signature).2 = { e with
        pacemaker := (e.pacemaker.addWish e.state.validatorSet targetView validator highestQc
          signature).2
        trace := e.trace ++ effects } := by
      unfold addWish
      split
      · next tc pm hadd => exact ⟨_, by rw [hadd]; rfl⟩
      · next pm hadd => exact ⟨[], by rw [hadd]; simp⟩
    obtain ⟨effects, heq⟩ := hwish
    rw [heq]
    exact .wish targetView validator highestQc signature hqc haccepted effects
  | @viewQc e qc h =>
    have hchange : Change d A .idle e { e with currentViewQc := qc, trace := e.trace ++ [] } :=
      .viewQc qc [] h
    rwa [append_nil] at hchange
  | formDc dc _ _ _ => exact .viewQc none [.formed (.dc dc)] (by simp)
  | raise qc h =>
    rw [mapState, ConsensusState.updateHighestQc_eq]
    exact .raise qc h
  | lock qc hqc hview =>
    have heq : ∀ st : ConsensusState, (st.updateLockedQc qc).updateHighestQc qc = { st with
          lockedQc := (st.updateLockedQc qc).lockedQc
          highestQc := (st.updateHighestQc qc).highestQc } := by
      intro st
      unfold ConsensusState.updateLockedQc ConsensusState.updateHighestQc
      split_ifs <;> rfl
    rw [mapState, heq]
    exact .lock qc hqc hview
  | @vote1 e e' φ vote block justify hsign _ _ _ _ _ =>
    obtain ⟨-, heq, -⟩ := signVote1_spec hsign
    rw [heq]
    exact .vote1 block _ ⟨vote, justify, by simp⟩
  | release1 _ _ _ _ _ _ => exact .inert (inert_emits _ _)
  | @vote2 e e' vote qc _ hsign _ _ _ =>
    obtain ⟨-, heq, -⟩ := signVote2_spec hsign
    rw [heq]
    exact .vote2 qc _ ⟨vote, by simp⟩
  | release2 _ _ _ _ _ _ _ =>
    rw [persistState_eq]
    exact .inert (by constructor <;> first | rfl | exact .inl rfl)
  | persist =>
    rw [persistState_eq]
    exact .inert (inert_emits _ _)
  | putBlock block hhash => exact .putBlock block hhash
  | payload env parent _ => exact .inert (by constructor <;> first | rfl | exact .inr rfl)
  | proposal _ _ _ _ => exact .inert (inert_emits _ _)
  | putJustify justified qc _ _ hnone => exact .putJustify justified.height qc hnone
  | intent _ => exact .inert (inert_emits _ _)
  | commit dc _ _ =>
    obtain ⟨_, _, heq⟩ := runTryCommit_eq _ dc
    rw [heq]
    exact .commit _ _ _ _ _
  | settle result =>
    rw [settle_eq, adoptCommitEpoch_eq]
    exact .settle result rfl
  | saved env _ =>
    rw [persistState_eq, finishWalIntent_eq]
    exact .inert (by constructor <;> first | rfl | exact .inl rfl)
  | unlog env height =>
    rw [finishWalIntent_eq]
    exact .inert (inert_emits _ _)
  | move view trigger hlt hreason =>
    obtain ⟨exts, role, hext, heq | ⟨epoch, app, effects, hpending, hstart, -, -, heq⟩⟩ :=
      moveTo_eq _ view trigger
    · rw [heq]
      exact .move view trigger exts role hlt hreason hext
    · rw [heq]
      exact .moveEpoch view trigger exts role epoch app effects hlt hreason hpending hstart hext
  | push task htask => exact .push task htask
  | pop task todo h => exact .pop task todo h

/-! ### The acts behind one field -/

namespace Act

open ConsensusState

variable {x y : Flow σ}

section

variable (h : Act d A x y)

include h

lemma todo : y.engine.todo = x.engine.todo
    ∨ (∃ task, TaskOk A x.engine.trace task ∧ y.engine.todo = task :: x.engine.todo)
    ∨ ∃ task, x.engine.todo = task :: y.engine.todo := by
  obtain ⟨e', ψ⟩ := y
  cases h.change with
  | inert h => exact .inl h.todo
  | push task htask => exact .inr (.inl ⟨task, htask, rfl⟩)
  | pop task todo hpop => exact .inr (.inr ⟨task, hpop⟩)
  | _ => exact .inl rfl

lemma chainIdHash : y.engine.state.chainIdHash = x.engine.state.chainIdHash := by
  obtain ⟨e', ψ⟩ := y
  cases h.change with
  | inert h => exact h.chainIdHash
  | _ => rfl

lemma validatorId : y.engine.state.validatorId = x.engine.state.validatorId := by
  obtain ⟨e', ψ⟩ := y
  cases h.change with
  | inert h => exact h.validatorId
  | _ => rfl

/-- The view changes by moving up only. -/
lemma currentView : y.engine.state.currentView = x.engine.state.currentView
      ∨ (x.engine.state.currentView < y.engine.state.currentView
        ∧ ∃ trigger, EntryReason A x.engine y.engine.state.currentView trigger) := by
  obtain ⟨e', ψ⟩ := y
  cases h.change with
  | inert h => exact .inl h.currentView
  | move view trigger _ _ hlt hreason
  | moveEpoch view trigger _ _ _ _ _ hlt hreason _ _ => exact .inr ⟨hlt, trigger, hreason⟩
  | _ => exact .inl rfl

lemma currentView_le : x.engine.state.currentView ≤ y.engine.state.currentView := by
  rcases h.currentView with heq | ⟨hlt, -⟩
  · exact heq.ge
  · exact hlt.le

/-- The lock changes by locking only. -/
lemma lockedQc : y.engine.state.lockedQc = x.engine.state.lockedQc
      ∨ ∃ qc, KnownQc x.engine.trace qc ∧ qc.view = x.engine.state.currentView
        ∧ y.engine.state.lockedQc = (x.engine.state.updateLockedQc qc).lockedQc
        ∧ y.engine.state.highestQc = (x.engine.state.updateHighestQc qc).highestQc := by
  obtain ⟨e', ψ⟩ := y
  cases h.change with
  | inert h => exact .inl h.lockedQc
  | lock qc hqc hview => exact .inr ⟨qc, hqc, hview, rfl, rfl⟩
  | _ => exact .inl rfl

/-- The highest certificate changes by raising it to a known one only. -/
lemma highestQc : y.engine.state.highestQc = x.engine.state.highestQc
      ∨ ∃ qc, KnownQc x.engine.trace qc
        ∧ y.engine.state.highestQc = (x.engine.state.updateHighestQc qc).highestQc := by
  obtain ⟨e', ψ⟩ := y
  cases h.change with
  | inert h => exact .inl h.highestQc
  | raise qc hqc | lock qc hqc _ => exact .inr ⟨qc, hqc, rfl⟩
  | _ => exact .inl rfl

/-- The remembered double certificate changes with the view only, to the one that
the view change brings. -/
lemma highestDoubleCert : y.engine.state.highestDoubleCert = x.engine.state.highestDoubleCert
      ∨ ∃ dc, x.engine.state.currentView < y.engine.state.currentView
        ∧ EntryReason A x.engine y.engine.state.currentView (.doubleCert dc)
        ∧ y.engine.state.highestDoubleCert = some dc := by
  have hmoved : ∀ view trigger, x.engine.state.currentView < view →
      EntryReason A x.engine view trigger →
      trigger.newDc.or x.engine.state.highestDoubleCert = x.engine.state.highestDoubleCert
        ∨ ∃ dc, x.engine.state.currentView < view ∧ EntryReason A x.engine view (.doubleCert dc)
          ∧ trigger.newDc.or x.engine.state.highestDoubleCert = some dc := by
    intro view trigger hlt hreason
    cases trigger with
    | doubleCert dc => exact .inr ⟨dc, hlt, hreason, rfl⟩
    | genesis | timeoutCert tc => exact .inl rfl
  obtain ⟨e', ψ⟩ := y
  cases h.change with
  | inert h => exact .inl h.highestDoubleCert
  | move view trigger _ _ hlt hreason
  | moveEpoch view trigger _ _ _ _ _ hlt hreason _ _ => exact hmoved view trigger hlt hreason
  | _ => exact .inl rfl

/-- The remembered double certificate is the old one or one that was checked or
formed. -/
lemma knownDc {dc : DoubleCertificate} (hdc : y.engine.state.highestDoubleCert = some dc) :
    x.engine.state.highestDoubleCert = some dc ∨ KnownDc x.engine.trace dc := by
  rcases h.highestDoubleCert with heq | ⟨cert, -, hreason, heq⟩
  · exact .inl (heq ▸ hdc)
  obtain rfl := Option.some.inj (heq.symm.trans hdc)
  cases hreason with
  | formedDc hformed _ _ => exact .inr (.inr hformed)
  | jump hverified _ _ => exact .inr (.inl hverified)

/-- A lock is the old one, or a known certificate of the current view. -/
lemma knownLock {qc : QuorumCertificate} (hqc : y.engine.state.lockedQc = some qc) :
    x.engine.state.lockedQc = some qc
      ∨ (KnownQc x.engine.trace qc ∧ qc.view = x.engine.state.currentView) := by
  rcases h.lockedQc with heq | ⟨q, hq, hview, heq, -⟩
  · exact .inl (heq ▸ hqc)
  rw [heq] at hqc
  rcases x.engine.state.updateLockedQc_lockedQc q with hold | hnew
  · exact .inl (hold ▸ hqc)
  · obtain rfl := Option.some.inj (hnew.symm.trans hqc)
    exact .inr ⟨hq, hview⟩

/-- A highest certificate is the old one, or a known one. -/
lemma knownHighest {qc : QuorumCertificate} (hqc : y.engine.state.highestQc = some qc) :
    x.engine.state.highestQc = some qc ∨ KnownQc x.engine.trace qc := by
  rcases h.highestQc with heq | ⟨q, hq, heq⟩
  · exact .inl (heq ▸ hqc)
  rw [heq] at hqc
  rcases x.engine.state.updateHighestQc_highestQc q with hold | hnew
  · exact .inl (hold ▸ hqc)
  · obtain rfl := Option.some.inj (hnew.symm.trans hqc)
    exact .inr hq

/-- The lock is never replaced by a lower one. -/
lemma qcLe_lockedQc : QcLe x.engine.state.lockedQc y.engine.state.lockedQc := by
  rcases h.lockedQc with heq | ⟨qc, -, -, heq, -⟩
  · exact heq ▸ QcLe.refl _
  · exact heq ▸ x.engine.state.qcLe_updateLockedQc qc

lemma qcLe_highestQc : QcLe x.engine.state.highestQc y.engine.state.highestQc := by
  rcases h.highestQc with heq | ⟨qc, -, heq⟩
  · exact heq ▸ QcLe.refl _
  · exact heq ▸ x.engine.state.qcLe_updateHighestQc qc

/-- **The highest certificate stays as high as the lock.** -/
lemma lockedQc_le_highestQc (hx : QcLe x.engine.state.lockedQc x.engine.state.highestQc) :
    QcLe y.engine.state.lockedQc y.engine.state.highestQc := by
  rcases h.lockedQc with heq | ⟨qc, -, -, hlocked, hhigh⟩
  · exact heq ▸ hx.trans h.qcLe_highestQc
  · intro locked hl
    rw [hlocked] at hl
    rcases x.engine.state.updateLockedQc_lockedQc qc with hold | hnew
    · exact hx.trans h.qcLe_highestQc locked (hold ▸ hl)
    · obtain rfl := Option.some.inj (hnew.symm.trans hl)
      rw [hhigh]
      exact x.engine.state.updateHighestQc_ge qc

/-- **Pending extensions** are old, or come with the double certificate of a view change. -/
lemma pendingVoteExtensions {p : ℕ × Bytes}
    (hp : p ∈ y.engine.state.pendingVoteExtensions) : (p ∈ x.engine.state.pendingVoteExtensions
        ∧ y.engine.state.highestDoubleCert = x.engine.state.highestDoubleCert)
      ∨ ∃ dc, y.engine.state.highestDoubleCert = some dc ∧ p ∈ dc.voteExtensions := by
  have hmoved : ∀ trigger : ViewEntryTrigger,
      (∃ dc, trigger.newDc = some dc ∧ p ∈ dc.voteExtensions) →
      ∃ dc, trigger.newDc.or x.engine.state.highestDoubleCert = some dc
        ∧ p ∈ dc.voteExtensions := by
    rintro trigger ⟨dc, hdc, hmem⟩
    exact ⟨dc, by rw [hdc, Option.some_or], hmem⟩
  obtain ⟨e', ψ⟩ := y
  cases h.change with
  | inert h =>
    rcases h.extensions with heq | heq
    · exact .inl ⟨heq ▸ hp, h.highestDoubleCert⟩
    · rw [heq] at hp
      cases hp
  | move view trigger extensions role hlt hreason hext => exact .inr (hmoved trigger (hext p hp))
  | moveEpoch view trigger extensions role epoch app effects hlt hreason hpending hstart hext =>
    exact .inr (hmoved trigger (hext p hp))
  | _ => exact .inl ⟨hp, rfl⟩

/-- A collected vote is old or was just accepted. -/
lemma bucket {key : VoteKey} {v : Vote}
    (hv : v ∈ y.engine.voteCollector.bucket key) : v ∈ x.engine.voteCollector.bucket key
      ∨ (key = (v.epoch, v.view, v.blockHash, v.voteType)
        ∧ VoteCollector.Admitted x.engine.state.validatorSet v x.engine.state.currentEpoch.number
        ∧ ((x.engine.keyring.verifyVote d.crypto v = true ∧ A.auth v.signature)
          ∨ SignedVote x.engine.trace v) ∧ ExtensionOk x.engine v) := by
  obtain ⟨e', ψ⟩ := y
  cases h.change with
  | inert h => exact .inl (h.voteCollector ▸ hv)
  | collect vote hepoch hvote _ hext =>
    rcases VoteCollector.mem_bucket_addVote hv with hv | ⟨rfl, hkey, hadmitted⟩
    · exact .inl hv
    · exact .inr ⟨hkey, hadmitted, hvote, hext⟩
  | move _ _ _ _ _ _ => exact .inl (VoteCollector.mem_bucket_clear hv)
  | moveEpoch _ _ _ _ _ _ _ _ _ _ _ => cases hv
  | _ => exact .inl hv

/-- A recorded wish is old or carries a certificate the node has checked or
holds as its highest. -/
lemma wishes {view : ℕ} {w : WishRecord}
    (hw : w ∈ y.engine.pacemaker.bucket view) : w ∈ x.engine.pacemaker.bucket view
      ∨ w.highestQc = x.engine.state.highestQc ∨ ∀ qc, w.highestQc = some qc →
        Effect.verified (.qc .vote qc) ∈ x.engine.trace := by
  obtain ⟨e', ψ⟩ := y
  cases h.change with
  | inert h =>
    rw [Pacemaker.bucket, h.wishes] at hw
    exact .inl hw
  | wish targetView validator highestQc signature hqc _ _ =>
    rcases Pacemaker.mem_bucket_addWish hw with hw | rfl
    · exact .inl hw
    · exact .inr hqc
  | move _ _ _ _ _ _ => exact .inl (Pacemaker.mem_bucket_clear hw)
  | moveEpoch _ _ _ _ _ _ _ _ _ _ _ => cases hw
  | _ => exact .inl hw

/-- The wishes for a view stay, are dropped, or end in a new one of another validator. -/
lemma wishBucket (view : ℕ) : y.engine.pacemaker.bucket view = x.engine.pacemaker.bucket view
      ∨ y.engine.pacemaker.bucket view = []
      ∨ ∃ w, AcceptedWish d x.engine view w
        ∧ (∀ w' ∈ x.engine.pacemaker.bucket view, w'.validator ≠ w.validator)
        ∧ y.engine.pacemaker.bucket view = x.engine.pacemaker.bucket view ++ [w] := by
  obtain ⟨e, φ⟩ := x
  obtain ⟨e', ψ⟩ := y
  cases h.change with
  | inert h => exact .inl (by rw [Pacemaker.bucket, Pacemaker.bucket, h.wishes])
  | wish targetView validator highestQc signature _ haccepted _ =>
    rcases e.pacemaker.bucket_addWish e.state.validatorSet targetView validator highestQc
      signature view with heq | ⟨rfl, hnew, heq⟩
    · exact .inl heq
    · exact .inr (.inr ⟨_, haccepted, hnew, heq⟩)
  | move _ _ _ _ _ _ =>
    rcases e.pacemaker.bucket_clear _ _ view with heq | heq
    · exact .inl heq
    · exact .inr (.inl heq)
  | moveEpoch _ _ _ _ _ _ _ _ _ _ _ => exact .inr (.inl rfl)
  | _ => exact .inl rfl

/-- The certificate of the current view is the old one, none, or a formed one. -/
lemma currentViewQc {qc : QuorumCertificate}
    (hqc : y.engine.currentViewQc = some qc) : x.engine.currentViewQc = some qc
      ∨ Effect.formed (.qc .vote qc) ∈ x.engine.trace := by
  obtain ⟨e', ψ⟩ := y
  cases h.change with
  | inert h => exact .inl (h.currentViewQc ▸ hqc)
  | viewQc q _ hq => exact .inr (hq qc hqc)
  | move _ _ _ _ _ _ | moveEpoch _ _ _ _ _ _ _ _ _ _ _ => cases hqc
  | _ => exact .inl hqc

/-- The store changes with a block, with a justify certificate for a height that has none, and
with a processed commit. -/
lemma store : y.engine.store = x.engine.store ∨ (∃ block, Effect.putBlock block ∈ y.engine.trace
      ∧ y.engine.store = x.engine.store.putBlock block)
    ∨ (∃ height qc, x.engine.store.getCommitQc height = none
      ∧ y.engine.store = x.engine.store.putCommitQc height qc)
    ∨ ∃ result, x.phase = .executed result
      ∧ y.engine.store = applyWrites (settleEffects result) x.engine.store := by
  obtain ⟨e', ψ⟩ := y
  cases h.change with
  | inert h => exact .inl h.store
  | putBlock block _ =>
    exact .inr (.inl ⟨block, mem_concat_self, rfl⟩)
  | putJustify height qc hnone => exact .inr (.inr (.inl ⟨height, qc, hnone, rfl⟩))
  | settle result hphase => exact .inr (.inr (.inr ⟨result, hphase, rfl⟩))
  | _ => exact .inl rfl

/-- A stored block is old or was just stored. -/
lemma getBlock {hash : BlockHash} {block : Block}
    (hblock : y.engine.store.getBlock hash = some block) : x.engine.store.getBlock hash = some block
      ∨ (hash = block.hash ∧ block.hash = d.crypto.computeHash block
        ∧ Effect.putBlock block ∈ y.engine.trace) := by
  obtain ⟨e', ψ⟩ := y
  cases h.change with
  | inert h => exact .inl (h.store ▸ hblock)
  | putBlock b hhash =>
    rw [BlockStore.getBlock_putBlock] at hblock
    split_ifs at hblock with heq
    · cases hblock
      exact .inr ⟨heq, hhash, mem_concat_self⟩
    · exact .inl hblock
  | putJustify height qc _ =>
    rw [BlockStore.getBlock_putCommitQc] at hblock
    exact .inl hblock
  | settle result _ =>
    rw [getBlock_settle] at hblock
    exact .inl hblock
  | _ => exact .inl hblock

/-- The epochs change when a commit result is adopted or a pending epoch starts. -/
lemma epochs : (y.engine.state.validatorSet = x.engine.state.validatorSet
      ∧ y.engine.state.currentEpoch = x.engine.state.currentEpoch
      ∧ y.engine.pendingEpoch = x.engine.pendingEpoch
      ∧ y.engine.previousEpoch = x.engine.previousEpoch) ∨ (∃ result, x.phase = .executed result
      ∧ y.engine.state.validatorSet = (result.activatedEpoch.map (·.validatorSet)).getD
        x.engine.state.validatorSet
      ∧ y.engine.state.currentEpoch = result.activatedEpoch.getD x.engine.state.currentEpoch
      ∧ y.engine.pendingEpoch = result.pendingEpoch
      ∧ y.engine.previousEpoch = (result.activatedEpoch.map fun _ =>
        some x.engine.state.currentEpoch).getD x.engine.previousEpoch)
    ∨ ∃ epoch, x.engine.pendingEpoch = some epoch ∧ epoch.startView ≤ y.engine.state.currentView
      ∧ y.engine.state.validatorSet = epoch.validatorSet
      ∧ y.engine.state.currentEpoch = epoch ∧ y.engine.pendingEpoch = none
      ∧ y.engine.previousEpoch = some x.engine.state.currentEpoch := by
  obtain ⟨e', ψ⟩ := y
  cases h.change with
  | inert h => exact .inl ⟨h.validatorSet, h.currentEpoch, h.pendingEpoch, h.previousEpoch⟩
  | settle result hphase => exact .inr (.inl ⟨result, hphase, rfl, rfl, rfl, rfl⟩)
  | moveEpoch _ _ _ _ epoch _ _ _ _ hpending hstart =>
    exact .inr (.inr ⟨epoch, hpending, hstart, rfl, rfl, rfl, rfl⟩)
  | _ => exact .inl ⟨rfl, rfl, rfl, rfl⟩

/-- The evidence changes with a vote, with a commit, and with a gossiped proof. -/
lemma evidenceStore : y.engine.evidenceStore = x.engine.evidenceStore
    ∨ (∃ vote, vote.epoch = x.engine.state.currentEpoch.number
      ∧ ((x.engine.keyring.verifyVote d.crypto vote = true ∧ A.auth vote.signature)
        ∨ SignedVote x.engine.trace vote)
      ∧ y.engine.evidenceStore = fileProof d (x.engine.detected vote) x.engine.evidenceStore)
    ∨ (∃ result, x.phase = .adopted result
      ∧ y.engine.evidenceStore = (x.engine.markEvidence d result.committedBlocks).evidenceStore)
    ∨ ∃ proof, A.gossip proof
      ∧ y.engine.evidenceStore = (x.engine.handleEvidence d proof).evidenceStore := by
  obtain ⟨e', ψ⟩ := y
  cases h.change with
  | inert h => exact .inl h.evidenceStore
  | collect vote hepoch hvote _ => exact .inr (.inl ⟨vote, hepoch, hvote, rfl⟩)
  | mark result _ hphase => exact .inr (.inr (.inl ⟨result, hphase, rfl⟩))
  | gossip proof _ hproof => exact .inr (.inr (.inr ⟨proof, hproof, rfl⟩))
  | _ => exact .inl rfl

/-- A commit is entered through `try_commit` only. -/
lemma phase : y.phase = x.phase ∨ y.phase = .idle
    ∨ (∃ result, x.phase = .executed result ∧ y.phase = .adopted result)
    ∨ ∃ dc, KnownDc x.engine.trace dc ∧ x.phase = .idle
      ∧ y.engine.trace = x.engine.trace ++ (.tryCommit dc
        :: (x.engine.commitRun d dc).calls.map .app
          ++ failureEffects (x.engine.commitRun d dc).outcome)
      ∧ y.phase = phaseAfter (x.engine.commitRun d dc).outcome := by
  cases h with
  | @commit e dc hdc _ =>
    obtain ⟨_, _, heq⟩ := runTryCommit_eq e dc
    exact .inr (.inr (.inr ⟨dc, hdc, rfl, by rw [heq], by rw [runTryCommit_outcome]⟩))
  | settle result => exact .inr (.inr (.inl ⟨result, rfl, rfl⟩))
  | saved _ _ => exact .inr (.inl rfl)
  | _ => exact .inl rfl

end

end Act

/-! ### The invariant rule -/

lemma TaskOk.mono {t t' : List Effect} (h : t ⊆ t') {task : Task} (htask : TaskOk A t task) :
    TaskOk A t' task := by
  cases task with
  | tryPropose => trivial
  | resumeProposal block justify dc =>
    obtain ⟨hjustify, hdc, hlogged⟩ := htask
    exact ⟨h hjustify, fun cert hcert => h (hdc cert hcert), hlogged⟩

/-- The continuations stay in order. -/
lemma Act.todoOk (h : Act d A x y) (htodo : TodoOk A x.engine) : TodoOk A y.engine := by
  have hsub := h.trace_grows.subset
  intro task htask
  rcases h.todo with heq | ⟨new, hnew, heq⟩ | ⟨old, heq⟩
  · exact (htodo task (heq ▸ htask)).mono hsub
  · rcases mem_cons.mp (heq ▸ htask) with rfl | hmem
    · exact hnew.mono hsub
    · exact (htodo task hmem).mono hsub
  · exact (htodo task (heq ▸ .tail _ htask)).mono hsub

/-- **The invariant rule for sequences of acts.** -/
lemma Acts.invariant (hact : ∀ x y, Act d A x y → I x → I y)
    (h : Acts d A x y) (hI : I x) : I y := by
  induction h with
  | refl => exact hI
  | tail _ hstep ih => exact hact _ _ hstep ih

/-- An invariant of acts holds where a step ends, outside of commits unless the
engine stopped. -/
lemma Reach.invariant (hact : ∀ x y, Act d A x y → I x → I y)
    (h : Reach d A e e') (hI : I ⟨e, .idle⟩) : ∃ φ, (φ = .idle ∨ e'.halted = true) ∧ I ⟨e', φ⟩ := by
  rcases h with h | ⟨hhalt, φ, h⟩
  · exact ⟨.idle, .inl rfl, h.invariant hact hI⟩
  · exact ⟨φ, .inr hhalt, h.invariant hact hI⟩

/-- The phase an engine is in between two steps. -/
def Settled (I : Flow σ → Prop) (e : Engine σ) : Prop :=
  ∃ φ, (φ = .idle ∨ e.halted = true) ∧ I ⟨e, φ⟩

lemma Engine.not_halted_of_enabled (h : e.enabled label = true) : e.halted = false := by
  cases hhalt : e.halted with
  | false => rfl
  | true => cases label <;> simp [enabled, hhalt] at h

lemma Settled.idle (h : Settled I e) (henabled : e.enabled label = true) : I ⟨e, .idle⟩ := by
  obtain ⟨φ, rfl | hhalt, hI⟩ := h
  · exact hI
  · rw [not_halted_of_enabled henabled] at hhalt
    cases hhalt

/-- One step keeps what its acts keep. -/
lemma Settled.step (hact : ∀ x y, e.trace ⊆ x.engine.trace → Act d A x y → I x → I y)
    (henabled : e.enabled label = true) (hlabel : LabelOk A label) (hA : A.Holds e)
    (h : Settled (fun x => TodoOk A x.engine ∧ I x) e) :
    Settled (fun x => TodoOk A x.engine ∧ I x) (e.apply d label) := by
  obtain ⟨htodo, hI⟩ := h.idle henabled
  have hstep : ∀ x y, Act d A x y → (e.trace ⊆ x.engine.trace ∧ TodoOk A x.engine ∧ I x) →
      e.trace ⊆ y.engine.trace ∧ TodoOk A y.engine ∧ I y := by
    intro x y hxy hx
    obtain ⟨hsub, htodo, hI⟩ := hx
    exact ⟨List.Subset.trans hsub hxy.trace_grows.subset, hxy.todoOk htodo, hact x y hsub hxy hI⟩
  obtain ⟨φ, hφ, -, hend⟩ :=
    (reach_apply hlabel htodo hA).invariant hstep ⟨List.Subset.refl _, htodo, hI⟩
  exact ⟨φ, hφ, hend⟩

lemma TodoOk.weaken {A A' : Allowance} (hunlogged : A.unlogged → A'.unlogged)
    (h : TodoOk A e) : TodoOk A' e := by
  intro task htask
  have hok := h task htask
  cases task with
  | tryPropose => trivial
  | resumeProposal block justify dc =>
    obtain ⟨hjustify, hdc, hlogged⟩ := hok
    exact ⟨hjustify, hdc, hlogged.imp hunlogged id⟩

/-- An allowance that asks nothing of the engine holds of every engine. -/
lemma holds_of {A : Allowance} (hkeys : ∀ k, A.keys k) (hresumed : ∀ block, A.resumed block)
    (hpayload : ∀ dc extensions, A.payload dc extensions) (e : Engine σ) : A.Holds e :=
  ⟨hkeys _, fun _ _ _ _ _ => .inr (hresumed _), fun _ => hpayload _ _⟩

lemma holds_all (e : Engine σ) : Allowance.all.Holds e :=
  holds_of (fun _ => trivial) (fun _ => trivial) (fun _ _ => trivial) e

lemma holds_under (e : Engine σ) : (Allowance.under e.keyring).Holds e :=
  ⟨rfl, fun _ _ _ _ _ => .inr trivial, fun _ => trivial⟩

/-- Nothing has to be known of the message of a label. -/
lemma labelOk_all (label : Label) : LabelOk .all label := by
  cases label with
  | message env sender msg =>
    exact ⟨fun _ _ => trivial, fun _ _ _ _ _ _ => ⟨fun _ _ => trivial, .inl trivial⟩,
      fun _ _ => trivial⟩
  | timeout | task env => trivial

lemma labelOk_under (k : Keyring) (label : Label) : LabelOk (.under k) label := by
  have hall := labelOk_all label
  cases label with
  | message env sender msg => exact hall
  | timeout | task env => trivial

/-- **The invariant rule for runs**: what holds at the start and is kept by every
act holds in every state of every run.  What is known of a message may depend on
the state it is handled in, as may what is known of that state. -/
theorem RunWhere.invariant {P : Engine σ → Label → Prop}
    {A : Engine σ → Allowance} (hA : ∀ e e', (A e).unlogged → (A e').unlogged)
    (hact : ∀ e x y, e.trace ⊆ x.engine.trace → Act d (A e) x y → I x → I y)
    (hlabel : ∀ e label, I ⟨e, .idle⟩ → P e label → LabelOk (A e) label)
    (hholds : ∀ e, (A e).Holds e) {e₀ : Engine σ} (hrun : RunWhere d P e₀ e)
    (htodo : TodoOk (A e₀) e₀) (hI : I ⟨e₀, .idle⟩) :
    Settled (fun x => TodoOk (A e) x.engine ∧ I x) e := by
  induction hrun with
  | refl => exact ⟨.idle, .inl rfl, htodo, hI⟩
  | tail _ hstep ih =>
    cases hstep with
    | step henabled hP =>
      obtain ⟨φ, hφ, htodo, hI⟩ :=
        ih.step (hact _) henabled (hlabel _ _ (ih.idle henabled).2 hP) (hholds _)
      exact ⟨φ, hφ, htodo.weaken (hA _ _), hI⟩

/-- The rule for what every act keeps, allowed or not. -/
lemma RunWhere.keeps {P : Engine σ → Label → Prop} {e₀ : Engine σ} (hrun : RunWhere d P e₀ e)
    (hact : ∀ x y, Act d .all x y → I x → I y) (htodo : TodoOk .all e₀) (hI : I ⟨e₀, .idle⟩) :
    Settled (fun x => TodoOk .all x.engine ∧ I x) e :=
  hrun.invariant (A := fun _ => .all) (fun _ _ h => h) (fun _ x y _ => hact x y)
    (fun _ label _ _ => labelOk_all label) holds_all htodo hI

end Hotmint
