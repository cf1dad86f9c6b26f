/-
Commits and view changes are sequences of acts.

* `Reach.head`, `Reach.andThen`: how acts compose, with `Quiet.trans` and its
  companions for the quiet ones;
* `Act.trace_grows`: **no act removes an effect**;
* `reach_applyCommit`: the intent, the execution, the adoption and the
  checkpoint, with the failures between them;
* `reach_advanceViewTo`: the epoch switch and the view entry.
-/
import Hotmint.Proof.Frames

namespace Hotmint

open Engine List Option
variable {σ : Type} {d : Deps σ} {A : Allowance} {env : Env}
variable {dc : DoubleCertificate} {e e' : Engine σ} {t : List Effect} {qc : QuorumCertificate}
variable {e₁ : Engine σ} {t' : List Effect} {trigger : ViewEntryTrigger}

/-! ### Composing acts -/

lemma Acts.of_quiet {φ : Phase} (h : Quiet e e') : Acts d A ⟨e, φ⟩ ⟨e', φ⟩ :=
  .single (.quiet h)

namespace Reach

lemma of_acts (h : Acts d A ⟨e, .idle⟩ ⟨e', .idle⟩) : Reach d A e e' := .inl h

lemma refl (e : Engine σ) : Reach d A e e := of_acts .refl

lemma of_act (h : Act d A ⟨e, .idle⟩ ⟨e', .idle⟩) : Reach d A e e' :=
  of_acts (.single h)

lemma of_quiet (h : Quiet e e') : Reach d A e e' := of_act (.quiet h)

/-- Acts outside of commits can be put in front. -/
lemma head {e₂ : Engine σ} (h : Acts d A ⟨e, .idle⟩ ⟨e₁, .idle⟩) (h' : Reach d A e₁ e₂) :
    Reach d A e e₂ := by
  rcases h' with h' | ⟨hhalt, φ, h'⟩
  · exact .inl (h.trans h')
  · exact .inr ⟨hhalt, φ, h.trans h'⟩

/-- Sequencing stops at a panic, so the second part starts outside of commits. -/
lemma andThen {f : Engine σ → Engine σ} (h : Reach d A e e₁)
    (hf : e₁.halted = false → Reach d A e₁ (f e₁)) : Reach d A e (e₁.andThen f) := by
  unfold Engine.andThen
  split_ifs with hhalt
  · exact h
  · rcases h with h | ⟨hhalt', -⟩
    · exact head h (hf (by simpa using hhalt))
    · exact absurd hhalt' hhalt

end Reach

/-! ### Quiet changes -/

namespace Quiet

lemma refl (e : Engine σ) : Quiet e e := by
  constructor
  case trace => exact ⟨[], by simp, by simp⟩
  all_goals rfl

lemma trans {e₂ e₃ : Engine σ} (h : Quiet e₁ e₂) (h' : Quiet e₂ e₃) : Quiet e₁ e₃ := by
  obtain ⟨xs, hxs, hq⟩ := h.trace
  obtain ⟨ys, hys, hq'⟩ := h'.trace
  constructor
  case trace =>
    refine ⟨xs ++ ys, by rw [hys, hxs, append_assoc], fun x hx => ?_⟩
    rcases mem_append.mp hx with hx | hx
    · exact hq x hx
    · exact hq' x hx
  case validatorId => exact h'.validatorId.trans h.validatorId
  case validatorSet => exact h'.validatorSet.trans h.validatorSet
  case chainIdHash => exact h'.chainIdHash.trans h.chainIdHash
  case currentView => exact h'.currentView.trans h.currentView
  case lockedQc => exact h'.lockedQc.trans h.lockedQc
  case highestQc => exact h'.highestQc.trans h.highestQc
  case highestDoubleCert => exact h'.highestDoubleCert.trans h.highestDoubleCert
  case lastCommittedHeight => exact h'.lastCommittedHeight.trans h.lastCommittedHeight
  case lastAppHash => exact h'.lastAppHash.trans h.lastAppHash
  case currentEpoch => exact h'.currentEpoch.trans h.currentEpoch
  case lastVote1 => exact h'.lastVote1.trans h.lastVote1
  case lastVote2 => exact h'.lastVote2.trans h.lastVote2
  case store => exact h'.store.trans h.store
  case voteCollector => exact h'.voteCollector.trans h.voteCollector
  case wishes => exact h'.wishes.trans h.wishes
  case currentViewQc => exact h'.currentViewQc.trans h.currentViewQc
  case pendingEpoch => exact h'.pendingEpoch.trans h.pendingEpoch
  case previousEpoch => exact h'.previousEpoch.trans h.previousEpoch
  case evidenceStore => exact h'.evidenceStore.trans h.evidenceStore
  case livenessTracker => exact h'.livenessTracker.trans h.livenessTracker
  case pendingVoteExtensions => exact h'.pendingVoteExtensions.trans h.pendingVoteExtensions
  case todo => exact h'.todo.trans h.todo

lemma emits (e : Engine σ) {effects : List Effect} (h : ∀ x ∈ effects, x.quiet = true) :
    Quiet e (e.emits effects) := by
  constructor
  case trace => exact ⟨effects, rfl, h⟩
  all_goals rfl

lemma emit (e : Engine σ) {effect : Effect} (h : effect.quiet = true) : Quiet e (e.emit effect) :=
  emits e (by simpa using h)

lemma flush (e : Engine σ) : Quiet e (e.emit .flush) := emit e rfl

lemma halt (e : Engine σ) : Quiet e e.halt := by
  constructor
  case trace => exact ⟨[], by simp [Engine.halt], by simp⟩
  all_goals rfl

lemma setStep (e : Engine σ) (step : ViewStep) : Quiet e (e.setStep step) := by
  constructor
  case trace => exact ⟨[], by simp [Engine.setStep, Engine.mapState], by simp⟩
  all_goals rfl

/-- A callback that is not part of a commit. -/
lemma call (e : Engine σ) (s : σ) {call : AppCall} (h : (Effect.app call).quiet = true) :
    Quiet e ({ e with app := s }.emit (.app call)) := by
  constructor
  case trace => exact ⟨[.app call], rfl, by simpa using h⟩
  all_goals rfl

/-- New contents of the fields no safety argument looks at. -/
lemma fields (e : Engine σ) (limiter : AList fun _ : ℕ => ℕ × ℕ) (senders : List ℕ) :
    Quiet e { e with
      msgRateLimiter := limiter
      statusSenders := senders } := by
  constructor
  case trace => exact ⟨[], by simp, by simp⟩
  all_goals rfl

end Quiet

/-! ### Evidence -/

/-- Only the evidence store has changed, and was flushed. -/
def Filed (e e' : Engine σ) : Prop :=
  ∃ store effects, e' = { e with evidenceStore := store, trace := e.trace ++ effects }
    ∧ ∀ effect ∈ effects, effect = Effect.flush

lemma Filed.refl (e : Engine σ) : Filed e e :=
  ⟨e.evidenceStore, [], by rw [append_nil], nofun⟩

lemma filed_markEvidence (e : Engine σ) (blocks : List Block) :
    Filed e (e.markEvidence d blocks) := by
  unfold markEvidence
  split_ifs
  · exact ⟨_, [.flush], rfl, fun _ => mem_singleton.mp⟩
  · exact Filed.refl e

/-- **The evidence branch.** -/
lemma filed_handleEvidence (e : Engine σ) (proof : EquivocationProof) :
    Filed e (e.handleEvidence d proof) := by
  unfold handleEvidence
  split
  · exact Filed.refl e
  · dsimp only
    split_ifs
    · exact ⟨_, [.flush], rfl, fun _ => mem_singleton.mp⟩
    · exact Filed.refl e
    · exact Filed.refl e

/-! ### Commits -/

lemma acts_finishIntent (e : Engine σ) (intent : Option ℕ) :
    Acts d A ⟨e, .idle⟩ ⟨e.finishIntent d env intent, .idle⟩ := by
  cases intent with
  | none => exact .refl
  | some height => exact .single (.unlog env height)

/-- Processing a result: adopt and store, then save and close the log entry. -/
lemma acts_processCommitResult (e : Engine σ) {result : CommitResult}
    (hne : result.committedBlocks.isEmpty = false) : Acts d A ⟨e, .executed result⟩
      ⟨(e.adoptCommitEpoch result).processCommitResult d env result, .idle⟩ := by
  unfold processCommitResult
  rw [if_neg (by simp [hne])]
  refine .head (.settle result) ?_
  refine .head (.quiet (Quiet.flush (e.settle result))) ?_
  exact .head (.mark result) (.single (.saved env result))

/-- What follows a `try_commit` that did not panic. -/
lemma acts_finishCommit (e : Engine σ) (intent : Option ℕ) {outcome : CommitOutcome}
    (h : outcome ≠ .panic) :
    Acts d A ⟨e, phaseAfter outcome⟩ ⟨e.finishCommit d env intent outcome, .idle⟩ := by
  cases outcome with
  | ok result =>
    by_cases hempty : result.committedBlocks.isEmpty = true
    · simpa [phaseAfter, finishCommit, hempty] using acts_finishIntent e intent
    · have hne : result.committedBlocks.isEmpty = false := by simpa using hempty
      simpa [phaseAfter, finishCommit, hne] using acts_processCommitResult e hne
  | err err => exact acts_finishIntent e intent
  | panic => exact absurd rfl h

lemma halted_of_panic
    (h : (e.runTryCommit d dc).1 = .panic) : (e.runTryCommit d dc).2.halted = true := by
  unfold runTryCommit at h ⊢
  dsimp only at h ⊢
  split at h
  · cases h
  · cases h
  · simp [halt]

/-- `try_commit` and what follows it. -/
lemma reach_commit (intent : Option ℕ) (hdc : KnownDc e.trace dc)
    (hlogged : d.hasWal = true → A.unlogged
      ∨ ∀ target, e.store.getBlock dc.innerQc.blockHash = some target →
        IntentLogged e.trace target.height) :
    Reach d A e ((e.runTryCommit d dc).2.finishCommit d env intent (e.runTryCommit d dc).1) := by
  have hact : Act d A ⟨e, .idle⟩ ⟨(e.runTryCommit d dc).2, phaseAfter (e.runTryCommit d dc).1⟩ :=
    .commit dc hdc hlogged
  by_cases hpanic : (e.runTryCommit d dc).1 = .panic
  · rw [hpanic] at hact ⊢
    exact .inr ⟨halted_of_panic hpanic, _, .single hact⟩
  · exact Reach.of_acts (.head hact (acts_finishCommit _ intent hpanic))

lemma intentLogged_append (trace : List Effect) (height : ℕ) :
    IntentLogged (trace ++ [.walWrite (.commitIntent height)]) height := by
  simp [IntentLogged, Disk.after, Disk.apply]

lemma KnownDc.mono (h : t ⊆ t') (hdc : KnownDc t dc) : KnownDc t' dc :=
  hdc.imp (fun hm => h hm) (fun hm => h hm)

lemma KnownTc.mono (h : t ⊆ t') {tc : TimeoutCertificate} (htc : KnownTc t tc) : KnownTc t' tc :=
  htc.imp (fun hm => h hm) (fun hm => h hm)

lemma KnownQc.mono (h : t ⊆ t') (hqc : KnownQc t qc) : KnownQc t' qc := by
  rcases hqc with hqc | hqc | ⟨dc, hdc, heq⟩ | ⟨tc, htc, hmem⟩
  · exact .inl (h hqc)
  · exact .inr (.inl (h hqc))
  · exact .inr (.inr (.inl ⟨dc, KnownDc.mono h hdc, heq⟩))
  · exact .inr (.inr (.inr ⟨tc, KnownTc.mono h htc, hmem⟩))

lemma KnownQc.of_verified (h : Effect.verified (.qc .vote qc) ∈ t) : KnownQc t qc := .inl h

lemma KnownQc.of_formed (h : Effect.formed (.qc .vote qc) ∈ t) : KnownQc t qc := .inr (.inl h)

lemma KnownDc.innerQc (h : KnownDc t dc) : KnownQc t dc.innerQc := .inr (.inr (.inl ⟨dc, h, rfl⟩))

/-- **`apply_commit`**: the intent of a stored target is logged before anything
is executed. -/
lemma reach_applyCommit (hdc : KnownDc e.trace dc) : Reach d A e (e.applyCommit d env dc) := by
  unfold applyCommit
  by_cases hwal : d.hasWal = true
  · simp only [hwal, if_true]
    cases htarget : e.store.getBlock dc.innerQc.blockHash with
    | none =>
      refine (Reach.refl e).andThen fun _ => reach_commit none hdc fun _ => .inr ?_
      simp [htarget]
    | some target =>
      simp only [map_some, logCommitIntent, hwal, if_true]
      cases env.walIntentOk with
      | false => exact (Reach.of_quiet (Quiet.halt e)).andThen fun hhalt => by cases hhalt
      | true =>
        refine (Reach.of_act (.intent target.height)).andThen fun _ => ?_
        refine reach_commit (some target.height) (hdc.mono (subset_append_left _ _)) fun _ => .inr
          ?_
        intro target' htarget'
        have heq : target = target' := by
          have : some target = some target' := htarget.symm.trans htarget'
          exact some.inj this
        subst heq
        exact intentLogged_append e.trace target.height
  · simp only [hwal, if_false, Bool.false_eq_true]
    exact (Reach.refl e).andThen fun _ => reach_commit none hdc fun h => absurd h hwal

/-! ### View changes -/

lemma maxByView_mem {qcs : List QuorumCertificate} (h : maxByView qcs = some qc) : qc ∈ qcs := by
  induction qcs with
  | nil => cases h
  | cons q qcs ih =>
    simp only [maxByView] at h
    split at h
    · exact mem_cons.mpr (.inl (some.inj h).symm)
    · next best hbest =>
        split_ifs at h
        · exact mem_cons.mpr (.inl (some.inj h).symm)
        · exact .tail _ (ih (hbest.trans h))

/-- A timeout certificate accounts for the highest certificate it reports. -/
lemma KnownTc.highestQc {tc : TimeoutCertificate} (h : KnownTc t tc)
    (hqc : tc.highestQc = some qc) : KnownQc t qc :=
  .inr (.inr (.inr ⟨tc, h, maxByView_mem hqc⟩))

/-- The extensions that a view change leaves are those of the double certificate it
brings. -/
lemma mem_clearForView {p : ℕ × Bytes}
    (h : p ∈ (e.clearForView trigger).state.pendingVoteExtensions) :
    ∃ dc, trigger.newDc = some dc ∧ p ∈ dc.voteExtensions := by
  cases trigger with
  | genesis | timeoutCert tc => cases h
  | doubleCert dc =>
    refine ⟨dc, rfl, ?_⟩
    change p ∈ ((e.keyring.validatorSetForEpoch dc.outerQc.epoch).bind
      (Keyring.canonicalVoteExtensions dc)).getD [] at h
    cases hcanonical : (e.keyring.validatorSetForEpoch dc.outerQc.epoch).bind
        (Keyring.canonicalVoteExtensions dc) with
    | none =>
      rw [hcanonical] at h
      cases h
    | some canonical =>
      rw [hcanonical] at h
      obtain ⟨vs, -, hvs⟩ := bind_eq_some_iff.mp hcanonical
      exact Keyring.canonicalVoteExtensions_subset hvs h

section

variable (e : Engine σ) (view : ℕ) (trigger : ViewEntryTrigger)

/-- **A view change** clears the collectors and moves; a pending epoch that is
due starts. -/
lemma moveTo_eq : ∃ extensions role,
      (∀ p ∈ extensions, ∃ dc, trigger.newDc = some dc ∧ p ∈ dc.voteExtensions) ∧
      (e.moveTo d view trigger = { e with
        state := { e.state with
          pendingVoteExtensions := extensions
          currentView := view
          step := .entered
          role := role
          highestDoubleCert := trigger.newDc.or e.state.highestDoubleCert }
        voteCollector := (e.voteCollector.clearView e.state.currentView).pruneBefore
          e.state.currentView
        pacemaker := (e.pacemaker.clearView e.state.currentView).pruneBefore e.state.currentView
        statusSenders := []
        currentViewQc := none }
      ∨ ∃ epoch app effects, e.pendingEpoch = some epoch ∧ epoch.startView ≤ view
        ∧ (∀ x ∈ effects, x.calm = true) ∧ effects = e.epochEffects epoch
        ∧ e.moveTo d view trigger = { e with
          state := { e.state with
            pendingVoteExtensions := extensions
            validatorSet := epoch.validatorSet
            currentEpoch := epoch
            currentView := view
            step := .entered
            role := role
            highestDoubleCert := trigger.newDc.or e.state.highestDoubleCert }
          app := app
          livenessTracker := LivenessTracker.new
          pendingEpoch := none
          previousEpoch := some e.state.currentEpoch
          voteCollector := VoteCollector.new
          pacemaker := Pacemaker.new
          statusSenders := []
          currentViewQc := none
          trace := e.trace ++ effects }) := by
  refine ⟨(e.clearForView trigger).state.pendingVoteExtensions,
    (e.moveTo d view trigger).state.role, fun p hp => mem_clearForView hp, ?_⟩
  rcases startEpoch_eq (d := d) (e.clearForView trigger) view with
    heq | ⟨epoch, app, effects, hpending, hstart, hcalm, heffects, heq⟩
  · left
    unfold moveTo
    rw [heq]
    rfl
  · right
    refine ⟨epoch, app, effects, hpending, hstart, hcalm, heffects, ?_⟩
    unfold moveTo
    rw [heq]
    rfl

lemma trace_moveTo : ∃ effects, (e.moveTo d view trigger).trace = e.trace ++ effects
      ∧ ∀ x ∈ effects, x.calm = true := by
  obtain ⟨_, _, -, heq | ⟨_, _, effects, -, -, hcalm, -, heq⟩⟩ := moveTo_eq (d := d) e view trigger
  · exact ⟨[], by rw [heq]; simp, by simp⟩
  · exact ⟨effects, by rw [heq], hcalm⟩

lemma subset_moveTo : e.trace ⊆ (e.moveTo d view trigger).trace := by
  obtain ⟨effects, heq, -⟩ := trace_moveTo (d := d) e view trigger
  exact heq ▸ subset_append_left _ _

end

/-- No act removes an effect from the trace. -/
lemma Act.trace_grows {x y : Flow σ} (h : Act d A x y) : x.engine.trace <+: y.engine.trace := by
  have of_eq : ∀ {t t' : List Effect}, (∃ effects, t' = t ++ effects) → t <+: t' := by
    rintro t t' ⟨effects, rfl⟩
    exact prefix_append t effects
  cases h with
  | quiet h =>
    obtain ⟨effects, heq, -⟩ := h.trace
    exact of_eq ⟨effects, heq⟩
  | collect vote _ _ _ _ _ =>
    obtain ⟨effects, heq, -⟩ := collectVote_eq (d := d) _ vote
    exact of_eq ⟨effects, by rw [heq]⟩
  | wish targetView validator highestQc signature _ _ _ _ =>
    simp only [addWish]
    split
    · exact prefix_append _ _
    · exact prefix_refl _
  | vote1 block justify hsign _ _ _ _ _ =>
    obtain ⟨-, rfl, -⟩ := signVote1_spec hsign
    exact prefix_append _ _
  | vote2 qc extension hsign _ _ _ =>
    obtain ⟨-, rfl, -⟩ := signVote2_spec hsign
    exact prefix_append _ _
  | release2 vote effect _ _ _ _ _ =>
    rw [persistState_eq]
    exact (prefix_append _ _).trans (prefix_append _ _)
  | persist =>
    rw [persistState_eq]
    exact prefix_append _ _
  | commit dc _ _ =>
    obtain ⟨_, _, heq⟩ := runTryCommit_eq (d := d) _ dc
    exact of_eq ⟨_, by rw [heq]⟩
  | settle result => exact of_eq ⟨_, by rw [settle_eq]⟩
  | mark result =>
    obtain ⟨_, effects, heq, -⟩ := filed_markEvidence (d := d) _ result.committedBlocks
    exact of_eq ⟨effects, by rw [heq]⟩
  | gossip proof _ =>
    obtain ⟨_, effects, heq, -⟩ := filed_handleEvidence (d := d) _ proof
    exact of_eq ⟨effects, by rw [heq]⟩
  | saved env _ =>
    rw [finishWalIntent_eq, persistState_eq]
    exact (prefix_append _ _).trans (prefix_append _ _)
  | unlog env height =>
    rw [finishWalIntent_eq]
    exact prefix_append _ _
  | move view trigger _ _ =>
    obtain ⟨effects, heq, -⟩ := trace_moveTo (d := d) _ view trigger
    exact of_eq ⟨effects, heq⟩
  | viewQc _ _ | raise _ _ | lock _ _ _ | push _ _ | pop _ _ _ => exact prefix_refl _
  | verified _ _ _ _ | formDc _ _ _ _ _ | release1 _ _ _ _ _ _
  | putBlock _ _ | payload _ _ _ | proposal _ _ _ _
  | putJustify _ _ _ _ _ | intent _ => exact prefix_append _ _

lemma Acts.trace_grows {x y : Flow σ} (h : Acts d A x y) : x.engine.trace <+: y.engine.trace := by
  induction h with
  | refl => exact prefix_refl _
  | tail _ hact ih => exact ih.trans hact.trace_grows

lemma Reach.trace_grows (h : Reach d A e e') : e.trace <+: e'.trace := by
  rcases h with h | ⟨-, φ, h⟩
  · exact h.trace_grows
  · exact h.trace_grows

lemma quiet_awaitTurn (e : Engine σ) (view : ℕ) (amLeader : Bool) :
    Quiet e (e.awaitTurn d view amLeader) := by
  unfold awaitTurn
  split_ifs
  · exact Quiet.setStep e _
  · refine Quiet.trans ?_ (Quiet.setStep _ _)
    unfold sendStatus
    split_ifs
    · split
      · exact Quiet.emits e (by simp [Effect.quiet, statusPayload])
      · exact Quiet.halt e
    · exact Quiet.refl e

/-- Entering a view: move, learn the highest certificate, report or wait. -/
lemma acts_enterView {view : ℕ}
    (hlt : e.state.currentView < view) (hreason : EntryReason A e view trigger) :
    Acts d A ⟨e, .idle⟩
      ⟨((e.clearForView trigger).startEpoch d view).enterView d view trigger, .idle⟩ := by
  have hview : ¬ view ≤ ((e.clearForView trigger).startEpoch d view).state.currentView := by
    rw [startEpoch_currentView]
    exact not_le.mpr hlt
  have hmove : Act d A ⟨e, .idle⟩ ⟨e.moveTo d view trigger, .idle⟩ :=
    .move view trigger hlt hreason
  have hsub := subset_moveTo (d := d) e view trigger
  refine .head hmove ?_
  unfold enterView
  cases trigger with
  | genesis => cases hreason
  | doubleCert dc =>
    have hdc : KnownDc (e.moveTo d view (.doubleCert dc)).trace dc := by
      cases hreason with
      | formedDc h _ _ => exact .inr (hsub h)
      | jump h _ _ => exact .inl (hsub h)
    simp only [hview, decide_false, Bool.false_eq_true, if_false]
    refine .head (.raise dc.innerQc hdc.innerQc) (.single ?_)
    rw [show (e.moveTo d view (.doubleCert dc)).mapState (·.updateHighestQc dc.innerQc) = _ from
      congrArg (fun st => { e.moveTo d view (.doubleCert dc) with state := st })
        (ConsensusState.updateHighestQc_withDc
          { ((e.clearForView (.doubleCert dc)).startEpoch d view).state with
            currentView := view
            step := .entered
            role := (e.moveTo d view (.doubleCert dc)).state.role } dc.innerQc (some dc))]
    exact .quiet (quiet_awaitTurn _ _ _)
  | timeoutCert tc =>
    have htc : KnownTc (e.moveTo d view (.timeoutCert tc)).trace tc := by
      cases hreason with
      | timeout h _ => exact h.mono hsub
    simp only [hview, decide_false, Bool.false_eq_true, if_false]
    cases hqc : tc.highestQc with
    | none => exact .single (.quiet (quiet_awaitTurn _ _ _))
    | some qc =>
      exact .head (.raise qc (htc.highestQc hqc)) (.single (.quiet (quiet_awaitTurn _ _ _)))

/-- **`advance_view_to`**. -/
lemma reach_advanceViewTo {view : ℕ}
    (hreason : e.state.currentView < view → EntryReason A e view trigger) :
    Reach d A e (e.advanceViewTo d view trigger) := by
  unfold advanceViewTo
  split_ifs with hle
  · exact Reach.refl e
  · have hlt : e.state.currentView < view := not_le.mp hle
    refine (Reach.of_acts (acts_enterView hlt (hreason hlt))).andThen fun _ => ?_
    refine Reach.head (.single .persist) ?_
    dsimp only
    split_ifs
    · exact Reach.of_act (.push .tryPropose trivial)
    · exact Reach.refl _

end Hotmint
