/-
What comes with a change of the epoch.

* `EpochStarted`: the network is told, the collectors are emptied, the liveness
  counters are reported and reset;
* `advanceViewTo_epochStarted`: entering a view changes the epoch with all of that;
* `BelowStart`, `ChainApplied.activated_of_below`: a commit whose blocks stay below
  the start of the pending epoch activates nothing;
* `epoch_change_announced`: **so every change of the epoch has its effects, in
  every step whose commit stays below the pending epoch**;
* `epoch_change_silent`: a commit that crosses the start view changes the epoch
  with no effect at all.
-/
import Hotmint.Consensus.Sample
import Hotmint.Proof.Entry
import Hotmint.Safety.Certificates

namespace Hotmint

open Sample List
variable {σ : Type} {d : Deps σ}

/-! ### Entering a view -/

/-- The epoch has started: the report of the liveness counters and the call of
`on_epoch_change` follow the trace of the engine before, and both collectors and the
counters are new. -/
structure EpochStarted (m e' : Engine σ) : Prop where
  announced : m.trace ++ m.epochEffects e'.state.currentEpoch <+: e'.trace
  validatorSet : e'.state.validatorSet = e'.state.currentEpoch.validatorSet
  voteCollector : e'.voteCollector = VoteCollector.new
  pacemaker : e'.pacemaker = Pacemaker.new
  livenessTracker : e'.livenessTracker = LivenessTracker.new

lemma EpochStarted.then {m e e' : Engine σ} (h : EpochStarted m e) (h' : Housed e e') :
    EpochStarted m e' := by
  refine ⟨?_, ?_, h'.voteCollector.trans h.voteCollector, h'.pacemaker.trans h.pacemaker,
    h'.livenessTracker.trans h.livenessTracker⟩
  · rw [h'.currentEpoch]
    exact h.announced.trans h'.grows
  · rw [h'.validatorSet, h'.currentEpoch, h.validatorSet]

/-- **Entering a view** keeps the epoch or starts the pending one. -/
lemma advanceViewTo_epochStarted (m : Engine σ) (view : ℕ) (trigger : ViewEntryTrigger) :
    m.trace <+: (m.advanceViewTo d view trigger).trace
      ∧ ((m.advanceViewTo d view trigger).state.currentEpoch = m.state.currentEpoch
        ∨ EpochStarted m (m.advanceViewTo d view trigger)) := by
  rcases Housed.advanceViewTo (d := d) m view trigger with ⟨-, heq⟩ | ⟨-, -, hhoused⟩
  · rw [heq]
    exact ⟨prefix_refl _, .inl rfl⟩
  rcases Engine.startEpoch_eq (d := d) (m.clearForView trigger) view with
    heq | ⟨epoch, app, effects, -, -, -, rfl, heq⟩
  · rw [heq] at hhoused
    exact ⟨hhoused.grows, .inl hhoused.currentEpoch⟩
  · have hstarted : EpochStarted m ((m.clearForView trigger).startEpoch d view) := by
      rw [heq]
      exact ⟨prefix_refl _, rfl, rfl, rfl, rfl⟩
    refine ⟨?_, .inr (hstarted.then hhoused)⟩
    exact ((prefix_append _ _).trans hstarted.announced).trans hhoused.grows

/-! ### Commits that activate nothing -/

/-- Executed blocks stay below the start of the epoch that is pending when they are:
the given one at first, later the one that the last block with updates made. -/
def BelowStart (pending : Option Epoch) (runs : List (Block × EndBlockResponse)) : Prop :=
  (∀ epoch ∈ pending, ∀ run ∈ runs, run.1.view < epoch.startView)
    ∧ runs.Pairwise fun run run' => run.2.validatorUpdates ≠ [] → run'.1.view < run.1.view + 2

instance (pending : Option Epoch) (runs : List (Block × EndBlockResponse)) :
    Decidable (BelowStart pending runs) :=
  inferInstanceAs (Decidable (_ ∧ _))

lemma BelowStart.sublist {pending : Option Epoch} {runs runs' : List (Block × EndBlockResponse)}
    (h : BelowStart pending runs') (hsub : runs.Sublist runs') : BelowStart pending runs :=
  ⟨fun epoch hepoch run hrun => h.1 epoch hepoch run (hsub.subset hrun), h.2.sublist hsub⟩

/-- **A loop below the start of the pending epoch activates nothing.** -/
lemma ChainApplied.activated_of_below {app : Application σ} {x x' : ExecState σ}
    {blocks : List Block} (h : ChainApplied app x blocks x') :
    ∃ runs, ranBlocks (x'.calls.map .app) = ranBlocks (x.calls.map .app) ++ runs
      ∧ (BelowStart x.pending runs → x'.activated = x.activated) := by
  induction h with
  | nil x => exact ⟨[], by simp, fun _ => rfl⟩
  | @cons x x₁ x' block blocks hround _ ih =>
    obtain ⟨response, s, pending, -, hpending, rfl⟩ := hround
    obtain ⟨runs, hruns, hrest⟩ := ih
    refine ⟨(block, response) :: runs, ?_, fun hbelow => ?_⟩
    · rw [hruns]
      simp [ExecState.advance, ranBlocks_blockCalls]
    obtain ⟨hstart, hpairs⟩ := hbelow
    obtain ⟨hafter, hpairs⟩ := pairwise_cons.mp hpairs
    have hsame : x.activate block = x := by
      refine ExecState.activate_of_not_activates (Bool.eq_false_iff.mpr fun hactivates => ?_)
      obtain ⟨epoch, hepoch, hle, -⟩ := ExecState.activate_of_activates hactivates
      have hlt := hstart epoch hepoch _ mem_cons_self
      exact absurd hle (not_le.mpr hlt)
    have hkeep : (x.advance app block response s pending).activated = x.activated := by
      unfold ExecState.advance
      rw [hsame]
    rw [hsame] at hpending
    refine (hrest ⟨fun epoch hepoch run hrun => ?_, hpairs⟩).trans hkeep
    -- the pending epoch is the old one, or starts two views after this block
    by_cases hempty : response.validatorUpdates = []
    · rw [hempty] at hpending
      obtain rfl := Except.ok.inj hpending
      exact hstart epoch hepoch run (.tail _ hrun)
    · rcases pendingAfter_ok hpending with ⟨hnone, -⟩ | ⟨made, hmade, rfl⟩
      · exact absurd hnone hempty
      · cases hepoch
        rw [chainedPendingEpoch_startView hmade]
        exact hafter run hrun hempty

/-- The commit of a step executes blocks below the start of the pending epoch only. -/
def CommitsBelowStart (d : Deps σ) (e : Engine σ) (label : Label) : Prop :=
  BelowStart e.pendingEpoch (ranBlocks ((e.apply d label).trace.drop e.trace.length))

instance (d : Deps σ) (e : Engine σ) (label : Label) : Decidable (CommitsBelowStart d e label) :=
  inferInstanceAs (Decidable (BelowStart _ _))

/-- A commit below the start activates nothing. -/
lemma activatedEpoch_of_below {e m₀ m : Engine σ} {dc : DoubleCertificate} {result : CommitResult}
    (h : Still e m₀) (hok : (m₀.commitRun d dc).outcome = .ok result) (htried : Tried d m₀ dc m)
    {effects : List Effect} (htrace : m.trace <+: e.trace ++ effects)
    (hbelow : BelowStart e.pendingEpoch (ranBlocks effects)) : result.activatedEpoch = none := by
  rcases tryCommit_ok hok with ⟨-, hnone, -⟩ | ⟨_, blocks, x, -, -, happlied, rfl, hrun⟩
  · exact hnone
  obtain ⟨runs, hruns, hactivated⟩ := happlied.activated_of_below
  refine hactivated ?_
  -- the callbacks of the commit are among the effects of the step
  have hcalls : (m₀.commitRun d dc).calls = x.calls := by
    rw [Engine.commitRun, hrun]
  obtain ⟨before, hbefore, -⟩ := h.trace
  obtain ⟨after, hafter⟩ := htried.grows.trans htrace
  rw [hcalls, hbefore, append_assoc, append_assoc] at hafter
  have heffects := append_cancel_left hafter
  have hpending : (ExecState.start m₀.state.lastCommittedHeight m₀.state.currentEpoch
      m₀.previousEpoch m₀.pendingEpoch m₀.app).pending = e.pendingEpoch := h.pendingEpoch
  rw [hpending]
  refine hbelow.sublist ?_
  rw [← heffects, show runs = ranBlocks (x.calls.map .app) from hruns.symm]
  simp only [ranBlocks_append]
  exact (sublist_append_left _ _).trans (sublist_append_right _ _)

/-- A part of a step that commits below the start keeps the epoch. -/
lemma Commits.currentEpoch_eq {e m : Engine σ} (h : Commits d e m) {effects : List Effect}
    (htrace : m.trace <+: e.trace ++ effects)
    (hbelow : BelowStart e.pendingEpoch (ranBlocks effects)) :
    m.state.currentEpoch = e.state.currentEpoch := by
  cases h with
  | still h => exact h.currentEpoch
  | refused h _ hcurrent _ _ _ => exact hcurrent.trans h.currentEpoch
  | adopted h hok _ htried hcurrent _ _ =>
    rw [hcurrent, h.currentEpoch, activatedEpoch_of_below h hok htried htrace hbelow,
      Option.getD_none]

/-- A step that changes the epoch, without a commit that crosses the start view, ends
by entering a view from an engine still in the old epoch. -/
lemma StepWhere.epochStarted {e e' : Engine σ} (hstep : StepWhere d (CommitsBelowStart d) e e')
    (hchange : e'.state.currentEpoch ≠ e.state.currentEpoch) :
    ∃ m view trigger, e' = m.advanceViewTo d view trigger ∧ e.trace <+: m.trace
      ∧ m.state.currentEpoch = e.state.currentEpoch ∧ EpochStarted m e' := by
  cases hstep with
  | @step label henabled hbelow =>
    have hends := ends_apply (d := d) e label
    unfold CommitsBelowStart at hbelow
    generalize e.apply d label = e' at *
    have hkept : ∀ m, Commits d e m → m.trace <+: e'.trace →
        m.state.currentEpoch = e.state.currentEpoch := by
      intro m hm hprefix
      obtain ⟨effects, heq⟩ := hm.grows.trans hprefix
      rw [← heq, drop_left] at hbelow
      exact hm.currentEpoch_eq (heq ▸ hprefix) hbelow
    cases hends with
    | commits h => exact absurd (hkept _ h (prefix_refl _)) hchange
    | @entered m h tasks view trigger _ =>
      obtain ⟨htrace, hsame | hstarted⟩ :=
        advanceViewTo_epochStarted (d := d) { m with todo := tasks ++ m.todo } view trigger
      · exact absurd (hsame.trans (hkept m h htrace)) hchange
      · exact ⟨_, view, trigger, rfl, h.grows, hkept m h htrace, hstarted⟩

/-- **Every epoch change is announced.**  In every run whose commits stay below the
start of the pending epoch, each step that changes the current epoch does so by
entering a view from an engine still in the old epoch; `on_epoch_change` has been
called with the new epoch and its set, after the report of that engine's liveness
counters, and both collectors and the counters are empty at the end of the step. -/
theorem epoch_change_announced (d : Deps σ) (cfg : NodeConfig) (trace : List Effect) (app : σ)
    (evidence : EvidenceStore) {e e' : Engine σ}
    (_hrun : RunWhere d (CommitsBelowStart d) (cfg.launch d trace app evidence) e)
    (hstep : StepWhere d (CommitsBelowStart d) e e')
    (hchange : e'.state.currentEpoch ≠ e.state.currentEpoch) :
    ∃ m view trigger, e' = m.advanceViewTo d view trigger ∧ e.trace <+: m.trace
      ∧ m.state.currentEpoch = e.state.currentEpoch ∧ EpochStarted m e' :=
  hstep.epochStarted hchange

/-! The validator of power 3 commits its block of view 1 at once.  Its block of view 2
is certified but not committed, since the other validator leads view 3 and stays
silent; the node gets to view 4 by timeouts and commits both blocks there. -/

/-- The node, when it answers with updates at height 1. -/
def updating : Deps Unit := (solo (updatesAt [1])).deps only

/-- Its first state. -/
def updatingStart : Engine Unit := (solo (updatesAt [1])).init only

/-- It has committed the block of view 1, and proposed in view 2. -/
def beforeStart : Engine Unit :=
  (updatingStart.apply updating (.task env)).apply updating (.task env)

theorem epoch_change_announced_timeout :
    RunWhere updating (CommitsBelowStart updating) updatingStart beforeStart
      ∧ ∃ m view trigger, beforeStart.apply updating .timeout
          = m.advanceViewTo updating view trigger
        ∧ beforeStart.trace <+: m.trace ∧ m.state.currentEpoch = beforeStart.state.currentEpoch
        ∧ EpochStarted m (beforeStart.apply updating .timeout) := by
  have hrun : RunWhere updating (CommitsBelowStart updating) updatingStart beforeStart :=
    .tail (.single (.step (by decide +kernel) (by decide +kernel)))
      (.step (by decide +kernel) (by decide +kernel))
  have hnumber : beforeStart.state.currentEpoch.number = 0
      ∧ (beforeStart.apply updating .timeout).state.currentEpoch.number = 1 := by decide +kernel
  refine ⟨hrun, epoch_change_announced updating ((solo (updatesAt [1])).config 0) []
    () .empty hrun (.step (by decide +kernel) (by decide +kernel)) fun heq => ?_⟩
  rw [heq, hnumber.1] at hnumber
  exact absurd hnumber.2 (by decide)

/-- The node in view 4, before it proposes. -/
def beforeCrossing : Fin 1 → Engine Unit :=
  outcome (solo (updatesAt [2])) [.task only, .task only, .timeout only, .timeout only]

/-- The node after its block of view 4 was committed, together with the one of view 2,
whose execution returned updates. -/
def afterCrossing : Engine Unit :=
  (beforeCrossing only).apply ((solo (updatesAt [2])).deps only) (.task env)

/-- The effects of an epoch change. -/
def Effect.announces : Effect → Bool
  | .onEpochChange _ _ => true
  | .app (.onOfflineValidators _) => true
  | _ => false

/-- Epoch 1 becomes current in a commit: the network is never told, and the liveness
counters are neither reported nor reset. -/
theorem epoch_change_silent : (solo (updatesAt [2])).FaultBound [1]
    ∧ (solo (updatesAt [2])).Run beforeCrossing
    ∧ StepWhere ((solo (updatesAt [2])).deps 0) (fun _ _ => True) (beforeCrossing 0) afterCrossing
    ∧ (beforeCrossing 0).state.currentEpoch.number = 0 ∧ afterCrossing.state.currentEpoch.number = 1
    ∧ (∀ effect ∈ afterCrossing.trace, effect.announces = false)
    ∧ afterCrossing.livenessTracker.totalCommits ≠ LivenessTracker.new.totalCommits :=
  ⟨⟨by decide +kernel, by decide +kernel⟩, run_outcome _ rfl _,
    .step (by decide +kernel) trivial, by decide +kernel, by decide +kernel, by decide +kernel,
    by decide +kernel⟩

end Hotmint
