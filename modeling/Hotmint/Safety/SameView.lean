/-
Nodes in the same view, and their epochs.

* `ChainEpochs.atView_after_append`: blocks that make no epoch before the next view but one
  leave the epoch of a view alone;
* `Engine.Started`: the current epoch has started, by the view or by an executed block;
* `currentEpoch_eq`: **the current epoch is that of the chain at the current view**;
* `Network.Informed`: nodes have executed parts of one chain, and each of them all blocks whose
  updates are due in its view;
* `same_view_same_epoch`: **then nodes in the same view are in the same epoch**;
* `same_view_other_epoch`: a node that enters a view by a timeout certificate, before it learns
  of a commit, is in an older one.
-/
import Hotmint.Safety.Contexts
import Hotmint.Safety.Updates

namespace Hotmint

open Sample Engine List
variable {σ : Type} {d : Deps σ} {app : Application σ}
variable {e : Engine σ} {view : ℕ}
variable {evidence : EvidenceStore} {cfg : NodeConfig}
variable {first : Epoch} {label : Label} {runs runs' : List (Block × EndBlockResponse)} {view' : ℕ}

/-! ### The epoch of a view on a chain -/

namespace ChainEpochs

/-- Views are reached in order. -/
lemma atView_atView (c : ChainEpochs) (h : view ≤ view') :
    (c.atView view).atView view' = c.atView view' := by
  rcases c.atView_cases view with ⟨epoch, hpending, hdue, heq⟩ | ⟨-, heq⟩
  · rw [heq, atView_of_due hpending (hdue.trans h)]
    rfl
  · rw [heq]

variable {first : Epoch} {runs more : List (Block × EndBlockResponse)}
  {run : Block × EndBlockResponse}

/-- A block without updates leaves the epoch of a later view alone. -/
lemma atView_next_of_nil (c : ChainEpochs) (hle : run.1.view ≤ view)
    (hnil : run.2.validatorUpdates = []) : (c.next run).atView view = c.atView view := by
  have hnext : c.next run = c.atView run.1.view :=
    next_of_ok run (by rw [hnil]; rfl)
  rw [hnext, atView_atView c hle]

/-- So does one whose epoch starts above that view. -/
lemma atView_next_of_ahead (c : ChainEpochs) (hle : run.1.view ≤ view) (hlt : view < run.1.view + 2)
    (hdue : ∀ epoch, c.pending = some epoch → epoch.startView ≤ run.1.view) :
    ((c.next run).atView view).active = (c.atView view).active := by
  -- nothing is pending once the block is reached
  have hreached : (c.atView run.1.view).pending = none := by
    rcases c.atView_cases run.1.view with ⟨_, -, -, heq⟩ | ⟨hnot, heq⟩
    · rw [heq]
    · rw [heq]
      by_contra hpending
      obtain ⟨epoch, hepoch⟩ := Option.ne_none_iff_exists'.mp hpending
      exact absurd (hdue epoch hepoch) (not_le.mpr (hnot epoch hepoch))
  have hstays : c.atView view = c.atView run.1.view := by
    rw [← atView_atView c hle]
    exact atView_of_not_due fun epoch hepoch => by
      rw [hreached] at hepoch
      cases hepoch
  have hahead : (c.next run).atView view = c.next run := by
    refine atView_of_not_due fun epoch hepoch => ?_
    rcases next_pending hepoch with hold | ⟨-, hstart⟩
    · rw [hreached] at hold
      cases hold
    · rw [hstart]
      exact hlt
  rw [hahead, hstays, next_active]
  rfl

/-- **Blocks that come too late for a view** leave its epoch alone. -/
lemma atView_after_append (horder : Orderly first (runs ++ more))
    (hle : ∀ run ∈ more, run.1.view ≤ view)
    (hlt : ∀ run ∈ more, run.2.validatorUpdates ≠ [] → view < run.1.view + 2) :
    ((after first (runs ++ more)).atView view).active
      = ((after first runs).atView view).active := by
  induction more using reverseRecOn with
  | nil => rw [append_nil]
  | append_singleton more run ih =>
    have hmem : run ∈ more ++ [run] := mem_append_right _ mem_cons_self
    rw [← append_assoc] at horder ⊢
    rw [after_concat, ← ih horder.left (fun run' h => hle run' (mem_append_left _ h))
      fun run' h => hlt run' (mem_append_left _ h)]
    by_cases hnil : run.2.validatorUpdates = []
    · rw [atView_next_of_nil _ (hle run hmem) hnil]
    · exact atView_next_of_ahead _ (hle run hmem) (hlt run hmem hnil) (horder.due hnil)

end ChainEpochs

/-! ### The current epoch has started -/

/-- An epoch has started in a view or with a block. -/
def Reached (epoch : Epoch) (view : ℕ) (runs : List (Block × EndBlockResponse)) : Prop :=
  epoch.startView ≤ view ∨ ∃ run ∈ runs, epoch.startView ≤ run.1.view

lemma Reached.mono {epoch : Epoch}
    (h : Reached epoch view runs) (hle : view ≤ view') (hruns : runs <+: runs') :
    Reached epoch view' runs' :=
  h.imp (fun hstart => hstart.trans hle) fun ⟨run, hmem, hstart⟩ => ⟨run, hruns.subset hmem, hstart⟩

/-- The active epoch of the loop is the one it started with, or one of its blocks starts it. -/
lemma ChainApplied.reached {x x' : ExecState σ} {blocks : List Block}
    (h : ChainApplied app x blocks x') :
    ∃ runs, ranBlocks (x'.calls.map .app) = ranBlocks (x.calls.map .app) ++ runs
      ∧ (x'.active = x.active ∨ ∃ run ∈ runs, x'.active.startView ≤ run.1.view) := by
  induction h with
  | nil x => exact ⟨[], (append_nil _).symm, .inl rfl⟩
  | @cons x x₁ x' block blocks hround _ ih =>
    obtain ⟨response, hran, -, hactive, -, -⟩ := hround.announced
    obtain ⟨runs, hruns, hrest⟩ := ih
    refine ⟨(block, response) :: runs, by rw [hruns, hran, append_assoc]; rfl, ?_⟩
    rcases hrest with heq | ⟨run, hmem, hstart⟩
    · rw [heq, hactive]
      cases hactivates : x.activates block with
      | false => exact .inl (by rw [x.activate_of_not_activates hactivates])
      | true =>
        obtain ⟨epoch, -, hdue, hnow⟩ := ExecState.activate_of_activates hactivates
        exact .inr ⟨_, .head _, by rw [hnow]; exact hdue⟩
    · exact .inr ⟨run, .tail _ hmem, hstart⟩

/-- The current epoch of a node has started. -/
def Engine.Started (e : Engine σ) : Prop :=
  Reached e.state.currentEpoch e.state.currentView (ranBlocks e.trace)

namespace Engine.Started

variable {e m : Engine σ}

/-- **The part of a step before the view entry.** -/
lemma commits (h : e.Started) (hcommits : Commits d e m) (halive : m.halted = false) :
    m.Started := by
  unfold Started
  obtain ⟨hview, ⟨hcurrent, -, -, hran⟩ | ⟨_, _, _, x, happlied, hran, hcurrent, -, -⟩⟩ :=
    hcommits.epochs halive
  · rw [hview, hcurrent]
    rcases hran with hran | ⟨runs, -, hran, -⟩
    · rw [hran]
      exact h
    · exact h.mono le_rfl ⟨runs, hran.symm⟩
  · obtain ⟨runs, hruns, hactive⟩ := happlied.reached
    have hsame : ranBlocks m.trace = ranBlocks e.trace ++ runs := by
      rw [hran, hruns]
      rfl
    rw [hview, hcurrent, hsame]
    rcases hactive with heq | ⟨run, hmem, hstart⟩
    · rw [heq]
      exact h.mono le_rfl (prefix_append _ _)
    · exact .inr ⟨run, mem_append_right _ hmem, hstart⟩

/-- **Entering a view** starts an epoch only when it is due. -/
lemma advanceViewTo (h : m.Started) (view : ℕ) (trigger : ViewEntryTrigger) :
    (m.advanceViewTo d view trigger).Started := by
  unfold Started
  rcases advanceViewTo_epochs (d := d) m view trigger with
    heq | ⟨hlt, hview, hran, ⟨hcurrent, -⟩ | ⟨epoch, -, hdue, hcurrent, -⟩⟩
  · rwa [heq]
  · rw [hview, hran, hcurrent]
    exact h.mono hlt.le (prefix_refl _)
  · rw [hview, hcurrent]
    exact .inl hdue

/-- **One step.** -/
lemma apply (h : e.Started) (halive : (e.apply d label).halted = false) :
    (e.apply d label).Started := by
  have hends := ends_apply (d := d) e label
  generalize e.apply d label = e' at *
  cases hends with
  | commits hcommits => exact h.commits hcommits halive
  | @entered m hcommits tasks view trigger _ =>
    have hgoes : { m with todo := tasks ++ m.todo }.halted = false :=
      Housed.halted_advanceViewTo halive
    have hm : m.Started := h.commits hcommits hgoes
    have hleft : { m with todo := tasks ++ m.todo }.Started := hm
    exact hleft.advanceViewTo view trigger

end Engine.Started

/-- **In every run** the current epoch has started. -/
lemma RunWhere.started {P : Engine σ → Label → Prop} {app : σ}
    (hrun : RunWhere d P (cfg.launch d [] app evidence) e) (halive : e.halted = false) :
    e.Started := by
  induction hrun with
  | refl =>
    have hfresh := fresh_launch d cfg app evidence
    unfold Engine.Started
    have hview := hfresh.currentView.resolve_right (by rw [halive]; exact Bool.false_ne_true)
    rw [hfresh.currentEpoch, hview]
    exact .inl le_rfl
  | tail _ hstep ih =>
    cases hstep with
    | step henabled _ => exact (ih (not_halted_of_enabled henabled)).apply halive

/-! ### The epoch of a node is that of its chain -/

/-- The updates of the blocks that a step executes come in time for the view. -/
def ExecutesInTime (d : Deps σ) (e : Engine σ) (label : Label) : Prop :=
  InTime e.state.currentView (e.newRuns d label)

instance (d : Deps σ) (e : Engine σ) (label : Label) : Decidable (ExecutesInTime d e label) :=
  inferInstanceAs (Decidable (InTime _ _))

/-- On a chain in order, updates that come in time are timely. -/
lemma ExecutesInTime.timely (h : ExecutesInTime d e label) (hchain : e.OnChain first)
    (horder : Orderly first (ranBlocks (e.apply d label).trace)) : TimelyUpdates d e label := by
  have hran : ranBlocks (e.apply d label).trace = ranBlocks e.trace ++ e.newRuns d label := by
    obtain ⟨effects, heq⟩ := (ends_apply (d := d) e label).grows
    rw [newRuns, ← heq, drop_left, ranBlocks_append]
  rw [hran] at horder
  have hlatest : e.pendingEpoch.getD e.state.currentEpoch
      = (ChainEpochs.after first (ranBlocks e.trace)).latest := by
    rw [ranBlocks_eq_answers]
    exact hchain.latest
  refine ⟨?_, ⟨fun epoch hepoch run hrun hne => ?_, ?_⟩, h⟩
  · have happlied := horder.applied
    rw [announce_append (ChainEpochs.announce_eq_latest horder.left.applied)] at happlied
    rw [hlatest]
    exact happlied
  · -- the pending epoch was made by an executed block
    have hpending : (ChainEpochs.after first (ranBlocks e.trace)).pending = some epoch := by
      rw [ranBlocks_eq_answers]
      cases hchain with
      | same _ hsame => exact hsame.symm.trans hepoch
      | early _ hnone _ _ _ => cases hnone.symm.trans hepoch
    obtain ⟨run', hmem, hne', hstart⟩ := ChainEpochs.after_pending hpending
    rw [hstart]
    exact (pairwise_append.mp horder.spaced.2).2.2 run' hmem run hrun hne' hne
  · exact (pairwise_append.mp horder.spaced.2).2.1

section

variable {app : σ} (hrun : RunWhere d (ExecutesInTime d) (cfg.launch d [] app evidence) e)
  (horder : Orderly (Epoch.genesis cfg.validatorSet) (ranBlocks e.trace))

include hrun horder

/-- **In every run whose blocks are executed in time**, on a chain in order, the pending epoch
starts above the current view. -/
lemma RunWhere.inForce_of_orderly (halive : e.halted = false) :
    UpdatesInForce (Epoch.genesis cfg.validatorSet) e := by
  induction hrun with
  | refl => exact (fresh_launch d cfg app evidence).updatesInForce
  | @tail e₁ _ hrun hstep ih =>
    cases hstep with
    | @step label henabled htime =>
      have hleft : Orderly (Epoch.genesis cfg.validatorSet) (ranBlocks e₁.trace) := by
        obtain ⟨effects, heq⟩ := (ends_apply (d := d) e₁ label).grows
        rw [← heq, ranBlocks_append] at horder
        exact horder.left
      have hchain := (RunWhere.contextInv hrun hleft).onChain (not_halted_of_enabled henabled)
      exact StepWhere.updatesInForce (.step henabled (htime.timely hchain horder)) (ih hleft) halive

/-- **The current epoch is that of the chain at the current view**, for a node that has executed
no block above its view. -/
lemma Engine.currentEpoch_eq (hview : ∀ run ∈ ranBlocks e.trace, run.1.view ≤ e.state.currentView)
    (halive : e.halted = false) :
    e.state.currentEpoch = ((ChainEpochs.after (Epoch.genesis cfg.validatorSet)
      (ranBlocks e.trace)).atView e.state.currentView).active := by
  have hstarted : e.state.currentEpoch.startView ≤ e.state.currentView := by
    rcases RunWhere.started hrun halive with hstart | ⟨run, hmem, hstart⟩
    · exact hstart
    · exact hstart.trans (hview run hmem)
  have hchain := (RunWhere.contextInv hrun horder).onChain halive
  unfold Engine.OnChain at hchain
  rw [← ranBlocks_eq_answers] at hchain
  cases hchain with
  | same hactive hpending =>
    rw [ChainEpochs.atView_of_not_due]
    · exact hactive
    · intro epoch hepoch
      rcases (RunWhere.inForce_of_orderly hrun horder halive).ahead epoch (hpending.trans hepoch)
        with hlt | ⟨_, hnil, -⟩
      · exact hlt
      · cases hnil
  | early hactive _ _ _ _ => rw [ChainEpochs.atView_of_due hactive hstarted]; rfl

end

/-! ### Networks -/

namespace Network

variable {ι : Type} [DecidableEq ι] (N : Network ι σ)

/-- The nodes have executed parts of one chain, which is in order, and no block above their
views.  A block with updates that one of them has executed was executed by every node in a view
in which the updates are due. -/
structure Informed (s : ι → Engine σ) : Prop where
  orderly : ∀ i, Orderly (Epoch.genesis N.validatorSet) (ranBlocks (s i).trace)
  reached : ∀ i, ∀ run ∈ ranBlocks (s i).trace, run.1.view ≤ (s i).state.currentView
  oneChain : ∀ i j, (ranBlocks (s i).trace).map announced <+: (ranBlocks (s j).trace).map announced
    ∨ (ranBlocks (s j).trace).map announced <+: (ranBlocks (s i).trace).map announced
  executed : ∀ i j, ∀ run ∈ ranBlocks (s j).trace, run.2.validatorUpdates ≠ [] →
    run.1.view + 2 ≤ (s i).state.currentView → run.1 ∈ (ranBlocks (s i).trace).map Prod.fst

end Network

/-- **A node that is behind on the chain**, but has executed all blocks whose updates are due, is
in the epoch of the whole chain. -/
lemma Orderly.epoch_of_part
    (horder : Orderly first runs') (hchain : runs.map announced <+: runs'.map announced)
    (hreached : ∀ run ∈ runs', run.1.view ≤ view)
    (hexecuted : ∀ run ∈ runs', run.2.validatorUpdates ≠ [] → run.1.view + 2 ≤ view →
      run.1 ∈ runs.map Prod.fst) : ((ChainEpochs.after first runs).atView view).active
      = ((ChainEpochs.after first runs').atView view).active := by
  -- the part of the longer chain that both have
  obtain ⟨common, ⟨more, rfl⟩, hsame⟩ := prefix_map_iff.mp hchain
  rw [ChainEpochs.after_congr hsame]
  refine (ChainEpochs.atView_after_append horder (fun run hmem =>
    hreached run (mem_append_right _ hmem)) fun run hmem hne => ?_).symm
  by_contra hdue
  -- its block would be on the chain twice
  have hblocks : runs.map Prod.fst = common.map Prod.fst := by
    have hfst := congrArg (map Prod.fst) hsame
    rw [map_map, map_map] at hfst
    exact hfst
  have hblock := hexecuted run (mem_append_right _ hmem) hne (not_lt.mp hdue)
  rw [hblocks] at hblock
  obtain ⟨run', hmem', heq⟩ := mem_map.mp hblock
  have hlt := (pairwise_append.mp horder.increasing).2.2 run' hmem' run hmem
  rw [heq] at hlt
  exact lt_irrefl _ hlt

/-- **Same view, same epoch.**  In every run of a network, for every message order and loss and
every application, in which no step executes updates too late for its node: in every state in
which the nodes are informed, any two of them that run and are in the same view have the same
current epoch and the same validator set. -/
theorem same_view_same_epoch {ι : Type} [DecidableEq ι] (N : Network ι σ) {s : ι → Engine σ}
    (hrun : N.RunWhere (fun i => ExecutesInTime (N.deps i)) s) (hinformed : N.Informed s)
    {i j : ι} (hi : (s i).halted = false) (hj : (s j).halted = false)
    (hview : (s i).state.currentView = (s j).state.currentView) :
    (s i).state.currentEpoch = (s j).state.currentEpoch
      ∧ (s i).state.validatorSet = (s j).state.validatorSet := by
  have hepoch : (s i).state.currentEpoch = (s j).state.currentEpoch := by
    rw [currentEpoch_eq (hrun.node i) (hinformed.orderly i) (hinformed.reached i) hi,
      currentEpoch_eq (hrun.node j) (hinformed.orderly j) (hinformed.reached j) hj, ← hview]
    rcases hinformed.oneChain i j with hchain | hchain
    · refine (hinformed.orderly j).epoch_of_part hchain ?_ (hinformed.executed i j)
      rw [hview]
      exact hinformed.reached j
    · refine ((hinformed.orderly i).epoch_of_part hchain (hinformed.reached i) ?_).symm
      rw [hview]
      exact hinformed.executed j i
  refine ⟨hepoch, ?_⟩
  rw [(hrun.node i).validatorSet_eq, (hrun.node j).validatorSet_eq, hepoch]

section Scripts

open Sample

/-- The leader commits the block of view 1, and enters view 3 by its own timeout certificate. -/
def leaderAhead : List (Move 2) := [.task leader, .task leader, .timeout leader]

/-- The other node follows by the timeout certificate alone. -/
def followedByTimeout : List (Move 2) := leaderAhead ++ [.relay replica leader 6]

/-- The other node follows by the proposal of view 2, with the commit, and then by the timeout
certificate. -/
def followedByProposal : List (Move 2) :=
  leaderAhead ++ [.relay replica leader 0, .relay replica leader 2, .task replica,
    .relay replica leader 6]

end Scripts

/-- Both nodes have executed the block of view 1, and are in view 3 and in epoch 1. -/
theorem same_view_same_epoch_three : (duo [1]).RunWhere (fun i => ExecutesInTime ((duo [1]).deps i))
        (outcome (duo [1]) followedByProposal)
      ∧ (outcome (duo [1]) followedByProposal leader).state.currentEpoch.number = 1
      ∧ (outcome (duo [1]) followedByProposal leader).state.currentEpoch
        = (outcome (duo [1]) followedByProposal replica).state.currentEpoch
      ∧ (outcome (duo [1]) followedByProposal leader).state.validatorSet
        = (outcome (duo [1]) followedByProposal replica).state.validatorSet := by
  have hrun : (duo [1]).RunWhere (fun i => ExecutesInTime ((duo [1]).deps i))
      (outcome (duo [1]) followedByProposal) :=
    runWhere_outcome _ rfl (by decide +kernel)
  have hinformed : (duo [1]).Informed (outcome (duo [1]) followedByProposal) :=
    ⟨by decide +kernel, by decide +kernel, by decide +kernel, by decide +kernel⟩
  exact ⟨hrun, by decide +kernel, same_view_same_epoch _ hrun hinformed (by decide +kernel)
    (by decide +kernel) (by decide +kernel)⟩

/-- All validators are honest, and the application answers with updates at height 1.  The leader
commits the block of view 1 and enters view 3 in epoch 1; the other node enters view 3 by the
timeout certificate of view 2, in epoch 0 and with the validator set of the start. -/
theorem same_view_other_epoch : (duo [1]).Run (outcome (duo [1]) followedByTimeout)
      ∧ (∀ validator ∈ (duo [1]).validatorSet.validators,
        ∃ i, (duo [1]).validatorId i = validator.id)
      ∧ (∀ i, (outcome (duo [1]) followedByTimeout i).halted = false
        ∧ (outcome (duo [1]) followedByTimeout i).state.currentView = 3)
      ∧ (outcome (duo [1]) followedByTimeout leader).state.currentEpoch.number = 1
      ∧ (outcome (duo [1]) followedByTimeout replica).state.currentEpoch.number = 0
      ∧ (outcome (duo [1]) followedByTimeout leader).state.validatorSet
        ≠ (outcome (duo [1]) followedByTimeout replica).state.validatorSet :=
  ⟨run_outcome _ rfl _, by decide +kernel, by decide +kernel, by decide +kernel,
    by decide +kernel, by decide +kernel⟩

end Hotmint
