/-
The epochs that executed blocks announce.

* `announce`: the epoch announced last, after a list of executed blocks and their
  answers; each block with updates makes the next one;
* `RoundApplied.announced`, `executeChain_failed`: the loop of `try_commit` computes
  it, and fails where it is not defined;
* `InForce`: the active epoch is the one announced by a first part of the blocks, and
  only the pending epoch is announced after that;
* `Spaced`, `InTime`: no block makes an epoch while another one is pending, and no
  block makes one too late;
* `ChainApplied.inForce`: **the loop keeps the active epoch in force** for such blocks;
* `Commits.epochs`, `advanceViewTo_epochs`: what a step does to the epochs.
-/
import Hotmint.Proof.Entry

namespace Hotmint

open List ExecState
variable {σ : Type} {d : Deps σ} {app : Application σ}
variable {run : Block × EndBlockResponse} {epoch : Epoch} {x x' : ExecState σ}
variable {first : Epoch} {runs : List (Block × EndBlockResponse)}
variable {block : Block} {err : CommitError} {blocks : List Block} {pending : Option Epoch}
  {view : ℕ}

/-! ### Announced epochs -/

/-- The epoch announced after one more block. -/
def announceOne (epoch : Epoch) (run : Block × EndBlockResponse) : Except ValidatorSetError Epoch :=
  if run.2.validatorUpdates.isEmpty then .ok epoch
  else chainedPendingEpoch epoch none run.1.view run.2.validatorUpdates

/-- The epoch announced last, after the given blocks: each block with updates makes the
next epoch from the one announced before. -/
def announce (epoch : Epoch) (runs : List (Block × EndBlockResponse)) :
    Except ValidatorSetError Epoch :=
  runs.foldlM announceOne epoch

@[simp] lemma announce_nil (epoch : Epoch) : announce epoch [] = .ok epoch := rfl

lemma announce_append
    (h : announce first runs = .ok epoch) (runs' : List (Block × EndBlockResponse)) :
    announce first (runs ++ runs') = announce epoch runs' := by
  unfold announce at h ⊢
  rw [foldlM_append, h]
  rfl

lemma announce_cons
    (h : announceOne first run = .ok epoch) (runs : List (Block × EndBlockResponse)) :
    announce first (run :: runs) = announce epoch runs := by
  unfold announce
  rw [foldlM_cons, h]
  rfl

lemma announceOne_of_nil (h : run.2.validatorUpdates = []) : announceOne epoch run = .ok epoch :=
  if_pos (isEmpty_iff.mpr h)

lemma announceOne_of_updates (h : run.2.validatorUpdates ≠ []) :
    announceOne epoch run = chainedPendingEpoch epoch none run.1.view run.2.validatorUpdates :=
  if_neg fun hempty => h (isEmpty_iff.mp hempty)

/-- The base of the next epoch is the one announced last. -/
lemma chainedPendingEpoch_latest (active : Epoch) (pending : Option Epoch) (view : ℕ)
    (updates : List ValidatorUpdate) : chainedPendingEpoch active pending view updates
      = chainedPendingEpoch (pending.getD active) none view updates :=
  rfl

/-- What a block announces is the pending epoch after it, or the active one. -/
lemma announceOne_latest (active : Epoch) (pending : Option Epoch)
    (run : Block × EndBlockResponse) :
    announceOne (pending.getD active) run
      = (pendingAfter active pending run.1.view run.2.validatorUpdates).map (·.getD active) := by
  unfold announceOne pendingAfter
  split_ifs
  · rfl
  · rw [← chainedPendingEpoch_latest]
    cases chainedPendingEpoch active pending run.1.view run.2.validatorUpdates <;> rfl

namespace ExecState

/-- The epoch announced last, in the loop. -/
def latest (x : ExecState σ) : Epoch := x.pending.getD x.active

/-- Activation announces nothing. -/
lemma latest_activate (x : ExecState σ) (block : Block) : (x.activate block).latest = x.latest := by
  cases hact : x.activates block with
  | false => rw [activate_of_not_activates hact]
  | true =>
    obtain ⟨epoch, hpending, -, heq⟩ := activate_of_activates hact
    rw [heq, latest, latest, hpending]
    rfl

end ExecState

/-- **A round that succeeds** executes its block and announces the next epoch. -/
lemma RoundApplied.announced (h : RoundApplied app x block x') :
    ∃ response, ranBlocks (x'.calls.map .app) = ranBlocks (x.calls.map .app) ++ [(block, response)]
      ∧ announceOne x.latest (block, response) = .ok x'.latest
      ∧ x'.active = (x.activate block).active ∧ x'.previous = (x.activate block).previous
      ∧ pendingAfter (x.activate block).active (x.activate block).pending block.view
        response.validatorUpdates = .ok x'.pending := by
  obtain ⟨response, s, pending, -, hpending, rfl⟩ := h
  refine ⟨response, ?_, ?_, rfl, rfl, hpending⟩
  · simp [advance, ranBlocks_blockCalls]
  have hone := announceOne_latest (x.activate block).active (x.activate block).pending
    (block, response)
  rw [hpending] at hone
  rw [← x.latest_activate block, latest, hone]
  rfl

/-- **The loop fails** at the first block whose updates cannot be applied. -/
lemma executeChain_failed (h : executeChain app x blocks = (.failed err, x')) :
    ∃ runs reason, ranBlocks (x'.calls.map .app) = ranBlocks (x.calls.map .app) ++ runs
      ∧ announce x.latest runs = .error reason := by
  induction blocks generalizing x with
  | nil => cases h
  | cons block blocks ih =>
    rw [executeChain] at h
    split at h
    · next x₁ hround =>
        obtain ⟨response, hran, hone, -⟩ := (executeOne_eq_completed.mp hround).announced
        obtain ⟨runs, reason, hruns, herror⟩ := ih h
        refine ⟨(block, response) :: runs, reason, ?_, ?_⟩
        · rw [hruns, hran, append_assoc]
          rfl
        · rw [announce_cons hone, herror]
    · have hcalls := executeOne_calls app x block
      rw [h] at hcalls
      rw [executeOne_eq] at h
      rcases hblock : executeCommittedBlock app block (x.context block) x.app with
        ⟨_ | response, s, calls⟩
      all_goals rw [hblock] at h hcalls
      · cases h
      obtain ⟨-, rfl⟩ := executeCommittedBlock_eq_some.mp hblock
      unfold conclude at h
      dsimp only at h
      split at h
      · cases h
      · next reason hmade =>
        refine ⟨[(block, response)], reason, ?_, ?_⟩
        · rw [show x'.calls = _ from hcalls, map_append, ranBlocks_append, ranBlocks_blockCalls]
        · have hone := announceOne_latest (x.activate block).active (x.activate block).pending
            (block, response)
          rw [hmade] at hone
          rw [announce, foldlM_cons, ← x.latest_activate block, latest, hone]
          rfl

/-! ### Epochs in force -/

/-- The blocks executed so far put the active epoch in force: it was announced by a
first part of them.  The blocks after that made the pending epoch, if any of them made
one. -/
structure InForce (first : Epoch) (runs : List (Block × EndBlockResponse)) (active : Epoch)
    (pending : Option Epoch) : Prop where
  announced : ∃ done rest, runs = done ++ rest ∧ announce first done = .ok active
    ∧ ∀ run ∈ rest, run.2.validatorUpdates ≠ [] →
      ∃ epoch, pending = some epoch ∧ epoch.startView = run.1.view + 2
  latest : announce first runs = .ok (pending.getD active)

namespace InForce

variable {first active epoch : Epoch} {pending : Option Epoch}
  {runs : List (Block × EndBlockResponse)} {run : Block × EndBlockResponse}

lemma start (first : Epoch) : InForce first [] first none :=
  ⟨⟨[], [], rfl, rfl, by simp⟩, rfl⟩

/-- The pending epoch takes over. -/
lemma started (h : InForce first runs active (some epoch)) : InForce first runs epoch none :=
  ⟨⟨runs, [], (append_nil _).symm, h.latest, by simp⟩, h.latest⟩

/-- A block without updates. -/
lemma quiet (h : InForce first runs active pending) (hrun : run.2.validatorUpdates = []) :
    InForce first (runs ++ [run]) active pending := by
  obtain ⟨done, rest, heq, hdone, hrest⟩ := h.announced
  refine ⟨⟨done, rest ++ [run], by rw [heq, append_assoc], hdone, fun run' hmem hne => ?_⟩, ?_⟩
  · rcases mem_append.mp hmem with hmem | hmem
    · exact hrest run' hmem hne
    · exact absurd (mem_singleton.mp hmem ▸ hrun) hne
  · rw [announce_append h.latest, announce_cons (announceOne_of_nil hrun), announce_nil]

/-- A block with updates, while no epoch is pending. -/
lemma update (h : InForce first runs active none) (hne : run.2.validatorUpdates ≠ [])
    (hmade : chainedPendingEpoch active none run.1.view run.2.validatorUpdates = .ok epoch) :
    InForce first (runs ++ [run]) active (some epoch) := by
  obtain ⟨done, rest, heq, hdone, hrest⟩ := h.announced
  refine ⟨⟨done, rest ++ [run], by rw [heq, append_assoc], hdone, fun run' hmem hne' => ?_⟩, ?_⟩
  · rcases mem_append.mp hmem with hmem | hmem
    · obtain ⟨_, hnone, -⟩ := hrest run' hmem hne'
      cases hnone
    · rw [mem_singleton.mp hmem]
      exact ⟨epoch, rfl, chainedPendingEpoch_startView hmade⟩
  · rw [announce_append h.latest]
    exact announce_cons ((announceOne_of_updates hne).trans hmade) []

end InForce

/-- No block makes an epoch while another one is pending: the given one at first, later
the one that the last block with updates made. -/
def Spaced (pending : Option Epoch) (runs : List (Block × EndBlockResponse)) : Prop :=
  (∀ epoch ∈ pending, ∀ run ∈ runs, run.2.validatorUpdates ≠ [] → epoch.startView ≤ run.1.view)
    ∧ runs.Pairwise fun run run' => run.2.validatorUpdates ≠ [] → run'.2.validatorUpdates ≠ [] →
      run.1.view + 2 ≤ run'.1.view

instance (pending : Option Epoch) (runs : List (Block × EndBlockResponse)) :
    Decidable (Spaced pending runs) :=
  inferInstanceAs (Decidable (_ ∧ _))

/-- No block makes an epoch too late for a node in the given view: its start lies ahead,
or a later block of the list is of the start view or above. -/
def InTime (view : ℕ) : List (Block × EndBlockResponse) → Prop
  | [] => True
  | run :: runs => (run.2.validatorUpdates ≠ [] →
      view < run.1.view + 2 ∨ ∃ run' ∈ runs, run.1.view + 2 ≤ run'.1.view) ∧ InTime view runs

instance InTime.decidable (view : ℕ) :
    (runs : List (Block × EndBlockResponse)) → Decidable (InTime view runs)
  | [] => isTrue trivial
  | _ :: runs =>
    have := InTime.decidable view runs
    inferInstanceAs (Decidable (_ ∧ _))

/-- A pending epoch starts above the view, or one of the blocks to come starts it. -/
def Ahead (view : ℕ) (pending : Option Epoch) (runs : List (Block × EndBlockResponse)) : Prop :=
  ∀ epoch, pending = some epoch →
    view < epoch.startView ∨ ∃ run ∈ runs, epoch.startView ≤ run.1.view

/-- A block that does not start the pending epoch leaves its start ahead. -/
lemma Ahead.of_below (h : Ahead view pending (run :: runs))
    (hbelow : ∀ epoch, pending = some epoch → run.1.view < epoch.startView) :
    Ahead view pending runs := by
  intro epoch hepoch
  rcases h epoch hepoch with hlt | ⟨run', hmem, hle⟩
  · exact .inl hlt
  · rcases mem_cons.mp hmem with rfl | hmem
    · exact absurd hle (not_le.mpr (hbelow epoch hepoch))
    · exact .inr ⟨run', hmem, hle⟩

/-- **One round** keeps the active epoch in force, leaves the next blocks spaced and
the start of the pending epoch ahead. -/
lemma RoundApplied.inForce {before : List (Block × EndBlockResponse)} {response : EndBlockResponse}
    (hactive : x'.active = (x.activate block).active)
    (hpending : pendingAfter (x.activate block).active (x.activate block).pending block.view
      response.validatorUpdates = .ok x'.pending) (hforce : InForce first before x.active x.pending)
    (hspaced : Spaced x.pending ((block, response) :: runs))
    (htime : InTime view ((block, response) :: runs))
    (hahead : Ahead view x.pending ((block, response) :: runs)) :
    InForce first (before ++ [(block, response)]) x'.active x'.pending
      ∧ Spaced x'.pending runs ∧ Ahead view x'.pending runs := by
  obtain ⟨hstart, hpairs⟩ := hspaced
  obtain ⟨hafter, hpairs⟩ := pairwise_cons.mp hpairs
  -- after the activation the epoch is pending no more, or the block is below its start
  obtain ⟨hforce, hahead, hsame, hnone⟩ : InForce first before (x.activate block).active
        (x.activate block).pending
      ∧ Ahead view (x.activate block).pending runs
      ∧ (∀ epoch ∈ (x.activate block).pending, epoch ∈ x.pending)
      ∧ (response.validatorUpdates ≠ [] → (x.activate block).pending = none) := by
    cases hact : x.activates block with
    | false =>
      have hbelow : ∀ epoch, x.pending = some epoch → block.view < epoch.startView := by
        intro epoch hepoch
        unfold activates at hact
        rw [hepoch] at hact
        exact not_le.mp (of_decide_eq_false hact)
      rw [activate_of_not_activates hact]
      refine ⟨hforce, hahead.of_below hbelow, fun _ h => h, fun hne => ?_⟩
      cases hp : x.pending with
      | none => rfl
      | some epoch =>
        have hle := hstart epoch hp _ mem_cons_self hne
        exact absurd hle (not_le.mpr (hbelow epoch hp))
    | true =>
      obtain ⟨epoch, hp, -, heq⟩ := activate_of_activates hact
      rw [heq]
      rw [hp] at hforce
      exact ⟨hforce.started, nofun, nofun, fun _ => rfl⟩
  rw [hactive]
  by_cases hnil : response.validatorUpdates = []
  · rw [hnil] at hpending
    obtain hkept : (x.activate block).pending = x'.pending := Except.ok.inj hpending
    rw [← hkept]
    refine ⟨hforce.quiet hnil, ⟨fun epoch hepoch run hrun => ?_, hpairs⟩, hahead⟩
    exact hstart epoch (hsame epoch hepoch) run (.tail _ hrun)
  · rcases pendingAfter_ok hpending with ⟨hnil', -⟩ | ⟨made, hmade, hp⟩
    · exact absurd hnil' hnil
    rw [hnone hnil] at hforce hmade
    have hview := chainedPendingEpoch_startView hmade
    rw [hp]
    refine ⟨hforce.update hnil hmade, ⟨fun epoch hepoch run hrun hne => ?_, hpairs⟩, ?_⟩
    · cases hepoch
      rw [hview]
      exact hafter run hrun hnil hne
    · intro epoch hepoch
      cases hepoch
      rw [hview]
      exact htime.1 hnil

/-- **The loop keeps the active epoch in force**, and the start of the pending one above
the view. -/
lemma ChainApplied.inForce (h : ChainApplied app x blocks x') :
    ∃ runs, ranBlocks (x'.calls.map .app) = ranBlocks (x.calls.map .app) ++ runs
      ∧ ∀ first before view, InForce first before x.active x.pending → Spaced x.pending runs →
        InTime view runs → Ahead view x.pending runs →
        InForce first (before ++ runs) x'.active x'.pending ∧ Ahead view x'.pending [] := by
  induction h with
  | nil x =>
    refine ⟨[], by simp, fun first before view hforce _ _ hahead => ?_⟩
    rw [append_nil]
    exact ⟨hforce, hahead⟩
  | @cons x x₁ x' block blocks hround _ ih =>
    obtain ⟨response, hran, -, hactive, -, hpending⟩ := hround.announced
    obtain ⟨runs, hruns, hrest⟩ := ih
    refine ⟨(block, response) :: runs, ?_, fun first before view hforce hspaced htime hahead => ?_⟩
    · rw [hruns, hran, append_assoc]
      rfl
    · obtain ⟨hforce, hspaced, hahead⟩ :=
        RoundApplied.inForce hactive hpending hforce hspaced htime hahead
      rw [← singleton_append, ← append_assoc]
      exact hrest first _ view hforce hspaced htime.2 hahead

/-- **A commit that failed** executed nothing, or a block whose updates could not be
applied. -/
lemma tryCommit_err {dc : DoubleCertificate} {store : BlockStore} {s : σ} {lastCommitted : ℕ}
    {currentEpoch : Epoch} {previousEpoch : Option Epoch}
    (h : (tryCommit app dc store s lastCommitted currentEpoch previousEpoch pending).outcome
      = .err err) :
    ((tryCommit app dc store s lastCommitted currentEpoch previousEpoch pending).calls = []
        ∧ ∀ height reason, err ≠ .invalidUpdates height reason)
      ∨ ∃ reason, announce (pending.getD currentEpoch) (ranBlocks ((tryCommit app dc store s
        lastCommitted currentEpoch previousEpoch pending).calls.map .app)) = .error reason := by
  rcases tryCommit_eq app dc store s lastCommitted currentEpoch previousEpoch pending with
    ⟨outcome, houtcome, heq⟩ | ⟨target, blocks, ending, x, -, -, hchain, heq⟩
  · rw [heq] at h ⊢
    obtain rfl : outcome = .err err := h
    rcases houtcome with ⟨err, herr, hother⟩ | hok
    · exact .inl ⟨rfl, CommitOutcome.err.inj herr ▸ hother⟩
    · cases hok
  · rw [heq] at h ⊢
    cases ending with
    | completed | panicked => cases h
    | failed err =>
      obtain ⟨runs, reason, hruns, herror⟩ := executeChain_failed hchain
      refine .inr ⟨reason, ?_⟩
      rw [show ranBlocks (x.calls.map .app) = runs from hruns]
      exact herror

/-- **The part of a step before the view entry**, for a node that goes on: the epochs
stay, and with them the blocks executed, unless the updates of one could not be applied;
or the loop ran, and its epochs are adopted. -/
lemma Commits.epochs {e m : Engine σ} (h : Commits d e m) (halive : m.halted = false) :
    m.state.currentView = e.state.currentView
      ∧ ((m.state.currentEpoch = e.state.currentEpoch ∧ m.pendingEpoch = e.pendingEpoch
          ∧ m.previousEpoch = e.previousEpoch
          ∧ (ranBlocks m.trace = ranBlocks e.trace
            ∨ ∃ runs reason, ranBlocks m.trace = ranBlocks e.trace ++ runs
              ∧ announce (e.pendingEpoch.getD e.state.currentEpoch) runs = .error reason))
        ∨ ∃ lastCommitted s blocks x, ChainApplied d.app
            (.start lastCommitted e.state.currentEpoch e.previousEpoch e.pendingEpoch s) blocks x
          ∧ ranBlocks m.trace = ranBlocks e.trace ++ ranBlocks (x.calls.map .app)
          ∧ m.state.currentEpoch = x.active ∧ m.pendingEpoch = x.pending
          ∧ m.previousEpoch = (x.activated.map fun _ => some e.state.currentEpoch).getD
            e.previousEpoch) := by
  cases h with
  | still h =>
    exact ⟨h.currentView, .inl ⟨h.currentEpoch, h.pendingEpoch, h.previousEpoch, .inl h.ran⟩⟩
  | @refused m₀ _ dc h htried hcurrent hpending hprevious hstop =>
    refine ⟨htried.currentView.trans h.currentView, .inl ⟨hcurrent.trans h.currentEpoch,
      hpending.trans h.pendingEpoch, hprevious.trans h.previousEpoch, ?_⟩⟩
    have hran := htried.ran
    rw [h.ran] at hran
    obtain ⟨err, herr⟩ := hstop.resolve_left (by simp [halive])
    rcases tryCommit_err herr with ⟨hcalls, -⟩ | ⟨reason, herror⟩
    · left
      rw [hran, show (m₀.commitRun d dc).calls = [] from hcalls]
      exact append_nil _
    · refine .inr ⟨_, reason, hran, ?_⟩
      rw [← h.pendingEpoch, ← h.currentEpoch]
      exact herror
  | @adopted m₀ _ dc result h hok hne htried hcurrent hpending hprevious =>
    refine ⟨htried.currentView.trans h.currentView, .inr ?_⟩
    have hran := htried.ran
    rw [h.ran] at hran
    rcases tryCommit_ok hok with ⟨hempty, -⟩ | ⟨target, blocks, x, -, -, happlied, rfl, hrun⟩
    · exact absurd hempty hne
    have hcalls : (m₀.commitRun d dc).calls = x.calls := by
      rw [Engine.commitRun, hrun]
    rw [hcalls] at hran
    rw [h.currentEpoch, h.previousEpoch, h.pendingEpoch] at happlied
    refine ⟨m₀.state.lastCommittedHeight, m₀.app, blocks, x, happlied, hran, ?_, hpending, ?_⟩
    · rw [hcurrent, h.currentEpoch]
      exact happlied.active_eq rfl
    · rw [hprevious, h.currentEpoch, h.previousEpoch]

/-- **Entering a view** starts the pending epoch if it is due. -/
lemma advanceViewTo_epochs (m : Engine σ) (view : ℕ) (trigger : ViewEntryTrigger) :
    m.advanceViewTo d view trigger = m ∨ (m.state.currentView < view
        ∧ (m.advanceViewTo d view trigger).state.currentView = view
        ∧ ranBlocks (m.advanceViewTo d view trigger).trace = ranBlocks m.trace
        ∧ (((m.advanceViewTo d view trigger).state.currentEpoch = m.state.currentEpoch
            ∧ (m.advanceViewTo d view trigger).pendingEpoch = m.pendingEpoch
            ∧ (m.advanceViewTo d view trigger).previousEpoch = m.previousEpoch
            ∧ ∀ epoch, m.pendingEpoch = some epoch → view < epoch.startView)
          ∨ ∃ epoch, m.pendingEpoch = some epoch ∧ epoch.startView ≤ view
            ∧ (m.advanceViewTo d view trigger).state.currentEpoch = epoch
            ∧ (m.advanceViewTo d view trigger).pendingEpoch = none
            ∧ (m.advanceViewTo d view trigger).previousEpoch = some m.state.currentEpoch)) := by
  rcases Housed.advanceViewTo (d := d) m view trigger with ⟨-, heq⟩ | ⟨hlt, hview, hhoused⟩
  · exact .inl heq
  refine .inr ⟨hlt, hview, ?_⟩
  have hran : ∀ effects : List Effect, (∀ effect ∈ effects, effect.calm = true) →
      ranBlocks effects = [] := fun effects hcalm =>
    ranBlocks_eq_nil fun effect hmem => Effect.ran_of_calm (hcalm effect hmem)
  have hcleared : (m.clearForView trigger).pendingEpoch = m.pendingEpoch := rfl
  rcases Engine.startEpoch_eq (d := d) (m.clearForView trigger) view with
    heq | ⟨epoch, app, effects, hpending, hle, hcalm, -, heq⟩
  · have hdue : ∀ epoch, m.pendingEpoch = some epoch → view < epoch.startView := by
      intro epoch hepoch
      by_contra hle
      have hnone : ((m.clearForView trigger).startEpoch d view).pendingEpoch = none := by
        unfold Engine.startEpoch
        rw [hcleared, hepoch]
        dsimp only
        rw [if_pos (not_lt.mp hle)]
        rfl
      rw [heq, hcleared, hepoch] at hnone
      cases hnone
    rw [heq] at hhoused
    exact ⟨hhoused.ran, .inl ⟨hhoused.currentEpoch, hhoused.pendingEpoch, hhoused.previousEpoch,
      hdue⟩⟩
  · rw [heq] at hhoused
    refine ⟨?_, .inr ⟨epoch, hpending, hle, hhoused.currentEpoch, hhoused.pendingEpoch,
      hhoused.previousEpoch⟩⟩
    rw [hhoused.ran, ranBlocks_append, hran effects hcalm, append_nil]
    rfl

end Hotmint
