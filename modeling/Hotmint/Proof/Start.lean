/-
The state a node starts in.

* `start_cases`: the beginning of `run` stops, resumes the restored view, or
  bootstraps view 1 with the genesis certificate;
* `launch_eq`: a start on a data directory, with the checkpoint it writes;
* `forgotten_launch`: what no start restores;
* `Fresh`, `fresh_launch`: the state of a node started on a fresh directory.
-/
import Hotmint.Consensus.Run

namespace Hotmint

open NodeConfig List
variable {σ : Type} {d : Deps σ}

/-! ### The beginning of `run` -/

namespace Engine

/-- What the bootstrap of view 1 makes of an engine. -/
def bootstrapped (step : ViewStep) (role : ViewRole) (tasks : List Task) (e : Engine σ) :
    Engine σ :=
  { e with
    todo := tasks ++ e.todo
    state := { e.state with
      highestQc := some e.genesisQc
      currentView := 1
      step
      role } }

lemma enterGenesisView_eq (e : Engine σ) : ∃ step role tasks,
    (∀ task ∈ tasks, task = Task.tryPropose)
      ∧ e.enterGenesisView d = e.bootstrapped step role tasks := by
  unfold enterGenesisView
  dsimp only
  split_ifs with hleader
  · exact ⟨_, _, [.tryPropose], by simp, rfl⟩
  · exact ⟨_, _, [], by simp, rfl⟩

/-- **The beginning of `run`**: the application disagrees with the consensus
state, or the node is in view 0 or 1 and bootstraps, or it resumes. -/
lemma start_cases (e : Engine σ) : e.start d = e.halt
      ∨ (e.state.currentView ≤ 1 ∧ ∃ step role tasks, (∀ task ∈ tasks, task = Task.tryPropose)
        ∧ e.start d = e.bootstrapped step role tasks)
      ∨ (1 < e.state.currentView ∧ e.start d = e) := by
  unfold start
  dsimp only
  split_ifs with hinfo hview
  · exact .inl rfl
  · exact .inr (.inl ⟨hview, enterGenesisView_eq e⟩)
  · exact .inr (.inr ⟨by omega, rfl⟩)

/-- Counters, votes, wishes, extensions and double certificates are as in a new process. -/
structure Forgotten (e : Engine σ) : Prop where
  livenessTracker : e.livenessTracker = LivenessTracker.new
  voteCollector : e.voteCollector = VoteCollector.new
  pacemaker : e.pacemaker = Pacemaker.new
  extensions : e.state.pendingVoteExtensions = []
  highestDoubleCert : e.state.highestDoubleCert = none

end Engine

namespace NodeConfig

/-- The view `node.rs` restores. -/
def restoredView (trace : List Effect) : ℕ :=
  joinView (Disk.after trace).flushedStore ((Disk.after trace).flushed.lastCommittedHeight.getD 0)
    ((Disk.after trace).flushed.currentView.getD 0)

/-- The effects of the checkpoint before the engine starts. -/
def checkpointEffects (d : Deps σ) (e : Engine σ) : List Effect :=
  if d.hasPersistence then
    [.save (.currentView e.state.currentView),
      .save (.lastCommittedHeight e.state.lastCommittedHeight),
      .save (.currentEpoch e.state.currentEpoch), .save (.lastAppHash e.state.lastAppHash),
      .save (.pendingEpoch e.pendingEpoch), .save (.previousEpoch e.previousEpoch), .flush]
  else []

lemma checkpoint_eq (e : Engine σ) : checkpoint d e = e.emits (checkpointEffects d e) := by
  unfold checkpoint checkpointEffects
  split_ifs with h
  · rfl
  · simp [Engine.emits]

/-- The checkpoint only saves and flushes. -/
lemma mem_checkpointEffects {e : Engine σ} {effect : Effect}
    (h : effect ∈ checkpointEffects d e) : (∃ item, effect = .save item) ∨ effect = .flush := by
  unfold checkpointEffects at h
  split_ifs at h
  · simp only [mem_cons, not_mem_nil, or_false] at h
    rcases h with rfl | rfl | rfl | rfl | rfl | rfl | rfl
    all_goals first
      | exact .inl ⟨_, rfl⟩
      | exact .inr rfl
  · cases h

variable {cfg : NodeConfig} {trace : List Effect} {app : σ} {evidence : EvidenceStore}

/-- The engine `node.rs` hands to `run`. -/
def prepared (d : Deps σ) (cfg : NodeConfig) (trace : List Effect) (app : σ)
    (evidence : EvidenceStore) : Engine σ :=
  (cfg.construct trace app evidence).emits (checkpointEffects d (cfg.construct trace app evidence))

lemma launch_eq : cfg.launch d trace app evidence = (prepared d cfg trace app evidence).start d :=
    by
  rw [launch, checkpoint_eq, prepared]

/-- A node starts with nothing to do, or with a proposal to make. -/
lemma todo_launch {task : Task} (h : task ∈ (cfg.launch d trace app evidence).todo) :
    task = .tryPropose := by
  rw [launch_eq] at h
  rcases (prepared d cfg trace app evidence).start_cases (d := d) with
    heq | ⟨-, step, role, tasks, htasks, heq⟩ | ⟨-, heq⟩
  · rw [heq] at h
    cases h
  · rw [heq] at h
    rcases mem_append.mp h with hmem | hmem
    · exact htasks task hmem
    · cases hmem
  · rw [heq] at h
    cases h

section

variable (d : Deps σ) (cfg : NodeConfig) (trace : List Effect) (app : σ) (evidence : EvidenceStore)

/-- A start writes the checkpoint. -/
lemma launch_trace : (cfg.launch d trace app evidence).trace
      = trace ++ checkpointEffects d (cfg.construct trace app evidence) := by
  rw [launch_eq]
  rcases (prepared d cfg trace app evidence).start_cases (d := d) with
    heq | ⟨-, step, role, tasks, -, heq⟩ | ⟨-, heq⟩
  all_goals
    rw [heq]
    rfl

/-- **What lives in memory only is not restored.** -/
lemma forgotten_launch : (cfg.launch d trace app evidence).Forgotten := by
  rw [launch_eq]
  rcases (prepared d cfg trace app evidence).start_cases (d := d) with
    heq | ⟨-, step, role, tasks, -, heq⟩ | ⟨-, heq⟩
  all_goals
    rw [heq]
    exact ⟨rfl, rfl, rfl, rfl, rfl⟩

/-- A start takes its identity from the configuration. -/
lemma launch_identity :
    (cfg.launch d trace app evidence).state.validatorId = cfg.validatorId
      ∧ (cfg.launch d trace app evidence).state.chainIdHash = cfg.chainIdHash := by
  rw [launch_eq]
  rcases (prepared d cfg trace app evidence).start_cases (d := d) with
    heq | ⟨-, step, role, tasks, -, heq⟩ | ⟨-, heq⟩
  all_goals
    rw [heq]
    exact ⟨rfl, rfl⟩

end

/-- A node that starts is past view 0. -/
lemma view_launch : (cfg.launch d trace app evidence).halted = true
    ∨ 0 < (cfg.launch d trace app evidence).state.currentView := by
  rw [launch_eq]
  rcases (prepared d cfg trace app evidence).start_cases (d := d) with
    heq | ⟨-, step, role, tasks, -, heq⟩ | ⟨hview, heq⟩
  · rw [heq]
    exact .inl rfl
  · rw [heq]
    exact .inr Nat.one_pos
  · rw [heq]
    exact .inr (by omega)

end NodeConfig

/-! ### A fresh data directory -/

/-- The state of a node started on a fresh directory. -/
structure Fresh (cfg : NodeConfig) (e : Engine σ) : Prop where
  validatorId : e.state.validatorId = cfg.validatorId
  chainIdHash : e.state.chainIdHash = cfg.chainIdHash
  validatorSet : e.state.validatorSet = cfg.validatorSet
  currentEpoch : e.state.currentEpoch = Epoch.genesis cfg.validatorSet
  pendingEpoch : e.pendingEpoch = none
  previousEpoch : e.previousEpoch = none
  currentView : e.state.currentView = 1 ∨ e.halted = true
  lockedQc : e.state.lockedQc = none
  highestQc : ∀ qc, e.state.highestQc = some qc → qc.view = 0 ∧ qc.blockHash = BlockHash.genesis
  lastVote1 : e.state.lastVote1 = none
  lastVote2 : e.state.lastVote2 = none
  lastCommittedHeight : e.state.lastCommittedHeight = 0
  store : e.store = BlockStore.new
  voteCollector : e.voteCollector = VoteCollector.new
  pacemaker : e.pacemaker = Pacemaker.new
  currentViewQc : e.currentViewQc = none
  highestDoubleCert : e.state.highestDoubleCert = none
  todo : ∀ task ∈ e.todo, task = Task.tryPropose
  trace : ∀ effect ∈ e.trace, (∃ item, effect = .save item) ∨ effect = .flush
  lastAppHash : e.state.lastAppHash = BlockHash.genesis

/-- **A node started on a fresh directory is fresh.** -/
theorem fresh_launch (d : Deps σ) (cfg : NodeConfig) (app : σ) (evidence : EvidenceStore) :
    Fresh cfg (cfg.launch d [] app evidence) := by
  have htodo : ∀ task ∈ (cfg.launch d [] app evidence).todo, task = Task.tryPropose :=
    fun task => todo_launch
  have htrace : ∀ effect ∈ (prepared d cfg [] app evidence).trace,
      (∃ item, effect = Effect.save item) ∨ effect = .flush := by
    intro effect hmem
    rcases mem_append.mp hmem with hold | hnew
    · cases hold
    · exact mem_checkpointEffects hnew
  rw [launch_eq] at htodo ⊢
  rcases (prepared d cfg [] app evidence).start_cases (d := d) with
    heq | ⟨-, step, role, tasks, -, heq⟩ | ⟨hview, -⟩
  · rw [heq] at htodo ⊢
    exact ⟨rfl, rfl, rfl, rfl, rfl, rfl, .inr rfl, rfl, nofun, rfl, rfl, rfl, rfl, rfl, rfl,
      rfl, rfl, htodo, htrace, rfl⟩
  · rw [heq] at htodo ⊢
    refine ⟨rfl, rfl, rfl, rfl, rfl, rfl, .inl rfl, rfl, fun qc hqc => ?_, rfl, rfl, rfl, rfl,
      rfl, rfl, rfl, rfl, htodo, htrace, rfl⟩
    cases hqc
    exact ⟨rfl, rfl⟩
  · exact absurd hview (by change ¬ 1 < 0; omega)

/-- The first certificate of a fresh node is the canonical genesis one. -/
lemma isGenesisQc_launch (d : Deps σ) (cfg : NodeConfig) (app : σ) (evidence : EvidenceStore)
    {qc : QuorumCertificate} (hqc : (cfg.launch d [] app evidence).state.highestQc = some qc) :
    Keyring.isGenesisQc qc = true := by
  rw [launch_eq] at hqc
  rcases (prepared d cfg [] app evidence).start_cases (d := d) with
    heq | ⟨-, step, role, tasks, -, heq⟩ | ⟨-, heq⟩
  · rw [heq] at hqc
    cases hqc
  · rw [heq] at hqc
    cases hqc
    have hcount : ∀ n, (AggregateSignature.new n).count = 0 := fun n =>
      count_eq_zero.mpr fun hmem => absurd (eq_of_mem_replicate hmem) (by decide)
    change (true && decide ((AggregateSignature.new _).count = 0) && true) = true
    rw [hcount]
    rfl
  · rw [heq] at hqc
    cases hqc

end Hotmint
