/-
Exactly-once execution: the heights passed to `execute_block` are 1, 2, 3, … in
every crash-free run in which all validator updates can be applied.

* `ranHeight`, `ranHeights`: the heights a trace has executed;
* `executions`: the blocks themselves with their contexts;
* `ChainRun.executed_take`, `ChainRun.heights`: the execution loop runs consecutive heights
  and counts each of them, except for one at which it stops;
* `RanInv`, `RanInv.act`: what is counted is what was executed, in every state;
* `execution_exactly_once`: **so no height is executed twice**;
* `execution_repeated`: a block whose updates cannot be applied is executed, not
  counted, and executed again by the next commit.
-/
import Hotmint.Consensus.Sample
import Hotmint.Proof.Durable

namespace Hotmint

open Sample Engine List Effect
variable {σ : Type} {d : Deps σ} {A : Allowance}
variable {app : Application σ} {effect : Effect} {ending : ExecEnd} {x x' : ExecState σ}
  {y : Flow σ} {blocks : List Block} {effects : List Effect}

/-! ### The heights of a trace -/

/-- The height an effect executes. -/
def Effect.ranHeight : Effect → Option ℕ
  | .app (.executeBlock block _ _) => some block.height
  | _ => none

/-- The heights a trace has executed, in order. -/
def ranHeights (trace : List Effect) : List ℕ := trace.filterMap ranHeight

@[simp] lemma ranHeights_append (t t' : List Effect) :
    ranHeights (t ++ t') = ranHeights t ++ ranHeights t' :=
  filterMap_append

lemma ranHeights_eq_nil
    (h : ∀ effect ∈ effects, effect.ranHeight = none) : ranHeights effects = [] := by
  simpa [ranHeights, filterMap_eq_nil_iff] using h

lemma ranHeights_persistEffects (e : Engine σ) : ranHeights (e.persistEffects d) = [] := by
  refine ranHeights_eq_nil fun effect hmem => ?_
  rcases mem_persistEffects hmem with ⟨item, rfl⟩ | rfl <;> rfl

/-- The block and context of an effect that executes one. -/
def Effect.execution : Effect → Option (Block × BlockContext)
  | .app call => call.executed
  | _ => none

/-- The blocks a trace has executed with their contexts, in order. -/
def executions (trace : List Effect) : List (Block × BlockContext) :=
  trace.filterMap execution

@[simp] lemma executions_append (t t' : List Effect) :
    executions (t ++ t') = executions t ++ executions t' :=
  filterMap_append

lemma executions_calls (calls : List AppCall) : executions (calls.map .app) = executed calls :=
  filterMap_map

lemma ranHeights_eq (trace : List Effect) :
    ranHeights trace = (executions trace).map (·.1.height) := by
  unfold ranHeights executions
  rw [map_filterMap]
  congr 1
  funext effect
  cases effect with
  | app call => cases call <;> rfl
  | _ => rfl

/-- The blocks among the effects of a commit. -/
lemma executions_commit (dc : DoubleCertificate) (calls : List AppCall) (outcome : CommitOutcome) :
    executions (.tryCommit dc :: calls.map .app ++ failureEffects outcome) = executed calls := by
  have hfail : executions (failureEffects outcome) = [] := by cases outcome <;> rfl
  rw [executions_append, hfail, append_nil, ← executions_calls]
  rfl

/-- The heights among the effects of a commit. -/
lemma ranHeights_commit (dc : DoubleCertificate) (calls : List AppCall) (outcome : CommitOutcome) :
    ranHeights (.tryCommit dc :: calls.map .app ++ failureEffects outcome)
      = (executed calls).map (·.1.height) := by
  rw [ranHeights_eq, executions_commit]

section

variable (h : ChainRun app x blocks ending x')
  (hblocks : blocks.map (·.height) = range' (x.lastCommittedHeight + 1) blocks.length)

include h hblocks

/-- The loop runs the first of its blocks, and has counted all that it ran, or all but the
last where it stopped. -/
lemma ChainRun.executed_take : ∃ n ≤ blocks.length, (executed x'.calls).map (·.1)
        = (executed x.calls).map (·.1) ++ blocks.take n
      ∧ (ending = .completed → n = blocks.length)
      ∧ ((x'.lastCommittedHeight = x.lastCommittedHeight + n ∧ ∀ err, ending ≠ .failed err)
        ∨ (ending ≠ .completed
          ∧ ∃ m, n = m + 1 ∧ x'.lastCommittedHeight = x.lastCommittedHeight + m)) := by
  induction h with
  | done x => exact ⟨0, le_rfl, by simp, fun _ => rfl, .inl ⟨rfl, by simp⟩⟩
  | @stop x x' block blocks ending hround hstop =>
    cases hround with
    | completed _ _ _ _ _ _ _ _ => exact absurd rfl hstop
    | failed hcalls hlast =>
      exact ⟨1, by simp, by simp [hcalls], fun hend => absurd hend hstop,
        .inr ⟨hstop, 0, rfl, hlast⟩⟩
    | panicked hcalls hlast =>
      rcases hcalls with hcalls | hcalls
      · exact ⟨0, by simp, by simp [hcalls], fun hend => absurd hend hstop,
          .inl ⟨by rw [hlast]; rfl, by simp⟩⟩
      · exact ⟨1, by simp, by simp [hcalls], fun hend => absurd hend hstop,
          .inr ⟨hstop, 0, rfl, hlast⟩⟩
  | @next x x₁ x' block blocks ending hround _ ih =>
    rw [map_cons, length_cons, range'_succ] at hblocks
    obtain ⟨hheight, hrest⟩ := cons.inj hblocks
    cases hround with
    | completed _ hcalls hlast _ _ _ _ _ =>
      rw [hlast, hheight] at ih
      obtain ⟨n, hle, hran, hall, hcount⟩ := ih hrest
      refine ⟨n + 1, Nat.succ_le_succ hle, ?_, fun hend => by rw [hall hend]; rfl, ?_⟩
      · rw [hran, hcalls]
        simp
      · rcases hcount with ⟨hcount, hend⟩ | ⟨hstop, m, rfl, hcount⟩
        · exact .inl ⟨by omega, hend⟩
        · exact .inr ⟨hstop, m + 1, rfl, by omega⟩

/-- The loop runs consecutive heights. -/
lemma ChainRun.heights : ∃ n, (executed x'.calls).map (·.1.height)
        = (executed x.calls).map (·.1.height) ++ range' (x.lastCommittedHeight + 1) n
      ∧ (x'.lastCommittedHeight = x.lastCommittedHeight + n
        ∨ (ending ≠ .completed ∧ x'.lastCommittedHeight + 1 = x.lastCommittedHeight + n)) := by
  obtain ⟨n, hle, hran, -, hcount⟩ := h.executed_take hblocks
  refine ⟨n, ?_, hcount.imp And.left fun ⟨hstop, m, hn, hlast⟩ => ⟨hstop, by omega⟩⟩
  have hheights := congrArg (map (·.height)) hran
  rw [map_append, map_take, hblocks, take_range'_of_length_ge hle, map_map, map_map] at hheights
  exact hheights

end

/-- The loop fails at updates that cannot be applied only. -/
lemma ChainRun.failed (h : ChainRun app x blocks ending x') {err : CommitError}
    (hend : ending = .failed err) : ∃ height reason, err = .invalidUpdates height reason := by
  induction h with
  | done x => cases hend
  | stop hround hstop =>
    subst hend
    cases hround with
    | failed _ _ => exact ⟨_, _, rfl⟩
  | next _ _ ih => exact ih hend

/-- **A commit runs consecutive heights** from the committed one on, and has counted
all of them unless it stopped at the last. -/
lemma Engine.commitRun_heights (e : Engine σ) (dc : DoubleCertificate) :
    ∃ n, (executed (e.commitRun d dc).calls).map (·.1.height)
        = range' (e.state.lastCommittedHeight + 1) n
      ∧ ((e.commitRun d dc).lastCommittedHeight = e.state.lastCommittedHeight + n
        ∨ ((e.commitRun d dc).lastCommittedHeight + 1 = e.state.lastCommittedHeight + n
          ∧ ((e.commitRun d dc).outcome = .panic
            ∨ ∃ height reason, (e.commitRun d dc).outcome = .err
            (.invalidUpdates height reason)))) := by
  cases e.commitTrace d dc with
  | nothing hcalls hheight _ => exact ⟨0, by simp [hcalls], .inl hheight⟩
  | @chain target blocks ending x _ hwalk hchain houtcome hcalls hheight =>
    obtain ⟨n, hran, hcount⟩ := hchain.heights hwalk.heights.1
    refine ⟨n, by rw [hcalls, hran]; rfl, ?_⟩
    rw [hheight]
    rcases hcount with hcount | ⟨hstop, hcount⟩
    · exact .inl hcount
    · refine .inr ⟨hcount, ?_⟩
      rw [houtcome]
      cases ending with
      | completed => exact absurd rfl hstop
      | panicked => exact .inl rfl
      | failed err =>
        obtain ⟨height, reason, rfl⟩ := hchain.failed rfl
        exact .inr ⟨height, reason, rfl⟩

/-! ### Every act -/

/-- Some block's updates could not be applied. -/
def RejectedUpdates (trace : List Effect) : Prop :=
  ∃ height reason, commitFailed (.invalidUpdates height reason) ∈ trace

/-- What is counted was executed, in order; one more height may have been executed
when a callback panicked. -/
def RanInv (x : Flow σ) : Prop :=
  RejectedUpdates x.engine.trace
    ∨ ranHeights x.engine.trace = range' 1 x.engine.state.lastCommittedHeight
    ∨ (x.phase = .dead
      ∧ ranHeights x.engine.trace = range' 1 (x.engine.state.lastCommittedHeight + 1))

/-- The phases that an act outside of `try_commit` goes through. -/
def Phase.Advances (φ ψ : Phase) : Prop :=
  ψ = φ ∨ (∃ result, φ = .executed result ∧ ψ = .adopted result)
    ∨ ∃ result, φ = .adopted result ∧ ψ = .idle

/-- Neither an execution nor a first vote. -/
def Effect.aside : Effect → Bool
  | .app (.executeBlock _ _ _) => false
  | .signVote1 _ _ _ _ => false
  | _ => true

lemma Effect.aside_of_free (h : effect.free = true) : effect.aside = true := by
  cases effect with
  | app call => cases call <;> first | rfl | cases h
  | signVote1 => cases h
  | _ => rfl

lemma Effect.aside_of_stored (h : effect.stored = true) : effect.aside = true := by
  cases effect <;> first | rfl | cases h

lemma Effect.ranHeight_of_aside (h : effect.aside = true) : effect.ranHeight = none := by
  cases effect with
  | app call => cases call <;> first | rfl | cases h
  | _ => rfl

/-- What an act outside of `try_commit` does: it executes nothing, and first votes are for blocks
with the state root of the node. -/
structure Outside (d : Deps σ) (x y : Flow σ) (effects : List Effect) : Prop where
  ran : ranHeights effects = []
  lastCommittedHeight : y.engine.state.lastCommittedHeight = x.engine.state.lastCommittedHeight
  lastAppHash : y.engine.state.lastAppHash = x.engine.state.lastAppHash
  phase : x.phase.Advances y.phase
  vote1 : ∀ vote block justify locked, Effect.signVote1 vote block justify locked ∈ effects →
    x.phase ≠ .dead
      ∧ (d.app.tracksAppHash x.engine.app = true → block.appHash = x.engine.state.lastAppHash)

/-- What `try_commit` does. -/
structure InCommit (d : Deps σ) (dc : DoubleCertificate) (x y : Flow σ) (effects : List Effect) :
    Prop where
  idle : x.phase = .idle
  phase : y.phase = phaseAfter (x.engine.commitRun d dc).outcome
  lastCommittedHeight : y.engine.state.lastCommittedHeight
    = (x.engine.commitRun d dc).lastCommittedHeight
  lastAppHash : y.engine.state.lastAppHash
    = rootAfter x.engine.state.lastAppHash (x.engine.commitRun d dc).outcome
  store : y.engine.store = x.engine.store
  effects : effects = .tryCommit dc :: (x.engine.commitRun d dc).calls.map .app
    ++ failureEffects (x.engine.commitRun d dc).outcome

lemma Outside.of_aside {x : Flow σ} (h : ∀ effect ∈ effects, effect.aside = true)
    (hheight : y.engine.state.lastCommittedHeight = x.engine.state.lastCommittedHeight)
    (hroot : y.engine.state.lastAppHash = x.engine.state.lastAppHash)
    (hphase : x.phase.Advances y.phase) : Outside d x y effects where
  ran := ranHeights_eq_nil fun effect hmem => Effect.ranHeight_of_aside (h effect hmem)
  lastCommittedHeight := hheight
  lastAppHash := hroot
  phase := hphase
  vote1 vote block justify locked hmem := by cases h _ hmem

/-- **An act is outside of `try_commit` or is one.** -/
lemma DiskAct.outside_or_commit {x : Flow σ}
    (h : DiskAct d A x y effects) : Outside d x y effects ∨ ∃ dc, InCommit d dc x y effects := by
  have hslot : ∀ {t view hash}, ∀ effect ∈ slotEffects d t view hash,
      effect.aside = true := fun _ h => Effect.aside_of_stored (stored_slotEffects h)
  have hpersist : ∀ {e : Engine σ}, ∀ effect ∈ e.persistEffects d, effect.aside = true :=
    fun _ h => Effect.aside_of_stored (stored_persistEffects h)
  have hunlog : ∀ {env height}, ∀ effect ∈ unlogEffects d env height,
      effect.aside = true := fun _ h => Effect.aside_of_stored (stored_unlogEffects h)
  cases h with
  | free hfree _ _ hheight hphase hroot =>
    exact .inl (.of_aside (fun effect hmem => Effect.aside_of_free (hfree effect hmem)) hheight
      hroot (hphase.imp id .inl))
  | vote1 vote block justify htracked hphase halive =>
    cases htracked with
    | vote1 _ _ _ _ _ hengine _ _ _ hroot =>
      refine .inl ⟨?_, by rw [hengine], by rw [hengine], .inl hphase, ?_⟩
      · rw [ranHeights_append, ranHeights_eq_nil fun effect hmem =>
          Effect.ranHeight_of_aside (hslot effect hmem)]
        rfl
      · intro vote' block' justify' locked' hmem
        rcases mem_append.mp hmem with hmem | hmem
        · cases hslot _ hmem
        · obtain ⟨-, rfl, -, -⟩ := Effect.signVote1.inj (mem_singleton.mp hmem)
          exact ⟨halive, hroot⟩
  | vote2 vote qc htracked hphase =>
    cases htracked with
    | vote2 _ _ _ _ _ hengine _ _ _ =>
      exact .inl (.of_aside (forall_mem_append.mpr ⟨hslot, forall_mem_singleton.mpr rfl⟩)
        (by rw [hengine]) (by rw [hengine]) (.inl hphase))
  | release1 vote effect heffect _ _ hstate hphase =>
    refine .inl (.of_aside (forall_mem_singleton.mpr ?_) (by rw [hstate])
      (by rw [hstate]) (.inl hphase))
    rcases heffect with rfl | ⟨leader, rfl⟩ <;> rfl
  | release2 vote effect heffect _ _ _ hstate hphase _ =>
    refine .inl (.of_aside (forall_mem_append.mpr
      ⟨hpersist, forall_mem_singleton.mpr ?_⟩) (by rw [hstate]) (by rw [hstate])
      (.inl hphase))
    rcases heffect with rfl | ⟨leader, rfl⟩ <;> rfl
  | persist hstate hphase _ =>
    exact .inl (.of_aside hpersist (by rw [hstate]) (by rw [hstate]) (.inl hphase))
  | saved env hstate hphase hphase' =>
    obtain ⟨result, hphase⟩ := hphase
    exact .inl (.of_aside (forall_mem_append.mpr ⟨hpersist, hunlog⟩) (by rw [hstate])
      (by rw [hstate]) (.inr (.inr ⟨result, hphase, hphase'⟩)))
  | intent height hstate hidle hphase =>
    exact .inl (.of_aside (by simp [Effect.aside]) (by rw [hstate]) (by rw [hstate])
      (.inl (hphase.trans hidle.symm)))
  | unlog env height hstate hidle hphase =>
    exact .inl (.of_aside hunlog (by rw [hstate]) (by rw [hstate]) (.inl (hphase.trans hidle.symm)))
  | commit dc _ _ _ _ hheight hidle hphase hstore hroot =>
    exact .inr ⟨dc, hidle, hphase, hheight, hroot, hstore, rfl⟩

/-- A stopped engine stays stopped. -/
lemma Phase.Advances.dead {φ ψ : Phase} (h : φ.Advances ψ) (hdead : φ = .dead) : ψ = .dead := by
  rcases h with heq | ⟨result, hexecuted, -⟩ | ⟨result, hadopted, -⟩
  · exact heq.trans hdead
  · rw [hdead] at hexecuted
    cases hexecuted
  · rw [hdead] at hadopted
    cases hadopted

/-- **Every act keeps the heights in order.** -/
lemma RanInv.act {x : Flow σ} (h : Act d A x y) (hx : RanInv x) : RanInv y := by
  obtain ⟨effects, heq, hdisk⟩ := h.disk
  rcases hx with ⟨height, reason, hrejected⟩ | hx
  · exact .inl ⟨height, reason, h.trace_grows.subset hrejected⟩
  · rcases hdisk.outside_or_commit with
      ⟨hnone, hheight, -, hphase, -⟩ | ⟨dc, hidle, hphase, hheight, -, -, heffects⟩
    · right
      rw [heq, ranHeights_append, hnone, append_nil, hheight]
      exact hx.imp id fun hstop => ⟨hphase.dead hstop.1, hstop.2⟩
    · have hran : ranHeights x.engine.trace = range' 1 x.engine.state.lastCommittedHeight := by
        rcases hx with hran | ⟨hdead, -⟩
        · exact hran
        · rw [hidle] at hdead
          cases hdead
      obtain ⟨n, hcalls, hcount⟩ := x.engine.commitRun_heights (d := d) dc
      -- the new heights continue the old ones
      have hall : ranHeights y.engine.trace
          = range' 1 (x.engine.state.lastCommittedHeight + n) := by
        rw [heq, heffects, ranHeights_append, ranHeights_commit, hran, hcalls, Nat.add_comm _ 1,
          range'_append_1]
      rcases hcount with hcount | ⟨hcount, hpanic | ⟨height, reason, hrejected⟩⟩
      · right
        left
        rw [hall, hheight, hcount]
      · right
        right
        refine ⟨?_, ?_⟩
        · rw [hphase, hpanic]
          rfl
        · rw [hall, hheight, hcount]
      · left
        refine ⟨height, reason, ?_⟩
        rw [heq, heffects, hrejected]
        simp [failureEffects]

/-! ### Every run -/

lemma Fresh.ranInv {cfg : NodeConfig} {e : Engine σ} (h : Fresh cfg e) : RanInv ⟨e, .idle⟩ := by
  have hran : ranHeights e.trace = [] := by
    refine ranHeights_eq_nil fun effect hmem => ?_
    rcases h.trace effect hmem with ⟨item, rfl⟩ | rfl <;> rfl
  right
  left
  rw [hran, show e.state.lastCommittedHeight = 0 from h.lastCommittedHeight]
  rfl

/-- **In every run** what is counted was executed, in order. -/
lemma RunWhere.ranInv {P : Engine σ → Label → Prop} {cfg : NodeConfig} {app : σ}
    {evidence : EvidenceStore} {e : Engine σ}
    (hrun : RunWhere d P (cfg.launch d [] app evidence) e) :
    ∃ φ, (φ = .idle ∨ e.halted = true) ∧ RanInv ⟨e, φ⟩ := by
  have hfresh := fresh_launch d cfg app evidence
  obtain ⟨φ, hφ, -, hinv⟩ := hrun.keeps (fun x y => RanInv.act) hfresh.todoOk hfresh.ranInv
  exact ⟨φ, hφ, hinv⟩

/-- **Exactly-once execution.**  In every crash-free run in which all validator
updates could be applied, `execute_block` is called for the heights 1, 2, 3, … in
this order; they are the counted ones as long as the node runs. -/
theorem execution_exactly_once (d : Deps σ) (cfg : NodeConfig) (app : σ) (evidence : EvidenceStore)
    {e : Engine σ} (hrun : Run d (cfg.launch d [] app evidence) e)
    (hupdates : ¬ RejectedUpdates e.trace) : ∃ n, ranHeights e.trace = range' 1 n
      ∧ (e.halted = false → n = e.state.lastCommittedHeight) := by
  obtain ⟨φ, hφ, hinv⟩ := RunWhere.ranInv hrun
  rcases hinv with hrejected | hran | ⟨hdead, hran⟩
  · exact absurd hrejected hupdates
  · exact ⟨_, hran, fun _ => rfl⟩
  · refine ⟨_, hran, fun hrunning => ?_⟩
    rcases hφ with hidle | hhalt
    · rw [show φ = .dead from hdead] at hidle
      cases hidle
    · rw [hrunning] at hhalt
      cases hhalt

/-! Validator 0 of `Sample.pair` proposes and commits by itself.  With an application
that answers height 1 with an update it cannot apply, the block of height 1 is
executed at every commit. -/

/-- The reason a commit failed for. -/
def Effect.failure : Effect → Option CommitError
  | .commitFailed err => some err
  | _ => none

/-- Two steps of the leader. -/
def ranTwo : Engine Unit :=
  steps (pair.deps leader) [.task env, .task env]
    ((pair.config leader).launch (pair.deps leader) [] () .empty)

theorem execution_exactly_once_two :
    Run (pair.deps 0) ((pair.config 0).launch (pair.deps 0) [] () .empty) ranTwo
      ∧ ¬ RejectedUpdates ranTwo.trace ∧ ranTwo.state.lastCommittedHeight = 2
      ∧ ∃ n, ranHeights ranTwo.trace = range' 1 n
        ∧ (ranTwo.halted = false → n = ranTwo.state.lastCommittedHeight) := by
  have hrun : Run (pair.deps 0) ((pair.config 0).launch (pair.deps 0) [] () .empty) ranTwo :=
    run_steps _ _ _
  have hcheck : ∀ effect ∈ ranTwo.trace, effect.failure = none := by decide +kernel
  have hupdates : ¬ RejectedUpdates ranTwo.trace := by
    rintro ⟨height, reason, hmem⟩
    cases hcheck _ hmem
  exact ⟨hrun, hupdates, by decide +kernel, execution_exactly_once _ _ () .empty hrun hupdates⟩

/-- A leader whose application answers height 1 with a key of the wrong length. -/
def rejectingDeps : Deps Unit :=
  deps 0 fun height => if height = 1 then [⟨7, ⟨[1, 2, 3]⟩, 1⟩] else []

/-- Two steps of it. -/
def ranAgain : Engine Unit :=
  steps rejectingDeps [.task env, .task env]
    ((pair.config leader).launch rejectingDeps [] () .empty)

/-- Height 1 is executed twice, and never counted. -/
theorem execution_repeated :
    Run rejectingDeps ((pair.config 0).launch rejectingDeps [] () .empty) ranAgain
      ∧ ranHeights ranAgain.trace = [1, 1] ∧ ranAgain.state.lastCommittedHeight = 0 :=
  ⟨run_steps _ _ _, by decide +kernel, by decide +kernel⟩

end Hotmint
