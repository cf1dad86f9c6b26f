/-
The state roots in blocks.

* `lastRoot`, `lastHash`: the root and the block of the last execution in a trace;
* `answers_commitRun`: a commit is answered for consecutive heights;
* `RunWhere.not_rejected`: on a chain in order no commit fails because of updates;
* `Rooted`, `Act.rootInv`: **a block that a node votes for carries the root of the block that it
  has executed last**;
* `VotesOnLast`: the block executed last is the parent of the block that is voted for;
* `Network.HistoryInv.exists_voter`: every committed block has an honest voter;
* `Network.state_roots`: **then every committed block carries the root of its parent**;
* `Network.state_root_stale`: a block on a parent that is certified, but not committed when it is
  proposed, carries the root of an earlier block.
-/
import Hotmint.Safety.CertifiedChain
import Hotmint.Safety.Contexts
import Hotmint.Safety.Execution

namespace Hotmint

open Sample Engine List
variable {σ : Type} {d : Deps σ} {A : Allowance} {app : Application σ}
variable {block : Block} {dc : DoubleCertificate} {e : Engine σ} {effects : List Effect}
  {cfg : NodeConfig}
variable {evidence : EvidenceStore} {n : ℕ}
variable {a : Answer} {P : Engine σ → Label → Prop} {x x' : ExecState σ}
  {before chain executed : List Answer} {blocks : List Block} {t : List Effect}
  {locked : Option QuorumCertificate} {justify : QuorumCertificate} {vote : Vote} {view : ℕ}

/-! ### The last execution -/

/-- The root that the last execution returned, that of genesis before the first one. -/
def lastRoot (executed : List Answer) : BlockHash :=
  (executed.getLast?.map (·.response.appHash)).getD BlockHash.genesis

/-- The hash of the block executed last, that of genesis before the first one. -/
def lastHash (executed : List Answer) : BlockHash :=
  (executed.getLast?.map (·.block.hash)).getD BlockHash.genesis

lemma answers_of_ranHeights (h : ranHeights effects = []) : answers effects = [] := by
  refine filterMap_eq_nil_iff.mpr fun effect hmem => ?_
  have hnone := filterMap_eq_nil_iff.mp h effect hmem
  cases effect with
  | app call => cases call <;> first | rfl | cases hnone
  | _ => rfl

/-- The loop ends with the root of its last block. -/
lemma ChainApplied.lastRoot
    (h : ChainApplied app x blocks x') (htracks : ∀ s, app.tracksAppHash s = true)
    (hne : blocks ≠ []) (before : List Answer) :
    x'.lastAppHash = Hotmint.lastRoot (before ++ answers (x'.calls.map .app)) := by
  induction h with
  | nil x => exact absurd rfl hne
  | @cons x x₁ x' block blocks hround hrest ih =>
    by_cases hlast : blocks = []
    · subst hlast
      cases hrest
      obtain ⟨response, s, pending, rfl, -, hanswers⟩ := hround.answers_eq
      rw [hanswers, ← append_assoc, Hotmint.lastRoot, getLast?_concat]
      show (if app.tracksAppHash s = true then response.appHash else block.appHash) = _
      rw [if_pos (htracks s)]
      rfl
    · exact ih hlast

/-! ### The heights of the answers -/

/-- The loop is answered for the first of its blocks. -/
lemma answers_executeChain_take (app : Application σ) (x : ExecState σ) (blocks : List Block) :
    ∃ n ≤ blocks.length, (answers ((executeChain app x blocks).2.calls.map .app)).map Answer.block
      = (answers (x.calls.map .app)).map Answer.block ++ blocks.take n := by
  induction blocks generalizing x with
  | nil => exact ⟨0, le_rfl, (append_nil _).symm⟩
  | cons block blocks ih =>
    unfold executeChain
    split
    · next x₁ hround =>
        obtain ⟨_, _, _, -, -, hanswers⟩ := (executeOne_eq_completed.mp hround).answers_eq
        obtain ⟨n, hle, hrest⟩ := ih x₁
        refine ⟨n + 1, Nat.succ_le_succ hle, ?_⟩
        rw [hrest, hanswers, map_append, append_assoc]
        rfl
    · rcases answers_executeOne app x block with hnone | ⟨response, hone⟩
      · exact ⟨0, Nat.zero_le _, by rw [hnone, take_zero, append_nil]⟩
      · refine ⟨1, Nat.succ_le_succ (Nat.zero_le _), ?_⟩
        rw [hone, map_append]
        rfl

/-- A loop that completes is answered for all its blocks. -/
lemma ChainApplied.answers_blocks
    (h : ChainApplied app x blocks x') : (answers (x'.calls.map .app)).map Answer.block
      = (answers (x.calls.map .app)).map Answer.block ++ blocks := by
  induction h with
  | nil x => exact (append_nil _).symm
  | cons hround _ ih =>
    obtain ⟨_, _, _, -, -, hanswers⟩ := hround.answers_eq
    rw [ih, hanswers, map_append, append_assoc]
    rfl

/-- A commit that failed has executed nothing, or failed because of updates. -/
lemma Engine.commitRun_err {err : CommitError} (h : (e.commitRun d dc).outcome = .err err) :
    (e.commitRun d dc).calls = [] ∨ ∃ height reason, err = .invalidUpdates height reason := by
  cases e.commitTrace d dc with
  | nothing hcalls _ _ => exact .inl hcalls
  | @chain _ _ ending _ _ _ hchain houtcome _ _ =>
    rw [houtcome] at h
    cases ending with
    | completed | panicked => cases h
    | failed err' =>
      obtain rfl := CommitOutcome.err.inj h
      exact .inr (hchain.failed rfl)

/-- **A commit is answered for consecutive heights**, and for all that it counts unless a callback
panics or updates cannot be applied. -/
lemma Engine.answers_commitRun (e : Engine σ) (dc : DoubleCertificate) :
    ∃ n, (answers ((e.commitRun d dc).calls.map .app)).map (·.block.height)
        = range' (e.state.lastCommittedHeight + 1) n
      ∧ ((e.commitRun d dc).outcome = .panic
        ∨ (∃ height reason, (e.commitRun d dc).outcome = .err (.invalidUpdates height reason))
        ∨ (e.commitRun d dc).lastCommittedHeight = e.state.lastCommittedHeight + n) := by
  have hheights : ∀ {executed : List Answer} {blocks : List Block}, executed.map Answer.block =
    blocks →
      executed.map (·.block.height) = blocks.map (·.height) := by
    rintro executed _ rfl
    rw [map_map]
    rfl
  rcases tryCommit_eq d.app dc e.store e.app e.state.lastCommittedHeight e.state.currentEpoch
    e.previousEpoch e.pendingEpoch with ⟨_, -, hrun⟩ | ⟨_, blocks, ending, x, -, hwalk, hloop, hrun⟩
  all_goals rw [Engine.commitRun, hrun]
  · exact ⟨0, rfl, .inr (.inr rfl)⟩
  obtain ⟨n, hle, htake⟩ := answers_executeChain_take d.app e.loopStart blocks
  rw [show executeChain d.app e.loopStart blocks = _ from hloop] at htake
  have hran : (answers (x.calls.map .app)).map (·.block.height)
      = range' (e.state.lastCommittedHeight + 1) n := by
    rw [hheights htake, ← take_range'_of_length_ge hle, ← hwalk.heights.1, ← map_take]
    rfl
  cases ending with
  | panicked => exact ⟨n, hran, .inl rfl⟩
  | failed err =>
    have hspec := executeChain_spec d.app e.loopStart blocks
    rw [show executeChain d.app e.loopStart blocks = _ from hloop] at hspec
    obtain ⟨height, reason, rfl⟩ := hspec.failed rfl
    exact ⟨n, hran, .inr (.inl ⟨height, reason, rfl⟩)⟩
  | completed =>
    have happlied := executeChain_eq_completed.mp hloop
    refine ⟨blocks.length, ?_, .inr (.inr ?_)⟩
    · rw [hheights happlied.answers_blocks, ← hwalk.heights.1]
      rfl
    · rw [← hwalk.heights.2]
      exact happlied.lastCommittedHeight hwalk.getLast

/-! ### No updates fail -/

section Rejected

variable {first : Epoch} {e m : Engine σ}

/-- Effects without news do not reject updates. -/
lemma not_rejected_of_news (h : ¬ RejectedUpdates t)
    (hnews : news effects = []) : ¬ RejectedUpdates (t ++ effects) := by
  rintro ⟨height, reason, hmem⟩
  rcases mem_append.mp hmem with hmem | hmem
  · exact h ⟨height, reason, hmem⟩
  · exact filter_eq_nil_iff.mp hnews _ hmem rfl

lemma not_rejected_of_calm (h : ¬ RejectedUpdates t)
    (hcalm : ∀ effect ∈ effects, effect.calm = true) : ¬ RejectedUpdates (t ++ effects) := by
  rintro ⟨height, reason, hmem⟩
  rcases mem_append.mp hmem with hmem | hmem
  · exact h ⟨height, reason, hmem⟩
  · cases hcalm _ hmem

lemma Tried.not_rejected {m₀ : Engine σ} (h : Tried d m₀ dc m) (hm₀ : ¬ RejectedUpdates m₀.trace)
    (hother : ∀ height reason, (m₀.commitRun d dc).outcome ≠ .err (.invalidUpdates height reason)) :
    ¬ RejectedUpdates m.trace := by
  obtain ⟨effects, heq, hnews⟩ := h.trace
  rw [heq]
  refine not_rejected_of_news ?_ hnews
  rintro ⟨height, reason, hmem⟩
  rw [append_assoc] at hmem
  rcases mem_append.mp hmem with hmem | hmem
  · exact hm₀ ⟨height, reason, hmem⟩
  · rcases mem_commitEffects hmem with heq | ⟨call, -, heq⟩ | ⟨err, herr, heq⟩
    · cases heq
    · cases heq
    · exact hother height reason (Effect.commitFailed.inj heq ▸ herr)

/-- **The part of a step before the view entry.** -/
lemma Commits.not_rejected (h : Commits d e m) (he : ¬ RejectedUpdates e.trace)
    (hchain : e.OnChain first) (horder : Orderly first ((answers m.trace).map Answer.run)) :
    ¬ RejectedUpdates m.trace := by
  have hstays : ∀ {m₀}, Still e m₀ → ¬ RejectedUpdates m₀.trace := by
    intro m₀ hstill
    obtain ⟨effects, heq, hnews⟩ := hstill.trace
    rw [heq]
    exact not_rejected_of_news he hnews
  cases h with
  | still hstill => exact hstays hstill
  | refused hstill htried _ _ _ _ _ _ | adopted hstill _ _ htried _ _ _ _ _ =>
    exact htried.not_rejected (hstays hstill) (htried.err_ne (hstill.onChain hchain) horder)

/-- Entering a view commits nothing. -/
lemma not_rejected_advanceViewTo (hm : ¬ RejectedUpdates m.trace) (view : ℕ)
    (trigger : ViewEntryTrigger) : ¬ RejectedUpdates (m.advanceViewTo d view trigger).trace := by
  rcases Housed.advanceViewTo m view trigger with ⟨-, heq⟩ | ⟨-, -, hhoused⟩
  · rwa [heq]
  obtain ⟨effects, heq, hnews⟩ := hhoused.trace
  rw [heq]
  refine not_rejected_of_news ?_ hnews
  rcases startEpoch_eq (m.clearForView trigger) view with
    hsame | ⟨_, _, effects', -, -, hcalm, -, hstarted⟩
  · rw [hsame]
    exact hm
  · rw [hstarted]
    exact not_rejected_of_calm hm hcalm

/-- **On a chain in order** no commit fails because of updates. -/
lemma RunWhere.not_rejected {app : σ} (hrun : RunWhere d P (cfg.launch d [] app evidence) e)
    (horder : Orderly (Epoch.genesis cfg.validatorSet) (ranBlocks e.trace)) :
    ¬ RejectedUpdates e.trace := by
  induction hrun with
  | refl =>
    rintro ⟨height, reason, hmem⟩
    cases (fresh_launch d cfg app evidence).stored hmem
  | @tail e₁ _ hrun hstep ih =>
    cases hstep with
    | @step label henabled _ =>
      have hends := ends_apply (d := d) e₁ label
      have hleft : Orderly (Epoch.genesis cfg.validatorSet) (ranBlocks e₁.trace) := by
        obtain ⟨effects, heq⟩ := hends.grows
        rw [← heq, ranBlocks_append] at horder
        exact horder.left
      have hchain := (RunWhere.contextInv hrun hleft).onChain (not_halted_of_enabled henabled)
      rw [ranBlocks_eq_answers] at horder
      generalize e₁.apply d label = e' at *
      cases hends with
      | commits hcommits => exact hcommits.not_rejected (ih hleft) hchain horder
      | @entered m hcommits tasks view trigger _ =>
        refine not_rejected_advanceViewTo (m := { m with todo := tasks ++ m.todo }) ?_ view trigger
        refine hcommits.not_rejected (ih hleft) hchain ?_
        obtain ⟨effects, heq⟩ := Housed.grows_advanceViewTo
          { m with todo := tasks ++ m.todo } view trigger
        rw [← heq, answers_append, map_append] at horder
        exact horder.left

end Rejected

/-! ### Votes and roots -/

/-- A block that was voted for carries the root of the block executed last. -/
def VotesOnRoots (trace : List Effect) : Prop :=
  ∀ before vote block justify locked later,
    trace = before ++ .signVote1 vote block justify locked :: later →
      block.appHash = lastRoot (answers before)

lemma VotesOnRoots.append {trace : List Effect} (h : VotesOnRoots trace)
    (hnew : ∀ before vote block justify locked later,
      effects = before ++ .signVote1 vote block justify locked :: later →
        block.appHash = lastRoot (answers (trace ++ before))) :
    VotesOnRoots (trace ++ effects) := by
  intro before vote block justify locked later heq
  rcases append_eq_append_iff.mp heq with ⟨rest, rfl, heffects⟩ | ⟨rest, htrace, hrest⟩
  · exact hnew rest vote block justify locked later heffects
  · cases rest with
    | nil =>
      have hthis := hnew [] vote block justify locked later hrest.symm
      rw [append_nil] at hthis htrace
      rwa [htrace] at hthis
    | cons effect rest =>
      obtain ⟨rfl, -⟩ := cons.inj hrest
      exact h before vote block justify locked rest htrace

/-- Votes are on roots, the node has the root of the block executed last, and heights are executed
one after the other. -/
structure Rooted (x : Flow σ) : Prop where
  votes : VotesOnRoots x.engine.trace
  root : x.phase ≠ .dead → x.engine.state.lastAppHash = lastRoot (answers x.engine.trace)
  heights : ∃ n, (answers x.engine.trace).map (·.block.height) = range' 1 n
    ∧ (x.phase ≠ .dead → n = x.engine.state.lastCommittedHeight)

/-- Some updates failed, or the node is rooted. -/
def RootInv (x : Flow σ) : Prop := RejectedUpdates x.engine.trace ∨ Rooted x

namespace Rooted

variable {x y : Flow σ} {effects : List Effect}

/-- An act outside of `try_commit`. -/
lemma outside (hx : Rooted x) (htracks : ∀ s, d.app.tracksAppHash s = true)
    (heq : y.engine.trace = x.engine.trace ++ effects) (h : Outside d x y effects) : Rooted y := by
  have hanswers : answers y.engine.trace = answers x.engine.trace := by
    rw [heq, answers_append, answers_of_ranHeights h.ran, append_nil]
  have hlive : y.phase ≠ .dead → x.phase ≠ .dead := fun halive hdead => halive (h.phase.dead hdead)
  refine ⟨?_, fun halive => ?_, ?_⟩
  · rw [heq]
    refine hx.votes.append fun before vote block justify locked later hsplit => ?_
    obtain ⟨halive, happHash⟩ := h.vote1 vote block justify locked
      (hsplit ▸ mem_append_right _ mem_cons_self)
    have hnone : answers before = [] := by
      have hran := h.ran
      rw [hsplit, ranHeights_append] at hran
      exact answers_of_ranHeights (append_eq_nil_iff.mp hran).1
    rw [answers_append, hnone, append_nil, happHash (htracks _)]
    exact hx.root halive
  · rw [h.lastAppHash, hanswers]
    exact hx.root (hlive halive)
  · obtain ⟨n, hheights, hcount⟩ := hx.heights
    rw [hanswers, h.lastCommittedHeight]
    exact ⟨n, hheights, fun halive => hcount (hlive halive)⟩

/-- What a commit answers. -/
lemma answers_commit (dc : DoubleCertificate) (calls : List AppCall) (outcome : CommitOutcome) :
    answers (.tryCommit dc :: calls.map .app ++ failureEffects outcome)
      = answers (calls.map .app) := by
  have hfailed : answers (failureEffects outcome) = [] := by cases outcome <;> rfl
  rw [answers_append, hfailed, append_nil]
  rfl

/-- `try_commit` does not vote. -/
lemma not_mem_commit {calls : List AppCall} {outcome : CommitOutcome} :
    Effect.signVote1 vote block justify locked
      ∉ .tryCommit dc :: calls.map .app ++ failureEffects outcome := by
  intro hmem
  rcases mem_commitEffects hmem with h | ⟨call, -, h⟩ | ⟨err, -, h⟩ <;> cases h

/-- The root after a commit that did not stop in the middle. -/
lemma rootAfter_eq (htracks : ∀ s, d.app.tracksAppHash s = true)
    (hroot : e.state.lastAppHash = lastRoot before) (halive : (e.commitRun d dc).outcome ≠ .panic)
    (hother : ∀ height reason, (e.commitRun d dc).outcome ≠ .err (.invalidUpdates height reason)) :
    rootAfter e.state.lastAppHash (e.commitRun d dc).outcome
      = lastRoot (before ++ answers ((e.commitRun d dc).calls.map .app)) := by
  have hstays : (e.commitRun d dc).calls = [] → e.state.lastAppHash
      = lastRoot (before ++ answers ((e.commitRun d dc).calls.map .app)) := by
    intro hnone
    rw [hnone, map_nil, show answers [] = [] from rfl, append_nil, hroot]
  cases houtcome : (e.commitRun d dc).outcome with
  | panic => exact absurd houtcome halive
  | err err =>
    rcases commitRun_err houtcome with hnone | ⟨height, reason, rfl⟩
    · exact hstays hnone
    · exact absurd houtcome (hother height reason)
  | ok result =>
    rcases tryCommit_ok houtcome with
      ⟨hempty, -, hnone⟩ | ⟨_, blocks, z, -, hwalk, happlied, rfl, hrun⟩
    · rw [rootAfter, hempty]
      exact hstays hnone
    · have hne : blocks ≠ [] := by
        intro hnil
        have htop := hwalk.getLast
        rw [hnil] at htop
        cases htop
      have hcalls : (e.commitRun d dc).calls = z.calls := by
        rw [commitRun, hrun]
      rw [rootAfter, if_neg fun hempty => hne (isEmpty_iff.mp hempty), hcalls]
      exact happlied.lastRoot htracks hne _

/-- `try_commit`. -/
lemma commit (hx : Rooted x) (htracks : ∀ s, d.app.tracksAppHash s = true)
    (heq : y.engine.trace = x.engine.trace ++ effects)
    (h : InCommit d dc x y effects) : RootInv y := by
  by_cases hrejected : ∃ height reason,
      (x.engine.commitRun d dc).outcome = .err (.invalidUpdates height reason)
  · obtain ⟨height, reason, houtcome⟩ := hrejected
    refine .inl ⟨height, reason, ?_⟩
    rw [heq, h.effects, houtcome]
    exact mem_append_right _ (mem_append_right _ mem_cons_self)
  have hother : ∀ height reason,
      (x.engine.commitRun d dc).outcome ≠ .err (.invalidUpdates height reason) :=
    fun height reason houtcome => hrejected ⟨height, reason, houtcome⟩
  have hidle : x.phase ≠ .dead := by
    rw [h.idle]
    exact Phase.idle_ne_dead
  have hpanic : y.phase ≠ .dead → (x.engine.commitRun d dc).outcome ≠ .panic := by
    intro halive hpanic
    refine halive ?_
    rw [h.phase, hpanic]
    rfl
  have hanswers : answers y.engine.trace = answers x.engine.trace
      ++ answers ((x.engine.commitRun d dc).calls.map .app) := by
    rw [heq, answers_append, h.effects, answers_commit]
  refine .inr ⟨?_, fun halive => ?_, ?_⟩
  · rw [heq]
    refine hx.votes.append fun before vote block justify locked later hsplit => ?_
    have hmem : Effect.signVote1 vote block justify locked ∈ effects :=
      hsplit ▸ mem_append_right _ mem_cons_self
    rw [h.effects] at hmem
    exact absurd hmem not_mem_commit
  · rw [h.lastAppHash, hanswers]
    exact rootAfter_eq htracks (hx.root hidle) (hpanic halive) hother
  · obtain ⟨n, hheights, hcount⟩ := hx.heights
    obtain rfl := hcount hidle
    obtain ⟨m, hnew, hcount⟩ := x.engine.answers_commitRun dc
    refine ⟨x.engine.state.lastCommittedHeight + m, ?_, fun halive => ?_⟩
    · rw [hanswers, map_append, hheights, hnew, Nat.add_comm _ 1, range'_append_1]
    · rw [h.lastCommittedHeight]
      exact ((hcount.resolve_left (hpanic halive)).resolve_left hrejected).symm

end Rooted

/-- **Every act keeps votes on roots.** -/
lemma Act.rootInv {x y : Flow σ} (htracks : ∀ s, d.app.tracksAppHash s = true) (h : Act d A x y)
    (hx : RootInv x) : RootInv y := by
  obtain ⟨effects, heq, hdisk⟩ := h.disk
  rcases hx with ⟨height, reason, hrejected⟩ | hx
  · exact .inl ⟨height, reason, h.trace_grows.subset hrejected⟩
  · rcases hdisk.outside_or_commit with houtside | ⟨dc, hcommit⟩
    · exact .inr (hx.outside htracks heq houtside)
    · exact hx.commit htracks heq hcommit

lemma Fresh.rooted (h : Fresh cfg e) : Rooted ⟨e, .idle⟩ := by
  have hnone := h.answers_eq_nil
  refine ⟨fun before vote block justify locked later hsplit => ?_, fun _ => ?_, 0, ?_, fun _ => ?_⟩
  · have hmem : Effect.signVote1 vote block justify locked ∈ e.trace := by
      rw [show e.trace = _ from hsplit]
      exact mem_append_right _ mem_cons_self
    cases h.stored hmem
  · rw [show answers (Flow.mk e .idle).engine.trace = [] from hnone]
    exact h.lastAppHash
  · rw [show answers (Flow.mk e .idle).engine.trace = [] from hnone]
    rfl
  · exact h.lastCommittedHeight.symm

/-- **In every run whose chain is in order** votes are on roots. -/
lemma RunWhere.rooted {app : σ} (htracks : ∀ s, d.app.tracksAppHash s = true)
    (hrun : RunWhere d P (cfg.launch d [] app evidence) e)
    (horder : Orderly (Epoch.genesis cfg.validatorSet) (ranBlocks e.trace)) :
    ∃ φ, Rooted ⟨e, φ⟩ := by
  have hfresh := fresh_launch d cfg app evidence
  obtain ⟨φ, -, -, hinv⟩ := hrun.keeps (fun x y h hx => h.rootInv htracks hx) hfresh.todoOk
    (.inr hfresh.rooted)
  exact ⟨φ, hinv.resolve_left (hrun.not_rejected horder)⟩

/-! ### The condition -/

/-- Every block that is voted for extends the block executed last, where `last` is the hash of the
one executed before. -/
def extendsLast (last : BlockHash) : List Effect → Bool
  | [] => true
  | .app (.executeBlock block _ (some _)) :: effects => extendsLast block.hash effects
  | .signVote1 _ block _ _ :: effects =>
    decide (block.parentHash = last) && extendsLast last effects
  | _ :: effects => extendsLast last effects

/-- A step in which the node votes only for children of the block that it has executed last. -/
def VotesOnLast (d : Deps σ) (e : Engine σ) (label : Label) : Prop :=
  extendsLast (lastHash (answers e.trace)) (e.stepEffects d label) = true

instance (d : Deps σ) (e : Engine σ) (label : Label) : Decidable (VotesOnLast d e label) :=
  inferInstanceAs (Decidable (_ = true))

lemma extendsLast_append (last : BlockHash) (effects effects' : List Effect) :
    extendsLast last (effects ++ effects') = (extendsLast last effects
      && extendsLast (((answers effects).getLast?.map (·.block.hash)).getD last) effects') := by
  induction effects generalizing last with
  | nil => rfl
  | cons effect effects ih =>
    have hskip : answers (effect :: effects) = answers effects →
        (∀ rest, extendsLast last (effect :: rest) = extendsLast last rest) →
        extendsLast last (effect :: effects ++ effects') = (extendsLast last (effect :: effects)
          && extendsLast (((answers (effect :: effects)).getLast?.map (·.block.hash)).getD last)
            effects') := by
      intro hanswers hrest
      rw [cons_append, hrest, hrest, hanswers, ih]
    cases effect with
    | app call =>
      cases call with
      | executeBlock block ctx response =>
        cases response with
        | none => exact hskip rfl fun _ => rfl
        | some response =>
          change extendsLast block.hash (effects ++ effects')
            = (extendsLast block.hash effects && _)
          rw [ih]
          congr 2
          change _ = (((⟨block, ctx, response⟩ :: answers effects).getLast?).map
            (·.block.hash)).getD last
          cases hlast : (answers effects).getLast? with
          | none =>
            rw [getLast?_eq_none_iff.mp hlast]
            rfl
          | some a =>
            rw [getLast?_cons, hlast]
            rfl
      | _ => exact hskip rfl fun _ => rfl
    | signVote1 vote block justify locked =>
      change (decide (block.parentHash = last) && extendsLast last (effects ++ effects'))
        = ((decide (block.parentHash = last) && extendsLast last effects) && _)
      rw [ih, Bool.and_assoc]
      rfl
    | _ => exact hskip rfl fun _ => rfl

/-- **In every run that meets the condition** each vote is for a child of the block executed
last. -/
lemma RunWhere.extendsLast {app : σ}
    (hrun : RunWhere d (VotesOnLast d) (cfg.launch d [] app evidence) e) :
    Hotmint.extendsLast BlockHash.genesis e.trace = true := by
  induction hrun with
  | refl =>
    have hkeeps := (fresh_launch d cfg app evidence).trace
    generalize (cfg.launch d [] app evidence).trace = trace at hkeeps
    induction trace with
    | nil => rfl
    | cons effect trace ih =>
      rcases hkeeps effect mem_cons_self with ⟨item, rfl⟩ | rfl <;>
        exact ih fun effect hmem => hkeeps effect (.tail _ hmem)
  | @tail e₁ _ _ hstep ih =>
    cases hstep with
    | @step label _ hlast =>
      obtain ⟨effects, heq⟩ := (ends_apply e₁ label).grows
      unfold VotesOnLast stepEffects at hlast
      rw [← heq, drop_left] at hlast
      rw [← heq, extendsLast_append, ih, Bool.true_and]
      exact hlast

/-- The vote in a trace that meets the condition. -/
lemma parentHash_of_extendsLast {before later : List Effect} (h : extendsLast BlockHash.genesis
      (before ++ .signVote1 vote block justify locked :: later) = true) :
    block.parentHash = lastHash (answers before) := by
  rw [extendsLast_append] at h
  exact of_decide_eq_true (Bool.and_eq_true_iff.mp (Bool.and_eq_true_iff.mp h).2).1

/-! ### Deterministic applications -/

/-- What the application answers with is a function of the blocks executed so far with their
contexts. -/
def Deterministic (f : List (Block × BlockContext) → EndBlockResponse) (executed : List Answer) :
    Prop :=
  ∀ before a later, executed = before ++ a :: later →
    a.response = f ((before ++ [a]).map fun a => (a.block, a.context))

section Deterministic

variable {f : List (Block × BlockContext) → EndBlockResponse}
  {executed executed' chain chain' : List Answer}

lemma Deterministic.answeredBy (h : Deterministic f executed) :
    AnsweredBy (fun chain => (f chain).validatorUpdates) executed :=
  fun before a later heq => congrArg EndBlockResponse.validatorUpdates (h before a later heq)

/-- The root of the last block of a part of the chain. -/
lemma Deterministic.lastRoot_eq (h : Deterministic f executed) (hchain : chain <+: executed)
    (hne : chain ≠ []) :
    lastRoot chain = (f (chain.map fun a => (a.block, a.context))).appHash := by
  obtain ⟨before, a, rfl⟩ := (eq_nil_or_concat chain).resolve_left hne
  obtain ⟨later, hlater⟩ := hchain
  rw [concat_eq_append] at hlater ⊢
  rw [append_assoc, singleton_append] at hlater
  rw [← h before a later hlater.symm, lastRoot, getLast?_concat]
  rfl

/-- Parts of two chains with the same blocks and contexts end with the same root. -/
lemma Deterministic.lastRoot_congr (h : Deterministic f executed) (h' : Deterministic f executed')
    (hchain : chain <+: executed) (hchain' : chain' <+: executed')
    (hsame : chain.map (fun a => (a.block, a.context)) = chain'.map fun a => (a.block, a.context)) :
    lastRoot chain = lastRoot chain' := by
  by_cases hne : chain = []
  · obtain rfl := hne
    obtain rfl := map_eq_nil_iff.mp hsame.symm
    rfl
  · have hne' : chain' ≠ [] := by
      rintro rfl
      exact hne (map_eq_nil_iff.mp hsame)
    rw [h.lastRoot_eq hchain hne, h'.lastRoot_eq hchain' hne', hsame]

lemma lastHash_congr (h : chain.map Answer.block = chain'.map Answer.block) :
    lastHash chain = lastHash chain' := by
  have hlast := congrArg (fun blocks : List Block => blocks.getLast?.map (·.hash)) h
  simp only [getLast?_map, Option.map_map] at hlast
  unfold lastHash
  rw [show chain.getLast?.map (·.block.hash) = chain'.getLast?.map (·.block.hash) from hlast]

end Deterministic

/-! ### Networks -/

lemma committed_of_answer (h : a ∈ answers e.trace) : Committed e a.block := by
  obtain ⟨effect, hmem, heffect⟩ := mem_filterMap.mp h
  cases effect with
  | app call =>
    cases call with
    | executeBlock block ctx response =>
      cases response with
      | none => cases heffect
      | some response =>
        cases heffect
        exact ⟨ctx, some response, hmem⟩
    | _ => cases heffect
  | _ => cases heffect

/-- The height of a block is its position. -/
lemma height_of_heights {later : List Answer} (h : executed.map (·.block.height) = List.range' 1 n)
    (hsplit : executed = before ++ a :: later) : a.block.height = before.length + 1 := by
  have hget := congrArg (·[before.length]?) h
  rw [hsplit] at hget
  simp only [List.map_append, List.map_cons] at hget
  rw [List.getElem?_append_right (by rw [List.length_map]), List.length_map, Nat.sub_self] at hget
  have hsome := List.getElem?_eq_some_iff.mp hget.symm
  obtain ⟨hlt, heq⟩ := hsome
  rw [List.getElem_range'] at heq
  omega

/-- Every executed block is a child of the block executed before it, or of genesis, and carries the
root that the application returned for that block. -/
def CarriesRoots (executed : List Answer) : Prop :=
  ∀ before a later, executed = before ++ a :: later →
    a.block.parentHash = lastHash before ∧ a.block.appHash = lastRoot before

namespace Network

open VoteHistory

variable {ι : Type} {N : Network ι σ} {faulty : List ℕ} {s : ι → Engine σ} {H : History ι}

/-- **The ancestors of a certified block are certified**, up to genesis. -/
lemma HistoryInv.certified_ancestor (hbound : N.FaultBound faulty) (hH : N.HistoryInv faulty s H)
    (hB : HashInjective (Known s)) {top : Block} (htop : Known s top)
    (hcert : Certified (N.IsQuorum faulty) H view top.hash) (hanc : Ancestor (Known s) top block)
    (hpos : 0 < block.height) : ∃ view, Certified (N.IsQuorum faulty) H view block.hash := by
  induction hanc using Relation.ReflTransGen.head_induction_on generalizing view with
  | refl => exact ⟨view, hcert⟩
  | @head top parent hstep hrest ih =>
    obtain ⟨hknown, hhash, hheight⟩ := hstep
    obtain ⟨i, top', parent', _, hvoted, hcase⟩ := hH.certified_parent hbound hB hcert
    obtain rfl := hB _ _ ⟨i, hvoted.known⟩ htop hvoted.hash_eq
    obtain rfl := hB _ _ ⟨i, hvoted.parentKnown⟩ hknown (hvoted.parentHash_eq.symm.trans hhash.symm)
    rcases hcase with rfl | ⟨-, hparent⟩
    · have hle := Ancestor.height_le hrest
      exact absurd hpos (by rw [Nat.le_zero.mp hle]; exact lt_irrefl 0)
    · exact ih hknown hparent

section

variable (hbound : N.FaultBound faulty) (hH : N.HistoryInv faulty s H)
  (hstored : ∀ i, StoredInv N.crypto (s i)) (hB : HashInjective (Known s))

include hbound hH hstored hB

/-- **A committed block has an honest voter.** -/
lemma HistoryInv.exists_voter {i : ι}
    (hblock : Committed (s i) block) (hpos : 0 < block.height) : ∃ j view pv parent,
      VotedBlock (s j).trace view block.hash pv block.parentHash block parent := by
  obtain ⟨ctx, response, hmem⟩ := hblock
  obtain ⟨dc, hdc⟩ := (hstored i).executed block ctx response hmem
  obtain ⟨target, htarget, hcert, hanc⟩ := hH.finalized hbound hdc
  obtain ⟨view, S, hS, hvoted⟩ := hH.certified_ancestor hbound hB htarget hcert hanc hpos
  obtain ⟨j, hj, -⟩ := IsQuorum.inter hbound S S hS hS
  obtain ⟨pv, p, hfirst⟩ := hvoted j hj
  obtain ⟨block', parent, hthis⟩ := (hH.vote j).block _ _ _ _ hfirst
  obtain rfl := hB _ _ ⟨j, hthis.known⟩ ⟨i, hdc.known⟩ hthis.hash_eq
  obtain rfl := hthis.parentHash_eq
  exact ⟨j, view, pv, parent, hthis⟩

/-- Two nodes that have executed equally many blocks have executed the same ones. -/
lemma HistoryInv.blocks_eq {i j : ι} {chain' : List Answer} (hchain : chain <+: answers (s i).trace)
    (hchain' : chain' <+: answers (s j).trace) {n' : ℕ}
    (hheights : (answers (s i).trace).map (·.block.height) = range' 1 n)
    (hheights' : (answers (s j).trace).map (·.block.height) = range' 1 n')
    (hlength : chain.length = chain'.length) :
    chain.map Answer.block = chain'.map Answer.block := by
  induction chain using reverseRecOn generalizing chain' with
  | nil => rw [eq_nil_of_length_eq_zero hlength.symm]
  | append_singleton chain a ih =>
    rcases eq_nil_or_concat chain' with rfl | ⟨chain', a', rfl⟩
    · simp at hlength
    rw [concat_eq_append] at hchain' hlength ⊢
    have hlength : chain.length = chain'.length := by simpa using hlength
    have hblocks := ih ((prefix_append _ _).trans hchain)
      ((prefix_append _ _).trans hchain') hlength
    obtain ⟨later, hlater⟩ := hchain
    obtain ⟨later', hlater'⟩ := hchain'
    rw [append_assoc, singleton_append] at hlater hlater'
    have hheight : a.block.height = a'.block.height := by
      rw [height_of_heights hheights hlater.symm, height_of_heights hheights' hlater'.symm, hlength]
    have hmem : a ∈ answers (s i).trace := hlater ▸ mem_append_right _ mem_cons_self
    have hmem' : a' ∈ answers (s j).trace := hlater' ▸ mem_append_right _ mem_cons_self
    have hblock : a.block = a'.block := hH.committed_eq hbound hstored hB
      (committed_of_answer hmem) (committed_of_answer hmem') hheight
    rw [map_append, map_append, hblocks, map_singleton, map_singleton, hblock]

end

/-- **A voter has executed the blocks below the block that it votes for**, if it votes for children
of the block executed last. -/
lemma executed_below (hstored : ∀ i, StoredInv N.crypto (s i)) (hB : HashInjective (Known s))
    {j : ι} {pv : ℕ} {parent : Block}
    (hvoted : VotedBlock (s j).trace view block.hash pv block.parentHash block parent)
    (hchain : chain <+: answers (s j).trace)
    (hheights : (answers (s j).trace).map (·.block.height) = range' 1 n)
    (hlast : block.parentHash = lastHash chain) : block.height = chain.length + 1 := by
  have hhash : parent.hash = lastHash chain := hvoted.parent_hash.trans hlast
  rw [hvoted.height]
  rcases eq_nil_or_concat chain with rfl | ⟨before, a, rfl⟩
  · rw [hB _ _ ⟨j, hvoted.parentKnown⟩ ⟨j, .inl rfl⟩ hhash]
    rfl
  · rw [concat_eq_append] at hchain hhash ⊢
    obtain ⟨later, hlater⟩ := hchain
    rw [append_assoc, singleton_append] at hlater
    have hmem : a ∈ answers (s j).trace := hlater ▸ mem_append_right _ mem_cons_self
    obtain ⟨_, _, hexecuted⟩ := committed_of_answer hmem
    obtain ⟨dc, hdc⟩ := (hstored j).executed _ _ _ hexecuted
    rw [lastHash, getLast?_concat] at hhash
    rw [hB _ _ ⟨j, hvoted.parentKnown⟩ ⟨j, hdc.known⟩ hhash, height_of_heights hheights hlater.symm]
    simp

/-- **State roots.**  In every run of a network with faulty validators of at most `maxFaultyPower`,
under a deterministic application that tracks state roots, in which nodes vote only for children
of the block that they have executed last: every block that a node has executed is a child of the
block executed before, or of genesis, and carries the root that the application returned for it,
or that of genesis. -/
theorem state_roots [DecidableEq ι] (N : Network ι σ) (faulty : List ℕ)
    (hbound : N.FaultBound faulty) (htracks : ∀ i s, (N.deps i).app.tracksAppHash s = true)
    {s : ι → Engine σ} (hrun : N.RunWhere (fun i => VotesOnLast (N.deps i)) s)
    (hcoll : N.CollisionFree s) {f : List (Block × BlockContext) → EndBlockResponse}
    (hdet : ∀ i, Deterministic f (answers (s i).trace)) (hstays : ∀ i, N.Stays (s i))
    (horder : ∀ i, Orderly (Epoch.genesis N.validatorSet) (ranBlocks (s i).trace)) (i : ι) :
    CarriesRoots (answers (s i).trace) := by
  have hstored := hrun.run.stored
  have hB := hcoll.hashInjective hstored
  obtain ⟨H, hH⟩ := hrun.run.history hbound hB ⟨i, .inl rfl⟩ hstays fun i b hb => ⟨i, hb⟩
  have hrooted : ∀ j, ∃ φ, Rooted ⟨s j, φ⟩ := fun j =>
    RunWhere.rooted (htracks j) (hrun.node j) (horder j)
  intro before a later hsplit
  obtain ⟨_, -, -, n, hheights, -⟩ := hrooted i
  have hheight := height_of_heights hheights hsplit
  have hmem : a ∈ answers (s i).trace := hsplit ▸ mem_append_right _ mem_cons_self
  -- an honest voter of the block, and its trace up to the vote
  obtain ⟨j, view, pv, parent, hvoted⟩ := hH.exists_voter hbound hstored hB
    (committed_of_answer hmem) (by omega)
  obtain ⟨vote, justify, locked, hsigned, -⟩ := hvoted.signed
  obtain ⟨before', later', htrace⟩ := append_of_mem hsigned
  obtain ⟨_, hvotes, -, n', hheights', -⟩ := hrooted j
  have hroot := hvotes before' vote a.block justify locked later' htrace
  have hparent : a.block.parentHash = lastHash (answers before') := by
    have hextends := (hrun.node j).extendsLast
    rw [htrace] at hextends
    exact parentHash_of_extendsLast hextends
  have hchain : before <+: answers (s i).trace := ⟨_, hsplit.symm⟩
  have hchain' : answers before' <+: answers (s j).trace := by
    rw [htrace, answers_append]
    exact prefix_append _ _
  -- both have executed the same blocks below it
  have hlength := executed_below hstored hB hvoted hchain' hheights' hparent
  have hblocks := hH.blocks_eq hbound hstored hB hchain hchain' hheights hheights' (by omega)
  have hsame := (((hrun.node i).contextInv (horder i)).contexts.agree
    ((hrun.node j).contextInv (horder j)).contexts (hdet i).answeredBy (hdet j).answeredBy hchain
    hchain' hblocks).1
  rw [hparent, hroot, lastHash_congr hblocks, (hdet i).lastRoot_congr (hdet j) hchain hchain' hsame]
  exact ⟨rfl, rfl⟩

/-! ### Samples -/

/-- Answers that depend on the height only are deterministic. -/
lemma deterministic_height (response : ℕ → EndBlockResponse)
    (h : ∀ a ∈ executed, a.response = response a.context.height) :
    Deterministic (fun chain => response ((chain.getLast?.map (·.2.height)).getD 0)) executed := by
  rintro before a later rfl
  rw [h a (mem_append_right _ mem_cons_self)]
  simp

/-- What the application with roots answers with. -/
def rootResponse (height : ℕ) : EndBlockResponse := ⟨[], [], rootAt height⟩

/-- The leader commits two blocks by itself; the other node commits the first of them with the
second proposal. -/
def rootedPair : Fin 2 → Engine Unit :=
  outcome (withRoots pair) [.task leader, .task leader,
    .relay replica leader 0, .relay replica leader 2]

theorem state_roots_pair : (withRoots pair).RunWhere
        (fun i => VotesOnLast ((withRoots pair).deps i)) rootedPair
      ∧ (answers (rootedPair leader).trace).map (·.response.appHash) = [rootAt 1, rootAt 2]
      ∧ ∀ i, CarriesRoots (answers (rootedPair i).trace) := by
  have hrun : (withRoots pair).RunWhere
      (fun i => VotesOnLast ((withRoots pair).deps i)) rootedPair :=
    runWhere_outcome _ rfl (by decide +kernel)
  have hanswers : ∀ i, ∀ a ∈ answers (rootedPair i).trace,
      a.response = rootResponse a.context.height := by decide +kernel
  exact ⟨hrun, by decide +kernel, state_roots _ [2] ⟨by decide +kernel, by decide +kernel⟩
    (fun _ _ => rfl) hrun (collisionFree_sample rfl (by decide +kernel))
    (fun i => deterministic_height rootResponse (hanswers i))
    (fun i => .inr ((by decide +kernel :
      ∀ i, (rootedPair i).state.currentEpoch.number = 0) i)) (by decide +kernel)⟩

/-- The validator of power 3 commits its block of view 1, certifies that of view 2, and proposes on
it in view 4, after timeouts. -/
def rootedSolo : Fin 1 → Engine Unit :=
  outcome (withRoots (solo fun _ => [])) [.task only, .task only,
    .timeout only, .timeout only, .task only]

/-- Its block of view 4 is a child of that of view 2, and carries the root of the block of
view 1. -/
theorem state_root_stale : (withRoots (solo fun _ => [])).Run rootedSolo
      ∧ (withRoots (solo fun _ => [])).FaultBound [1]
      ∧ (withRoots (solo fun _ => [])).CollisionFree rootedSolo
      ∧ Deterministic (fun chain => rootResponse ((chain.getLast?.map (·.2.height)).getD 0))
        (answers (rootedSolo only).trace)
      ∧ (rootedSolo only).halted = false
      ∧ (answers (rootedSolo only).trace).map (·.response.appHash) = [rootAt 1, rootAt 2, rootAt 3]
      ∧ (answers (rootedSolo only).trace).map (·.block.parentHash)
        = BlockHash.genesis :: ((answers (rootedSolo only).trace).map (·.block.hash)).take 2
      ∧ (answers (rootedSolo only).trace).map (·.block.appHash)
        = [BlockHash.genesis, rootAt 1, rootAt 1] :=
  ⟨run_outcome _ rfl _, ⟨by decide +kernel, by decide +kernel⟩,
    collisionFree_sample rfl (by decide +kernel),
    deterministic_height rootResponse (by decide +kernel), by decide +kernel, by decide +kernel,
    by decide +kernel, by decide +kernel⟩

end Network

end Hotmint
