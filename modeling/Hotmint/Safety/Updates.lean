/-
When validator updates take effect.

* `UpdatesInForce`: the current epoch was announced by the blocks executed so far up to
  some point, and the epoch made after that starts above the current view;
* `TimelyUpdates`: the blocks a step executes have updates that can be applied, make no
  epoch while another one is pending, and make none for a view already reached;
* `updates_in_force`: **then every update is in force two views after its block**;
* `updates_postponed`: a second block with updates postpones those of the first one.
-/
import Hotmint.Consensus.Sample
import Hotmint.Proof.Epochs
import Hotmint.Proof.Schedule

namespace Hotmint

open Sample List
variable {σ : Type} {d : Deps σ}
variable {e : Engine σ} {first : Epoch}
variable {e' m : Engine σ} {runs : List (Block × EndBlockResponse)} {cfg : NodeConfig}

/-- The epochs of a node are those that its executed blocks announce: the current one is
in force, and the pending one starts above the current view. -/
structure UpdatesInForce (first : Epoch) (e : Engine σ) : Prop where
  inForce : InForce first (ranBlocks e.trace) e.state.currentEpoch e.pendingEpoch
  ahead : Ahead e.state.currentView e.pendingEpoch []

/-- The blocks that a step executes. -/
def Engine.newRuns (d : Deps σ) (e : Engine σ) (label : Label) : List (Block × EndBlockResponse) :=
  ranBlocks ((e.apply d label).trace.drop e.trace.length)

/-- The updates of the blocks that a step executes can be applied, one after the other;
no block with updates is below the start of an epoch still pending then; and no block
with updates is two views below the current one, unless a later block of the same
commit starts its epoch. -/
def TimelyUpdates (d : Deps σ) (e : Engine σ) (label : Label) : Prop :=
  (announce (e.pendingEpoch.getD e.state.currentEpoch) (e.newRuns d label)).isOk = true
    ∧ Spaced e.pendingEpoch (e.newRuns d label)
    ∧ InTime e.state.currentView (e.newRuns d label)

instance (d : Deps σ) (e : Engine σ) (label : Label) : Decidable (TimelyUpdates d e label) :=
  inferInstanceAs (Decidable (_ ∧ _))

/-- Entering a view puts the pending epoch in force when it is due. -/
lemma UpdatesInForce.advanceViewTo (h : UpdatesInForce first m)
    (view : ℕ) (trigger : ViewEntryTrigger) :
    UpdatesInForce first (m.advanceViewTo d view trigger) := by
  rcases advanceViewTo_epochs (d := d) m view trigger with
    heq | ⟨-, hview, hran, ⟨hcurrent, hpending, -, hdue⟩ | ⟨epoch, hp, -, hcurrent, hpending, -⟩⟩
  · rwa [heq]
  · refine ⟨by rw [hran, hcurrent, hpending]; exact h.inForce, fun epoch hepoch => .inl ?_⟩
    rw [hview]
    exact hdue epoch (hpending ▸ hepoch)
  · have hforce := h.inForce
    rw [hp] at hforce
    exact ⟨by rw [hran, hcurrent, hpending]; exact hforce.started, by rw [hpending]; nofun⟩

section

variable (he : UpdatesInForce first e)
  (hok : (announce (e.pendingEpoch.getD e.state.currentEpoch) runs).isOk = true)
  (hspaced : Spaced e.pendingEpoch runs) (htime : InTime e.state.currentView runs)

include he hok hspaced htime

/-- A commit of such blocks keeps the updates in force. -/
lemma Commits.updatesInForce (h : Commits d e m) (halive : m.halted = false)
    (hran : ranBlocks m.trace = ranBlocks e.trace ++ runs) : UpdatesInForce first m := by
  obtain ⟨hview, ⟨hcurrent, hpending, -, hsame⟩ |
    ⟨_, _, _, x, happlied, hx, hcurrent, hpending, -⟩⟩ :=
    h.epochs halive
  · rcases hsame with hsame | ⟨runs', reason, hran', herror⟩
    · exact ⟨by rw [hsame, hcurrent, hpending]; exact he.inForce,
        by rw [hview, hpending]; exact he.ahead⟩
    · obtain rfl : runs = runs' := append_cancel_left (hran.symm.trans hran')
      rw [herror] at hok
      cases hok
  · obtain ⟨runs', hruns', hloop⟩ := happlied.inForce
    have hruns : runs = runs' := by
      rw [hruns'] at hx
      exact append_cancel_left (hran.symm.trans hx)
    subst hruns
    have hahead : Ahead e.state.currentView e.pendingEpoch runs := by
      intro epoch hepoch
      rcases he.ahead epoch hepoch with hlt | ⟨_, hmem, -⟩
      · exact .inl hlt
      · cases hmem
    obtain ⟨hforce, hahead⟩ := hloop first _ _ he.inForce hspaced htime hahead
    refine ⟨?_, ?_⟩
    · rw [hran, hcurrent, hpending]
      exact hforce
    · rw [hview, hpending]
      exact hahead

/-- What a step executes is executed before it enters a view. -/
lemma Ends.updatesInForce {P : Block → Prop} (h : Ends d P e e') (halive : e'.halted = false)
    (hran : ranBlocks e'.trace = ranBlocks e.trace ++ runs) : UpdatesInForce first e' := by
  cases h with
  | commits h => exact h.updatesInForce he hok hspaced htime halive hran
  | @entered m h tasks view trigger _ =>
    have hsame : ranBlocks ({ m with todo := tasks ++ m.todo }.advanceViewTo d view trigger).trace
        = ranBlocks m.trace := by
      rcases advanceViewTo_epochs (d := d) { m with todo := tasks ++ m.todo } view trigger with
        heq | ⟨-, -, hsame, -⟩
      · rw [heq]
      · exact hsame
    have hgoes : { m with todo := tasks ++ m.todo }.halted = false :=
      Housed.halted_advanceViewTo halive
    have hm := h.updatesInForce he hok hspaced htime hgoes (hsame.symm.trans hran)
    have hleft : UpdatesInForce first { m with todo := tasks ++ m.todo } :=
      ⟨hm.inForce, hm.ahead⟩
    exact hleft.advanceViewTo view trigger

end

/-- **One step.** -/
lemma StepWhere.updatesInForce
    (hstep : StepWhere d (TimelyUpdates d) e e') (he : e.halted = false → UpdatesInForce first e)
    (halive : e'.halted = false) : UpdatesInForce first e' := by
  cases hstep with
  | @step label henabled htimely =>
    obtain ⟨hok, hspaced, htime⟩ := htimely
    have hends := ends_apply (d := d) e label
    refine hends.updatesInForce (he (Engine.not_halted_of_enabled henabled)) hok hspaced htime
      halive ?_
    obtain ⟨effects, heq⟩ := hends.grows
    rw [Engine.newRuns, ← heq, drop_left, ranBlocks_append]

/-- **A whole run.** -/
lemma RunWhere.updatesInForce
    (hrun : RunWhere d (TimelyUpdates d) e e') (he : e.halted = false → UpdatesInForce first e)
    (halive : e'.halted = false) : UpdatesInForce first e' := by
  induction hrun with
  | refl => exact he halive
  | tail _ hstep ih => exact hstep.updatesInForce ih halive

/-- A fresh node has executed nothing. -/
lemma Fresh.updatesInForce (h : Fresh cfg e) :
    UpdatesInForce (Epoch.genesis cfg.validatorSet) e := by
  have hran : ranBlocks e.trace = [] := ranBlocks_of_news (news_of_stored fun _ => h.stored)
  refine ⟨?_, by rw [h.pendingEpoch]; nofun⟩
  rw [hran, h.currentEpoch, h.pendingEpoch]
  exact InForce.start _

/-- The validator set is that of the current epoch. -/
lemma RunWhere.validatorSet_eq {P : Engine σ → Label → Prop} {app : σ}
    {evidence : EvidenceStore} (hrun : RunWhere d P (cfg.launch d [] app evidence) e) :
    e.state.validatorSet = e.state.currentEpoch.validatorSet := by
  obtain ⟨φ, -, -, hinv⟩ := hrun.keeps (fun x y h hx => h.epochInv hx)
    (fresh_launch d cfg app evidence).todoOk (EpochInv.launch .nil).1
  exact hinv.validatorSet

/-- **Validator updates take effect on time.**  In every run of a node from a fresh start
whose steps have timely updates, take a block with updates that was executed, in a state
whose view is at or above two views after it.  The validator set of the state is the one
of the epoch that the executed blocks announce, up to some point at or after that
block. -/
theorem updates_in_force (d : Deps σ) (cfg : NodeConfig) (app : σ) (evidence : EvidenceStore)
    {e : Engine σ} (hrun : RunWhere d (TimelyUpdates d) (cfg.launch d [] app evidence) e)
    (halive : e.halted = false) {before after : List (Block × EndBlockResponse)} {block : Block}
    {response : EndBlockResponse} (hran : ranBlocks e.trace = before ++ (block, response) :: after)
    (hupdates : response.validatorUpdates ≠ []) (hview : block.view + 2 ≤ e.state.currentView) :
    ∃ done epoch, before ++ [(block, response)] <+: done ∧ done <+: ranBlocks e.trace
      ∧ announce (Epoch.genesis cfg.validatorSet) done = .ok epoch
      ∧ e.state.currentEpoch = epoch ∧ e.state.validatorSet = epoch.validatorSet := by
  have hforce := hrun.updatesInForce (fun _ => (fresh_launch d cfg app evidence).updatesInForce)
    halive
  obtain ⟨done, rest, hsplit, hdone, hrest⟩ := hforce.inForce.announced
  -- a block after those would have made the pending epoch, which starts above the view
  have hnot : (block, response) ∉ rest := by
    intro hmem
    obtain ⟨epoch, hpending, hstart⟩ := hrest _ hmem hupdates
    rcases hforce.ahead epoch hpending with hlt | ⟨_, hnil, -⟩
    · rw [hstart] at hlt
      exact absurd hview (not_le.mpr hlt)
    · cases hnil
  refine ⟨done, _, ?_, hsplit ▸ prefix_append _ _, hdone, rfl, ?_⟩
  · rw [hran] at hsplit
    rcases append_eq_append_iff.mp hsplit with ⟨middle, rfl, hmiddle⟩ | ⟨middle, -, hmiddle⟩
    · cases middle with
      | nil =>
        rw [nil_append] at hmiddle
        exact absurd (hmiddle ▸ .head _) hnot
      | cons run middle =>
        obtain rfl := (cons.inj hmiddle).1
        exact prefix_append_right_inj _ |>.mpr ⟨middle, rfl⟩
    · exact absurd (hmiddle ▸ mem_append_right _ mem_cons_self) hnot
  · exact hrun.validatorSet_eq

/-- A leader with a quorum of its own, whose application answers with updates at the
given heights. -/
def updater (heights : List ℕ) : Deps Unit := deps 0 (updatesAt heights)

/-- Its first state. -/
def updaterStart (heights : List ℕ) : Engine Unit :=
  (pair.config leader).launch (updater heights) [] () .empty

/-- It has committed its blocks of views 1 and 2, and is in view 3. -/
def updaterTwo (heights : List ℕ) : Engine Unit :=
  ((updaterStart heights).apply (updater heights) (.task env)).apply (updater heights) (.task env)

theorem updates_in_force_one :
    RunWhere (updater [1]) (TimelyUpdates (updater [1])) (updaterStart [1]) (updaterTwo [1])
      ∧ (updaterTwo [1]).state.currentEpoch.number = 1
      ∧ ∀ run ∈ (ranBlocks (updaterTwo [1]).trace).head?, ∃ done epoch, [run] <+: done
        ∧ done <+: ranBlocks (updaterTwo [1]).trace
        ∧ announce (Epoch.genesis (pair.config leader).validatorSet) done = .ok epoch
        ∧ (updaterTwo [1]).state.currentEpoch = epoch
        ∧ (updaterTwo [1]).state.validatorSet = epoch.validatorSet := by
  have hrun : RunWhere (updater [1]) (TimelyUpdates (updater [1])) (updaterStart [1])
      (updaterTwo [1]) :=
    .tail (.single (.step (by decide +kernel) (by decide +kernel)))
      (.step (by decide +kernel) (by decide +kernel))
  refine ⟨hrun, by decide +kernel, fun run hrun' => ?_⟩
  have hfirst : ∀ run ∈ (ranBlocks (updaterTwo [1]).trace).head?,
      run.2.validatorUpdates ≠ [] ∧ run.1.view + 2 ≤ (updaterTwo [1]).state.currentView := by
    decide +kernel
  obtain ⟨block, response⟩ := run
  obtain ⟨after, hran⟩ := head?_eq_some_iff.mp hrun'
  have hsplit : ranBlocks (updaterTwo [1]).trace = [] ++ (block, response) :: after := hran
  exact updates_in_force (updater [1]) (pair.config leader) () .empty hrun (by decide +kernel)
    hsplit (hfirst _ hrun').1 (hfirst _ hrun').2

/-- Both blocks have updates: those of the second postpone the epoch that the first one
made.  In view 3 the validator set is still the one of the start. -/
theorem updates_postponed : Run (updater [1, 2]) (updaterStart [1, 2]) (updaterTwo [1, 2])
      ∧ (updaterTwo [1, 2]).halted = false
      ∧ (∀ run ∈ (ranBlocks (updaterTwo [1, 2]).trace).head?, run.2.validatorUpdates ≠ []
        ∧ run.1.view + 2 ≤ (updaterTwo [1, 2]).state.currentView)
      ∧ (ranBlocks (updaterTwo [1, 2]).trace).length = 2
      ∧ (updaterTwo [1, 2]).state.validatorSet = (pair.config leader).validatorSet
      ∧ ∀ done epoch, done ≠ [] → done <+: ranBlocks (updaterTwo [1, 2]).trace →
        announce (Epoch.genesis (pair.config leader).validatorSet) done = .ok epoch →
        (updaterTwo [1, 2]).state.validatorSet ≠ epoch.validatorSet := by
  refine ⟨.tail (.single (.step (by decide +kernel) trivial)) (.step (by decide +kernel) trivial),
    by decide +kernel, by decide +kernel, by decide +kernel, by decide +kernel,
    fun done epoch hne hdone hannounced hset => ?_⟩
  have hparts : ∀ done ∈ (ranBlocks (updaterTwo [1, 2]).trace).inits, done ≠ [] →
      (announce (Epoch.genesis (pair.config leader).validatorSet) done).toOption.map
        (·.validatorSet) ≠ some (updaterTwo [1, 2]).state.validatorSet := by decide +kernel
  refine hparts done ((mem_inits _ _).mpr hdone) hne ?_
  rw [hannounced, hset]
  rfl

end Hotmint
