/-
What a node knows only grows, except for one field.

* `Advances`: the five fields that a step should never lower;
* `Engine.commitRun_height_le`: a commit, failed or not, never lowers the
  committed height;
* `DcFresh`: a proposal that moves the node up carries a double certificate no
  older than the remembered one and no newer than the proposal;
* `Act.advances`: every act of a step advances the state the step began in;
* `fields_advance`: **so each step advances all five fields, in every run whose
  proposals satisfy `DcFresh`**;
* `highestDoubleCert_falls`: without that, a proposal of a later view with an
  older double certificate replaces a newer one.
-/
import Hotmint.Safety.Execution
import Hotmint.Safety.Views

namespace Hotmint

open ConsensusState Sample

variable {σ : Type} {d : Deps σ} {A : Allowance}

/-- One double certificate, if any, is not replaced by one of a lower view. -/
def DcLe (old new : Option DoubleCertificate) : Prop :=
  ∀ dc, old = some dc → ∃ dc', new = some dc' ∧ dc.outerQc.view ≤ dc'.outerQc.view

lemma DcLe.refl (dc : Option DoubleCertificate) : DcLe dc dc := fun cert h => ⟨cert, h, le_rfl⟩

/-- No field has fallen between two states. -/
structure Advances (e e' : Engine σ) : Prop where
  currentView : e.state.currentView ≤ e'.state.currentView
  highestQc : QcLe e.state.highestQc e'.state.highestQc
  lockedQc : QcLe e.state.lockedQc e'.state.lockedQc
  highestDoubleCert : DcLe e.state.highestDoubleCert e'.state.highestDoubleCert
  lastCommittedHeight : e.state.lastCommittedHeight ≤ e'.state.lastCommittedHeight

lemma Advances.refl (e : Engine σ) : Advances e e :=
  ⟨le_rfl, QcLe.refl _, QcLe.refl _, DcLe.refl _, le_rfl⟩

/-! ### The committed height -/

lemma Engine.commitRun_height_le (e : Engine σ) (dc : DoubleCertificate) :
    e.state.lastCommittedHeight ≤ (e.commitRun d dc).lastCommittedHeight := by
  cases e.commitTrace d dc with
  | nothing _ hheight _ => exact hheight.ge
  | chain _ hwalk hchain _ _ hheight =>
    obtain ⟨n, -, -, -, ⟨hcount, -⟩ | ⟨-, m, -, hcount⟩⟩ := hchain.executed_take hwalk.heights.1
    · rw [hheight, hcount]
      exact Nat.le_add_right _ _
    · rw [hheight, hcount]
      exact Nat.le_add_right _ _

/-! ### Every act -/

namespace Act

variable {x y : Flow σ}

lemma lastCommittedHeight_le (h : Act d A x y) :
    x.engine.state.lastCommittedHeight ≤ y.engine.state.lastCommittedHeight := by
  obtain ⟨effects, -, hdisk⟩ := h.disk
  rcases hdisk.outside_or_commit with houtside | ⟨dc, hcommit⟩
  · exact houtside.lastCommittedHeight.ge
  · rw [hcommit.lastCommittedHeight]
    exact Engine.commitRun_height_le _ dc

end Act

/-- The remembered double certificate is of a view up to the current one. -/
def DcBounded (e : Engine σ) : Prop :=
  ∀ dc, e.state.highestDoubleCert = some dc → dc.outerQc.view ≤ e.state.currentView

/-- A double certificate of a proposal that is no older than the remembered one and
no newer than the proposal. -/
def DcBetween (e : Engine σ) (view : ℕ) (dc : DoubleCertificate) : Prop :=
  (∀ known, e.state.highestDoubleCert = some known → known.outerQc.view ≤ dc.outerQc.view)
    ∧ dc.outerQc.view ≤ view

/-- A proposal that moves the node up carries no older double certificate than the
one remembered, and none from beyond its own view. -/
def DcFresh (e : Engine σ) : Label → Prop
  | .message _ _ (.propose block _ (some dc) _ _) =>
    e.state.currentView < block.view → DcBetween e block.view dc
  | _ => True

/-- What is known of a message handled in the given state. -/
def freshAllowance (e : Engine σ) : Allowance where
  auth := fun _ => True
  jump := fun view _ dc => e.state.currentView < view → DcBetween e view dc
  unlogged := True

lemma DcFresh.labelOk {e : Engine σ} {label : Label} (h : DcFresh e label) :
    LabelOk (freshAllowance e) label := by
  cases label with
  | message env sender msg =>
    refine ⟨fun _ _ => trivial, fun block justify dc signature ancestors hmsg => ?_,
      fun _ _ => trivial⟩
    subst hmsg
    refine ⟨fun cert hcert => ?_, .inl trivial⟩
    subst hcert
    exact h
  | timeout | task env => trivial

/-- **Every act advances the state that its step began in.** -/
lemma Act.advances {e : Engine σ} (hstart : DcBounded e) {x y : Flow σ}
    (h : Act d (freshAllowance e) x y) (hx : Advances e x.engine ∧ DcBounded x.engine) :
    Advances e y.engine ∧ DcBounded y.engine := by
  obtain ⟨hadv, hbounded⟩ := hx
  have hview := hadv.currentView.trans h.currentView_le
  suffices hdc : DcLe e.state.highestDoubleCert y.engine.state.highestDoubleCert
      ∧ DcBounded y.engine by
    exact ⟨⟨hview, hadv.highestQc.trans h.qcLe_highestQc, hadv.lockedQc.trans h.qcLe_lockedQc,
      hdc.1, hadv.lastCommittedHeight.trans h.lastCommittedHeight_le⟩, hdc.2⟩
  rcases h.highestDoubleCert with heq | ⟨dc, hlt, hreason, heq⟩
  · refine ⟨heq ▸ hadv.highestDoubleCert, fun cert hcert => ?_⟩
    exact (hbounded cert (heq ▸ hcert)).trans h.currentView_le
  have hbetween : DcBetween e y.engine.state.currentView dc := by
    cases hreason with
    | formedDc _ _ houter =>
      refine ⟨fun known hknown => ?_, houter.le.trans hlt.le⟩
      exact (hstart known hknown).trans (hadv.currentView.trans houter.ge)
    | jump _ _ hjump => exact hjump (hadv.currentView.trans_lt hlt)
  refine ⟨fun known hknown => ⟨dc, heq, hbetween.1 known hknown⟩, fun cert hcert => ?_⟩
  obtain rfl := Option.some.inj (heq.symm.trans hcert)
  exact hbetween.2

/-! ### Every run -/

/-- One step, from a state with a bounded double certificate. -/
lemma Settled.advances {e : Engine σ} {label : Label} (henabled : e.enabled label = true)
    (hfresh : DcFresh e label)
    (h : Settled (fun x => TodoOk (freshAllowance e) x.engine ∧ DcBounded x.engine) e) :
    Settled (fun x => TodoOk (freshAllowance e) x.engine
      ∧ Advances e x.engine ∧ DcBounded x.engine) (e.apply d label) := by
  obtain ⟨htodo, hbounded⟩ := h.idle henabled
  have hstart : Settled (fun x => TodoOk (freshAllowance e) x.engine
      ∧ Advances e x.engine ∧ DcBounded x.engine) e :=
    ⟨.idle, .inl rfl, htodo, Advances.refl e, hbounded⟩
  exact hstart.step (fun _ _ _ hact hx => hact.advances hbounded hx) henabled hfresh.labelOk
    (holds_of (fun _ => trivial) (fun _ => trivial) (fun _ _ => trivial) e)

/-- Along a run the remembered double certificate stays bounded by the view. -/
lemma RunWhere.dcBounded {e₀ e : Engine σ} (hrun : RunWhere d DcFresh e₀ e)
    (htodo : TodoOk (freshAllowance e₀) e₀) (h₀ : DcBounded e₀) :
    Settled (fun x => TodoOk (freshAllowance e) x.engine ∧ DcBounded x.engine) e := by
  induction hrun with
  | refl => exact ⟨.idle, .inl rfl, htodo, h₀⟩
  | tail _ hstep ih =>
    cases hstep with
    | step henabled hfresh =>
      obtain ⟨φ, hφ, htodo, -, hbounded⟩ := ih.advances henabled hfresh
      exact ⟨φ, hφ, htodo.weaken fun _ => trivial, hbounded⟩

/-- **Nothing falls**: in every run of a started engine whose proposals satisfy
`DcFresh`, each step leaves the current view, the views of the highest certificate,
of the lock and of the highest double certificate, and the committed height no
lower than before. -/
theorem fields_advance (d : Deps σ) (cfg : NodeConfig) (trace : List Effect) (app : σ)
    (evidence : EvidenceStore) {e e' : Engine σ}
    (hrun : RunWhere d DcFresh (cfg.launch d trace app evidence) e)
    (hstep : StepWhere d DcFresh e e') : Advances e e' := by
  have htodo : TodoOk (freshAllowance (cfg.launch d trace app evidence))
      (cfg.launch d trace app evidence) := by
    intro task htask
    rw [NodeConfig.todo_launch htask]
    trivial
  have h₀ : DcBounded (cfg.launch d trace app evidence) := by
    intro dc hdc
    rw [(NodeConfig.forgotten_launch ..).highestDoubleCert] at hdc
    cases hdc
  cases hstep with
  | step henabled hfresh =>
    obtain ⟨φ, -, -, hadv, -⟩ := (hrun.dcBounded htodo h₀).advances henabled hfresh
    exact hadv

/-- Validator 1 has gone up to view 2 with the double certificate of view 1, and
resumes the proposal that brought it. -/
theorem fields_advance_leapOne : RunWhere (pair.deps 1) DcFresh (pair.init 1) leapOne
      ∧ leapOne.state.highestDoubleCert.map (·.outerQc.view) = some 1
      ∧ Advances leapOne (leapOne.apply (pair.deps 1) (.task env)) := by
  have hnone : (pair.init 1).state.highestDoubleCert = none :=
    (NodeConfig.forgotten_launch _ (pair.config 1) [] () .empty).highestDoubleCert
  have hrun : RunWhere (pair.deps 1) DcFresh (pair.init 1) leapOne := by
    refine .single (.step (by decide +kernel) fun _ => ⟨fun known hknown => ?_, by decide +kernel⟩)
    rw [hnone] at hknown
    cases hknown
  exact ⟨hrun, by decide +kernel, fields_advance _ (pair.config 1) [] () .empty hrun
    (.step (by decide +kernel) trivial)⟩

/-- The leader has run through views 1 and 2, and its proposal of view 3, with the
double certificate of view 2, has reached validator 1. -/
def risen : Fin 2 → Engine Unit :=
  outcome pair [.task leader, .task leader, .task leader, .relay replica leader 4, .task replica]

/-- Validator 1 after the proposal of validator 2 for view 13, with the double
certificate of view 1. -/
def fallen : Engine Unit :=
  (risen replica).apply (pair.deps replica) (.message env none (leapProposal 13 2))

/-- A faulty validator of power 1 out of 7 makes an honest node replace its double
certificate of view 2 by that of view 1. -/
theorem highestDoubleCert_falls : pair.FaultBound [2] ∧ pair.Run risen
    ∧ pair.Run (Function.update risen 1 fallen) ∧ Run (pair.deps 1) (pair.init 1) (risen 1)
    ∧ StepWhere (pair.deps 1) (fun _ _ => True) (risen 1) fallen
    ∧ (risen 1).state.highestDoubleCert.map (·.outerQc.view) = some 2
    ∧ fallen.state.highestDoubleCert.map (·.outerQc.view) = some 1
    ∧ ¬ Advances (risen 1) fallen := by
  have hrun : pair.Run risen := run_outcome _ rfl _
  have henabled : (risen 1).enabled (.message env none (leapProposal 13 2)) = true := by
    decide +kernel
  have hgenuine : genuineLabel pair risen
      (.message env none (leapProposal 13 2)) = true := by decide +kernel
  have hold : (risen 1).state.highestDoubleCert.map (·.outerQc.view) = some 2 := by decide +kernel
  have hnew : fallen.state.highestDoubleCert.map (·.outerQc.view) = some 1 := by decide +kernel
  refine ⟨⟨by decide +kernel, by decide +kernel⟩, hrun,
    hrun.tail (.step 1 _ henabled (labelAuthentic_of_genuine _ rfl hgenuine)), hrun.node 1,
    .step henabled trivial, hold, hnew, fun hadv => ?_⟩
  obtain ⟨dc, hdc, hview⟩ := Option.map_eq_some_iff.mp hold
  obtain ⟨dc', hdc', hview'⟩ := Option.map_eq_some_iff.mp hnew
  obtain ⟨dc'', hdc'', hle⟩ := hadv.highestDoubleCert dc hdc
  obtain rfl := Option.some.inj (hdc'.symm.trans hdc'')
  omega

end Hotmint
