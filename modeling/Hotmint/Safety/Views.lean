/-
Views are earned by certificates, except for one kind of message.

* `Earned`: the current view is at most one above the view of a certificate the
  node has checked or formed;
* `JumpEarned`: a proposal of a higher view that comes with a double certificate
  is of a view one of the node's certificates, or its own, accounts for;
* `Act.earned`: every act keeps views earned when such proposals are;
* `currentView_earned`: **so views are earned in every run whose proposals
  satisfy `JumpEarned`**;
* `currentView_not_earned`: without that, a faulty validator below quorum power
  moves an honest node to any view it leads, with an old double certificate.
-/
import Hotmint.Consensus.Sample
import Hotmint.Safety.Certificates

namespace Hotmint

open Sample

/-- The view of a certificate. -/
def Certificate.view : Certificate → ℕ
  | .qc _ cert => cert.view
  | .dc cert => cert.outerQc.view
  | .tc cert => cert.view

/-- The node has checked or formed a certificate of the view. -/
def CertifiedView (trace : List Effect) (view : ℕ) : Prop :=
  ∃ cert : Certificate, (Effect.verified cert ∈ trace ∨ Effect.formed cert ∈ trace)
    ∧ cert.view = view

lemma CertifiedView.mono {t t' : List Effect} (hsub : t ⊆ t') {view : ℕ}
    (h : CertifiedView t view) : CertifiedView t' view := by
  obtain ⟨cert, hcert, hview⟩ := h
  exact ⟨cert, hcert.imp (fun hmem => hsub hmem) fun hmem => hsub hmem, hview⟩

variable {σ : Type} {d : Deps σ}

/-- The view is at most one above the largest certified view; the genesis
certificate has view 0. -/
def Earned (trace : List Effect) (view : ℕ) : Prop :=
  view ≤ 1 ∨ ∃ certified, CertifiedView trace certified ∧ view ≤ certified + 1

lemma Earned.mono {t t' : List Effect} (hsub : t ⊆ t') {view : ℕ} (h : Earned t view) :
    Earned t' view := by
  rcases h with hle | ⟨certified, hcert, hle⟩
  · exact .inl hle
  · exact .inr ⟨certified, hcert.mono hsub, hle⟩

/-- A view that the certificates of a proposal, or those seen before, account
for. -/
def JumpAllowed (trace : List Effect) (view : ℕ) (justify : QuorumCertificate)
    (dc : DoubleCertificate) : Prop :=
  view ≤ justify.view + 1 ∨ view ≤ dc.outerQc.view + 1 ∨ Earned trace view

/-- A proposal with a double certificate, of a view above the current one, is of
a view that is accounted for. -/
def JumpEarned (e : Engine σ) : Label → Prop
  | .message _ _ (.propose block justify (some dc) _ _) =>
    e.state.currentView < block.view → JumpAllowed e.trace block.view justify dc
  | _ => True

/-! ### Every act -/

/-- A reason to enter a view earns it. -/
lemma EntryReason.earned {A : Allowance} {e : Engine σ} {trace : List Effect}
    (hsub : trace ⊆ e.trace)
    (hA : ∀ view justify dc, A.jump view justify dc → JumpAllowed trace view justify dc)
    {view : ℕ} {trigger : ViewEntryTrigger} (h : EntryReason A e view trigger) :
    Earned e.trace view := by
  cases h with
  | @formedDc dc hdc hview houter =>
    have hle : view ≤ dc.outerQc.view + 1 := by omega
    exact .inr ⟨_, ⟨.dc dc, .inr hdc, rfl⟩, hle⟩
  | @jump dc justify hdc hjustify hjump =>
    rcases hA view justify dc hjump with hle | hle | hearned
    · exact .inr ⟨_, ⟨.qc .vote justify, .inl hjustify, rfl⟩, hle⟩
    · exact .inr ⟨_, ⟨.dc dc, .inl hdc, rfl⟩, hle⟩
    · exact hearned.mono hsub
  | @timeout tc htc hview =>
    have hle : view ≤ tc.view + 1 := hview.le
    exact .inr ⟨_, ⟨.tc tc, htc, rfl⟩, hle⟩

/-- **Every act keeps the view earned.** -/
lemma Act.earned {A : Allowance} {x y : Flow σ} {trace : List Effect}
    (hsub : trace ⊆ x.engine.trace)
    (hA : ∀ view justify dc, A.jump view justify dc → JumpAllowed trace view justify dc)
    (h : Act d A x y) (hx : Earned x.engine.trace x.engine.state.currentView) :
    Earned y.engine.trace y.engine.state.currentView := by
  have hgrows := h.trace_grows.subset
  rcases h.currentView with heq | ⟨-, trigger, hreason⟩
  · rw [heq]
    exact hx.mono hgrows
  · exact (hreason.earned hsub hA).mono hgrows

/-! ### Every run -/

/-- Proposals move the node where certificates account for it. -/
def Allowance.jumping (trace : List Effect) : Allowance :=
  { Allowance.all with jump := JumpAllowed trace }

/-- What the condition on proposals allows the acts of a step to do. -/
lemma JumpEarned.labelOk {e : Engine σ} {label : Label}
    (hearned : Earned e.trace e.state.currentView) (h : JumpEarned e label) :
    LabelOk (.jumping e.trace) label := by
  cases label with
  | message env sender msg =>
    refine ⟨fun _ _ => trivial, fun block justify dc signature ancestors hmsg => ?_,
      fun _ _ => trivial⟩
    subst hmsg
    refine ⟨fun cert hcert => ?_, .inl trivial⟩
    subst hcert
    by_cases hfuture : e.state.currentView < block.view
    · exact h hfuture
    · -- a proposal of the current view or a past one moves the node nowhere
      rcases hearned with hle | ⟨certified, hcert, hle⟩
      · exact .inr (.inr (.inl (by omega)))
      · exact .inr (.inr (.inr ⟨certified, hcert, by omega⟩))
  | timeout | task env => trivial

/-- **Views are earned**: in every run from view 1 whose higher-view proposals
are accounted for by certificates, the current view is at most one above the
largest view of a certificate the node has received or formed. -/
theorem currentView_earned (d : Deps σ) (cfg : NodeConfig) (trace : List Effect) (app : σ)
    (evidence : EvidenceStore) (hstart : (cfg.launch d trace app evidence).state.currentView = 1)
    {e : Engine σ} (hrun : RunWhere d JumpEarned (cfg.launch d trace app evidence) e) :
    Earned e.trace e.state.currentView := by
  have htodo : TodoOk (.jumping (cfg.launch d trace app evidence).trace)
      (cfg.launch d trace app evidence) := by
    intro task htask
    rw [NodeConfig.todo_launch htask]
    trivial
  obtain ⟨φ, -, -, hearned⟩ := hrun.invariant (A := fun e => .jumping e.trace)
    (I := fun x => Earned x.engine.trace x.engine.state.currentView) (fun _ _ h => h)
    (fun e x y hsub hact hx => hact.earned hsub (fun _ _ _ h => h) hx)
    (fun e label hearned hP => hP.labelOk hearned)
    (fun e => holds_of (fun _ => trivial) (fun _ => trivial) (fun _ _ => trivial) e) htodo
      (.inl hstart.le)
  exact hearned

/-! The double certificate of view 1 accounts for a proposal of view 2 and for no
later one.  Validator 2 leads view 13 and may reuse that certificate. -/

/-- A proposal for the given view, on the first block and its certificates. -/
def leapProposal (view proposer : ℕ) : ConsensusMessage :=
  let vs := validatorSet [5, 1, 1]
  let first := block 1 BlockHash.genesis 1 0
  proposal 0 (block 2 first.hash view proposer) (qc vs [0] .vote 0 1 first.hash)
    (some (dc vs [0] 0 1 first.hash)) []

/-- Validator 1 started, and then sent the proposal of validator 0 for view 2. -/
def leapOne : Engine Unit :=
  (pair.init replica).apply (pair.deps replica) (.message env none (leapProposal 2 0))

theorem currentView_earned_leapOne : RunWhere (pair.deps 1) JumpEarned (pair.init 1) leapOne
      ∧ leapOne.state.currentView = 2 ∧ Earned leapOne.trace leapOne.state.currentView := by
  have hrun : RunWhere (pair.deps 1) JumpEarned (pair.init 1) leapOne :=
    .single (.step (by decide +kernel) fun _ => .inl (by decide +kernel))
  exact ⟨hrun, by decide +kernel,
    currentView_earned _ (pair.config 1) [] () .empty (by decide +kernel) hrun⟩

/-- The leader has run through view 1, and validator 2 has sent its proposal for
view 13 to validator 1. -/
def leapState : Fin 2 → Engine Unit :=
  outcome pair [.task leader, .task leader, .inject replica (leapProposal 13 2)]

/-- The view of the certificate that an effect establishes; 0 if it establishes none. -/
def Effect.certifiedView : Effect → ℕ
  | .verified cert => cert.view
  | .formed cert => cert.view
  | _ => 0

/-- A faulty validator of power 1 out of 7 moves an honest node from view 1 to
view 13; no certificate above view 1 exists. -/
theorem currentView_not_earned : pair.FaultBound [2] ∧ pair.Run leapState
    ∧ Run (pair.deps 1) (pair.init 1) (leapState 1)
    ∧ (pair.init 1).state.currentView = 1 ∧ (leapState 1).state.currentView = 13
    ∧ ¬ Earned (leapState 1).trace (leapState 1).state.currentView := by
  have hrun : pair.Run leapState := run_outcome _ rfl _
  have hview : (leapState 1).state.currentView = 13 := by decide +kernel
  have hcerts : ∀ effect ∈ (leapState 1).trace, ∀ cert : Certificate,
      effect = .verified cert ∨ effect = .formed cert → cert.view ≤ 1 := by
    have hall : (leapState 1).trace.all (fun effect => effect.certifiedView ≤ 1) = true := by
      decide +kernel
    intro effect hmem cert hcert
    have hle := List.all_eq_true.mp hall effect hmem
    rcases hcert with rfl | rfl
    · exact of_decide_eq_true hle
    · exact of_decide_eq_true hle
  refine ⟨⟨by decide +kernel, by decide +kernel⟩, hrun, hrun.node 1, by decide +kernel, hview, ?_⟩
  rw [hview]
  rintro (hle | ⟨certified, ⟨cert, hcert, rfl⟩, hle⟩)
  · omega
  · have hone : cert.view ≤ 1 := by
      rcases hcert with hmem | hmem
      · exact hcerts _ hmem cert (.inl rfl)
      · exact hcerts _ hmem cert (.inr rfl)
    omega

end Hotmint
