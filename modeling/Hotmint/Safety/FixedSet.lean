/-
Networks whose validator set never changes.

* `Network.FixedSet`: the applications' updates keep the set;
* `ChainRun.execFixed`: so does the epoch fold of the execution loop;
* `Act.fixedInv`: **every epoch a node knows has the network's set**, in every
  state;
* `Act.firstInv`: a node that is still in its first epoch has the network's set too,
  whatever updates are pending.
-/
import Hotmint.Proof.Epochs
import Hotmint.Safety.Certificates

namespace Hotmint

open Option
variable {ι σ : Type}
variable {e : Engine σ} {x y : Flow σ} {vs : ValidatorSet}

/-- The application's updates keep a validator set. -/
def Application.KeepsSet (app : Application σ) (vs : ValidatorSet) : Prop :=
  ∀ s payload ctx response s' vs', app.executeBlock s payload ctx = (some response, s') →
    vs.tryApplyUpdates response.validatorUpdates = .ok vs' → vs' = vs

/-- The applications never change the validator set. -/
def Network.FixedSet (N : Network ι σ) : Prop :=
  ∀ i s payload ctx response s' vs,
    (N.deps i).app.executeBlock s payload ctx = (some response, s') →
    N.validatorSet.tryApplyUpdates response.validatorUpdates = .ok vs → vs = N.validatorSet

/-- The epochs of the execution loop all have one set. -/
structure ExecFixed (vs : ValidatorSet) (x : ExecState σ) : Prop where
  active : x.active.validatorSet = vs
  pending : ∀ epoch, x.pending = some epoch → epoch.validatorSet = vs
  activated : ∀ epoch, x.activated = some epoch → epoch.validatorSet = vs

lemma ExecFixed.activate {x : ExecState σ} (h : ExecFixed vs x)
    (block : Block) : ExecFixed vs (x.activate block) := by
  unfold ExecState.activate
  split
  · next epoch hpending =>
      have hset := h.pending epoch hpending
      split_ifs
      · exact ⟨hset, by simp, fun _ heq => some.inj heq ▸ hset⟩
      · exact h
  · exact h

/-- A new epoch keeps the set when the updates do. -/
lemma chainedPendingEpoch_fixed {active : Epoch} {pending : Option Epoch}
    {view : ℕ} {updates : List ValidatorUpdate} {epoch : Epoch} (hactive : active.validatorSet = vs)
    (hpending : ∀ epoch, pending = some epoch → epoch.validatorSet = vs)
    (hupdates : ∀ vs', vs.tryApplyUpdates updates = .ok vs' → vs' = vs)
    (hepoch : chainedPendingEpoch active pending view updates = .ok epoch) :
    epoch.validatorSet = vs := by
  have hbase : (pending.getD active).validatorSet = vs := by
    cases pending with
    | none => exact hactive
    | some epoch => exact hpending epoch rfl
  unfold chainedPendingEpoch at hepoch
  dsimp only at hepoch
  split at hepoch
  · next vs' hvs =>
      obtain rfl := Except.ok.inj hepoch
      exact hupdates vs' (hbase ▸ hvs)
  · cases hepoch

/-- The execution loop keeps the set when the application does. -/
lemma ChainRun.execFixed {app : Application σ} (happ : app.KeepsSet vs)
    {x x' : ExecState σ} {blocks : List Block} {ending : ExecEnd}
    (h : ChainRun app x blocks ending x') (hx : ExecFixed vs x) (hend : ending = .completed) :
    ExecFixed vs x' := by
  induction h with
  | done x => exact hx
  | stop _ hstop => exact absurd hend hstop
  | @next x x₁ x' block blocks ending hround _ ih =>
    refine ih ?_ hend
    have hact := hx.activate block
    cases hround with
    | completed hexec _ _ hactive _ hactivated _ hpending =>
      refine ⟨hactive ▸ hact.active, fun epoch heq => ?_,
        fun epoch heq => hact.activated epoch (hactivated ▸ heq)⟩
      rcases hpending with ⟨-, hsame⟩ | ⟨epoch', hchained, hnew⟩
      · exact hact.pending epoch (hsame ▸ heq)
      · obtain rfl := some.inj (hnew.symm.trans heq)
        obtain ⟨s₁, s₂, hcall⟩ := hexec
        exact chainedPendingEpoch_fixed hact.active hact.pending
          (fun vs' => happ _ _ _ _ _ vs' hcall) hchained

/-- Every epoch a node knows has the network's validator set. -/
structure Network.FixedInv (N : Network ι σ) (i : ι) (x : Flow σ) : Prop where
  validatorId : x.engine.state.validatorId = N.validatorId i
  chainIdHash : x.engine.state.chainIdHash = N.chainIdHash
  validatorSet : x.engine.state.validatorSet = N.validatorSet
  currentEpoch : x.engine.state.currentEpoch.validatorSet = N.validatorSet
  pendingEpoch : ∀ epoch, x.engine.pendingEpoch = some epoch → epoch.validatorSet = N.validatorSet
  previousEpoch : ∀ epoch, x.engine.previousEpoch = some epoch → epoch.validatorSet = N.validatorSet
  executed : ∀ result, x.phase = .executed result →
    (∀ epoch, result.pendingEpoch = some epoch → epoch.validatorSet = N.validatorSet)
      ∧ ∀ epoch, result.activatedEpoch = some epoch → epoch.validatorSet = N.validatorSet

variable {N : Network ι σ} {i : ι} {A : Allowance}

/-- The node is itself, and every set it can check against is the network's. -/
structure Network.NodeKeys (N : Network ι σ) (i : ι) (e : Engine σ) : Prop where
  validatorId : e.state.validatorId = N.validatorId i
  keysFixed : N.KeysFixed e.keyring

lemma Network.NodeKeys.validatorSet (h : N.NodeKeys i e) : e.state.validatorSet = N.validatorSet :=
  h.keysFixed.validatorSet

lemma Network.FixedInv.nodeKeys (h : N.FixedInv i x) : N.NodeKeys i x.engine :=
  ⟨h.validatorId, h.chainIdHash, h.validatorSet, h.previousEpoch⟩

/-- The epochs in the result of a commit have the network's set. -/
lemma Network.FixedInv.commitRun (hfixed : N.FixedSet)
    (h : N.FixedInv i ⟨e, .idle⟩) {dc : DoubleCertificate} {result : CommitResult}
    (hresult : phaseAfter (e.commitRun (N.deps i) dc).outcome = .executed result) :
    (∀ epoch, result.pendingEpoch = some epoch → epoch.validatorSet = N.validatorSet)
      ∧ ∀ epoch, result.activatedEpoch = some epoch → epoch.validatorSet = N.validatorSet := by
  cases e.commitTrace (N.deps i) dc with
  | nothing _ _ houtcome =>
    rcases houtcome with ⟨err, herr, -⟩ | ⟨result', hok, hempty⟩
    · rw [herr] at hresult
      cases hresult
    · rw [hok, phaseAfter, hempty] at hresult
      cases hresult
  | @chain target blocks ending x _ _ hchain houtcome _ _ =>
    rw [houtcome] at hresult
    cases ending with
    | completed =>
      have hstart : ExecFixed N.validatorSet (ExecState.start e.state.lastCommittedHeight
          e.state.currentEpoch e.previousEpoch e.pendingEpoch e.app) :=
        ⟨h.currentEpoch, h.pendingEpoch, by simp [ExecState.start]⟩
      have hend := hchain.execFixed (fun s payload ctx response s' vs' =>
        hfixed i s payload ctx response s' vs') hstart rfl
      simp only [outcomeOf, phaseAfter] at hresult
      split_ifs at hresult
      obtain rfl := Phase.executed.inj hresult
      exact ⟨hend.pending, hend.activated⟩
    | failed err | panicked => cases hresult

/-- **Every act keeps the set.** -/
lemma Act.fixedInv (hfixed : N.FixedSet) (h : Act (N.deps i) A x y)
    (hx : N.FixedInv i x) : N.FixedInv i y := by
  have hexecuted : ∀ result, y.phase = .executed result →
      (∀ epoch, result.pendingEpoch = some epoch → epoch.validatorSet = N.validatorSet)
        ∧ ∀ epoch, result.activatedEpoch = some epoch → epoch.validatorSet = N.validatorSet := by
    intro result hresult
    rcases h.phase with heq | heq | ⟨_, -, heq⟩ | ⟨dc, -, hidle, -, heq⟩
    · exact hx.executed result (heq ▸ hresult)
    · rw [heq] at hresult
      cases hresult
    · rw [heq] at hresult
      cases hresult
    · obtain ⟨e, φ⟩ := x
      obtain rfl : φ = .idle := hidle
      exact hx.commitRun hfixed (heq ▸ hresult)
  have hid := h.validatorId.trans hx.validatorId
  have hchain := h.chainIdHash.trans hx.chainIdHash
  rcases h.epochs with ⟨hvs, hcur, hpend, hprev⟩ | ⟨result, hphase, hvs, hcur, hpend, hprev⟩
    | ⟨epoch, hpending, -, hvs, hcur, hpend, hprev⟩
  · exact ⟨hid, hchain, hvs.trans hx.validatorSet, hcur ▸ hx.currentEpoch,
      hpend ▸ hx.pendingEpoch, hprev ▸ hx.previousEpoch, hexecuted⟩
  · obtain ⟨hrpend, hract⟩ := hx.executed result hphase
    cases hactivated : result.activatedEpoch with
    | none =>
      simp only [hactivated, map_none, getD_none] at hvs hcur hprev
      exact ⟨hid, hchain, hvs.trans hx.validatorSet, hcur ▸ hx.currentEpoch, hpend ▸ hrpend,
        hprev ▸ hx.previousEpoch, hexecuted⟩
    | some activated =>
      have hset := hract activated hactivated
      simp only [hactivated, map_some, getD_some] at hvs hcur hprev
      refine ⟨hid, hchain, hvs.trans hset, hcur ▸ hset, hpend ▸ hrpend, fun epoch heq => ?_,
        hexecuted⟩
      obtain rfl := some.inj (hprev.symm.trans heq)
      exact hx.currentEpoch
  · have hset := hx.pendingEpoch epoch hpending
    refine ⟨hid, hchain, hvs.trans hset, hcur ▸ hset, by simp [hpend], fun epoch' heq => ?_,
      hexecuted⟩
    obtain rfl := some.inj (hprev.symm.trans heq)
    exact hx.currentEpoch

/-! ### The first epoch -/

/-- A node that has not left its first epoch knows no other. -/
structure Network.FirstInv (N : Network ι σ) (i : ι) (x : Flow σ) : Prop where
  epochInv : EpochInv x
  validatorId : x.engine.state.validatorId = N.validatorId i
  chainIdHash : x.engine.state.chainIdHash = N.chainIdHash
  first : x.engine.state.currentEpoch.number = 0 →
    x.engine.state.currentEpoch = Epoch.genesis N.validatorSet ∧ x.engine.previousEpoch = none

lemma Network.FirstInv.nodeKeys (h : N.FirstInv i x)
    (hfirst : x.engine.state.currentEpoch.number = 0) : N.NodeKeys i x.engine := by
  obtain ⟨hcurrent, hprevious⟩ := h.first hfirst
  refine ⟨h.validatorId, h.chainIdHash, ?_, fun epoch heq => ?_⟩
  · change x.engine.state.validatorSet = _
    rw [h.epochInv.validatorSet, hcurrent]
    rfl
  · rw [show x.engine.keyring.previousEpoch = none from hprevious] at heq
    cases heq

/-- **No act leads back to the first epoch.** -/
lemma Act.firstInv (h : Act (N.deps i) A x y) (hx : N.FirstInv i x) : N.FirstInv i y where
  epochInv := h.epochInv hx.epochInv
  validatorId := h.validatorId.trans hx.validatorId
  chainIdHash := h.chainIdHash.trans hx.chainIdHash
  first hfirst := by
    obtain ⟨hle, hsame⟩ := h.epoch_mono hx.epochInv
    have hbefore : x.engine.state.currentEpoch.number = 0 := by omega
    obtain ⟨hcurrent, hprevious⟩ := hsame (hfirst.trans hbefore.symm)
    rw [hcurrent, hprevious]
    exact hx.first hbefore

end Hotmint
