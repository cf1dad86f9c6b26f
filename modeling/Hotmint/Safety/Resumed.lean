/-
Every node of a network by itself, and the proposals it resumes.

* `Network.Run.nodes`: what holds of every node whatever the others do;
* `Network.ResumeInv`: a proposal that waits to be resumed is one of the current
  view, unless the node leads its view and has proposed another block with its hash;
* `Network.Run.resumes`: **so it is in every run**.
-/
import Hotmint.Proof.Entry
import Hotmint.Safety.FixedSet
import Hotmint.Safety.Chain

namespace Hotmint

variable {ι σ : Type} {N : Network ι σ}
variable {block : Block} {i : ι}
variable {A : Allowance} {d : Deps σ} {e : Engine σ} {x y : Flow σ} {label : Label}

/-! ### Every node by itself -/

/-- A fresh store holds the genesis block only. -/
lemma BlockStore.getBlock_new {hash : BlockHash}
    (h : BlockStore.new.getBlock hash = some block) :
    block = Block.genesis ∧ block.hash = hash := by
  rw [BlockStore.new, BlockStore.getBlock_putBlock] at h
  split_ifs at h with heq
  · cases h
    exact ⟨rfl, heq.symm⟩
  · cases h

namespace Fresh

variable {cfg : NodeConfig} {e : Engine σ}

lemma storedInv {c : Crypto} (h : Fresh cfg e) : StoredInv c e where
  hashed block hmem := by cases h.stored hmem
  getBlock hash block hget := by
    rw [h.store] at hget
    obtain ⟨hgenesis, hhash⟩ := BlockStore.getBlock_new hget
    exact ⟨hhash, .inl hgenesis⟩
  sign_vote _ _ _ _ _ _ _ hmem := by cases h.stored hmem
  proposed _ _ _ _ _ hmem := by cases h.stored hmem
  executed _ _ _ hmem := by cases h.stored hmem

lemma fixedInv (h : Fresh (N.config i) e) : N.FixedInv i ⟨e, .idle⟩ where
  validatorId := h.validatorId
  chainIdHash := h.chainIdHash
  validatorSet := h.validatorSet
  currentEpoch := by
    change e.state.currentEpoch.validatorSet = _
    rw [h.currentEpoch]
    rfl
  pendingEpoch epoch heq := by
    rw [show e.pendingEpoch = none from h.pendingEpoch] at heq
    cases heq
  previousEpoch epoch heq := by
    rw [show e.previousEpoch = none from h.previousEpoch] at heq
    cases heq
  executed result heq := by cases heq

lemma firstInv {app : σ} (h : Fresh (N.config i) ((N.config i).launch d [] app .empty)) :
    N.FirstInv i ⟨(N.config i).launch d [] app .empty, .idle⟩ where
  epochInv := (EpochInv.launch .nil).1
  validatorId := h.validatorId
  chainIdHash := h.chainIdHash
  first _ := ⟨h.currentEpoch, h.previousEpoch⟩

end Fresh

namespace Network

variable {s : ι → Engine σ}

/-- What holds of a node whatever the others do. -/
structure NodeInv (N : Network ι σ) (i : ι) (x : Flow σ) : Prop where
  fixed : N.FixedSet → N.FixedInv i x
  first : N.FirstInv i x
  stored : StoredInv N.crypto x.engine

lemma NodeInv.act (h : Act (N.deps i) A x y) (hx : N.NodeInv i x) : N.NodeInv i y := by
  refine ⟨fun hfixed => h.fixedInv hfixed (hx.fixed hfixed), h.firstInv hx.first, ?_⟩
  have hstored := hx.stored
  rw [← N.crypto_eq i] at hstored ⊢
  exact h.storedInv hstored

/-- The node has the network's set: no update changes it, or the node is still in its
first epoch. -/
def Stays (N : Network ι σ) (e : Engine σ) : Prop :=
  N.FixedSet ∨ e.state.currentEpoch.number = 0

lemma NodeInv.keys (h : N.NodeInv i x) (hstays : N.Stays x.engine) : N.NodeKeys i x.engine := by
  rcases hstays with hfixed | hfirst
  · exact (h.fixed hfixed).nodeKeys
  · exact h.first.nodeKeys hfirst

/-- A node that has the network's set had it before. -/
lemma Stays.before (h : Act (N.deps i) A x y)
    (hx : N.NodeInv i x) (hy : N.Stays y.engine) : N.Stays x.engine := by
  refine hy.imp_right fun hfirst => ?_
  have hle := (h.epoch_mono hx.first.epochInv).1
  omega

/-- **Every node keeps its own invariants**, and a node that runs is past view 0. -/
lemma Run.nodes [DecidableEq ι] (hrun : N.Run s) (i : ι) :
    Settled (fun x => TodoOk .all x.engine ∧ N.NodeInv i x) (s i)
      ∧ ((s i).halted = true ∨ 0 < (s i).state.currentView) := by
  induction hrun with
  | refl =>
    have hfresh := fresh_launch (N.deps i) (N.config i) (N.app i) .empty
    exact ⟨⟨.idle, .inl rfl, hfresh.todoOk, fun _ => hfresh.fixedInv, hfresh.firstInv,
      hfresh.storedInv⟩, NodeConfig.view_launch⟩
  | @tail t _ _ hstep ih =>
    cases hstep with
    | step j label henabled _ =>
      by_cases hij : i = j
      · subst hij
        rw [Function.update_self]
        obtain ⟨hsettled, hpos⟩ := ih
        refine ⟨hsettled.step (fun x y _ => NodeInv.act) henabled (labelOk_all label)
          (holds_all _), ?_⟩
        have hview : 0 < (t i).state.currentView := by
          rcases hpos with hhalt | hpos
          · rw [Engine.not_halted_of_enabled henabled] at hhalt
            cases hhalt
          · exact hpos
        have hreach := reach_apply (d := N.deps i) (labelOk_all label)
          (hsettled.idle henabled).1 (holds_all _)
        obtain ⟨φ, -, hle⟩ := hreach.invariant (I := fun x => 0 < x.engine.state.currentView)
          (fun x y h hx => hx.trans_le h.currentView_le) hview
        exact .inr hle
      · rw [Function.update_of_ne hij]
        exact ih

lemma Run.stored [DecidableEq ι] (hrun : N.Run s) (i : ι) : StoredInv N.crypto (s i) := by
  obtain ⟨φ, -, -, hnode⟩ := (hrun.nodes i).1
  exact hnode.stored

/-- Nodes that have the network's set after a step had it before. -/
lemma Step.stays [DecidableEq ι] {t u : ι → Engine σ} (hrun : N.Run t) (hstep : N.Step t u)
    (hstays : ∀ i, N.Stays (u i)) (i : ι) : N.Stays (t i) := by
  have hafter := hstays i
  cases hstep with
  | step j label henabled _ =>
    by_cases hij : i = j
    · subst hij
      rw [Function.update_self] at hafter
      obtain ⟨htodo, hnode⟩ := (hrun.nodes i).1.idle henabled
      obtain ⟨φ, -, -, hbefore⟩ :=
        (reach_apply (d := N.deps i) (labelOk_all label) htodo (holds_all _)).invariant
          (I := fun x => N.NodeInv i x ∧ (N.Stays x.engine → N.Stays (t i)))
          (fun x y h hx => ⟨hx.1.act h, fun hy => hx.2 (hy.before h hx.1)⟩) ⟨hnode, id⟩
      exact hbefore hafter
    · rwa [Function.update_of_ne hij] at hafter

/-! ### Resumed proposals -/

/-- Only the leader of its view could propose the block, and the node that holds the
trace knows another block with its hash if it is that leader. -/
def Stale (N : Network ι σ) (trace : List Effect) (block : Block) : Prop :=
  ∀ leader, N.validatorSet.leaderForView block.view = some leader → block.proposer = leader.id →
    ∃ b, KnownBlock trace b ∧ b.hash = block.hash ∧ b.view ≠ block.view

lemma Stale.mono {t t' : List Effect} (h : t ⊆ t') (hblock : N.Stale t block) :
    N.Stale t' block := by
  intro leader hleader hproposer
  obtain ⟨b, hb, hhash, hview⟩ := hblock leader hleader hproposer
  exact ⟨b, hb.mono h, hhash, hview⟩

/-- A proposal waiting to be resumed is one of the current view and the next thing to
do, or can only be one of the node's own. -/
def ResumeInv (N : Network ι σ) (e : Engine σ) : Prop :=
  ∀ block justify dc, Task.resumeProposal block justify dc ∈ e.todo →
    (block.view = e.state.currentView ∧ Task.tryPropose ∉ e.todo) ∨ N.Stale e.trace block

/-- A proposal of a higher view that the node would have to lead. -/
lemma stale_of_proposes (hkeys : N.NodeKeys i (s i))
    (hstored : StoredInv N.crypto (s i)) (hauth : N.LabelAuthentic s label)
    (hproposes : label.Proposes N.crypto (s i).keyring block)
    (hlt : (s i).state.currentView < block.view)
    (hlead : isLeaderOf N.validatorSet block.view (N.validatorId i) = true) :
    N.Stale (s i).trace block := by
  intro leader hleader hproposer
  have hown : block.proposer = N.validatorId i := by
    rw [isLeaderOf, hleader] at hlead
    exact hproposer.trans (of_decide_eq_true hlead)
  obtain ⟨env, sender, justify, dc, signature, ancestors, rfl, hverify⟩ := hproposes
  dsimp only [Keyring.verifyCurrent] at hverify
  split at hverify
  · cases hverify
  next vi hvi =>
  obtain ⟨epoch, -, hsig⟩ := List.any_eq_true.mp (Bool.and_eq_true_iff.mp hverify).1
  rw [hkeys.keysFixed.validatorSet, hown] at hvi
  -- the node has signed a proposal of this hash, so it has stored a block for it
  obtain ⟨effect, hmem, heffect⟩ := hauth signature List.mem_cons_self i vi _ hvi hsig
  cases effect with
  | sign payload =>
    cases heffect
    obtain ⟨b, hb, hhash, hle⟩ := hstored.proposed _ _ _ _ _ hmem
    exact ⟨b, hb, hhash, (hle.trans_lt hlt).ne⟩
  | _ => cases heffect

/-- A part of a step that enters no view. -/
lemma ResumeInv.commits {m : Engine σ} (he : N.ResumeInv e) (h : Commits d e m) :
    N.ResumeInv m := by
  intro block justify dc hmem
  refine (he block justify dc (h.todo hmem)).imp (fun hview => ?_) fun hstale => ?_
  · exact ⟨hview.1.trans h.currentView.symm, fun htry => hview.2 (h.todo htry)⟩
  · exact hstale.mono h.grows.subset

/-- Behind a proposal of its own that a node has to make, all proposals are stale. -/
lemma ResumeInv.stale (he : N.ResumeInv e) (htry : Task.tryPropose ∈ e.todo)
    {justify : QuorumCertificate} {dc : Option DoubleCertificate}
    (hmem : Task.resumeProposal block justify dc ∈ e.todo) : N.Stale e.trace block :=
  (he block justify dc hmem).resolve_left fun hview => hview.2 htry

/-- A view is entered while nothing is waiting, or by the node's own proposal. -/
lemma ResumeInv.ends {P : Block → Prop} {e' : Engine σ} (he : N.ResumeInv e)
    (h : Ends d P e e') (hidle : e.todo = [] ∨ (Task.tryPropose ∈ e.todo ∧ ∀ block, ¬ P block))
    (hstale : ∀ block, P block → e.state.currentView < block.view →
      isLeaderOf e'.state.validatorSet block.view e'.state.validatorId = true →
        N.Stale e.trace block) : N.ResumeInv e' := by
  cases h with
  | commits h => exact he.commits h
  | @entered m h tasks view trigger hleaves =>
    have hgrows := List.Subset.trans h.grows.subset
      (Housed.grows_advanceViewTo (d := d) { m with todo := tasks ++ m.todo } view trigger).subset
    have hwaiting : ∀ block justify dc, Task.resumeProposal block justify dc ∈ m.todo →
        N.Stale e.trace block := by
      intro block justify dc hmem
      rcases hidle with hnil | ⟨htry, -⟩
      · have hin := h.todo hmem
        rw [hnil] at hin
        cases hin
      · exact he.stale htry (h.todo hmem)
    have hview := Housed.advanceViewTo (d := d) { m with todo := tasks ++ m.todo } view trigger
    have htodo := Housed.todo_advanceViewTo (d := d) { m with todo := tasks ++ m.todo } view trigger
    generalize Engine.advanceViewTo d view trigger { m with todo := tasks ++ m.todo } = e'
      at hgrows hview htodo hstale
    intro block justify dc hmem
    rcases hleaves with rfl | ⟨left, justify', dc', rfl, rfl, hlt, hP⟩
    · refine .inr ((hwaiting block justify dc ?_).mono hgrows)
      rcases htodo with heq | ⟨heq, -⟩ <;> simpa [heq] using hmem
    · have hnil : m.todo = [] := by
        have hempty := hidle.resolve_right fun hboth => hboth.2 left hP
        exact List.subset_nil.mp (hempty ▸ h.todo)
      have hentered : e'.state.currentView = left.view := by
        rcases hview with ⟨hle, -⟩ | ⟨-, hview, -⟩
        · exact absurd (h.currentView ▸ hle) (not_le.mpr hlt)
        · exact hview
      rcases htodo with heq | ⟨heq, hlead⟩
      · rw [hnil] at heq
        obtain ⟨rfl, -⟩ : block = left ∧ _ := by simpa [heq] using hmem
        exact .inl ⟨hentered.symm, by simp [heq]⟩
      · rw [hnil] at heq
        obtain ⟨rfl, -⟩ : block = left ∧ _ := by simpa [heq] using hmem
        exact .inr ((hstale block hP hlt hlead).mono hgrows)

/-- **One step.** -/
lemma ResumeInv.step (hkeys : N.NodeKeys i (s i)) (hstored : StoredInv N.crypto (s i))
    (hkeys' : N.NodeKeys i ((s i).apply (N.deps i) label))
    (he : N.ResumeInv (s i)) (henabled : (s i).enabled label = true)
    (hauth : N.LabelAuthentic s label) :
    N.ResumeInv ((s i).apply (N.deps i) label) := by
  have hends := ends_apply (d := N.deps i) (s i) label
  rw [N.crypto_eq i] at hends
  have hstale : ∀ block, label.Proposes N.crypto (s i).keyring block →
      (s i).state.currentView < block.view →
      isLeaderOf ((s i).apply (N.deps i) label).state.validatorSet block.view
        ((s i).apply (N.deps i) label).state.validatorId = true → N.Stale (s i).trace block := by
    intro block hproposes hlt hlead
    rw [hkeys'.validatorSet, hkeys'.validatorId] at hlead
    exact stale_of_proposes hkeys hstored hauth hproposes hlt hlead
  cases htodo : (s i).todo with
  | nil => exact he.ends hends (.inl htodo) hstale
  | cons task todo =>
    -- only the continuation may run now
    obtain ⟨env, rfl⟩ : ∃ env, label = .task env := by
      cases label with
      | task env => exact ⟨env, rfl⟩
      | _ => simp [Engine.enabled, htodo] at henabled
    cases task with
    | tryPropose =>
      refine he.ends hends (.inr ⟨htodo ▸ .head _, ?_⟩) hstale
      rintro block ⟨_, _, _, _, _, _, heq, -⟩
      cases heq
    | resumeProposal block justify dc =>
      have hpop : Still (s i) { s i with todo } :=
        Still.silent rfl rfl rfl rfl rfl rfl (htodo ▸ List.subset_cons_self _ _) rfl
      have happly : (s i).apply (N.deps i) (.task env)
          = { s i with todo }.resumeProposal (N.deps i) env block justify dc := by
        change (s i).runTask (N.deps i) env = _
        rw [Engine.runTask, htodo]
      rw [happly]
      exact he.commits (hpop.commits (commits_resumeProposal _ block justify dc))

/-- **In every run a resumed proposal is one of the current view**, or one that only
the node itself could have made. -/
lemma Run.resumes [DecidableEq ι] (hrun : N.Run s) (hstays : ∀ i, N.Stays (s i)) (i : ι) :
    N.ResumeInv (s i) := by
  induction hrun with
  | refl =>
    intro block justify dc hmem
    have hfresh := fresh_launch (N.deps i) (N.config i) (N.app i) .empty
    cases hfresh.todo _ hmem
  | @tail t _ hrun hstep ih =>
    have hbefore := hstep.stays hrun hstays
    obtain ⟨φ, -, -, hnode'⟩ := (Run.nodes (hrun.tail hstep) i).1
    have hkeys' := hnode'.keys (hstays i)
    cases hstep with
    | step j label henabled hauth =>
      by_cases hij : i = j
      · subst hij
        rw [Function.update_self] at hkeys' ⊢
        obtain ⟨-, hnode⟩ := (Run.nodes hrun i).1.idle henabled
        exact (ih hbefore).step (hnode.keys (hbefore i)) hnode.stored hkeys' henabled hauth
      · rw [Function.update_of_ne hij]
        exact ih hbefore

end Network

end Hotmint
