/-
Agreement: no two honest nodes commit different blocks at one height.

* `Network.Run.history`: **the honest votes of every run form a valid history**,
  one act at a time;
* `Network.agreement`: agreement for whole networks.
-/
import Hotmint.Consensus.Sample
import Hotmint.Safety.History

namespace Hotmint

open VoteHistory Sample

variable {ι σ : Type} {N : Network ι σ} {faulty : List ℕ}
variable {B : Block → Prop} {H : History ι} {i : ι}

namespace Fresh

variable {cfg : NodeConfig} {e : Engine σ}

/-- A fresh node has seen no certificate but the genesis one. -/
lemma certInv (h : Fresh cfg e) : N.CertInv faulty [] e := by
  obtain ⟨hlocked, hhighest, hview, hcerts, hwishes⟩ : QcHoldings
      (fun t qc => N.BackedCert faulty [] (.qc t qc)) e :=
    (h.holdings fun qc hqc => .inl (h.highestQc qc hqc)).qcs
  refine ⟨hlocked, hhighest, hview, fun cert hcert =>
    Network.certWhere_backed.mp (hcerts cert hcert), fun key v hv => ?_, hwishes⟩
  rw [h.voteCollector] at hv
  simp [VoteCollector.bucket, VoteCollector.new] at hv

/-- A fresh node has not voted. -/
lemma voteInv (h : Fresh (N.config i) e) : N.VoteInv i [] e where
  slot _ _ _ _ hmem := by cases hmem
  lock _ _ hmem := by cases hmem
  highest qc hqc := by
    rw [h.lockedQc] at hqc
    cases hqc
  known qc hqc := .inl (h.highestQc qc hqc)
  block _ _ _ _ hmem := by cases hmem
  signed vote hvote := by
    rcases hvote with ⟨_, _, _, hmem⟩ | ⟨_, hmem⟩ <;> cases h.stored hmem

end Fresh

namespace Network

variable {s : ι → Engine σ}

/-! ### The history of a run -/

/-- The honest votes so far, and what every node knows of them. -/
structure HistoryInv (N : Network ι σ) (faulty : List ℕ) (s : ι → Engine σ) (H : History ι) :
    Prop where
  valid : Valid (N.IsQuorum faulty) BlockHash.genesis H
  cert : ∀ i, N.CertInv faulty H (s i)
  vote : ∀ i, N.VoteInv i H (s i)

/-- Signatures on votes are votes in the history. -/
lemma HistoryInv.signedVoted (h : N.HistoryInv faulty s H)
    (hstored : ∀ i, StoredInv N.crypto (s i)) : N.SignedVoted s H := by
  rintro i epoch view validator hash t ext ⟨effect, hmem, heffect⟩
  cases effect with
  | sign payload =>
    cases heffect
    exact absurd hmem ((hstored i).sign_vote _ _ _ _ _ _ _)
  | signVote1 vote block justify locked =>
    have hvoted := ((h.vote i).signed vote (.inl ⟨_, _, _, hmem⟩)).2
    obtain ⟨-, -, hview, -, hhash, htype, -⟩ :=
      SigningPayload.vote.inj (Option.some.inj heffect)
    rw [← hview, ← hhash, ← htype]
    exact hvoted
  | signVote2 vote qc =>
    have hvoted := ((h.vote i).signed vote (.inr ⟨_, hmem⟩)).2
    obtain ⟨-, -, hview, -, hhash, htype, -⟩ :=
      SigningPayload.vote.inj (Option.some.inj heffect)
    rw [← hview, ← hhash, ← htype]
    exact hvoted
  | _ => cases heffect

/-- What the stepping node knows in the middle of a step: the history at the
beginning of the step, extended by votes of its own. -/
def StepInv (N : Network ι σ) (faulty : List ℕ) (i : ι) (H : History ι) (e : Engine σ) : Prop :=
  ∃ H', H ⊆ H' ∧ (∀ v ∈ H', v ∈ H ∨ v.voter = i)
    ∧ Valid (N.IsQuorum faulty) BlockHash.genesis H' ∧ N.CertInv faulty H' e ∧ N.VoteInv i H' e

/-- The blocks behind the votes of a history are among the known ones. -/
lemma HistoryInv.links {H' : History ι} {e : Engine σ}
    (h : N.HistoryInv faulty s H) (hothers : ∀ j b, j ≠ i → KnownBlock (s j).trace b → B b)
    (hown : ∀ b, KnownBlock e.trace b → B b) (hnew : ∀ v ∈ H', v ∈ H ∨ v.voter = i)
    (hvote : N.VoteInv i H' e) {hash p : BlockHash} (hlink : Link H' hash p) :
    ∃ b, B b ∧ b.hash = hash ∧ b.parentHash = p := by
  obtain ⟨j, view, pv, hmem⟩ := hlink
  by_cases hj : j = i
  · subst hj
    obtain ⟨b, _, hvoted⟩ := hvote.block _ _ _ _ hmem
    exact ⟨b, hown b hvoted.known, hvoted.hash_eq, hvoted.parentHash_eq⟩
  · have hold := (hnew _ hmem).resolve_right hj
    obtain ⟨b, _, hvoted⟩ := (h.vote j).block _ _ _ _ hold
    exact ⟨b, hothers j b hj hvoted.known, hvoted.hash_eq, hvoted.parentHash_eq⟩

/-- **An act in the middle of a step** extends the history of the step. -/
lemma StepInv.act (hbound : N.FaultBound faulty) (hB : HashInjective B)
    (hroot : B Block.genesis) (h : N.HistoryInv faulty s H)
    (hstored : ∀ i, StoredInv N.crypto (s i))
    (hothers : ∀ j b, j ≠ i → KnownBlock (s j).trace b → B b) {A : Allowance}
    (hauth : ∀ sig, A.auth sig → N.AuthenticSignature s sig) {x y : Flow σ}
    (hresumed : ∀ block, A.resumed block → N.Stale x.engine.trace block)
    (hact : Act (N.deps i) A x y) (hkeys : N.NodeKeys i x.engine)
    (hnode : N.NodeInv i x) (hpos : 0 < x.engine.state.currentView)
    (hown : ∀ b, KnownBlock x.engine.trace b → B b) (hx : N.StepInv faulty i H x.engine) :
    N.StepInv faulty i H y.engine := by
  obtain ⟨H₁, hsub, hnew, hvalid, hcert, hvote⟩ := hx
  have hsigned : N.SignedVoted s H₁ := fun j epoch view validator hash t ext hsign =>
    (h.signedVoted hstored j epoch view validator hash t ext hsign).mono hsub
  obtain ⟨H₂, hsub', hnew', hvalid', hcert', hvote'⟩ := extends_history hbound hB hroot
    ⟨hvalid, fun hash p => h.links hothers hown hnew hvote⟩ hpos hvote hcert
    ⟨hauth, hresumed, hsigned, hvote.signed⟩ hkeys hnode.stored hown hact
  refine ⟨H₂, List.Subset.trans hsub hsub', fun v hv => ?_, hvalid', hcert', hvote'⟩
  rcases hnew' v hv with hmem | hvoter
  · exact hnew v hmem
  · exact .inr hvoter

/-- What a step of a node knows: the signatures it reads are authentic, and a proposal
that it resumes in another view is stale. -/
def stepAllowance (N : Network ι σ) (s : ι → Engine σ) (i : ι) : Allowance :=
  { Allowance.all with
    auth := N.AuthenticSignature s
    resumed := N.Stale (s i).trace }

lemma labelOk_stepAllowance {label : Label} (hauth : N.LabelAuthentic s label) (i : ι) :
    LabelOk (N.stepAllowance s i) label := by
  cases label with
  | message env sender msg =>
    exact ⟨fun sig hsig => hauth sig hsig,
      fun _ _ _ _ _ _ => ⟨fun _ _ => trivial, .inl trivial⟩, fun _ _ => trivial⟩
  | timeout | task env => trivial

lemma holds_stepAllowance (h : N.ResumeInv (s i)) : (N.stepAllowance s i).Holds (s i) := by
  refine ⟨trivial, fun block justify dc todo htodo => ?_, fun _ => trivial⟩
  exact (h block justify dc (htodo ▸ .head _)).imp And.left id

/-- **A step of a node** extends the history of the network. -/
lemma HistoryInv.step [DecidableEq ι] (hbound : N.FaultBound faulty)
    (hB : HashInjective B) (hroot : B Block.genesis) (h : N.HistoryInv faulty s H)
    (hrun : N.Run s) (hstays : ∀ i, N.Stays (s i)) {label : Label}
    (hstays' : N.Stays ((s i).apply (N.deps i) label))
    (henabled : (s i).enabled label = true) (hauth : N.LabelAuthentic s label) (hknown : ∀ j b,
      KnownBlock (Function.update s i ((s i).apply (N.deps i) label) j).trace b → B b) :
    ∃ H', N.HistoryInv faulty (Function.update s i ((s i).apply (N.deps i) label)) H' := by
  have hstored := hrun.stored
  have hothers : ∀ j b, j ≠ i → KnownBlock (s j).trace b → B b := fun j b hj hb =>
    hknown j b (by rwa [Function.update_of_ne hj])
  obtain ⟨htodo, hnode⟩ := (hrun.nodes i).1.idle henabled
  have hpos : 0 < (s i).state.currentView := by
    rcases (hrun.nodes i).2 with hhalt | hpos
    · rw [Engine.not_halted_of_enabled henabled] at hhalt
      cases hhalt
    · exact hpos
  have hreach := reach_apply (d := N.deps i) (labelOk_stepAllowance hauth i)
    (htodo.weaken fun _ => trivial) (holds_stepAllowance (hrun.resumes hstays i))
  have hact : ∀ x y, Act (N.deps i) (N.stepAllowance s i) x y →
      ((s i).trace ⊆ x.engine.trace ∧ N.NodeInv i x ∧ 0 < x.engine.state.currentView
        ∧ (N.Stays x.engine → (∀ b, KnownBlock x.engine.trace b → B b) →
          N.StepInv faulty i H x.engine)) →
      (s i).trace ⊆ y.engine.trace ∧ N.NodeInv i y ∧ 0 < y.engine.state.currentView
        ∧ (N.Stays y.engine → (∀ b, KnownBlock y.engine.trace b → B b) →
          N.StepInv faulty i H y.engine) := by
    intro x y hxy hx
    obtain ⟨hsub, hn, hp, hstep⟩ := hx
    have hgrows := hxy.trace_grows.subset
    refine ⟨List.Subset.trans hsub hgrows, hn.act hxy, hp.trans_le hxy.currentView_le,
      fun hstays hy => ?_⟩
    have hstays := hstays.before hxy hn
    have hown : ∀ b, KnownBlock x.engine.trace b → B b := fun b hb => hy b (hb.mono hgrows)
    exact (hstep hstays hown).act hbound hB hroot h hstored hothers (fun _ hsig => hsig)
      (fun _ hstale => Stale.mono hsub hstale) hxy (hn.keys hstays) hn hp hown
  obtain ⟨φ, -, -, -, -, hstep⟩ := hreach.invariant hact
    ⟨List.Subset.refl _, hnode, hpos, fun _ _ => ⟨H, List.Subset.refl _, fun v hv => .inl hv,
      h.valid, h.cert i, h.vote i⟩⟩
  obtain ⟨H', hsub, hnew, hvalid, hcert, hvote⟩ := hstep hstays' fun b hb =>
    hknown i b (by rwa [Function.update_self])
  refine ⟨H', hvalid, fun j => ?_, fun j => ?_⟩
  · by_cases hj : j = i
    · subst hj
      rwa [Function.update_self]
    · rw [Function.update_of_ne hj]
      exact (h.cert j).mono hsub
  · by_cases hj : j = i
    · subst hj
      rwa [Function.update_self]
    · rw [Function.update_of_ne hj]
      refine (h.vote j).mono_other hsub fun v hv hvoter => ?_
      exact (hnew v hv).resolve_right fun hi => hj (hvoter.symm.trans hi)

/-- **The honest votes of every run form a valid history**, as long as no two
stored blocks share a hash. -/
theorem Run.history [DecidableEq ι] (hbound : N.FaultBound faulty)
    (hB : HashInjective B) (hroot : B Block.genesis) (hrun : N.Run s)
    (hstays : ∀ i, N.Stays (s i)) (hknown : ∀ i b, KnownBlock (s i).trace b → B b) :
    ∃ H, N.HistoryInv faulty s H := by
  induction hrun with
  | refl =>
    have hfresh := fun i => fresh_launch (N.deps i) (N.config i) (N.app i) .empty
    exact ⟨[], .nil, fun i => (hfresh i).certInv, fun i => (hfresh i).voteInv⟩
  | @tail t u hrun hstep ih =>
    have hgrows : ∀ i, (t i).trace ⊆ (u i).trace := by
      intro i
      cases hstep with
      | step j label henabled _ =>
        by_cases hij : i = j
        · subst hij
          rw [Function.update_self]
          have htodo := ((Run.nodes hrun i).1.idle henabled).1
          exact (reach_apply (labelOk_all label) htodo (holds_all _)).trace_grows.subset
        · rw [Function.update_of_ne hij]
          exact List.Subset.refl _
    have hbefore := hstep.stays hrun hstays
    obtain ⟨H, hH⟩ := ih hbefore fun i b hb => hknown i b (hb.mono (hgrows i))
    cases hstep with
    | step i label henabled hauth =>
      have hafter := hstays i
      rw [Function.update_self] at hafter
      exact hH.step hbound hB hroot hrun hbefore hafter henabled hauth hknown

/-! ### Agreement -/

/-- Block hashes are collision-free among the blocks the nodes have stored. -/
def CollisionFree (N : Network ι σ) (s : ι → Engine σ) : Prop :=
  (∀ i j b b', Effect.putBlock b ∈ (s i).trace → Effect.putBlock b' ∈ (s j).trace →
    N.crypto.computeHash b = N.crypto.computeHash b' → b = b')
    ∧ ∀ i b, Effect.putBlock b ∈ (s i).trace → N.crypto.computeHash b ≠ BlockHash.genesis

/-- The blocks any node knows. -/
def Known (s : ι → Engine σ) (block : Block) : Prop := ∃ i, KnownBlock (s i).trace block

lemma CollisionFree.hashInjective (hcoll : N.CollisionFree s)
    (hstored : ∀ i, StoredInv N.crypto (s i)) : HashInjective (Known s) := by
  rintro b b' ⟨i, rfl | hb⟩ ⟨j, rfl | hb'⟩ heq
  · rfl
  · rw [(hstored j).hashed b' hb'] at heq
    exact absurd heq.symm (hcoll.2 j b' hb')
  · rw [(hstored i).hashed b hb] at heq
    exact absurd heq (hcoll.2 i b hb)
  · rw [(hstored i).hashed b hb, (hstored j).hashed b' hb'] at heq
    exact hcoll.1 i j b b' hb hb' heq

/-- Descent in the history is ancestry of blocks. -/
lemma HistoryInv.ancestor (h : N.HistoryInv faulty s H)
    (hB : HashInjective B) (hknown : ∀ b, Known s b → B b) {top bottom : Block} (htop : B top)
    (hbottom : B bottom) (hdesc : Descends H top.hash bottom.hash) : Ancestor B top bottom := by
  generalize hhash : top.hash = hash at hdesc
  induction hdesc using Relation.ReflTransGen.head_induction_on generalizing top with
  | refl =>
    obtain rfl := hB _ _ htop hbottom hhash
    exact .refl
  | head hlink _ ih =>
    obtain ⟨i, view, pv, hmem⟩ := hlink
    obtain ⟨b, parent, hvoted⟩ := (h.vote i).block _ _ _ _ hmem
    obtain rfl := hB _ _ htop (hknown b ⟨i, hvoted.known⟩) (hhash.trans hvoted.hash_eq.symm)
    have hparentB := hknown parent ⟨i, hvoted.parentKnown⟩
    exact .head ⟨hparentB, hvoted.parent_hash.trans hvoted.parentHash_eq.symm, hvoted.height⟩
      (ih hparentB hvoted.parent_hash)

/-- **A finalized block is an ancestor of every block certified in the same view
or a later one.** -/
lemma HistoryInv.ancestor_of_certified (hbound : N.FaultBound faulty)
    (h : N.HistoryInv faulty s H) (hB : HashInjective B)
    (hknown : ∀ b, Known s b → B b) {dc : DoubleCertificate} {top block : Block}
    (htop : B top) (hblock : FinalizedBy (s i).trace dc block) {w : ℕ}
    (hcert : N.Proved faulty H .vote w top.hash) (hle : dc.outerQc.view ≤ w) :
    Ancestor B top block := by
  obtain ⟨hdc, target, htarget, hhash, hanc⟩ := hblock
  obtain ⟨-, houter, heq⟩ := (h.cert i).certs (.dc dc) hdc
  rw [← heq, ← hhash] at houter
  have hdesc := h.valid.certified_descends (IsQuorum.inter hbound) houter List.suffix_rfl hcert hle
  refine (h.ancestor hB hknown htop (hknown target ⟨i, htarget⟩) hdesc).trans ?_
  exact hanc.mono fun b hb => hknown b ⟨i, hb⟩

/-- A finalized block has a known descendant that was certified in the view of the
double certificate. -/
lemma HistoryInv.finalized (hbound : N.FaultBound faulty)
    (h : N.HistoryInv faulty s H) {dc : DoubleCertificate} {block : Block}
    (hblock : FinalizedBy (s i).trace dc block) :
    ∃ target, Known s target ∧ N.Proved faulty H .vote dc.outerQc.view target.hash
      ∧ Ancestor (Known s) target block := by
  obtain ⟨hdc, target, htarget, hhash, hanc⟩ := hblock
  obtain ⟨-, houter, heq⟩ := (h.cert i).certs (.dc dc) hdc
  rw [← heq, ← hhash] at houter
  exact ⟨target, ⟨i, htarget⟩, (h.valid.certified_of_finalized (IsQuorum.inter hbound) houter).2,
    hanc.mono fun b hb => ⟨i, hb⟩⟩

/-- **No two nodes commit different blocks at one height**, where the votes form a valid
history. -/
lemma HistoryInv.committed_eq (hbound : N.FaultBound faulty)
    (hH : N.HistoryInv faulty s H) (hstored : ∀ i, StoredInv N.crypto (s i))
    (hB : HashInjective (Known s)) {j : ι} {b b' : Block} (hb : Committed (s i) b)
    (hb' : Committed (s j) b') (hheight : b.height = b'.height) : b = b' := by
  obtain ⟨ctx, response, hmem⟩ := hb
  obtain ⟨ctx', response', hmem'⟩ := hb'
  obtain ⟨dc, hdc⟩ := (hstored i).executed b ctx response hmem
  obtain ⟨dc', hdc'⟩ := (hstored j).executed b' ctx' response' hmem'
  -- both blocks are ancestors of the target that was finalized in the later view
  rcases le_total dc.outerQc.view dc'.outerQc.view with hle | hle
  · obtain ⟨target, hknown, hcert, hanc⟩ := hH.finalized hbound hdc'
    exact (hH.ancestor_of_certified hbound hB (fun _ => id) hknown hdc hcert hle).unique hB hanc
      hheight
  · obtain ⟨target, hknown, hcert, hanc⟩ := hH.finalized hbound hdc
    exact hanc.unique hB (hH.ancestor_of_certified hbound hB (fun _ => id) hknown hdc' hcert hle)
      hheight

/-- **Agreement.**  With one validator set and faulty validators of at most
`maxFaultyPower`, no two honest nodes commit different blocks at one height, in
any run. -/
theorem agreement [DecidableEq ι] (N : Network ι σ) (faulty : List ℕ)
    (hbound : N.FaultBound faulty) (hfixed : N.FixedSet) (s : ι → Engine σ) (hrun : N.Run s)
    (hcoll : N.CollisionFree s) {i j : ι} {b b' : Block} (hb : Committed (s i) b)
    (hb' : Committed (s j) b') (hheight : b.height = b'.height) : b = b' := by
  have hstored := hrun.stored
  have hB := hcoll.hashInjective hstored
  obtain ⟨H, hH⟩ := hrun.history hbound hB ⟨i, .inl rfl⟩ (fun _ => .inl hfixed)
    fun i b hb => ⟨i, hb⟩
  exact hH.committed_eq hbound hstored hB hb hb' hheight

/-- The sample application keeps a set that no updates leave as it is. -/
lemma keepsSet_sample {vs : ValidatorSet} (h : vs.tryApplyUpdates [] = .ok vs) :
    (application fun _ => []).KeepsSet vs := by
  intro s payload ctx response s' vs' hexec hvs
  obtain rfl : response = ⟨[], [], BlockHash.genesis⟩ :=
    (Option.some.inj (Prod.mk.inj hexec).1).symm
  exact (Except.ok.inj (h.symm.trans hvs)).symm

/-- The sample hashes are collision-free on blocks that a check tells apart. -/
lemma collisionFree_sample {n : ℕ} {N : Network (Fin n) Unit} {s : Fin n → Engine Unit}
    (hhash : N.crypto.computeHash = blockHash)
    (hcheck : ∀ i j : Fin n, ∀ b ∈ storedBlocks (s i), ∀ b' ∈ storedBlocks (s j),
      (blockHash b = blockHash b' → b = b')
        ∧ blockHash b ≠ BlockHash.genesis) : N.CollisionFree s := by
  unfold CollisionFree
  rw [hhash]
  exact ⟨fun i j b b' hb hb' => (hcheck i j b (mem_storedBlocks hb) b' (mem_storedBlocks hb')).1,
    fun i b hb => (hcheck i i b (mem_storedBlocks hb) b (mem_storedBlocks hb)).2⟩

/-! The hypotheses are met by a network of two honest nodes and a faulty one: the
leader commits two blocks by itself, and the other node commits the first of
them when it receives the second proposal. -/

/-- The leader runs through two views; the replica receives both proposals. -/
def sampleState : Fin 2 → Engine Unit :=
  outcome pair [.task leader, .task leader, .relay replica leader 0, .relay replica leader 2]

/-- The first block of that run. -/
def sampleBlock : Block := block 1 BlockHash.genesis 1 0

/-- That run meets the hypotheses. -/
lemma sampleState_ok : pair.FaultBound [2] ∧ pair.FixedSet
    ∧ pair.Run sampleState ∧ pair.CollisionFree sampleState := by
  have hcoll : pair.CollisionFree sampleState := collisionFree_sample rfl (by decide +kernel)
  exact ⟨⟨by decide +kernel, by decide +kernel⟩, fun _ => keepsSet_sample (by decide +kernel),
    run_outcome _ rfl _, hcoll⟩

theorem agreement_pair : pair.FaultBound [2] ∧ pair.FixedSet
    ∧ pair.Run sampleState ∧ pair.CollisionFree sampleState
    ∧ Committed (sampleState 0) sampleBlock ∧ Committed (sampleState 1) sampleBlock
    ∧ ∀ b, Committed (sampleState 1) b → b.height = 1 → sampleBlock = b := by
  obtain ⟨hbound, hfixed, hrun, hcoll⟩ := sampleState_ok
  have hleader : Committed (sampleState 0) sampleBlock :=
    committed_of_mem (by decide +kernel)
  have hreplica : Committed (sampleState 1) sampleBlock :=
    committed_of_mem (by decide +kernel)
  exact ⟨hbound, hfixed, hrun, hcoll, hleader, hreplica, fun b hb hheight =>
    agreement pair [2] hbound hfixed sampleState hrun hcoll hleader hb hheight.symm⟩

end Network

end Hotmint
