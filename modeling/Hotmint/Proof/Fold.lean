/-
The execution loop of `try_commit` when every callback succeeds.

* `EvidenceApplied`, `BlockApplied`: the callbacks for one block succeed;
* `RoundApplied`, `executeOne_eq_completed`: a round that succeeds, with all it does
  to the loop variables;
* `ChainApplied`, `executeChain_eq_completed`: **the loop completes exactly when every
  round succeeds**;
* `ChainApplied.calls`: the callbacks it has made then;
* `collectChain_of_walk`, `tryCommit_of_walk`: the backward loop, and `try_commit`,
  on a walk;
* `tryCommit_ok`: **a commit that returned completed the loop on a walk**.
-/
import Hotmint.Consensus.Engine
import Hotmint.Proof.Commits

namespace Hotmint

open List
variable {σ : Type} {app : Application σ}
variable {block : Block} {store : BlockStore} {x x' : ExecState σ} {blocks : List Block}
  {pending previousEpoch : Option Epoch} {s : σ} {lastCommitted : ℕ}

/-! ### One block -/

/-- The proofs are accepted one after the other. -/
inductive EvidenceApplied (app : Application σ) : σ → List EquivocationProof → σ → Prop
  | nil (s : σ) : EvidenceApplied app s [] s
  | cons {s s₁ s' : σ} {proof : EquivocationProof} {proofs : List EquivocationProof}
      (h : app.onEvidence s proof = (true, s₁)) (hrest : EvidenceApplied app s₁ proofs s') :
      EvidenceApplied app s (proof :: proofs) s'

/-- All callbacks for a block succeed: its proofs, its execution, its notification. -/
def BlockApplied (app : Application σ) (s : σ) (block : Block) (ctx : BlockContext)
    (response : EndBlockResponse) (s' : σ) : Prop :=
  ∃ s₁ s₂, EvidenceApplied app s block.evidence s₁
    ∧ app.executeBlock s₁ (decodePayload block.payload) ctx = (some response, s₂)
    ∧ app.onCommit s₂ block ctx = (true, s')

/-- The callbacks for a block that all succeed. -/
def blockCalls (block : Block) (ctx : BlockContext) (response : EndBlockResponse) : List AppCall :=
  block.evidence.map (.onEvidence · true)
    ++ [.executeBlock block ctx (some response), .onCommit block ctx true]

/-- The callbacks for a chain whose blocks all succeed, given their contexts and
answers. -/
def chainCalls (blocks : List Block) (answers : List (BlockContext × EndBlockResponse)) :
    List AppCall :=
  (blocks.zip answers).flatMap fun p => blockCalls p.1 p.2.1 p.2.2

/-- The callbacks of the lifecycle of committed blocks. -/
def Effect.lifecycle : Effect → Option AppCall
  | .app (.onEvidence proof ok) => some (.onEvidence proof ok)
  | .app (.executeBlock block ctx response) => some (.executeBlock block ctx response)
  | .app (.onCommit block ctx ok) => some (.onCommit block ctx ok)
  | _ => none

/-- The lifecycle callbacks of a trace, in order. -/
def lifecycle (trace : List Effect) : List AppCall := trace.filterMap Effect.lifecycle

@[simp] lemma lifecycle_append (t t' : List Effect) :
    lifecycle (t ++ t') = lifecycle t ++ lifecycle t' :=
  filterMap_append

lemma lifecycle_blockCalls (block : Block) (ctx : BlockContext) (response : EndBlockResponse) :
    lifecycle ((blockCalls block ctx response).map .app) = blockCalls block ctx response := by
  have hproofs : ∀ proofs : List EquivocationProof,
      lifecycle ((proofs.map (AppCall.onEvidence · true)).map .app)
        = proofs.map (AppCall.onEvidence · true) := by
    intro proofs
    induction proofs with
    | nil => rfl
    | cons proof proofs ih => exact congrArg (AppCall.onEvidence proof true :: ·) ih
  rw [blockCalls, map_append, lifecycle_append, hproofs]
  rfl

/-- A block that was executed, with the answer of the application. -/
def Effect.ran : Effect → Option (Block × EndBlockResponse)
  | .app (.executeBlock block _ (some response)) => some (block, response)
  | _ => none

/-- The blocks executed in a trace, in order. -/
def ranBlocks (trace : List Effect) : List (Block × EndBlockResponse) :=
  trace.filterMap Effect.ran

@[simp] lemma ranBlocks_append (t t' : List Effect) :
    ranBlocks (t ++ t') = ranBlocks t ++ ranBlocks t' :=
  filterMap_append

/-- What is read off other effects is not there. -/
lemma filterMap_evidence {β : Type} {f : Effect → Option β}
    (hf : ∀ proof, f (.app (.onEvidence proof true)) = none) (proofs : List EquivocationProof) :
    ((proofs.map (AppCall.onEvidence · true)).map Effect.app).filterMap f = [] := by
  simp [filterMap_map, hf]

lemma ranBlocks_blockCalls (block : Block) (ctx : BlockContext) (response : EndBlockResponse) :
    ranBlocks ((blockCalls block ctx response).map .app) = [(block, response)] := by
  rw [blockCalls, map_append, ranBlocks_append, ranBlocks, filterMap_evidence fun _ => rfl]
  rfl

lemma applyEvidence_eq_true {proofs : List EquivocationProof} {s' : σ} {calls : List AppCall} :
    applyEvidence app proofs s = (true, s', calls) ↔
      EvidenceApplied app s proofs s' ∧ calls = proofs.map (.onEvidence · true) := by
  induction proofs generalizing s calls with
  | nil =>
    simp only [applyEvidence, Prod.mk.injEq, true_and, map_nil]
    constructor
    · rintro ⟨rfl, rfl⟩
      exact ⟨.nil s, rfl⟩
    · rintro ⟨h, rfl⟩
      cases h
      exact ⟨rfl, rfl⟩
  | cons proof proofs ih =>
    rcases happ : app.onEvidence s proof with ⟨ok, s₁⟩
    rcases hrest : applyEvidence app proofs s₁ with ⟨ok', s₂, calls₂⟩
    simp only [applyEvidence, happ, hrest]
    constructor
    · intro h
      split_ifs at h with hok
      · simp only [Prod.mk.injEq] at h
        obtain ⟨rfl, rfl, rfl⟩ := h
        obtain ⟨happlied, rfl⟩ := ih.mp hrest
        exact ⟨.cons (by rw [happ, hok]) happlied, rfl⟩
      · cases h
    · rintro ⟨h, rfl⟩
      cases h with
      | cons hproof happlied =>
        rw [happ, Prod.mk.injEq] at hproof
        obtain ⟨rfl, rfl⟩ := hproof
        have heq := ih.mpr ⟨happlied, rfl⟩
        rw [hrest] at heq
        simp only [Prod.mk.injEq] at heq
        obtain ⟨rfl, rfl, rfl⟩ := heq
        rfl

/-- **`execute_committed_block` succeeds** exactly when all its callbacks do. -/
lemma executeCommittedBlock_eq_some {ctx : BlockContext} {s' : σ}
    {response : EndBlockResponse} {calls : List AppCall} :
    executeCommittedBlock app block ctx s = (some response, s', calls) ↔
      BlockApplied app s block ctx response s' ∧ calls = blockCalls block ctx response := by
  constructor
  · intro h
    rcases hevidence : applyEvidence app block.evidence s with ⟨ok, s₁, calls₁⟩
    rcases hexec : app.executeBlock s₁ (decodePayload block.payload) ctx with ⟨answer, s₂⟩
    rcases hcommit : app.onCommit s₂ block ctx with ⟨ok', s₃⟩
    simp only [executeCommittedBlock, hevidence] at h
    cases ok with
    | false => cases h
    | true =>
      obtain ⟨happlied, rfl⟩ := applyEvidence_eq_true.mp hevidence
      rw [if_pos rfl, hexec] at h
      cases answer with
      | none => cases h
      | some response' =>
        simp only [hcommit, Prod.mk.injEq] at h
        obtain ⟨hanswer, rfl, rfl⟩ := h
        split_ifs at hanswer with hok
        subst hok
        cases hanswer
        exact ⟨⟨s₁, s₂, happlied, hexec, hcommit⟩, rfl⟩
  · rintro ⟨⟨s₁, s₂, happlied, hexec, hcommit⟩, rfl⟩
    simp only [executeCommittedBlock, applyEvidence_eq_true.mpr ⟨happlied, rfl⟩, if_pos, hexec,
      hcommit]
    rfl

/-! ### The loop -/

/-- The updates of a block make an epoch that starts two views later. -/
lemma chainedPendingEpoch_startView {active epoch : Epoch} {view : ℕ}
    {updates : List ValidatorUpdate}
    (h : chainedPendingEpoch active pending view updates = .ok epoch) :
    epoch.startView = view + 2 := by
  unfold chainedPendingEpoch at h
  dsimp only at h
  split at h
  · rw [← Except.ok.inj h]
  · cases h

namespace ExecState

/-- Does the block activate the pending epoch? -/
def activates (x : ExecState σ) (block : Block) : Bool :=
  match x.pending with
  | some epoch => epoch.startView ≤ block.view
  | none => false

lemma activate_of_not_activates (h : x.activates block = false) : x.activate block = x := by
  unfold activates at h
  unfold activate
  cases hpending : x.pending with
  | none => rfl
  | some epoch =>
    rw [hpending] at h
    exact if_neg (of_decide_eq_false h)

lemma activate_of_activates (h : x.activates block = true) : ∃ epoch, x.pending = some epoch
      ∧ epoch.startView ≤ block.view ∧ x.activate block = { x with
        previous := some x.active
        active := epoch
        pending := none
        activated := some epoch } := by
  unfold activates at h
  unfold activate
  cases hpending : x.pending with
  | none =>
    rw [hpending] at h
    cases h
  | some epoch =>
    rw [hpending] at h
    exact ⟨epoch, rfl, of_decide_eq_true h, if_pos (of_decide_eq_true h)⟩

/-- The loop variables after a block that succeeded. -/
def advance (app : Application σ) (x : ExecState σ) (block : Block) (response : EndBlockResponse)
    (s : σ) (pending : Option Epoch) : ExecState σ :=
  { x.activate block with
    pending
    lastAppHash := if app.tracksAppHash s then response.appHash else block.appHash
    responses := x.responses ++ [response]
    lastCommittedHeight := block.height
    app := s
    calls := x.calls ++ blockCalls block (x.context block) response }

end ExecState

/-- A round in which every callback succeeds and the updates can be applied. -/
def RoundApplied (app : Application σ) (x : ExecState σ) (block : Block) (x' : ExecState σ) :
    Prop :=
  ∃ response s pending, BlockApplied app x.app block (x.context block) response s
    ∧ pendingAfter (x.activate block).active (x.activate block).pending block.view
      response.validatorUpdates = .ok pending
    ∧ x' = x.advance app block response s pending

/-- **A round completes** exactly when everything in it succeeds. -/
lemma executeOne_eq_completed :
    executeOne app x block = (.completed, x') ↔ RoundApplied app x block x' := by
  obtain ⟨-, hcalls, hresponses, -⟩ := x.activate_frame block
  rw [executeOne_eq]
  constructor
  · intro h
    rcases hblock : executeCommittedBlock app block (x.context block) x.app with
      ⟨_ | response, s, calls⟩
    all_goals rw [hblock] at h
    · cases h
    obtain ⟨happlied, rfl⟩ := executeCommittedBlock_eq_some.mp hblock
    unfold ExecState.conclude at h
    dsimp only at h
    split at h
    · next pending hmade =>
      refine ⟨response, s, pending, happlied, hmade, ?_⟩
      rw [← (Prod.mk.inj h).2, hcalls, hresponses]
      rfl
    · cases h
  · rintro ⟨response, s, pending, happlied, hpending, rfl⟩
    rw [executeCommittedBlock_eq_some.mpr ⟨happlied, rfl⟩]
    simp only [ExecState.conclude, hpending, hcalls, hresponses]
    rfl

/-- Rounds that all succeed. -/
inductive ChainApplied (app : Application σ) : ExecState σ → List Block → ExecState σ → Prop
  | nil (x : ExecState σ) : ChainApplied app x [] x
  | cons {x x₁ x' : ExecState σ} {block : Block} {blocks : List Block}
      (h : RoundApplied app x block x₁) (hrest : ChainApplied app x₁ blocks x') :
      ChainApplied app x (block :: blocks) x'

/-- **The loop completes** exactly when every round succeeds. -/
lemma executeChain_eq_completed :
    executeChain app x blocks = (.completed, x') ↔ ChainApplied app x blocks x' := by
  induction blocks generalizing x with
  | nil =>
    constructor
    · intro h
      obtain rfl := (Prod.mk.inj h).2
      exact .nil x
    · intro h
      cases h
      rfl
  | cons block blocks ih =>
    rw [executeChain]
    constructor
    · intro h
      split at h
      · next x₁ hround => exact .cons (executeOne_eq_completed.mp hround) (ih.mp h)
      · next stopped hstop => exact absurd h (hstop x')
    · intro h
      cases h with
      | cons hround hrest =>
        rw [executeOne_eq_completed.mpr hround]
        exact ih.mpr hrest

namespace ChainApplied

/-- **The callbacks of the loop**: for each block its proofs, its execution and its
notification. -/
lemma calls (h : ChainApplied app x blocks x') :
    ∃ answers : List (BlockContext × EndBlockResponse), answers.length = blocks.length
      ∧ x'.calls = x.calls ++ chainCalls blocks answers := by
  induction h with
  | nil x => exact ⟨[], rfl, by simp [chainCalls]⟩
  | @cons x x₁ x' block blocks hround _ ih =>
    obtain ⟨response, s, pending, -, -, rfl⟩ := hround
    obtain ⟨answers, hlength, hcalls⟩ := ih
    refine ⟨(x.context block, response) :: answers, by simp [hlength], ?_⟩
    rw [hcalls]
    simp [ExecState.advance, chainCalls]

/-- The loop runs its blocks in order. -/
lemma runs (h : ChainApplied app x blocks x') :
    ∃ runs, ranBlocks (x'.calls.map .app) = ranBlocks (x.calls.map .app) ++ runs
      ∧ runs.map Prod.fst = blocks := by
  induction h with
  | nil x => exact ⟨[], by simp, rfl⟩
  | @cons x x₁ x' block blocks hround _ ih =>
    obtain ⟨response, s, pending, -, -, rfl⟩ := hround
    obtain ⟨runs, hruns, hblocks⟩ := ih
    refine ⟨(block, response) :: runs, ?_, by rw [map_cons, hblocks]⟩
    rw [hruns]
    simp [ExecState.advance, ranBlocks_blockCalls]

/-- What a loop has activated is what it is in. -/
lemma active_eq {current : Epoch}
    (h : ChainApplied app x blocks x') (hx : x.activated.getD current = x.active) :
    x'.activated.getD current = x'.active := by
  induction h with
  | nil x => exact hx
  | @cons x x₁ x' block blocks hround _ ih =>
    refine ih ?_
    obtain ⟨response, s, pending, -, -, rfl⟩ := hround
    change (x.activate block).activated.getD current = (x.activate block).active
    cases hact : x.activates block with
    | false => rwa [ExecState.activate_of_not_activates hact]
    | true =>
      obtain ⟨epoch, -, -, heq⟩ := ExecState.activate_of_activates hact
      rw [heq]
      rfl

/-- The height after the loop is the one of its last block. -/
lemma lastCommittedHeight
    (h : ChainApplied app x blocks x') {last : Block} (hlast : blocks.getLast? = some last) :
    x'.lastCommittedHeight = last.height := by
  induction h with
  | nil x => cases hlast
  | @cons x x₁ x' block blocks hround hrest ih =>
    cases blocks with
    | nil =>
      cases hlast
      cases hrest
      obtain ⟨response, s, pending, -, -, rfl⟩ := hround
      rfl
    | cons block' blocks => exact ih (by rwa [getLast?_cons_cons] at hlast)

end ChainApplied

/-! ### On a walk -/

/-- A walk leads to a block above the tip. -/
lemma Walk.above {current : Block}
    (h : Walk store lastCommitted current blocks) : lastCommitted < current.height := by
  induction h with
  | last _ hheight htip _ _ => omega
  | step _ hheight _ ih => omega

/-- **The backward loop** succeeds along every walk. -/
lemma collectChain_of_walk {current : Block}
    (h : Walk store lastCommitted current blocks) (acc : List Block) :
    collectChain store lastCommitted current.height current acc = .ok (blocks ++ acc) := by
  induction h generalizing acc with
  | last hroot hheight htip hcommitted hhash =>
    rw [hheight, collectChain, hroot]
    dsimp only
    rw [if_neg (not_not.mpr rfl), if_pos htip, hcommitted]
    dsimp only
    rw [if_neg (not_not.mpr hhash)]
    rfl
  | @step current parent below hparent hheight hwalk ih =>
    have habove := hwalk.above
    rw [hheight, collectChain, hparent]
    dsimp only
    rw [if_neg (not_not.mpr rfl), if_neg (by omega), if_neg (by omega), ih]
    simp

/-- **`try_commit` on a walk** runs the loop over it. -/
lemma tryCommit_of_walk {dc : DoubleCertificate}
    {currentEpoch : Epoch} {target : Block}
    (htarget : store.getBlock dc.innerQc.blockHash = some target)
    (hwalk : Walk store lastCommitted target blocks)
    (h : ChainApplied app (.start lastCommitted currentEpoch previousEpoch pending s) blocks x) :
    tryCommit app dc store s lastCommitted currentEpoch previousEpoch pending
      = ⟨.ok ⟨blocks, dc.innerQc, x.pending, x.activated, x.lastAppHash, x.responses⟩,
        x.lastCommittedHeight, x.app, x.calls⟩ := by
  have habove := hwalk.above
  have hcollect := collectChain_of_walk hwalk []
  rw [append_nil] at hcollect
  unfold tryCommit
  rw [htarget]
  dsimp only
  rw [if_neg (by omega), hcollect]
  dsimp only
  rw [executeChain_eq_completed.mpr h]

/-- **A commit that returned** had nothing to do, or the loop completed on a walk. -/
lemma tryCommit_ok {dc : DoubleCertificate}
    {currentEpoch : Epoch} {result : CommitResult}
    (h : (tryCommit app dc store s lastCommitted currentEpoch previousEpoch pending).outcome
      = .ok result) : (result.committedBlocks = [] ∧ result.activatedEpoch = none
        ∧ (tryCommit app dc store s lastCommitted currentEpoch previousEpoch pending).calls = [])
      ∨ ∃ target blocks x, store.getBlock dc.innerQc.blockHash = some target
        ∧ Walk store lastCommitted target blocks
        ∧ ChainApplied app (.start lastCommitted currentEpoch previousEpoch pending s) blocks x
        ∧ result = ⟨blocks, dc.innerQc, x.pending, x.activated, x.lastAppHash, x.responses⟩
        ∧ tryCommit app dc store s lastCommitted currentEpoch previousEpoch pending
          = ⟨.ok result, x.lastCommittedHeight, x.app, x.calls⟩ := by
  rcases tryCommit_eq app dc store s lastCommitted currentEpoch previousEpoch pending with
    ⟨outcome, houtcome, heq⟩ | ⟨target, blocks, ending, x, htarget, hwalk, hchain, heq⟩
  · rw [heq] at h ⊢
    obtain rfl : outcome = .ok result := h
    rcases houtcome with ⟨err, herr, -⟩ | hok
    · cases herr
    · obtain rfl := CommitOutcome.ok.inj hok
      exact .inl ⟨rfl, rfl, rfl⟩
  · rw [heq] at h
    cases ending with
    | completed =>
      obtain rfl := CommitOutcome.ok.inj h
      exact .inr ⟨target, blocks, x, htarget, hwalk, executeChain_eq_completed.mp hchain, rfl, heq⟩
    | failed err | panicked => cases h

end Hotmint
