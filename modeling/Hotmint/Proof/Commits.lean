/-
What `try_commit` does.

* `Walk`, `collectChain_ok`: the blocks between the committed tip and the target,
  linked through the store, one per height;
* `executed`: the blocks among the callbacks, with their contexts;
* `executeOne_spec`, `executeChain_spec`: **the execution loop runs the blocks in
  order** and stops after the block that fails or panics;
* `tryCommit_spec`: both together.
-/
import Hotmint.Consensus.Commit

namespace Hotmint

open List ExecState
variable {block current : Block} {store : BlockStore} {acc : List Block} {height lastCommitted : ℕ}

/-! ### The backward walk -/

/-- The blocks from above the committed tip up to `current`, lowest first. -/
inductive Walk (store : BlockStore) (lastCommitted : ℕ) : Block → List Block → Prop
  | last {current root committed : Block} (hroot : store.getBlock current.parentHash = some root)
      (hheight : current.height = root.height + 1) (htip : root.height = lastCommitted)
      (hcommitted : store.getBlockByHeight lastCommitted = some committed)
      (hhash : root.hash = committed.hash) : Walk store lastCommitted current [current]
  | step {current parent : Block} {below : List Block}
      (hparent : store.getBlock current.parentHash = some parent)
      (hheight : current.height = parent.height + 1)
      (hwalk : Walk store lastCommitted parent below) :
      Walk store lastCommitted current (below ++ [current])

/-- **The backward loop** succeeds along a walk only. -/
lemma collectChain_ok
    {chain : List Block} (h : collectChain store lastCommitted height current acc = .ok chain)
    (hheight : current.height = height) :
    ∃ blocks, Walk store lastCommitted current blocks ∧ chain = blocks ++ acc := by
  induction height generalizing current acc with
  | zero => cases h
  | succ height ih =>
    unfold collectChain at h
    split at h
    · cases h
    · next parent hparent =>
        split_ifs at h with hne htip
        · -- the parent is the committed tip
          split at h
          · cases h
          · next committed hcommitted =>
              split_ifs at h with hhash
              obtain rfl := Except.ok.inj h
              refine ⟨[current], ?_, rfl⟩
              exact .last hparent (by rw [hheight, not_not.mp hne]) htip hcommitted
                (not_not.mp hhash)
        · obtain ⟨blocks, hwalk, rfl⟩ := ih h (not_not.mp hne)
          refine ⟨blocks ++ [current], ?_, by simp⟩
          exact .step hparent (by rw [hheight, not_not.mp hne]) hwalk

namespace Walk

variable {store : BlockStore} {lastCommitted : ℕ} {current : Block} {blocks : List Block}

/-- One block per height above the tip. -/
lemma heights (h : Walk store lastCommitted current blocks) :
    blocks.map (·.height) = range' (lastCommitted + 1) blocks.length
      ∧ current.height = lastCommitted + blocks.length := by
  induction h with
  | last _ hheight htip _ _ => simp [hheight, htip]
  | step _ hheight _ ih =>
    obtain ⟨hmap, htop⟩ := ih
    constructor
    · rw [map_append, hmap, length_append, length_singleton, range'_concat]
      simp only [map_cons, map_nil, hheight, htop]
      congr 2
      omega
    · rw [hheight, htop, length_append, length_singleton]
      omega

/-- Parent links in a store. -/
def Parent (store : BlockStore) (child parent : Block) : Prop :=
  store.getBlock child.parentHash = some parent ∧ child.height = parent.height + 1

/-- Every block of a walk is an ancestor of its top. -/
lemma ancestor (h : Walk store lastCommitted current blocks)
    (hmem : block ∈ blocks) : Relation.ReflTransGen (Parent store) current block := by
  induction h with
  | last _ _ _ _ _ => exact mem_singleton.mp hmem ▸ .refl
  | step hparent hheight _ ih =>
    rcases mem_append.mp hmem with hmem | hmem
    · exact .head ⟨hparent, hheight⟩ (ih hmem)
    · exact mem_singleton.mp hmem ▸ .refl

/-- The top of a walk is its last block. -/
lemma getLast (h : Walk store lastCommitted current blocks) : blocks.getLast? = some current := by
  cases h with
  | last _ _ _ _ _ => rfl
  | step _ _ _ => simp

end Walk

/-! ### The execution loop -/

/-- The block and context of an `execute_block` call. -/
def AppCall.executed : AppCall → Option (Block × BlockContext)
  | .executeBlock block ctx _ => some (block, ctx)
  | _ => none

/-- The blocks executed by a list of callbacks. -/
def executed (calls : List AppCall) : List (Block × BlockContext) :=
  calls.filterMap AppCall.executed

@[simp] lemma executed_nil : executed [] = [] := rfl

@[simp] lemma executed_append (calls calls' : List AppCall) :
    executed (calls ++ calls') = executed calls ++ executed calls' :=
  filterMap_append

section

variable {σ : Type} {app : Application σ}

/-- Is it the callback for a proof? -/
def AppCall.isEvidence : AppCall → Bool
  | .onEvidence _ _ => true
  | _ => false

lemma isEvidence_applyEvidence (app : Application σ) (proofs : List EquivocationProof) (s : σ) :
    ∀ call ∈ (applyEvidence app proofs s).2.2, call.isEvidence = true := by
  induction proofs generalizing s with
  | nil => simp [applyEvidence]
  | cons proof proofs ih =>
    unfold applyEvidence
    dsimp only
    split_ifs
    · exact forall_mem_cons.mpr ⟨rfl, ih _⟩
    · exact forall_mem_singleton.mpr rfl

/-- How the callbacks for a block end once its proofs are through: the answer, and the callbacks
that follow the proofs. -/
inductive BlockEnd (app : Application σ) (block : Block) (ctx : BlockContext) :
    Option EndBlockResponse → List AppCall → Prop
  | evidence : BlockEnd app block ctx none []
  | execution : BlockEnd app block ctx none [.executeBlock block ctx none]
  | notification {s s' : σ} {response : EndBlockResponse} (ok : Bool)
      (hexec : app.executeBlock s (decodePayload block.payload) ctx = (some response, s')) :
      BlockEnd app block ctx (if ok then some response else none)
        [.executeBlock block ctx (some response), .onCommit block ctx ok]

/-- **`execute_committed_block`.** -/
lemma executeCommittedBlock_end (app : Application σ) (block : Block) (ctx : BlockContext) (s : σ) :
    ∃ proofs rest, (executeCommittedBlock app block ctx s).2.2 = proofs ++ rest
      ∧ (∀ call ∈ proofs, call.isEvidence = true)
      ∧ BlockEnd app block ctx (executeCommittedBlock app block ctx s).1 rest := by
  have hevidence := isEvidence_applyEvidence app block.evidence s
  unfold executeCommittedBlock
  dsimp only
  split_ifs
  · split
    · exact ⟨_, _, rfl, hevidence, .execution⟩
    · next hexec => exact ⟨_, _, rfl, hevidence, .notification _ hexec⟩
  · exact ⟨_, [], (append_nil _).symm, hevidence, .evidence⟩

/-- The callbacks that a commit makes. -/
def AppCall.ofCommit : AppCall → Bool
  | .onEvidence _ _ => true
  | .executeBlock _ _ _ => true
  | .onCommit _ _ _ => true
  | _ => false

lemma ofCommit_executeCommittedBlock (app : Application σ) (block : Block) (ctx : BlockContext)
    (s : σ) : ∀ call ∈ (executeCommittedBlock app block ctx s).2.2, call.ofCommit = true := by
  obtain ⟨proofs, rest, heq, hproofs, hend⟩ := executeCommittedBlock_end app block ctx s
  rw [heq, forall_mem_append]
  refine ⟨fun call hmem => ?_, ?_⟩
  · have hcall := hproofs call hmem
    cases call <;> first | rfl | cases hcall
  · generalize (executeCommittedBlock app block ctx s).1 = answer at hend
    cases hend <;> simp [AppCall.ofCommit]

/-- The callbacks of one block contain its execution, unless its evidence
already failed; the answer is the one of `execute_block`. -/
lemma executeCommittedBlock_spec {ctx : BlockContext} {s s' : σ}
    {answer : Option EndBlockResponse} {calls : List AppCall}
    (h : executeCommittedBlock app block ctx s = (answer, s', calls)) :
    (answer = none ∧ executed calls = [])
      ∨ (executed calls = [(block, ctx)] ∧ ∀ response, answer = some response →
        ∃ s₁ s₂, app.executeBlock s₁ (decodePayload block.payload) ctx = (some response, s₂)) := by
  obtain ⟨proofs, rest, rfl, hproofs, hend⟩ := h ▸ executeCommittedBlock_end app block ctx s
  have hnone : executed proofs = [] := by
    refine filterMap_eq_nil_iff.mpr fun call hmem => ?_
    have hcall := hproofs call hmem
    cases call <;> first | rfl | cases hcall
  rw [executed_append, hnone]
  cases hend with
  | evidence => exact .inl ⟨rfl, rfl⟩
  | execution => exact .inr ⟨rfl, fun _ h => by cases h⟩
  | notification ok hexec =>
    refine .inr ⟨rfl, fun response hresponse => ?_⟩
    cases ok with
    | false => cases hresponse
    | true => exact ⟨_, _, Option.some.inj hresponse ▸ hexec⟩

/-- The epoch that is pending after a block with the given updates. -/
def pendingAfter (active : Epoch) (pending : Option Epoch) (view : ℕ)
    (updates : List ValidatorUpdate) : Except ValidatorSetError (Option Epoch) :=
  if updates.isEmpty then .ok pending
  else (chainedPendingEpoch active pending view updates).map some

lemma pendingAfter_ok {active : Epoch} {pending pending' : Option Epoch} {view : ℕ}
    {updates : List ValidatorUpdate} (h : pendingAfter active pending view updates = .ok pending') :
    (updates = [] ∧ pending' = pending)
      ∨ ∃ epoch, chainedPendingEpoch active pending view updates = .ok epoch
        ∧ pending' = some epoch := by
  unfold pendingAfter at h
  split_ifs at h with hempty
  · exact .inl ⟨isEmpty_iff.mp hempty, (Except.ok.inj h).symm⟩
  · cases hnext : chainedPendingEpoch active pending view updates with
    | error err =>
      rw [hnext] at h
      cases h
    | ok epoch =>
      rw [hnext] at h
      exact .inr ⟨epoch, rfl, (Except.ok.inj h).symm⟩

namespace ExecState

/-- The context a block is executed with. -/
def context (x : ExecState σ) (block : Block) : BlockContext :=
  blockContext block ((x.activate block).ctxEpoch block)

/-- Activation changes the epochs only. -/
lemma activate_frame (x : ExecState σ) (block : Block) : (x.activate block).app = x.app
      ∧ (x.activate block).calls = x.calls ∧ (x.activate block).responses = x.responses
      ∧ (x.activate block).lastCommittedHeight = x.lastCommittedHeight := by
  unfold activate
  split
  · split_ifs <;> exact ⟨rfl, rfl, rfl, rfl⟩
  · exact ⟨rfl, rfl, rfl, rfl⟩

/-- The rest of a round, after the callbacks for the block: the updates of the answer make the
next epoch. -/
def conclude (app : Application σ) (x : ExecState σ) (block : Block) :
    Option EndBlockResponse × σ × List AppCall → ExecEnd × ExecState σ
  | (none, s, calls) => (.panicked, { x with app := s, calls := x.calls ++ calls })
  | (some response, s, calls) =>
    let x := { x with
      app := s
      calls := x.calls ++ calls
      lastAppHash := if app.tracksAppHash s then response.appHash else block.appHash }
    match pendingAfter x.active x.pending block.view response.validatorUpdates with
    | .ok pending => (.completed, { x with
        pending
        responses := x.responses ++ [response]
        lastCommittedHeight := block.height })
    | .error err => (.failed (.invalidUpdates block.height err), x)

end ExecState

/-- **One round of the execution loop.** -/
lemma executeOne_eq (app : Application σ) (x : ExecState σ) (block : Block) : executeOne app x block
      = (x.activate block).conclude app block
        (executeCommittedBlock app block (x.context block) x.app) := by
  unfold executeOne context
  dsimp only
  rw [(x.activate_frame block).1]
  generalize x.activate block = y
  rcases executeCommittedBlock app block (blockContext block (y.ctxEpoch block)) x.app with
    ⟨_ | response, s, calls⟩
  · rfl
  · unfold conclude pendingAfter
    by_cases hempty : response.validatorUpdates.isEmpty = true
    · simp only [if_pos hempty]
    · simp only [if_neg hempty]
      cases chainedPendingEpoch y.active y.pending block.view response.validatorUpdates <;> rfl

/-- The callbacks of a round are those for its block. -/
lemma executeOne_calls (app : Application σ) (x : ExecState σ) (block : Block) :
    (executeOne app x block).2.calls
      = x.calls ++ (executeCommittedBlock app block (x.context block) x.app).2.2 := by
  rw [executeOne_eq, ← (x.activate_frame block).2.1]
  rcases executeCommittedBlock app block (x.context block) x.app with ⟨_ | response, s, calls⟩
  · rfl
  · unfold conclude
    dsimp only
    split <;> rfl

lemma ofCommit_executeChain (app : Application σ) {x : ExecState σ} (blocks : List Block)
    (h : ∀ call ∈ x.calls, call.ofCommit = true) :
    ∀ call ∈ (executeChain app x blocks).2.calls, call.ofCommit = true := by
  induction blocks generalizing x with
  | nil => exact h
  | cons block blocks ih =>
    have hone : ∀ call ∈ (executeOne app x block).2.calls, call.ofCommit = true := by
      rw [executeOne_calls, forall_mem_append]
      exact ⟨h, ofCommit_executeCommittedBlock app block _ x.app⟩
    unfold executeChain
    split
    · next x' heq =>
      rw [heq] at hone
      exact ih hone
    · exact hone

/-- How one round of the loop ends. -/
inductive RoundEnd (app : Application σ) (x : ExecState σ) (block : Block) :
    ExecEnd → ExecState σ → Prop
  /-- The block is executed and counted. -/
  | completed {response : EndBlockResponse} {x' : ExecState σ}
      (hexec : ∃ s₁ s₂, app.executeBlock s₁ (decodePayload block.payload)
        (blockContext block ((x.activate block).ctxEpoch block)) = (some response, s₂))
      (hcalls : executed x'.calls = executed x.calls
        ++ [(block, blockContext block ((x.activate block).ctxEpoch block))])
      (hheight : x'.lastCommittedHeight = block.height)
      (hactive : x'.active = (x.activate block).active)
      (hprevious : x'.previous = (x.activate block).previous)
      (hactivated : x'.activated = (x.activate block).activated)
      (hresponses : x'.responses = x.responses ++ [response])
      (hpending : (response.validatorUpdates = [] ∧ x'.pending = (x.activate block).pending)
        ∨ ∃ epoch, chainedPendingEpoch (x.activate block).active (x.activate block).pending
          block.view response.validatorUpdates = .ok epoch ∧ x'.pending = some epoch) :
      RoundEnd app x block .completed x'
  /-- The block is executed, but its updates cannot be applied. -/
  | failed {err : ValidatorSetError} {x' : ExecState σ}
      (hcalls : executed x'.calls = executed x.calls
        ++ [(block, blockContext block ((x.activate block).ctxEpoch block))])
      (hheight : x'.lastCommittedHeight = x.lastCommittedHeight) :
      RoundEnd app x block (.failed (.invalidUpdates block.height err)) x'
  /-- A callback failed. -/
  | panicked {x' : ExecState σ}
      (hcalls : executed x'.calls = executed x.calls ∨ executed x'.calls = executed x.calls
        ++ [(block, blockContext block ((x.activate block).ctxEpoch block))])
      (hheight : x'.lastCommittedHeight = x.lastCommittedHeight) :
      RoundEnd app x block .panicked x'

/-- How one round of the execution loop ends. -/
lemma executeOne_spec (app : Application σ) (x : ExecState σ) (block : Block) :
    RoundEnd app x block (executeOne app x block).1 (executeOne app x block).2 := by
  obtain ⟨-, -, hresponses, hheight⟩ := x.activate_frame block
  have hcalls := congrArg executed (executeOne_calls app x block)
  rw [executed_append, executeOne_eq] at hcalls
  rw [executeOne_eq]
  rcases hblock : executeCommittedBlock app block (x.context block) x.app with
    ⟨_ | response, s, calls⟩
  all_goals rw [hblock] at hcalls
  · refine .panicked ?_ hheight
    rw [hcalls]
    rcases executeCommittedBlock_spec hblock with ⟨-, hnil⟩ | ⟨hone, -⟩
    · exact .inl (by rw [hnil, append_nil])
    · exact .inr (by rw [hone]; rfl)
  · rcases executeCommittedBlock_spec hblock with ⟨hnone, -⟩ | ⟨hone, hexec⟩
    · cases hnone
    rw [hone] at hcalls
    cases hmade : pendingAfter (x.activate block).active (x.activate block).pending block.view
        response.validatorUpdates with
    | ok pending =>
      simp only [conclude, hmade] at hcalls ⊢
      exact .completed (hexec response rfl) hcalls rfl rfl rfl rfl
        (congrArg (· ++ [response]) hresponses) (pendingAfter_ok hmade)
    | error err =>
      simp only [conclude, hmade] at hcalls ⊢
      exact .failed hcalls hheight

/-- The rounds of the loop. -/
inductive ChainRun (app : Application σ) :
    ExecState σ → List Block → ExecEnd → ExecState σ → Prop
  | done (x : ExecState σ) : ChainRun app x [] .completed x
  | stop {x x' : ExecState σ} {block : Block} {blocks : List Block} {ending : ExecEnd}
      (h : RoundEnd app x block ending x') (hstop : ending ≠ .completed) :
      ChainRun app x (block :: blocks) ending x'
  | next {x x₁ x' : ExecState σ} {block : Block} {blocks : List Block} {ending : ExecEnd}
      (h : RoundEnd app x block .completed x₁) (hrest : ChainRun app x₁ blocks ending x') :
      ChainRun app x (block :: blocks) ending x'

/-- **The execution loop** takes its blocks in order, up to the first that fails. -/
lemma executeChain_spec (app : Application σ) (x : ExecState σ) (blocks : List Block) :
    ChainRun app x blocks (executeChain app x blocks).1 (executeChain app x blocks).2 := by
  induction blocks generalizing x with
  | nil => exact .done x
  | cons block blocks ih =>
    have hround := executeOne_spec app x block
    unfold executeChain
    split
    · next x' h =>
        rw [h] at hround
        exact .next hround (ih x')
    · next r hr =>
        refine .stop hround fun hend => ?_
        exact hr (executeOne app x block).2 (Prod.ext hend rfl)

/-- The outcome that belongs to an ending. -/
def outcomeOf (dc : DoubleCertificate) (blocks : List Block) (x : ExecState σ) :
    ExecEnd → CommitOutcome
  | .completed =>
    .ok ⟨blocks, dc.innerQc, x.pending, x.activated, x.lastAppHash, x.responses⟩
  | .failed err => .err err
  | .panicked => .panic

/-- How `try_commit` can go. -/
inductive CommitTrace (app : Application σ) (dc : DoubleCertificate) (store : BlockStore)
    (start : ExecState σ) : CommitRun σ → Prop
  /-- Nothing is executed: the target is unknown, the chain is broken, or it is
  committed already. -/
  | nothing {run : CommitRun σ} (hcalls : run.calls = [])
      (hheight : run.lastCommittedHeight = start.lastCommittedHeight)
      (houtcome : (∃ err, run.outcome = .err err ∧ ∀ h r, err ≠ .invalidUpdates h r)
        ∨ ∃ result, run.outcome = .ok result ∧ result.committedBlocks = []) :
      CommitTrace app dc store start run
  /-- The chain up to the target is executed. -/
  | chain {run : CommitRun σ} {target : Block} {blocks : List Block} {ending : ExecEnd}
      {x : ExecState σ} (htarget : store.getBlock dc.innerQc.blockHash = some target)
      (hwalk : Walk store start.lastCommittedHeight target blocks)
      (hchain : ChainRun app start blocks ending x)
      (houtcome : run.outcome = outcomeOf dc blocks x ending)
      (hcalls : run.calls = x.calls) (hheight : run.lastCommittedHeight = x.lastCommittedHeight) :
      CommitTrace app dc store start run

/-- The walk gives no reason of the execution loop. -/
lemma collectChain_error {err : CommitError}
    (h : collectChain store lastCommitted height current acc = .error err) (height' : ℕ)
    (reason : ValidatorSetError) : err ≠ .invalidUpdates height' reason := by
  induction height generalizing current acc with
  | zero =>
    obtain rfl := Except.error.inj h
    simp
  | succ height ih =>
    unfold collectChain at h
    split at h
    · obtain rfl := Except.error.inj h
      simp
    · split_ifs at h
      · obtain rfl := Except.error.inj h
        simp
      · split at h
        · obtain rfl := Except.error.inj h
          simp
        · split_ifs at h
          obtain rfl := Except.error.inj h
          simp
      · obtain rfl := Except.error.inj h
        simp
      · exact ih h

section

variable (app : Application σ) (dc : DoubleCertificate) (store : BlockStore) (s : σ)
  (lastCommitted : ℕ) (currentEpoch : Epoch) (previousEpoch inFlightPending : Option Epoch)

/-- **`try_commit`** does nothing, or runs the loop on a walk. -/
lemma tryCommit_eq : (∃ outcome, ((∃ err, outcome = .err err ∧ ∀ h r, err ≠ .invalidUpdates h r)
        ∨ outcome = .ok ⟨[], dc.innerQc, none, none, BlockHash.genesis, []⟩)
      ∧ tryCommit app dc store s lastCommitted currentEpoch previousEpoch inFlightPending
        = ⟨outcome, lastCommitted, s, []⟩)
    ∨ ∃ target blocks ending x, store.getBlock dc.innerQc.blockHash = some target
      ∧ Walk store lastCommitted target blocks
      ∧ executeChain app (start lastCommitted currentEpoch previousEpoch inFlightPending s) blocks
        = (ending, x)
      ∧ tryCommit app dc store s lastCommitted currentEpoch previousEpoch inFlightPending
        = ⟨outcomeOf dc blocks x ending, x.lastCommittedHeight, x.app, x.calls⟩ := by
  unfold tryCommit
  split
  · exact .inl ⟨_, .inl ⟨_, rfl, by simp⟩, rfl⟩
  · next target htarget =>
    split_ifs
    · exact .inl ⟨_, .inr rfl, rfl⟩
    · split
      · next err herr => exact .inl ⟨_, .inl ⟨err, rfl, collectChain_error herr⟩, rfl⟩
      · next toCommit hcollect =>
        obtain ⟨blocks, hwalk, heq⟩ := collectChain_ok hcollect rfl
        obtain rfl : toCommit = blocks := heq.trans (append_nil _)
        refine .inr ⟨target, toCommit, _, _, htarget, hwalk, rfl, ?_⟩
        dsimp only
        split <;> next hchain => rw [hchain]; rfl

/-- How `try_commit` went. -/
theorem tryCommit_spec : CommitTrace app dc store
      (start lastCommitted currentEpoch previousEpoch inFlightPending s)
      (tryCommit app dc store s lastCommitted currentEpoch previousEpoch inFlightPending) := by
  rcases tryCommit_eq app dc store s lastCommitted currentEpoch previousEpoch inFlightPending with
    ⟨outcome, houtcome, heq⟩ | ⟨target, blocks, ending, x, htarget, hwalk, hchain, heq⟩
  · rw [heq]
    exact .nothing rfl rfl (houtcome.imp_right fun hok => ⟨_, hok, rfl⟩)
  · have hspec := executeChain_spec app
      (start lastCommitted currentEpoch previousEpoch inFlightPending s) blocks
    rw [hchain] at hspec
    rw [heq]
    exact .chain htarget hwalk hspec rfl rfl rfl

/-- **A commit calls back for nothing else** than evidence, execution and notification. -/
lemma ofCommit_tryCommit : ∀ call ∈ (tryCommit app dc store s lastCommitted currentEpoch
      previousEpoch inFlightPending).calls, call.ofCommit = true := by
  rcases tryCommit_eq app dc store s lastCommitted currentEpoch previousEpoch inFlightPending with
    ⟨outcome, -, heq⟩ | ⟨target, blocks, ending, x, -, -, hchain, heq⟩
  · simp [heq]
  · have hcalls := ofCommit_executeChain app (x := start lastCommitted currentEpoch previousEpoch
      inFlightPending s) blocks (by simp [start])
    rw [hchain] at hcalls
    rwa [heq]

end

/-- Only blocks of the walk are executed. -/
lemma ChainRun.executed_subset {x x' : ExecState σ} {blocks : List Block} {ending : ExecEnd}
    (h : ChainRun app x blocks ending x') {p : Block × BlockContext}
    (hp : p ∈ executed x'.calls) : p ∈ executed x.calls ∨ p.1 ∈ blocks := by
  induction h with
  | done x => exact .inl hp
  | stop h hstop =>
    cases h with
    | completed _ _ _ _ _ _ _ _ => exact absurd rfl hstop
    | failed hcalls _ =>
      rw [hcalls] at hp
      rcases mem_append.mp hp with hp | hp
      · exact .inl hp
      · exact .inr (mem_singleton.mp hp ▸ .head _)
    | panicked hcalls _ =>
      rcases hcalls with hcalls | hcalls
      · exact .inl (hcalls ▸ hp)
      · rw [hcalls] at hp
        rcases mem_append.mp hp with hp | hp
        · exact .inl hp
        · exact .inr (mem_singleton.mp hp ▸ .head _)
  | next h _ ih =>
    cases h with
    | completed _ hcalls _ _ _ _ _ _ =>
      rcases ih hp with hp | hp
      · rw [hcalls] at hp
        rcases mem_append.mp hp with hp | hp
        · exact .inl hp
        · exact .inr (mem_singleton.mp hp ▸ .head _)
      · exact .inr (.tail _ hp)

end

end Hotmint
