/-
Runs of the engine:

* `NodeConfig.launch`: the start of a node on a data directory (`node.rs`, from
  the restored consensus state to `ConsensusEngine::run`), given the effects
  that wrote the directory;
* `Label`, `Engine.apply`: one step of the event loop, a message, a timeout or
  the next continuation of the running handler;
* `Run`: crash-free runs of one node from a given engine;
* `CrashRunWhere`, `CrashRun`: runs of one node with crashes between any two effects and
  restarts from what was flushed;
* `Network`: honest nodes that share a validator set, with `Network.Run` their
  runs under arbitrary message delivery, and `Network.RunWhere` those whose steps satisfy a
  condition.
-/
import Hotmint.Consensus.Handlers

namespace Hotmint

/-! ### Starting a node -/

/-- What a node is configured with. -/
structure NodeConfig where
  validatorId : ℕ
  validatorSet : ValidatorSet
  chainIdHash : Digest

namespace NodeConfig

/-- The consensus state `node.rs` builds from the persisted keys. -/
def restore (cfg : NodeConfig) (saved : SavedState) : ConsensusState :=
  let st := ConsensusState.withChainId cfg.validatorId cfg.validatorSet cfg.chainIdHash
  let epoch := saved.currentEpoch.getD st.currentEpoch
  { st with
    currentView := saved.currentView.getD st.currentView
    lockedQc := saved.lockedQc
    highestQc := saved.highestQc
    lastCommittedHeight := saved.lastCommittedHeight.getD st.lastCommittedHeight
    validatorSet := epoch.validatorSet
    currentEpoch := epoch
    lastAppHash := saved.lastAppHash.getD st.lastAppHash
    lastVote1 := saved.lastVote .vote
    lastVote2 := saved.lastVote .vote2 }

/-- The view a restored node joins: not below the view after its last committed
block. -/
def joinView (store : BlockStore) (height view : ℕ) : ℕ :=
  if 0 < height then
    max view (match store.getBlockByHeight height with
      | some block => block.view + 1
      | none => height + 1)
  else view

variable {σ : Type} (d : Deps σ)

/-- The engine `node.rs` constructs on a data directory with a given history. -/
def construct (cfg : NodeConfig) (trace : List Effect) (app : σ) (evidence : EvidenceStore) :
    Engine σ :=
  let disk := Disk.after trace
  let st := cfg.restore disk.flushed
  { state := { st with
      currentView := joinView disk.flushedStore st.lastCommittedHeight st.currentView }
    store := disk.flushedStore
    app
    voteCollector := VoteCollector.new
    pacemaker := Pacemaker.new
    statusSenders := []
    currentViewQc := none
    pendingEpoch := disk.flushed.pendingEpoch
    previousEpoch := disk.flushed.previousEpoch
    evidenceStore := evidence
    livenessTracker := LivenessTracker.new
    msgRateLimiter := ∅
    halted := false
    todo := []
    trace }

/-- The checkpoint `node.rs` writes before it starts the engine. -/
def checkpoint (e : Engine σ) : Engine σ :=
  if d.hasPersistence then
    e.emits [.save (.currentView e.state.currentView),
      .save (.lastCommittedHeight e.state.lastCommittedHeight),
      .save (.currentEpoch e.state.currentEpoch), .save (.lastAppHash e.state.lastAppHash),
      .save (.pendingEpoch e.pendingEpoch), .save (.previousEpoch e.previousEpoch), .flush]
  else e

/-- Start a node on a data directory with a given history. -/
def launch (cfg : NodeConfig) (trace : List Effect) (app : σ) (evidence : EvidenceStore) :
    Engine σ :=
  (checkpoint d (cfg.construct trace app evidence)).start d

/-- The startup check of the log, against the restored height. -/
def recovery (trace : List Effect) : WalRecovery :=
  checkRecovery (Disk.after trace).wal ((Disk.after trace).flushed.lastCommittedHeight.getD 0)

/-- The history a restart begins with: up to the crash, and the log emptied by
the startup check if it held anything. -/
def restartTrace (trace : List Effect) : List Effect :=
  trace ++ (.crash :: if (Disk.after trace).wal.isEmpty then [] else [.walTruncate])

end NodeConfig

/-! ### Steps and runs of one node -/

/-- One step of the event loop. -/
inductive Label
  | message (env : Env) (sender : Option ℕ) (msg : ConsensusMessage)
  | timeout
  | task (env : Env)

namespace Engine

variable {σ : Type} (d : Deps σ)

/-- A halted engine takes no step; messages and timeouts wait until the running
handler is done. -/
def enabled (e : Engine σ) : Label → Bool
  | .message _ _ _ => !e.halted && e.todo.isEmpty
  | .timeout => !e.halted && e.todo.isEmpty
  | .task _ => !e.halted && !e.todo.isEmpty

/-- What a step does. -/
def apply (label : Label) (e : Engine σ) : Engine σ :=
  match label with
  | .message env sender msg => e.handleMessage d env sender msg
  | .timeout => e.handleTimeout d
  | .task env => e.runTask d env

/-- The effects of a step. -/
def stepEffects (label : Label) (e : Engine σ) : List Effect :=
  (e.apply d label).trace.drop e.trace.length

/-- A sequence of steps, each of them enabled. -/
def applyAll : List Label → Engine σ → Option (Engine σ)
  | [], e => some e
  | label :: labels, e => if e.enabled label then applyAll labels (e.apply d label) else none

end Engine

section

variable {σ : Type}

/-- One step of a node whose steps all satisfy `P`. -/
inductive StepWhere (d : Deps σ) (P : Engine σ → Label → Prop) : Engine σ → Engine σ → Prop
  | step {e : Engine σ} {label : Label} (henabled : e.enabled label = true) (hP : P e label) :
      StepWhere d P e (e.apply d label)

/-- Runs whose steps all satisfy `P`. -/
def RunWhere (d : Deps σ) (P : Engine σ → Label → Prop) : Engine σ → Engine σ → Prop :=
  Relation.ReflTransGen (StepWhere d P)

/-- All runs. -/
def Run (d : Deps σ) : Engine σ → Engine σ → Prop := RunWhere d fun _ _ => True

/-- Runs with crashes and restarts, in which every step satisfies `P` and every
restart happens on a history that satisfies `R`.  Every prefix of a trace is a
point at which the process may have died; the application and the evidence store
are found in any state afterwards, and the log check must let the node start. -/
inductive CrashRunWhere (d : Deps σ) (cfg : NodeConfig) (P : Engine σ → Label → Prop)
    (R : List Effect → Prop) : Engine σ → Prop
  | start (app : σ) (evidence : EvidenceStore) :
      CrashRunWhere d cfg P R (cfg.launch d [] app evidence)
  | step {e : Engine σ} {label : Label} (h : CrashRunWhere d cfg P R e)
      (henabled : e.enabled label = true) (hP : P e label) :
      CrashRunWhere d cfg P R (e.apply d label)
  | restart {e : Engine σ} {p : List Effect} (h : CrashRunWhere d cfg P R e)
      (hp : p <+: e.trace) (hclean : NodeConfig.recovery p = .clean)
      (hR : R (NodeConfig.restartTrace p)) (app : σ) (evidence : EvidenceStore) :
      CrashRunWhere d cfg P R (cfg.launch d (NodeConfig.restartTrace p) app evidence)

/-- Steps at the end of a run with crashes. -/
lemma CrashRunWhere.run {d : Deps σ} {cfg : NodeConfig} {R : List Effect → Prop} {e e' : Engine σ}
    (h : CrashRunWhere d cfg (fun _ _ => True) R e) (hrun : Run d e e') :
    CrashRunWhere d cfg (fun _ _ => True) R e' := by
  induction hrun with
  | refl => exact h
  | tail _ hstep ih =>
    cases hstep with
    | step henabled _ => exact ih.step henabled trivial

/-- All runs with crashes and restarts. -/
def CrashRun (d : Deps σ) (cfg : NodeConfig) : Engine σ → Prop :=
  CrashRunWhere d cfg (fun _ _ => True) fun _ => True

end

/-! ### Networks -/

/-- The payload an effect puts a signature on. -/
def Effect.signed (c : Crypto) (chainIdHash : Digest) : Effect → Option SigningPayload
  | .sign payload => some payload
  | .signVote1 vote _ _ _ => some (c.payloadOfVote chainIdHash vote)
  | .signVote2 vote _ => some (c.payloadOfVote chainIdHash vote)
  | _ => none

/-- The signatures inside a quorum certificate. -/
def QuorumCertificate.signatures (qc : QuorumCertificate) : List Signature :=
  qc.aggregateSignature.signatures

/-- The signatures inside a proof of equivocation. -/
def EquivocationProof.signatures (proof : EquivocationProof) : List Signature :=
  [proof.signatureA, proof.signatureB]

/-- The signatures inside a block. -/
def Block.signatures (block : Block) : List Signature :=
  block.evidence.flatMap (·.signatures)

/-- All signatures a message contains. -/
def ConsensusMessage.signatures : ConsensusMessage → List Signature
  | .propose block justify dc signature ancestors =>
    signature :: (block.signatures ++ justify.signatures
      ++ (dc.toList.flatMap fun dc => dc.innerQc.signatures ++ dc.outerQc.signatures)
      ++ ancestors.flatMap (·.signatures))
  | .voteMsg vote => [vote.signature]
  | .prepare certificate signature => signature :: certificate.signatures
  | .vote2Msg vote => [vote.signature]
  | .wish _ _ highestQc signature => signature :: highestQc.toList.flatMap (·.signatures)
  | .timeoutCert tc =>
    tc.aggregateSignature.signatures
      ++ tc.highestQcs.flatMap fun qc => qc.toList.flatMap (·.signatures)
  | .statusCert lockedQc _ signature => signature :: lockedQc.toList.flatMap (·.signatures)
  | .evidence proof => proof.signatures

/-- Honest nodes that run the engine on one chain with one genesis set.  Every
other validator of the set may be Byzantine. -/
structure Network (ι σ : Type) where
  crypto : Crypto
  chainIdHash : Digest
  validatorSet : ValidatorSet
  deps : ι → Deps σ
  validatorId : ι → ℕ
  app : ι → σ
  crypto_eq : ∀ i, (deps i).crypto = crypto
  validatorId_injective : Function.Injective validatorId

namespace Network

variable {ι σ : Type} (N : Network ι σ)

/-- The configuration of an honest node. -/
def config (i : ι) : NodeConfig := ⟨N.validatorId i, N.validatorSet, N.chainIdHash⟩

/-- All nodes start from genesis on fresh data directories. -/
def init (i : ι) : Engine σ := (N.config i).launch (N.deps i) [] (N.app i) .empty

/-- The node has signed a payload. -/
def Signed (s : ι → Engine σ) (i : ι) (payload : SigningPayload) : Prop :=
  ∃ effect ∈ (s i).trace, effect.signed N.crypto N.chainIdHash = some payload

/-- Unforgeability, for one message: a signature in it that verifies under the
key of an honest validator was made by that validator before. -/
def Authentic (s : ι → Engine σ) (msg : ConsensusMessage) : Prop :=
  ∀ sig ∈ msg.signatures, ∀ i info payload, N.validatorSet.get (N.validatorId i) = some info →
    N.crypto.verify info.publicKey payload sig = true → N.Signed s i payload

/-- A label whose message, if any, is authentic. -/
def LabelAuthentic (s : ι → Engine σ) : Label → Prop
  | .message _ _ msg => N.Authentic s msg
  | _ => True

variable [DecidableEq ι]

/-- One step of one node, on a message of anyone. -/
inductive Step : (ι → Engine σ) → (ι → Engine σ) → Prop
  | step {s : ι → Engine σ} (i : ι) (label : Label) (henabled : (s i).enabled label = true)
      (hauth : N.LabelAuthentic s label) :
      Step s (Function.update s i ((s i).apply (N.deps i) label))

/-- Runs of the network from genesis: messages are delivered in any order, any
number of times or never, and timeouts fire at any moment. -/
def Run (s : ι → Engine σ) : Prop := Relation.ReflTransGen N.Step N.init s

variable {N} in
/-- In a run of the network every node makes a run of its own. -/
lemma Run.node {s : ι → Engine σ} (h : N.Run s) (i : ι) :
    Hotmint.Run (N.deps i) (N.init i) (s i) := by
  induction h with
  | refl => exact .refl
  | tail _ hstep ih =>
    cases hstep with
    | step j label henabled _ =>
      by_cases hij : i = j
      · subst hij
        rw [Function.update_self]
        exact ih.tail (.step henabled trivial)
      · rw [Function.update_of_ne hij]
        exact ih

/-- Steps of a network that satisfy a condition on the node that moves. -/
inductive StepWhere (P : ι → Engine σ → Label → Prop) : (ι → Engine σ) → (ι → Engine σ) → Prop
  | step {s : ι → Engine σ} (i : ι) (label : Label) (henabled : (s i).enabled label = true)
      (hauth : N.LabelAuthentic s label) (hP : P i (s i) label) :
      StepWhere P s (Function.update s i ((s i).apply (N.deps i) label))

/-- Runs of the network whose steps all satisfy `P`. -/
def RunWhere (P : ι → Engine σ → Label → Prop) (s : ι → Engine σ) : Prop :=
  Relation.ReflTransGen (N.StepWhere P) N.init s

variable {N} in
lemma RunWhere.run {P : ι → Engine σ → Label → Prop} {s : ι → Engine σ} (h : N.RunWhere P s) :
    N.Run s := by
  induction h with
  | refl => exact .refl
  | tail _ hstep ih =>
    cases hstep with
    | step i label henabled hauth _ => exact ih.tail (.step i label henabled hauth)

variable {N} in
/-- In such a run every node makes a run of its own whose steps satisfy the condition. -/
lemma RunWhere.node {P : ι → Engine σ → Label → Prop} {s : ι → Engine σ} (h : N.RunWhere P s)
    (i : ι) : Hotmint.RunWhere (N.deps i) (P i) (N.init i) (s i) := by
  induction h with
  | refl => exact .refl
  | tail _ hstep ih =>
    cases hstep with
    | step j label henabled _ hP =>
      by_cases hij : i = j
      · subst hij
        rw [Function.update_self]
        exact ih.tail (.step henabled hP)
      · rw [Function.update_of_ne hij]
        exact ih

end Network

/-- The node has committed a block: it passed it to `execute_block`. -/
def Committed {σ : Type} (e : Engine σ) (block : Block) : Prop :=
  ∃ ctx response, Effect.app (.executeBlock block ctx response) ∈ e.trace

end Hotmint
