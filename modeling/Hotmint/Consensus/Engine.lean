/-
The consensus engine as a value (`hotmint-consensus/src/engine.rs`):

* `Engine`: every field of `ConsensusEngine` that its logic reads, and the
  `trace` of everything the engine did to the outside so far;
* `Effect`: one entry of that trace (messages, signatures, callbacks, store and
  log writes), so that a crash can be placed between any two of them;
* `Disk`: what of it is durable, as a fold over the trace;
* `persistState`, `processCommitResult`, `adoptCommitEpoch`, `applyCommit`,
  `enterView`, `advanceViewTo`: the building blocks of the handlers.

The source is recursive: entering a view as its leader proposes at once, which
may form certificates and enter the next view.  The model keeps such a
continuation as a `Task` on the `todo` stack, to be run next.
-/
import Hotmint.Consensus.Verify

namespace Hotmint

/-! ### Effects -/

/-- A certificate, with the vote type a quorum certificate is made of. -/
inductive Certificate
  | qc (voteType : VoteType) (qc : QuorumCertificate)
  | dc (dc : DoubleCertificate)
  | tc (tc : TimeoutCertificate)
deriving DecidableEq

/-- What the engine does to the outside, and what it establishes. -/
inductive Effect
  /-- `NetworkSink::broadcast`. -/
  | broadcast (msg : ConsensusMessage)
  /-- `NetworkSink::send_to`. -/
  | sendTo (target : ℕ) (msg : ConsensusMessage)
  /-- `NetworkSink::on_epoch_change`. -/
  | onEpochChange (epoch : ℕ) (validatorSet : ValidatorSet)
  /-- `NetworkSink::broadcast_evidence`. -/
  | broadcastEvidence (proof : EquivocationProof)
  /-- `Signer::sign` on anything but a vote. -/
  | sign (payload : SigningPayload)
  /-- A first-phase vote is signed: the vote, the block and its justify
  certificate, and the lock held at that moment. -/
  | signVote1 (vote : Vote) (block : Block) (justify : QuorumCertificate)
      (locked : Option QuorumCertificate)
  /-- A second-phase vote is signed for a certificate. -/
  | signVote2 (vote : Vote) (qc : QuorumCertificate)
  /-- An own vote is handed to the own vote collector. -/
  | countVote (vote : Vote)
  /-- A callback of the application. -/
  | app (call : AppCall)
  /-- A `save_*` call of `StatePersistence` (not yet durable). -/
  | save (item : SavedItem)
  /-- `BlockStore::put_block` (not yet durable). -/
  | putBlock (block : Block)
  /-- `BlockStore::put_commit_qc` (not yet durable). -/
  | putCommitQc (height : ℕ) (qc : QuorumCertificate)
  /-- `BlockStore::put_block_results` (not yet durable). -/
  | putBlockResults (height : ℕ) (results : EndBlockResponse)
  /-- `vsdb_flush`: every store becomes durable. -/
  | flush
  /-- A log entry, written and synced. -/
  | walWrite (entry : WalEntry)
  /-- The log is emptied. -/
  | walTruncate
  /-- A received certificate passed its check. -/
  | verified (certificate : Certificate)
  /-- A certificate was formed from collected votes or wishes. -/
  | formed (certificate : Certificate)
  /-- `try_commit` is called. -/
  | tryCommit (dc : DoubleCertificate)
  /-- `try_commit` returned an error. -/
  | commitFailed (err : CommitError)
  /-- The process ends without warning; what was not flushed is lost. -/
  | crash
deriving DecidableEq

/-- The durable and the buffered part of the stores. -/
structure Disk where
  cache : SavedState
  cacheStore : BlockStore
  flushed : SavedState
  flushedStore : BlockStore
  wal : List WalEntry

namespace Disk

/-- A fresh data directory: only the genesis block, already flushed. -/
def fresh : Disk := ⟨.empty, .new, .empty, .new, []⟩

/-- What one effect does to the disk; a crash loses what was not flushed. -/
def apply (disk : Disk) : Effect → Disk
  | .save item => { disk with cache := disk.cache.write item }
  | .putBlock block => { disk with cacheStore := disk.cacheStore.putBlock block }
  | .putCommitQc h qc => { disk with cacheStore := disk.cacheStore.putCommitQc h qc }
  | .putBlockResults h r => { disk with cacheStore := disk.cacheStore.putBlockResults h r }
  | .flush => { disk with flushed := disk.cache, flushedStore := disk.cacheStore }
  | .walWrite entry => { disk with wal := disk.wal ++ [entry] }
  | .walTruncate => { disk with wal := [] }
  | .crash => { disk with cache := disk.flushed, cacheStore := disk.flushedStore }
  | _ => disk

/-- The disk after a history of effects. -/
def after (trace : List Effect) : Disk := trace.foldl apply fresh

end Disk

/-! ### The engine -/

/-- A continuation of the running handler. -/
inductive Task
  /-- `try_propose`. -/
  | tryPropose
  /-- The rest of the proposal handler after the view was fast-forwarded. -/
  | resumeProposal (block : Block) (justify : QuorumCertificate)
      (doubleCert : Option DoubleCertificate)
deriving DecidableEq

/-- What the engine is constructed with and never changes. -/
structure Deps (σ : Type) where
  crypto : Crypto
  sign : SigningPayload → Signature
  app : Application σ
  hasPersistence : Bool
  hasEvidenceStore : Bool
  hasWal : Bool

/-- What a handler reads from its environment: the two clocks and the outcome
of the log operations (`walDoneSteps` counts the steps of `log_commit_done`
that take effect: write, then truncate). -/
structure Env where
  nowMs : ℕ
  instantMs : ℕ
  walIntentOk : Bool
  walDoneSteps : ℕ

/-- `ConsensusEngine`. -/
structure Engine (σ : Type) where
  state : ConsensusState
  store : BlockStore
  app : σ
  voteCollector : VoteCollector
  pacemaker : Pacemaker
  statusSenders : List ℕ
  currentViewQc : Option QuorumCertificate
  pendingEpoch : Option Epoch
  previousEpoch : Option Epoch
  evidenceStore : EvidenceStore
  livenessTracker : LivenessTracker
  msgRateLimiter : AList fun _ : ℕ => ℕ × ℕ
  /-- The process panicked or exited. -/
  halted : Bool
  todo : List Task
  trace : List Effect

/-- `ViewEntryTrigger`. -/
inductive ViewEntryTrigger
  | doubleCert (dc : DoubleCertificate)
  | timeoutCert (tc : TimeoutCertificate)
  | genesis

namespace Engine

variable {σ : Type}

/-- What the verification functions see of the engine. -/
def keyring (e : Engine σ) : Keyring where
  chainIdHash := e.state.chainIdHash
  currentView := e.state.currentView
  epochNumber := e.state.currentEpoch.number
  validatorSet := e.state.validatorSet
  previousEpoch := e.previousEpoch

/-- Append effects to the trace. -/
def emits (effects : List Effect) (e : Engine σ) : Engine σ :=
  { e with trace := e.trace ++ effects }

/-- Append one effect to the trace. -/
def emit (effect : Effect) (e : Engine σ) : Engine σ := e.emits [effect]

/-- A panic, or an exit of the process. -/
def halt (e : Engine σ) : Engine σ := { e with halted := true }

/-- Sequencing that stops at a panic. -/
def andThen (e : Engine σ) (f : Engine σ → Engine σ) : Engine σ :=
  if e.halted then e else f e

/-- Change the consensus state. -/
def mapState (f : ConsensusState → ConsensusState) (e : Engine σ) : Engine σ :=
  { e with state := f e.state }

/-- Change the step within the view. -/
def setStep (step : ViewStep) (e : Engine σ) : Engine σ :=
  e.mapState fun st => { st with step }

/-- Push a continuation. -/
def push (task : Task) (e : Engine σ) : Engine σ := { e with todo := task :: e.todo }

/-- `store.put_block`. -/
def putBlock (block : Block) (e : Engine σ) : Engine σ :=
  { e with store := e.store.putBlock block }.emit (.putBlock block)

/-- `store.put_commit_qc`. -/
def putCommitQc (height : ℕ) (qc : QuorumCertificate) (e : Engine σ) : Engine σ :=
  { e with store := e.store.putCommitQc height qc }.emit (.putCommitQc height qc)

/-- `store.put_block_results`. -/
def putBlockResults (height : ℕ) (results : EndBlockResponse) (e : Engine σ) : Engine σ :=
  { e with store := e.store.putBlockResults height results }.emit (.putBlockResults height results)

end Engine

section

variable {σ : Type} (d : Deps σ) (env : Env)

namespace Engine

/-! ### Persistence and the log -/

/-- `persist_state`. -/
def persistState (e : Engine σ) : Engine σ :=
  if d.hasPersistence then
    e.emits ([.save (.currentView e.state.currentView)]
      ++ (e.state.lockedQc.map fun qc => Effect.save (.lockedQc qc)).toList
      ++ (e.state.highestQc.map fun qc => Effect.save (.highestQc qc)).toList
      ++ [.save (.lastCommittedHeight e.state.lastCommittedHeight),
        .save (.currentEpoch e.state.currentEpoch), .save (.previousEpoch e.previousEpoch),
        .save (.lastAppHash e.state.lastAppHash), .save (.pendingEpoch e.pendingEpoch), .flush])
  else e

/-- `save_last_vote` and `flush`, in front of every signature on a vote. -/
def saveLastVote (voteType : VoteType) (view : ℕ) (blockHash : BlockHash) (e : Engine σ) :
    Engine σ :=
  if d.hasPersistence then e.emits [.save (.lastVote voteType view blockHash), .flush] else e

/-- `wal.log_commit_intent`; a failure panics. -/
def logCommitIntent (height : ℕ) (e : Engine σ) : Engine σ :=
  if d.hasWal then
    if env.walIntentOk then e.emit (.walWrite (.commitIntent height)) else e.halt
  else e

/-- `finish_wal_intent`; a failure is only logged. -/
def finishWalIntent (height : ℕ) (e : Engine σ) : Engine σ :=
  if d.hasWal then
    e.emits ([.walWrite (.commitDone height), .walTruncate].take env.walDoneSteps)
  else e

/-- `finish_wal_intent` for an intent that was logged. -/
def finishIntent (intent : Option ℕ) (e : Engine σ) : Engine σ :=
  match intent with
  | some height => e.finishWalIntent d env height
  | none => e

/-! ### Commits -/

/-- The stores written for one committed block. -/
def storeCommitted (commitQc : QuorumCertificate) (e : Engine σ)
    (p : Block × Option EndBlockResponse) : Engine σ :=
  let e := if commitQc.blockHash = p.1.hash then e.putCommitQc p.1.height commitQc else e
  match p.2 with
  | some response => e.putBlockResults p.1.height response
  | none => e

/-- The proofs embedded in the committed blocks are marked. -/
def markEvidence (blocks : List Block) (e : Engine σ) : Engine σ :=
  if d.hasEvidenceStore then
    let marked := (blocks.flatMap (·.evidence)).foldl
      (fun s proof => s.markCommitted proof.view proof.validator) e.evidenceStore
    { e with evidenceStore := marked }.emit .flush
  else e

/-- `process_commit_result`. -/
def processCommitResult (result : CommitResult) (e : Engine σ) : Engine σ :=
  if result.committedBlocks.isEmpty then e
  else
    let pairs := result.committedBlocks.zipIdx.map fun p =>
      (p.1, result.blockResponses[p.2]?)
    let e := (pairs.foldl (storeCommitted result.commitQc) e).emit .flush
    let e := e.markEvidence d result.committedBlocks
    let e := { e with
      livenessTracker := e.livenessTracker.recordCommit e.state.validatorSet
        result.commitQc.aggregateSignature.signers }
    (e.persistState d).finishWalIntent d env e.state.lastCommittedHeight

/-- `adopt_commit_epoch`. -/
def adoptCommitEpoch (result : CommitResult) (e : Engine σ) : Engine σ :=
  let e := match result.activatedEpoch with
    | some activated =>
      { e with
        previousEpoch := some e.state.currentEpoch
        state := { e.state with
          currentEpoch := activated
          validatorSet := activated.validatorSet } }
    | none => e
  { e with pendingEpoch := result.pendingEpoch }

/-- `try_commit` on the engine's own fields, and `last_app_hash` after a commit
that executed something. -/
def runTryCommit (dc : DoubleCertificate) (e : Engine σ) : CommitOutcome × Engine σ :=
  let run := tryCommit d.app dc e.store e.app e.state.lastCommittedHeight e.state.currentEpoch
    e.previousEpoch e.pendingEpoch
  let e := { e with
    app := run.app
    state := { e.state with lastCommittedHeight := run.lastCommittedHeight } }
  let e := e.emits (.tryCommit dc :: run.calls.map .app)
  match run.outcome with
  | .ok result =>
    let e := if result.committedBlocks.isEmpty then e
      else e.mapState fun st => { st with lastAppHash := result.lastAppHash }
    (.ok result, e)
  | .err err => (.err err, e.emit (.commitFailed err))
  | .panic => (.panic, e.halt)

/-- What follows a `try_commit` that returned: adopt the epochs and process the
result of a commit that executed something, close the log intent of any other. -/
def finishCommit (intent : Option ℕ) (outcome : CommitOutcome) (e : Engine σ) : Engine σ :=
  match outcome with
  | .ok result =>
    if result.committedBlocks.isEmpty then e.finishIntent d env intent
    else (e.adoptCommitEpoch result).processCommitResult d env result
  | .err _ => e.finishIntent d env intent
  | .panic => e

/-- `apply_commit`. -/
def applyCommit (dc : DoubleCertificate) (e : Engine σ) : Engine σ :=
  let intent := if d.hasWal then (e.store.getBlock dc.innerQc.blockHash).map (·.height) else none
  let e := match intent with
    | some height => e.logCommitIntent d env height
    | none => e
  e.andThen fun e =>
    let (outcome, e) := e.runTryCommit d dc
    e.finishCommit d env intent outcome

/-! ### Entering a view -/

/-- The status message a replica with power sends to the leader it follows. -/
def sendStatus (view : ℕ) (e : Engine σ) : Engine σ :=
  if 0 < e.state.ownPower then
    match e.state.validatorSet.leaderForView view with
    | some leader =>
      let payload := statusPayload e.state.chainIdHash e.state.currentEpoch.number view
        e.state.validatorId e.state.lockedQc
      e.emits [.sign payload, .sendTo leader.id
        (.statusCert e.state.lockedQc e.state.validatorId (d.sign payload))]
    | none => e.halt
  else e

/-- Leaders wait for status messages, replicas report and wait for a proposal. -/
def awaitTurn (view : ℕ) (amLeader : Bool) (e : Engine σ) : Engine σ :=
  if amLeader then e.setStep .waitingForStatus
  else (e.sendStatus d view).setStep .waitingForProposal

/-- `enter_view`. -/
def enterView (view : ℕ) (trigger : ViewEntryTrigger) (e : Engine σ) : Engine σ :=
  let stale := match trigger with
    | .genesis => false
    | _ => decide (view ≤ e.state.currentView)
  if stale then e
  else
    let amLeader := isLeaderOf e.state.validatorSet view e.state.validatorId
    let e := e.mapState fun st => { st with
      currentView := view
      step := .entered
      role := if amLeader then .leader else .replica }
    match trigger with
    | .genesis => e.setStep (if amLeader then .waitingForStatus else .waitingForProposal)
    | .doubleCert dc =>
      let e := e.mapState fun st =>
        { st.updateHighestQc dc.innerQc with highestDoubleCert := some dc }
      e.awaitTurn d view amLeader
    | .timeoutCert tc =>
      let e := match tc.highestQc with
        | some qc => e.mapState (·.updateHighestQc qc)
        | none => e
      e.awaitTurn d view amLeader

/-- What a view change clears: extensions, stale votes and wishes, statuses. -/
def clearForView (trigger : ViewEntryTrigger) (e : Engine σ) : Engine σ :=
  let extensions := match trigger with
    | .doubleCert dc =>
      ((e.keyring.validatorSetForEpoch dc.outerQc.epoch).bind
        (Keyring.canonicalVoteExtensions dc)).getD []
    | _ => []
  { e with
    state := { e.state with pendingVoteExtensions := extensions }
    voteCollector := (e.voteCollector.clearView e.state.currentView).pruneBefore e.state.currentView
    pacemaker := (e.pacemaker.clearView e.state.currentView).pruneBefore e.state.currentView
    statusSenders := []
    currentViewQc := none }

/-- The validators reported as offline at an epoch change. -/
def reportOffline (e : Engine σ) : Engine σ :=
  let offline := e.livenessTracker.offlineValidators.map fun o =>
    OfflineEvidence.mk o.1 o.2.1 o.2.2 e.state.lastCommittedHeight
  let e := if offline.isEmpty then e
    else { e with app := d.app.onOfflineValidators e.app offline }.emit
      (.app (.onOfflineValidators offline))
  { e with livenessTracker := LivenessTracker.new }

/-- The epoch transition of `advance_view_to`. -/
def startEpoch (newView : ℕ) (e : Engine σ) : Engine σ :=
  match e.pendingEpoch with
  | some epoch =>
    if epoch.startView ≤ newView then
      let e := e.reportOffline d
      { e with
        pendingEpoch := none
        previousEpoch := some e.state.currentEpoch
        state := { e.state with
          validatorSet := epoch.validatorSet
          currentEpoch := epoch }
        voteCollector := VoteCollector.new
        pacemaker := Pacemaker.new }.emit (.onEpochChange epoch.number epoch.validatorSet)
    else e
  | none => e

/-- `advance_view_to`. -/
def advanceViewTo (newView : ℕ) (trigger : ViewEntryTrigger) (e : Engine σ) : Engine σ :=
  if newView ≤ e.state.currentView then e
  else
    let e := (e.clearForView trigger).startEpoch d newView
    (e.enterView d newView trigger).andThen fun e =>
      let e := e.persistState d
      if e.state.isLeader ∧ e.state.step = .waitingForStatus then e.push .tryPropose else e

/-- `advance_view`. -/
def advanceView (trigger : ViewEntryTrigger) (e : Engine σ) : Engine σ :=
  let newView := match trigger with
    | .doubleCert _ => e.state.currentView + 1
    | .timeoutCert tc => tc.view + 1
    | .genesis => 1
  e.advanceViewTo d newView trigger

end Engine

end

end Hotmint
