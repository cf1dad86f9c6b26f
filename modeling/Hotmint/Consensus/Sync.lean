/-
Catching up from peers (`hotmint-consensus/src/sync.rs`):

* `SyncState`: what `replay_blocks` is lent;
* `Sync.verifyVoteAggregate`, `Sync.verifyVoteQc`: its certificate check;
* `checkSynced`: everything it checks before it stores a block;
* `replayOne`, `replayBlocks`: the loop, with the state an error leaves behind;
* `Checked`, `checkSynced_ok`: **what the checks of a block establish**.
-/
import Hotmint.Consensus.Engine

namespace Hotmint

/-! ### Certificates -/

namespace Sync

variable (c : Crypto) (chainIdHash : Digest)

/-- `verify_vote_aggregate` of the sync module. -/
def verifyVoteAggregate (vs : ValidatorSet) (epoch view : ℕ) (blockHash : BlockHash)
    (voteType : VoteType) (agg : AggregateSignature) : Bool :=
  agg.signers.length = vs.validatorCount && verifySigners (fun vi sig => c.verify vi.publicKey
        (c.votePayload chainIdHash epoch view vi.id blockHash voteType none) sig)
      agg.signers vs.validators agg.signatures
    && hasQuorum vs agg

/-- `verify_vote_qc` of the sync module. -/
def verifyVoteQc (currentEpoch : Epoch) (qc : QuorumCertificate) : Bool :=
  qc.epoch = currentEpoch.number
    && verifyVoteAggregate c chainIdHash currentEpoch.validatorSet qc.epoch qc.view qc.blockHash
      .vote qc.aggregateSignature

end Sync

/-! ### Replay -/

/-- The reasons `replay_blocks` gives. -/
inductive SyncError
  | heightDiscontinuity (expected height : ℕ)
  | missingLastCommitted (height lastCommitted : ℕ)
  | chainDiscontinuity (height : ℕ) (expected parentHash : BlockHash)
  | qcHashMismatch (height : ℕ) (qcHash blockHash : BlockHash)
  | qcInvalid (height : ℕ)
  | missingQc (height : ℕ)
  | wrongProposer (height expected view proposer : ℕ)
  | hashMismatch (height : ℕ) (declared computed : BlockHash)
  | appHashMismatch (height : ℕ) (appHash lastAppHash : BlockHash)
  | evidence (err : EvidenceError)
  | walIntent (height : ℕ)
  | appRejected (height : ℕ)
  | invalidUpdates (height : ℕ) (reason : ValidatorSetError)
  | walDone (height : ℕ)
deriving DecidableEq

/-- What `replay_blocks` works with and never changes; what the log operations
return may depend on the height (`env` below), and an intent that could not be
synced may be in the log nevertheless. -/
structure SyncDeps (σ : Type) where
  crypto : Crypto
  app : Application σ
  hasPersistence : Bool
  hasWal : Bool
  intentStays : ℕ → Bool

/-- `SyncState`, with the effects so far. -/
structure SyncState (σ : Type) where
  store : BlockStore
  app : σ
  currentEpoch : Epoch
  lastCommittedHeight : ℕ
  lastAppHash : BlockHash
  chainIdHash : Digest
  pendingEpoch : Option Epoch
  previousEpoch : Option Epoch
  trace : List Effect

/-- How a replay ends. -/
inductive SyncEnd
  | done
  | error (err : SyncError)
  | panicked
deriving DecidableEq

section

variable {σ : Type} (d : SyncDeps σ) (env : ℕ → Env)

namespace SyncState

/-- Append effects to the trace. -/
def emits (effects : List Effect) (st : SyncState σ) : SyncState σ :=
  { st with trace := st.trace ++ effects }

/-- The epoch a block is replayed under: the pending one from its start view on. -/
def replayEpoch (st : SyncState σ) (pending : Option Epoch) (block : Block) : Epoch :=
  match pending with
  | some epoch => if epoch.startView ≤ block.view then epoch else st.currentEpoch
  | none => st.currentEpoch

/-- Does the block activate the pending epoch? -/
def activatesEpoch (pending : Option Epoch) (block : Block) : Bool :=
  match pending with
  | some epoch => epoch.startView ≤ block.view
  | none => false

/-- Heights continue the committed cursor. -/
def checkHeight (st : SyncState σ) (block : Block) : Except SyncError Unit :=
  if block.height ≠ st.lastCommittedHeight + 1 then
    .error (.heightDiscontinuity (st.lastCommittedHeight + 1) block.height)
  else .ok ()

/-- The hash the next block has to extend, if it is known. -/
def expectedParent (st : SyncState σ) : Option BlockHash :=
  if st.lastCommittedHeight = 0 then some BlockHash.genesis
  else (st.store.getBlockByHeight st.lastCommittedHeight).map (·.hash)

/-- Blocks extend the committed block. -/
def checkParent (st : SyncState σ) (block : Block) : Except SyncError Unit :=
  match st.expectedParent with
  | none => .error (.missingLastCommitted block.height st.lastCommittedHeight)
  | some parent =>
    if block.parentHash ≠ parent then
      .error (.chainDiscontinuity block.height parent block.parentHash)
    else .ok ()

/-- The certificate check of one block. -/
def checkQc (st : SyncState σ) (epoch : Epoch) (block : Block) (qc : Option QuorumCertificate) :
    Except SyncError Unit :=
  match qc with
  | some cert =>
    if cert.blockHash ≠ block.hash then
      .error (.qcHashMismatch block.height cert.blockHash block.hash)
    else if Sync.verifyVoteQc d.crypto st.chainIdHash epoch cert then .ok ()
    else .error (.qcInvalid block.height)
  | none => if 0 < block.height then .error (.missingQc block.height) else .ok ()

/-- The proposer of a synced block leads its view. -/
def checkProposer (epoch : Epoch) (block : Block) : Except SyncError Unit :=
  match epoch.validatorSet.leaderForView block.view with
  | some leader =>
    if block.proposer ≠ leader.id then
      .error (.wrongProposer block.height leader.id block.view block.proposer)
    else .ok ()
  | none => .ok ()

/-- The declared hash is the hash of the block. -/
def checkHash (block : Block) : Except SyncError Unit :=
  if block.hash ≠ d.crypto.computeHash block then
    .error (.hashMismatch block.height block.hash (d.crypto.computeHash block))
  else .ok ()

/-- The block was proposed on the local state root, if roots are tracked. -/
def checkAppHash (st : SyncState σ) (block : Block) : Except SyncError Unit :=
  if d.app.tracksAppHash st.app ∧ block.appHash ≠ st.lastAppHash then
    .error (.appHashMismatch block.height block.appHash st.lastAppHash)
  else .ok ()

/-- The embedded proofs of equivocation. -/
def checkEvidence (st : SyncState σ) (epoch : Epoch) (block : Block) : Except SyncError Unit :=
  match validateBlockEvidence d.crypto block epoch st.previousEpoch st.chainIdHash with
  | .ok () => .ok ()
  | .error err => .error (.evidence err)

/-- All checks in front of the first write, in the order of the source. -/
def checkSynced (st : SyncState σ) (epoch : Epoch) (block : Block)
    (qc : Option QuorumCertificate) : Except SyncError Unit := do
  st.checkHeight block
  st.checkParent block
  st.checkQc d epoch block qc
  checkProposer epoch block
  checkHash d block
  st.checkAppHash d block
  st.checkEvidence d epoch block

/-- The block and its certificate become durable. -/
def storeSynced (st : SyncState σ) (block : Block) (qc : Option QuorumCertificate) : SyncState σ :=
  let st := { st with store := st.store.putBlock block }.emits [.putBlock block]
  let st := match qc with
    | some cert => { st with store := st.store.putCommitQc block.height cert }.emits
        [.putCommitQc block.height cert]
    | none => st
  st.emits [.flush]

/-- Results are written once per height. -/
def storeResults (st : SyncState σ) (height : ℕ) (response : EndBlockResponse) : SyncState σ :=
  let st := match st.store.getBlockResults height with
    | some _ => st
    | none => { st with store := st.store.putBlockResults height response }.emits
        [.putBlockResults height response]
  st.emits [.flush]

/-- `persist_sync_checkpoint`. -/
def persistSyncCheckpoint (st : SyncState σ) (pending : Option Epoch) : SyncState σ :=
  if d.hasPersistence then
    st.emits [.save (.lastCommittedHeight st.lastCommittedHeight),
      .save (.currentEpoch st.currentEpoch), .save (.previousEpoch st.previousEpoch),
      .save (.lastAppHash st.lastAppHash), .save (.pendingEpoch pending), .flush]
  else st

/-- The end of a round: the cursor moves, the checkpoint is written, the log
entry closed. -/
def finishSynced (st : SyncState σ) (block : Block) (pending : Option Epoch)
    (response : EndBlockResponse) : SyncEnd × Option Epoch × SyncState σ :=
  let st := st.storeResults block.height response
  let st := { st with lastCommittedHeight := block.height, pendingEpoch := pending }
  let st := st.persistSyncCheckpoint d pending
  if d.hasWal then
    let steps := (env block.height).walDoneSteps
    let st := st.emits ([.walWrite (.commitDone block.height), .walTruncate].take steps)
    if steps < 2 then (.error (.walDone block.height), pending, st)
    else (.done, pending, st)
  else (.done, pending, st)

/-- The callbacks of one block, from `validate_block` on. -/
def executeSynced (st : SyncState σ) (pending : Option Epoch) (epoch : Epoch) (block : Block) :
    SyncEnd × Option Epoch × SyncState σ :=
  let ctx := blockContext block epoch
  let (ok, s) := d.app.validateBlock st.app block ctx
  let st := { st with app := s }.emits [.app (.validateBlock block ctx ok)]
  if ¬ ok then (.error (.appRejected block.height), pending, st)
  else
    let activates := activatesEpoch pending block
    let st := { st with
      previousEpoch := if activates then some st.currentEpoch else st.previousEpoch
      currentEpoch := epoch }
    let pending := if activates then none else pending
    match executeCommittedBlock d.app block ctx st.app with
    | (none, s, calls) => (.panicked, pending, { st with app := s }.emits (calls.map .app))
    | (some response, s, calls) =>
      let st := { st with
        app := s
        lastAppHash := if d.app.tracksAppHash s then response.appHash else block.appHash }.emits
          (calls.map .app)
      if response.validatorUpdates.isEmpty then st.finishSynced d env block pending response
      else
        match chainedPendingEpoch st.currentEpoch pending block.view response.validatorUpdates with
        | .ok next => st.finishSynced d env block (some next) response
        | .error err => (.error (.invalidUpdates block.height err), pending, st)

/-- One round of `replay_blocks`, with the local pending epoch of the loop. -/
def replayOne (st : SyncState σ) (pending : Option Epoch) (block : Block)
    (qc : Option QuorumCertificate) : SyncEnd × Option Epoch × SyncState σ :=
  let epoch := st.replayEpoch pending block
  match st.checkSynced d epoch block qc with
  | .error err => (.error err, pending, st)
  | .ok () =>
    let st := st.storeSynced block qc
    if d.hasWal then
      if (env block.height).walIntentOk then
        (st.emits [.walWrite (.commitIntent block.height)]).executeSynced d env pending epoch block
      else
        (.error (.walIntent block.height), pending,
          if d.intentStays block.height then st.emits [.walWrite (.commitIntent block.height)]
          else st)
    else st.executeSynced d env pending epoch block

/-- The loop of `replay_blocks`. -/
def replayLoop (st : SyncState σ) (pending : Option Epoch) :
    List (Block × Option QuorumCertificate) → SyncEnd × Option Epoch × SyncState σ
  | [] => (.done, pending, st)
  | (block, qc) :: blocks =>
    match st.replayOne d env pending block qc with
    | (.done, pending, st) => replayLoop st pending blocks
    | stopped => stopped

/-- `replay_blocks`: the pending epoch it returns, and the state it leaves. -/
def replayBlocks (st : SyncState σ) (blocks : List (Block × Option QuorumCertificate)) :
    SyncEnd × Option Epoch × SyncState σ :=
  match st.replayLoop d env st.pendingEpoch blocks with
  | (.done, pending, st) => (.done, pending, { st with pendingEpoch := pending })
  | stopped => stopped

end SyncState

end

/-! ### What acceptance says -/

namespace SyncState

variable {σ : Type} {d : SyncDeps σ} {env : ℕ → Env} {qc : Option QuorumCertificate}

/-- What the checks of a block establish. -/
structure Checked (d : SyncDeps σ) (st : SyncState σ) (epoch : Epoch) (block : Block)
    (qc : Option QuorumCertificate) : Prop where
  height : block.height = st.lastCommittedHeight + 1
  parent : st.expectedParent = some block.parentHash
  cert : ∃ cert, qc = some cert ∧ cert.blockHash = block.hash
    ∧ Sync.verifyVoteQc d.crypto st.chainIdHash epoch cert = true
  hash : block.hash = d.crypto.computeHash block

/-- Two checks in a row. -/
lemma seq_ok {ε : Type} {a b : Except ε Unit} (h : (do a; b) = .ok ()) :
    a = .ok () ∧ b = .ok () := by
  cases a with
  | error err => cases h
  | ok _ => exact ⟨rfl, h⟩

lemma checkQc_ok {st : SyncState σ} {epoch : Epoch} {block : Block}
    (hheight : 0 < block.height) (h : st.checkQc d epoch block qc = .ok ()) :
    ∃ cert, qc = some cert ∧ cert.blockHash = block.hash
      ∧ Sync.verifyVoteQc d.crypto st.chainIdHash epoch cert = true := by
  unfold checkQc at h
  split at h
  · next cert =>
      split_ifs at h with hhash hverify
      exact ⟨cert, rfl, not_not.mp hhash, hverify⟩
  · rw [if_pos hheight] at h
    cases h

lemma checkSynced_ok {st : SyncState σ} {epoch : Epoch} {block : Block}
    (h : st.checkSynced d epoch block qc = .ok ()) :
    Checked d st epoch block qc := by
  obtain ⟨hheight, h⟩ := seq_ok h
  obtain ⟨hparent, h⟩ := seq_ok h
  obtain ⟨hqc, h⟩ := seq_ok h
  obtain ⟨-, h⟩ := seq_ok h
  obtain ⟨hhash, -⟩ := seq_ok h
  have hnext : block.height = st.lastCommittedHeight + 1 := by
    unfold checkHeight at hheight
    split_ifs at hheight with hne
    exact not_not.mp hne
  refine ⟨hnext, ?_, checkQc_ok (by omega) hqc, ?_⟩
  · unfold checkParent at hparent
    split at hparent
    · cases hparent
    · next parent hexpected =>
        split_ifs at hparent with hne
        rw [hexpected, not_not.mp hne]
  · unfold checkHash at hhash
    split_ifs at hhash with hne
    exact not_not.mp hne

end SyncState

end Hotmint
