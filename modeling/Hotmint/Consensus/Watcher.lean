/-
The reconnect watcher of `node.rs`: a replay over the store that the engine is using.

* `Application.noop`: `NoopApplication`;
* `WatcherPhase`, `Resync.watch`: `replay_blocks` cut into its single store operations,
  each of which takes the lock of `SharedStoreAdapter` for itself;
* `BlockStore.processCommit`: the critical section of `process_commit_result`;
* `Resync.apply`, `Resync.run`: an interleaving of both.
-/
import Hotmint.Consensus.Sync

namespace Hotmint

/-- `NoopApplication`. -/
def Application.noop : Application Unit where
  info := fun _ => ⟨0, BlockHash.genesis⟩
  createPayload := fun _ _ => ([], ())
  validateBlock := fun _ _ _ => (true, ())
  executeBlock := fun _ _ _ => (some .empty, ())
  onCommit := fun _ _ _ => (true, ())
  onEvidence := fun _ _ => (true, ())
  onOfflineValidators := fun _ _ => ()
  extendVote := fun _ _ _ => (none, ())
  verifyVoteExtension := fun _ _ _ _ => (true, ())
  tracksAppHash := fun _ => false

/-- What the watcher replays with: no persistence and no log. -/
def watcherDeps (crypto : Crypto) : SyncDeps Unit :=
  ⟨crypto, .noop, false, false, fun _ => false⟩

/-- The next store operation of the watcher. -/
inductive WatcherPhase
  /-- The block it extends is read, and the next block checked. -/
  | check
  | putBlock (block : Block) (qc : Option QuorumCertificate)
  | putCommitQc (block : Block) (qc : Option QuorumCertificate)
  | flushBlock (block : Block)
  | getResults (block : Block) (response : EndBlockResponse)
  | putResults (block : Block) (response : EndBlockResponse)
  | flushResults (block : Block)

/-- The watcher and the store it shares with the engine (`state.store`), with the batch
still to replay, the local pending epoch of the loop, and the results that the engine's
application returned so far. -/
structure Resync (σ : Type) where
  state : SyncState σ
  phase : WatcherPhase
  pending : Option Epoch
  blocks : List (Block × Option QuorumCertificate)
  returned : AList fun _ : ℕ => EndBlockResponse

namespace Resync

variable {σ : Type} (d : SyncDeps σ)

/-- `replay_blocks` returns an error. -/
def giveUp (s : Resync σ) : Resync σ := { s with phase := .check, blocks := [] }

/-- The callbacks of a block, between two store operations. -/
def execute (s : Resync σ) (block : Block) : Resync σ :=
  let epoch := s.state.replayEpoch s.pending block
  let ctx := blockContext block epoch
  let (ok, app) := d.app.validateBlock s.state.app block ctx
  let st := { s.state with app }.emits [.app (.validateBlock block ctx ok)]
  if ¬ ok then { s with state := st }.giveUp
  else
    let activates := SyncState.activatesEpoch s.pending block
    let st := { st with
      previousEpoch := if activates then some st.currentEpoch else st.previousEpoch
      currentEpoch := epoch }
    let pending := if activates then none else s.pending
    match executeCommittedBlock d.app block ctx st.app with
    | (none, app, calls) =>
      { s with state := { st with app }.emits (calls.map .app) }.giveUp
    | (some response, app, calls) =>
      let st := { st with
        app
        lastAppHash := if d.app.tracksAppHash app then response.appHash else block.appHash }.emits
          (calls.map .app)
      if response.validatorUpdates.isEmpty then
        { s with state := st, pending, phase := .getResults block response }
      else
        match chainedPendingEpoch st.currentEpoch pending block.view response.validatorUpdates with
        | .ok next =>
          { s with state := st, pending := some next, phase := .getResults block response }
        | .error _ => { s with state := st, pending }.giveUp

/-- One store operation of the watcher, and what it does until the next one. -/
def watch (s : Resync σ) : Resync σ :=
  match s.phase with
  | .check =>
    match s.blocks with
    | [] => s
    | (block, qc) :: blocks =>
      match s.state.checkSynced d (s.state.replayEpoch s.pending block) block qc with
      | .error _ => s.giveUp
      | .ok () => { s with phase := .putBlock block qc, blocks }
  | .putBlock block qc =>
    let st := { s.state with store := s.state.store.putBlock block }.emits [.putBlock block]
    { s with state := st, phase := .putCommitQc block qc }
  | .putCommitQc block qc =>
    let st := match qc with
      | some cert => { s.state with store := s.state.store.putCommitQc block.height cert }.emits
          [.putCommitQc block.height cert]
      | none => s.state
    { s with state := st, phase := .flushBlock block }
  | .flushBlock block => { s with state := s.state.emits [.flush] }.execute d block
  | .getResults block response =>
    match s.state.store.getBlockResults block.height with
    | some _ => { s with phase := .flushResults block }
    | none => { s with phase := .putResults block response }
  | .putResults block response =>
    let st := { s.state with store := s.state.store.putBlockResults block.height response }.emits
      [.putBlockResults block.height response]
    { s with state := st, phase := .flushResults block }
  | .flushResults block =>
    let st := s.state.emits [.flush]
    let st := { st with lastCommittedHeight := block.height, pendingEpoch := s.pending }
    { s with state := st, phase := .check }

end Resync

/-! ### The engine -/

/-- The results that a commit returned, with their heights. -/
def CommitResult.answers (result : CommitResult) : List (ℕ × EndBlockResponse) :=
  result.committedBlocks.zipIdx.filterMap fun p =>
    result.blockResponses[p.2]?.map fun response => (p.1.height, response)

/-- The stores written for one committed block. -/
def BlockStore.putCommitted (commitQc : QuorumCertificate) (store : BlockStore)
    (p : Block × Option EndBlockResponse) : BlockStore :=
  let store := if commitQc.blockHash = p.1.hash then store.putCommitQc p.1.height commitQc
    else store
  match p.2 with
  | some response => store.putBlockResults p.1.height response
  | none => store

/-- The critical section of `process_commit_result`. -/
def BlockStore.processCommit (store : BlockStore) (result : CommitResult) : BlockStore :=
  (result.committedBlocks.zipIdx.map fun p => (p.1, result.blockResponses[p.2]?)).foldl
    (putCommitted result.commitQc) store

/-! ### Interleavings -/

/-- What happens next: a store operation of the watcher, a new batch for it (with a new
cursor, if it begins anew), or a commit of the engine. -/
inductive ResyncLabel (σ : Type)
  | watch
  | batch (cursor : SyncState σ) (blocks : List (Block × Option QuorumCertificate))
  | commit (result : CommitResult)

namespace Resync

variable {σ : Type} (d : SyncDeps σ)

/-- One step. -/
def apply (s : Resync σ) : ResyncLabel σ → Resync σ
  | .watch => s.watch d
  | .batch cursor blocks =>
    match s.phase with
    | .check =>
      { s with
        state := { cursor with store := s.state.store }
        pending := cursor.pendingEpoch
        blocks }
    | _ => s
  | .commit result =>
    { s with
      state := { s.state with store := s.state.store.processCommit result }
      returned := result.answers.foldl (fun m a => m.insert a.1 a.2) s.returned }

/-- Some steps, in order. -/
def run (s : Resync σ) (labels : List (ResyncLabel σ)) : Resync σ := labels.foldl (apply d) s

/-- The beginning: nothing committed yet, and the watcher waits. -/
def start (st : SyncState σ) : Resync σ := ⟨st, .check, none, [], ∅⟩

end Resync

end Hotmint
