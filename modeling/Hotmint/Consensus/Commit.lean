/-
The commit function (`hotmint-consensus/src/commit.rs`) and the application it
drives (`application.rs`):

* `Application`: the callbacks, as functions on an application state;
* `AppCall`: one callback with its arguments and its answer;
* `collectChain`: the backward walk from a certified block to the committed
  tip, done before any callback;
* `executeChain`: the forward loop with its epoch fold, one `execute_block` per
  block, which may stop with an error or a panic after some blocks;
* `tryCommit`: both together.
-/
import Hotmint.Consensus.Collectors

namespace Hotmint

/-! ### The application -/

/-- `AppInfo`. -/
structure AppInfo where
  lastBlockHeight : ℕ
  lastBlockAppHash : BlockHash

/-- The callbacks of `Application` used by the engine, over an application
state `σ`.  `executeBlock` answers `none`, `onCommit` and `onEvidence` answer
`false`, when the callback returns an error. -/
structure Application (σ : Type) where
  info : σ → AppInfo
  createPayload : σ → BlockContext → Bytes × σ
  validateBlock : σ → Block → BlockContext → Bool × σ
  executeBlock : σ → List Bytes → BlockContext → Option EndBlockResponse × σ
  onCommit : σ → Block → BlockContext → Bool × σ
  onEvidence : σ → EquivocationProof → Bool × σ
  onOfflineValidators : σ → List OfflineEvidence → σ
  extendVote : σ → Block → BlockContext → Option Bytes × σ
  verifyVoteExtension : σ → Bytes → BlockHash → ℕ → Bool × σ
  tracksAppHash : σ → Bool

/-- A callback the engine made, with what it returned. -/
inductive AppCall
  | createPayload (ctx : BlockContext) (payload : Bytes)
  | validateBlock (block : Block) (ctx : BlockContext) (ok : Bool)
  | executeBlock (block : Block) (ctx : BlockContext) (response : Option EndBlockResponse)
  | onCommit (block : Block) (ctx : BlockContext) (ok : Bool)
  | onEvidence (proof : EquivocationProof) (ok : Bool)
  | onOfflineValidators (offline : List OfflineEvidence)
  | extendVote (block : Block) (ctx : BlockContext) (extension : Option Bytes)
  | verifyVoteExtension (extension : Bytes) (blockHash : BlockHash) (validator : ℕ) (ok : Bool)
deriving DecidableEq

/-! ### Payloads -/

/-- `u32::from_le_bytes`. -/
def u32FromLeBytes (b₀ b₁ b₂ b₃ : UInt8) : ℕ :=
  b₀.toNat + 256 * (b₁.toNat + 256 * (b₂.toNat + 256 * b₃.toNat))

/-- The loop of `decode_payload`; every round consumes a four-byte length. -/
def decodePayloadAux : ℕ → Bytes → List Bytes
  | fuel + 1, b₀ :: b₁ :: b₂ :: b₃ :: rest =>
    let len := u32FromLeBytes b₀ b₁ b₂ b₃
    if len ≤ rest.length then rest.take len :: decodePayloadAux fuel (rest.drop len) else []
  | _, _ => []

/-- `decode_payload`. -/
def decodePayload (payload : Bytes) : List Bytes := decodePayloadAux payload.length payload

/-! ### Evidence checks -/

/-- The reasons `validate_evidence` gives. -/
inductive EvidenceError
  | unknownValidator
  | invalid
  | invalidSignature
deriving DecidableEq, Repr

/-- The error texts of `validate_evidence`. -/
def EvidenceError.message : EvidenceError → String
  | unknownValidator => "evidence references unknown validator"
  | invalid => "invalid embedded equivocation evidence"
  | invalidSignature => "invalid embedded evidence signature"

/-- `validate_evidence`. -/
def validateEvidence (c : Crypto) (proof : EquivocationProof) (blockView : ℕ) (epoch : Epoch)
    (previousEpoch : Option Epoch) (chainIdHash : Digest) : Except EvidenceError Unit :=
  match (epoch.validatorSet.get proof.validator).or
      (previousEpoch.bind (·.validatorSet.get proof.validator)) with
  | none => .error .unknownValidator
  | some vi =>
    if proof.blockHashA = proof.blockHashB ∨ epoch.number < proof.epoch ∨ blockView < proof.view
        ∨ (proof.voteType = .vote ∧ (proof.extensionA.isSome ∨ proof.extensionB.isSome)) then
      .error .invalid
    else
      let payload := fun hash extension =>
        c.votePayload chainIdHash proof.epoch proof.view proof.validator hash proof.voteType
          extension
      if c.verify vi.publicKey (payload proof.blockHashA proof.extensionA) proof.signatureA
          && c.verify vi.publicKey (payload proof.blockHashB proof.extensionB)
            proof.signatureB then .ok ()
      else .error .invalidSignature

/-- `validate_block_evidence`: the first failing proof, if any. -/
def validateBlockEvidence (c : Crypto) (block : Block) (epoch : Epoch)
    (previousEpoch : Option Epoch) (chainIdHash : Digest) : Except EvidenceError Unit :=
  block.evidence.forM fun proof =>
    validateEvidence c proof block.view epoch previousEpoch chainIdHash

/-! ### Walking back to the committed tip -/

/-- The reasons `try_commit` gives. -/
inductive CommitError
  | blockNotFound
  | heightZero
  | missingAncestor (hash : BlockHash)
  | heightDiscontinuity (height parentHeight : ℕ)
  | lastCommittedMissing
  | conflictsWithLastCommitted
  | skipsLastCommitted
  | invalidUpdates (height : ℕ) (reason : ValidatorSetError)
deriving DecidableEq, Repr

/-- The backward loop of `try_commit`.  The first argument is the height of
`current`; the blocks walked over are returned from the lowest. -/
def collectChain (store : BlockStore) (lastCommitted : ℕ) :
    ℕ → Block → List Block → Except CommitError (List Block)
  | 0, _, _ => .error .heightZero
  | expectedParentHeight + 1, current, acc =>
    match store.getBlock current.parentHash with
    | none => .error (.missingAncestor current.parentHash)
    | some parent =>
      if parent.height ≠ expectedParentHeight then
        .error (.heightDiscontinuity current.height parent.height)
      else if parent.height = lastCommitted then
        match store.getBlockByHeight lastCommitted with
        | none => .error .lastCommittedMissing
        | some committed =>
          if parent.hash ≠ committed.hash then .error .conflictsWithLastCommitted
          else .ok (current :: acc)
      else if parent.height < lastCommitted then .error .skipsLastCommitted
      else collectChain store lastCommitted expectedParentHeight parent (current :: acc)

/-! ### Executing the chain -/

/-- `chained_pending_epoch`. -/
def chainedPendingEpoch (currentEpoch : Epoch) (pending : Option Epoch) (blockView : ℕ)
    (updates : List ValidatorUpdate) : Except ValidatorSetError Epoch :=
  let base := pending.getD currentEpoch
  match base.validatorSet.tryApplyUpdates updates with
  | .ok vs => .ok ⟨base.number + 1, blockView + 2, vs⟩
  | .error err => .error err

/-- The context a committed block is executed with, under a given epoch. -/
def blockContext (block : Block) (epoch : Epoch) : BlockContext where
  height := block.height
  view := block.view
  proposer := block.proposer
  epoch := epoch.number
  epochStartView := epoch.startView
  validatorSet := epoch.validatorSet
  timestamp := block.timestamp
  voteExtensions := []

section

variable {σ : Type} (app : Application σ)

/-- The evidence loop of `execute_committed_block`; `false` is a panic. -/
def applyEvidence : List EquivocationProof → σ → Bool × σ × List AppCall
  | [], s => (true, s, [])
  | proof :: proofs, s =>
    let (ok, s) := app.onEvidence s proof
    if ok then
      let (ok', s, calls) := applyEvidence proofs s
      (ok', s, .onEvidence proof true :: calls)
    else (false, s, [.onEvidence proof false])

/-- `execute_committed_block`: evidence, execution, commit notification; the
answer is `none` when one of them fails, which panics. -/
def executeCommittedBlock (block : Block) (ctx : BlockContext) (s : σ) :
    Option EndBlockResponse × σ × List AppCall :=
  let (ok, s, calls) := applyEvidence app block.evidence s
  if ok then
    match app.executeBlock s (decodePayload block.payload) ctx with
    | (none, s) => (none, s, calls ++ [.executeBlock block ctx none])
    | (some response, s) =>
      let (ok, s) := app.onCommit s block ctx
      let calls := calls ++ [.executeBlock block ctx (some response), .onCommit block ctx ok]
      (if ok then some response else none, s, calls)
  else (none, s, calls)

/-- The loop variables of the execution loop of `try_commit`. -/
structure ExecState (σ : Type) where
  pending : Option Epoch
  activated : Option Epoch
  active : Epoch
  previous : Option Epoch
  lastAppHash : BlockHash
  responses : List EndBlockResponse
  lastCommittedHeight : ℕ
  app : σ
  calls : List AppCall

namespace ExecState

/-- A pending epoch becomes active at the first block of its start view. -/
def activate (x : ExecState σ) (block : Block) : ExecState σ :=
  match x.pending with
  | some p =>
    if p.startView ≤ block.view then
      { x with previous := some x.active, active := p, pending := none, activated := some p }
    else x
  | none => x

/-- The epoch a block runs under: the previous one for a block of an earlier
view than the active epoch's start. -/
def ctxEpoch (x : ExecState σ) (block : Block) : Epoch :=
  if block.view < x.active.startView then x.previous.getD x.active else x.active

end ExecState

/-- How the execution loop ends. -/
inductive ExecEnd
  | completed
  | failed (err : CommitError)
  | panicked
deriving DecidableEq

/-- One round of the execution loop. -/
def executeOne (x : ExecState σ) (block : Block) : ExecEnd × ExecState σ :=
  let x := x.activate block
  match executeCommittedBlock app block (blockContext block (x.ctxEpoch block)) x.app with
  | (none, s, calls) => (.panicked, { x with app := s, calls := x.calls ++ calls })
  | (some response, s, calls) =>
    let x := { x with
      app := s
      calls := x.calls ++ calls
      lastAppHash := if app.tracksAppHash s then response.appHash else block.appHash }
    let done := fun pending : Option Epoch => (ExecEnd.completed, { x with
      pending
      responses := x.responses ++ [response]
      lastCommittedHeight := block.height })
    if response.validatorUpdates.isEmpty then done x.pending
    else
      match chainedPendingEpoch x.active x.pending block.view response.validatorUpdates with
      | .ok epoch => done (some epoch)
      | .error err => (.failed (.invalidUpdates block.height err), x)

/-- The execution loop of `try_commit`. -/
def executeChain (x : ExecState σ) : List Block → ExecEnd × ExecState σ
  | [] => (.completed, x)
  | block :: blocks =>
    match executeOne app x block with
    | (.completed, x') => executeChain x' blocks
    | stopped => stopped

/-- `CommitResult`. -/
structure CommitResult where
  committedBlocks : List Block
  commitQc : QuorumCertificate
  pendingEpoch : Option Epoch
  activatedEpoch : Option Epoch
  lastAppHash : BlockHash
  blockResponses : List EndBlockResponse

/-- What `try_commit` returns. -/
inductive CommitOutcome
  | ok (result : CommitResult)
  | err (err : CommitError)
  | panic

/-- `try_commit`, with everything it changes on the way: the application, the
callbacks made, and the `last_committed_height` it was lent. -/
structure CommitRun (σ : Type) where
  outcome : CommitOutcome
  lastCommittedHeight : ℕ
  app : σ
  calls : List AppCall

/-- The loop variables before the first block. -/
def ExecState.start (lastCommitted : ℕ) (currentEpoch : Epoch)
    (previousEpoch inFlightPending : Option Epoch) (s : σ) : ExecState σ where
  pending := inFlightPending
  activated := none
  active := currentEpoch
  previous := previousEpoch
  lastAppHash := BlockHash.genesis
  responses := []
  lastCommittedHeight := lastCommitted
  app := s
  calls := []

/-- `try_commit`. -/
def tryCommit (dc : DoubleCertificate) (store : BlockStore) (s : σ) (lastCommitted : ℕ)
    (currentEpoch : Epoch) (previousEpoch inFlightPending : Option Epoch) : CommitRun σ :=
  match store.getBlock dc.innerQc.blockHash with
  | none => ⟨.err .blockNotFound, lastCommitted, s, []⟩
  | some target =>
    if target.height ≤ lastCommitted then
      ⟨.ok ⟨[], dc.innerQc, none, none, BlockHash.genesis, []⟩, lastCommitted, s, []⟩
    else
      match collectChain store lastCommitted target.height target [] with
      | .error err => ⟨.err err, lastCommitted, s, []⟩
      | .ok toCommit =>
        let start := ExecState.start lastCommitted currentEpoch previousEpoch
          inFlightPending s
        match executeChain app start toCommit with
        | (.completed, x) =>
          ⟨.ok ⟨toCommit, dc.innerQc, x.pending, x.activated, x.lastAppHash, x.responses⟩,
            x.lastCommittedHeight, x.app, x.calls⟩
        | (.failed err, x) => ⟨.err err, x.lastCommittedHeight, x.app, x.calls⟩
        | (.panicked, x) => ⟨.panic, x.lastCommittedHeight, x.app, x.calls⟩

end

end Hotmint
