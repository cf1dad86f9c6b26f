/-
Voting (`view_protocol.rs` and the voting half of `engine.rs`):

* `signVote1`, `signVote2`: record the vote in its slot, save and flush the
  slot, sign; used by all four voting paths;
* `collectVote`: hand a vote to the collector and report an equivocation;
* `onDoubleCertFormed`, `onQcFormed`: what a formed certificate triggers;
* `tryPropose`: the leader's proposal and its vote on it;
* `onProposal`, `onPrepare`: the replica's two votes.
-/
import Hotmint.Consensus.Engine

namespace Hotmint

/-- The reasons `on_proposal` gives before it calls the application. -/
inductive ProposalError
  | notDominating
  | emptyValidatorSet
  | wrongProposer (proposer leader view : ℕ)
  | hashMismatch (declared computed : BlockHash)
  | parentMismatch (parentHash justifyHash : BlockHash)
  | parentMissing (parentHash : BlockHash)
  | wrongHeight (height parentHeight : ℕ)
  | zeroTimestamp
  | timestampBeforeParent (timestamp parentTimestamp : ℕ)
  | timestampInFuture (timestamp nowMs : ℕ)
  | evidence (err : EvidenceError)
deriving DecidableEq, Repr

/-- The lock check of `on_proposal`: the justify certificate must be of a
strictly higher view than the lock, or certify the locked block in its view. -/
def lockedOut (locked : Option QuorumCertificate) (justify : QuorumCertificate) : Bool :=
  match locked with
  | some l =>
    justify.view < l.view || (justify.view = l.view && justify.blockHash ≠ l.blockHash)
  | none => false

/-- `MAX_FUTURE_DRIFT_MS`. -/
def maxFutureDriftMs : ℕ := 15000

namespace Engine

variable {σ : Type} (d : Deps σ) (env : Env)

/-! ### Signing votes -/

/-- The vote of this node for a block in its current view and epoch. -/
def ownVote (voteType : VoteType) (blockHash : BlockHash) (extension : Option Bytes)
    (e : Engine σ) : Vote where
  epoch := e.state.currentEpoch.number
  blockHash := blockHash
  view := e.state.currentView
  validator := e.state.validatorId
  signature := d.sign (d.crypto.votePayload e.state.chainIdHash e.state.currentEpoch.number
    e.state.currentView e.state.validatorId blockHash voteType extension)
  voteType := voteType
  extension := extension

/-- Record a vote in its slot and save the slot; `false` when the double-sign
guard refuses. -/
def recordVote (voteType : VoteType) (blockHash : BlockHash) (e : Engine σ) : Bool × Engine σ :=
  match e.state.checkAndRecordVote voteType e.state.currentView blockHash with
  | (true, st) =>
    (true, { e with state := st }.saveLastVote d voteType e.state.currentView blockHash)
  | (false, st) => (false, { e with state := st })

/-- A first-phase vote, for a proposal and for the leader's own block. -/
def signVote1 (block : Block) (justify : QuorumCertificate) (e : Engine σ) :
    Option Vote × Engine σ :=
  match e.recordVote d .vote block.hash with
  | (true, e) =>
    let vote := e.ownVote d .vote block.hash none
    (some vote, e.emit (.signVote1 vote block justify e.state.lockedQc))
  | (false, e) => (none, e)

/-- A second-phase vote. -/
def signVote2 (qc : QuorumCertificate) (extension : Option Bytes) (e : Engine σ) :
    Option Vote × Engine σ :=
  match e.recordVote d .vote2 qc.blockHash with
  | (true, e) =>
    let vote := e.ownVote d .vote2 qc.blockHash extension
    (some vote, e.emit (.signVote2 vote qc))
  | (false, e) => (none, e)

/-! ### Collecting votes -/

/-- `handle_equivocation`. -/
def handleEquivocation (equivocation : Option EquivocationProof) (e : Engine σ) : Engine σ :=
  match equivocation with
  | some proof =>
    let e := if d.hasEvidenceStore then
        { e with evidenceStore := e.evidenceStore.putEvidence proof }.emit .flush
      else e
    e.emit (.broadcastEvidence proof)
  | none => e

/-- `vote_collector.add_vote` followed by `handle_equivocation`; the certificate
and the extensions when quorum was reached. -/
def collectVote (vote : Vote) (e : Engine σ) :
    Option (QuorumCertificate × List (ℕ × Bytes)) × Engine σ :=
  match e.voteCollector.addVote e.state.validatorSet vote e.state.currentEpoch.number with
  | (.error _, vc) => (none, { e with voteCollector := vc })
  | (.ok result, vc) =>
    let e := { e with voteCollector := vc }.handleEquivocation d result.equivocation
    match result.qc with
    | some qc => (some (qc, result.extensions), e.emit (.formed (.qc vote.voteType qc)))
    | none => (none, e)

/-- The inner certificate paired with an outer one: the one formed in this view,
else the lock, else the highest, if it is for the same block. -/
def innerQcFor (outerQc : QuorumCertificate) (e : Engine σ) : Option QuorumCertificate :=
  let sameBlock := fun qc : QuorumCertificate => decide (qc.blockHash = outerQc.blockHash)
  (e.currentViewQc.filter sameBlock).or
    ((e.state.lockedQc.filter sameBlock).or (e.state.highestQc.filter sameBlock))

/-- `on_double_cert_formed`. -/
def onDoubleCertFormed (outerQc : QuorumCertificate) (extensions : List (ℕ × Bytes))
    (e : Engine σ) : Engine σ :=
  let inner := e.innerQcFor outerQc
  let e := { e with currentViewQc := none }
  match inner with
  | none => e
  | some innerQc =>
    let dc : DoubleCertificate := ⟨innerQc, outerQc, extensions⟩
    ((e.emit (.formed (.dc dc))).applyCommit d env dc).andThen fun e =>
      (e.mapState fun st => { st with highestDoubleCert := some dc }).advanceView d (.doubleCert dc)

/-- The context of `extend_vote`. -/
def voteContext (block : Block) (e : Engine σ) : BlockContext where
  height := block.height
  view := e.state.currentView
  proposer := block.proposer
  epoch := e.state.currentEpoch.number
  epochStartView := e.state.currentEpoch.startView
  validatorSet := e.state.validatorSet
  timestamp := block.timestamp
  voteExtensions := []

/-- `app.extend_vote`, when the certified block is stored. -/
def extendVote (blockHash : BlockHash) (e : Engine σ) : Option Bytes × Engine σ :=
  match e.store.getBlock blockHash with
  | none => (none, e)
  | some block =>
    let ctx := e.voteContext block
    let (extension, s) := d.app.extendVote e.app block ctx
    (extension, { e with app := s }.emit (.app (.extendVote block ctx extension)))

/-- `on_votes_collected`. -/
def onVotesCollected (qc : QuorumCertificate) (e : Engine σ) : Engine σ :=
  let e := e.mapState (·.updateHighestQc qc)
  let payload := preparePayload e.state.chainIdHash e.state.currentEpoch.number qc
  (e.emits [.sign payload, .broadcast (.prepare qc (d.sign payload))]).setStep .prepared

/-- The leader's own second vote, once signed: count it when this node leads the
next view, send it otherwise. -/
def releaseVote2 (vote : Vote) (e : Engine σ) : Engine σ :=
  match nextLeader e.state.validatorSet e.state.currentView with
  | none => e.halt
  | some leader =>
    if leader = e.state.validatorId then
      match (e.emit (.countVote vote)).collectVote d vote with
      | (some (outerQc, extensions), e) => e.onDoubleCertFormed d env outerQc extensions
      | (none, e) => e
    else e.emit (.sendTo leader (.vote2Msg vote))

/-- `on_qc_formed`. -/
def onQcFormed (qc : QuorumCertificate) (e : Engine σ) : Engine σ :=
  let e := { e with currentViewQc := some qc }.onVotesCollected d qc
  let (extension, e) := e.extendVote d qc.blockHash
  match e.signVote2 d qc extension with
  | (none, e) => e
  | (some vote, e) =>
    ((e.mapState (·.updateLockedQc qc)).persistState d).releaseVote2 d env vote

/-! ### Proposing -/

/-- The ancestors a proposal carries: from the parent back while they are
stored and not far below the committed height.  A parent walk visits a block at
most once, so the number of stored blocks bounds it. -/
def ancestorBlocks (store : BlockStore) (depthLimit : ℕ) : ℕ → BlockHash → List Block
  | 0, _ => []
  | fuel + 1, hash =>
    if hash = BlockHash.genesis then []
    else
      match store.getBlock hash with
      | none => []
      | some b =>
        if b.height < depthLimit then []
        else b :: ancestorBlocks store depthLimit fuel b.parentHash

/-- The block a leader proposes on `parent`, before hashing. -/
def draftBlock (parentHash : BlockHash) (parent : Block) (payload : Bytes) (e : Engine σ) :
    Block where
  height := parent.height + 1
  parentHash := parentHash
  view := e.state.currentView
  proposer := e.state.validatorId
  timestamp := max env.nowMs (parent.timestamp + 1)
  payload := payload
  appHash := e.state.lastAppHash
  evidence := (if d.hasEvidenceStore then e.evidenceStore.getPending else []).filter fun proof =>
    (validateEvidence d.crypto proof e.state.currentView e.state.currentEpoch e.previousEpoch
      e.state.chainIdHash).isOk
  hash := BlockHash.genesis

/-- The context of `create_payload`. -/
def payloadContext (parent : Block) (e : Engine σ) : BlockContext where
  height := parent.height + 1
  view := e.state.currentView
  proposer := e.state.validatorId
  epoch := e.state.currentEpoch.number
  epochStartView := e.state.currentEpoch.startView
  validatorSet := e.state.validatorSet
  timestamp := max env.nowMs (parent.timestamp + 1)
  voteExtensions := e.state.pendingVoteExtensions

/-- `app.create_payload`, which consumes the pending vote extensions. -/
def createPayload (parent : Block) (e : Engine σ) : Bytes × Engine σ :=
  let ctx := e.payloadContext env parent
  let (payload, s) := d.app.createPayload e.app ctx
  let e := { e with app := s }.mapState fun st => { st with pendingVoteExtensions := [] }
  (payload, e.emit (.app (.createPayload ctx payload)))

/-- `propose`; the block and its justify certificate, or nothing when the
highest certificate or its block is missing. -/
def propose (e : Engine σ) : Option (Block × QuorumCertificate) × Engine σ :=
  match e.state.highestQc with
  | none => (none, e)
  | some justify =>
    match e.store.getBlock justify.blockHash with
    | none => (none, e)
    | some parent =>
      let (payload, e) := e.createPayload d env parent
      let draft := e.draftBlock d env justify.blockHash parent payload
      let block := { draft with hash := d.crypto.computeHash draft }
      let e := e.putBlock block
      let signing := proposalPayload e.state.chainIdHash e.state.currentEpoch.number block
        justify
      let ancestors := ancestorBlocks e.store (e.state.lastCommittedHeight - 1)
        e.store.byHash.entries.length justify.blockHash
      let e := e.emits [.sign signing, .broadcast (.propose block justify
        e.state.highestDoubleCert (d.sign signing) ancestors)]
      (some (block, justify), e.setStep .collectingVotes)

/-- `leader_self_vote`. -/
def leaderSelfVote (block : Block) (justify : QuorumCertificate) (e : Engine σ) : Engine σ :=
  match e.signVote1 d block justify with
  | (none, e) => e
  | (some vote, e) =>
    match (e.emit (.countVote vote)).collectVote d vote with
    | (some (qc, _), e) => e.onQcFormed d env qc
    | (none, e) => e

/-- `try_propose`. -/
def tryPropose (e : Engine σ) : Engine σ :=
  match e.propose d env with
  | (some (block, justify), e) => e.leaderSelfVote d env block justify
  | (none, e) => e

/-! ### Voting on a proposal -/

/-- The checks of `on_proposal` before the application is asked. -/
def checkProposal (block : Block) (justify : QuorumCertificate) (e : Engine σ) :
    Except ProposalError Unit :=
  if lockedOut e.state.lockedQc justify then .error .notDominating
  else
    match e.state.validatorSet.leaderForView block.view with
    | none => .error .emptyValidatorSet
    | some leader =>
      if block.proposer ≠ leader.id then
        .error (.wrongProposer block.proposer leader.id block.view)
      else if block.hash ≠ d.crypto.computeHash block then
        .error (.hashMismatch block.hash (d.crypto.computeHash block))
      else if block.parentHash ≠ justify.blockHash then
        .error (.parentMismatch block.parentHash justify.blockHash)
      else
        match e.store.getBlock block.parentHash with
        | none => .error (.parentMissing block.parentHash)
        | some parent =>
          if block.height ≠ parent.height + 1 then
            .error (.wrongHeight block.height parent.height)
          else if block.timestamp = 0 then .error .zeroTimestamp
          else if block.timestamp < parent.timestamp then
            .error (.timestampBeforeParent block.timestamp parent.timestamp)
          else if env.nowMs + maxFutureDriftMs < block.timestamp then
            .error (.timestampInFuture block.timestamp env.nowMs)
          else
            match validateBlockEvidence d.crypto block e.state.currentEpoch e.previousEpoch
                e.state.chainIdHash with
            | .error err => .error (.evidence err)
            | .ok () => .ok ()

/-- The context of `validate_block`. -/
def proposalContext (block : Block) (e : Engine σ) : BlockContext :=
  { e.voteContext block with view := block.view }

/-- The end of `on_proposal`: check the state root, vote, and send the vote to
the leader of the view. -/
def voteOnProposal (block : Block) (justify : QuorumCertificate) (e : Engine σ) : Engine σ :=
  if d.app.tracksAppHash e.app ∧ block.appHash ≠ e.state.lastAppHash then e
  else if 0 < e.state.ownPower then
    match e.signVote1 d block justify with
    | (none, e) => e.setStep .voted
    | (some vote, e) =>
      match e.state.validatorSet.leaderForView e.state.currentView with
      | some leader => (e.emit (.sendTo leader.id (.voteMsg vote))).setStep .voted
      | none => e.halt
  else e.setStep .voted

/-- `on_proposal`; the commit it made through the double certificate, if any.
A rejection and a failed commit both answer `none`: the caller treats them like
a proposal without a commit. -/
def onProposal (block : Block) (justify : QuorumCertificate) (dc : Option DoubleCertificate)
    (e : Engine σ) : Option CommitResult × Engine σ :=
  if e.state.step ≠ .waitingForProposal then (none, e)
  else
    match e.checkProposal d env block justify with
    | .error _ => (none, e)
    | .ok () =>
      let ctx := e.proposalContext block
      let (ok, s) := d.app.validateBlock e.app block ctx
      let e := { e with app := s }.emit (.app (.validateBlock block ctx ok))
      if ok then
        let e := (e.putBlock block).mapState (·.updateHighestQc justify)
        match dc with
        | none => (none, e.voteOnProposal d block justify)
        | some dc =>
          match e.runTryCommit d dc with
          | (.ok result, e) => (some result, e.voteOnProposal d block justify)
          | (.err _, e) => (none, e)
          | (.panic, e) => (none, e)
      else (none, e)

/-! ### Voting on a certificate -/

/-- `on_prepare`; the vote and the leader to send it to. -/
def onPrepare (qc : QuorumCertificate) (extension : Option Bytes) (e : Engine σ) :
    Option (ℕ × Vote) × Engine σ :=
  if e.state.step ≠ .voted then (none, e)
  else
    let e := e.mapState fun st => (st.updateLockedQc qc).updateHighestQc qc
    if 0 < e.state.ownPower then
      match e.signVote2 d qc extension with
      | (none, e) => (none, e.setStep .sentVote2)
      | (some vote, e) =>
        match nextLeader e.state.validatorSet e.state.currentView with
        | some leader => (some (leader, vote), e.setStep .sentVote2)
        | none => (none, e.halt)
    else (none, e.setStep .sentVote2)

end Engine

end Hotmint
