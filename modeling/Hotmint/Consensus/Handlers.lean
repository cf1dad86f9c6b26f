/-
The event loop (`engine.rs`): `handle_message` with its eight branches,
`handle_timeout`, and the start of `run`.

* `handleMessage`: rate limit, verification, dispatch;
* `handlePropose`, `resumeProposal`: the proposal branch, cut where the source
  awaits the view change;
* `handleTimeout`;
* `runTask`: the next continuation;
* `start`: the beginning of `run`, with `enterGenesisView`.
-/
import Hotmint.Consensus.Voting

namespace Hotmint

/-- The certificates of its signers that a timeout certificate carries. -/
def TimeoutCertificate.signedQcs (tc : TimeoutCertificate) : List QuorumCertificate :=
  (tc.aggregateSignature.signers.zip tc.highestQcs).filterMap fun p => if p.1 then p.2 else none

lemma mem_highestQcs {tc : TimeoutCertificate} {qc : QuorumCertificate}
    (h : qc ∈ tc.signedQcs) : some qc ∈ tc.highestQcs := by
  obtain ⟨⟨bit, entry⟩, hzip, hsome⟩ := List.mem_filterMap.mp h
  cases bit with
  | false => cases hsome
  | true =>
    obtain rfl : entry = some qc := hsome
    exact (List.of_mem_zip hzip).2

/-- The certificates `verify_message` has checked once it accepts a message that
is not past. -/
def checkedCertificates : ConsensusMessage → List Certificate
  | .propose _ justify _ _ _ => [.qc .vote justify]
  | .prepare certificate _ => [.qc .vote certificate]
  | .timeoutCert tc => .tc tc :: tc.signedQcs.map (.qc .vote)
  | _ => []

namespace Engine

variable {σ : Type} (d : Deps σ) (env : Env)

/-! ### Proposals -/

/-- Keep an ancestor block of a proposal: above the committed height, unknown,
and with the right hash. -/
def storeAncestor (e : Engine σ) (ancestor : Block) : Engine σ :=
  if e.state.lastCommittedHeight < ancestor.height ∧ (e.store.getBlock ancestor.hash).isNone
      ∧ ancestor.hash = d.crypto.computeHash ancestor then e.putBlock ancestor
  else e

/-- Keep the block of a past-view proposal. -/
def storePastBlock (block : Block) (e : Engine σ) : Engine σ :=
  if e.state.lastCommittedHeight < block.height ∧ block.hash = d.crypto.computeHash block then
    e.putBlock block
  else e

/-- Store the justify certificate as commit evidence of the block it certifies,
unless that height has one. -/
def recordJustify (justify : QuorumCertificate) (e : Engine σ) : Engine σ :=
  if 0 < justify.aggregateSignature.count then
    match e.store.getBlock justify.blockHash with
    | some justified =>
      if (e.store.getCommitQc justified.height).isNone then
        e.putCommitQc justified.height justify
      else e
    | none => e
  else e

/-- The height of the block a double certificate would commit, if it is stored. -/
def commitTarget (dc : Option DoubleCertificate) (e : Engine σ) : Option ℕ :=
  dc.bind fun dc => (e.store.getBlock dc.innerQc.blockHash).map (·.height)

/-- The proposal branch from `R-25` on: check the double certificate, record the
justify certificate, log the intent, vote, and process the commit. -/
def resumeProposal (block : Block) (justify : QuorumCertificate)
    (dc : Option DoubleCertificate) (e : Engine σ) : Engine σ :=
  let dcOk : Bool := match dc with
    | some dc => e.keyring.validateDoubleCert d.crypto dc
    | none => true
  if dcOk then
    let e := e.emits ((dc.map fun dc => Effect.verified (.dc dc)).toList)
    let e := e.recordJustify justify
    let intent := e.commitTarget dc
    let e := match intent with
      | some height => e.logCommitIntent d env height
      | none => e
    e.andThen fun e =>
      let (result, e) := e.onProposal d env block justify dc
      e.andThen fun e =>
        match result with
        | some result => e.finishCommit d env intent (.ok result)
        | none => e.finishIntent d env intent
  else e

/-- The proposal branch of `handle_message`. -/
def handlePropose (block : Block) (justify : QuorumCertificate)
    (dc : Option DoubleCertificate) (ancestors : List Block) (e : Engine σ) : Engine σ :=
  let e := ancestors.foldl (storeAncestor d) e
  if e.state.currentView < block.view then
    match dc with
    | none => e
    | some dc =>
      if e.keyring.validateDoubleCert d.crypto dc then
        ((e.emit (.verified (.dc dc))).applyCommit d env dc).andThen fun e =>
          let e := e.mapState fun st => { st with highestDoubleCert := some dc }
          (e.push (.resumeProposal block justify (some dc))).advanceViewTo d block.view
            (.doubleCert dc)
      else e
  else if block.view < e.state.currentView then e.storePastBlock d block
  else e.resumeProposal d env block justify dc

/-! ### Votes and certificates -/

/-- The first-phase vote branch. -/
def handleVote (vote : Vote) (e : Engine σ) : Engine σ :=
  if vote.view = e.state.currentView ∧ vote.epoch = e.state.currentEpoch.number
      ∧ e.state.isLeader ∧ vote.voteType = .vote then
    match e.collectVote d vote with
    | (some (qc, _), e) => e.onQcFormed d env qc
    | (none, e) => e
  else e

/-- Does the certified block, if stored, carry another state root than ours? -/
def appHashMismatch (blockHash : BlockHash) (e : Engine σ) : Bool :=
  d.app.tracksAppHash e.app &&
    match e.store.getBlock blockHash with
    | some block => decide (block.appHash ≠ e.state.lastAppHash)
    | none => false

/-- The prepare branch; a certificate of a future view is dropped too. -/
def handlePrepare (certificate : QuorumCertificate) (e : Engine σ) : Engine σ :=
  if certificate.view = e.state.currentView then
    if e.appHashMismatch d certificate.blockHash then e
    else
      let (extension, e) := e.extendVote d certificate.blockHash
      let (vote2, e) := e.onPrepare d certificate extension
      e.andThen fun e =>
        let e := e.persistState d
        match vote2 with
        | some (leader, vote) => e.emit (.sendTo leader (.vote2Msg vote))
        | none => e
  else e

/-- The check of a vote extension. -/
def acceptExtension (vote : Vote) (e : Engine σ) : Bool × Engine σ :=
  match vote.extension with
  | none => (true, e)
  | some ext =>
    let (ok, s) := d.app.verifyVoteExtension e.app ext vote.blockHash vote.validator
    (ok, { e with app := s }.emit
      (.app (.verifyVoteExtension ext vote.blockHash vote.validator ok)))

/-- The second-phase vote branch. -/
def handleVote2 (vote : Vote) (e : Engine σ) : Engine σ :=
  if vote.view = e.state.currentView ∧ vote.epoch = e.state.currentEpoch.number
      ∧ vote.voteType = .vote2 then
    let (ok, e) := e.acceptExtension d vote
    if ok then
      match e.collectVote d vote with
      | (some (outerQc, extensions), e) => e.onDoubleCertFormed d env outerQc extensions
      | (none, e) => e
    else e
  else e

/-! ### Timeouts -/

/-- `pacemaker.add_wish`, and the broadcast of a formed timeout certificate. -/
def addWish (targetView validator : ℕ) (highestQc : Option QuorumCertificate)
    (signature : Signature) (e : Engine σ) : Option TimeoutCertificate × Engine σ :=
  match e.pacemaker.addWish e.state.validatorSet targetView validator highestQc signature with
  | (some tc, pm) =>
    (some tc, { e with pacemaker := pm }.emits [.formed (.tc tc), .broadcast (.timeoutCert tc)])
  | (none, pm) => (none, { e with pacemaker := pm })

/-- A wish, and the view change a formed timeout certificate triggers. -/
def collectWish (targetView validator : ℕ) (highestQc : Option QuorumCertificate)
    (signature : Signature) (e : Engine σ) : Engine σ :=
  match e.addWish targetView validator highestQc signature with
  | (some tc, e) => e.advanceView d (.timeoutCert tc)
  | (none, e) => e

/-- The wish branch. -/
def handleWish (targetView validator : ℕ) (highestQc : Option QuorumCertificate)
    (signature : Signature) (e : Engine σ) : Engine σ :=
  let qcOk : Bool := match highestQc with
    | some qc => e.keyring.verifyJustifyQc d.crypto qc
    | none => true
  if e.state.currentView ≤ targetView ∧ targetView ≤ e.state.currentView + 1 ∧ qcOk then
    (e.emits ((highestQc.map fun qc => Effect.verified (.qc .vote qc)).toList)).collectWish d
      targetView validator highestQc signature
  else e

/-- The timeout certificate branch. -/
def handleTimeoutCert (tc : TimeoutCertificate) (e : Engine σ) : Engine σ :=
  let e := if e.state.currentView ≤ tc.view + 1 then
      let (relay, pm) := e.pacemaker.shouldRelayTc tc
      let e := { e with pacemaker := pm }
      if relay then e.emit (.broadcast (.timeoutCert tc)) else e
    else e
  if e.state.currentView < tc.view + 1 then e.advanceView d (.timeoutCert tc) else e

/-- `handle_timeout`. -/
def handleTimeout (e : Engine σ) : Engine σ :=
  if 0 < e.state.ownPower then
    let targetView := e.state.currentView + 1
    let payload := d.crypto.wishPayload e.state.chainIdHash e.state.currentEpoch.number
      targetView e.state.highestQc
    let signature := d.sign payload
    (e.emits [.sign payload, .broadcast (.wish targetView e.state.validatorId e.state.highestQc
      signature)]).collectWish d targetView e.state.validatorId e.state.highestQc signature
  else e

/-! ### Statuses and evidence -/

/-- The lock a replica reports, adopted as highest certificate once checked. -/
def adoptStatusQc (lockedQc : Option QuorumCertificate) (e : Engine σ) : Engine σ :=
  match lockedQc with
  | some qc =>
    if 0 < qc.aggregateSignature.count ∧ e.keyring.verifyVoteQc d.crypto qc .vote then
      (e.emit (.verified (.qc .vote qc))).mapState (·.updateHighestQc qc)
    else e
  | none => e

/-- The status branch. -/
def handleStatusCert (lockedQc : Option QuorumCertificate) (validator : ℕ) (e : Engine σ) :
    Engine σ :=
  if e.state.isLeader ∧ e.state.step = .waitingForStatus then
    let e := e.adoptStatusQc d lockedQc
    let e := { e with statusSenders := e.statusSenders.insert validator }
    let statusPower := (e.statusSenders.map e.state.validatorSet.powerOf).sum
    if e.state.validatorSet.quorumThreshold ≤ statusPower + e.state.ownPower then
      e.tryPropose d env
    else e
  else e

/-- The evidence branch. -/
def handleEvidence (proof : EquivocationProof) (e : Engine σ) : Engine σ :=
  match e.keyring.getRetained proof.validator with
  | none => e
  | some vi =>
    let payload := fun hash extension => d.crypto.votePayload e.state.chainIdHash proof.epoch
      proof.view proof.validator hash proof.voteType extension
    if proof.blockHashA ≠ proof.blockHashB
        ∧ d.crypto.verify vi.publicKey (payload proof.blockHashA proof.extensionA) proof.signatureA
        ∧ d.crypto.verify vi.publicKey (payload proof.blockHashB proof.extensionB)
          proof.signatureB then
      if d.hasEvidenceStore then
        { e with evidenceStore := e.evidenceStore.putEvidence proof }.emit .flush
      else e
    else e

/-! ### The event loop -/

/-- The rate limiter: at most 100 messages of a sender within a second. -/
def rateLimit (sender : Option ℕ) (e : Engine σ) : Bool × Engine σ :=
  match sender with
  | none => (true, e)
  | some id =>
    let entry := (e.msgRateLimiter.lookup id).getD (env.instantMs, 0)
    if entry.1 + 1000 ≤ env.instantMs then
      (true, { e with msgRateLimiter := e.msgRateLimiter.insert id (env.instantMs, 1) })
    else
      (entry.2 + 1 ≤ 100,
        { e with msgRateLimiter := e.msgRateLimiter.insert id (entry.1, entry.2 + 1) })

/-- The branches of `handle_message`. -/
def dispatch (msg : ConsensusMessage) (e : Engine σ) : Engine σ :=
  match msg with
  | .propose block justify dc _ ancestors => e.handlePropose d env block justify dc ancestors
  | .voteMsg vote => e.handleVote d env vote
  | .prepare certificate _ => e.handlePrepare d certificate
  | .vote2Msg vote => e.handleVote2 d env vote
  | .wish targetView validator highestQc signature =>
    e.handleWish d targetView validator highestQc signature
  | .timeoutCert tc => e.handleTimeoutCert d tc
  | .statusCert lockedQc validator _ => e.handleStatusCert d env lockedQc validator
  | .evidence proof => e.handleEvidence d proof

/-- `handle_message`. -/
def handleMessage (sender : Option ℕ) (msg : ConsensusMessage) (e : Engine σ) : Engine σ :=
  match e.rateLimit env sender with
  | (false, e) => e
  | (true, e) =>
    if e.keyring.isPast msg then e.dispatch d env msg
    else if e.keyring.verifyCurrent d.crypto msg then
      (e.emits ((checkedCertificates msg).map .verified)).dispatch d env msg
    else e

/-- Run the next continuation. -/
def runTask (e : Engine σ) : Engine σ :=
  match e.todo with
  | [] => e
  | task :: todo =>
    let e := { e with todo }
    match task with
    | .tryPropose => e.tryPropose d env
    | .resumeProposal block justify dc => e.resumeProposal d env block justify dc

/-! ### Startup -/

/-- The synthetic genesis certificate of `enter_genesis_view`. -/
def genesisQc (e : Engine σ) : QuorumCertificate where
  blockHash := BlockHash.genesis
  view := 0
  aggregateSignature := AggregateSignature.new e.state.validatorSet.validatorCount
  epoch := e.state.currentEpoch.number

/-- `enter_genesis_view`. -/
def enterGenesisView (e : Engine σ) : Engine σ :=
  let e := e.mapState fun st => { st with highestQc := some e.genesisQc }
  let e := e.enterView d 1 .genesis
  if e.state.isLeader then (e.setStep .waitingForStatus).push .tryPropose else e

/-- The beginning of `run`: compare the application's height and state root with
the consensus state, then enter the genesis view or resume. -/
def start (e : Engine σ) : Engine σ :=
  let info := d.app.info e.app
  if 0 < info.lastBlockHeight ∧ (info.lastBlockHeight ≠ e.state.lastCommittedHeight
      ∨ info.lastBlockAppHash ≠ e.state.lastAppHash) then e.halt
  else if e.state.currentView ≤ 1 then e.enterGenesisView d
  else e

end Engine

end Hotmint
