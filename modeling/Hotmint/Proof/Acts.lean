/-
What one step of the engine can do, said once.  Every handler is a sequence of
`Act`s; an invariant is proved by checking it against each kind of act.

* `quiet`, `Quiet`: changes no safety argument looks at;
* `Phase`: where the engine is in the middle of a commit (executed but not yet
  adopted, adopted but not yet saved, or stopped by a panic);
* `Act`: the acts, each with what the code has established when it happens;
* `Acts`, `Reach`: sequences of acts, and how they compose.
-/
import Hotmint.Consensus.Run

namespace Hotmint

open Effect

/-- Effects that neither release a vote, nor sign a proposal, nor run a block, nor ask for a
payload, nor write a store or the log, nor establish a certificate, nor report an
equivocation, nor announce an epoch.  A flush counts as quiet. -/
def Effect.quiet : Effect → Bool
  | .broadcast (.voteMsg _) => false
  | .broadcast (.vote2Msg _) => false
  | .broadcast _ => true
  | .sendTo _ (.voteMsg _) => false
  | .sendTo _ (.vote2Msg _) => false
  | .sendTo _ _ => true
  | .onEpochChange _ _ => false
  | .sign (.vote ..) => false
  | .sign (.proposal ..) => false
  | .sign _ => true
  | .app (.executeBlock _ _ _) => false
  | .app (.onCommit _ _ _) => false
  | .app (.onEvidence _ _) => false
  | .app (.createPayload _ _) => false
  | .app _ => true
  | .flush => true
  | _ => false

/-- A quiet effect, or the announcement of an epoch. -/
def Effect.calm : Effect → Bool
  | .onEpochChange _ _ => true
  | effect => effect.quiet

lemma Effect.calm_of_quiet {effect : Effect} (h : effect.quiet = true) : effect.calm = true := by
  cases effect <;> first | rfl | exact h

/-- A certificate for first-phase votes that the trace accounts for: checked or
formed by itself, inside a double certificate, or reported in a timeout
certificate. -/
def KnownQc (trace : List Effect) (qc : QuorumCertificate) : Prop :=
  verified (.qc .vote qc) ∈ trace ∨ formed (.qc .vote qc) ∈ trace
    ∨ (∃ dc : DoubleCertificate, (verified (.dc dc) ∈ trace
        ∨ formed (.dc dc) ∈ trace) ∧ dc.innerQc = qc)
    ∨ ∃ tc : TimeoutCertificate, (verified (.tc tc) ∈ trace
        ∨ formed (.tc tc) ∈ trace) ∧ qc ∈ tc.signedQcs

/-- A double certificate that was checked or formed. -/
def KnownDc (trace : List Effect) (dc : DoubleCertificate) : Prop :=
  verified (.dc dc) ∈ trace ∨ formed (.dc dc) ∈ trace

/-- A timeout certificate that was checked or formed. -/
def KnownTc (trace : List Effect) (tc : TimeoutCertificate) : Prop :=
  verified (.tc tc) ∈ trace ∨ formed (.tc tc) ∈ trace

/-- The check behind a `verified` effect. -/
def Keyring.checks (c : Crypto) (k : Keyring) : Certificate → Bool
  | .qc .vote qc => k.verifyJustifyQc c qc
  | .qc .vote2 _ => false
  | .dc dc => k.validateDoubleCert c dc
  | .tc tc => k.verifyTc c tc k.validatorSet
      || (match k.previousEpoch with
        | some previous => k.verifyTc c tc previous.validatorSet
        | none => false)

/-- The vote was signed by this node. -/
def SignedVote (trace : List Effect) (vote : Vote) : Prop :=
  (∃ block justify locked, signVote1 vote block justify locked ∈ trace)
    ∨ ∃ qc, signVote2 vote qc ∈ trace

/-- Where the engine is within a commit. -/
inductive Phase
  /-- Not in a commit. -/
  | idle
  /-- Blocks were executed; the result is not adopted yet. -/
  | executed (result : CommitResult)
  /-- The result is adopted; the checkpoint is not written yet. -/
  | adopted (result : CommitResult)
  /-- A callback panicked. -/
  | dead

/-- The engine, and where it is within a commit. -/
structure Flow (σ : Type) where
  engine : Engine σ
  phase : Phase

variable {σ : Type}

/-- Nothing changes but roles, steps, statuses, the rate limiter, the application outside of
commits, and quiet effects. -/
structure Quiet (e e' : Engine σ) : Prop where
  validatorId : e'.state.validatorId = e.state.validatorId
  validatorSet : e'.state.validatorSet = e.state.validatorSet
  chainIdHash : e'.state.chainIdHash = e.state.chainIdHash
  currentView : e'.state.currentView = e.state.currentView
  lockedQc : e'.state.lockedQc = e.state.lockedQc
  highestQc : e'.state.highestQc = e.state.highestQc
  highestDoubleCert : e'.state.highestDoubleCert = e.state.highestDoubleCert
  lastCommittedHeight : e'.state.lastCommittedHeight = e.state.lastCommittedHeight
  lastAppHash : e'.state.lastAppHash = e.state.lastAppHash
  currentEpoch : e'.state.currentEpoch = e.state.currentEpoch
  lastVote1 : e'.state.lastVote1 = e.state.lastVote1
  lastVote2 : e'.state.lastVote2 = e.state.lastVote2
  store : e'.store = e.store
  voteCollector : e'.voteCollector = e.voteCollector
  wishes : e'.pacemaker.wishes = e.pacemaker.wishes
  currentViewQc : e'.currentViewQc = e.currentViewQc
  pendingEpoch : e'.pendingEpoch = e.pendingEpoch
  previousEpoch : e'.previousEpoch = e.previousEpoch
  evidenceStore : e'.evidenceStore = e.evidenceStore
  livenessTracker : e'.livenessTracker = e.livenessTracker
  pendingVoteExtensions : e'.state.pendingVoteExtensions = e.state.pendingVoteExtensions
  todo : e'.todo = e.todo
  trace : ∃ effects, e'.trace = e.trace ++ effects ∧ ∀ x ∈ effects, x.quiet = true

/-- What is known of the messages a step reads, beyond the code's own checks:
the signatures in them, the views their proposals may move the node to with
which certificates, whether a proposal may carry a double certificate for its own
block, and the proofs that are gossiped; the keys under which the step checks
certificates and counts votes; the blocks of other views whose proposals it may
resume; and the double certificates and extensions it may hold when it asks for a
payload. -/
structure Allowance where
  auth : Signature → Prop
  jump : ℕ → QuorumCertificate → DoubleCertificate → Prop
  unlogged : Prop
  gossip : EquivocationProof → Prop := fun _ => True
  keys : Keyring → Prop := fun _ => True
  resumed : Block → Prop := fun _ => True
  payload : Option DoubleCertificate → List (ℕ × Bytes) → Prop := fun _ _ => True

/-- Nothing is known. -/
def Allowance.all : Allowance where
  auth := fun _ => True
  jump := fun _ _ _ => True
  unlogged := True

/-- Certificates are checked and votes counted under the given keys; nothing else is
known. -/
def Allowance.under (k : Keyring) : Allowance := { Allowance.all with keys := fun k' => k' = k }

/-- The signatures inside a certificate. -/
def Certificate.signatures : Certificate → List Signature
  | .qc _ cert => cert.signatures
  | .dc cert => cert.innerQc.signatures ++ cert.outerQc.signatures
  | .tc cert => cert.aggregateSignature.signatures
      ++ cert.highestQcs.flatMap fun qc => qc.toList.flatMap (·.signatures)

/-- A proposal whose double certificate is not for its own block, unless that is
allowed. -/
def Allowance.Logged (A : Allowance) (block : Block) (dc : Option DoubleCertificate) : Prop :=
  A.unlogged ∨ ∀ cert, dc = some cert → cert.innerQc.blockHash ≠ block.hash

/-- The engine proposes next, or it leads the view and waits for the statuses that make it
propose. -/
def Engine.AboutToPropose (e : Engine σ) : Prop :=
  (∃ todo, e.todo = .tryPropose :: todo)
    ∨ (e.state.isLeader = true ∧ e.state.step = .waitingForStatus)

/-- What is known of the engine a step starts from: its keys, the proposal it
resumes, which is one of the current view unless another is allowed, and the double
certificate and the extensions it holds when it may propose. -/
structure Allowance.Holds (A : Allowance) (e : Engine σ) : Prop where
  keys : A.keys e.keyring
  resumed : ∀ block justify dc todo, e.todo = .resumeProposal block justify dc :: todo →
    block.view = e.state.currentView ∨ A.resumed block
  payload : e.AboutToPropose → A.payload e.state.highestDoubleCert e.state.pendingVoteExtensions

/-- A continuation whose certificates were checked before it was left. -/
def TaskOk (A : Allowance) (trace : List Effect) : Task → Prop
  | .tryPropose => True
  | .resumeProposal block justify dc =>
    verified (.qc .vote justify) ∈ trace
      ∧ (∀ cert, dc = some cert → verified (.dc cert) ∈ trace) ∧ A.Logged block dc

/-- All continuations are in order. -/
def TodoOk (A : Allowance) (e : Engine σ) : Prop := ∀ task ∈ e.todo, TaskOk A e.trace task

/-- A block this node may vote for: hashed right, on a stored parent that is not
younger and that the justify certificate certifies, and stored itself.  The parent was looked up
before the block was stored, so a block with its parent's hash has replaced it. -/
structure Votable (c : Crypto) (e : Engine σ) (block : Block) (justify : QuorumCertificate) :
    Prop where
  hash : block.hash = c.computeHash block
  parentHash : block.parentHash = justify.blockHash
  height : 0 < block.height
  parent : block.parentHash ≠ block.hash → ∃ parent,
    e.store.getBlock block.parentHash = some parent ∧ block.height = parent.height + 1
      ∧ parent.timestamp ≤ block.timestamp
  stored : e.store.getBlock block.hash = some block

/-- The block of a vote is one of the current view, or of a proposal that was resumed
in another view and comes from the leader of its own. -/
def VotableView (A : Allowance) (e : Engine σ) (block : Block) : Prop :=
  block.view = e.state.currentView
    ∨ (A.resumed block ∧ ∃ leader, e.state.validatorSet.leaderForView block.view = some leader
      ∧ block.proposer = leader.id)

/-- The wish of the node itself at a timeout. -/
def Engine.ownWish (d : Deps σ) (e : Engine σ) : WishRecord where
  validator := e.state.validatorId
  highestQc := e.state.highestQc
  signature := d.sign (d.crypto.wishPayload e.state.chainIdHash e.state.currentEpoch.number
    (e.state.currentView + 1) e.state.highestQc)

/-- A wish the node records: its own, at a timeout, or one that passes the checks of
`verify_message` and of the wish branch. -/
inductive AcceptedWish (d : Deps σ) (e : Engine σ) : ℕ → WishRecord → Prop
  | own (hpower : 0 < e.state.ownPower) :
      AcceptedWish d e (e.state.currentView + 1) (e.ownWish d)
  | received {targetView : ℕ} {w : WishRecord} (hlow : e.state.currentView ≤ targetView)
      (hhigh : targetView ≤ e.state.currentView + 1)
      (hsigned : e.keyring.verifyCurrent d.crypto
        (.wish targetView w.validator w.highestQc w.signature) = true)
      (hqc : ∀ qc, w.highestQc = some qc → e.keyring.verifyJustifyQc d.crypto qc = true) :
      AcceptedWish d e targetView w

/-- Why a new view is entered. -/
inductive EntryReason (A : Allowance) (e : Engine σ) (view : ℕ) : ViewEntryTrigger → Prop
  /-- A double certificate of the current view was formed. -/
  | formedDc {dc : DoubleCertificate} (hdc : formed (.dc dc) ∈ e.trace)
      (hview : view = e.state.currentView + 1)
      (houter : dc.outerQc.view = e.state.currentView) : EntryReason A e view (.doubleCert dc)
  /-- A proposal of a higher view came with a valid double certificate. -/
  | jump {dc : DoubleCertificate} {justify : QuorumCertificate}
      (hdc : verified (.dc dc) ∈ e.trace)
      (hjustify : verified (.qc .vote justify) ∈ e.trace)
      (hjump : A.jump view justify dc) : EntryReason A e view (.doubleCert dc)
  /-- A timeout certificate was checked or formed. -/
  | timeout {tc : TimeoutCertificate} (htc : KnownTc e.trace tc)
      (hview : view = tc.view + 1) : EntryReason A e view (.timeoutCert tc)

/-- The double certificate that a view change brings. -/
def ViewEntryTrigger.newDc : ViewEntryTrigger → Option DoubleCertificate
  | .doubleCert dc => some dc
  | _ => none

/-- The part of `advance_view_to` that changes the epoch and the view.  A double
certificate is remembered there only: wherever else the source stores one, the view
change that follows stores it again. -/
def Engine.moveTo (d : Deps σ) (view : ℕ) (trigger : ViewEntryTrigger) (e : Engine σ) :
    Engine σ :=
  let e := (e.clearForView trigger).startEpoch d view
  e.mapState fun st => { st with
    currentView := view
    step := .entered
    role := if isLeaderOf e.state.validatorSet view e.state.validatorId then .leader else .replica
    highestDoubleCert := trigger.newDc.or st.highestDoubleCert }

/-- The phase after `try_commit`. -/
def phaseAfter : CommitOutcome → Phase
  | .ok result => if result.committedBlocks.isEmpty then .idle else .executed result
  | .err _ => .idle
  | .panic => .dead

lemma Phase.idle_ne_dead : Phase.idle ≠ .dead := by
  intro h
  cases h

lemma phaseAfter_ok_ne_dead (result : CommitResult) : phaseAfter (.ok result) ≠ .dead := by
  intro h
  rw [phaseAfter] at h
  split_ifs at h

/-- The stores written when a commit result is processed. -/
def Engine.settle (result : CommitResult) (e : Engine σ) : Engine σ :=
  ((result.committedBlocks.zipIdx.map fun p => (p.1, result.blockResponses[p.2]?)).foldl
    (Engine.storeCommitted result.commitQc) (e.adoptCommitEpoch result))

/-- The last log entry is an intent for the given height. -/
def IntentLogged (trace : List Effect) (height : ℕ) : Prop :=
  (Disk.after trace).wal.getLast? = some (.commitIntent height)

/-- A second-phase vote that the node counts is its own, or its extension was accepted. -/
def ExtensionOk (e : Engine σ) (vote : Vote) : Prop :=
  vote.voteType = .vote2 → ∀ ext, vote.extension = some ext → vote.validator = e.state.validatorId
      ∨ app (.verifyVoteExtension ext vote.blockHash vote.validator true) ∈ e.trace

/-- A commit is counted for liveness. -/
def Engine.recorded (result : CommitResult) (e : Engine σ) : Engine σ :=
  { e with
    livenessTracker := e.livenessTracker.recordCommit e.state.validatorSet
      result.commitQc.aggregateSignature.signers }

/-- The acts of an engine. -/
inductive Act (d : Deps σ) (A : Allowance) : Flow σ → Flow σ → Prop
  | quiet {e e' : Engine σ} {φ : Phase} (h : Quiet e e') : Act d A ⟨e, φ⟩ ⟨e', φ⟩
  | verified {e : Engine σ} (cert : Certificate)
      (h : e.keyring.checks d.crypto cert = true)
      (hauth : (∀ sig ∈ cert.signatures, A.auth sig) ∨ verified cert ∈ e.trace)
      (hkeys : A.keys e.keyring) :
      Act d A ⟨e, .idle⟩ ⟨e.emit (.verified cert), .idle⟩
  | collect {e : Engine σ} (vote : Vote) (hview : vote.view = e.state.currentView)
      (hepoch : vote.epoch = e.state.currentEpoch.number)
      (hvote : (e.keyring.verifyVote d.crypto vote = true ∧ A.auth vote.signature)
        ∨ SignedVote e.trace vote) (hkeys : A.keys e.keyring) (hext : ExtensionOk e vote) :
      Act d A ⟨e, .idle⟩ ⟨(e.collectVote d vote).2, .idle⟩
  | wish {e : Engine σ} (targetView validator : ℕ) (highestQc : Option QuorumCertificate)
      (signature : Signature) (hlow : e.state.currentView ≤ targetView)
      (hhigh : targetView ≤ e.state.currentView + 1)
      (hqc : highestQc = e.state.highestQc ∨ ∀ qc, highestQc = some qc →
        verified (.qc .vote qc) ∈ e.trace)
      (hwish : AcceptedWish d e targetView ⟨validator, highestQc, signature⟩) :
      Act d A ⟨e, .idle⟩ ⟨(e.addWish targetView validator highestQc signature).2, .idle⟩
  | viewQc {e : Engine σ} (qc : Option QuorumCertificate)
      (h : ∀ q, qc = some q → formed (.qc .vote q) ∈ e.trace) :
      Act d A ⟨e, .idle⟩ ⟨{ e with currentViewQc := qc }, .idle⟩
  | formDc {e : Engine σ} (dc : DoubleCertificate)
      (hinner : e.innerQcFor dc.outerQc = some dc.innerQc)
      (houter : formed (.qc .vote2 dc.outerQc) ∈ e.trace)
      (hview : dc.outerQc.view = e.state.currentView)
      (hyields : e.voteCollector.Yields e.state.validatorSet e.state.currentEpoch.number .vote2
        dc.outerQc dc.voteExtensions) :
      Act d A ⟨e, .idle⟩ ⟨{ e with currentViewQc := none }.emit (.formed (.dc dc)), .idle⟩
  | raise {e : Engine σ} (qc : QuorumCertificate) (h : KnownQc e.trace qc) :
      Act d A ⟨e, .idle⟩ ⟨e.mapState (·.updateHighestQc qc), .idle⟩
  | lock {e : Engine σ} (qc : QuorumCertificate) (hqc : KnownQc e.trace qc)
      (hview : qc.view = e.state.currentView) :
      Act d A ⟨e, .idle⟩ ⟨e.mapState fun st => (st.updateLockedQc qc).updateHighestQc qc, .idle⟩
  | vote1 {e e' : Engine σ} {φ : Phase} {vote : Vote} (block : Block)
      (justify : QuorumCertificate) (hsign : e.signVote1 d block justify = (some vote, e'))
      (hblock : Votable d.crypto e block justify) (hview : VotableView A e block)
      (hjustify : e.state.highestQc = some justify ∨ (verified (.qc .vote justify) ∈ e.trace
          ∧ lockedOut e.state.lockedQc justify = false))
      (hroot : d.app.tracksAppHash e.app = true → block.appHash = e.state.lastAppHash)
      (hphase : φ ≠ .dead) : Act d A ⟨e, φ⟩ ⟨e', φ⟩
  | release1 {e : Engine σ} {φ : Phase} (vote : Vote) (effect : Effect)
      (heffect : effect = .countVote vote ∨ ∃ leader, effect = .sendTo leader (.voteMsg vote))
      (hsigned : ∃ block justify locked, signVote1 vote block justify locked ∈ e.trace)
      (htype : vote.voteType = .vote)
      (hslot : e.state.lastVote1 = some (vote.view, vote.blockHash)) :
      Act d A ⟨e, φ⟩ ⟨e.emit effect, φ⟩
  | vote2 {e e' : Engine σ} {vote : Vote} (qc : QuorumCertificate) (extension : Option Bytes)
      (hsign : e.signVote2 d qc extension = (some vote, e')) (hqc : KnownQc e.trace qc)
      (hview : qc.view = e.state.currentView)
      (hlock : ∃ locked, e.state.lockedQc = some locked ∧ qc.view ≤ locked.view) :
      Act d A ⟨e, .idle⟩ ⟨e', .idle⟩
  | release2 {e : Engine σ} (vote : Vote) (effect : Effect)
      (heffect : effect = .countVote vote ∨ ∃ leader, effect = .sendTo leader (.vote2Msg vote))
      (hsigned : ∃ qc, signVote2 vote qc ∈ e.trace) (htype : vote.voteType = .vote2)
      (hslot : e.state.lastVote2 = some (vote.view, vote.blockHash))
      (hlock : ∃ locked, e.state.lockedQc = some locked ∧ vote.view ≤ locked.view) :
      Act d A ⟨e, .idle⟩ ⟨(e.persistState d).emit effect, .idle⟩
  | persist {e : Engine σ} : Act d A ⟨e, .idle⟩ ⟨e.persistState d, .idle⟩
  | putBlock {e : Engine σ} (block : Block) (hhash : block.hash = d.crypto.computeHash block) :
      Act d A ⟨e, .idle⟩ ⟨e.putBlock block, .idle⟩
  | payload {e : Engine σ} (env : Env) (parent : Block)
      (hpayload : A.payload e.state.highestDoubleCert e.state.pendingVoteExtensions) :
      Act d A ⟨e, .idle⟩ ⟨(e.createPayload d env parent).2, .idle⟩
  | proposal {e : Engine σ} (block : Block) (justify : QuorumCertificate)
      (hblock : e.store.getBlock block.hash = some block)
      (hview : block.view = e.state.currentView) :
      Act d A ⟨e, .idle⟩ ⟨e.emit (.sign (proposalPayload e.state.chainIdHash
        e.state.currentEpoch.number block justify)), .idle⟩
  | putJustify {e : Engine σ} (justified : Block) (qc : QuorumCertificate)
      (hqc : verified (.qc .vote qc) ∈ e.trace)
      (hblock : e.store.getBlock qc.blockHash = some justified)
      (hnone : e.store.getCommitQc justified.height = none) :
      Act d A ⟨e, .idle⟩ ⟨e.putCommitQc justified.height qc, .idle⟩
  | intent {e : Engine σ} (height : ℕ) :
      Act d A ⟨e, .idle⟩ ⟨e.emit (.walWrite (.commitIntent height)), .idle⟩
  | commit {e : Engine σ} (dc : DoubleCertificate) (hdc : KnownDc e.trace dc)
      (hlogged : d.hasWal = true → A.unlogged
        ∨ ∀ target, e.store.getBlock dc.innerQc.blockHash = some target →
          IntentLogged e.trace target.height) :
      Act d A ⟨e, .idle⟩ ⟨(e.runTryCommit d dc).2, phaseAfter (e.runTryCommit d dc).1⟩
  | settle {e : Engine σ} (result : CommitResult) :
      Act d A ⟨e, .executed result⟩ ⟨e.settle result, .adopted result⟩
  | mark {e : Engine σ} (result : CommitResult) : Act d A ⟨e, .adopted result⟩
      ⟨e.markEvidence d result.committedBlocks, .adopted result⟩
  | saved {e : Engine σ} (env : Env) (result : CommitResult) : Act d A ⟨e, .adopted result⟩
      ⟨((e.recorded result).persistState d).finishWalIntent d env e.state.lastCommittedHeight,
        .idle⟩
  | unlog {e : Engine σ} (env : Env) (height : ℕ) :
      Act d A ⟨e, .idle⟩ ⟨e.finishWalIntent d env height, .idle⟩
  | move {e : Engine σ} (view : ℕ) (trigger : ViewEntryTrigger)
      (hlt : e.state.currentView < view) (hreason : EntryReason A e view trigger) :
      Act d A ⟨e, .idle⟩ ⟨e.moveTo d view trigger, .idle⟩
  | gossip {e : Engine σ} (proof : EquivocationProof) (hproof : A.gossip proof) :
      Act d A ⟨e, .idle⟩ ⟨e.handleEvidence d proof, .idle⟩
  | push {e : Engine σ} (task : Task) (htask : TaskOk A e.trace task) :
      Act d A ⟨e, .idle⟩ ⟨e.push task, .idle⟩
  | pop {e : Engine σ} (task : Task) (todo : List Task) (h : e.todo = task :: todo) :
      Act d A ⟨e, .idle⟩ ⟨{ e with todo }, .idle⟩

/-- Sequences of acts. -/
abbrev Acts (d : Deps σ) (A : Allowance) : Flow σ → Flow σ → Prop :=
  Relation.ReflTransGen (Act d A)

/-- The engine gets from `e` to `e'` by acts, outside of any commit unless it
stopped on the way. -/
def Reach (d : Deps σ) (A : Allowance) (e e' : Engine σ) : Prop :=
  Acts d A ⟨e, .idle⟩ ⟨e', .idle⟩ ∨ (e'.halted = true ∧ ∃ φ, Acts d A ⟨e, .idle⟩ ⟨e', φ⟩)

end Hotmint
