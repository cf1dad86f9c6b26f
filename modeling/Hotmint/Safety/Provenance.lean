/-
Where the certificates of a node come from.

* `Held`: the keys a node has held in the course of a run;
* `Run.validatorSet_unique`: **two held keyrings that know an epoch know the same set
  for it**;
* `Sourced`, `certificates_sourced`: **every certificate a node holds is the canonical
  genesis one, or carries verified signatures** of the right type with quorum power in
  the set of the epoch it names;
* `dispatch_past`, `handleMessage_of_rejected`: **a message whose signatures do not
  verify has no effect**, although messages of past views are not checked.
-/
import Hotmint.Proof.Aggregates
import Hotmint.Safety.Evidence

namespace Hotmint

open Sample Engine List Option
variable {σ : Type} {d : Deps σ} {A : Allowance}
variable {e : Engine σ} {x y : Flow σ} {vs vs' : ValidatorSet} {epoch : ℕ}
variable {e' : Engine σ} {evidence : EvidenceStore} {cfg : NodeConfig} {app : σ}

/-! ### Sets of epochs -/

/-- An act that makes an epoch known either knew it before, or the epoch is newer than
the current one. -/
lemma Act.validatorSetForEpoch (h : Act d A x y) (hx : EpochInv x)
    (hvs : y.engine.keyring.validatorSetForEpoch epoch = some vs) :
    x.engine.keyring.validatorSetForEpoch epoch = some vs
      ∨ x.engine.state.currentEpoch.number < epoch := by
  -- an epoch that starts is numbered above the current one, which stays known
  have hstarted : ∀ started : Epoch, x.engine.state.currentEpoch.number < started.number →
      y.engine.state.validatorSet = started.validatorSet →
      y.engine.state.currentEpoch = started →
      y.engine.previousEpoch = some x.engine.state.currentEpoch →
      x.engine.keyring.validatorSetForEpoch epoch = some vs
        ∨ x.engine.state.currentEpoch.number < epoch := by
    intro started hlt hset hcur hprev
    have hunfold : (if epoch = y.engine.state.currentEpoch.number then
        some y.engine.state.validatorSet else if x.engine.state.currentEpoch.number = epoch then
          some x.engine.state.currentEpoch.validatorSet else none) = some vs := by
      simpa [Keyring.validatorSetForEpoch, keyring, hprev] using hvs
    split_ifs at hunfold with hnew hold
    · exact .inr (by rw [hnew, hcur]; exact hlt)
    · refine .inl ?_
      rw [← some.inj hunfold, ← hx.validatorSet]
      exact if_pos hold.symm
  rcases h.epochs with ⟨hset, hcur, -, hprev⟩ | ⟨result, hphase, hset, hcur, -, hprev⟩
    | ⟨started, hpending, -, hset, hcur, -, hprev⟩
  · refine .inl ?_
    unfold Keyring.validatorSetForEpoch keyring at hvs ⊢
    rw [hset, hcur, hprev] at hvs
    exact hvs
  · cases hactivated : result.activatedEpoch with
    | none =>
      rw [hactivated] at hset hcur hprev
      refine .inl ?_
      unfold Keyring.validatorSetForEpoch keyring at hvs ⊢
      rw [hset, hcur, hprev] at hvs
      exact hvs
    | some activated =>
      rw [hactivated] at hset hcur hprev
      exact hstarted activated ((hx.executed result hphase).activated activated hactivated)
        hset hcur hprev
  · exact hstarted started (hx.pending started hpending) hset hcur hprev

/-- The epoch before the current one has no higher number. -/
def PreviousLe (e : Engine σ) : Prop :=
  ∀ previous, e.previousEpoch = some previous → previous.number ≤ e.state.currentEpoch.number

lemma Act.previousLe (h : Act d A x y) (hepoch : EpochInv x)
    (hx : PreviousLe x.engine) : PreviousLe y.engine := by
  intro previous hprevious
  have hmono := (h.epoch_mono hepoch).1
  rcases h.epochs with ⟨-, -, -, hprev⟩ | ⟨result, -, -, -, -, hprev⟩ | ⟨_, -, -, -, -, -, hprev⟩
  · exact (hx previous (hprev ▸ hprevious)).trans hmono
  · cases hactivated : result.activatedEpoch with
    | none =>
      rw [hactivated, map_none, getD_none] at hprev
      exact (hx previous (hprev ▸ hprevious)).trans hmono
    | some activated =>
      rw [hactivated] at hprev
      rwa [← some.inj (hprev.symm.trans hprevious)]
  · rwa [← some.inj (hprev.symm.trans hprevious)]

/-- A known epoch has been reached. -/
lemma PreviousLe.reached (h : PreviousLe e) (hvs : e.keyring.validatorSetForEpoch epoch = some vs) :
    epoch ≤ e.state.currentEpoch.number := by
  unfold Keyring.validatorSetForEpoch at hvs
  split_ifs at hvs with hcur
  · exact hcur.le
  · split at hvs
    · next previous hprevious =>
        split_ifs at hvs with hnumber
        exact hnumber ▸ h previous hprevious
    · cases hvs

/-- What a later state says about an epoch agrees with the given set. -/
structure Agrees (epoch : ℕ) (vs : ValidatorSet) (x : Flow σ) : Prop where
  epochInv : EpochInv x
  reached : epoch ≤ x.engine.state.currentEpoch.number
  agrees : ∀ vs', x.engine.keyring.validatorSetForEpoch epoch = some vs' → vs' = vs

lemma Act.agrees (h : Act d A x y) (hx : Agrees epoch vs x) : Agrees epoch vs y where
  epochInv := h.epochInv hx.epochInv
  reached := hx.reached.trans (h.epoch_mono hx.epochInv).1
  agrees vs' hvs' := by
    rcases h.validatorSetForEpoch hx.epochInv hvs' with hold | hlt
    · exact hx.agrees vs' hold
    · exact absurd hlt hx.reached.not_gt

/-! ### The keys of a run -/

/-- The states of a run from `e₀`, the latest first. -/
inductive Path (d : Deps σ) (P : Engine σ → Label → Prop) (e₀ : Engine σ) : List (Engine σ) → Prop
  | start : Path d P e₀ [e₀]
  | step {e : Engine σ} {states : List (Engine σ)} {label : Label} (h : Path d P e₀ (e :: states))
      (henabled : e.enabled label = true) (hP : P e label) :
      Path d P e₀ (e.apply d label :: e :: states)

variable {P : Engine σ → Label → Prop} {e₀ e : Engine σ} {states : List (Engine σ)}

/-- A run passes through each of its states. -/
lemma Path.through (h : Path d P e₀ (e :: states)) (hmem : e' ∈ e :: states) :
    RunWhere d P e₀ e' ∧ RunWhere d P e' e := by
  generalize heq : e :: states = all at h hmem
  induction h generalizing e e' states with
  | start =>
    obtain ⟨rfl, rfl⟩ := cons.inj heq
    rw [mem_singleton.mp hmem]
    exact ⟨.refl, .refl⟩
  | step _ henabled hP ih =>
    obtain ⟨rfl, rfl⟩ := cons.inj heq
    rcases mem_cons.mp hmem with rfl | hmem
    · exact ⟨(ih rfl mem_cons_self).1.tail (.step henabled hP), .refl⟩
    · obtain ⟨hbefore, hafter⟩ := ih rfl hmem
      exact ⟨hbefore, hafter.tail (.step henabled hP)⟩

/-- The epochs are in order in every state of a run from a fresh start. -/
lemma RunWhere.epochs_ordered (hrun : RunWhere d P (cfg.launch d [] app evidence) e) :
    Settled (fun x => TodoOk .all x.engine ∧ EpochInv x ∧ PreviousLe x.engine) e := by
  have hfresh := fresh_launch d cfg app evidence
  refine hrun.keeps (fun x y hxy hx => ⟨hxy.epochInv hx.1, hxy.previousLe hx.1 hx.2⟩)
    hfresh.todoOk ⟨(EpochInv.launch .nil).1, fun previous hprevious => ?_⟩
  rw [hfresh.previousEpoch] at hprevious
  cases hprevious

/-- From a state that knows an epoch, every later state agrees with it. -/
lemma RunWhere.agrees (hrun : RunWhere d P e e')
    (he : Settled (fun x => TodoOk .all x.engine ∧ EpochInv x ∧ PreviousLe x.engine) e)
    (hvs : e.keyring.validatorSetForEpoch epoch = some vs)
    (hvs' : e'.keyring.validatorSetForEpoch epoch = some vs') : vs' = vs := by
  rcases hrun.cases_head with rfl | ⟨e₁, hstep, -⟩
  · exact some.inj (hvs'.symm.trans hvs)
  -- the first state is outside of commits, since a step is enabled in it
  obtain ⟨htodo, hepoch, hprevious⟩ : TodoOk .all e ∧ EpochInv ⟨e, .idle⟩ ∧ PreviousLe e := by
    cases hstep with
    | step henabled _ => exact he.idle henabled
  have hagrees : Agrees epoch vs ⟨e, .idle⟩ :=
    ⟨hepoch, hprevious.reached hvs, fun vs' hvs' => some.inj (hvs'.symm.trans hvs)⟩
  obtain ⟨φ, -, -, hend⟩ := hrun.keeps (fun x y hxy hx => hxy.agrees hx) htodo hagrees
  exact hend.agrees vs' hvs'

/-- **All states of a run that know an epoch know the same set for it.** -/
lemma Path.validatorSet_unique
    (h : Path d P (cfg.launch d [] app evidence) states) (he : e ∈ states)
    (he' : e' ∈ states) (hvs : e.keyring.validatorSetForEpoch epoch = some vs)
    (hvs' : e'.keyring.validatorSetForEpoch epoch = some vs') : vs = vs' := by
  induction h with
  | start =>
    rw [mem_singleton.mp he] at hvs
    rw [mem_singleton.mp he'] at hvs'
    exact some.inj (hvs.symm.trans hvs')
  | @step e₁ states label hpath henabled hP ih =>
    -- each state of the run leads to its last one
    have hlast : ∀ e₂ ∈ e₁.apply d label :: e₁ :: states, RunWhere d P e₂ (e₁.apply d label)
          ∧ Settled (fun x => TodoOk .all x.engine ∧ EpochInv x ∧ PreviousLe x.engine) e₂ :=
      fun e₂ hmem =>
        have hthrough := (hpath.step henabled hP).through hmem
        ⟨hthrough.2, hthrough.1.epochs_ordered⟩
    rcases mem_cons.mp he with rfl | hmem
    · exact (hlast e' he').1.agrees (hlast e' he').2 hvs' hvs
    rcases mem_cons.mp he' with rfl | hmem'
    · exact ((hlast e he).1.agrees (hlast e he).2 hvs hvs').symm
    · exact ih hmem hmem'

/-! ### The certificates -/

/-- A collected vote of the current epoch verifies. -/
lemma Counted.verify {key : VoteKey} {vote : Vote} (h : Counted d e key vote)
    (hcurrent : key.1 = e.state.currentEpoch.number) (hsigner : SignerListed d e)
    {vi : ValidatorInfo} (hvi : e.state.currentEpoch.validatorSet.get vote.validator = some vi) :
    d.crypto.verify vi.publicKey (d.crypto.payloadOfVote e.state.chainIdHash vote) vote.signature
      = true := by
  have hepoch : vote.epoch = e.state.currentEpoch.number := by
    rw [h.key_eq] at hcurrent
    exact hcurrent
  obtain ⟨vi', hvi', hsigned⟩ := h.signed hepoch
  obtain rfl := some.inj (hvi'.symm.trans hvi)
  exact hsigned.verify (fun _ => hsigner) hvi

/-- A certificate formed from collected votes passes `verify_vote_aggregate` with their
extensions. -/
lemma CollectInv.verifies_formed (h : CollectInv d x) (hepoch : EpochInv x)
    (hsigner : SignerListed d x.engine) {vote : Vote} {agg : AggregateSignature}
    (hvote : (x.engine.keyring.verifyVote d.crypto vote = true ∧ A.auth vote.signature)
      ∨ SignedVote x.engine.trace vote) (hcurrent : vote.epoch = x.engine.state.currentEpoch.number)
    (hextension : vote.voteType = .vote → vote.extension = none)
    (hagg : aggregateVotes x.engine.state.validatorSet (x.engine.voteCollector.bucket
      (x.engine.state.currentEpoch.number, vote.view, vote.blockHash, vote.voteType) ++ [vote])
      = some agg) (hquorum : hasQuorum x.engine.state.validatorSet agg = true) :
    x.engine.keyring.verifyVoteAggregate d.crypto x.engine.state.validatorSet
      x.engine.state.currentEpoch.number vote.view vote.blockHash vote.voteType agg
      (VoteCollector.collectExtensions (x.engine.voteCollector.bucket
        (x.engine.state.currentEpoch.number, vote.view, vote.blockHash, vote.voteType) ++ [vote]))
      = true := by
  refine verifyVoteAggregate_collected hagg hquorum (fun v hv => ?_) (fun v hv => ?_)
    fun v hv vi hvi => ?_
  · rcases mem_append.mp hv with hv | hv
    · exact (h.counted _ v hv).key_eq
    · rw [mem_singleton.mp hv, hcurrent]
  · rcases mem_append.mp hv with hv | hv
    · exact (h.counted _ v hv).extension
    · rw [mem_singleton.mp hv]
      exact hextension
  · rw [hepoch.validatorSet] at hvi
    rcases mem_append.mp hv with hv | hv
    · exact (h.counted _ v hv).verify rfl hsigner hvi
    · rw [mem_singleton.mp hv] at hvi ⊢
      exact (h.signed hepoch hcurrent hvote hvi).verify (fun _ => hsigner) hvi

/-- A certificate of votes that some state of the run has accepted. -/
def Genuine (d : Deps σ) (states : List (Engine σ)) (t : VoteType) (qc : QuorumCertificate) :
    Prop :=
  ∃ e ∈ states, e.keyring.Accepts d.crypto t qc

/-- **One step keeps the certificates genuine.** -/
lemma Act.genuine (hmem : e ∈ states) (hlisted : SignerListed d e)
    (h : Act d (.under e.keyring) x y) (hepoch : EpochInv x)
    (hcollect : CollectInv d x) (hid : x.engine.state.validatorId = e.state.validatorId)
    (hset : e.state.validatorSet = e.state.currentEpoch.validatorSet)
    (hx : Holdings (Genuine d states) x.engine) : Holdings (Genuine d states) y.engine := by
  refine h.holdings (fun cert hcert => .inr ?_) (fun t qc hqc => ?_) hx
  · cases hcert with
    | verified _ hcheck _ hkeys =>
      rw [show x.engine.keyring = e.keyring from hkeys] at hcheck
      exact (certWhere_of_checks hcheck).mono fun t qc haccepts => ⟨e, hmem, haccepts.1⟩
  · cases hqc with
    | formedQc vote _ agg hvote hcurrent hextension hagg hquorum hqceq hkeys =>
      have hkeyring : x.engine.keyring = e.keyring := hkeys
      have hsigner : SignerListed d x.engine := by
        have hsame : x.engine.state.currentEpoch.validatorSet
            = e.state.currentEpoch.validatorSet := by
          rw [← hset, ← hepoch.validatorSet]
          exact congrArg Keyring.validatorSet hkeyring
        unfold SignerListed
        rw [hsame, hid]
        exact hlisted
      subst hqceq
      refine ⟨e, hmem, ?_⟩
      rw [← hkeyring]
      exact .inr ⟨_, _, if_pos rfl, hcollect.verifies_formed hepoch hsigner hvote hcurrent
        hextension hagg hquorum⟩

/-- **The certificates a node holds are genuine** in every state of a run. -/
lemma Path.holdings
    (h : Path d (fun e _ => SignerListed d e) (cfg.launch d [] app evidence) (e :: states)) :
    Settled (fun x => TodoOk .all x.engine ∧ EpochInv x ∧ CollectInv d x
      ∧ Holdings (Genuine d (e :: states)) x.engine) e := by
  generalize heq : e :: states = all at h
  induction h generalizing e states with
  | start =>
    obtain ⟨rfl, rfl⟩ := cons.inj heq
    have hfresh := fresh_launch d cfg app evidence
    refine ⟨.idle, .inl rfl, fun task htask => ?_, (EpochInv.launch .nil).1,
      CollectInv.launch fun vote hsigned => ?_, hfresh.holdings fun qc hqc => ?_⟩
    · rw [hfresh.todo task htask]
      trivial
    · rcases hsigned with ⟨_, _, _, hmem⟩ | ⟨_, hmem⟩ <;> cases hmem
    · exact ⟨_, mem_singleton_self _, .inl ⟨rfl, isGenesisQc_launch d cfg app evidence hqc⟩⟩
  | @step e₁ states₁ label hpath henabled hlisted ih =>
    obtain ⟨rfl, rfl⟩ := cons.inj heq
    have hbefore := ih rfl
    have hmem : e₁ ∈ e₁.apply d label :: e₁ :: states₁ :=
      .tail _ mem_cons_self
    have hgenuine : ∀ t qc, Genuine d (e₁ :: states₁) t qc →
        Genuine d (e₁.apply d label :: e₁ :: states₁) t qc :=
      fun t qc ⟨e, he, haccepts⟩ => ⟨e, .tail _ he, haccepts⟩
    obtain ⟨htodo, hepoch, hcollect, hholdings⟩ := hbefore.idle henabled
    have hstart : Settled (fun x => TodoOk (.under e₁.keyring) x.engine
          ∧ EpochInv x ∧ CollectInv d x ∧ x.engine.state.validatorId = e₁.state.validatorId
          ∧ Holdings (Genuine d (e₁.apply d label :: e₁ :: states₁)) x.engine) e₁ :=
      ⟨.idle, .inl rfl, htodo.weaken fun h => h, hepoch, hcollect, rfl, hholdings.mono hgenuine⟩
    obtain ⟨φ, hφ, htodo', hepoch', hcollect', -, hholdings'⟩ :=
      Settled.step (A := .under e₁.keyring)
        (fun x y _ hxy hx => ⟨hxy.epochInv hx.1, hxy.collectInv hx.1 hx.2.1,
        hxy.validatorId.trans hx.2.2.1,
        hxy.genuine hmem hlisted hx.1 hx.2.1 hx.2.2.1 hepoch.validatorSet hx.2.2.2⟩)
        henabled (labelOk_under _ label) (holds_under _) hstart
    exact ⟨φ, hφ, htodo'.weaken fun h => h, hepoch', hcollect', hholdings'⟩

/-- The certificates in the five places of the state are good ones. -/
structure Sourced (good : VoteType → QuorumCertificate → Prop) (e : Engine σ) : Prop where
  highestQc : ∀ qc, e.state.highestQc = some qc → good .vote qc
  lockedQc : ∀ qc, e.state.lockedQc = some qc → good .vote qc
  currentViewQc : ∀ qc, e.currentViewQc = some qc → good .vote qc
  highestDoubleCert : ∀ dc, e.state.highestDoubleCert = some dc →
    good .vote dc.innerQc ∧ good .vote2 dc.outerQc

/-- **Every certificate a node holds is the canonical genesis one, or carries verified
signatures** of the right type with quorum power in the set of the epoch it names, under
the keys of a state of the run so far; and all states of the run agree on the set of an
epoch.  The node's own votes are not checked, so its key has to be the listed one. -/
theorem certificates_sourced (d : Deps σ) (cfg : NodeConfig) (app : σ) (evidence : EvidenceStore)
    {e : Engine σ} {states : List (Engine σ)}
    (hpath : Path d (fun e _ => SignerListed d e) (cfg.launch d [] app evidence) (e :: states)) :
    Sourced (Genuine d (e :: states)) e ∧ ∀ e₁ ∈ e :: states, ∀ e₂ ∈ e :: states, ∀ epoch vs₁ vs₂,
        e₁.keyring.validatorSetForEpoch epoch = some vs₁ →
        e₂.keyring.validatorSetForEpoch epoch = some vs₂ → vs₁ = vs₂ := by
  obtain ⟨φ, -, -, -, -, hholdings⟩ := hpath.holdings
  refine ⟨⟨hholdings.highestQc, hholdings.lockedQc, hholdings.currentViewQc, fun dc hdc => ?_⟩,
    fun e₁ h₁ e₂ h₂ epoch vs₁ vs₂ hvs₁ hvs₂ => hpath.validatorSet_unique h₁ h₂ hvs₁ hvs₂⟩
  obtain ⟨hinner, houter, -⟩ := hholdings.highestDoubleCert dc hdc
  exact ⟨hinner, houter⟩

/-- A node of quorum power that signs with its name, at the start. -/
def namedStart : Engine Unit :=
  ((solo fun _ => []).config only).launch (nameDeps 0 fun _ => []) [] () .empty

/-- The same node after its first proposal. -/
def namedProposal : Engine Unit :=
  namedStart.apply (nameDeps 0 fun _ => []) (.task env)

lemma signerListed_namedStart : SignerListed (nameDeps 0 fun _ => []) namedStart := by
  intro vi hvi payload
  have hkey : (namedStart.state.currentEpoch.validatorSet.get
      namedStart.state.validatorId).map (·.publicKey) = some (key 0) := by decide +kernel
  rw [hvi] at hkey
  have hlisted : vi.publicKey = key 0 := some.inj hkey
  rw [hlisted]
  rfl

/-- It has locked and committed its first block with certificates of its own votes. -/
theorem certificates_sourced_proposal : namedProposal.state.lockedQc.map (·.view) = some 1
      ∧ namedProposal.state.highestDoubleCert.map (·.outerQc.view) = some 1
      ∧ Sourced (Genuine (nameDeps 0 fun _ => []) [namedProposal, namedStart]) namedProposal :=
  ⟨by decide +kernel, by decide +kernel, (certificates_sourced _ _ _ _
    (.step .start (by decide +kernel) signerListed_namedStart)).1⟩

/-! ### Messages that are not authentic -/

namespace Engine

/-- **Every handler drops the messages of past views.** -/
lemma dispatch_past {env : Env} {msg : ConsensusMessage}
    (h : e.keyring.isPast msg = true) : e.dispatch d env msg = e := by
  cases msg with
  | propose | statusCert | evidence => cases h
  | voteMsg vote | vote2Msg vote =>
    have hlt : vote.view < e.state.currentView := of_decide_eq_true h
    exact if_neg fun hvote => hlt.ne hvote.1
  | prepare certificate signature =>
    have hlt : certificate.view < e.state.currentView := of_decide_eq_true h
    exact if_neg hlt.ne
  | wish targetView validator highestQc signature =>
    have hlt : targetView < e.state.currentView := of_decide_eq_true h
    exact if_neg fun hwish => hlt.not_ge hwish.1
  | timeoutCert tc =>
    -- neither relayed nor followed
    have hlt : tc.view + 1 < e.state.currentView := of_decide_eq_true h
    change handleTimeoutCert d tc e = e
    unfold handleTimeoutCert
    rw [if_neg hlt.not_ge]
    exact if_neg hlt.not_gt

/-- The rate limiter only counts the sender. -/
lemma rateLimit_eq (e : Engine σ) (env : Env) (sender : Option ℕ) :
    ∃ limiter, (e.rateLimit env sender).2 = { e with msgRateLimiter := limiter }
      ∧ ∀ id, sender ≠ some id → limiter.lookup id = e.msgRateLimiter.lookup id := by
  cases sender with
  | none => exact ⟨e.msgRateLimiter, rfl, fun _ _ => rfl⟩
  | some id =>
    unfold rateLimit
    dsimp only
    split_ifs
    · exact ⟨_, rfl, fun other hne =>
        AList.lookup_insert_ne fun heq => hne (congrArg some heq.symm)⟩
    · exact ⟨_, rfl, fun other hne =>
        AList.lookup_insert_ne fun heq => hne (congrArg some heq.symm)⟩

end Engine

/-- **A message that `verify_message` would reject without its shortcut for past views
has no effect**: nothing changes, the record of calls, sends and writes included, but the
rate counter of its sender. -/
theorem handleMessage_of_rejected (d : Deps σ) (env : Env) (e : Engine σ) (sender : Option ℕ)
    (msg : ConsensusMessage) (h : e.keyring.verifyCurrent d.crypto msg = false) :
    ∃ limiter, e.handleMessage d env sender msg = { e with msgRateLimiter := limiter }
      ∧ ∀ id, sender ≠ some id → limiter.lookup id = e.msgRateLimiter.lookup id := by
  obtain ⟨limiter, hlimit, hothers⟩ := e.rateLimit_eq env sender
  refine ⟨limiter, ?_, hothers⟩
  unfold handleMessage
  split
  · next e' heq =>
      rw [heq] at hlimit
      exact hlimit
  · next e' heq =>
      rw [heq] at hlimit
      obtain rfl : e' = { e with msgRateLimiter := limiter } := hlimit
      split_ifs with hpast hverified
      · exact dispatch_past hpast
      · exact absurd (h.symm.trans hverified) (by decide)
      · rfl

/-- A past vote of a stranger is taken for verified, and dropped. -/
theorem handleMessage_of_rejected_past :
    namedProposal.keyring.verifyMessage nameCrypto (.voteMsg (strayVote 0 1)) = true
      ∧ ∃ limiter, namedProposal.handleMessage (nameDeps 0 fun _ => []) env (some 2)
          (.voteMsg (strayVote 0 1)) = { namedProposal with msgRateLimiter := limiter }
        ∧ ∀ id, some 2 ≠ some id → limiter.lookup id = namedProposal.msgRateLimiter.lookup id :=
  ⟨by decide +kernel, handleMessage_of_rejected _ _ _ _ _ (by decide +kernel)⟩

end Hotmint
