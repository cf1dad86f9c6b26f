/-
What the building blocks of the engine leave unchanged, and what they append to
the trace.

* `persistState_eq`, `saveLastVote_eq`, `finishWalIntent_eq`: persistence and
  the log only append effects;
* `signVote_spec`: what a granted vote changes;
* `runTryCommit_frame`, `settle_frame`: what a commit changes;
* `collectVote_frame`, `collectVote_qc`: what a collected vote changes, and the
  certificate it may complete.
-/
import Hotmint.Proof.Acts

namespace Hotmint

open List Option Effect
variable {σ : Type} {d : Deps σ} {env : Env}
variable {e e' : Engine σ} {qc : QuorumCertificate} {vote : Vote}
variable {effect : Effect} {ext : Option Bytes}
variable {block : Block} {hash : BlockHash} {pairs : List (Block × Option EndBlockResponse)}
  {justify : QuorumCertificate} {t : VoteType} {view : ℕ}

/-- Effects that only write the disk or the log. -/
def Effect.stored : Effect → Bool
  | .save _ | .flush | .putCommitQc _ _ | .putBlockResults _ _ | .walWrite _ | .walTruncate =>
    true
  | _ => false

namespace Engine

/-! ### Appending effects -/

section

variable (e : Engine σ)

@[simp] lemma trace_emits (effects : List Effect) :
    (e.emits effects).trace = e.trace ++ effects := rfl

@[simp] lemma trace_emit (effect : Effect) :
    (e.emit effect).trace = e.trace ++ [effect] := rfl

@[simp] lemma state_emits (effects : List Effect) :
    (e.emits effects).state = e.state := rfl

@[simp] lemma state_emit (effect : Effect) : (e.emit effect).state = e.state := rfl

@[simp] lemma store_emits (effects : List Effect) :
    (e.emits effects).store = e.store := rfl

@[simp] lemma store_emit (effect : Effect) : (e.emit effect).store = e.store := rfl

@[simp] lemma emits_nil : e.emits [] = e := by
  simp [emits]

lemma emits_cons (effect : Effect) (effects : List Effect) :
    e.emits (effect :: effects) = (e.emit effect).emits effects := by
  simp [emits, emit]

@[simp] lemma trace_mapState (f : ConsensusState → ConsensusState) :
    (e.mapState f).trace = e.trace := rfl

@[simp] lemma state_mapState (f : ConsensusState → ConsensusState) :
    (e.mapState f).state = f e.state := rfl

@[simp] lemma store_mapState (f : ConsensusState → ConsensusState) :
    (e.mapState f).store = e.store := rfl

/-- The effects of `persist_state`. -/
def persistEffects (d : Deps σ) (e : Engine σ) : List Effect :=
  if d.hasPersistence then
    [.save (.currentView e.state.currentView)]
      ++ (e.state.lockedQc.map fun qc => save (.lockedQc qc)).toList
      ++ (e.state.highestQc.map fun qc => save (.highestQc qc)).toList
      ++ [.save (.lastCommittedHeight e.state.lastCommittedHeight),
        .save (.currentEpoch e.state.currentEpoch), .save (.previousEpoch e.previousEpoch),
        .save (.lastAppHash e.state.lastAppHash), .save (.pendingEpoch e.pendingEpoch), .flush]
  else []

lemma persistState_eq : e.persistState d = e.emits (e.persistEffects d) := by
  unfold persistState persistEffects
  split_ifs
  · rfl
  · exact (emits_nil e).symm

end

/-- The writes of `persist_state`, in front of its flush. -/
def persistSaves (e : Engine σ) : List Effect :=
  [.save (.currentView e.state.currentView)]
    ++ (e.state.lockedQc.map fun qc => save (.lockedQc qc)).toList
    ++ (e.state.highestQc.map fun qc => save (.highestQc qc)).toList
    ++ [.save (.lastCommittedHeight e.state.lastCommittedHeight),
      .save (.currentEpoch e.state.currentEpoch), .save (.previousEpoch e.previousEpoch),
      .save (.lastAppHash e.state.lastAppHash), .save (.pendingEpoch e.pendingEpoch)]

lemma persistEffects_eq (hpersist : d.hasPersistence = true) (e : Engine σ) :
    e.persistEffects d = e.persistSaves ++ [.flush] := by
  simp [persistEffects, persistSaves, hpersist]

/-- The effects of saving a vote slot. -/
def slotEffects (d : Deps σ) (voteType : VoteType) (view : ℕ) (blockHash : BlockHash) :
    List Effect :=
  if d.hasPersistence then [.save (.lastVote voteType view blockHash), .flush] else []

lemma saveLastVote_eq (e : Engine σ) (t : VoteType) (view : ℕ) (hash : BlockHash) :
    e.saveLastVote d t view hash = e.emits (slotEffects d t view hash) := by
  unfold saveLastVote slotEffects
  split_ifs
  · rfl
  · exact (emits_nil e).symm

/-- The effects of closing a log entry. -/
def unlogEffects (d : Deps σ) (env : Env) (height : ℕ) : List Effect :=
  if d.hasWal then [.walWrite (.commitDone height), .walTruncate].take env.walDoneSteps else []

lemma finishWalIntent_eq (e : Engine σ) (height : ℕ) :
    e.finishWalIntent d env height = e.emits (unlogEffects d env height) := by
  unfold finishWalIntent unlogEffects
  split_ifs
  · rfl
  · exact (emits_nil e).symm

section Membership

variable {effect : Effect} {height : ℕ} {voteType : VoteType} {view : ℕ} {hash : BlockHash}

lemma mem_persistSaves (h : effect ∈ e.persistSaves) : ∃ item, effect = .save item := by
  unfold persistSaves at h
  cases hl : e.state.lockedQc <;> cases hh : e.state.highestQc <;>
    simp only [hl, hh, map_none, map_some, toList_none, toList_some,
      append_nil, cons_append, nil_append, mem_cons, not_mem_nil,
      or_false] at h <;>
    rcases h with rfl | rfl | rfl | rfl | rfl | rfl | rfl | rfl <;> exact ⟨_, rfl⟩

/-- The checkpoint only saves and flushes. -/
lemma mem_persistEffects (h : effect ∈ e.persistEffects d) :
    (∃ item, effect = .save item) ∨ effect = .flush := by
  cases hp : d.hasPersistence with
  | false => simp [persistEffects, hp] at h
  | true =>
    rw [persistEffects_eq hp] at h
    exact (mem_append.mp h).imp mem_persistSaves mem_singleton.mp

lemma mem_slotEffects (h : effect ∈ slotEffects d voteType view hash) :
    effect = .save (.lastVote voteType view hash) ∨ effect = .flush := by
  unfold slotEffects at h
  split_ifs at h
  · simpa using h
  · cases h

/-- Clearing an intent only writes and truncates the log. -/
lemma mem_unlogEffects (h : effect ∈ unlogEffects d env height) :
    (∃ entry, effect = .walWrite entry) ∨ effect = .walTruncate := by
  unfold unlogEffects at h
  split_ifs at h
  · have hboth := mem_of_mem_take h
    simp only [mem_cons, not_mem_nil, or_false] at hboth
    exact hboth.imp (fun heq => ⟨_, heq⟩) id
  · cases h

lemma stored_persistEffects (h : effect ∈ e.persistEffects d) : effect.stored = true := by
  rcases mem_persistEffects h with ⟨item, rfl⟩ | rfl <;> rfl

lemma stored_slotEffects (h : effect ∈ slotEffects d voteType view hash) :
    effect.stored = true := by
  rcases mem_slotEffects h with rfl | rfl <;> rfl

lemma stored_unlogEffects (h : effect ∈ unlogEffects d env height) : effect.stored = true := by
  rcases mem_unlogEffects h with ⟨entry, rfl⟩ | rfl <;> rfl

end Membership

/-! ### Votes -/

/-- **A granted vote**: the slot is taken, saved and flushed, in this order,
before the signature. -/
lemma recordVote_spec (h : e.recordVote d t hash = (true, e')) :
    e' = { e with state := e.state.setLastVote t (some (e.state.currentView, hash)) }.emits
        (slotEffects d t e.state.currentView hash)
      ∧ ∀ v b, e.state.lastVote t = some (v, b) →
        v < e.state.currentView ∨ (v = e.state.currentView ∧ b = hash) := by
  unfold recordVote at h
  split at h
  · next st hst =>
      have hgranted : (e.state.checkAndRecordVote t e.state.currentView hash).1 = true := by
        rw [hst]
      obtain ⟨hslot, hold⟩ := e.state.checkAndRecordVote_spec t _ hash hgranted
      rw [hst] at hslot
      subst hslot
      refine ⟨?_, hold⟩
      rw [← (Prod.mk.inj h).2, saveLastVote_eq]
  · cases h

lemma recordVote_refused (h : e.recordVote d t hash = (false, e')) : e' = e := by
  unfold recordVote at h
  split at h
  · cases h
  · next st hst =>
      have hrefused : (e.state.checkAndRecordVote t e.state.currentView hash).1 = false := by
        rw [hst]
      have hst' := e.state.checkAndRecordVote_refused t _ hash hrefused
      rw [hst] at hst'
      subst hst'
      exact (Prod.mk.inj h).2.symm

/-- What a signed first-phase vote is and changes. -/
lemma signVote1_spec
    (h : e.signVote1 d block justify = (some vote, e')) : vote = e.ownVote d .vote block.hash none
      ∧ e' = { e with state := { e.state with
          lastVote1 := some (e.state.currentView, block.hash) } }.emits
        (slotEffects d .vote e.state.currentView block.hash
          ++ [Effect.signVote1 vote block justify e.state.lockedQc])
      ∧ ∀ v b, e.state.lastVote1 = some (v, b) →
        v < e.state.currentView ∨ (v = e.state.currentView ∧ b = block.hash) := by
  unfold signVote1 at h
  split at h
  · next e₁ he₁ =>
      obtain ⟨rfl, hold⟩ := recordVote_spec he₁
      cases h
      exact ⟨rfl, by simp [emit, emits, ConsensusState.setLastVote], hold⟩
  · cases h

/-- What a signed second-phase vote is and changes. -/
lemma signVote2_spec (h : e.signVote2 d qc ext = (some vote, e')) :
    vote = e.ownVote d .vote2 qc.blockHash ext ∧ e' = { e with state := { e.state with
          lastVote2 := some (e.state.currentView, qc.blockHash) } }.emits
        (slotEffects d .vote2 e.state.currentView qc.blockHash ++ [Effect.signVote2 vote qc])
      ∧ ∀ v b, e.state.lastVote2 = some (v, b) →
        v < e.state.currentView ∨ (v = e.state.currentView ∧ b = qc.blockHash) := by
  unfold signVote2 at h
  split at h
  · next e₁ he₁ =>
      obtain ⟨rfl, hold⟩ := recordVote_spec he₁
      cases h
      exact ⟨rfl, by simp [emit, emits, ConsensusState.setLastVote], hold⟩
  · cases h

lemma signVote1_refused (h : e.signVote1 d block justify = (none, e')) : e' = e := by
  unfold signVote1 at h
  split at h
  · cases h
  · next e₁ he₁ => exact (Prod.mk.inj h).2.symm.trans (recordVote_refused he₁)

lemma signVote2_refused (h : e.signVote2 d qc ext = (none, e')) : e' = e := by
  unfold signVote2 at h
  split at h
  · cases h
  · next e₁ he₁ => exact (Prod.mk.inj h).2.symm.trans (recordVote_refused he₁)

/-- The leader signs its second vote before it takes the lock; nothing outside
can tell, since the signature does not depend on the lock. -/
lemma signVote2_lock (h : e.signVote2 d qc ext = (some vote, e')) :
    (e.mapState (·.updateLockedQc qc)).signVote2 d qc ext
      = (some vote, e'.mapState (·.updateLockedQc qc)) := by
  obtain ⟨rfl, rfl, hold⟩ := signVote2_spec h
  have hfields : ∀ st : ConsensusState, (st.updateLockedQc qc).currentView = st.currentView
      ∧ (st.updateLockedQc qc).lastVote2 = st.lastVote2 := by
    intro st
    unfold ConsensusState.updateLockedQc
    split_ifs <;> exact ⟨rfl, rfl⟩
  have hgrant := (e.state.updateLockedQc qc).checkAndRecordVote_of_slot .vote2
    e.state.currentView qc.blockHash fun v b hvb => hold v b ((hfields e.state).2 ▸ hvb)
  unfold signVote2 recordVote
  simp only [state_mapState, (hfields e.state).1, hgrant, saveLastVote_eq]
  unfold ConsensusState.updateLockedQc
  split_ifs with hdom
  · simp [mapState, emits, emit, ownVote, ConsensusState.setLastVote, hdom]
  · simp [mapState, emits, emit, ownVote, ConsensusState.setLastVote, hdom]

/-! ### Collecting votes -/

/-- The evidence after the collector has answered. -/
def fileProof (d : Deps σ) (equivocation : Option EquivocationProof) (s : EvidenceStore) :
    EvidenceStore :=
  match equivocation with
  | some proof => if d.hasEvidenceStore then s.putEvidence proof else s
  | none => s

lemma handleEquivocation_eq (e : Engine σ) (equivocation : Option EquivocationProof) :
    ∃ effects, e.handleEquivocation d equivocation = { e with
          evidenceStore := fileProof d equivocation e.evidenceStore
          trace := e.trace ++ effects }
      ∧ ∀ x ∈ effects, x.quiet = true
        ∨ ∃ proof, equivocation = some proof ∧ x = .broadcastEvidence proof := by
  unfold handleEquivocation fileProof
  cases equivocation with
  | some proof =>
    split_ifs
    · exact ⟨[.flush, .broadcastEvidence proof], by simp [emit, emits], by simp [quiet]⟩
    · exact ⟨[.broadcastEvidence proof], rfl, by simp⟩
  | none => exact ⟨[], by simp, by simp⟩

/-- The collector after a vote. -/
def collectorAfter (vote : Vote) (e : Engine σ) : VoteCollector :=
  (e.voteCollector.addVote e.state.validatorSet vote e.state.currentEpoch.number).2

/-- The equivocation the collector reports for a vote. -/
def detected (vote : Vote) (e : Engine σ) : Option EquivocationProof :=
  match (e.voteCollector.addVote e.state.validatorSet vote e.state.currentEpoch.number).1 with
  | .ok result => result.equivocation
  | .error _ => none

/-- **Collecting a vote** changes the collector and the evidence only; quorum is
recorded as a formed certificate, and an equivocation is reported. -/
lemma collectVote_eq (e : Engine σ) (vote : Vote) : ∃ effects, (e.collectVote d vote).2 = { e with
          voteCollector := e.collectorAfter vote
          evidenceStore := fileProof d (e.detected vote) e.evidenceStore
          trace := e.trace ++ effects }
      ∧ ∀ x ∈ effects, x.quiet = true ∨ (∃ qc, x = .formed (.qc vote.voteType qc)
          ∧ ∃ result vc, e.voteCollector.addVote e.state.validatorSet vote
            e.state.currentEpoch.number = (.ok result, vc) ∧ result.qc = some qc)
        ∨ ∃ proof, e.detected vote = some proof ∧ x = .broadcastEvidence proof := by
  unfold collectVote collectorAfter detected
  cases hadd : e.voteCollector.addVote e.state.validatorSet vote e.state.currentEpoch.number with
  | mk outcome vc =>
    cases outcome with
    | error err => exact ⟨[], by simp [fileProof], by simp⟩
    | ok result =>
      obtain ⟨effects, heq, heffects⟩ :=
        handleEquivocation_eq { e with voteCollector := vc } result.equivocation
      dsimp only
      cases hqc : result.qc with
      | none => exact ⟨effects, heq, fun x hx => (heffects x hx).imp_right .inr⟩
      | some qc =>
        refine ⟨effects ++ [.formed (.qc vote.voteType qc)], ?_, fun x hx => ?_⟩
        · dsimp only
          rw [heq, emit, emits, append_assoc]
        · rcases mem_append.mp hx with hx | hx
          · exact (heffects x hx).imp_right .inr
          · exact .inr (.inl ⟨qc, mem_singleton.mp hx, result, vc, rfl, hqc⟩)

lemma collectVote_state (e : Engine σ) (vote : Vote) :
    (e.collectVote d vote).2.state = e.state := by
  obtain ⟨_, heq, -⟩ := collectVote_eq e vote
  rw [heq]

lemma collectVote_keyring (e : Engine σ) (vote : Vote) :
    (e.collectVote d vote).2.keyring = e.keyring := by
  obtain ⟨_, heq, -⟩ := collectVote_eq e vote
  rw [heq]
  rfl

lemma collectVote_qc {exts : List (ℕ × Bytes)} (h : e.collectVote d vote = (some (qc, exts), e')) :
    formed (.qc vote.voteType qc) ∈ e'.trace ∧ qc.view = vote.view ∧ qc.blockHash = vote.blockHash
      ∧ e'.voteCollector.Yields e'.state.validatorSet e'.state.currentEpoch.number vote.voteType qc
        exts := by
  unfold collectVote at h
  split at h
  · cases h
  · next result vc hadd =>
      split at h
      · next q hq =>
          obtain ⟨hsome, he'⟩ := Prod.mk.inj h
          obtain ⟨rfl, rfl⟩ := Prod.mk.inj (some.inj hsome)
          obtain ⟨hview, hhash⟩ := VoteCollector.addVote_qc_vote hadd hq
          obtain ⟨effects, heq, -⟩ :=
            handleEquivocation_eq { e with voteCollector := vc } result.equivocation
          refine ⟨?_, hview, hhash, ?_⟩
          · rw [← he', trace_emit]
            exact mem_concat_self
          · rw [← he', heq]
            exact VoteCollector.addVote_yields hadd hq
      · cases h

/-! ### Commits -/

/-- The effect of a failed `try_commit`. -/
def failureEffects : CommitOutcome → List Effect
  | .err err => [.commitFailed err]
  | _ => []

lemma mem_commitEffects {dc : DoubleCertificate} {calls : List AppCall} {outcome : CommitOutcome}
    (h : effect ∈ Effect.tryCommit dc :: calls.map .app ++ failureEffects outcome) :
    effect = .tryCommit dc ∨ (∃ call ∈ calls, effect = .app call)
      ∨ ∃ err, outcome = .err err ∧ effect = .commitFailed err := by
  rcases mem_append.mp h with h | h
  · rcases mem_cons.mp h with heq | h
    · exact .inl heq
    · obtain ⟨call, hcall, heq⟩ := mem_map.mp h
      exact .inr (.inl ⟨call, hcall, heq.symm⟩)
  · cases outcome with
    | err err => exact .inr (.inr ⟨err, rfl, mem_singleton.mp h⟩)
    | ok | panic => cases h

/-- `try_commit` on the fields of an engine. -/
def commitRun (d : Deps σ) (dc : DoubleCertificate) (e : Engine σ) : CommitRun σ :=
  tryCommit d.app dc e.store e.app e.state.lastCommittedHeight e.state.currentEpoch
    e.previousEpoch e.pendingEpoch

lemma runTryCommit_outcome (e : Engine σ) (dc : DoubleCertificate) :
    (e.runTryCommit d dc).1 = (e.commitRun d dc).outcome := by
  unfold runTryCommit commitRun
  dsimp only
  split <;> next h => rw [h]

/-- The state root after a commit: that of its result, if it executed something. -/
def rootAfter (root : BlockHash) : CommitOutcome → BlockHash
  | .ok result => if result.committedBlocks.isEmpty then root else result.lastAppHash
  | _ => root

lemma runTryCommit_lastAppHash (e : Engine σ) (dc : DoubleCertificate) :
    (e.runTryCommit d dc).2.state.lastAppHash
      = rootAfter e.state.lastAppHash (e.commitRun d dc).outcome := by
  unfold runTryCommit commitRun
  dsimp only
  split
  · next result h =>
      rw [h, rootAfter]
      split_ifs <;> rfl
  · next err h =>
      rw [h]
      rfl
  · next h =>
      rw [h]
      rfl

/-- **What `try_commit` changes in the engine.** -/
lemma runTryCommit_eq (e : Engine σ) (dc : DoubleCertificate) :
    ∃ appHash halted, (e.runTryCommit d dc).2 = { e with
        app := (e.commitRun d dc).app
        state := { e.state with
          lastCommittedHeight := (e.commitRun d dc).lastCommittedHeight
          lastAppHash := appHash }
        halted := halted
        trace := e.trace ++ (.tryCommit dc :: (e.commitRun d dc).calls.map .app
          ++ failureEffects (e.commitRun d dc).outcome) } := by
  unfold runTryCommit commitRun
  dsimp only
  split
  · next result h =>
      rw [h]
      by_cases hempty : result.committedBlocks.isEmpty = true
      · refine ⟨e.state.lastAppHash, e.halted, ?_⟩
        simp [hempty, emits, failureEffects]
      · refine ⟨result.lastAppHash, e.halted, ?_⟩
        simp [hempty, emits, mapState, failureEffects]
  · next err h =>
      rw [h]
      exact ⟨e.state.lastAppHash, e.halted, by simp [emits, emit, failureEffects]⟩
  · next h =>
      rw [h]
      exact ⟨e.state.lastAppHash, true, by simp [emits, halt, failureEffects]⟩

/-- The writes for one committed block. -/
def storeEffects (commitQc : QuorumCertificate) (p : Block × Option EndBlockResponse) :
    List Effect :=
  (if commitQc.blockHash = p.1.hash then [.putCommitQc p.1.height commitQc] else [])
    ++ (p.2.map fun response => Effect.putBlockResults p.1.height response).toList

/-- What a list of writes does to a store. -/
def applyWrites (effects : List Effect) (store : BlockStore) : BlockStore :=
  effects.foldl (fun s x => match x with
    | .putBlock block => s.putBlock block
    | .putCommitQc h qc => s.putCommitQc h qc
    | .putBlockResults h r => s.putBlockResults h r
    | _ => s) store

lemma storeCommitted_eq (qc : QuorumCertificate) (e : Engine σ)
    (p : Block × Option EndBlockResponse) : storeCommitted qc e p = { e with
      store := applyWrites (storeEffects qc p) e.store
      trace := e.trace ++ storeEffects qc p } := by
  unfold storeCommitted storeEffects
  rcases p with ⟨block, _ | response⟩ <;> dsimp only
  · split_ifs <;> simp [putCommitQc, emit, emits, applyWrites]
  · split_ifs <;> simp [putCommitQc, putBlockResults, emit, emits, applyWrites]

/-- **Storing the results of committed blocks** only writes the store. -/
lemma foldl_storeCommitted_eq (qc : QuorumCertificate)
    (pairs : List (Block × Option EndBlockResponse)) (e : Engine σ) :
    pairs.foldl (storeCommitted qc) e = { e with
      store := applyWrites (pairs.flatMap (storeEffects qc)) e.store
      trace := e.trace ++ pairs.flatMap (storeEffects qc) } := by
  induction pairs generalizing e with
  | nil => simp [applyWrites]
  | cons p pairs ih =>
    rw [foldl_cons, ih, storeCommitted_eq]
    simp [applyWrites]

/-- The writes of a processed commit. -/
def settleEffects (result : CommitResult) : List Effect :=
  (result.committedBlocks.zipIdx.map fun p => (p.1, result.blockResponses[p.2]?)).flatMap
    (storeEffects result.commitQc)

lemma mem_storeEffects
    (h : effect ∈ pairs.flatMap (storeEffects qc)) : (∃ height qc, effect = .putCommitQc height qc)
      ∨ ∃ height response, effect = .putBlockResults height response := by
  obtain ⟨⟨block, response⟩, -, hmem⟩ := mem_flatMap.mp h
  rcases mem_append.mp hmem with hmem | hmem
  · split_ifs at hmem
    · exact .inl ⟨_, _, mem_singleton.mp hmem⟩
    · cases hmem
  · cases response with
    | none => cases hmem
    | some response => exact .inr ⟨_, _, mem_singleton.mp hmem⟩

lemma stored_storeEffects
    (h : effect ∈ pairs.flatMap (storeEffects qc)) : effect.stored = true := by
  rcases mem_storeEffects h with ⟨height, qc, rfl⟩ | ⟨height, response, rfl⟩ <;> rfl

/-- Writing the results of committed blocks stores no block. -/
lemma getBlock_applyWrites (qc : QuorumCertificate) (pairs : List (Block × Option EndBlockResponse))
    (store : BlockStore) (hash : BlockHash) :
    (applyWrites (pairs.flatMap (storeEffects qc)) store).getBlock hash = store.getBlock hash := by
  have hone : ∀ (store : BlockStore) (p : Block × Option EndBlockResponse),
      (applyWrites (storeEffects qc p) store).getBlock hash = store.getBlock hash := by
    rintro store ⟨block, _ | response⟩ <;> unfold storeEffects <;> dsimp only <;> split_ifs <;>
      simp [applyWrites]
  induction pairs generalizing store with
  | nil => rfl
  | cons p pairs ih =>
    rw [flatMap_cons, applyWrites, foldl_append]
    exact (ih _).trans (hone store p)

/-- Processing a commit stores no block. -/
lemma getBlock_settle (result : CommitResult) (store : BlockStore) (hash : BlockHash) :
    (applyWrites (settleEffects result) store).getBlock hash = store.getBlock hash :=
  getBlock_applyWrites _ _ _ _

lemma applyWrites_append (effects effects' : List Effect) (store : BlockStore) :
    applyWrites (effects ++ effects') store = applyWrites effects' (applyWrites effects store) :=
  foldl_append

section

variable (e : Engine σ)

lemma settle_eq (result : CommitResult) : e.settle result = { e.adoptCommitEpoch result with
      store := applyWrites (settleEffects result) e.store
      trace := e.trace ++ settleEffects result } := by
  have hadopt : (e.adoptCommitEpoch result).store = e.store
      ∧ (e.adoptCommitEpoch result).trace = e.trace := by
    unfold adoptCommitEpoch
    split <;> exact ⟨rfl, rfl⟩
  rw [settle, foldl_storeCommitted_eq, hadopt.1, hadopt.2]
  rfl

/-- The epoch fields after a commit, and the rest unchanged. -/
lemma adoptCommitEpoch_eq (result : CommitResult) : e.adoptCommitEpoch result = { e with
      pendingEpoch := result.pendingEpoch
      previousEpoch := (result.activatedEpoch.map fun _ => some e.state.currentEpoch).getD
        e.previousEpoch
      state := { e.state with
        currentEpoch := result.activatedEpoch.getD e.state.currentEpoch
        validatorSet := (result.activatedEpoch.map (·.validatorSet)).getD
          e.state.validatorSet } } := by
  unfold adoptCommitEpoch
  cases result.activatedEpoch <;> rfl

lemma finishIntent_state (intent : Option ℕ) : (e.finishIntent d env intent).state = e.state := by
  cases intent with
  | none => rfl
  | some height => rw [finishIntent, finishWalIntent_eq, state_emits]

lemma markEvidence_state (blocks : List Block) : (e.markEvidence d blocks).state = e.state := by
  unfold markEvidence
  split_ifs <;> rfl

lemma settle_currentView (result : CommitResult) :
    (e.settle result).state.currentView = e.state.currentView := by
  rw [settle_eq, adoptCommitEpoch_eq]

lemma finishCommit_currentView (intent : Option ℕ) (outcome : CommitOutcome) :
    (e.finishCommit d env intent outcome).state.currentView = e.state.currentView := by
  unfold finishCommit
  split
  · split_ifs with hempty
    · rw [finishIntent_state]
    · unfold processCommitResult
      rw [if_neg hempty]
      simp only [finishWalIntent_eq, persistState_eq, state_emits, markEvidence_state, state_emit]
      exact settle_currentView e _
  · rw [finishIntent_state]
  · rfl

/-- A commit does not change the view. -/
lemma applyCommit_currentView (dc : DoubleCertificate) :
    (e.applyCommit d env dc).state.currentView = e.state.currentView := by
  have hcommit : ∀ (e : Engine σ) (intent : Option ℕ),
      ((e.runTryCommit d dc).2.finishCommit d env intent
        (e.runTryCommit d dc).1).state.currentView = e.state.currentView := by
    intro e intent
    obtain ⟨appHash, halted, heq⟩ := runTryCommit_eq e dc
    rw [finishCommit_currentView, heq]
  unfold applyCommit andThen
  dsimp only
  split
  · unfold logCommitIntent
    split_ifs
    all_goals first | rfl | exact hcommit _ _
  · split_ifs
    all_goals first | rfl | exact hcommit _ _

/-! ### View changes -/

/-- The validators a node reports when an epoch ends. -/
def offline (e : Engine σ) : List OfflineEvidence :=
  e.livenessTracker.offlineValidators.map fun o =>
    OfflineEvidence.mk o.1 o.2.1 o.2.2 e.state.lastCommittedHeight

/-- The effects of an epoch transition. -/
def epochEffects (epoch : Epoch) (e : Engine σ) : List Effect :=
  (if e.offline.isEmpty then [] else [.app (.onOfflineValidators e.offline)])
    ++ [.onEpochChange epoch.number epoch.validatorSet]

lemma reportOffline_eq : ∃ app, e.reportOffline d = { e with
      app := app
      livenessTracker := LivenessTracker.new
      trace := e.trace ++ if e.offline.isEmpty then []
        else [.app (.onOfflineValidators e.offline)] } := by
  unfold reportOffline offline
  dsimp only
  split_ifs
  · exact ⟨e.app, by simp⟩
  · exact ⟨_, rfl⟩

lemma calm_epochEffects (epoch : Epoch) : ∀ x ∈ e.epochEffects epoch, x.calm = true := by
  unfold epochEffects
  split_ifs <;> simp [calm, quiet]

/-- **The epoch transition** of a view change: none is due, or the pending epoch
starts. -/
lemma startEpoch_eq (view : ℕ) :
    e.startEpoch d view = e ∨ ∃ epoch app effects, e.pendingEpoch = some epoch
      ∧ epoch.startView ≤ view ∧ (∀ x ∈ effects, x.calm = true) ∧ effects = e.epochEffects epoch
      ∧ e.startEpoch d view = { e with
        app := app
        livenessTracker := LivenessTracker.new
        pendingEpoch := none
        previousEpoch := some e.state.currentEpoch
        state := { e.state with validatorSet := epoch.validatorSet, currentEpoch := epoch }
        voteCollector := VoteCollector.new
        pacemaker := Pacemaker.new
        trace := e.trace ++ effects } := by
  unfold startEpoch
  split
  · next epoch hpending =>
      split_ifs with hstart
      · obtain ⟨app, heq⟩ := reportOffline_eq e
        refine .inr ⟨epoch, app, e.epochEffects epoch, hpending, hstart,
          e.calm_epochEffects epoch, rfl, ?_⟩
        rw [heq]
        simp [emit, emits, epochEffects]
      · exact .inl rfl
  · exact .inl rfl

/-! A double certificate that is remembered right before the view changes by it is
remembered by the view change. -/

/-- Remember a double certificate. -/
def withDc (dc : DoubleCertificate) (e : Engine σ) : Engine σ :=
  e.mapState fun st => { st with highestDoubleCert := some dc }

lemma reportOffline_withDc (dc : DoubleCertificate) :
    (e.withDc dc).reportOffline d = (e.reportOffline d).withDc dc := by
  have hsame : (e.withDc dc).livenessTracker = e.livenessTracker
      ∧ (e.withDc dc).state.lastCommittedHeight = e.state.lastCommittedHeight := ⟨rfl, rfl⟩
  unfold reportOffline
  dsimp only
  rw [hsame.1, hsame.2]
  split_ifs <;> rfl

lemma startEpoch_withDc (dc : DoubleCertificate) (view : ℕ) :
    (e.withDc dc).startEpoch d view = (e.startEpoch d view).withDc dc := by
  have hsame : (e.withDc dc).pendingEpoch = e.pendingEpoch := rfl
  unfold startEpoch
  rw [hsame, reportOffline_withDc]
  cases e.pendingEpoch with
  | none => rfl
  | some epoch =>
    dsimp only
    split_ifs <;> rfl

lemma enterView_withDc (dc : DoubleCertificate) (h : e.state.currentView < view) :
    (e.withDc dc).enterView d view (.doubleCert dc) = e.enterView d view (.doubleCert dc) := by
  have hview : (e.withDc dc).state.currentView = e.state.currentView := rfl
  have hstale : ¬ decide (view ≤ e.state.currentView) = true := by simpa using h
  unfold enterView
  rw [hview, if_neg hstale, if_neg hstale]
  have hst := ConsensusState.updateHighestQc_withDc { e.state with
      currentView := view
      step := .entered
      role := if isLeaderOf e.state.validatorSet view e.state.validatorId then .leader
        else .replica }
    dc.innerQc (some dc)
  exact congrArg (fun st => awaitTurn d view
    (isLeaderOf e.state.validatorSet view e.state.validatorId)
    { e with state := { st with highestDoubleCert := some dc } }) hst

lemma startEpoch_currentView (view : ℕ) :
    (e.startEpoch d view).state.currentView = e.state.currentView := by
  rcases startEpoch_eq e view with heq | ⟨_, _, _, -, -, -, -, heq⟩ <;> rw [heq]

/-- **A view change by a double certificate** remembers it. -/
lemma advanceViewTo_withDc (dc : DoubleCertificate)
    (h : e.state.currentView < view) : (e.withDc dc).advanceViewTo d view (.doubleCert dc)
      = e.advanceViewTo d view (.doubleCert dc) := by
  have hview : (e.withDc dc).state.currentView = e.state.currentView := rfl
  have hclear : (e.withDc dc).clearForView (.doubleCert dc)
      = (e.clearForView (.doubleCert dc)).withDc dc := rfl
  have hlater : ¬ view ≤ e.state.currentView := not_le.mpr h
  unfold advanceViewTo
  rw [hview, if_neg hlater, if_neg hlater, hclear, startEpoch_withDc]
  dsimp only
  rw [enterView_withDc]
  rw [startEpoch_currentView]
  exact h

end

end Engine

end Hotmint
