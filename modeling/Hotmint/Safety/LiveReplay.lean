/-
Live commits and replay do the same.

* `Application.Deterministic`: the answers depend on the committed blocks only;
* `SyncState.replayBatches`: a chain replayed in batches;
* `Follows`, `Follows.round`: **a round of the replay is a round of the execution
  loop**, as long as views increase from the start of the current epoch on;
* `live_equals_replay`: **so a chain that is replayed in any batches is committed
  live** with the same callbacks, and both end with the same height, app hash and
  epochs.
-/
import Hotmint.Safety.Batching
import Hotmint.Safety.Replay

namespace Hotmint

open Sample List
variable {σ : Type}
variable {blocks : List (Block × Option QuorumCertificate)}

/-! ### Deterministic applications -/

/-- The answers for committed blocks depend on the blocks committed before: states
related by `Same` answer alike and stay related, and checking a block leads to a
related state. -/
structure Application.Deterministic (app : Application σ) (Same : σ → σ → Prop) : Prop where
  equivalence : Equivalence Same
  validateBlock : ∀ s block ctx, Same s (app.validateBlock s block ctx).2
  onEvidence : ∀ s t proof, Same s t → (app.onEvidence s proof).1 = (app.onEvidence t proof).1
    ∧ Same (app.onEvidence s proof).2 (app.onEvidence t proof).2
  executeBlock : ∀ s t txs ctx, Same s t →
    (app.executeBlock s txs ctx).1 = (app.executeBlock t txs ctx).1
      ∧ Same (app.executeBlock s txs ctx).2 (app.executeBlock t txs ctx).2
  onCommit : ∀ s t block ctx, Same s t → (app.onCommit s block ctx).1 = (app.onCommit t block ctx).1
      ∧ Same (app.onCommit s block ctx).2 (app.onCommit t block ctx).2
  tracksAppHash : ∀ s t, Same s t → app.tracksAppHash s = app.tracksAppHash t

section

variable {app : Application σ} {Same : σ → σ → Prop}

/-- A callback that succeeds also succeeds in a related state. -/
lemma exists_pair {α : Type} {f : σ → α × σ} {s s' t : σ} {a : α} (h : f s = (a, s'))
    (hsame : (f s).1 = (f t).1 ∧ Same (f s).2 (f t).2) : ∃ t', f t = (a, t') ∧ Same s' t' := by
  rw [h] at hsame
  exact ⟨(f t).2, Prod.ext hsame.1.symm rfl, hsame.2⟩

lemma EvidenceApplied.same (hdet : app.Deterministic Same) {s s' t : σ}
    {proofs : List EquivocationProof} (h : EvidenceApplied app s proofs s') (hsame : Same s t) :
    ∃ t', EvidenceApplied app t proofs t' ∧ Same s' t' := by
  induction h generalizing t with
  | nil s => exact ⟨t, .nil t, hsame⟩
  | @cons s s₁ s' proof proofs hproof _ ih =>
    obtain ⟨t₁, hproof', hsame₁⟩ := exists_pair (f := fun s => app.onEvidence s proof) hproof
      (hdet.onEvidence s t proof hsame)
    obtain ⟨t', hrest, hsame'⟩ := ih hsame₁
    exact ⟨t', .cons hproof' hrest, hsame'⟩

/-- **A block that succeeds** also does in a related state, with the same answer. -/
lemma BlockApplied.same (hdet : app.Deterministic Same) {s s' t : σ} {block : Block}
    {ctx : BlockContext} {response : EndBlockResponse}
    (h : BlockApplied app s block ctx response s') (hsame : Same s t) :
    ∃ t', BlockApplied app t block ctx response t' ∧ Same s' t' := by
  obtain ⟨s₁, s₂, hevidence, hexec, hcommit⟩ := h
  obtain ⟨t₁, hevidence', hsame₁⟩ := hevidence.same hdet hsame
  obtain ⟨t₂, hexec', hsame₂⟩ := exists_pair
    (f := fun s => app.executeBlock s (decodePayload block.payload) ctx) hexec
    (hdet.executeBlock s₁ t₁ _ ctx hsame₁)
  obtain ⟨t', hcommit', hsame'⟩ := exists_pair (f := fun s => app.onCommit s block ctx) hcommit
    (hdet.onCommit s₂ t₂ block ctx hsame₂)
  exact ⟨t', ⟨t₁, t₂, hevidence', hexec', hcommit'⟩, hsame'⟩

end

/-! ### One round -/

/-- The execution loop is where the replay is. -/
structure Follows (Same : σ → σ → Prop) (st : SyncState σ) (pending : Option Epoch)
    (x : ExecState σ) : Prop where
  pending : x.pending = pending
  active : x.active = st.currentEpoch
  app : Same st.app x.app

section

variable {d : SyncDeps σ} {env : ℕ → Env} {Same : σ → σ → Prop} {st st' : SyncState σ}
  {pending pending' : Option Epoch} {x : ExecState σ} {block : Block}
  {qc : Option QuorumCertificate}

/-- The epochs at a block are those of the replay. -/
lemma Follows.activate (h : Follows Same st pending x) (block : Block) :
    (x.activate block).active = st.replayEpoch pending block ∧ (x.activate block).pending
        = if SyncState.activatesEpoch pending block then none else pending := by
  unfold ExecState.activate SyncState.replayEpoch SyncState.activatesEpoch
  rw [h.pending]
  cases pending with
  | none => exact ⟨h.active, h.pending⟩
  | some epoch =>
    dsimp only
    by_cases hstart : epoch.startView ≤ block.view
    · simp [hstart]
    · simp [hstart, h.active, h.pending]

/-- The epoch of a block has started, if the current one has. -/
lemma replayEpoch_started (pending : Option Epoch)
    (hstart : st.currentEpoch.startView ≤ block.view) :
    (st.replayEpoch pending block).startView ≤ block.view := by
  unfold SyncState.replayEpoch
  split
  · split_ifs with hpending
    · exact hpending
    · exact hstart
  · exact hstart

lemma lifecycle_storeSynced (st : SyncState σ) (block : Block) (qc : Option QuorumCertificate) :
    lifecycle (st.storeSynced block qc).trace = lifecycle st.trace
      ∧ (st.storeSynced block qc).app = st.app := by
  cases qc with
  | none =>
    refine ⟨?_, rfl⟩
    change lifecycle (st.trace ++ _ ++ _) = _
    rw [lifecycle_append, lifecycle_append]
    exact (append_nil _).trans (append_nil _)
  | some cert =>
    refine ⟨?_, rfl⟩
    change lifecycle (st.trace ++ _ ++ _ ++ _) = _
    rw [lifecycle_append, lifecycle_append, lifecycle_append]
    exact (append_nil _).trans ((append_nil _).trans (append_nil _))

/-- **A round of the replay is a round of the execution loop.** -/
lemma Follows.round (hdet : d.app.Deterministic Same) (h : Follows Same st pending x)
    (hround : st.replayOne d env pending block qc = (.done, pending', st'))
    (hstart : st.currentEpoch.startView ≤ block.view) :
    ∃ x' calls, RoundApplied d.app x block x' ∧ Follows Same st' pending' x'
      ∧ x'.lastAppHash = st'.lastAppHash ∧ st'.currentEpoch.startView ≤ block.view
      ∧ st'.lastCommittedHeight = block.height ∧ lifecycle (calls.map .app) = calls
      ∧ x'.calls = x.calls ++ calls ∧ lifecycle st'.trace = lifecycle st.trace ++ calls := by
  obtain ⟨-, effects, hnone, s, response, s', store, effects', hvalidate, happlied, hpending, -,
    heffects, rfl⟩ := SyncState.replayed_of_done hround
  obtain ⟨hactive, hpendingNow⟩ := h.activate block
  obtain ⟨htrace, happ⟩ := lifecycle_storeSynced st block qc
  have hstarted := replayEpoch_started pending hstart
  -- checking the block does not change what executing it answers
  have hsame : Same s x.app := by
    have hchecked := hdet.validateBlock st.app block
      (blockContext block (st.replayEpoch pending block))
    rw [show d.app.validateBlock st.app block _ = (true, s) from happ ▸ hvalidate] at hchecked
    exact hdet.equivalence.trans (hdet.equivalence.symm hchecked) h.app
  obtain ⟨t, happlied', hsame'⟩ := happlied.same hdet hsame
  have hctx : x.context block = blockContext block (st.replayEpoch pending block) := by
    unfold ExecState.context ExecState.ctxEpoch
    rw [hactive, if_neg (by omega)]
  refine ⟨x.advance d.app block response t pending', blockCalls block (x.context block) response,
    ⟨response, t, pending', by rw [hctx]; exact happlied',
      by rw [hactive, hpendingNow]; exact hpending, rfl⟩,
    ⟨rfl, hactive, hsame'⟩, ?_, hstarted, rfl, lifecycle_blockCalls _ _ _, rfl, ?_⟩
  · change (if d.app.tracksAppHash t then _ else _) = if d.app.tracksAppHash s' then _ else _
    rw [hdet.tracksAppHash s' t hsame']
  · change lifecycle ((st.storeSynced block qc).trace ++ effects ++ effects') = _
    rw [lifecycle_append, lifecycle_append, htrace, hnone, heffects, append_nil, hctx]

/-! ### The whole chain -/

/-- A chain replayed in batches, each with what the log operations return. -/
def SyncState.replayBatches (d : SyncDeps σ) :
    SyncState σ → List ((ℕ → Env) × List (Block × Option QuorumCertificate)) → SyncEnd × SyncState σ
  | st, [] => (.done, st)
  | st, (env, blocks) :: batches =>
    match st.replayBlocks d env blocks with
    | (.done, _, st') => st'.replayBatches d batches
    | (ending, _, st') => (ending, st')

/-- Successful rounds, each with the pending epoch the one before has left. -/
inductive SyncState.Replays (d : SyncDeps σ) :
    SyncState σ → List (Block × Option QuorumCertificate) → SyncState σ → Prop
  | nil (st : SyncState σ) : Replays d st [] st
  | cons {st st₁ st' : SyncState σ} {block : Block} {qc : Option QuorumCertificate}
      {blocks : List (Block × Option QuorumCertificate)} (env : ℕ → Env)
      (h : st.replayOne d env st.pendingEpoch block qc = (.done, st₁.pendingEpoch, st₁))
      (hrest : Replays d st₁ blocks st') : Replays d st ((block, qc) :: blocks) st'

namespace SyncState

lemma Replays.append {st₁ : SyncState σ} {blocks' : List (Block × Option QuorumCertificate)}
    (h : Replays d st blocks st₁) (h' : Replays d st₁ blocks' st') :
    Replays d st (blocks ++ blocks') st' := by
  induction h with
  | nil st => exact h'
  | cons env hround _ ih => exact .cons env hround (ih h')

/-- A round leaves the pending epoch it returns. -/
lemma pendingEpoch_of_done (h : st.replayOne d env pending block qc = (.done, pending', st')) :
    st'.pendingEpoch = pending' := by
  obtain ⟨-, _, -, _, _, _, _, _, -, -, -, -, -, rfl⟩ := replayed_of_done h
  rfl

lemma replays_of_loop (h : st.replayLoop d env st.pendingEpoch blocks = (.done, pending', st')) :
    Replays d st blocks st' ∧ st'.pendingEpoch = pending' := by
  induction blocks generalizing st with
  | nil =>
    obtain ⟨-, hrest⟩ := Prod.mk.inj h
    cases hrest
    exact ⟨.nil _, rfl⟩
  | cons entry blocks ih =>
    obtain ⟨block, qc⟩ := entry
    rw [replayLoop] at h
    split at h
    · next pending₁ st₁ hone =>
        obtain rfl := pendingEpoch_of_done hone
        obtain ⟨hrest, hpending⟩ := ih h
        exact ⟨.cons env hone hrest, hpending⟩
    · next hstop => exact absurd h (hstop _ _)

lemma replays_of_blocks
    (h : st.replayBlocks d env blocks = (.done, pending', st')) : Replays d st blocks st' := by
  unfold replayBlocks at h
  split at h
  · next pending₁ st₁ hloop =>
      obtain ⟨hreplays, rfl⟩ := replays_of_loop hloop
      obtain ⟨-, hrest⟩ := Prod.mk.inj h
      cases hrest
      exact hreplays
  · next hstop => exact absurd h (hstop _ _)

/-- **Batches are rounds in a row.** -/
lemma replays_of_batches {batches : List ((ℕ → Env) × List (Block × Option QuorumCertificate))}
    (h : st.replayBatches d batches = (.done, st')) : Replays d st (batches.flatMap (·.2)) st' := by
  induction batches generalizing st with
  | nil =>
    cases h
    exact .nil _
  | cons batch batches ih =>
    obtain ⟨env, blocks⟩ := batch
    rw [replayBatches] at h
    split at h
    · next pending₁ st₁ hblocks => exact (replays_of_blocks hblocks).append (ih h)
    · next ending pending₁ st₁ hne heq =>
        cases h
        exact absurd rfl hne

end SyncState

/-- **A replayed chain runs through the execution loop**, if its views increase from the
start of the current epoch on. -/
lemma Follows.chain (hdet : d.app.Deterministic Same) (hreplays : st.Replays d blocks st')
    (h : Follows Same st st.pendingEpoch x)
    (hviews : blocks.Pairwise fun p q => p.1.view < q.1.view)
    (hstart : ∀ p ∈ blocks, st.currentEpoch.startView ≤ p.1.view) :
    ∃ x' calls, ChainApplied d.app x (blocks.map (·.1)) x' ∧ Follows Same st' st'.pendingEpoch x'
      ∧ (blocks ≠ [] → x'.lastAppHash = st'.lastAppHash
        ∧ x'.lastCommittedHeight = st'.lastCommittedHeight)
      ∧ lifecycle (calls.map .app) = calls
      ∧ x'.calls = x.calls ++ calls ∧ lifecycle st'.trace = lifecycle st.trace ++ calls := by
  induction hreplays generalizing x with
  | nil st => exact ⟨x, [], .nil x, h, fun hne => absurd rfl hne, rfl, by simp, by simp⟩
  | @cons st st₁ st' block qc blocks env hround hrest ih =>
    obtain ⟨x₁, calls, happlied, hfollows, hhash, hstarted, hheight, hmade, hcalls, htrace⟩ :=
      h.round hdet hround (hstart _ mem_cons_self)
    obtain ⟨hlater, hviews'⟩ := pairwise_cons.mp hviews
    obtain ⟨x', calls', happlied', hfollows', hend, hmade', hcalls', htrace'⟩ :=
      ih hfollows hviews' fun p hp => hstarted.trans (hlater p hp).le
    refine ⟨x', calls ++ calls', .cons happlied happlied', hfollows', fun _ => ?_, ?_, ?_, ?_⟩
    · cases blocks with
      | nil =>
        cases hrest
        cases happlied'
        obtain ⟨response, s, next, -, -, rfl⟩ := happlied
        exact ⟨hhash, hheight.symm⟩
      | cons => exact hend (by simp)
    · rw [map_append, lifecycle_append, hmade, hmade']
    · rw [hcalls', hcalls, append_assoc]
    · rw [htrace', htrace, append_assoc]

end

/-- **Live commit equals replay.**  A chain with strictly increasing views from the
start of the current epoch on that a deterministic application accepts in a replay, in
any batches, is committed by `try_commit` with the same callbacks in the same contexts
and order; after adopting its epochs the engine has the height, app hash, current and
pending epoch of the replay. -/
theorem live_equals_replay (d : Deps σ) (sd : SyncDeps σ) (happ : sd.app = d.app)
    {Same : σ → σ → Prop} (hdet : d.app.Deterministic Same) (st st' : SyncState σ)
    (batches : List ((ℕ → Env) × List (Block × Option QuorumCertificate)))
    (hreplay : st.replayBatches sd batches = (.done, st'))
    (hviews : (batches.flatMap (·.2)).Pairwise fun p q => p.1.view < q.1.view)
    (hfirst : ∀ p, (batches.flatMap (·.2)).head? = some p → st.currentEpoch.startView ≤ p.1.view)
    (e : Engine σ) (hcurrent : e.state.currentEpoch = st.currentEpoch)
    (hpending : e.pendingEpoch = st.pendingEpoch) (hsame : Same st.app e.app)
    (dc : DoubleCertificate) (target : Block)
    (htarget : e.store.getBlock dc.innerQc.blockHash = some target)
    (hwalk : Walk e.store e.state.lastCommittedHeight target ((batches.flatMap (·.2)).map (·.1))) :
    ∃ result e₁ calls, e.runTryCommit d dc = (.ok result, e₁)
      ∧ lifecycle st'.trace = lifecycle st.trace ++ calls
      ∧ lifecycle e₁.trace = lifecycle e.trace ++ calls
      ∧ (e₁.adoptCommitEpoch result).state.lastCommittedHeight = st'.lastCommittedHeight
      ∧ (e₁.adoptCommitEpoch result).state.lastAppHash = st'.lastAppHash
      ∧ (e₁.adoptCommitEpoch result).state.currentEpoch = st'.currentEpoch
      ∧ (e₁.adoptCommitEpoch result).pendingEpoch = st'.pendingEpoch := by
  have hreplays := SyncState.replays_of_batches hreplay
  have hstart : ∀ p ∈ batches.flatMap (·.2), st.currentEpoch.startView ≤ p.1.view := by
    cases hchain : batches.flatMap (·.2) with
    | nil => exact fun p hp => by cases hp
    | cons head rest =>
      rw [hchain] at hviews hfirst
      have hhead := hfirst head rfl
      intro p hp
      rcases mem_cons.mp hp with rfl | hp
      · exact hhead
      · exact hhead.trans ((pairwise_cons.mp hviews).1 p hp).le
  have hne : batches.flatMap (·.2) ≠ [] := by
    intro hnil
    have hlast := hwalk.getLast
    rw [hnil] at hlast
    cases hlast
  have hfollows : Follows Same st st.pendingEpoch e.execStart := ⟨hpending, hcurrent, hsame⟩
  rw [← happ] at hdet
  obtain ⟨x, calls, happlied, hend, hfinal, hmade, hcalls, htrace⟩ :=
    hfollows.chain hdet hreplays hviews hstart
  obtain ⟨hhash, hlast⟩ := hfinal hne
  rw [happ] at happlied
  refine ⟨_, _, calls, Engine.runTryCommit_of_walk htarget hwalk happlied, htrace, ?_, ?_⟩
  · change lifecycle (e.trace ++ ([.tryCommit dc] ++ x.calls.map .app)) = _
    rw [hcalls, lifecycle_append, lifecycle_append]
    exact congrArg (lifecycle e.trace ++ ·) hmade
  · rw [Engine.adoptCommitEpoch_eq]
    exact ⟨hlast, hhash, (happlied.active_eq rfl).trans hend.active, hend.pending⟩

/-! The first two blocks of `batchBlock` in two batches, with updates at height 1: the
second block activates the epoch they start. -/

/-- The validator set of that epoch. -/
def updatedSet : ValidatorSet :=
  (pair.validatorSet.tryApplyUpdates [⟨11, key 11, 1⟩]).toOption.getD pair.validatorSet

/-- The batches. -/
def twoBatches : List ((ℕ → Env) × List (Block × Option QuorumCertificate)) :=
  [(fun _ => env, [(batchBlock 1, some (qc pair.validatorSet [0] .vote 0 1 (batchBlock 1).hash))]),
    (fun _ => env, [(batchBlock 2, some (qc updatedSet [0, 1] .vote 1 3 (batchBlock 2).hash))])]

/-- A node that starts to replay. -/
def replayStart : SyncState Unit where
  store := BlockStore.new
  app := ()
  currentEpoch := .genesis pair.validatorSet
  lastCommittedHeight := 0
  lastAppHash := BlockHash.genesis
  chainIdHash := 0#256
  pendingEpoch := none
  previousEpoch := none
  trace := []

/-- What the replay works with. -/
def replayDeps : SyncDeps Unit := ⟨crypto, (batchDeps 1).app, true, true, fun _ => false⟩

lemma deterministic_sample (updates : ℕ → List ValidatorUpdate) :
    (application updates).Deterministic fun _ _ => True :=
  ⟨⟨fun _ => trivial, fun _ => trivial, fun _ _ => trivial⟩, fun _ _ _ => trivial,
    fun _ _ _ _ => ⟨rfl, trivial⟩, fun _ _ _ _ _ => ⟨rfl, trivial⟩, fun _ _ _ _ _ => ⟨rfl, trivial⟩,
    fun _ _ _ => rfl⟩

theorem live_equals_replay_two :
    ((replayStart.replayBatches replayDeps twoBatches).2.currentEpoch.number = 1)
      ∧ ∃ result e₁ calls, (batchEngine 1).runTryCommit (batchDeps 1) (batchDc 2) = (.ok result, e₁)
        ∧ lifecycle (replayStart.replayBatches replayDeps twoBatches).2.trace = [] ++ calls
        ∧ lifecycle e₁.trace = lifecycle (batchEngine 1).trace ++ calls
        ∧ (e₁.adoptCommitEpoch result).state.lastCommittedHeight
          = (replayStart.replayBatches replayDeps twoBatches).2.lastCommittedHeight
        ∧ (e₁.adoptCommitEpoch result).state.lastAppHash
          = (replayStart.replayBatches replayDeps twoBatches).2.lastAppHash
        ∧ (e₁.adoptCommitEpoch result).state.currentEpoch
          = (replayStart.replayBatches replayDeps twoBatches).2.currentEpoch
        ∧ (e₁.adoptCommitEpoch result).pendingEpoch
          = (replayStart.replayBatches replayDeps twoBatches).2.pendingEpoch := by
  have hdone : (replayStart.replayBatches replayDeps twoBatches).1 = .done := by decide +kernel
  have hroot : batchStore.getBlock (batchBlock 1).parentHash = some Block.genesis
      ∧ batchStore.getBlockByHeight 0 = some Block.genesis := by decide +kernel
  have hparent : batchStore.getBlock (batchBlock 2).parentHash = some (batchBlock 1) := by
    decide +kernel
  have hfresh := fresh_launch (batchDeps 1) (pair.config leader) () .empty
  have hheight : (batchEngine 1).state.lastCommittedHeight = 0 := hfresh.lastCommittedHeight
  have hwalk : Walk batchStore (batchEngine 1).state.lastCommittedHeight (batchBlock 2)
      [batchBlock 1, batchBlock 2] := by
    rw [hheight]
    exact .step hparent rfl (.last hroot.1 rfl rfl hroot.2 rfl)
  have hdet : (batchDeps 1).app.Deterministic fun _ _ => True :=
    deterministic_sample (batchUpdates 1)
  refine ⟨by decide +kernel, live_equals_replay (batchDeps 1) replayDeps rfl hdet replayStart _
    twoBatches (Prod.ext hdone rfl) ?_ ?_ (batchEngine 1) hfresh.currentEpoch hfresh.pendingEpoch
    trivial (batchDc 2) (batchBlock 2) (by decide +kernel) hwalk⟩
  · decide +kernel
  · intro p hp
    cases hp
    decide +kernel

end Hotmint
