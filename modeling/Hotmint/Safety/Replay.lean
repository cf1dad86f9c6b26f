/-
What a successful replay has done.

* `SyncState.Round`, `round_of_done`: one round: the checks that passed, the
  cursor, the epochs and the block the next round has to extend;
* `SyncState.Rounds`, `rounds_of_loop`: a replay is a sequence of rounds;
* `SyncState.Accepts`, `accepts_of_done`: the blocks a replay accepts, whatever
  happens to it afterwards;
* `Accepts.ancestor`: **accepted blocks form a chain**;
* `Accepts.certified`: **each carries a certificate of the one validator set** of
  an application that keeps it.
-/
import Hotmint.Consensus.Sync
import Hotmint.Safety.Chain
import Hotmint.Safety.FixedSet

namespace Hotmint

open List
variable {block : Block} {pending pending' : Option Epoch}
variable {blocks : List (Block × Option QuorumCertificate)} {qc : Option QuorumCertificate}
  {entry : Block × Option QuorumCertificate}

namespace SyncState

variable {σ : Type} {d : SyncDeps σ} {env : ℕ → Env}

/-- One successful round of a replay. -/
structure Round (d : SyncDeps σ) (st : SyncState σ) (pending : Option Epoch) (block : Block)
    (qc : Option QuorumCertificate) (pending' : Option Epoch) (st' : SyncState σ) : Prop where
  checked : Checked d st (st.replayEpoch pending block) block qc
  height : st'.lastCommittedHeight = block.height
  chainIdHash : st'.chainIdHash = st.chainIdHash
  stored : st'.store.getBlockByHeight block.height = some block
  currentEpoch : st'.currentEpoch = st.replayEpoch pending block
  pending : pending' = (if activatesEpoch pending block then none else pending)
    ∨ ∃ epoch response s s', d.app.executeBlock s (decodePayload block.payload)
        (blockContext block (st.replayEpoch pending block)) = (some response, s')
      ∧ chainedPendingEpoch (st.replayEpoch pending block)
        (if activatesEpoch pending block then none else pending) block.view
        response.validatorUpdates = .ok epoch
      ∧ pending' = some epoch

lemma emits_nil (st : SyncState σ) : st.emits [] = st := by
  simp [emits]

lemma storeSynced_chainIdHash (st : SyncState σ) (block : Block) (qc : Option QuorumCertificate) :
    (st.storeSynced block qc).chainIdHash = st.chainIdHash := by
  cases qc <;> rfl

/-- The block is found under its height once it is stored with its certificate. -/
lemma storeSynced_getBlockByHeight (st : SyncState σ) {cert : QuorumCertificate}
    (hcert : cert.blockHash = block.hash) :
    (st.storeSynced block (some cert)).store.getBlockByHeight block.height = some block := by
  refine BlockStore.getBlockByHeight_putCommitQc _ ?_ rfl
  change (st.store.putBlock block).getBlock cert.blockHash = some block
  rw [BlockStore.getBlock_putBlock, if_pos hcert]

lemma persistSyncCheckpoint_eq (st : SyncState σ) (pending : Option Epoch) :
    ∃ effects, lifecycle effects = [] ∧ st.persistSyncCheckpoint d pending = st.emits effects := by
  unfold persistSyncCheckpoint
  split_ifs
  · exact ⟨_, rfl, rfl⟩
  · exact ⟨[], rfl, st.emits_nil.symm⟩

section

variable {st st' : SyncState σ}

/-- The end of a round moves the cursor and keeps the rest. -/
lemma finishSynced_done {response : EndBlockResponse}
    (h : st.finishSynced d env block pending response = (.done, pending', st')) :
    pending' = pending ∧ ∃ store effects,
      (∀ h, store.getBlockByHeight h = st.store.getBlockByHeight h) ∧ lifecycle effects = []
      ∧ st' = { st with
        store := store
        lastCommittedHeight := block.height
        pendingEpoch := pending
        trace := st.trace ++ effects } := by
  obtain ⟨store, effects, hstore, heffects, hresults⟩ : ∃ store effects,
      (∀ h, store.getBlockByHeight h = st.store.getBlockByHeight h) ∧ lifecycle effects = []
      ∧ st.storeResults block.height response
        = { st with store := store, trace := st.trace ++ effects } := by
    unfold storeResults
    dsimp only
    split
    · exact ⟨st.store, [.flush], fun _ => rfl, rfl, rfl⟩
    · exact ⟨st.store.putBlockResults block.height response,
        [.putBlockResults block.height response, .flush], fun _ => rfl, rfl, by simp [emits]⟩
  unfold finishSynced at h
  dsimp only at h
  rw [hresults] at h
  obtain ⟨saves, hsaves, heq⟩ := persistSyncCheckpoint_eq (d := d) { st with
      store := store
      trace := st.trace ++ effects
      lastCommittedHeight := block.height
      pendingEpoch := pending } pending
  rw [heq] at h
  have hlog : ∀ n, lifecycle (([.walWrite (.commitDone block.height), .walTruncate] :
      List Effect).take n) = [] := by
    intro n
    refine filterMap_eq_nil_iff.mpr fun effect hmem => ?_
    have hboth := mem_of_mem_take hmem
    simp only [mem_cons, not_mem_nil, or_false] at hboth
    rcases hboth with rfl | rfl <;> rfl
  split_ifs at h
  · cases h
  · obtain ⟨-, hrest⟩ := Prod.mk.inj h
    cases hrest
    refine ⟨rfl, store, effects ++ saves
      ++ [.walWrite (.commitDone block.height), .walTruncate].take (env block.height).walDoneSteps,
      hstore, ?_, by simp [emits]⟩
    rw [lifecycle_append, lifecycle_append, heffects, hsaves, hlog]
    rfl
  · obtain ⟨-, hrest⟩ := Prod.mk.inj h
    cases hrest
    exact ⟨rfl, store, effects ++ saves, hstore, by simp [heffects, hsaves], by simp [emits]⟩

/-- What the callbacks of a successful round do, under the epoch of its block. -/
def Replayed (d : SyncDeps σ) (st : SyncState σ) (pending : Option Epoch) (epoch : Epoch)
    (block : Block) (pending' : Option Epoch) (st' : SyncState σ) : Prop :=
  ∃ s response s' store effects,
    d.app.validateBlock st.app block (blockContext block epoch) = (true, s)
    ∧ BlockApplied d.app s block (blockContext block epoch) response s'
    ∧ pendingAfter epoch (if activatesEpoch pending block then none else pending) block.view
      response.validatorUpdates = .ok pending'
    ∧ (∀ h, store.getBlockByHeight h = st.store.getBlockByHeight h)
    ∧ lifecycle effects = blockCalls block (blockContext block epoch) response
    ∧ st' = { st with
      store := store
      app := s'
      currentEpoch := epoch
      previousEpoch := if activatesEpoch pending block then some st.currentEpoch
        else st.previousEpoch
      lastAppHash := if d.app.tracksAppHash s' then response.appHash else block.appHash
      lastCommittedHeight := block.height
      pendingEpoch := pending'
      trace := st.trace ++ effects }

/-- **The callbacks of a successful round.** -/
lemma executeSynced_done {epoch : Epoch}
    (h : st.executeSynced d env pending epoch block = (.done, pending', st')) :
    Replayed d st pending epoch block pending' st' := by
  rcases hvalidate : d.app.validateBlock st.app block (blockContext block epoch) with ⟨ok, s⟩
  unfold executeSynced at h
  simp only [hvalidate] at h
  split at h
  · cases h
  next hok =>
  have hok : ok = true := by simpa using hok
  subst hok
  split at h
  · cases h
  next response s' calls hexec =>
  obtain ⟨happlied, rfl⟩ := executeCommittedBlock_eq_some.mp hexec
  have hcalls : lifecycle (.app (.validateBlock block (blockContext block epoch) true)
      :: (blockCalls block (blockContext block epoch) response).map .app)
        = blockCalls block (blockContext block epoch) response := lifecycle_blockCalls _ _ _
  by_cases hempty : response.validatorUpdates.isEmpty = true
  · rw [if_pos hempty] at h
    obtain ⟨rfl, store, effects, hstore, heffects, rfl⟩ := finishSynced_done h
    refine ⟨s, response, s', store, (.app (.validateBlock block (blockContext block epoch) true)
      :: (blockCalls block (blockContext block epoch) response).map .app) ++ effects, hvalidate,
      happlied, ?_, hstore, ?_, by simp [emits]⟩
    · rw [pendingAfter, if_pos hempty]
    · rw [lifecycle_append, hcalls, heffects, append_nil]
  · rw [if_neg hempty] at h
    split at h
    · next next hnext =>
        obtain ⟨rfl, store, effects, hstore, heffects, rfl⟩ := finishSynced_done h
        refine ⟨s, response, s', store, (.app (.validateBlock block (blockContext block epoch) true)
          :: (blockCalls block (blockContext block epoch) response).map .app) ++ effects, hvalidate,
          happlied, ?_, hstore, ?_, by simp [emits]⟩
        · rw [pendingAfter, if_neg hempty]
          exact congrArg (Except.map some) hnext
        · rw [lifecycle_append, hcalls, heffects, append_nil]
    · cases h

/-- A successful round stores its block and makes its callbacks. -/
lemma replayed_of_done (h : st.replayOne d env pending block qc = (.done, pending', st')) :
    st.checkSynced d (st.replayEpoch pending block) block qc = .ok ()
      ∧ ∃ effects, lifecycle effects = []
        ∧ Replayed d ((st.storeSynced block qc).emits effects) pending
        (st.replayEpoch pending block)
          block pending' st' := by
  unfold replayOne at h
  dsimp only at h
  split at h
  · cases h
  · next hcheck =>
      refine ⟨hcheck, ?_⟩
      split_ifs at h
      · exact ⟨_, rfl, executeSynced_done h⟩
      · cases h
      · cases h
      · exact ⟨[], rfl, executeSynced_done (by rw [emits_nil]; exact h)⟩

/-- **A round that succeeds.** -/
lemma round_of_done (h : st.replayOne d env pending block qc = (.done, pending', st')) :
    Round d st pending block qc pending' st' := by
  obtain ⟨hcheck, effects, -, s, response, s', store, effects', -, happlied, hpending, hstore, -,
    rfl⟩ := replayed_of_done h
  have hchecked := checkSynced_ok hcheck
  obtain ⟨cert, rfl, hhash, -⟩ := hchecked.cert
  have hstored := st.storeSynced_getBlockByHeight hhash
  refine ⟨hchecked, rfl, st.storeSynced_chainIdHash block (some cert), (hstore _).trans hstored,
    rfl, ?_⟩
  obtain ⟨s₁, s₂, -, hexec, -⟩ := happlied
  rcases pendingAfter_ok hpending with ⟨-, hsame⟩ | ⟨next, hnext, hnew⟩
  · exact .inl hsame
  · exact .inr ⟨next, response, s₁, s₂, hexec, hnext, hnew⟩

/-- A sequence of successful rounds. -/
inductive Rounds (d : SyncDeps σ) : SyncState σ → Option Epoch →
    List (Block × Option QuorumCertificate) → Option Epoch → SyncState σ → Prop
  | nil (st : SyncState σ) (pending : Option Epoch) : Rounds d st pending [] pending st
  | cons {st st₁ st' : SyncState σ} {pending pending₁ pending' : Option Epoch} {block : Block}
      {qc : Option QuorumCertificate} {blocks : List (Block × Option QuorumCertificate)}
      (hround : Round d st pending block qc pending₁ st₁)
      (hrest : Rounds d st₁ pending₁ blocks pending' st') :
      Rounds d st pending ((block, qc) :: blocks) pending' st'

lemma rounds_of_loop (h : st.replayLoop d env pending blocks = (.done, pending', st')) :
    Rounds d st pending blocks pending' st' := by
  induction blocks generalizing st pending with
  | nil =>
    obtain ⟨-, hrest⟩ := Prod.mk.inj h
    cases hrest
    exact .nil _ _
  | cons entry blocks ih =>
    obtain ⟨block, qc⟩ := entry
    rw [replayLoop] at h
    split at h
    · next pending₁ st₁ hone => exact .cons (round_of_done hone) (ih h)
    · next hstop => exact absurd h (hstop _ _)

/-- The loop gets to an entry, and every check of its round passes. -/
def Accepts (d : SyncDeps σ) (env : ℕ → Env) (st : SyncState σ)
    (blocks : List (Block × Option QuorumCertificate)) (block : Block)
    (qc : Option QuorumCertificate) : Prop :=
  ∃ before after pending st', blocks = before ++ (block, qc) :: after
    ∧ st.replayLoop d env st.pendingEpoch before = (.done, pending, st')
    ∧ st'.checkSynced d (st'.replayEpoch pending block) block qc = .ok ()

lemma accepts_of_loop (h : st.replayLoop d env pending blocks = (.done, pending', st'))
    (hentry : entry ∈ blocks) :
    ∃ before after pending₁ st₁, blocks = before ++ entry :: after
      ∧ st.replayLoop d env pending before = (.done, pending₁, st₁)
      ∧ st₁.checkSynced d (st₁.replayEpoch pending₁ entry.1) entry.1 entry.2 = .ok () := by
  induction blocks generalizing st pending with
  | nil => cases hentry
  | cons head blocks ih =>
    rw [replayLoop] at h
    split at h
    · next pending₁ st₁ hone =>
        rcases mem_cons.mp hentry with rfl | hentry
        · exact ⟨[], blocks, pending, st, rfl, rfl, (replayed_of_done hone).1⟩
        · obtain ⟨before, after, pending₂, st₂, rfl, hloop, hcheck⟩ := ih h hentry
          refine ⟨head :: before, after, pending₂, st₂, rfl, ?_, hcheck⟩
          rw [replayLoop, hone]
          exact hloop
    · next hstop => exact absurd h (hstop _ _)

end

/-- **A replay that succeeds accepts everything.** -/
theorem accepts_of_done {st : SyncState σ} (h : (st.replayBlocks d env blocks).1 = .done)
    (hentry : (block, qc) ∈ blocks) : st.Accepts d env blocks block qc := by
  unfold replayBlocks at h
  split at h
  · next pending st' hloop => exact accepts_of_loop hloop hentry
  · next hstop =>
      generalize st.replayLoop d env st.pendingEpoch blocks = result at h hstop
      obtain ⟨ending, pending, st'⟩ := result
      obtain rfl : ending = .done := h
      exact absurd rfl (hstop pending st')

/-- The entries in front of an accepted one are accepted. -/
lemma accepts_of_before {st st' : SyncState σ}
    {before rest : List (Block × Option QuorumCertificate)}
    (h : st.replayLoop d env st.pendingEpoch before = (.done, pending, st'))
    (hentry : entry ∈ before) :
    st.Accepts d env (before ++ rest) entry.1 entry.2 := by
  obtain ⟨front, back, pending₁, st₁, rfl, hloop, hcheck⟩ := accepts_of_loop h hentry
  exact ⟨front, back ++ rest, pending₁, st₁, by simp, hloop, hcheck⟩

/-! ### The chain of a replay -/

variable {st st₁ st' : SyncState σ} {pending pending₁ pending' : Option Epoch} {epoch : Epoch}
  {block : Block} {qc : Option QuorumCertificate}
  {blocks : List (Block × Option QuorumCertificate)} {B : Block → Prop}

/-- The committed block of a state, above genesis. -/
def Tip (st : SyncState σ) (block : Block) : Prop :=
  0 < block.height ∧ st.lastCommittedHeight = block.height
    ∧ st.store.getBlockByHeight block.height = some block

lemma Round.tip (h : Round d st pending block qc pending' st') : st'.Tip block := by
  have hheight := h.checked.height
  exact ⟨by omega, h.height, h.stored⟩

/-- A checked block extends the committed one. -/
lemma Checked.isParent {tip : Block} (h : Checked d st epoch block qc) (htip : st.Tip tip)
    (hB : B tip) : IsParent B block tip := by
  obtain ⟨hpos, hlast, hget⟩ := htip
  have hparent := h.parent
  have hheight := h.height
  rw [expectedParent, if_neg (by omega), hlast, hget] at hparent
  exact ⟨hB, Option.some.inj hparent, by omega⟩

/-- What is checked after some rounds descends from the block they started at. -/
lemma Rounds.descends {tip : Block} (h : Rounds d st pending blocks pending' st')
    (hlast : Checked d st' epoch block qc) (htip : st.Tip tip) (hB : B tip)
    (hblocks : ∀ entry ∈ blocks, B entry.1) : Ancestor B block tip := by
  induction h generalizing tip with
  | nil => exact .single (hlast.isParent htip hB)
  | cons hround _ ih =>
    have hhead := hblocks _ mem_cons_self
    refine Ancestor.trans (ih hlast hround.tip hhead fun entry hentry => ?_)
      (.single (hround.checked.isParent htip hB))
    exact hblocks entry (.tail _ hentry)

/-- **What is checked after some rounds descends from every block of them.** -/
lemma Rounds.ancestor (h : Rounds d st pending blocks pending' st')
    (hlast : Checked d st' epoch block qc) (hblocks : ∀ entry ∈ blocks, B entry.1)
    (entry : Block × Option QuorumCertificate) (hentry : entry ∈ blocks) :
    Ancestor B block entry.1 := by
  induction h with
  | nil => cases hentry
  | cons hround hrest ih =>
    have hrestB := fun entry hentry => hblocks entry (.tail _ hentry)
    rcases mem_cons.mp hentry with rfl | hentry
    · exact hrest.descends hlast hround.tip (hblocks _ mem_cons_self) hrestB
    · exact ih hlast hrestB hentry

/-- **Accepted blocks form a chain**: the lower of two is an ancestor of the
higher one. -/
theorem Accepts.ancestor {low high : Block} {qcLow qcHigh : Option QuorumCertificate}
    (hlow : st.Accepts d env blocks low qcLow) (hhigh : st.Accepts d env blocks high qcHigh)
    (hB : ∀ block qc, st.Accepts d env blocks block qc → B block)
    (hle : low.height ≤ high.height) : Ancestor B high low := by
  obtain ⟨before, after, pending, st₁, rfl, hloop, hcheck⟩ := hlow
  obtain ⟨before', after', pending', st₂, heq, hloop', hcheck'⟩ := hhigh
  have hbefore : ∀ entry ∈ before, B entry.1 := fun entry hentry =>
    hB entry.1 entry.2 (accepts_of_before hloop hentry)
  have hbefore' : ∀ entry ∈ before', B entry.1 := fun entry hentry =>
    hB entry.1 entry.2 (heq ▸ accepts_of_before hloop' hentry)
  -- one of the two comes in front of the other
  rcases append_eq_append_iff.mp heq with ⟨mid, hmid, hrest⟩ | ⟨mid, hmid, hrest⟩
  · cases mid with
    | nil =>
      obtain ⟨hentry, -⟩ := cons.inj hrest
      cases hentry
      exact .refl
    | cons entry mid =>
      obtain ⟨rfl, -⟩ := cons.inj hrest
      exact (rounds_of_loop hloop').ancestor (checkSynced_ok hcheck') hbefore'
        (low, qcLow) (hmid ▸ by simp)
  · cases mid with
    | nil =>
      obtain ⟨hentry, -⟩ := cons.inj hrest
      cases hentry
      exact .refl
    | cons entry mid =>
      obtain ⟨rfl, -⟩ := cons.inj hrest
      have hanc : Ancestor B low high := (rounds_of_loop hloop).ancestor (checkSynced_ok hcheck)
        hbefore (high, qcHigh) (hmid ▸ by simp)
      rw [hanc.eq_of_height (le_antisymm hanc.height_le hle)]
      exact .refl

/-! ### One validator set -/

/-- The epochs of a replay have one set. -/
structure EpochsFixed (vs : ValidatorSet) (st : SyncState σ) (pending : Option Epoch) : Prop where
  current : st.currentEpoch.validatorSet = vs
  pending : ∀ epoch, pending = some epoch → epoch.validatorSet = vs

variable {vs : ValidatorSet}

lemma EpochsFixed.replayEpoch (h : EpochsFixed vs st pending) (block : Block) :
    (st.replayEpoch pending block).validatorSet = vs := by
  unfold SyncState.replayEpoch
  split
  · next epoch =>
      split_ifs
      · exact h.pending epoch rfl
      · exact h.current
  · exact h.current

/-- A round keeps the set when the application does. -/
lemma EpochsFixed.round (happ : d.app.KeepsSet vs) (h : EpochsFixed vs st pending)
    (hround : Round d st pending block qc pending' st') : EpochsFixed vs st' pending' := by
  have hkept : ∀ epoch, (if activatesEpoch pending block then none else pending) = some epoch →
      epoch.validatorSet = vs := by
    intro epoch heq
    split_ifs at heq
    exact h.pending epoch heq
  refine ⟨by rw [hround.currentEpoch]; exact h.replayEpoch block, fun epoch heq => ?_⟩
  rcases hround.pending with hsame | ⟨next, response, s, s', hexec, hchained, hnew⟩
  · exact hkept epoch (hsame ▸ heq)
  · obtain rfl := Option.some.inj (hnew.symm.trans heq)
    exact chainedPendingEpoch_fixed (h.replayEpoch block) hkept
      (fun vs' => happ _ _ _ _ _ vs' hexec) hchained

/-- So do the rounds of a replay. -/
lemma Rounds.epochsFixed (happ : d.app.KeepsSet vs) (h : Rounds d st pending blocks pending' st')
    (hfixed : EpochsFixed vs st pending) :
    EpochsFixed vs st' pending' ∧ st'.chainIdHash = st.chainIdHash := by
  induction h with
  | nil => exact ⟨hfixed, rfl⟩
  | cons hround _ ih =>
    obtain ⟨hset, hchain⟩ := ih (hfixed.round happ hround)
    exact ⟨hset, hchain.trans hround.chainIdHash⟩

lemma Accepts.mem (h : st.Accepts d env blocks block qc) : (block, qc) ∈ blocks := by
  obtain ⟨before, after, -, -, rfl, -⟩ := h
  simp

/-- **Every accepted block is certified by the one validator set.** -/
theorem Accepts.certified (happ : d.app.KeepsSet vs) (h : st.Accepts d env blocks block qc)
    (hfixed : EpochsFixed vs st st.pendingEpoch) :
    block.hash = d.crypto.computeHash block ∧ ∃ cert, qc = some cert
      ∧ cert.blockHash = block.hash ∧ Sync.verifyVoteAggregate d.crypto st.chainIdHash vs
        cert.epoch cert.view cert.blockHash .vote cert.aggregateSignature = true := by
  obtain ⟨before, after, pending, st', -, hloop, hcheck⟩ := h
  have hchecked := checkSynced_ok hcheck
  obtain ⟨hset, hchain⟩ := (rounds_of_loop hloop).epochsFixed happ hfixed
  obtain ⟨cert, hcert, hhash, hverify⟩ := hchecked.cert
  rw [Sync.verifyVoteQc, hset.replayEpoch block, hchain, Bool.and_eq_true] at hverify
  exact ⟨hchecked.hash, cert, hcert, hhash, hverify.2⟩

end SyncState

end Hotmint
