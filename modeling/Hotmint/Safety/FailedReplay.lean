/-
A replay that fails (`replay_blocks` in `sync.rs`):

* `SyncState.recovery`: what a recovery check of the log answers against the committed
  height;
* `SyncState.SameOutcome`: the same height, state root, epochs and recovery answer;
* `SyncState.LogsIntent`: the intent of a block gets into the log;
* `failed_replay_unchanged`: **a replay that fails before it executes a block leaves what
  the blocks before it leave, unless it logged the intent of that block**;
* `vetoed_replay_needs_recovery`: a block that the application rejects leaves an intent.
-/
import Hotmint.Safety.CatchUp
import Hotmint.Safety.LiveReplay

namespace Hotmint

open Sample List
variable {σ : Type}
variable {block : Block} {pending' : Option Epoch} {err : SyncError} {st st' : SyncState σ}
variable {effects effects' : List Effect} {pending : Option Epoch} {qc : Option QuorumCertificate}

/-- Errors of a round that has begun to execute its block. -/
def SyncError.executed : SyncError → Bool
  | .invalidUpdates _ _ | .walDone _ => true
  | _ => false

namespace SyncState

/-- The answer of `reconcile_with_committed_height`. -/
def recovery (st : SyncState σ) : WalRecovery :=
  checkRecovery (Disk.after st.trace).wal st.lastCommittedHeight

/-- Two states that a caller of `replay_blocks` cannot tell apart. -/
structure SameOutcome (st st' : SyncState σ) : Prop where
  lastCommittedHeight : st'.lastCommittedHeight = st.lastCommittedHeight
  lastAppHash : st'.lastAppHash = st.lastAppHash
  currentEpoch : st'.currentEpoch = st.currentEpoch
  previousEpoch : st'.previousEpoch = st.previousEpoch
  pendingEpoch : st'.pendingEpoch = st.pendingEpoch
  recovery : st'.recovery = st.recovery

/-- The intent of a block that was checked is written to the log. -/
def LogsIntent (d : SyncDeps σ) (env : ℕ → Env) (st : SyncState σ) (block : Block)
    (qc : Option QuorumCertificate) : Prop :=
  d.hasWal = true ∧ st.checkSynced d (st.replayEpoch st.pendingEpoch block) block qc = .ok ()
    ∧ ((env block.height).walIntentOk = true ∨ d.intentStays block.height = true)

variable {d : SyncDeps σ} {env : ℕ → Env}

/-- A state that differs in the store, the application and effects of the trace only. -/
def Aside (st : SyncState σ) (effects : List Effect) (st' : SyncState σ) : Prop :=
  ∃ store app, st' = { st with store, app, trace := st.trace ++ effects }

/-- Storing a block does not concern the log. -/
lemma storeSynced_aside (st : SyncState σ) (block : Block) (qc : Option QuorumCertificate) :
    ∃ effects, st.Aside effects (st.storeSynced block qc) ∧ ∀ e ∈ effects, e.free = true := by
  cases qc with
  | none =>
    exact ⟨[.putBlock block, .flush], ⟨st.store.putBlock block, st.app, by
      simp [storeSynced, emits]⟩, by simp [Effect.free]⟩
  | some cert =>
    exact ⟨[.putBlock block, .putCommitQc block.height cert, .flush],
      ⟨(st.store.putBlock block).putCommitQc block.height cert, st.app, by
        simp [storeSynced, emits]⟩, by simp [Effect.free]⟩

lemma Aside.trans {st₁ st₂ : SyncState σ} (h : st.Aside effects st₁) (h' : st₁.Aside effects' st₂) :
    st.Aside (effects ++ effects') st₂ := by
  obtain ⟨store, app, rfl⟩ := h
  obtain ⟨store', app', rfl⟩ := h'
  exact ⟨store', app', by rw [append_assoc]⟩

lemma emits_aside (st : SyncState σ) (effects : List Effect) :
    st.Aside effects (st.emits effects) :=
  ⟨st.store, st.app, rfl⟩

lemma finishSynced_error {response : EndBlockResponse}
    (h : st.finishSynced d env block pending response = (.error err, pending', st')) :
    err.executed = true := by
  unfold finishSynced at h
  dsimp only at h
  split_ifs at h
  · cases h
    rfl
  all_goals cases h

/-- Before it executes a block, a round fails only by a veto of the application. -/
lemma executeSynced_error {epoch : Epoch}
    (h : st.executeSynced d env pending epoch block = (.error err, pending', st'))
    (herr : err.executed = false) :
    ∃ ctx ok, st.Aside [.app (.validateBlock block ctx ok)] st' := by
  rcases hvalidate : d.app.validateBlock st.app block (blockContext block epoch) with ⟨ok, s⟩
  unfold executeSynced at h
  simp only [hvalidate] at h
  split at h
  · obtain ⟨-, hrest⟩ := Prod.mk.inj h
    cases hrest
    exact ⟨_, ok, st.store, s, rfl⟩
  split at h
  · cases h
  next response s' calls hexec =>
  -- from here on the block is executed
  exfalso
  by_cases hempty : response.validatorUpdates.isEmpty = true
  · rw [if_pos hempty] at h
    rw [finishSynced_error h] at herr
    cases herr
  · rw [if_neg hempty] at h
    split at h
    · rw [finishSynced_error h] at herr
      cases herr
    · cases h
      cases herr

/-- **A round that fails before it executes its block** changes only the store, the
application and the trace; it concerns the log if and only if the intent was written. -/
lemma replayOne_error
    (h : st.replayOne d env st.pendingEpoch block qc = (.error err, pending', st'))
    (herr : err.executed = false) : (¬ st.LogsIntent d env block qc
        ∧ ∃ effects, st.Aside effects st' ∧ ∀ e ∈ effects, e.free = true)
      ∨ (st.LogsIntent d env block qc ∧ ∃ effects effects',
        st.Aside (effects ++ .walWrite (.commitIntent block.height) :: effects') st'
          ∧ (∀ e ∈ effects, e.free = true) ∧ ∀ e ∈ effects', e.free = true) := by
  obtain ⟨stored, hstored, hfree⟩ := st.storeSynced_aside block qc
  have hcall : ∀ ctx ok, ∀ e ∈ [Effect.app (.validateBlock block ctx ok)], e.free = true := by
    intro ctx ok e he
    rw [mem_singleton.mp he]
    rfl
  unfold replayOne at h
  dsimp only at h
  split at h
  · next err' hcheck =>
      cases h
      refine .inl ⟨fun hlogs => ?_, [], ⟨st.store, st.app, by rw [append_nil]⟩, nofun⟩
      rw [hlogs.2.1] at hcheck
      cases hcheck
  · next hcheck =>
      split_ifs at h with hwal hintent hstays
      · obtain ⟨ctx, ok, haside⟩ := executeSynced_error h herr
        refine .inr ⟨⟨hwal, hcheck, .inl hintent⟩, stored, [.app (.validateBlock block ctx ok)],
          ?_, hfree, hcall ctx ok⟩
        have hlogged := hstored.trans (emits_aside _ [.walWrite (.commitIntent block.height)])
        have hall := hlogged.trans haside
        rwa [append_assoc] at hall
      · cases h
        exact .inr ⟨⟨hwal, hcheck, .inr hstays⟩, stored, [], hstored.trans (emits_aside _ _), hfree,
          nofun⟩
      · cases h
        exact .inl ⟨fun hlogs => hlogs.2.2.elim hintent hstays, stored, hstored, hfree⟩
      · obtain ⟨ctx, ok, haside⟩ := executeSynced_error h herr
        refine .inl ⟨fun hlogs => hwal hlogs.1, _, hstored.trans haside, fun e he => ?_⟩
        exact (mem_append.mp he).elim (hfree e) (hcall ctx ok e)

/-- A loop that fails has replayed the blocks before the one it fails at. -/
lemma replayLoop_error {blocks : List (Block × Option QuorumCertificate)}
    (h : st.replayLoop d env st.pendingEpoch blocks = (.error err, pending', st')) :
    ∃ before block qc after st₁, blocks = before ++ (block, qc) :: after
      ∧ st.replayLoop d env st.pendingEpoch before = (.done, st₁.pendingEpoch, st₁)
      ∧ st₁.replayOne d env st₁.pendingEpoch block qc = (.error err, pending', st') := by
  induction blocks generalizing st with
  | nil => cases h
  | cons entry blocks ih =>
    obtain ⟨block, qc⟩ := entry
    rw [replayLoop] at h
    split at h
    · next pending₁ st₁ hone =>
        obtain rfl := pendingEpoch_of_done hone
        obtain ⟨before, block', qc', after, st₂, rfl, hloop, herror⟩ := ih h
        refine ⟨(block, qc) :: before, block', qc', after, st₂, rfl, ?_, herror⟩
        rw [replayLoop, hone]
        exact hloop
    · exact ⟨[], block, qc, blocks, st, rfl, rfl, h⟩

/-- Effects that leave the log alone. -/
lemma wal_after_free (trace : List Effect) (h : ∀ e ∈ effects, e.free = true) :
    (Disk.after (trace ++ effects)).wal = (Disk.after trace).wal := by
  rw [Disk.after_append]
  generalize Disk.after trace = disk
  induction effects generalizing disk with
  | nil => rfl
  | cons e effects ih =>
    rw [foldl_cons, ih fun e' he => h e' (.tail _ he)]
    exact (disk.apply_free (h e mem_cons_self)).2.1

/-- The recovery check after an intent that was not completed. -/
lemma recovery_of_intent {trace : List Effect} {height : ℕ}
    (htrace : st.trace = trace ++ (effects ++ .walWrite (.commitIntent height) :: effects'))
    (hfree : ∀ e ∈ effects', e.free = true) (hlt : st.lastCommittedHeight < height) :
    st.recovery = .needsReplay height := by
  have hwal : (Disk.after st.trace).wal
      = (Disk.after (trace ++ effects)).wal ++ [.commitIntent height] := by
    rw [htrace, append_cons, ← append_assoc, wal_after_free _ hfree, ← append_assoc,
      Disk.after_concat]
    rfl
  rw [recovery, checkRecovery, hwal, getLast?_concat]
  exact if_neg (Nat.not_le.mpr hlt)

/-- A round that fails before it executes its block. -/
lemma sameOutcome_iff
    (h : st.replayOne d env st.pendingEpoch block qc = (.error err, pending', st'))
    (herr : err.executed = false) :
    st.SameOutcome st' ↔ ¬ st.LogsIntent d env block qc ∨ st.recovery = .needsReplay block.height :=
    by
  rcases replayOne_error h herr with ⟨hnot, effects, ⟨store, app, rfl⟩, hfree⟩
    | ⟨hlogs, effects, effects', ⟨store, app, rfl⟩, -, hfree⟩
  · refine iff_of_true ⟨rfl, rfl, rfl, rfl, rfl, ?_⟩ (.inl hnot)
    unfold recovery
    dsimp only
    rw [wal_after_free _ hfree]
  · have hheight := (checkSynced_ok hlogs.2.1).height
    set st' : SyncState σ := { st with
      store, app
      trace := st.trace ++ (effects ++ .walWrite (.commitIntent block.height) :: effects') }
    have hrecovery : st'.recovery = .needsReplay block.height :=
      recovery_of_intent rfl hfree (by rw [hheight]; exact Nat.lt_succ_self _)
    constructor
    · intro hsame
      exact .inr (hsame.recovery.symm.trans hrecovery)
    · rintro (hnot | hsame)
      · exact absurd hlogs hnot
      · exact ⟨rfl, rfl, rfl, rfl, rfl, hrecovery.trans hsame.symm⟩

end SyncState

/-- **A failed replay leaves no trace**, unless it logged an intent.  A replay that fails
before it executes a block has replayed the blocks before it; the committed height, the
state root, the epochs and the answer of a recovery check are those after these blocks
if and only if the failing block's intent was not written to the log (or the log asked
for its replay before). -/
theorem failed_replay_unchanged (d : SyncDeps σ) (env : ℕ → Env) (st : SyncState σ)
    (blocks : List (Block × Option QuorumCertificate)) (err : SyncError) (pending : Option Epoch)
    (st' : SyncState σ) (h : st.replayBlocks d env blocks = (.error err, pending, st'))
    (herr : err.executed = false) :
    ∃ before block qc after pending₁ st₁, blocks = before ++ (block, qc) :: after
      ∧ st.replayBlocks d env before = (.done, pending₁, st₁)
      ∧ (st₁.replayOne d env pending₁ block qc).1 = .error err
      ∧ (st₁.SameOutcome st'
        ↔ ¬ st₁.LogsIntent d env block qc ∨ st₁.recovery = .needsReplay block.height) := by
  have hloop : st.replayLoop d env st.pendingEpoch blocks = (.error err, pending, st') := by
    unfold SyncState.replayBlocks at h
    split at h
    · cases h
    · exact h
  obtain ⟨before, block, qc, after, st₁, hblocks, hdone, herror⟩ := SyncState.replayLoop_error hloop
  refine ⟨before, block, qc, after, st₁.pendingEpoch, st₁, hblocks, ?_, by rw [herror],
    SyncState.sameOutcome_iff herror herr⟩
  rw [SyncState.replayBlocks, hdone]

open Network

/-- A block without certificate is refused, and nothing has happened. -/
theorem failed_replay_unchanged_missingQc :
    (syncStart.replayBlocks syncDeps (fun _ => env) [(settled, none)]).1 = .error (.missingQc 1)
      ∧ ∃ before block qc after pending₁ st₁, [(settled, none)] = before ++ (block, qc) :: after
        ∧ syncStart.replayBlocks syncDeps (fun _ => env) before = (.done, pending₁, st₁)
        ∧ (st₁.replayOne syncDeps (fun _ => env) pending₁ block qc).1 = .error (.missingQc 1)
        ∧ (st₁.SameOutcome syncStart ↔ ¬ st₁.LogsIntent syncDeps (fun _ => env) block qc
          ∨ st₁.recovery = .needsReplay block.height) :=
  ⟨rfl, failed_replay_unchanged syncDeps (fun _ => env) syncStart [(settled, none)]
    (.missingQc 1) none syncStart rfl rfl⟩

/-- A client whose application rejects every block. -/
def vetoDeps : SyncDeps Unit :=
  let app : Application Unit :=
    { application fun _ => [] with validateBlock := fun _ _ _ => (false, ()) }
  { syncDeps with app }

/-- **A veto leaves an intent.**  The application rejects a certified block; nothing was
executed, but the log now asks for a replay of its height. -/
theorem vetoed_replay_needs_recovery :
    let r := syncStart.replayBlocks vetoDeps (fun _ => env)
      [(settled, some (loneQc settled))]
    r.1 = .error (.appRejected 1) ∧ r.2.2.recovery = .needsReplay 1
      ∧ (syncStart.replayBlocks vetoDeps (fun _ => env) []).2.2.recovery = .clean := by
  decide +kernel

end Hotmint
