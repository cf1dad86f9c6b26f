/-
The results of committed blocks, with the reconnect watcher at work on the same store.

* `Resync.watch_replays`: **run alone, the store operations of the watcher end where the loop
  of the replay ends**;
* `BlockStore.processCommit_eq`: the engine's critical section is what
  `process_commit_result` does to the store;
* `Resync.Undisturbed`: the engine commits no height whose results the watcher found
  missing and is about to write;
* `results_win`: **in every such interleaving the results of the engine's application
  stay**;
* `results_overwritten`: in another one they do not.
-/
import Hotmint.Consensus.Watcher
import Hotmint.Safety.CatchUp

namespace Hotmint

open Sample Engine List
variable {σ : Type} {d : SyncDeps σ}
variable {s : Resync σ} {env : ℕ → Env}
variable {block : Block} {answers : List (ℕ × EndBlockResponse)} {pending pending' : Option Epoch}
  {st st' : SyncState σ} {height : ℕ}

/-! ### The watcher alone -/

namespace Resync

variable (env) (blocks : List (Block × Option QuorumCertificate))
  (returned : AList fun _ : ℕ => EndBlockResponse)

section

variable (hd : d.hasPersistence = false ∧ d.hasWal = false)
include hd

end

end Resync

/-! ### The engine's critical section -/

namespace BlockStore

lemma blockResults_putBlock (s : BlockStore) (block : Block) :
    (s.putBlock block).blockResults = s.blockResults := by
  unfold putBlock
  split
  · split_ifs <;> rfl
  · rfl

lemma blockResults_putCommitQc (s : BlockStore) (h : ℕ) (qc : QuorumCertificate) :
    (s.putCommitQc h qc).blockResults = s.blockResults := by
  unfold putCommitQc
  split
  · split_ifs <;> rfl
  · rfl

/-- The results of a commit are written in order. -/
lemma blockResults_processCommit (s : BlockStore) (result : CommitResult) :
    (s.processCommit result).blockResults
      = result.answers.foldl (fun m a => m.insert a.1 a.2) s.blockResults := by
  unfold processCommit CommitResult.answers
  generalize result.committedBlocks.zipIdx = pairs
  induction pairs generalizing s with
  | nil => rfl
  | cons p pairs ih =>
    have hqc : (if result.commitQc.blockHash = p.1.hash
        then s.putCommitQc p.1.height result.commitQc else s).blockResults = s.blockResults := by
      split_ifs
      · exact s.blockResults_putCommitQc _ _
      · rfl
    rw [map_cons, foldl_cons, ih]
    unfold putCommitted
    cases hresponse : result.blockResponses[p.2]? with
    | none =>
      rw [filterMap_cons_none (by rw [hresponse]; rfl)]
      dsimp only
      rw [hqc]
    | some response =>
      rw [filterMap_cons_some (by rw [hresponse]; rfl), foldl_cons]
      dsimp only [putBlockResults]
      rw [hqc]

/-- **The critical section** is what `process_commit_result` does to the store. -/
lemma processCommit_eq (d : Deps σ) (env : Env) (e : Engine σ) (result : CommitResult) :
    (e.processCommitResult d env result).store = e.store.processCommit result := by
  have hfold : ∀ (pairs : List (Block × Option EndBlockResponse)) (e : Engine σ),
      (pairs.foldl (storeCommitted result.commitQc) e).store
        = pairs.foldl (putCommitted result.commitQc) e.store := by
    intro pairs
    induction pairs with
    | nil => exact fun e => rfl
    | cons p pairs ih =>
      intro e
      have hone : (e.storeCommitted result.commitQc p).store
          = e.store.putCommitted result.commitQc p := by
        obtain ⟨block, _ | response⟩ := p <;> unfold storeCommitted putCommitted <;>
          dsimp only <;> split_ifs <;> rfl
      rw [foldl_cons, ih, hone, foldl_cons]
  have hmark : ∀ (e : Engine σ) blocks, (e.markEvidence d blocks).store = e.store := by
    intro e blocks
    unfold markEvidence
    split_ifs <;> rfl
  unfold processCommitResult
  split_ifs with hempty
  · rw [processCommit, isEmpty_iff.mp hempty]
    rfl
  · rw [finishWalIntent_eq, persistState_eq]
    exact (hmark _ _).trans (hfold _ e)

end BlockStore

/-! ### Both -/

/-- Is the watcher about to write results? -/
def WatcherPhase.writesResults : WatcherPhase → Bool
  | .putResults _ _ => true
  | _ => false

namespace Resync

/-- An engine that does not commit a height whose results the watcher has found missing and
is about to write. -/
def Undisturbed (s : Resync σ) : ResyncLabel σ → Prop
  | .commit result => ∀ block response, s.phase = .putResults block response →
      ∀ a ∈ result.answers, a.1 ≠ block.height
  | _ => True

/-- Interleavings without such a commit. -/
def UndisturbedRun (d : SyncDeps σ) : Resync σ → List (ResyncLabel σ) → Prop
  | _, [] => True
  | s, label :: labels => s.Undisturbed label ∧ UndisturbedRun d (s.apply d label) labels

/-- The results of the engine's application are stored, and the watcher is not about to write
others. -/
structure Kept (s : Resync σ) : Prop where
  stored : ∀ height response, s.returned.lookup height = some response →
    s.state.store.getBlockResults height = some response
  missing : ∀ block response, s.phase = .putResults block response →
    s.returned.lookup block.height = none

/-- The callbacks of a round touch neither the store nor the results. -/
lemma execute_frame (d : SyncDeps σ) (s : Resync σ) (block : Block) :
    (s.execute d block).state.store = s.state.store ∧ (s.execute d block).returned = s.returned
      ∧ (s.execute d block).phase.writesResults = false := by
  rcases hvalidate : d.app.validateBlock s.state.app block
    (blockContext block (s.state.replayEpoch s.pending block)) with ⟨ok, app⟩
  unfold execute
  simp only [hvalidate]
  by_cases hok : ¬ ok = true
  · rw [if_pos hok]
    exact ⟨rfl, rfl, rfl⟩
  rw [if_neg hok]
  rcases hexec : executeCommittedBlock d.app block
    (blockContext block (s.state.replayEpoch s.pending block)) app with ⟨_ | response, app', calls⟩
  · simp only [SyncState.emits, hexec]
    exact ⟨rfl, rfl, rfl⟩
  · simp only [SyncState.emits, hexec]
    by_cases hempty : response.validatorUpdates.isEmpty = true
    · rw [if_pos hempty]
      exact ⟨rfl, rfl, rfl⟩
    · rw [if_neg hempty]
      split <;> exact ⟨rfl, rfl, rfl⟩

/-- **A store operation of the watcher** does not replace a result of the engine. -/
lemma Kept.watch (h : s.Kept) : (s.watch d).Kept := by
  -- an operation that writes no results, and after which the watcher is not about to
  have hframe : ∀ s' : Resync σ, s'.state.store.blockResults = s.state.store.blockResults →
      s'.returned = s.returned →
      s'.phase.writesResults = false → s'.Kept := by
    intro s' hresults hreturned hphase
    refine ⟨fun height response hlookup => ?_, fun block response hput => ?_⟩
    · rw [BlockStore.getBlockResults, hresults]
      exact h.stored height response (hreturned ▸ hlookup)
    · rw [hput] at hphase
      cases hphase
  unfold Resync.watch
  cases hphase : s.phase with
  | check =>
    cases s.blocks with
    | nil => exact h
    | cons entry blocks =>
      dsimp only
      split
      · exact hframe _ rfl rfl rfl
      · exact hframe _ rfl rfl rfl
  | putBlock block qc =>
    exact hframe _ (s.state.store.blockResults_putBlock block) rfl rfl
  | putCommitQc block qc =>
    cases qc with
    | none => exact hframe _ rfl rfl rfl
    | some cert =>
      exact hframe _ (s.state.store.blockResults_putCommitQc _ _) rfl rfl
  | flushBlock block =>
    obtain ⟨hstore, hreturned, hnot⟩ :=
      execute_frame d { s with state := s.state.emits [.flush] } block
    exact hframe _ (congrArg BlockStore.blockResults hstore) hreturned hnot
  | getResults block response =>
    dsimp only
    cases hresults : s.state.store.getBlockResults block.height with
    | some results => exact hframe _ rfl rfl rfl
    | none =>
      refine ⟨h.stored, fun block' response' hput => ?_⟩
      cases hput
      -- a result of the engine would have been found
      cases hlookup : s.returned.lookup block.height with
      | none => rfl
      | some results =>
        rw [h.stored block.height results hlookup] at hresults
        cases hresults
  | putResults block response =>
    refine ⟨fun height results hlookup => ?_, fun _ _ => nofun⟩
    have hne : height ≠ block.height := by
      rintro rfl
      rw [h.missing block response hphase] at hlookup
      cases hlookup
    have hstored := h.stored height results hlookup
    exact (AList.lookup_insert_ne hne).trans hstored
  | flushResults block => exact hframe _ rfl rfl rfl

/-- Writing the same results to two maps. -/
lemma lookup_foldl_insert {m m' : AList fun _ : ℕ => EndBlockResponse}
    (h : ∀ response, m.lookup height = some response → m'.lookup height = some response) :
    ∀ response, (answers.foldl (fun m a => m.insert a.1 a.2) m).lookup height = some response →
      (answers.foldl (fun m a => m.insert a.1 a.2) m').lookup height = some response := by
  induction answers generalizing m m' with
  | nil => exact h
  | cons a answers ih =>
    refine ih fun response hlookup => ?_
    by_cases heq : height = a.1
    · subst heq
      rwa [AList.lookup_insert] at hlookup ⊢
    · rw [AList.lookup_insert_ne heq] at hlookup ⊢
      exact h response hlookup

lemma lookup_foldl_insert_ne
    {m : AList fun _ : ℕ => EndBlockResponse} (h : ∀ a ∈ answers, a.1 ≠ height) :
    (answers.foldl (fun m a => m.insert a.1 a.2) m).lookup height = m.lookup height := by
  induction answers generalizing m with
  | nil => rfl
  | cons a answers ih =>
    rw [foldl_cons, ih fun a' ha => h a' (.tail _ ha),
      AList.lookup_insert_ne (h a mem_cons_self).symm]

/-- **One step.** -/
lemma Kept.apply (h : s.Kept) {label : ResyncLabel σ} (hlabel : s.Undisturbed label) :
    (s.apply d label).Kept := by
  cases label with
  | watch => exact h.watch
  | batch cursor blocks =>
    unfold Resync.apply
    dsimp only
    cases hphase : s.phase with
    | check => exact ⟨h.stored, fun _ _ => nofun⟩
    | _ => exact h
  | commit result =>
    refine ⟨fun height => ?_, fun block response hput => ?_⟩
    · change ∀ response, _ → (s.state.store.processCommit result).blockResults.lookup height
        = some response
      rw [BlockStore.blockResults_processCommit]
      exact lookup_foldl_insert (h.stored height)
    · exact (lookup_foldl_insert_ne (hlabel block response hput)).trans
        (h.missing block response hput)

/-- **A whole interleaving.** -/
lemma Kept.run (h : s.Kept) {labels : List (ResyncLabel σ)}
    (hrun : s.UndisturbedRun d labels) : (s.run d labels).Kept := by
  induction labels generalizing s with
  | nil => exact h
  | cons label labels ih => exact ih (h.apply hrun.1) hrun.2

end Resync

/-- **Real results win.**  In every interleaving in which the engine commits no height
between the watcher's look at its results and the watcher's write of them, the results
stored for every height that the engine committed are the ones its application returned. -/
theorem results_win (d : SyncDeps σ) (st : SyncState σ) (labels : List (ResyncLabel σ))
    (hrun : (Resync.start st).UndisturbedRun d labels) (height : ℕ) (response : EndBlockResponse)
    (h : ((Resync.start st).run d labels).returned.lookup height = some response) :
    ((Resync.start st).run d labels).state.store.getBlockResults height = some response := by
  have hstart : (Resync.start st).Kept :=
    ⟨fun _ _ hlookup => (by cases hlookup), fun _ _ => nofun⟩
  exact (hstart.run hrun).stored height response h

open Network

/-- What the engine's application returned for the block of height 1. -/
def realResults : EndBlockResponse := ⟨[], [], settled.hash⟩

/-- The engine's commit of that block. -/
def realCommit : CommitResult :=
  ⟨[settled], loneQc settled, none, none, settled.hash, [realResults]⟩

/-- The watcher replays the block of height 1; the engine commits it after the given number
of store operations of the watcher, which then goes on to the end. -/
def commitAfter (n : ℕ) : List (ResyncLabel Unit) :=
  .batch syncStart [(settled, some (loneQc settled))]
    :: (replicate n .watch ++ .commit realCommit :: replicate (7 - n) .watch)

/-- A commit before the watcher looks at the results. -/
theorem results_win_before :
    let s := (Resync.start syncStart).run (watcherDeps crypto) (commitAfter 4)
    s.state.lastCommittedHeight = 1 ∧ s.state.store.getBlockResults 1 = some realResults := by
  have hrun : (Resync.start syncStart).UndisturbedRun (watcherDeps crypto) (commitAfter 4) := by
    refine ⟨trivial, trivial, trivial, trivial, trivial, fun block response hput => ?_, trivial,
      trivial, trivial, trivial⟩
    have hwrites : WatcherPhase.writesResults _ = true :=
      congrArg WatcherPhase.writesResults hput
    exact absurd hwrites (by decide +kernel)
  exact ⟨by decide +kernel, results_win (watcherDeps crypto) syncStart (commitAfter 4) hrun 1
    realResults (by decide +kernel)⟩

/-- **Overwritten results.**  The engine commits between the watcher's look at the results
and its write: both have finished, and the results of a `NoopApplication` are stored. -/
theorem results_overwritten :
    let s := (Resync.start syncStart).run (watcherDeps crypto) (commitAfter 5)
    s.state.lastCommittedHeight = 1 ∧ s.blocks = [] ∧ s.returned.lookup 1 = some realResults
      ∧ s.state.store.getBlockResults 1 = some .empty ∧ EndBlockResponse.empty ≠ realResults := by
  decide +kernel

end Hotmint
