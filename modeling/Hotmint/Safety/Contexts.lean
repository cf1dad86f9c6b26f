/-
The contexts that blocks are executed with.

* `answers`: the executed blocks of a trace with their contexts and answers;
* `ChainEpochs`: the active and the pending epoch that a chain leads to, from its blocks
  and the answers to them alone;
* `Tracks`: the epochs of the execution loop are those of the chain, or the pending one
  has started early, by a view change;
* `Orderly`: views increase, and no block makes an epoch while another one is pending;
* `contexts_of_chain`: **then every block is executed in the epoch of the chain**, however
  commits are batched and views change;
* `execution_contexts_agree`: **so two runs execute a common chain with the same contexts**;
* `contexts_differ`: with updates in two consecutive views they do not.
-/
import Mathlib.Data.List.Induction
import Hotmint.Consensus.Sample
import Hotmint.Proof.Durable
import Hotmint.Proof.Schedule

namespace Hotmint

open Sample List ExecState
variable {σ : Type} {d : Deps σ} {app : Application σ}
variable {e : Engine σ} {epoch first : Epoch} {runs : List (Block × EndBlockResponse)}
variable {m : Engine σ} {x : ExecState σ} {runs' : List (Block × EndBlockResponse)}
  {cfg : NodeConfig} {pending previous : Option Epoch} {executed : List Answer}

/-! ### Executed blocks -/

/-- A block that was executed, with its context and the answer of the application. -/
structure Answer where
  block : Block
  context : BlockContext
  response : EndBlockResponse

/-- The block of an answer with the response to it. -/
def Answer.run (a : Answer) : Block × EndBlockResponse := (a.block, a.response)

/-- The updates of an answer. -/
def Answer.updates (a : Answer) : List ValidatorUpdate := a.response.validatorUpdates

/-- The answer to an executed block. -/
def Effect.answer : Effect → Option Answer
  | .app (.executeBlock block ctx (some response)) => some ⟨block, ctx, response⟩
  | _ => none

/-- The blocks executed in a trace with their contexts and answers, in order. -/
def answers (trace : List Effect) : List Answer := trace.filterMap Effect.answer

@[simp] lemma answers_append (t t' : List Effect) : answers (t ++ t') = answers t ++ answers t' :=
  filterMap_append

lemma ranBlocks_eq_answers (trace : List Effect) :
    ranBlocks trace = (answers trace).map Answer.run := by
  unfold ranBlocks answers
  rw [map_filterMap]
  congr 1
  funext effect
  cases effect with
  | app call =>
    cases call with
    | executeBlock block ctx response => cases response <;> rfl
    | _ => rfl
  | _ => rfl

/-- Where nothing was executed, nothing was answered. -/
lemma answers_of_ranBlocks {effects : List Effect} (h : ranBlocks effects = []) :
    answers effects = [] := by
  rw [ranBlocks_eq_answers, map_eq_nil_iff] at h
  exact h

lemma answers_blockCalls (block : Block) (ctx : BlockContext) (response : EndBlockResponse) :
    answers ((blockCalls block ctx response).map .app) = [⟨block, ctx, response⟩] := by
  rw [blockCalls, map_append, answers_append, answers, filterMap_evidence fun _ => rfl]
  rfl

/-! ### The epochs of a chain -/

/-- What a first part of the blocks announces is defined if the whole is. -/
lemma isOk_announce_left
    (h : (announce first (runs ++ runs')).isOk = true) : (announce first runs).isOk = true := by
  unfold announce at h ⊢
  rw [foldlM_append] at h
  cases hruns : runs.foldlM announceOne first with
  | ok epoch => rfl
  | error err =>
    rw [hruns] at h
    cases h

/-- The epochs that a chain leads to. -/
structure ChainEpochs where
  active : Epoch
  pending : Option Epoch

namespace ChainEpochs

/-- The epochs when a view is reached: the pending one starts if it is due. -/
def atView (c : ChainEpochs) (view : ℕ) : ChainEpochs :=
  match c.pending with
  | some epoch => if epoch.startView ≤ view then ⟨epoch, none⟩ else c
  | none => c

/-- The epochs after one more block; updates that cannot be applied make none. -/
def next (c : ChainEpochs) (run : Block × EndBlockResponse) : ChainEpochs :=
  let c := c.atView run.1.view
  match pendingAfter c.active c.pending run.1.view run.2.validatorUpdates with
  | .ok pending => ⟨c.active, pending⟩
  | .error _ => c

/-- The epochs after a chain. -/
def after (first : Epoch) (runs : List (Block × EndBlockResponse)) : ChainEpochs :=
  runs.foldl next ⟨first, none⟩

/-- The epoch that a block is executed in. -/
def epochFor (c : ChainEpochs) (block : Block) : Epoch := (c.atView block.view).active

lemma after_concat (first : Epoch) (runs : List (Block × EndBlockResponse))
    (run : Block × EndBlockResponse) : after first (runs ++ [run]) = (after first runs).next run :=
    by
  unfold after
  rw [foldl_append]
  rfl

variable {c : ChainEpochs} {view : ℕ}

lemma atView_of_due (hpending : c.pending = some epoch)
    (hdue : epoch.startView ≤ view) : c.atView view = ⟨epoch, none⟩ := by
  unfold atView
  rw [hpending]
  exact if_pos hdue

lemma atView_of_not_due (h : ∀ epoch, c.pending = some epoch → view < epoch.startView) :
    c.atView view = c := by
  unfold atView
  split
  · next epoch hpending => exact if_neg (not_le.mpr (h epoch hpending))
  · rfl

/-- Either the pending epoch starts, or nothing happens. -/
lemma atView_cases (c : ChainEpochs) (view : ℕ) :
    (∃ epoch, c.pending = some epoch ∧ epoch.startView ≤ view ∧ c.atView view = ⟨epoch, none⟩)
      ∨ ((∀ epoch, c.pending = some epoch → view < epoch.startView) ∧ c.atView view = c) := by
  by_cases hdue : ∃ epoch, c.pending = some epoch ∧ epoch.startView ≤ view
  · obtain ⟨epoch, hpending, hle⟩ := hdue
    exact .inl ⟨epoch, hpending, hle, atView_of_due hpending hle⟩
  · have hnot : ∀ epoch, c.pending = some epoch → view < epoch.startView :=
      fun epoch hpending => not_le.mp fun hle => hdue ⟨epoch, hpending, hle⟩
    exact .inr ⟨hnot, atView_of_not_due hnot⟩

lemma next_of_ok (run : Block × EndBlockResponse)
    (h : pendingAfter (c.atView run.1.view).active (c.atView run.1.view).pending run.1.view
      run.2.validatorUpdates = .ok pending) :
    c.next run = ⟨(c.atView run.1.view).active, pending⟩ := by
  unfold next
  dsimp only
  rw [h]

/-- The active epoch of the next block. -/
lemma next_active (c : ChainEpochs) (run : Block × EndBlockResponse) :
    (c.next run).active = c.epochFor run.1 := by
  unfold next epochFor
  dsimp only
  split <;> rfl

/-- What is pending when a view is reached was so before. -/
lemma pending_of_atView (h : (c.atView view).pending = some epoch) : c.pending = some epoch := by
  rcases c.atView_cases view with ⟨_, _, _, heq⟩ | ⟨-, heq⟩
  · rw [heq] at h
    cases h
  · rwa [heq] at h

/-- A pending epoch is the old one, not due yet, or made by the block. -/
lemma next_pending {run : Block × EndBlockResponse}
    (h : (c.next run).pending = some epoch) : (c.atView run.1.view).pending = some epoch
      ∨ (run.2.validatorUpdates ≠ [] ∧ epoch.startView = run.1.view + 2) := by
  unfold next at h
  dsimp only at h
  split at h
  · next pending hpending =>
      obtain rfl : pending = some epoch := h
      by_cases hnil : run.2.validatorUpdates = []
      · rw [hnil] at hpending
        exact .inl (Except.ok.inj hpending)
      · rcases pendingAfter_ok hpending with ⟨hnil', -⟩ | ⟨made, hmade, heq⟩
        · exact absurd hnil' hnil
        · cases heq
          exact .inr ⟨hnil, chainedPendingEpoch_startView hmade⟩
  · exact .inl h

/-- The active epoch is the first one, or has started with a block of the chain. -/
lemma after_active (first : Epoch) (runs : List (Block × EndBlockResponse)) :
    (after first runs).active = first
      ∨ ∃ run ∈ runs, (after first runs).active.startView ≤ run.1.view := by
  induction runs using reverseRecOn with
  | nil => exact .inl rfl
  | append_singleton runs run ih =>
    rw [after_concat, next_active]
    unfold epochFor
    rcases (after first runs).atView_cases run.1.view with ⟨epoch, -, hdue, heq⟩ | ⟨-, heq⟩
    · rw [heq]
      exact .inr ⟨run, mem_append_right _ mem_cons_self, hdue⟩
    · rw [heq]
      exact ih.imp id fun ⟨run', hmem, hle⟩ => ⟨run', mem_append_left _ hmem, hle⟩

/-- The pending epoch was made by a block of the chain. -/
lemma after_pending (h : (after first runs).pending = some epoch) :
    ∃ run ∈ runs, run.2.validatorUpdates ≠ [] ∧ epoch.startView = run.1.view + 2 := by
  induction runs using reverseRecOn with
  | nil => cases h
  | append_singleton runs run ih =>
    rw [after_concat] at h
    rcases next_pending h with hold | hnew
    · obtain ⟨run', hmem, hrun'⟩ := ih (pending_of_atView hold)
      exact ⟨run', mem_append_left _ hmem, hrun'⟩
    · exact ⟨run, mem_append_right _ mem_cons_self, hnew⟩

/-- The epoch announced last. -/
def latest (c : ChainEpochs) : Epoch := c.pending.getD c.active

lemma latest_atView (c : ChainEpochs) (view : ℕ) : (c.atView view).latest = c.latest := by
  rcases c.atView_cases view with ⟨epoch, hpending, -, heq⟩ | ⟨-, heq⟩
  · rw [heq, latest, latest, hpending]
    rfl
  · rw [heq]

/-- **The epoch announced last is the latest one of the chain**, if all updates can be
applied. -/
lemma announce_eq_latest (h : (announce first runs).isOk = true) :
    announce first runs = .ok (after first runs).latest := by
  induction runs using reverseRecOn with
  | nil => rfl
  | append_singleton runs run ih =>
    have hlatest := ih (isOk_announce_left h)
    rw [announce_append hlatest, after_concat] at *
    have hone := announceOne_latest ((after first runs).atView run.1.view).active
      ((after first runs).atView run.1.view).pending run
    rw [← latest, latest_atView] at hone
    cases hmade : pendingAfter ((after first runs).atView run.1.view).active
        ((after first runs).atView run.1.view).pending run.1.view run.2.validatorUpdates with
    | error err =>
      rw [announce, foldlM_cons, hone, hmade] at h
      cases h
    | ok pending =>
      rw [hmade] at hone
      rw [announce_cons hone, announce_nil, next_of_ok run hmade]
      rfl

end ChainEpochs

/-! ### The execution loop on a chain -/

/-- The epochs of the execution loop are those of the chain; or its pending epoch has started
already, by a view change, and the active one of the chain is the previous one. -/
inductive Tracks (c : ChainEpochs) (previous : Option Epoch) (x : ExecState σ) : Prop
  | same (hactive : x.active = c.active) (hpending : x.pending = c.pending)
  | early (hactive : c.pending = some x.active) (hpending : x.pending = none)
      (hprevious : x.previous = some c.active) (hactivated : x.activated = none)
      (hstart : previous = some c.active)

namespace Tracks

variable {c : ChainEpochs} {previous : Option Epoch} {x x' : ExecState σ} {block : Block}

/-- Activation does what the chain does, where the epochs are the same. -/
lemma activate_same (hactive : x.active = c.active) (hpending : x.pending = c.pending)
    (block : Block) : (x.activate block).active = (c.atView block.view).active
      ∧ (x.activate block).pending = (c.atView block.view).pending := by
  unfold activate ChainEpochs.atView
  rw [hpending]
  cases c.pending with
  | none => exact ⟨hactive, hpending⟩
  | some epoch =>
    by_cases hdue : epoch.startView ≤ block.view
    · simp [hdue]
    · simp [hdue, hactive, hpending]

/-- Nothing is activated where nothing is pending. -/
lemma activate_early (hpending : x.pending = none) (block : Block) : x.activate block = x := by
  unfold activate
  rw [hpending]

/-- **The context of a block** is that of its epoch on the chain. -/
lemma context (h : Tracks c previous x) (hstart : c.active.startView ≤ block.view) :
    x.context block = blockContext block (c.epochFor block) := by
  suffices hepoch : (x.activate block).ctxEpoch block = c.epochFor block by
    unfold ExecState.context
    rw [hepoch]
  unfold ChainEpochs.epochFor ExecState.ctxEpoch
  cases h with
  | same hactive hpending =>
    rw [(activate_same hactive hpending block).1]
    refine if_neg (not_lt.mpr ?_)
    rcases c.atView_cases block.view with ⟨epoch, -, hdue, heq⟩ | ⟨-, heq⟩
    · rw [heq]
      exact hdue
    · rw [heq]
      exact hstart
  | early hactive hpending hprevious _ _ =>
    rw [activate_early hpending block, hprevious]
    rcases c.atView_cases block.view with ⟨epoch, hp, hdue, heq⟩ | ⟨hnot, heq⟩
    · obtain rfl := Option.some.inj (hactive.symm.trans hp)
      rw [heq]
      exact if_neg (not_lt.mpr hdue)
    · rw [heq]
      exact if_pos (hnot _ hactive)

/-- **One round.**  A block with updates must not come before the start of the pending
epoch: an epoch that has started already is not replaced by the one that the block makes. -/
lemma advance (h : Tracks c previous x) {response : EndBlockResponse}
    (hmade : pendingAfter (x.activate block).active (x.activate block).pending block.view
      response.validatorUpdates = .ok pending) (hspaced : response.validatorUpdates ≠ [] →
      ∀ epoch, c.pending = some epoch → epoch.startView ≤ block.view) (s : σ) :
    Tracks (c.next (block, response)) previous (x.advance app block response s pending) := by
  cases h with
  | same hactive hpending =>
    obtain ⟨hactive', hpending'⟩ := activate_same hactive hpending block
    rw [hactive', hpending'] at hmade
    rw [ChainEpochs.next_of_ok (block, response) hmade]
    exact .same hactive' rfl
  | early hactive hpending hprevious hactivated hprev =>
    have hkept := activate_early hpending block
    rw [hkept, hpending] at hmade
    rcases c.atView_cases block.view with ⟨epoch, hp, hdue, heq⟩ | ⟨hnot, heq⟩
    · -- the epoch starts on the chain too
      obtain rfl := Option.some.inj (hactive.symm.trans hp)
      have hnext : c.next (block, response) = ⟨x.active, pending⟩ := by
        rw [ChainEpochs.next_of_ok (block, response) (by rw [heq]; exact hmade), heq]
      rw [hnext]
      exact .same (show (x.activate block).active = x.active by rw [hkept]) rfl
    · have hnil : response.validatorUpdates = [] := by
        by_contra hne
        exact absurd (hspaced hne _ hactive) (not_le.mpr (hnot _ hactive))
      rw [hnil] at hmade
      have hnext : c.next (block, response) = c := by
        rw [ChainEpochs.next_of_ok (block, response) (by rw [heq, hnil]; rfl), heq]
      rw [hnext]
      exact .early (show c.pending = some (x.activate block).active by rw [hkept, hactive])
        (Except.ok.inj hmade).symm
        (show (x.activate block).previous = some c.active by rw [hkept, hprevious])
        (show (x.activate block).activated = none by rw [hkept, hactivated]) hprev

end Tracks

/-! ### Chains in order -/

/-- The updates on a chain can be applied, no block makes an epoch while another one is
pending, and views increase from the start of the first epoch on. -/
structure Orderly (first : Epoch) (runs : List (Block × EndBlockResponse)) : Prop where
  applied : (announce first runs).isOk = true
  spaced : Spaced none runs
  increasing : runs.Pairwise fun run run' => run.1.view < run'.1.view
  above : ∀ run ∈ runs, first.startView ≤ run.1.view

instance (first : Epoch) (runs : List (Block × EndBlockResponse)) :
    Decidable (Orderly first runs) :=
  decidable_of_iff ((announce first runs).isOk = true ∧ Spaced none runs
      ∧ (runs.Pairwise fun run run' => run.1.view < run'.1.view)
      ∧ ∀ run ∈ runs, first.startView ≤ run.1.view)
    ⟨fun h => ⟨h.1, h.2.1, h.2.2.1, h.2.2.2⟩, fun h => ⟨h.1, h.2, h.3, h.4⟩⟩

namespace Orderly

variable {first : Epoch} {runs later : List (Block × EndBlockResponse)}
  {run : Block × EndBlockResponse}

lemma left (h : Orderly first (runs ++ later)) : Orderly first runs where
  applied := isOk_announce_left h.applied
  spaced := ⟨nofun, (pairwise_append.mp h.spaced.2).1⟩
  increasing := (pairwise_append.mp h.increasing).1
  above run hrun := h.above run (mem_append_left _ hrun)

/-- The active epoch has started when a block comes. -/
lemma started (h : Orderly first (runs ++ run :: later)) :
    (ChainEpochs.after first runs).active.startView ≤ run.1.view := by
  rcases ChainEpochs.after_active first runs with heq | ⟨run', hmem, hle⟩
  · rw [heq]
    exact h.above run (mem_append_right _ mem_cons_self)
  · have hlt := (pairwise_append.mp h.increasing).2.2 run' hmem run mem_cons_self
    exact hle.trans hlt.le

/-- The pending epoch starts no later than with the next block that has updates. -/
lemma due (h : Orderly first (runs ++ run :: later)) (hne : run.2.validatorUpdates ≠ [])
    (epoch : Epoch) (hpending : (ChainEpochs.after first runs).pending = some epoch) :
    epoch.startView ≤ run.1.view := by
  obtain ⟨run', hmem, hne', hstart⟩ := ChainEpochs.after_pending hpending
  rw [hstart]
  exact (pairwise_append.mp h.spaced.2).2.2 run' hmem run mem_cons_self hne' hne

end Orderly

/-- Every block is executed in its epoch on the chain before it. -/
def InContext (first : Epoch) (executed : List Answer) : Prop :=
  ∀ before a later, executed = before ++ a :: later → a.context
    = blockContext a.block ((ChainEpochs.after first (before.map Answer.run)).epochFor a.block)

lemma InContext.concat {a : Answer} (h : InContext first executed)
    (ha : a.context = blockContext a.block
      ((ChainEpochs.after first (executed.map Answer.run)).epochFor a.block)) :
    InContext first (executed ++ [a]) := by
  intro before b later heq
  rcases eq_nil_or_concat later with rfl | ⟨later', last, rfl⟩
  · obtain ⟨rfl, hlast⟩ := append_inj' heq rfl
    obtain rfl := singleton_inj.mp hlast
    exact ha
  · rw [concat_eq_append, ← cons_append, ← append_assoc] at heq
    exact h before b later' (append_inj' heq rfl).1

/-! ### The loop -/

/-- A round that does not complete has executed its block at most. -/
lemma answers_executeOne (app : Application σ) (x : ExecState σ) (block : Block) :
    answers ((executeOne app x block).2.calls.map .app) = answers (x.calls.map .app)
      ∨ ∃ response, answers ((executeOne app x block).2.calls.map .app)
        = answers (x.calls.map .app) ++ [⟨block, x.context block, response⟩] := by
  obtain ⟨proofs, rest, heq, hproofs, hend⟩ :=
    executeCommittedBlock_end app block (x.context block) x.app
  have hnone : answers (proofs.map .app) = [] := by
    refine filterMap_eq_nil_iff.mpr (forall_mem_map.mpr fun call hmem => ?_)
    have hcall := hproofs call hmem
    cases call <;> first | rfl | cases hcall
  rw [executeOne_calls, heq, map_append, map_append, answers_append, answers_append, hnone]
  generalize (executeCommittedBlock app block (x.context block) x.app).1 = answer at hend
  cases hend with
  | evidence | execution => exact .inl (append_nil _)
  | notification ok hexec => exact .inr ⟨_, rfl⟩

lemma RoundApplied.answers_eq {x' : ExecState σ} {block : Block} (h : RoundApplied app x block x') :
    ∃ response s pending, x' = x.advance app block response s pending
      ∧ pendingAfter (x.activate block).active (x.activate block).pending block.view
        response.validatorUpdates = .ok pending
      ∧ answers (x'.calls.map .app)
        = answers (x.calls.map .app) ++ [⟨block, x.context block, response⟩] := by
  obtain ⟨response, s, pending, -, hpending, rfl⟩ := h
  exact ⟨response, s, pending, rfl, hpending, by simp [advance, answers_blockCalls]⟩

/-- The loop only adds to what was executed. -/
lemma answers_executeChain (app : Application σ) (x : ExecState σ) (blocks : List Block) :
    answers (x.calls.map .app) <+: answers ((executeChain app x blocks).2.calls.map .app) := by
  induction blocks generalizing x with
  | nil => exact prefix_refl _
  | cons block blocks ih =>
    have hone : answers (x.calls.map .app) <+: answers
      ((executeOne app x block).2.calls.map .app) := by
      rcases answers_executeOne app x block with heq | ⟨response, heq⟩
      · exact heq ▸ prefix_refl _
      · exact heq ▸ prefix_append _ _
    unfold executeChain
    split
    · next x' hround =>
        rw [hround] at hone
        exact hone.trans (ih x')
    · exact hone

/-- **The loop executes every block in its epoch on the chain**, and ends with the epochs of the
chain. -/
lemma Tracks.loop {before new : List Answer} {blocks : List Block}
    (h : Tracks (.after first (before.map Answer.run)) previous x)
    (hbefore : InContext first before)
    (hnew : answers ((executeChain app x blocks).2.calls.map .app) = answers (x.calls.map .app) ++
    new)
    (horder : Orderly first ((before ++ new).map Answer.run)) :
    InContext first (before ++ new) ∧ ((executeChain app x blocks).1 = .completed →
      Tracks (.after first ((before ++ new).map Answer.run)) previous
        (executeChain app x blocks).2) := by
  induction blocks generalizing x before new with
  | nil =>
    obtain rfl : new = [] := append_right_eq_self.mp hnew.symm
    rw [append_nil]
    exact ⟨hbefore, fun _ => h⟩
  | cons block blocks ih =>
    -- the context of the block, if it is executed at all
    have hcontext : ∀ (a : Answer) (rest : List Answer), a.block = block →
        a.context = x.context block → Orderly first ((before ++ a :: rest).map Answer.run) →
        InContext first (before ++ [a]) := by
      rintro a rest rfl ha horder
      rw [map_append] at horder
      exact hbefore.concat (ha.trans (h.context (horder.started)))
    unfold executeChain at hnew ⊢
    split at hnew
    · next x₁ hround =>
        obtain ⟨response, s, pending, rfl, hmade, hone⟩ :=
          (executeOne_eq_completed.mp hround).answers_eq
        obtain ⟨rest, hrest⟩ :=
          answers_executeChain app (x.advance app block response s pending) blocks
        generalize ha : (⟨block, x.context block, response⟩ : Answer) = a at hone
        obtain rfl : new = a :: rest := by
          rw [← hrest, hone, append_assoc] at hnew
          exact (append_cancel_left hnew).symm
        have htracks : Tracks (.after first ((before ++ [a]).map Answer.run)) previous
            (x.advance app block response s pending) := by
          rw [← ha, map_append] at horder ⊢
          rw [map_singleton, ChainEpochs.after_concat]
          exact h.advance hmade (fun hne => horder.due hne) s
        have hcontext' := hcontext a rest (ha ▸ rfl) (ha ▸ rfl) horder
        rw [append_cons] at horder ⊢
        exact ih htracks hcontext' hrest.symm horder
    · next r hstop =>
        refine ⟨?_, fun hend => (hstop (executeOne app x block).2 (Prod.ext hend rfl)).elim⟩
        rcases answers_executeOne app x block with heq | ⟨response, heq⟩
        · obtain rfl : new = [] := append_right_eq_self.mp (hnew.symm.trans heq)
          rw [append_nil]
          exact hbefore
        · obtain rfl := append_cancel_left (hnew.symm.trans heq)
          exact hcontext _ [] rfl rfl horder

/-! ### Every step -/

/-- What was answered is the same where what was executed is. -/
lemma answers_eq_of_ran {t t' : List Effect} (hgrows : t <+: t')
    (hran : ranBlocks t' = ranBlocks t) : answers t' = answers t := by
  obtain ⟨effects, rfl⟩ := hgrows
  rw [ranBlocks_append] at hran
  rw [answers_append, answers_of_ranBlocks (append_right_eq_self.mp hran), append_nil]

lemma Tried.answers_eq {m₀ : Engine σ} {dc : DoubleCertificate} (h : Tried d m₀ dc m) :
    answers m.trace = answers m₀.trace ++ answers ((m₀.commitRun d dc).calls.map .app) := by
  obtain ⟨effects, heq, hnews⟩ := h.trace
  have hfailed : answers (Engine.failureEffects (m₀.commitRun d dc).outcome) = [] := by
    cases (m₀.commitRun d dc).outcome <;> rfl
  rw [heq, answers_append, answers_append, answers_append, hfailed,
    answers_of_ranBlocks (ranBlocks_of_news hnews), append_nil, append_nil]
  rfl

/-- The loop variables that a commit starts with. -/
def Engine.loopStart (e : Engine σ) : ExecState σ :=
  .start e.state.lastCommittedHeight e.state.currentEpoch e.previousEpoch e.pendingEpoch e.app

/-- The epoch announced last is the pending one, or the current one. -/
lemma Tracks.latest {c : ChainEpochs} (h : Tracks c previous x) : x.latest = c.latest := by
  unfold ExecState.latest ChainEpochs.latest
  cases h with
  | same hactive hpending => rw [hactive, hpending]
  | early hactive hpending _ _ _ =>
    rw [hactive, hpending]
    rfl

/-- The loop variables of a node with the same epochs. -/
lemma Tracks.of_engine {c : ChainEpochs} {e' : Engine σ} (h : Tracks c e.previousEpoch e.loopStart)
    (hcurrent : e'.state.currentEpoch = e.state.currentEpoch)
    (hpending : e'.pendingEpoch = e.pendingEpoch) (hprevious : e'.previousEpoch = e.previousEpoch) :
    Tracks c e'.previousEpoch e'.loopStart := by
  cases h with
  | same hactive hpend => exact .same (hcurrent.trans hactive) (hpending.trans hpend)
  | early hactive hpend hprev _ hstart =>
    exact .early (hactive.trans (congrArg some hcurrent).symm) (hpending.trans hpend)
      (hprevious.trans hprev) rfl (hprevious.trans hstart)

/-- The epochs of a node are those of the chain that it has executed. -/
def Engine.OnChain (first : Epoch) (e : Engine σ) : Prop :=
  Tracks (.after first ((answers e.trace).map Answer.run)) e.previousEpoch e.loopStart

lemma Still.onChain (h : Still e m) (he : e.OnChain first) : m.OnChain first := by
  unfold Engine.OnChain
  rw [answers_eq_of_ran h.grows h.ran]
  exact Tracks.of_engine he h.currentEpoch h.pendingEpoch h.previousEpoch

section

variable {first : Epoch} {m₀ m : Engine σ} {dc : DoubleCertificate}

/-- What a commit executes is in context. -/
lemma Tried.inContext (h : Tried d m₀ dc m)
    (hchain : m₀.OnChain first) (hcontexts : InContext first (answers m₀.trace))
    (horder : Orderly first ((answers m.trace).map Answer.run)) :
    InContext first (answers m.trace) := by
  rw [h.answers_eq] at horder ⊢
  rcases tryCommit_eq d.app dc m₀.store m₀.app m₀.state.lastCommittedHeight
    m₀.state.currentEpoch m₀.previousEpoch m₀.pendingEpoch with
    ⟨_, -, hrun⟩ | ⟨_, blocks, ending, x, -, -, hloop, hrun⟩
  all_goals rw [Engine.commitRun, hrun] at horder ⊢
  · exact (append_nil (answers m₀.trace)).symm ▸ hcontexts
  · have hcalls : answers ((executeChain d.app m₀.loopStart blocks).2.calls.map .app)
        = answers (m₀.loopStart.calls.map .app) ++ answers (x.calls.map .app) := by
      rw [show executeChain d.app m₀.loopStart blocks = _ from hloop]
      rfl
    exact (hchain.loop hcontexts hcalls horder).1

section

variable (h : Tried d m₀ dc m) (hchain : m₀.OnChain first)
  (horder : Orderly first ((answers m.trace).map Answer.run))

include h hchain horder

/-- On a chain in order no updates fail. -/
lemma Tried.announce_ne_error (reason : ValidatorSetError) :
    announce (m₀.pendingEpoch.getD m₀.state.currentEpoch)
      (ranBlocks ((m₀.commitRun d dc).calls.map .app)) ≠ .error reason := by
  intro herror
  have happlied := horder.applied
  rw [h.answers_eq, map_append] at horder happlied
  have hlatest : m₀.pendingEpoch.getD m₀.state.currentEpoch
      = (ChainEpochs.after first ((answers m₀.trace).map Answer.run)).latest := hchain.latest
  rw [announce_append (ChainEpochs.announce_eq_latest horder.left.applied), ← hlatest,
    ← ranBlocks_eq_answers, herror] at happlied
  cases happlied

/-- A commit that fails on a chain in order has executed nothing. -/
lemma Tried.answers_of_err {err : CommitError}
    (herr : (m₀.commitRun d dc).outcome = .err err) : answers m.trace = answers m₀.trace := by
  rcases tryCommit_err herr with ⟨hnone, -⟩ | ⟨reason, herror⟩
  · rw [h.answers_eq, show (m₀.commitRun d dc).calls = [] from hnone]
    exact append_nil _
  · exact absurd herror (h.announce_ne_error hchain horder reason)

/-- Nor has it failed because of updates. -/
lemma Tried.err_ne (height : ℕ) (reason : ValidatorSetError) :
    (m₀.commitRun d dc).outcome ≠ .err (.invalidUpdates height reason) := by
  intro herr
  rcases tryCommit_err herr with ⟨-, hother⟩ | ⟨reason', herror⟩
  · exact hother height reason rfl
  · exact h.announce_ne_error hchain horder reason' herror

end

/-- **A commit that is adopted** leaves the node with the epochs of the chain. -/
lemma Tried.onChain (h : Tried d m₀ dc m)
    (hchain : m₀.OnChain first) (hcontexts : InContext first (answers m₀.trace))
    (horder : Orderly first ((answers m.trace).map Answer.run)) {result : CommitResult}
    (hok : (m₀.commitRun d dc).outcome = .ok result) (hne : result.committedBlocks ≠ [])
    (hcurrent : m.state.currentEpoch = result.activatedEpoch.getD m₀.state.currentEpoch)
    (hpending : m.pendingEpoch = result.pendingEpoch) (hprevious : m.previousEpoch
      = (result.activatedEpoch.map fun _ => some m₀.state.currentEpoch).getD m₀.previousEpoch) :
    m.OnChain first := by
  unfold Engine.OnChain
  rw [h.answers_eq] at horder ⊢
  rcases tryCommit_ok hok with ⟨hempty, -⟩ | ⟨target, blocks, x, -, -, happlied, rfl, hrun⟩
  · exact absurd hempty hne
  have hloop : executeChain d.app m₀.loopStart blocks = (.completed, x) :=
    executeChain_eq_completed.mpr happlied
  have hcalls : (m₀.commitRun d dc).calls = x.calls := by
    rw [Engine.commitRun, hrun]
  rw [hcalls] at horder ⊢
  have hends := (hchain.loop hcontexts (by rw [hloop]; rfl) horder).2 (by rw [hloop])
  rw [hloop] at hends
  have hactive : m.state.currentEpoch = x.active := hcurrent.trans (happlied.active_eq rfl)
  cases hends with
  | same hsame hsame' => exact .same (hactive.trans hsame) (hpending.trans hsame')
  | early hearly hnone _ hactivated hstart =>
    -- the loop has activated nothing, so the previous epoch is the one before the commit
    have hprev : m.previousEpoch = m₀.previousEpoch := by
      rw [hprevious, show x.activated = none from hactivated]
      rfl
    exact .early (hearly.trans (congrArg some hactive).symm) (hpending.trans hnone)
      ((hprev.trans hstart : m.previousEpoch = _)) rfl (hprev.trans hstart)

end

/-- Every block was executed in its epoch on the chain, and the node has the epochs of the chain
as long as it runs. -/
structure ContextInv (first : Epoch) (e : Engine σ) : Prop where
  contexts : InContext first (answers e.trace)
  onChain : e.halted = false → e.OnChain first

namespace ContextInv

variable {first : Epoch} {e e' m : Engine σ}

/-- **The part of a step before the view entry.** -/
lemma commits (h : ContextInv first e) (halive : e.halted = false)
    (hcommits : Commits d e m) (horder : Orderly first ((answers m.trace).map Answer.run)) :
    ContextInv first m := by
  have hbefore : ∀ {m₀}, Still e m₀ → m₀.OnChain first ∧ InContext first (answers m₀.trace) :=
    fun hstill => ⟨hstill.onChain (h.onChain halive),
      answers_eq_of_ran hstill.grows hstill.ran ▸ h.contexts⟩
  cases hcommits with
  | still hstill => exact ⟨(hbefore hstill).2, fun _ => (hbefore hstill).1⟩
  | @refused m₀ _ dc hstill htried hcurrent hpending hprevious hstop _ _ =>
    obtain ⟨hchain, hcontexts⟩ := hbefore hstill
    refine ⟨htried.inContext hchain hcontexts horder, fun hgoes => ?_⟩
    obtain ⟨err, herr⟩ := hstop.resolve_left (by rw [hgoes]; exact Bool.false_ne_true)
    unfold Engine.OnChain
    rw [htried.answers_of_err hchain horder herr]
    exact Tracks.of_engine hchain hcurrent hpending hprevious
  | @adopted m₀ _ dc result hstill hok hne htried hcurrent hpending hprevious _ _ =>
    obtain ⟨hchain, hcontexts⟩ := hbefore hstill
    exact ⟨htried.inContext hchain hcontexts horder,
      fun _ => htried.onChain hchain hcontexts horder hok hne hcurrent hpending hprevious⟩

/-- **Entering a view** may start the pending epoch of the chain early. -/
lemma advanceViewTo (h : ContextInv first m) (view : ℕ) (trigger : ViewEntryTrigger) :
    ContextInv first (m.advanceViewTo d view trigger) := by
  rcases advanceViewTo_epochs m view trigger with heq | ⟨-, -, hran, hepochs⟩
  · rwa [heq]
  have hanswers := answers_eq_of_ran (Housed.grows_advanceViewTo m view trigger) hran
  refine ⟨hanswers ▸ h.contexts, fun hgoes => ?_⟩
  have hchain := h.onChain (Housed.halted_advanceViewTo hgoes)
  unfold Engine.OnChain
  rw [hanswers]
  rcases hepochs with ⟨hcurrent, hpending, hprevious, -⟩ |
    ⟨epoch, hp, -, hcurrent, hpending, hprevious⟩
  · exact Tracks.of_engine hchain hcurrent hpending hprevious
  · cases hchain with
    | same hactive hsame =>
      have hprev : (m.advanceViewTo d view trigger).previousEpoch
          = some (ChainEpochs.after first ((answers m.trace).map Answer.run)).active :=
        hprevious.trans (congrArg some hactive)
      exact .early ((hsame.symm.trans hp).trans (congrArg some hcurrent).symm) hpending hprev rfl
        hprev
    | early _ hnone _ _ _ =>
      rw [show m.pendingEpoch = none from hnone] at hp
      cases hp

/-- **One step.** -/
lemma apply (h : ContextInv first e) {label : Label} (henabled : e.enabled label = true)
    (horder : Orderly first ((answers (e.apply d label).trace).map Answer.run)) :
    ContextInv first (e.apply d label) := by
  have halive := Engine.not_halted_of_enabled henabled
  have hends := ends_apply (d := d) e label
  generalize e.apply d label = e' at *
  cases hends with
  | commits hcommits => exact h.commits halive hcommits horder
  | @entered m hcommits tasks view trigger _ =>
    have hgrows := Housed.grows_advanceViewTo (d := d) { m with todo := tasks ++ m.todo } view
      trigger
    have hm : ContextInv first m := by
      refine h.commits halive hcommits ?_
      obtain ⟨effects, heq⟩ := hgrows
      rw [← heq, answers_append, map_append] at horder
      exact horder.left
    have hleft : ContextInv first { m with todo := tasks ++ m.todo } :=
      ⟨hm.contexts, fun hgoes => hm.onChain hgoes⟩
    exact hleft.advanceViewTo view trigger

end ContextInv

/-! ### Every run -/

lemma Fresh.answers_eq_nil (h : Fresh cfg e) : answers e.trace = [] :=
  answers_of_ranBlocks (ranBlocks_of_news (news_of_stored fun _ => h.stored))

lemma Fresh.contextInv (h : Fresh cfg e) : ContextInv (Epoch.genesis cfg.validatorSet) e := by
  have hnone := h.answers_eq_nil
  refine ⟨?_, fun _ => ?_⟩
  · rw [hnone]
    intro before a later heq
    simp at heq
  · unfold Engine.OnChain
    rw [hnone]
    exact .same h.currentEpoch h.pendingEpoch

/-- **In every run whose chain is in order** the node has the epochs of the chain. -/
lemma RunWhere.contextInv {P : Engine σ → Label → Prop} {app : σ}
    {evidence : EvidenceStore} (hrun : RunWhere d P (cfg.launch d [] app evidence) e)
    (horder : Orderly (Epoch.genesis cfg.validatorSet) (ranBlocks e.trace)) :
    ContextInv (Epoch.genesis cfg.validatorSet) e := by
  rw [ranBlocks_eq_answers] at horder
  induction hrun with
  | refl => exact (fresh_launch d cfg app evidence).contextInv
  | @tail e₁ _ _ hstep ih =>
    cases hstep with
    | @step label henabled _ =>
      refine ContextInv.apply (ih ?_) henabled horder
      obtain ⟨effects, heq⟩ := (ends_apply e₁ label).grows
      rw [← heq, answers_append, map_append] at horder
      exact horder.left

/-- **The context of a block is a function of the chain before it**, in every run whose chain is
in order. -/
theorem contexts_of_chain (d : Deps σ) (cfg : NodeConfig) (app : σ) (evidence : EvidenceStore)
    (hrun : Run d (cfg.launch d [] app evidence) e)
    (horder : Orderly (Epoch.genesis cfg.validatorSet) (ranBlocks e.trace)) :
    InContext (Epoch.genesis cfg.validatorSet) (answers e.trace) :=
  (hrun.contextInv horder).contexts

/-- The part of an answer that makes epochs: the block and the updates. -/
def announced (run : Block × EndBlockResponse) : Block × List ValidatorUpdate :=
  (run.1, run.2.validatorUpdates)

/-- The epochs of a chain depend on the blocks and the updates only. -/
lemma ChainEpochs.after_congr
    (h : runs.map announced = runs'.map announced) : after first runs = after first runs' := by
  unfold after
  generalize (⟨first, none⟩ : ChainEpochs) = c
  induction runs generalizing c runs' with
  | nil =>
    obtain rfl := map_eq_nil_iff.mp h.symm
    rfl
  | cons run runs ih =>
    cases runs' with
    | nil => cases h
    | cons run' runs' =>
      obtain ⟨hrun, h⟩ := cons.inj h
      obtain ⟨hblock, hupdates⟩ := Prod.mk.inj hrun
      have hnext : c.next run = c.next run' := by
        unfold next
        rw [hblock, hupdates]
      rw [foldl_cons, foldl_cons, hnext]
      exact ih h _

/-- The updates that the application answers with are a function of the blocks executed so far
with their contexts. -/
def AnsweredBy (f : List (Block × BlockContext) → List ValidatorUpdate) (executed : List Answer) :
    Prop :=
  ∀ before a later, executed = before ++ a :: later →
    a.updates = f ((before ++ [a]).map fun a => (a.block, a.context))

/-- Two chains of the same blocks, executed in context and answered alike, are executed with the
same contexts and answered with the same updates. -/
lemma InContext.agree {f : List (Block × BlockContext) → List ValidatorUpdate}
    {executed' chain chain' : List Answer} (h : InContext first executed)
    (h' : InContext first executed') (hf : AnsweredBy f executed) (hf' : AnsweredBy f executed')
    (hchain : chain <+: executed) (hchain' : chain' <+: executed')
    (hblocks : chain.map Answer.block = chain'.map Answer.block) :
    chain.map (fun a => (a.block, a.context)) = chain'.map (fun a => (a.block, a.context))
      ∧ (chain.map Answer.run).map announced = (chain'.map Answer.run).map announced := by
  induction chain using reverseRecOn generalizing chain' with
  | nil =>
    obtain rfl := map_eq_nil_iff.mp hblocks.symm
    exact ⟨rfl, rfl⟩
  | append_singleton chain a ih =>
    rcases eq_nil_or_concat chain' with rfl | ⟨chain', a', rfl⟩
    · simp at hblocks
    obtain ⟨later, hlater⟩ := hchain
    rw [append_assoc, singleton_append] at hlater
    rw [concat_eq_append] at hchain' hblocks ⊢
    obtain ⟨later', hlater'⟩ := hchain'
    rw [append_assoc, singleton_append] at hlater'
    rw [map_append, map_append] at hblocks
    obtain ⟨hblocks, hlast⟩ := append_inj' hblocks rfl
    have hblock : a.block = a'.block := (cons.inj hlast).1
    obtain ⟨hexecuted, hannounced⟩ :=
      ih ⟨_, hlater⟩ ⟨_, hlater'⟩ hblocks
    have hcontext : a.context = a'.context := by
      rw [h _ a _ hlater.symm, h' _ a' _ hlater'.symm, ChainEpochs.after_congr hannounced, hblock]
    have hexecuted' : (chain ++ [a]).map (fun a => (a.block, a.context))
        = (chain' ++ [a']).map fun a => (a.block, a.context) := by
      simp [hexecuted, hblock, hcontext]
    have hupdates : a.updates = a'.updates := by
      rw [hf _ a _ hlater.symm, hf' _ a' _ hlater'.symm, hexecuted']
    have hrun : announced a.run = announced a'.run := Prod.ext hblock hupdates
    refine ⟨hexecuted', ?_⟩
    rw [map_append, map_append, map_append, map_append, hannounced,
      map_singleton, map_singleton, map_singleton, map_singleton, hrun]

/-- **Execution contexts.**  Take two runs of two nodes that start with the same validator set,
under an application whose updates are a function of the blocks executed so far.  If the chains
of both runs are in order, each chain of blocks that both have executed was executed with the
same contexts in both. -/
theorem execution_contexts_agree {σ' : Type} (d : Deps σ) (d' : Deps σ') (cfg cfg' : NodeConfig)
    (hset : cfg'.validatorSet = cfg.validatorSet) (app : σ) (app' : σ')
    (evidence evidence' : EvidenceStore) {e : Engine σ} {e' : Engine σ'}
    (hrun : Run d (cfg.launch d [] app evidence) e)
    (hrun' : Run d' (cfg'.launch d' [] app' evidence') e')
    {f : List (Block × BlockContext) → List ValidatorUpdate} (hf : AnsweredBy f (answers e.trace))
    (hf' : AnsweredBy f (answers e'.trace))
    (horder : Orderly (Epoch.genesis cfg.validatorSet) (ranBlocks e.trace))
    (horder' : Orderly (Epoch.genesis cfg.validatorSet) (ranBlocks e'.trace))
    {chain chain' : List Answer} (hchain : chain <+: answers e.trace)
    (hchain' : chain' <+: answers e'.trace)
    (hblocks : chain.map Answer.block = chain'.map Answer.block) :
    chain.map Answer.context = chain'.map Answer.context := by
  have hcontexts' := contexts_of_chain d' cfg' app' evidence' hrun' (by rw [hset]; exact horder')
  rw [hset] at hcontexts'
  have hexecuted := ((contexts_of_chain d cfg app evidence hrun horder).agree hcontexts' hf hf'
    hchain
    hchain' hblocks).1
  have hcontexts := congrArg (map Prod.snd) hexecuted
  rw [map_map, map_map] at hcontexts
  exact hcontexts

/-! Two validators need each other's votes; the first one leads views 1 to 3. -/

section Scripts

open Sample

/-- The block of view 1 is committed; that of view 2 is proposed, and certified by the leader. -/
def untilCertified : List (Move 2) :=
  [.task leader, .relay replica leader 0, .relay leader replica 0, .relay replica leader 1,
    .relay leader replica 1, .task leader, .relay replica leader 2, .task replica,
    .relay leader replica 3]

/-- The leader also collects the second votes of view 2, and commits; so does the other node in
view 3. -/
def committedAtOnce : List (Move 2) :=
  untilCertified ++ [.relay replica leader 3, .relay leader replica 4, .task leader,
    .relay replica leader 4, .task replica, .relay leader replica 6, .relay replica leader 5,
    .relay replica leader 6, .relay replica replica 7]

/-- Both nodes time out in view 2, and commit its block together with that of view 3. -/
def committedAfterTimeout : List (Move 2) :=
  untilCertified ++ [.timeout leader, .timeout replica, .relay leader replica 4, .task leader,
    .relay replica leader 5, .relay replica leader 6, .relay leader replica 7,
    .relay replica leader 7, .relay replica leader 8, .relay replica replica 8]

/-- The leader commits in view 2. -/
def committedByLeader : List (Move 2) :=
  untilCertified ++ [.relay replica leader 3, .relay leader replica 4]

end Scripts

/-- The leader at the end of a script. -/
def firstNode (heights : List ℕ) (moves : List (Sample.Move 2)) : Engine Unit :=
  outcome (coupled heights) moves leader

/-- The other node at the end of a script. -/
def secondNode (heights : List ℕ) (moves : List (Sample.Move 2)) : Engine Unit :=
  outcome (coupled heights) moves replica

/-- Updates that depend on the height only are a function of the blocks executed so far. -/
lemma answeredBy_height (updates : ℕ → List ValidatorUpdate)
    (h : ∀ a ∈ executed, a.updates = updates a.context.height) :
    AnsweredBy (fun chain => (chain.getLast?.map fun p => updates p.2.height).getD []) executed :=
    by
  rintro before a later rfl
  rw [h a (mem_append_right _ mem_cons_self)]
  simp

/-- With updates at height 1, two blocks that are committed one by one or after a timeout. -/
theorem execution_contexts_agree_two : (coupled [1]).Run (outcome (coupled [1]) committedByLeader)
      ∧ (coupled [1]).Run (outcome (coupled [1]) committedAfterTimeout)
      ∧ ((answers (secondNode [1] committedAfterTimeout).trace).take 2).length = 2
      ∧ ((answers (firstNode [1] committedByLeader).trace).take 2).map Answer.context
        = ((answers (secondNode [1] committedAfterTimeout).trace).take 2).map Answer.context := by
  have hrun := run_outcome (coupled [1]) rfl committedByLeader
  have hrun' := run_outcome (coupled [1]) rfl committedAfterTimeout
  refine ⟨hrun, hrun', by decide +kernel, ?_⟩
  exact execution_contexts_agree _ _ ((coupled [1]).config leader)
    ((coupled [1]).config replica) rfl () () .empty .empty (hrun.node leader)
    (hrun'.node replica) (answeredBy_height (updatesAt [1]) (by decide +kernel))
    (answeredBy_height (updatesAt [1]) (by decide +kernel))
    (by decide +kernel) (by decide +kernel)
    ( take_prefix _ _) ( take_prefix _ _) (by decide +kernel)

/-- With updates at heights 1 and 2 the same three blocks are executed in epochs 0, 0, 0 and in
epochs 0, 0, 1. -/
theorem contexts_differ : (coupled [1, 2]).Run (outcome (coupled [1, 2]) committedAtOnce)
      ∧ (coupled [1, 2]).Run (outcome (coupled [1, 2]) committedAfterTimeout)
      ∧ (answers (secondNode [1, 2] committedAtOnce).trace).map Answer.block
        = (answers (secondNode [1, 2] committedAfterTimeout).trace).map Answer.block
      ∧ (answers (secondNode [1, 2] committedAtOnce).trace).map (·.context.epoch) = [0, 0, 0]
      ∧ (answers (secondNode [1, 2] committedAfterTimeout).trace).map (·.context.epoch)
        = [0, 0, 1] :=
  ⟨run_outcome _ rfl _, run_outcome _ rfl _, by decide +kernel, by decide +kernel,
    by decide +kernel⟩

end Hotmint
