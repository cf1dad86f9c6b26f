/-
What acts write to the disk, and runs with crashes.

* `free`: effects that write no key and no log entry, release no vote and
  execute no block (they may flush);
* `DiskAct`, `Act.disk`: **an act has free effects, or is one of those that do
  write, with what exactly**;
* `SavedState.persisted`, `cache_persistEffects`: the checkpoint of
  `persist_state`;
* `CrashRunWhere.invariant`: **the invariant rule for runs with crashes and
  restarts**.
-/
import Hotmint.Library.Prefixes
import Hotmint.Proof.Start
import Hotmint.Proof.Tracked

namespace Hotmint

open Engine List Effect NodeConfig
variable {σ : Type} {d : Deps σ} {A : Allowance}
variable {effect : Effect} {e : Engine σ}

/-! ### Effects on the disk -/

/-- Effects that write no key and no log entry, release no vote and execute no
block. -/
def Effect.free : Effect → Bool
  | .save _ | .crash | .walWrite _ | .walTruncate => false
  | .signVote1 _ _ _ _ | .signVote2 _ _ | .countVote _ => false
  | .sendTo _ (.voteMsg _) | .sendTo _ (.vote2Msg _) => false
  | .broadcast (.voteMsg _) | .broadcast (.vote2Msg _) => false
  | .app (.executeBlock _ _ _) => false
  | _ => true

lemma Effect.free_of_calm (h : effect.calm = true) : effect.free = true := by
  cases effect with
  | broadcast msg | sendTo target msg => cases msg <;> first | rfl | cases h
  | app call => cases call <;> first | rfl | cases h
  | save | crash | walWrite | walTruncate | signVote1 | signVote2 | countVote => cases h
  | _ => rfl

namespace Disk

lemma after_append (t effects : List Effect) :
    after (t ++ effects) = effects.foldl apply (after t) := by
  rw [after, foldl_append]
  rfl

lemma after_concat (t : List Effect) (effect : Effect) :
    after (t ++ [effect]) = (after t).apply effect := by
  rw [after_append]
  rfl

/-- A free effect keeps the keys, or flushes them, and keeps the log. -/
lemma apply_free (disk : Disk) (h : effect.free = true) :
    (disk.apply effect).cache = disk.cache ∧ (disk.apply effect).wal = disk.wal
      ∧ ((disk.apply effect).flushed = disk.flushed
        ∨ (disk.apply effect).flushed = disk.cache) := by
  cases effect with
  | flush => exact ⟨rfl, rfl, .inr rfl⟩
  | save | crash | walWrite | walTruncate => cases h
  | _ => exact ⟨rfl, rfl, .inl rfl⟩

end Disk

/-! ### Checkpoints -/

/-- The keys after `persist_state`; a missing certificate is not written. -/
def SavedState.persisted (saved : SavedState) (e : Engine σ) : SavedState :=
  { saved with
    currentView := some e.state.currentView
    lockedQc := e.state.lockedQc.or saved.lockedQc
    highestQc := e.state.highestQc.or saved.highestQc
    lastCommittedHeight := some e.state.lastCommittedHeight
    currentEpoch := some e.state.currentEpoch
    previousEpoch := e.previousEpoch
    lastAppHash := some e.state.lastAppHash
    pendingEpoch := e.pendingEpoch }

/-- A lock that the engine's lock covers is overwritten by it. -/
lemma SavedState.persisted_lockedQc {saved : SavedState}
    (h : ConsensusState.QcLe saved.lockedQc e.state.lockedQc) :
    (saved.persisted e).lockedQc = e.state.lockedQc := by
  change e.state.lockedQc.or saved.lockedQc = e.state.lockedQc
  cases hl : e.state.lockedQc with
  | some l => rfl
  | none =>
    cases hc : saved.lockedQc with
    | none => rfl
    | some l =>
      obtain ⟨l', hl', -⟩ := h l hc
      rw [hl] at hl'
      cases hl'

/-- **The checkpoint**: after its writes the buffered keys are those of the
engine; the flushed ones are still the old ones. -/
lemma Disk.after_persistSaves (t : List Effect) (e : Engine σ) :
    (after (t ++ e.persistSaves)).cache = (after t).cache.persisted e
      ∧ (after (t ++ e.persistSaves)).flushed = (after t).flushed
      ∧ (after (t ++ e.persistSaves)).wal = (after t).wal := by
  rw [after_append]
  unfold persistSaves SavedState.persisted
  cases e.state.lockedQc <;> cases e.state.highestQc <;> exact ⟨rfl, rfl, rfl⟩

lemma Disk.after_persistEffects (hpersist : d.hasPersistence = true) (t : List Effect)
    (e : Engine σ) : (after (t ++ e.persistEffects d)).cache = (after t).cache.persisted e
      ∧ (after (t ++ e.persistEffects d)).flushed = (after t).cache.persisted e := by
  rw [persistEffects_eq hpersist, ← append_assoc, after_concat]
  exact ⟨(after_persistSaves t e).1, (after_persistSaves t e).1⟩

section Prefixes

variable {Q : List Effect → Prop} {t : List Effect}

/-- Writes that are flushed together. -/
lemma everyPrefix_flush {saves : List Effect} (h : EveryPrefix Q t)
    (hsave : ∀ p item, Q p → Q (p ++ [.save item]))
    (hsaves : ∀ effect ∈ saves, ∃ item, effect = .save item)
    (hend : Q (t ++ (saves ++ [.flush]))) : EveryPrefix Q (t ++ (saves ++ [.flush])) := by
  rw [← append_assoc] at hend ⊢
  refine EveryPrefix.concat (h.append _ ?_ hsaves) hend
  rintro p effect ⟨item, rfl⟩ hp
  exact hsave p item hp

/-- **A checkpoint.** -/
lemma everyPrefix_checkpoint (hpersist : d.hasPersistence = true) (h : EveryPrefix Q t)
    (hsave : ∀ p item, Q p → Q (p ++ [.save item])) (hend : Q (t ++ e.persistEffects d)) :
    EveryPrefix Q (t ++ e.persistEffects d) := by
  rw [persistEffects_eq hpersist] at hend ⊢
  exact everyPrefix_flush h hsave (fun _ => mem_persistSaves) hend

/-- The checkpoint of a start. -/
lemma everyPrefix_launch (h : EveryPrefix Q t) (hsave : ∀ p item, Q p → Q (p ++ [.save item]))
    (hend : Q (t ++ checkpointEffects d e)) : EveryPrefix Q (t ++ checkpointEffects d e) := by
  unfold checkpointEffects at hend ⊢
  split_ifs at hend ⊢
  · change EveryPrefix Q (t ++ ([_, _, _, _, _, _] ++ [.flush]))
    exact everyPrefix_flush h hsave (by simp) hend
  · rwa [append_nil]

/-- **The history a restart begins with.** -/
lemma everyPrefix_restartTrace {p : List Effect} (h : EveryPrefix Q p)
    (hcrash : ∀ q, Q q → Q (q ++ [.crash])) (htruncate : ∀ q, Q q → Q (q ++ [.walTruncate])) :
    EveryPrefix Q (restartTrace p) := by
  unfold restartTrace
  rw [append_cons]
  have hcut : EveryPrefix Q (p ++ [.crash]) := h.concat (hcrash p h.self)
  split_ifs
  · rwa [append_nil]
  · exact hcut.concat (htruncate _ hcut.self)

end Prefixes

/-! ### Acts on the disk -/

/-- What an act writes to the disk. -/
inductive DiskAct (d : Deps σ) (A : Allowance) (x y : Flow σ) : List Effect → Prop
  | free {effects : List Effect} (hfree : ∀ effect ∈ effects, effect.free = true)
      (hvote1 : y.engine.state.lastVote1 = x.engine.state.lastVote1)
      (hvote2 : y.engine.state.lastVote2 = x.engine.state.lastVote2)
      (hheight : y.engine.state.lastCommittedHeight = x.engine.state.lastCommittedHeight)
      (hphase : y.phase = x.phase
        ∨ ∃ result, x.phase = .executed result ∧ y.phase = .adopted result)
      (hroot : y.engine.state.lastAppHash = x.engine.state.lastAppHash) :
      DiskAct d A x y effects
  | vote1 (vote : Vote) (block : Block) (justify : QuorumCertificate)
      (h : Tracked d A x.engine y.engine (.signVote1 vote block justify x.engine.state.lockedQc))
      (hphase : y.phase = x.phase) (halive : x.phase ≠ .dead) :
      DiskAct d A x y (slotEffects d .vote x.engine.state.currentView block.hash
        ++ [.signVote1 vote block justify x.engine.state.lockedQc])
  | vote2 (vote : Vote) (qc : QuorumCertificate)
      (h : Tracked d A x.engine y.engine (.signVote2 vote qc)) (hphase : y.phase = x.phase) :
      DiskAct d A x y (slotEffects d .vote2 x.engine.state.currentView qc.blockHash
        ++ [.signVote2 vote qc])
  | release1 (vote : Vote) (effect : Effect)
      (heffect : effect = .countVote vote ∨ ∃ leader, effect = .sendTo leader (.voteMsg vote))
      (htype : vote.voteType = .vote)
      (hslot : x.engine.state.lastVote1 = some (vote.view, vote.blockHash))
      (hstate : y.engine.state = x.engine.state) (hphase : y.phase = x.phase) :
      DiskAct d A x y [effect]
  | release2 (vote : Vote) (effect : Effect)
      (heffect : effect = .countVote vote ∨ ∃ leader, effect = .sendTo leader (.vote2Msg vote))
      (htype : vote.voteType = .vote2)
      (hslot : x.engine.state.lastVote2 = some (vote.view, vote.blockHash))
      (hlock : ∃ locked, x.engine.state.lockedQc = some locked ∧ vote.view ≤ locked.view)
      (hstate : y.engine.state = x.engine.state) (hphase : y.phase = x.phase)
      (hidle : x.phase = .idle) : DiskAct d A x y (x.engine.persistEffects d ++ [effect])
  | persist (hstate : y.engine.state = x.engine.state) (hphase : y.phase = x.phase)
      (hidle : x.phase = .idle) : DiskAct d A x y (x.engine.persistEffects d)
  | saved (env : Env) (hstate : y.engine.state = x.engine.state)
      (hphase : ∃ result, x.phase = .adopted result)
      (hphase' : y.phase = .idle) :
      DiskAct d A x y (x.engine.persistEffects d
        ++ unlogEffects d env x.engine.state.lastCommittedHeight)
  | intent (height : ℕ) (hstate : y.engine.state = x.engine.state) (hidle : x.phase = .idle)
      (hphase : y.phase = .idle) : DiskAct d A x y [.walWrite (.commitIntent height)]
  | unlog (env : Env) (height : ℕ) (hstate : y.engine.state = x.engine.state)
      (hidle : x.phase = .idle) (hphase : y.phase = .idle) :
      DiskAct d A x y (unlogEffects d env height)
  | commit (dc : DoubleCertificate) (hdc : KnownDc x.engine.trace dc)
      (hlogged : d.hasWal = true → A.unlogged
        ∨ ∀ target, x.engine.store.getBlock dc.innerQc.blockHash = some target →
          IntentLogged x.engine.trace target.height)
      (hvote1 : y.engine.state.lastVote1 = x.engine.state.lastVote1)
      (hvote2 : y.engine.state.lastVote2 = x.engine.state.lastVote2)
      (hheight : y.engine.state.lastCommittedHeight
        = (x.engine.commitRun d dc).lastCommittedHeight) (hidle : x.phase = .idle)
      (hphase : y.phase = phaseAfter (x.engine.commitRun d dc).outcome)
      (hstore : y.engine.store = x.engine.store)
      (hroot : y.engine.state.lastAppHash
        = rootAfter x.engine.state.lastAppHash (x.engine.commitRun d dc).outcome) :
      DiskAct d A x y (.tryCommit dc :: (x.engine.commitRun d dc).calls.map .app
        ++ failureEffects (x.engine.commitRun d dc).outcome)

lemma Filed.disk {e' : Engine σ} (h : Filed e e') {φ : Phase} : ∃ effects,
    e'.trace = e.trace ++ effects ∧ DiskAct d A ⟨e, φ⟩ ⟨e', φ⟩ effects := by
  obtain ⟨store, effects, rfl, hflush⟩ := h
  refine ⟨effects, rfl, .free (fun effect hmem => ?_) rfl rfl rfl (.inl rfl) rfl⟩
  rw [hflush effect hmem]
  rfl

/-- **What an act writes.** -/
theorem Act.disk {x y : Flow σ} (h : Act d A x y) : ∃ effects,
    y.engine.trace = x.engine.trace ++ effects ∧ DiskAct d A x y effects := by
  cases h with
  | quiet h =>
    obtain ⟨effects, heq, hquiet⟩ := h.trace
    exact ⟨effects, heq, .free (fun effect hmem =>
        free_of_calm (calm_of_quiet (hquiet effect hmem)))
      h.lastVote1 h.lastVote2 h.lastCommittedHeight (.inl rfl) h.lastAppHash⟩
  | verified cert _ _ _ => exact ⟨_, rfl, .free (by simp [free]) rfl rfl rfl (.inl rfl) rfl⟩
  | @collect e vote _ _ _ _ =>
    obtain ⟨effects, heq, heffects⟩ := collectVote_eq (d := d) e vote
    refine ⟨effects, by rw [heq], .free (fun effect hmem => ?_) ?_ ?_ ?_ (.inl rfl) ?_⟩
    · rcases heffects effect hmem with hquiet | ⟨qc, rfl, -⟩ | ⟨proof, -, rfl⟩
      · exact free_of_calm (calm_of_quiet hquiet)
      · rfl
      · rfl
    · rw [heq]
    · rw [heq]
    · rw [heq]
    · rw [heq]
  | @wish e targetView validator highestQc signature _ _ _ _ =>
    unfold addWish
    split
    · exact ⟨_, rfl, .free (by simp [free]) rfl rfl rfl (.inl rfl) rfl⟩
    · exact ⟨[], (append_nil _).symm, .free (by simp) rfl rfl rfl (.inl rfl) rfl⟩
  | formDc dc _ _ _ => exact ⟨_, rfl, .free (by simp [free]) rfl rfl rfl (.inl rfl) rfl⟩
  | @vote1 e e' φ vote block justify hsign hblock hview hjustify hroot hphase =>
    obtain ⟨hvote, heq, hslot⟩ := signVote1_spec hsign
    exact ⟨_, by rw [heq]; rfl, .vote1 vote block justify
        (.vote1 vote block justify hvote hslot heq hblock hview hjustify hroot) rfl hphase⟩
  | release1 vote effect heffect _ htype hslot =>
    exact ⟨_, rfl, .release1 vote effect heffect htype hslot rfl rfl⟩
  | @vote2 e e' vote qc extension hsign hqc hview hlock =>
    obtain ⟨hvote, heq, hslot⟩ := signVote2_spec hsign
    exact ⟨_, by rw [heq]; rfl,
      .vote2 vote qc (.vote2 vote qc extension hvote hslot heq hqc hview hlock) rfl⟩
  | release2 vote effect heffect _ htype hslot hlock =>
    rw [persistState_eq]
    exact ⟨_, append_assoc _ _ _, .release2 vote effect heffect htype hslot hlock rfl rfl rfl⟩
  | persist =>
    rw [persistState_eq]
    exact ⟨_, rfl, .persist rfl rfl rfl⟩
  | putBlock block _
  | payload env parent _ => exact ⟨_, rfl, .free (by simp [free]) rfl rfl rfl (.inl rfl) rfl⟩
  | proposal block justify _ _ | putJustify justified qc _ _ _ =>
    exact ⟨_, rfl, .free (by simp [free]) rfl rfl rfl (.inl rfl) rfl⟩
  | intent height => exact ⟨_, rfl, .intent height rfl rfl rfl⟩
  | @commit e dc hdc hlogged =>
    obtain ⟨_, _, heq⟩ := runTryCommit_eq (d := d) e dc
    refine ⟨_, by rw [heq], .commit dc hdc hlogged ?_ ?_ ?_ rfl ?_ ?_ ?_⟩
    · rw [heq]
    · rw [heq]
    · rw [heq]
    · rw [runTryCommit_outcome]
    · rw [heq]
    · exact runTryCommit_lastAppHash e dc
  | @settle e result =>
    rw [settle_eq, adoptCommitEpoch_eq]
    refine ⟨_, rfl, .free (fun effect hmem => ?_) rfl rfl rfl (.inr ⟨result, rfl, rfl⟩) rfl⟩
    rcases mem_storeEffects hmem with ⟨height, qc, rfl⟩ | ⟨height, response, rfl⟩ <;> rfl
  | saved env result =>
    rw [persistState_eq, finishWalIntent_eq]
    exact ⟨_, append_assoc _ _ _, .saved env rfl ⟨result, rfl⟩ rfl⟩
  | mark result => exact (filed_markEvidence _ _).disk
  | gossip proof _ => exact (filed_handleEvidence _ proof).disk
  | unlog env height =>
    rw [finishWalIntent_eq]
    exact ⟨_, rfl, .unlog env height rfl rfl rfl⟩
  | @move e view trigger hlt hreason =>
    obtain ⟨effects, heq, hcalm⟩ := trace_moveTo (d := d) e view trigger
    have hfree : ∀ effect ∈ effects, effect.free = true := fun effect hmem =>
      free_of_calm (hcalm effect hmem)
    obtain ⟨_, _, -, hmove | ⟨_, _, _, -, -, -, -, hmove⟩⟩ := moveTo_eq (d := d) e view trigger
    · exact ⟨effects, heq, .free hfree (by rw [hmove]) (by rw [hmove]) (by rw [hmove]) (.inl rfl)
        (by rw [hmove])⟩
    · exact ⟨effects, heq, .free hfree (by rw [hmove]) (by rw [hmove]) (by rw [hmove]) (.inl rfl)
        (by rw [hmove])⟩
  | @raise e qc _ =>
    rw [mapState, ConsensusState.updateHighestQc_eq]
    exact ⟨[], (append_nil _).symm, .free (by simp) rfl rfl rfl (.inl rfl) rfl⟩
  | @lock e qc _ _ =>
    rw [mapState, ConsensusState.updateHighestQc_eq, ConsensusState.updateLockedQc_eq]
    exact ⟨[], (append_nil _).symm, .free (by simp) rfl rfl rfl (.inl rfl) rfl⟩
  | viewQc _ _
  | push _ _
  | pop _ _ _ => exact ⟨[], (append_nil _).symm, .free (by simp) rfl rfl rfl (.inl rfl) rfl⟩

/-! ### The invariant rule -/

/-- A fresh node has only written its checkpoint. -/
lemma Fresh.stored {cfg : NodeConfig} (h : Fresh cfg e) (hmem : effect ∈ e.trace) :
    effect.stored = true := by
  rcases h.trace effect hmem with ⟨item, rfl⟩ | rfl <;> rfl

lemma Fresh.todoOk {cfg : NodeConfig} (h : Fresh cfg e) : TodoOk A e := by
  intro task htask
  rw [h.todo task htask]
  trivial

/-- **The invariant rule for runs with crashes**: an invariant of acts that holds
after a first start and, wherever the trace is cut off, after a restart, holds in
every state.  A node that acts is past view 0. -/
theorem CrashRunWhere.invariant {cfg : NodeConfig} {P : Engine σ → Label → Prop}
    {R : List Effect → Prop} {I : Flow σ → Prop}
    (hact : ∀ x y, 0 < x.engine.state.currentView → Act d A x y → I x → I y)
    (hlabel : ∀ e label, P e label → LabelOk A label) (hholds : ∀ e : Engine σ, A.Holds e)
    (hstart : ∀ app evidence, I ⟨cfg.launch d [] app evidence, .idle⟩)
    (hrestart : ∀ e φ p app evidence, I ⟨e, φ⟩ → p <+: e.trace →
      recovery p = .clean → R (restartTrace p) →
      I ⟨cfg.launch d (restartTrace p) app evidence, .idle⟩) (hrun : CrashRunWhere d cfg P R e) :
    Settled (fun x => TodoOk A x.engine ∧ I x) e := by
  have htodo : ∀ trace app evidence, TodoOk A (cfg.launch d trace app evidence) := by
    intro trace app evidence task htask
    rw [todo_launch htask]
    trivial
  suffices hboth : Settled (fun x => TodoOk A x.engine ∧ I x) e
      ∧ (e.halted = true ∨ 0 < e.state.currentView) from hboth.1
  induction hrun with
  | start app evidence =>
    exact ⟨⟨.idle, .inl rfl, htodo _ _ _, hstart app evidence⟩, view_launch⟩
  | @step e label _ henabled hP ih =>
    obtain ⟨hsettled, hview⟩ := ih
    have hpos : 0 < e.state.currentView := by
      rcases hview with hhalt | hpos
      · rw [not_halted_of_enabled henabled] at hhalt
        cases hhalt
      · exact hpos
    obtain ⟨htodo, hI⟩ := hsettled.idle henabled
    have hstep : Settled (fun x => TodoOk A x.engine ∧ 0 < x.engine.state.currentView ∧ I x)
        (e.apply d label) := by
      refine Settled.step (fun x y _ hxy hx => ?_) henabled (hlabel _ _ hP) (hholds _)
        ⟨.idle, .inl rfl, htodo, hpos, hI⟩
      exact ⟨hx.1.trans_le hxy.currentView_le, hact x y hx.1 hxy hx.2⟩
    obtain ⟨φ, hφ, htodo', hpos', hI'⟩ := hstep
    exact ⟨⟨φ, hφ, htodo', hI'⟩, .inr hpos'⟩
  | @restart e p _ hp hclean hR app evidence ih =>
    obtain ⟨⟨φ, -, -, hI⟩, -⟩ := ih
    exact ⟨⟨.idle, .inl rfl, htodo _ _ _, hrestart e φ p app evidence hI hp hclean hR⟩, view_launch⟩

/-! ### Restarts -/

namespace Disk

/-- What a restart finds: the flushed keys and an empty log. -/
lemma after_restartTrace (p : List Effect) : (after (restartTrace p)).cache = (after p).flushed
      ∧ (after (restartTrace p)).flushed = (after p).flushed
      ∧ (after (restartTrace p)).wal = [] := by
  unfold restartTrace
  rw [after_append]
  split_ifs with hwal
  · exact ⟨rfl, rfl, isEmpty_iff.mp hwal⟩
  · exact ⟨rfl, rfl, rfl⟩

end Disk

end Hotmint
