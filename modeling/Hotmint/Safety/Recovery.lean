/-
Crash consistency of commits: wherever the process dies, an executed block above
the flushed height is announced by the last entry of the log.

* `LogOk`: the property of one crash point;
* `LogInv`, `LogInv.act`: outside of commits everything executed is flushed, within
  a commit the last log entry is an intent that covers it;
* `crash_is_announced`: **so every crash point is in order**, in runs with restarts
  whose proposals do not carry a double certificate for their own block, as long as
  all validator updates could be applied;
* `crash_unannounced`: a proposal with a double certificate for its own block is
  executed without an intent.
-/
import Hotmint.Safety.Execution

namespace Hotmint

open Sample Engine List Effect NodeConfig
variable {σ : Type} {d : Deps σ} {A : Allowance}
variable {effect : Effect} {x y : Flow σ} {effects l t trace : List Effect} {target : ℕ}

/-! ### Crash points -/

/-- The durably saved height. -/
def flushedHeight (trace : List Effect) : ℕ :=
  (Disk.after trace).flushed.lastCommittedHeight.getD 0

/-- The saved height that a flush would make durable. -/
def cachedHeight (trace : List Effect) : ℕ :=
  (Disk.after trace).cache.lastCommittedHeight.getD 0

/-- What was executed above the durable height is covered by an intent at the end
of the log. -/
def LogOk (trace : List Effect) : Prop :=
  ∀ height ∈ ranHeights trace, flushedHeight trace < height →
    ∃ target, IntentLogged trace target ∧ height ≤ target

/-- Everything executed is durable, and stays so at a flush. -/
def Flushed (trace : List Effect) : Prop :=
  ∀ height ∈ ranHeights trace, height ≤ flushedHeight trace ∧ height ≤ cachedHeight trace

/-- Everything executed is covered by an intent for the given height. -/
def CoveredBy (target : ℕ) (trace : List Effect) : Prop :=
  IntentLogged trace target ∧ ∀ height ∈ ranHeights trace, height ≤ target

lemma Flushed.logOk (h : Flushed trace) : LogOk trace := by
  intro height hmem hlt
  have hle := (h height hmem).1
  omega

lemma CoveredBy.logOk (h : CoveredBy target trace) : LogOk trace :=
  fun height hmem _ => ⟨target, h.1, h.2 height hmem⟩

/-- The next start refuses to run. -/
lemma IntentLogged.recovery (h : IntentLogged trace target)
    (hlt : flushedHeight trace < target) : NodeConfig.recovery trace = .needsReplay target := by
  unfold NodeConfig.recovery checkRecovery
  rw [show (Disk.after trace).wal.getLast? = some (.commitIntent target) from h]
  exact if_neg (not_le.mpr hlt)

/-! ### Effects -/

/-- Effects that save no height and write no log entry, and execute nothing. -/
def Effect.keepsLog : Effect → Bool
  | .save (.lastCommittedHeight _) | .crash | .walWrite _ | .walTruncate => false
  | effect => effect.ranHeight.isNone

lemma Effect.keepsLog_of_free (h : effect.free = true) : effect.keepsLog = true := by
  cases effect with
  | save | crash | walWrite | walTruncate => cases h
  | app call => cases call <;> first | rfl | cases h
  | _ => rfl

lemma Effect.keepsLog_ranHeight (h : effect.keepsLog = true) : effect.ranHeight = none := by
  cases effect with
  | app call => cases call <;> first | rfl | cases h
  | _ => rfl

lemma ranHeights_concat (h : effect.ranHeight = none) :
    ranHeights (trace ++ [effect]) = ranHeights trace := by
  rw [ranHeights_append, ranHeights_eq_nil (forall_mem_singleton.mpr h), append_nil]

/-- Such an effect keeps the log, and may flush the height. -/
lemma keepsLog_concat (trace : List Effect) (h : effect.keepsLog = true) :
    ranHeights (trace ++ [effect]) = ranHeights trace
      ∧ (Disk.after (trace ++ [effect])).wal = (Disk.after trace).wal
      ∧ cachedHeight (trace ++ [effect]) = cachedHeight trace
      ∧ (flushedHeight (trace ++ [effect]) = flushedHeight trace
        ∨ flushedHeight (trace ++ [effect]) = cachedHeight trace) := by
  refine ⟨ranHeights_concat (keepsLog_ranHeight h), ?_⟩
  unfold cachedHeight flushedHeight
  rw [Disk.after_concat]
  cases effect with
  | flush => exact ⟨rfl, rfl, .inr rfl⟩
  | save item =>
    cases item with
    | lastCommittedHeight => cases h
    | lastVote t view hash => cases t <;> exact ⟨rfl, rfl, .inl rfl⟩
    | _ => exact ⟨rfl, rfl, .inl rfl⟩
  | crash | walWrite | walTruncate => cases h
  | _ => exact ⟨rfl, rfl, .inl rfl⟩

lemma Flushed.concat (h : Flushed trace)
    (heffect : effect.keepsLog = true) : Flushed (trace ++ [effect]) := by
  obtain ⟨hran, -, hcached, hflushed⟩ := keepsLog_concat trace heffect
  intro height hmem
  rw [hran] at hmem
  obtain ⟨hle, hle'⟩ := h height hmem
  rw [hcached]
  rcases hflushed with heq | heq
  · exact ⟨by omega, hle'⟩
  · exact ⟨by omega, hle'⟩

/-- Effects that leave the log alone and execute covered heights. -/
lemma CoveredBy.concat
    (h : CoveredBy target trace) (hwal : ∀ disk : Disk, (disk.apply effect).wal = disk.wal)
    (hran : ∀ height, effect.ranHeight = some height → height ≤ target) :
    CoveredBy target (trace ++ [effect]) := by
  refine ⟨?_, fun height hmem => ?_⟩
  · unfold IntentLogged
    rw [Disk.after_concat, hwal]
    exact h.1
  · rw [ranHeights_append] at hmem
    rcases mem_append.mp hmem with hmem | hmem
    · exact h.2 height hmem
    · obtain ⟨e, he, heq⟩ := mem_filterMap.mp hmem
      exact hran height (mem_singleton.mp he ▸ heq)

/-- Log entries change nothing when everything is durable. -/
lemma Flushed.log (h : Flushed trace)
    (heffect : (∃ entry, effect = .walWrite entry) ∨ effect = .walTruncate) :
    Flushed (trace ++ [effect]) := by
  have hran : effect.ranHeight = none := by rcases heffect with ⟨entry, rfl⟩ | rfl <;> rfl
  intro height hmem
  rw [ranHeights_concat hran] at hmem
  have hle := h height hmem
  unfold flushedHeight cachedHeight at hle ⊢
  rw [Disk.after_concat]
  rcases heffect with ⟨entry, rfl⟩ | rfl <;> exact hle

/-- Between a write and its flush nothing durable changes. -/
lemma LogOk.save (item : SavedItem) (h : LogOk trace) : LogOk (trace ++ [.save item]) := by
  intro height hmem hlt
  rw [ranHeights_concat rfl] at hmem
  unfold flushedHeight at hlt
  rw [Disk.after_concat] at hlt
  obtain ⟨target, hintent, hle⟩ := h height hmem hlt
  refine ⟨target, ?_, hle⟩
  unfold IntentLogged
  rw [Disk.after_concat]
  exact hintent

/-- A crash point, unless updates were rejected before. -/
def CrashOk (trace : List Effect) : Prop := RejectedUpdates trace ∨ LogOk trace

lemma RejectedUpdates.mono {t' : List Effect} (hsub : t ⊆ t') (h : RejectedUpdates t) :
    RejectedUpdates t' := by
  obtain ⟨height, reason, hmem⟩ := h
  exact ⟨height, reason, hsub hmem⟩

lemma CrashOk.save (p : List Effect) (item : SavedItem) (h : CrashOk p) :
    CrashOk (p ++ [.save item]) :=
  h.imp (fun hp => hp.mono (subset_append_left _ _)) fun hp => hp.save item

lemma crashOk_rejected (h : EveryPrefix CrashOk t) (hrejected : RejectedUpdates t) :
    EveryPrefix CrashOk (t ++ l) :=
  (EveryPrefix.append_of_strong (fun _ => True)
    (fun _ _ _ hp => hp.mono (subset_append_left _ _)) (fun _ hp => .inl hp) h hrejected
    fun _ _ => trivial).1

lemma crashOk_flushed (h : EveryPrefix CrashOk t) (hflushed : Flushed t)
    (hl : ∀ effect ∈ l, effect.keepsLog = true ∨ (∃ entry, effect = .walWrite entry)
      ∨ effect = .walTruncate) : EveryPrefix CrashOk (t ++ l) ∧ Flushed (t ++ l) := by
  refine EveryPrefix.append_of_strong _ (fun p effect heffect hp => ?_)
    (fun p hp => .inr hp.logOk) h hflushed hl
  rcases heffect with hkeeps | hlog
  · exact hp.concat hkeeps
  · exact hp.log hlog

lemma crashOk_covered (h : EveryPrefix CrashOk t) (hcovered : CoveredBy target t)
    (hl : ∀ effect ∈ l, (∀ disk : Disk, (disk.apply effect).wal = disk.wal)
      ∧ ∀ height, effect.ranHeight = some height → height ≤ target) :
    EveryPrefix CrashOk (t ++ l) ∧ CoveredBy target (t ++ l) :=
  EveryPrefix.append_of_strong _ (fun _ _ heffect hp => hp.concat heffect.1 heffect.2)
    (fun _ hp => .inr hp.logOk) h hcovered hl

/-- **A checkpoint** makes everything counted durable. -/
lemma crashOk_checkpoint (hpersist : d.hasPersistence = true) {e : Engine σ}
    (h : EveryPrefix CrashOk e.trace)
    (hcounted : ∀ height ∈ ranHeights e.trace, height ≤ e.state.lastCommittedHeight) :
    EveryPrefix CrashOk (e.trace ++ e.persistEffects d) ∧ Flushed (e.trace ++ e.persistEffects d) :=
    by
  obtain ⟨hcache, hflushed⟩ := Disk.after_persistEffects hpersist e.trace e
  have hend : Flushed (e.trace ++ e.persistEffects d) := by
    intro height hmem
    rw [ranHeights_append, ranHeights_persistEffects, append_nil] at hmem
    unfold flushedHeight cachedHeight
    rw [hflushed, hcache]
    exact ⟨hcounted height hmem, hcounted height hmem⟩
  exact ⟨everyPrefix_checkpoint hpersist h CrashOk.save (.inr hend.logOk), hend⟩

/-! ### Every act -/

/-- A crash point of a state: outside of commits everything executed is flushed,
within one an intent covers it; and everything executed is counted, unless the node
stopped. -/
structure LogInv (x : Flow σ) : Prop where
  every : EveryPrefix CrashOk x.engine.trace
  flushed : ¬ RejectedUpdates x.engine.trace → x.phase = .idle → Flushed x.engine.trace
  covered : ¬ RejectedUpdates x.engine.trace → x.phase ≠ .idle →
    ∃ target, CoveredBy target x.engine.trace
  counted : ¬ RejectedUpdates x.engine.trace → x.phase ≠ .dead →
    ∀ height ∈ ranHeights x.engine.trace, height ≤ x.engine.state.lastCommittedHeight

/-- After rejected updates nothing is left to show. -/
lemma LogInv.of_rejected
    (heq : y.engine.trace = x.engine.trace ++ effects) (hx : EveryPrefix CrashOk x.engine.trace)
    (hrejected : RejectedUpdates x.engine.trace) : LogInv y := by
  have hrejected' : RejectedUpdates y.engine.trace :=
    heq ▸ hrejected.mono (subset_append_left _ _)
  exact ⟨heq ▸ crashOk_rejected hx hrejected, fun h => absurd hrejected' h,
    fun h => absurd hrejected' h, fun h => absurd hrejected' h⟩

lemma Effect.keepsLog_wal (h : effect.keepsLog = true) (disk : Disk) :
    (disk.apply effect).wal = disk.wal := by
  cases effect with
  | crash | walWrite | walTruncate => cases h
  | _ => rfl

lemma crashOk_keeps (h : EveryPrefix CrashOk t)
    (hcovered : CoveredBy target t) (hl : ∀ effect ∈ l, effect.keepsLog = true) :
    EveryPrefix CrashOk (t ++ l) ∧ CoveredBy target (t ++ l) := by
  refine crashOk_covered h hcovered fun effect hmem => ⟨keepsLog_wal (hl effect hmem), ?_⟩
  intro height hran
  rw [keepsLog_ranHeight (hl effect hmem)] at hran
  cases hran

/-- Effects that touch neither the log nor the saved height. -/
lemma LogInv.keeps (hx : LogInv x) (hok : ¬ RejectedUpdates x.engine.trace)
    (heq : y.engine.trace = x.engine.trace ++ effects)
    (heffects : ∀ effect ∈ effects, effect.keepsLog = true)
    (hheight : y.engine.state.lastCommittedHeight = x.engine.state.lastCommittedHeight)
    (hphase : y.phase = x.phase
      ∨ ∃ result, x.phase = .executed result ∧ y.phase = .adopted result) : LogInv y := by
  have hidle : x.phase = .idle ↔ y.phase = .idle := by
    rcases hphase with h | ⟨result, h, h'⟩
    · rw [h]
    · rw [h, h']
      exact ⟨nofun, nofun⟩
  have hdead : y.phase ≠ .dead → x.phase ≠ .dead := by
    rcases hphase with h | ⟨result, h, -⟩
    · rw [h]
      exact id
    · rw [h]
      exact fun _ => nofun
  have hran : ranHeights y.engine.trace = ranHeights x.engine.trace := by
    rw [heq, ranHeights_append, ranHeights_eq_nil fun effect hmem =>
      keepsLog_ranHeight (heffects effect hmem), append_nil]
  have hcounted : ¬ RejectedUpdates y.engine.trace → y.phase ≠ .dead →
      ∀ height ∈ ranHeights y.engine.trace, height ≤ y.engine.state.lastCommittedHeight := by
    intro _ halive
    rw [hran, hheight]
    exact hx.counted hok (hdead halive)
  by_cases hphase' : x.phase = .idle
  · obtain ⟨hevery, hflushed⟩ := crashOk_flushed hx.every (hx.flushed hok hphase')
      fun effect hmem => .inl (heffects effect hmem)
    exact ⟨heq ▸ hevery, fun _ _ => heq ▸ hflushed, fun _ h => absurd (hidle.mp hphase') h,
      hcounted⟩
  · obtain ⟨target, htarget⟩ := hx.covered hok hphase'
    obtain ⟨hevery, hcovered⟩ := crashOk_keeps hx.every htarget heffects
    exact ⟨heq ▸ hevery, fun _ h => absurd (hidle.mpr h) hphase',
      fun _ _ => ⟨target, heq ▸ hcovered⟩, hcounted⟩

/-- Effects of an idle node after which everything is durable. -/
lemma LogInv.of_flushed (heq : y.engine.trace = t ++ effects) (hphase : y.phase = .idle)
    (hevery : EveryPrefix CrashOk t) (hflushed : Flushed t)
    (heffects : ∀ effect ∈ effects, effect.keepsLog = true ∨ (∃ entry, effect = .walWrite entry)
      ∨ effect = .walTruncate) (hran : ranHeights t = ranHeights x.engine.trace)
    (hcounted : ∀ height ∈ ranHeights x.engine.trace, height ≤ x.engine.state.lastCommittedHeight)
    (hstate : y.engine.state = x.engine.state) : LogInv y := by
  obtain ⟨hevery', hflushed'⟩ := crashOk_flushed hevery hflushed heffects
  refine ⟨heq ▸ hevery', fun _ _ => heq ▸ hflushed', fun _ h => absurd hphase h, fun _ _ => ?_⟩
  have hnone : ranHeights effects = [] := by
    refine ranHeights_eq_nil fun effect hmem => ?_
    rcases heffects effect hmem with hkeeps | ⟨entry, rfl⟩ | rfl
    · exact keepsLog_ranHeight hkeeps
    · rfl
    · rfl
  rw [heq, ranHeights_append, hnone, append_nil, hran, hstate]
  exact hcounted

/-- What a commit executes: nothing, or blocks up to its target. -/
lemma Engine.commitRun_target (e : Engine σ) (dc : DoubleCertificate) :
    ((e.commitRun d dc).calls = []
        ∧ (e.commitRun d dc).lastCommittedHeight = e.state.lastCommittedHeight
        ∧ phaseAfter (e.commitRun d dc).outcome = .idle)
      ∨ ∃ target, e.store.getBlock dc.innerQc.blockHash = some target
        ∧ e.state.lastCommittedHeight ≤ target.height
        ∧ (∀ p ∈ executed (e.commitRun d dc).calls, p.1.height ≤ target.height)
        ∧ (phaseAfter (e.commitRun d dc).outcome = .idle →
          ∃ height reason, (e.commitRun d dc).outcome = .err (.invalidUpdates height reason)) := by
  cases e.commitTrace d dc with
  | nothing hcalls hheight houtcome =>
    refine .inl ⟨hcalls, hheight, ?_⟩
    rcases houtcome with ⟨err, h, -⟩ | ⟨result, h, hempty⟩
    · rw [h]
      rfl
    · rw [h, phaseAfter, hempty]
      rfl
  | @chain target blocks ending x htarget hwalk hchain houtcome hcalls _ =>
    obtain ⟨hheights, hlast⟩ := hwalk.heights
    change target.height = e.state.lastCommittedHeight + blocks.length at hlast
    refine .inr ⟨target, htarget, by omega, fun p hp => ?_, fun hidle => ?_⟩
    · rw [hcalls] at hp
      rcases hchain.executed_subset hp with hold | hmem
      · cases hold
      · have hrange : p.1.height ∈ range' (e.state.lastCommittedHeight + 1) blocks.length :=
          hheights ▸ mem_map_of_mem hmem
        have hle := (mem_range'_1.mp hrange).2
        omega
    · rw [houtcome] at hidle ⊢
      cases ending with
      | completed =>
        have hsome := hwalk.getLast
        cases blocks with
        | nil => cases hsome
        | cons block blocks => cases hidle
      | panicked => cases hidle
      | failed err =>
        obtain ⟨height, reason, rfl⟩ := hchain.failed rfl
        exact ⟨height, reason, rfl⟩

lemma Effect.ranHeight_app {calls : List AppCall} {call : AppCall} (hcall : call ∈ calls)
    {height : ℕ} (h : (app call).ranHeight = some height) :
    ∃ p ∈ executed calls, p.1.height = height := by
  cases call with
  | executeBlock block ctx response =>
    exact ⟨(block, ctx), mem_filterMap.mpr ⟨_, hcall, rfl⟩, Option.some.inj h⟩
  | _ => cases h

/-- The effects of a commit leave the log alone. -/
lemma commitEffects_covered (dc : DoubleCertificate) {calls : List AppCall}
    (hbound : ∀ p ∈ executed calls, p.1.height ≤ target) (outcome : CommitOutcome) :
    ∀ effect ∈ Effect.tryCommit dc :: calls.map .app ++ failureEffects outcome,
      (∀ disk : Disk, (disk.apply effect).wal = disk.wal)
        ∧ ∀ height, effect.ranHeight = some height → height ≤ target := by
  intro effect hmem
  rcases mem_commitEffects hmem with rfl | ⟨call, hcall, rfl⟩ | ⟨err, -, rfl⟩
  · exact ⟨fun _ => rfl, nofun⟩
  · refine ⟨fun _ => rfl, fun height hran => ?_⟩
    obtain ⟨p, hp, rfl⟩ := Effect.ranHeight_app hcall hran
    exact hbound p hp
  · exact ⟨fun _ => rfl, nofun⟩

/-- **A commit** whose target is announced. -/
lemma LogInv.commit {dc : DoubleCertificate} (hx : LogInv x)
    (hok : ¬ RejectedUpdates x.engine.trace)
    (heq : y.engine.trace = x.engine.trace ++ (.tryCommit dc
      :: (x.engine.commitRun d dc).calls.map .app
      ++ failureEffects (x.engine.commitRun d dc).outcome))
    (hlogged : ∀ target, x.engine.store.getBlock dc.innerQc.blockHash = some target →
      IntentLogged x.engine.trace target.height)
    (hheight : y.engine.state.lastCommittedHeight = (x.engine.commitRun d dc).lastCommittedHeight)
    (hidle : x.phase = .idle)
    (hphase : y.phase = phaseAfter (x.engine.commitRun d dc).outcome) : LogInv y := by
  rcases x.engine.commitRun_target dc with
    ⟨hcalls, hheight', hphase'⟩ | ⟨target, htarget, hle, hbound, hfailed⟩
  · refine hx.keeps hok heq (fun effect hmem => ?_) (hheight.trans hheight')
      (.inl (hphase.trans (hphase'.trans hidle.symm)))
    rcases mem_commitEffects hmem with rfl | ⟨call, hcall, -⟩ | ⟨err, -, rfl⟩
    · rfl
    · rw [hcalls] at hcall
      cases hcall
    · rfl
  · have hcounted := hx.counted hok (by rw [hidle]; nofun)
    have hcovered : CoveredBy target.height x.engine.trace :=
      ⟨hlogged target htarget, fun height hmem => (hcounted height hmem).trans hle⟩
    obtain ⟨hevery, hcovered'⟩ := crashOk_covered hx.every hcovered
      (commitEffects_covered dc hbound (x.engine.commitRun d dc).outcome)
    rw [← heq] at hevery hcovered'
    refine ⟨hevery, fun hok' hidle' => ?_, fun _ _ => ⟨_, hcovered'⟩, fun hok' halive => ?_⟩
    · obtain ⟨height, reason, hrejected⟩ := hfailed (hphase ▸ hidle')
      refine absurd ⟨height, reason, ?_⟩ hok'
      rw [heq, hrejected]
      simp [failureEffects]
    · obtain ⟨n, hran, hcount⟩ := x.engine.commitRun_heights dc
      have hn : y.engine.state.lastCommittedHeight = x.engine.state.lastCommittedHeight + n := by
        rw [hheight]
        rcases hcount with hcount | ⟨-, hpanic | ⟨height, reason, hrejected⟩⟩
        · exact hcount
        · rw [hphase, hpanic] at halive
          exact absurd rfl halive
        · refine absurd ⟨height, reason, ?_⟩ hok'
          rw [heq, hrejected]
          simp [failureEffects]
      intro height hmem
      rw [heq, ranHeights_append, ranHeights_commit, hran] at hmem
      rcases mem_append.mp hmem with hmem | hmem
      · exact (hcounted height hmem).trans (by omega)
      · have := (mem_range'_1.mp hmem).2
        omega

/-- **A checkpoint** after which the node is idle. -/
lemma LogInv.checkpoint
    (hpersist : d.hasPersistence = true) (hx : LogInv x) (hok : ¬ RejectedUpdates x.engine.trace)
    (heq : y.engine.trace = x.engine.trace ++ (x.engine.persistEffects d ++ effects))
    (heffects : ∀ effect ∈ effects, effect.keepsLog = true ∨ (∃ entry, effect = .walWrite entry)
      ∨ effect = .walTruncate) (halive : x.phase ≠ .dead) (hphase : y.phase = .idle)
    (hstate : y.engine.state = x.engine.state) : LogInv y := by
  have hcounted := hx.counted hok halive
  obtain ⟨hevery, hflushed⟩ := crashOk_checkpoint hpersist hx.every hcounted
  rw [← append_assoc] at heq
  refine .of_flushed heq hphase hevery hflushed heffects ?_ hcounted hstate
  rw [ranHeights_append, ranHeights_persistEffects, append_nil]

/-- Saving a vote slot and signing the vote. -/
lemma keepsLog_voteEffects {t : VoteType} {view : ℕ} {hash : BlockHash}
    (heffect : effect.keepsLog = true) :
    ∀ effect' ∈ slotEffects d t view hash ++ [effect], effect'.keepsLog = true := by
  refine forall_mem_append.mpr ⟨fun effect' h => ?_, forall_mem_singleton.mpr heffect⟩
  rcases mem_slotEffects h with rfl | rfl <;> rfl

/-- **Every act keeps the crash points in order**, if commits are announced. -/
lemma LogInv.act (hpersist : d.hasPersistence = true) (hwal : d.hasWal = true)
    (hA : ¬ A.unlogged) (h : Act d A x y) (hx : LogInv x) : LogInv y := by
  obtain ⟨effects, heq, hdisk⟩ := h.disk
  by_cases hok : RejectedUpdates x.engine.trace
  · exact .of_rejected heq hx.every hok
  have hidle' : x.phase = .idle → x.phase ≠ .dead := fun hidle => by
    rw [hidle]
    nofun
  cases hdisk with
  | free hfree _ _ hheight hphase _ =>
    exact hx.keeps hok heq (fun effect hmem => keepsLog_of_free (hfree effect hmem)) hheight hphase
  | vote1 vote block justify htracked hphase _ =>
    cases htracked with
    | vote1 _ _ _ _ _ hengine _ _ _ =>
      exact hx.keeps hok heq (keepsLog_voteEffects rfl) (by rw [hengine]) (.inl hphase)
  | vote2 vote qc htracked hphase =>
    cases htracked with
    | vote2 _ _ _ _ _ hengine _ _ _ =>
      exact hx.keeps hok heq (keepsLog_voteEffects rfl) (by rw [hengine]) (.inl hphase)
  | release1 vote effect heffect _ _ hstate hphase =>
    refine hx.keeps hok heq (forall_mem_singleton.mpr ?_) (by rw [hstate]) (.inl hphase)
    rcases heffect with rfl | ⟨leader, rfl⟩ <;> rfl
  | release2 vote effect heffect _ _ _ hstate hphase hidle =>
    refine hx.checkpoint hpersist hok heq (forall_mem_singleton.mpr (.inl ?_)) (hidle' hidle)
      (hphase.trans hidle) hstate
    rcases heffect with rfl | ⟨leader, rfl⟩ <;> rfl
  | persist hstate hphase hidle =>
    rw [← append_nil (x.engine.persistEffects d)] at heq
    exact hx.checkpoint hpersist hok heq (by simp) (hidle' hidle) (hphase.trans hidle) hstate
  | saved env hstate hphase hphase' =>
    obtain ⟨_, hphase⟩ := hphase
    exact hx.checkpoint hpersist hok heq (fun effect hmem => .inr (mem_unlogEffects hmem))
      (by rw [hphase]; nofun) hphase' hstate
  | intent height hstate hidle hphase =>
    exact .of_flushed heq hphase hx.every (hx.flushed hok hidle)
      (forall_mem_singleton.mpr (.inr (.inl ⟨_, rfl⟩))) rfl
      (hx.counted hok (hidle' hidle)) hstate
  | unlog env height hstate hidle hphase =>
    exact .of_flushed heq hphase hx.every (hx.flushed hok hidle)
      (fun effect hmem => .inr (mem_unlogEffects hmem)) rfl
      (hx.counted hok (hidle' hidle)) hstate
  | commit dc _ hlogged _ _ hheight hidle hphase _ =>
    exact hx.commit hok heq ((hlogged hwal).resolve_left hA) hheight hidle hphase

/-! ### Starts and restarts -/

/-- The height a start restores. -/
lemma NodeConfig.launch_height (d : Deps σ) (cfg : NodeConfig) (t : List Effect) (app : σ)
    (evidence : EvidenceStore) :
    (cfg.launch d t app evidence).state.lastCommittedHeight = flushedHeight t := by
  rw [launch_eq]
  rcases (prepared d cfg t app evidence).start_cases with
    heq | ⟨-, step, role, tasks, -, heq⟩ | ⟨-, heq⟩
  all_goals
    rw [heq]
    rfl

/-- **A start** on a directory on which everything executed is durable. -/
lemma LogInv.launch {cfg : NodeConfig} {app : σ} {evidence : EvidenceStore}
    (hevery : EveryPrefix CrashOk t) (hflushed : RejectedUpdates t ∨ Flushed t) :
    LogInv ⟨cfg.launch d t app evidence, .idle⟩ := by
  have htrace := launch_trace d cfg t app evidence
  rcases hflushed with hrejected | hflushed
  · have hrejected' : RejectedUpdates (cfg.launch d t app evidence).trace :=
      htrace ▸ hrejected.mono (subset_append_left _ _)
    exact ⟨htrace ▸ crashOk_rejected hevery hrejected, fun h => absurd hrejected' h,
      fun h => absurd hrejected' h, fun h => absurd hrejected' h⟩
  have hran : ranHeights (cfg.launch d t app evidence).trace = ranHeights t := by
    have hnone : ranHeights (checkpointEffects d (cfg.construct t app evidence)) = [] := by
      refine ranHeights_eq_nil fun effect hmem => ?_
      rcases mem_checkpointEffects hmem with ⟨item, rfl⟩ | rfl <;> rfl
    rw [htrace, ranHeights_append, hnone, append_nil]
  have hend : Flushed (cfg.launch d t app evidence).trace := by
    intro height hmem
    have hle := hflushed height (hran ▸ hmem)
    unfold flushedHeight cachedHeight at hle ⊢
    rw [htrace, Disk.after_append]
    unfold checkpointEffects
    split_ifs
    · exact ⟨hle.1, hle.1⟩
    · exact hle
  have hevery' : EveryPrefix CrashOk (cfg.launch d t app evidence).trace := by
    rw [htrace] at hend ⊢
    exact everyPrefix_launch hevery CrashOk.save (.inr hend.logOk)
  refine ⟨hevery', fun _ _ => hend, fun _ h => absurd rfl h, fun _ _ height hmem => ?_⟩
  rw [launch_height]
  exact (hflushed height (hran ▸ hmem)).1

/-- **A restart**: the log check only lets a node start when everything executed is
durable. -/
lemma flushed_restartTrace {p : List Effect} (h : EveryPrefix CrashOk p)
    (hclean : recovery p = .clean) : EveryPrefix CrashOk (restartTrace p)
      ∧ (RejectedUpdates (restartTrace p) ∨ Flushed (restartTrace p)) := by
  rcases h.self with hrejected | hlog
  · exact ⟨crashOk_rejected h hrejected, .inl (hrejected.mono (subset_append_left _ _))⟩
  · have hle : ∀ height ∈ ranHeights p, height ≤ flushedHeight p := by
      intro height hmem
      by_contra hgt
      obtain ⟨target, hintent, hheight⟩ := hlog height hmem (by omega)
      have hreplay := hintent.recovery ((not_le.mp hgt).trans_le hheight)
      rw [hclean] at hreplay
      cases hreplay
    have hcrash : Flushed (p ++ [.crash]) := by
      intro height hmem
      rw [ranHeights_concat rfl] at hmem
      have hle' := hle height hmem
      unfold flushedHeight cachedHeight
      rw [Disk.after_concat]
      exact ⟨hle', hle'⟩
    obtain ⟨hevery, hflushed⟩ := crashOk_flushed (h.concat (.inr hcrash.logOk)) hcrash
      (l := if (Disk.after p).wal.isEmpty then [] else [.walTruncate]) (fun effect hmem => by
        split_ifs at hmem
        · cases hmem
        · exact .inr (.inr (mem_singleton.mp hmem)))
    unfold restartTrace
    rw [append_cons]
    exact ⟨hevery, .inr hflushed⟩

/-! ### Every run -/

/-- The delivered proposals carry no double certificate for their own block. -/
def DcBelow : Label → Prop
  | .message _ _ (.propose block _ (some dc) _ _) => dc.innerQc.blockHash ≠ block.hash
  | _ => True

lemma DcBelow.labelOk {label : Label} (h : DcBelow label) :
    LabelOk { Allowance.all with unlogged := False } label := by
  cases label with
  | message env sender msg =>
    refine ⟨fun _ _ => trivial, ?_, fun _ _ => trivial⟩
    rintro block justify dc signature ancestors rfl
    refine ⟨fun _ _ => trivial, .inr ?_⟩
    rintro cert rfl
    exact h
  | timeout | task env => trivial

/-- **Crash consistency of commits.**  In every run with crashes of a node with a log
whose delivered proposals carry no double certificate for their own block: wherever
the process dies, unless updates were rejected before, an executed block above the
flushed height is covered by an intent at the end of the log, and the next start
refuses to run. -/
theorem crash_is_announced (d : Deps σ) (cfg : NodeConfig) (hpersist : d.hasPersistence = true)
    (hwal : d.hasWal = true) {e : Engine σ}
    (hrun : CrashRunWhere d cfg (fun _ label => DcBelow label) (fun _ => True) e)
    {p : List Effect} (hp : p <+: e.trace) (hupdates : ¬ RejectedUpdates p) :
    ∀ height ∈ ranHeights p, flushedHeight p < height →
      ∃ target, (Disk.after p).wal.getLast? = some (.commitIntent target) ∧ height ≤ target
        ∧ recovery p = .needsReplay target := by
  have hrestart : ∀ (e : Engine σ) (φ : Phase) p app evidence, LogInv ⟨e, φ⟩ → p <+: e.trace →
      recovery p = .clean → True →
      LogInv ⟨cfg.launch d (restartTrace p) app evidence, .idle⟩ := by
    intro e φ p app evidence hI hp hclean _
    obtain ⟨hevery, hflushed⟩ := flushed_restartTrace (hI.every.of_le hp) hclean
    exact .launch hevery hflushed
  obtain ⟨φ, -, -, hinv⟩ := CrashRunWhere.invariant
    (fun x y _ h hx => LogInv.act hpersist hwal (fun h => h) h hx) (fun _ _ h => h.labelOk)
    (holds_of (fun _ => trivial) (fun _ => trivial) (fun _ _ => trivial))
    (fun app evidence => LogInv.launch (.nil (.inr nofun)) (.inr nofun)) hrestart hrun
  intro height hmem hlt
  have hlog : LogOk p := (hinv.every p hp).resolve_left hupdates
  obtain ⟨target, hintent, hle⟩ := hlog height hmem hlt
  exact ⟨target, hintent, hle, hintent.recovery (hlt.trans_le hle)⟩

/-! Validator 0 of `Sample.pair` commits its block of view 1 by itself and dies right
after the execution.  Validator 1 dies at the same point when the block arrives
together with its double certificate, which nobody refuses. -/

/-- The first step of the leader. -/
def announcing : Engine Unit :=
  ((pair.config leader).launch (pair.deps leader) [] () .empty).apply (pair.deps leader) (.task env)

theorem crash_is_announced_leader :
    CrashRunWhere (pair.deps 0) (pair.config 0) (fun _ label => DcBelow label)
        (fun _ => True) announcing
      ∧ ranHeights (announcing.trace.take 37) = [1] ∧ flushedHeight (announcing.trace.take 37) = 0
      ∧ ∃ target, (Disk.after (announcing.trace.take 37)).wal.getLast? = some (.commitIntent target)
        ∧ 1 ≤ target
        ∧ recovery (announcing.trace.take 37) = .needsReplay target := by
  have hrun : CrashRunWhere (pair.deps 0) (pair.config 0)
      (fun _ label => DcBelow label) (fun _ => True) announcing :=
    .step (.start () .empty) (by decide +kernel) trivial
  have hupdates : ¬ RejectedUpdates (announcing.trace.take 37) := by
    rintro ⟨height, reason, hmem⟩
    have hcheck : ∀ effect ∈ announcing.trace.take 37, effect.failure = none := by decide +kernel
    cases hcheck _ hmem
  exact ⟨hrun, by decide +kernel, by decide +kernel,
    crash_is_announced _ _ rfl rfl hrun ( take_prefix _ _) hupdates 1 (by decide +kernel)
      (by decide +kernel)⟩

/-- A block of view 1. -/
def earlyBlock : Block := block 1 BlockHash.genesis 1 0

/-- Its proposal, with a double certificate for the block itself. -/
def earlyProposal : ConsensusMessage :=
  proposal 0 earlyBlock (genesisQc pair.validatorSet)
    (some (dc pair.validatorSet [0] 0 1 earlyBlock.hash)) []

/-- Validator 1 handles the proposal. -/
def surprised : Engine Unit :=
  steps (pair.deps replica) [.message env none earlyProposal]
    ((pair.config replica).launch (pair.deps replica) [] () .empty)

/-- When the intent was decided the block was not in the store: it is executed above
the flushed height with an empty log, and the next start runs silently. -/
theorem crash_unannounced : CrashRun (pair.deps 1) (pair.config 1) surprised
      ∧ ∃ p, p <+: surprised.trace ∧ ranHeights p = [1] ∧ flushedHeight p = 0
        ∧ (Disk.after p).wal = [] ∧ recovery p = .clean :=
  ⟨crashRun_steps (.start () .empty) _, surprised.trace.take 13, take_prefix _ _,
    by decide +kernel, by decide +kernel, by decide +kernel, by decide +kernel⟩

end Hotmint
