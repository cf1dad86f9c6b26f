/-
The epochs of a node are numbered upwards.

* `ExecOrdered`, `ChainApplied.ordered`: the loop of `try_commit` activates and
  announces epochs of growing numbers;
* `EpochInv`, `Act.epochInv`: **the pending epoch is numbered above the current one**,
  in every state;
* `Act.epoch_mono`: the number of the current epoch never falls, and as long as it does
  not grow the epochs stay as they are;
* `CrashRunWhere.epochInv`: crashes and restarts keep the numbering.
-/
import Hotmint.Proof.Durable
import Hotmint.Proof.Fold

namespace Hotmint

open Engine List Option NodeConfig
variable {σ : Type} {d : Deps σ} {A : Allowance} {app : Application σ}
variable {x y : Flow σ} {t : List Effect}
variable {result : CommitResult} {e : Engine σ} {current : Epoch}
variable {effect : Effect} {x' : ExecState σ} {effects saves : List Effect} {cfg : NodeConfig}
  {pending : Option Epoch}

/-! ### The loop -/

/-- The epochs of the execution loop, begun in the given epoch, are numbered upwards. -/
structure ExecOrdered (current : Epoch) (x : ExecState σ) : Prop where
  active : x.active = x.activated.getD current
  activated : ∀ epoch, x.activated = some epoch → current.number < epoch.number
  pending : ∀ epoch, x.pending = some epoch → x.active.number < epoch.number

namespace ExecOrdered

variable {current : Epoch} {x : ExecState σ}

lemma start {lastCommitted : ℕ} {previous : Option Epoch} {s : σ}
    (h : ∀ epoch, pending = some epoch → current.number < epoch.number) :
    ExecOrdered current (.start lastCommitted current previous pending s) :=
  ⟨rfl, nofun, h⟩

lemma le_active (h : ExecOrdered current x) : current.number ≤ x.active.number := by
  rw [h.active]
  cases hactivated : x.activated with
  | none => exact le_refl _
  | some epoch => exact (h.activated epoch hactivated).le

lemma activate (h : ExecOrdered current x) (block : Block) :
    ExecOrdered current (x.activate block) := by
  cases hact : x.activates block with
  | false => rwa [ExecState.activate_of_not_activates hact]
  | true =>
    obtain ⟨epoch, hpending, -, heq⟩ := ExecState.activate_of_activates hact
    have hlt : current.number < epoch.number := h.le_active.trans_lt (h.pending epoch hpending)
    rw [heq]
    exact ⟨rfl, fun _ hepoch => some.inj hepoch ▸ hlt, nofun⟩

end ExecOrdered

lemma chainedPendingEpoch_number {epoch : Epoch} {view : ℕ} {updates : List ValidatorUpdate}
    (h : chainedPendingEpoch current pending view updates = .ok epoch) :
    epoch.number = (pending.getD current).number + 1 := by
  unfold chainedPendingEpoch at h
  dsimp only at h
  split at h
  · obtain rfl := Except.ok.inj h
    rfl
  · cases h

lemma RoundApplied.ordered {x : ExecState σ} {block : Block}
    (h : RoundApplied app x block x') (hx : ExecOrdered current x) : ExecOrdered current x' := by
  obtain ⟨response, s, pending, -, hafter, rfl⟩ := h
  have hact := hx.activate block
  refine ⟨hact.active, hact.activated, fun epoch hepoch => ?_⟩
  rcases pendingAfter_ok hafter with ⟨-, hsame⟩ | ⟨chained, hchained, hnew⟩
  · exact hact.pending epoch (hsame ▸ hepoch)
  · obtain rfl : chained = epoch := some.inj (hnew.symm.trans hepoch)
    have hnumber := chainedPendingEpoch_number hchained
    change (x.activate block).active.number < chained.number
    cases hpending : (x.activate block).pending with
    | none =>
      rw [hpending, getD_none] at hnumber
      omega
    | some base =>
      have hbase := hact.pending base hpending
      rw [hpending, getD_some] at hnumber
      omega

/-- **The loop numbers its epochs upwards.** -/
lemma ChainApplied.ordered {x : ExecState σ} {blocks : List Block}
    (h : ChainApplied app x blocks x') (hx : ExecOrdered current x) : ExecOrdered current x' := by
  induction h with
  | nil x => exact hx
  | cons hround _ ih => exact ih (hround.ordered hx)

/-! ### The invariant -/

/-- The result of a commit continues the numbering. -/
structure CommitResult.Ordered (current : Epoch) (result : CommitResult) : Prop where
  activated : ∀ epoch, result.activatedEpoch = some epoch → current.number < epoch.number
  pending : ∀ epoch, result.pendingEpoch = some epoch →
    (result.activatedEpoch.getD current).number < epoch.number

/-- The validator set is that of the current epoch, and epochs to come have higher
numbers. -/
structure EpochInv (x : Flow σ) : Prop where
  validatorSet : x.engine.state.validatorSet = x.engine.state.currentEpoch.validatorSet
  pending : ∀ epoch, x.engine.pendingEpoch = some epoch →
    x.engine.state.currentEpoch.number < epoch.number
  executed : ∀ result, x.phase = .executed result → result.Ordered x.engine.state.currentEpoch

lemma phaseAfter_executed {outcome : CommitOutcome} (h : phaseAfter outcome = .executed result) :
    outcome = .ok result ∧ result.committedBlocks ≠ [] := by
  cases outcome with
  | ok result' =>
    rw [phaseAfter] at h
    split_ifs at h with hempty
    obtain rfl := Phase.executed.inj h
    exact ⟨rfl, fun hnil => hempty (isEmpty_iff.mpr hnil)⟩
  | err err | panic => cases h

lemma Engine.commitRun_ordered {dc : DoubleCertificate}
    (hpending : ∀ epoch, e.pendingEpoch = some epoch → e.state.currentEpoch.number < epoch.number)
    (h : phaseAfter (e.commitRun d dc).outcome = .executed result) :
    result.Ordered e.state.currentEpoch := by
  obtain ⟨hok, hne⟩ := phaseAfter_executed h
  rcases tryCommit_ok hok with ⟨hempty, -⟩ | ⟨target, blocks, x, -, -, happlied, rfl, -⟩
  · exact absurd hempty hne
  · have hordered := happlied.ordered (ExecOrdered.start hpending)
    exact ⟨hordered.activated, fun epoch hepoch => hordered.active ▸ hordered.pending epoch hepoch⟩

/-- A result is only there right after `try_commit`, which leaves the epochs alone. -/
lemma Act.executed_ordered (h : Act d A x y) (hx : EpochInv x)
    (hresult : y.phase = .executed result) : result.Ordered y.engine.state.currentEpoch := by
  cases h with
  | quiet hquiet => exact hquiet.currentEpoch ▸ hx.executed result hresult
  | vote1 block justify hsign _ _ _ _ _ =>
    obtain ⟨-, rfl, -⟩ := signVote1_spec hsign
    exact hx.executed result hresult
  | release1 _ _ _ _ _ _ => exact hx.executed result hresult
  | @commit e dc _ _ =>
    obtain ⟨_, _, heq⟩ := runTryCommit_eq (d := d) e dc
    rw [runTryCommit_outcome] at hresult
    have hordered := commitRun_ordered hx.pending hresult
    rw [heq]
    exact hordered
  | _ => cases hresult

/-- **Every act keeps the numbering.** -/
lemma Act.epochInv (h : Act d A x y) (hx : EpochInv x) : EpochInv y := by
  have hexecuted : ∀ result, y.phase = .executed result →
      result.Ordered y.engine.state.currentEpoch := fun _ => h.executed_ordered hx
  rcases h.epochs with ⟨hvs, hcur, hpend, -⟩ | ⟨result, hphase, hvs, hcur, hpend, -⟩
    | ⟨epoch, -, -, hvs, hcur, hpend, -⟩
  · exact ⟨by rw [hvs, hcur, hx.validatorSet], by rw [hpend, hcur]; exact hx.pending, hexecuted⟩
  · have hordered := hx.executed result hphase
    refine ⟨?_, by rw [hpend, hcur]; exact hordered.pending, hexecuted⟩
    rw [hvs, hcur]
    cases result.activatedEpoch with
    | none => exact hx.validatorSet
    | some activated => rfl
  · exact ⟨by rw [hvs, hcur], by rw [hpend]; nofun, hexecuted⟩

/-- **The epoch only moves on**, and an act that leaves its number alone leaves the
epochs alone. -/
lemma Act.epoch_mono (h : Act d A x y) (hx : EpochInv x) :
    x.engine.state.currentEpoch.number ≤ y.engine.state.currentEpoch.number
      ∧ (y.engine.state.currentEpoch.number = x.engine.state.currentEpoch.number →
        y.engine.state.currentEpoch = x.engine.state.currentEpoch
          ∧ y.engine.previousEpoch = x.engine.previousEpoch) := by
  rcases h.epochs with ⟨-, hcur, -, hprev⟩ | ⟨result, hphase, -, hcur, -, hprev⟩
    | ⟨epoch, hpending, -, -, hcur, -, -⟩
  · exact ⟨by rw [hcur], fun _ => ⟨hcur, hprev⟩⟩
  · cases hactivated : result.activatedEpoch with
    | none =>
      rw [hactivated, getD_none] at hcur
      rw [hactivated, map_none, getD_none] at hprev
      exact ⟨by rw [hcur], fun _ => ⟨hcur, hprev⟩⟩
    | some activated =>
      have hlt := (hx.executed result hphase).activated activated hactivated
      rw [hactivated, getD_some] at hcur
      rw [hcur]
      exact ⟨hlt.le, fun heq => absurd heq hlt.ne'⟩
  · have hlt := hx.pending epoch hpending
    rw [hcur]
    exact ⟨hlt.le, fun heq => absurd heq hlt.ne'⟩

/-! ### Restarts -/

/-- The saved pending epoch is numbered above the saved current one, which is the
genesis epoch if none was saved. -/
def SavedState.Ordered (saved : SavedState) : Prop :=
  ∀ epoch, saved.pendingEpoch = some epoch →
    ((saved.currentEpoch.map (·.number)).getD 0) < epoch.number

/-- Effects that save no epoch. -/
def Effect.keepsEpochs : Effect → Bool
  | .save (.currentEpoch _) => false
  | .save (.pendingEpoch _) => false
  | _ => true

lemma Effect.keepsEpochs_of_free (h : effect.free = true) : effect.keepsEpochs = true := by
  cases effect with
  | save item => cases h
  | _ => rfl

/-- The buffered epochs are in order, and the flushed ones at every point at which the
process may have died. -/
structure DiskOrdered (trace : List Effect) : Prop where
  every : EveryPrefix (fun p => (Disk.after p).flushed.Ordered) trace
  cache : (Disk.after trace).cache.Ordered

namespace DiskOrdered

lemma concat (h : DiskOrdered t)
    (heffect : effect.keepsEpochs = true) : DiskOrdered (t ++ [effect]) := by
  have hflushed := h.every.self
  have hafter := Disk.after_concat t effect
  have hboth : ((Disk.after t).apply effect).flushed.Ordered
      ∧ ((Disk.after t).apply effect).cache.Ordered := by
    cases effect with
    | save item =>
      cases item with
      | currentEpoch | pendingEpoch => cases heffect
      | lastVote voteType view hash => cases voteType <;> exact ⟨hflushed, h.cache⟩
      | _ => exact ⟨hflushed, h.cache⟩
    | flush => exact ⟨h.cache, h.cache⟩
    | crash => exact ⟨hflushed, hflushed⟩
    | _ => exact ⟨hflushed, h.cache⟩
  rw [← hafter] at hboth
  exact ⟨h.every.concat hboth.1, hboth.2⟩

lemma append (h : DiskOrdered t)
    (heffects : ∀ effect ∈ effects, effect.keepsEpochs = true) : DiskOrdered (t ++ effects) :=
  (EveryPrefix.append_of_strong _ (fun _ _ heffect hp => hp.concat heffect)
    (fun _ hp => hp.every.self) h.every h heffects).2

/-- Buffered writes do not reach the flushed keys. -/
lemma every_saves (h : EveryPrefix (fun p => (Disk.after p).flushed.Ordered) t)
    (hsaves : ∀ effect ∈ saves, ∃ item, effect = Effect.save item) :
    EveryPrefix (fun p => (Disk.after p).flushed.Ordered) (t ++ saves) := by
  refine h.append (fun effect => ∃ item, effect = Effect.save item) ?_ hsaves
  rintro p effect ⟨item, rfl⟩ hp
  rw [Disk.after_concat]
  exact hp

/-- Epochs that are saved together are flushed together. -/
lemma flush (h : DiskOrdered t) (hsaves : ∀ effect ∈ saves, ∃ item, effect = Effect.save item)
    (hcache : (Disk.after (t ++ saves)).cache.Ordered) :
    DiskOrdered (t ++ (saves ++ [.flush])) := by
  rw [← append_assoc]
  exact DiskOrdered.concat ⟨every_saves h.every hsaves, hcache⟩ rfl

lemma nil : DiskOrdered [] := ⟨.nil nofun, nofun⟩

/-- A restart finds what was flushed. -/
lemma restart {p : List Effect} (h : DiskOrdered t) (hp : p <+: t) :
    DiskOrdered (restartTrace p) := by
  have hevery := h.every.of_le hp
  refine ⟨everyPrefix_restartTrace hevery (fun q hq => ?_) fun q hq => ?_, ?_⟩
  · rwa [Disk.after_concat]
  · rwa [Disk.after_concat]
  · rw [(Disk.after_restartTrace p).1]
    exact hevery.self

/-- **The checkpoint** writes both epochs before it flushes. -/
lemma persist (h : DiskOrdered e.trace)
    (hpending : ∀ epoch, e.pendingEpoch = some epoch → e.state.currentEpoch.number < epoch.number) :
    DiskOrdered (e.trace ++ e.persistEffects d) := by
  cases hp : d.hasPersistence with
  | false =>
    have hnone : e.persistEffects d = [] := by simp [persistEffects, hp]
    rwa [hnone, append_nil]
  | true =>
    rw [persistEffects_eq hp]
    refine h.flush (fun _ => mem_persistSaves) ?_
    rw [(Disk.after_persistSaves e.trace e).1]
    exact hpending

end DiskOrdered

/-- An act writes no epoch, or a checkpoint first. -/
lemma DiskAct.epochs (h : DiskAct d A x y effects) : (∀ effect ∈ effects, effect.keepsEpochs = true)
      ∨ ∃ rest, effects = x.engine.persistEffects d ++ rest
        ∧ ∀ effect ∈ rest, effect.keepsEpochs = true := by
  have hslot : ∀ {t view hash}, ∀ effect ∈ slotEffects d t view hash,
      effect.keepsEpochs = true := by
    intro t view hash effect hmem
    rcases mem_slotEffects hmem with rfl | rfl <;> rfl
  have hunlog : ∀ {env height}, ∀ effect ∈ unlogEffects d env height,
      effect.keepsEpochs = true := by
    intro env height effect hmem
    rcases mem_unlogEffects hmem with ⟨entry, rfl⟩ | rfl <;> rfl
  cases h with
  | free hfree => exact .inl fun effect hmem => Effect.keepsEpochs_of_free (hfree effect hmem)
  | vote1 vote block justify _ _ _ | vote2 vote qc _ _ =>
    exact .inl (forall_mem_append.mpr ⟨hslot, forall_mem_singleton.mpr rfl⟩)
  | release1 vote effect heffect _ _ _ _ =>
    refine .inl (forall_mem_singleton.mpr ?_)
    rcases heffect with rfl | ⟨leader, rfl⟩ <;> rfl
  | release2 vote effect heffect _ _ _ _ _ _ =>
    refine .inr ⟨[effect], rfl, forall_mem_singleton.mpr ?_⟩
    rcases heffect with rfl | ⟨leader, rfl⟩ <;> rfl
  | persist => exact .inr ⟨[], (append_nil _).symm, nofun⟩
  | saved env => exact .inr ⟨_, rfl, hunlog⟩
  | intent height => exact .inl (forall_mem_singleton.mpr rfl)
  | unlog env height => exact .inl hunlog
  | commit dc _ _ _ _ _ _ _ _ =>
    refine .inl fun effect hmem => ?_
    rcases mem_commitEffects hmem with rfl | ⟨call, -, rfl⟩ | ⟨err, -, rfl⟩ <;> rfl

/-- **Every act keeps the saved epochs in order.** -/
lemma Act.diskOrdered (h : Act d A x y) (hx : EpochInv x)
    (hdisk : DiskOrdered x.engine.trace) : DiskOrdered y.engine.trace := by
  obtain ⟨effects, heq, hact⟩ := h.disk
  rw [heq]
  rcases hact.epochs with hkeeps | ⟨rest, rfl, hkeeps⟩
  · exact hdisk.append hkeeps
  · rw [← append_assoc]
    exact (hdisk.persist hx.pending).append hkeeps

/-- The epochs a start restores. -/
lemma NodeConfig.launch_epochs (d : Deps σ) (cfg : NodeConfig) (t : List Effect) (app : σ)
    (evidence : EvidenceStore) :
    (cfg.launch d t app evidence).state.validatorSet
        = (cfg.launch d t app evidence).state.currentEpoch.validatorSet
      ∧ (cfg.launch d t app evidence).state.currentEpoch
        = (Disk.after t).flushed.currentEpoch.getD (Epoch.genesis cfg.validatorSet)
      ∧ (cfg.launch d t app evidence).pendingEpoch = (Disk.after t).flushed.pendingEpoch
      ∧ (cfg.launch d t app evidence).voteCollector = VoteCollector.new := by
  rw [launch_eq]
  rcases (prepared d cfg t app evidence).start_cases (d := d) with
    heq | ⟨-, step, role, tasks, -, heq⟩ | ⟨-, heq⟩
  all_goals
    rw [heq]
    exact ⟨rfl, rfl, rfl, rfl⟩

/-- **A start** on a directory with ordered epochs. -/
lemma EpochInv.launch {app : σ} {evidence : EvidenceStore}
    (h : DiskOrdered t) : EpochInv ⟨cfg.launch d t app evidence, .idle⟩
      ∧ DiskOrdered (cfg.launch d t app evidence).trace := by
  obtain ⟨hvs, hcur, hpend, -⟩ := launch_epochs d cfg t app evidence
  have hpending : ∀ epoch, (cfg.launch d t app evidence).pendingEpoch = some epoch →
      (cfg.launch d t app evidence).state.currentEpoch.number < epoch.number := by
    intro epoch hepoch
    have hordered := h.every.self epoch (hpend ▸ hepoch)
    rw [hcur]
    cases hsaved : (Disk.after t).flushed.currentEpoch with
    | none | some current =>
      rw [hsaved] at hordered
      exact hordered
  refine ⟨⟨hvs, hpending, nofun⟩, ?_⟩
  rw [launch_trace]
  unfold checkpointEffects
  split_ifs
  · change DiskOrdered (t ++ ([_, _, _, _, _, _] ++ [.flush]))
    refine h.flush (by simp) ?_
    rw [Disk.after_append]
    rw [hcur, hpend] at hpending
    exact hpending
  · rwa [append_nil]

/-- **The epochs are numbered upwards in every run**, through crashes and restarts. -/
lemma CrashRunWhere.epochInv {P : Engine σ → Label → Prop}
    {R : List Effect → Prop} (hrun : CrashRunWhere d cfg P R e) :
    Settled (fun x => TodoOk .all x.engine ∧ EpochInv x ∧ DiskOrdered x.engine.trace) e :=
  hrun.invariant (fun _ _ _ hxy hx => ⟨hxy.epochInv hx.1, hxy.diskOrdered hx.1 hx.2⟩)
    (fun _ label _ => labelOk_all label) holds_all (fun _ _ => EpochInv.launch .nil)
    fun _ _ _ _ _ hx hp _ _ => EpochInv.launch (hx.2.restart hp)

end Hotmint
