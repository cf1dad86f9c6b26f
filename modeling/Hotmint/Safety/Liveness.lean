/-
Liveness samples.

* `LivenessSample`: a commit that was counted: its certificate, and the validator set of the
  epoch that the certificate names;
* `Tally.observe`, `samplesAfter`: the samples since the last reset, read off the
  effects of a step, and `SampledRun`: runs with their samples;
* `recordCommit_missed`: what `record_commit` adds to a count;
* `samplesAfter_cases`: **what a step does to the samples and to the counters**;
* `SampledRun.totalCommits`: the samples are the commits that the tracker has recorded;
* `missed_eq_samples`: **the counts are those of the samples in every run whose commits
  activate no epoch and are certified in the current one**;
* `missed_without_sample`: otherwise a validator is counted as missing at a commit of an epoch
  it did not belong to.
-/
import Hotmint.Safety.EpochChange

namespace Hotmint

open Sample Engine List NodeConfig
variable {σ : Type} {d : Deps σ}
variable {e m : Engine σ} {effects : List Effect} {cfg : NodeConfig}

/-! ### Samples -/

/-- The validator is a member whose bit is not set. -/
def ValidatorSet.misses (vs : ValidatorSet) (signers : List Bool) (id : ℕ) : Bool :=
  vs.validators.zipIdx.any fun vi => vi.1.id = id && !signers.getD vi.2 false

/-- A commit: its certificate, and the set of the epoch that the certificate names. -/
structure LivenessSample where
  commitQc : QuorumCertificate
  validatorSet : Option ValidatorSet

/-- The validator is a member of the sample's set that did not sign. -/
def LivenessSample.misses (sample : LivenessSample) (id : ℕ) : Bool :=
  sample.validatorSet.any fun vs => vs.misses sample.commitQc.aggregateSignature.signers id

/-- The samples so far, and the double certificate that `try_commit` was called with while it
has not executed a block. -/
structure Tally where
  samples : List LivenessSample
  trying : Option DoubleCertificate

/-- What an effect does to the samples.  A commit is one from its first executed block on,
unless it fails; an epoch change resets the tracker. -/
def Tally.observe (read : ℕ → Option ValidatorSet) (t : Tally) : Effect → Tally
  | .tryCommit dc => { t with trying := some dc }
  | .app (.executeBlock _ _ (some _)) =>
    match t.trying with
    | some dc => ⟨t.samples ++ [⟨dc.innerQc, read dc.innerQc.epoch⟩], none⟩
    | none => t
  | .commitFailed _ =>
    match t.trying with
    | some _ => { t with trying := none }
    | none => { t with samples := t.samples.dropLast }
  | .onEpochChange _ _ => { t with samples := [] }
  | _ => t

namespace Engine

/-- The samples after a step; certificates are read with the sets that the node had for their
epochs before it. -/
def samplesAfter (d : Deps σ) (label : Label) (e : Engine σ) (samples : List LivenessSample) :
    List LivenessSample :=
  ((e.stepEffects d label).foldl (Tally.observe e.keyring.validatorSetForEpoch)
    ⟨samples, none⟩).samples

end Engine

/-- Runs with crashes and restarts, and their samples since the last reset or restart; every
step satisfies `P`. -/
inductive SampledRun (d : Deps σ) (cfg : NodeConfig) (P : Engine σ → Label → Prop) :
    Engine σ → List LivenessSample → Prop
  | start (app : σ) (evidence : EvidenceStore) :
      SampledRun d cfg P (cfg.launch d [] app evidence) []
  | step {e : Engine σ} {samples : List LivenessSample} {label : Label}
      (h : SampledRun d cfg P e samples) (henabled : e.enabled label = true) (hP : P e label) :
      SampledRun d cfg P (e.apply d label) (e.samplesAfter d label samples)
  | restart {e : Engine σ} {samples : List LivenessSample} {p : List Effect}
      (h : SampledRun d cfg P e samples) (hp : p <+: e.trace)
      (hclean : recovery p = .clean) (app : σ) (evidence : EvidenceStore) :
      SampledRun d cfg P (cfg.launch d (restartTrace p) app evidence) []

/-- The number of commits that a validator has missed. -/
def LivenessTracker.missedBy (t : LivenessTracker) (id : ℕ) : ℕ := (t.missed.lookup id).getD 0

/-! ### Counting a commit -/

/-- The loop of `record_commit`, over members with distinct ids. -/
lemma foldl_missed (signers : List Bool) (id : ℕ) {members : List (ValidatorInfo × ℕ)}
    (hnodup : (members.map fun vi => vi.1.id).Nodup) (missed : AList fun _ : ℕ => ℕ) :
    ((members.foldl (fun missed vi =>
        if signers.getD vi.2 false then missed
        else missed.insert vi.1.id ((missed.lookup vi.1.id).getD 0 + 1)) missed).lookup id).getD 0
      = (missed.lookup id).getD 0
        + if members.any fun vi => vi.1.id = id && !signers.getD vi.2 false then 1 else 0 := by
  induction members generalizing missed with
  | nil => rfl
  | cons vi members ih =>
    rw [map_cons, nodup_cons] at hnodup
    obtain ⟨hfresh, hnodup⟩ := hnodup
    rw [foldl_cons, ih hnodup, any_cons]
    cases hbit : signers.getD vi.2 false with
    | true => rw [if_pos rfl, Bool.not_true, Bool.and_false, Bool.false_or]
    | false =>
      rw [if_neg Bool.false_ne_true, Bool.not_false, Bool.and_true]
      by_cases hid : vi.1.id = id
      · -- the id occurs nowhere else
        have hrest : (members.any fun vi => vi.1.id = id && !signers.getD vi.2 false) = false := by
          rw [any_eq_false]
          intro other hother hmatch
          rw [Bool.and_eq_true, decide_eq_true_eq] at hmatch
          exact hfresh (mem_map.mpr ⟨other, hother, hmatch.1.trans hid.symm⟩)
        rw [hrest, hid, AList.lookup_insert, Option.getD_some, decide_eq_true rfl]
        rfl
      · rw [AList.lookup_insert_ne (Ne.symm hid), decide_eq_false hid, Bool.false_or]

/-- **`record_commit`** adds one for each member that did not sign. -/
lemma recordCommit_missed (t : LivenessTracker) (vs : ValidatorSet) (signers : List Bool) (id : ℕ) :
    (t.recordCommit vs signers).missedBy id
      = t.missedBy id + if vs.misses signers id then 1 else 0 := by
  refine foldl_missed signers id ?_ t.missed
  have hids : vs.validators.zipIdx.map (fun vi => vi.1.id) = vs.validators.map (·.id) := by
    conv_rhs => rw [← zipIdx_map_fst 0 vs.validators, map_map]
    rfl
  rw [hids]
  exact vs.nodup_id

/-! ### The samples of a commit -/

namespace Tally

variable (read : ℕ → Option ValidatorSet)

lemma observe_of_not_newsworthy {effect : Effect} (h : effect.newsworthy = false) (t : Tally) :
    (t.observe read effect).samples = t.samples := by
  cases effect with
  | app call =>
    cases call with
    | executeBlock block ctx response =>
      cases response with
      | none => rfl
      | some response => cases h
    | _ => rfl
  | commitFailed err | onEpochChange epoch vs => cases h
  | _ => rfl

lemma samples_of_news (h : news effects = []) (t : Tally) :
    (effects.foldl (observe read) t).samples = t.samples := by
  induction effects generalizing t with
  | nil => rfl
  | cons effect effects ih =>
    have hall := filter_eq_nil_iff.mp h
    have hhead : effect.newsworthy = false := by
      simpa using hall effect mem_cons_self
    have htail : news effects = [] :=
      filter_eq_nil_iff.mpr fun x hx => hall x (.tail _ hx)
    rw [foldl_cons, ih htail, observe_of_not_newsworthy read hhead]

/-- Callbacks without a call of `try_commit` count for nothing. -/
lemma calls_idle (calls : List AppCall) (samples : List LivenessSample) :
    (calls.map Effect.app).foldl (observe read) ⟨samples, none⟩ = ⟨samples, none⟩ := by
  induction calls with
  | nil => rfl
  | cons call calls ih =>
    have hcall : observe read ⟨samples, none⟩ (.app call) = ⟨samples, none⟩ := by
      cases call with
      | executeBlock block ctx response => cases response <;> rfl
      | _ => rfl
    rw [map_cons, foldl_cons, hcall, ih]

/-- The callbacks of a commit count as one sample if a block was executed. -/
lemma calls_trying (calls : List AppCall) (samples : List LivenessSample) (dc : DoubleCertificate) :
    (ranBlocks (calls.map .app) = []
        ∧ (calls.map Effect.app).foldl (observe read) ⟨samples, some dc⟩ = ⟨samples, some dc⟩)
      ∨ (ranBlocks (calls.map .app) ≠ []
        ∧ (calls.map Effect.app).foldl (observe read) ⟨samples, some dc⟩
          = ⟨samples ++ [⟨dc.innerQc, read dc.innerQc.epoch⟩], none⟩) := by
  induction calls with
  | nil => exact .inl ⟨rfl, rfl⟩
  | cons call calls ih =>
    have hcons : ranBlocks ((call :: calls).map Effect.app)
        = ranBlocks [.app call] ++ ranBlocks (calls.map .app) := ranBlocks_append [.app call] _
    rw [hcons, map_cons, foldl_cons]
    cases call with
    | executeBlock block ctx response =>
      cases response with
      | none => exact ih
      | some response => exact .inr ⟨by rintro ⟨⟩, calls_idle read calls _⟩
    | _ => exact ih

end Tally

/-- A failed commit leaves the samples as they were. -/
lemma samples_failed (read : ℕ → Option ValidatorSet) (t : Tally) (dc : DoubleCertificate)
    (calls : List AppCall) (err : CommitError) :
    ((Effect.tryCommit dc :: calls.map Effect.app ++ [Effect.commitFailed err]).foldl
      (Tally.observe read) t).samples = t.samples := by
  rw [foldl_append, foldl_cons]
  change (Tally.observe read ((calls.map Effect.app).foldl (Tally.observe read)
    ⟨t.samples, some dc⟩) _).samples = _
  rcases Tally.calls_trying read calls t.samples dc with ⟨-, heq⟩ | ⟨-, heq⟩
  · rw [heq]
    rfl
  · rw [heq]
    exact dropLast_concat

/-- A commit of blocks is one sample. -/
lemma samples_committed (read : ℕ → Option ValidatorSet) (t : Tally) (dc : DoubleCertificate)
    {calls : List AppCall} (h : ranBlocks (calls.map .app) ≠ []) :
    ((Effect.tryCommit dc :: calls.map Effect.app).foldl (Tally.observe read) t).samples
      = t.samples ++ [⟨dc.innerQc, read dc.innerQc.epoch⟩] := by
  rw [foldl_cons]
  change ((calls.map Effect.app).foldl (Tally.observe read) ⟨t.samples, some dc⟩).samples = _
  rcases Tally.calls_trying read calls t.samples dc with ⟨hnone, -⟩ | ⟨-, heq⟩
  · exact absurd hnone h
  · rw [heq]

/-- What the part of a step before it enters a view does to the samples: nothing, or it adds
the commit that it records. -/
def Sampled (read : ℕ → Option ValidatorSet) (e m : Engine σ) (effects : List Effect)
    (samples samples' : List LivenessSample) : Prop :=
  (samples' = samples ∧ m.livenessTracker = e.livenessTracker) ∨ ∃ dc, .tryCommit dc ∈ effects
      ∧ samples' = samples ++ [⟨dc.innerQc, read dc.innerQc.epoch⟩]
      ∧ m.livenessTracker = e.livenessTracker.recordCommit m.state.validatorSet
        dc.innerQc.aggregateSignature.signers
      ∧ (BelowStart e.pendingEpoch (ranBlocks effects) →
        m.state.validatorSet = e.state.validatorSet)

/-- A commit that returned blocks has executed some. -/
lemma ranBlocks_of_committed {dc : DoubleCertificate} {result : CommitResult}
    (hok : (m.commitRun d dc).outcome = .ok result) (hne : result.committedBlocks ≠ []) :
    result.commitQc = dc.innerQc ∧ ranBlocks ((m.commitRun d dc).calls.map .app) ≠ [] := by
  rcases tryCommit_ok hok with ⟨hnone, -, -⟩ | ⟨_, blocks, x, -, -, happlied, rfl, hrun⟩
  · exact absurd hnone hne
  refine ⟨rfl, fun hnone => hne ?_⟩
  obtain ⟨runs, hruns, hblocks⟩ := happlied.runs
  have hcalls : (m.commitRun d dc).calls = x.calls := by
    rw [commitRun, hrun]
  rw [hcalls, hruns] at hnone
  have hempty : runs = [] := (append_eq_nil_iff.mp hnone).2
  rw [hempty] at hblocks
  exact hblocks.symm

/-- **The part of a step before it enters a view** keeps samples and counters, or records one
commit in both. -/
lemma Commits.sampled (h : Commits d e m) (halive : m.halted = false)
    (htrace : m.trace = e.trace ++ effects) (read : ℕ → Option ValidatorSet) (t : Tally) :
    Sampled read e m effects t.samples (effects.foldl (Tally.observe read) t).samples := by
  cases h with
  | still h =>
    obtain ⟨still, hstill, hnews⟩ := h.trace
    obtain rfl : effects = still := append_cancel_left (htrace.symm.trans hstill)
    exact .inl ⟨Tally.samples_of_news read hnews t, h.livenessTracker⟩
  | @refused m₀ _ dc h htried _ _ _ hstop _ hlive =>
    obtain ⟨before, hbefore, hquiet⟩ := h.trace
    obtain ⟨after, hafter, hquiet'⟩ := htried.trace
    obtain ⟨err, herr⟩ : ∃ err, (m₀.commitRun d dc).outcome = .err err := by
      refine hstop.resolve_left fun hhalt => ?_
      rw [hhalt] at halive
      cases halive
    have heffects : effects = before ++ (.tryCommit dc :: (m₀.commitRun d dc).calls.map .app
        ++ [.commitFailed err]) ++ after := by
      refine (append_right_inj e.trace).mp ?_
      rw [← htrace, hafter, hbefore, herr, failureEffects]
      simp only [append_assoc]
    refine .inl ⟨?_, hlive.trans h.livenessTracker⟩
    rw [heffects, foldl_append, Tally.samples_of_news read hquiet', foldl_append,
      samples_failed, Tally.samples_of_news read hquiet]
  | @adopted m₀ _ dc result h hok hne htried _ _ _ hset hlive =>
    obtain ⟨hqc, hran⟩ := ranBlocks_of_committed hok hne
    obtain ⟨before, hbefore, hquiet⟩ := h.trace
    obtain ⟨after, hafter, hquiet'⟩ := htried.trace
    have heffects : effects
        = before ++ (.tryCommit dc :: (m₀.commitRun d dc).calls.map .app) ++ after := by
      refine (append_right_inj e.trace).mp ?_
      have hfine : failureEffects (m₀.commitRun d dc).outcome = [] := by
        rw [hok]
        rfl
      rw [← htrace, hafter, hbefore, hfine]
      simp only [append_assoc, nil_append]
    refine .inr ⟨dc, ?_, ?_, ?_, fun hbelow => ?_⟩
    · rw [heffects]
      simp
    · rw [heffects, foldl_append, Tally.samples_of_news read hquiet', foldl_append,
        samples_committed read _ dc hran, Tally.samples_of_news read hquiet]
    · rw [hlive, h.livenessTracker, hqc]
    · rw [hset, activatedEpoch_of_below h hok htried (htrace ▸ prefix_refl _) hbelow]
      exact h.validatorSet

/-! ### Steps -/

lemma samples_epochEffects (read : ℕ → Option ValidatorSet) (m : Engine σ) (epoch : Epoch)
    (t : Tally) : ((m.epochEffects epoch).foldl (Tally.observe read) t).samples = [] := by
  unfold epochEffects
  rw [foldl_append]
  rfl

/-- Entering a view keeps samples and counters, or resets both. -/
lemma samples_advanceViewTo (m : Engine σ) (view : ℕ) (trigger : ViewEntryTrigger)
    (read : ℕ → Option ValidatorSet) : ∃ effects,
    (m.advanceViewTo d view trigger).trace = m.trace ++ effects
      ∧ (((m.advanceViewTo d view trigger).livenessTracker = m.livenessTracker
          ∧ ∀ t, (effects.foldl (Tally.observe read) t).samples = t.samples)
        ∨ ((m.advanceViewTo d view trigger).livenessTracker = LivenessTracker.new
          ∧ ∀ t, (effects.foldl (Tally.observe read) t).samples = [])) := by
  rcases Housed.advanceViewTo (d := d) m view trigger with ⟨-, heq⟩ | ⟨-, -, hhoused⟩
  · exact ⟨[], by rw [heq, append_nil], .inl ⟨by rw [heq], fun _ => rfl⟩⟩
  obtain ⟨after, hafter, hquiet⟩ := hhoused.trace
  rcases startEpoch_eq (d := d) (m.clearForView trigger) view with
    heq | ⟨epoch, app, effects, -, -, -, rfl, heq⟩
  · rw [heq] at hafter hhoused
    exact ⟨after, hafter, .inl ⟨hhoused.livenessTracker, Tally.samples_of_news read hquiet⟩⟩
  · rw [heq] at hafter hhoused
    refine ⟨(m.clearForView trigger).epochEffects epoch ++ after, ?_, .inr
      ⟨hhoused.livenessTracker, fun t => ?_⟩⟩
    · rw [hafter, append_assoc]
      rfl
    · rw [foldl_append, Tally.samples_of_news read hquiet]
      exact samples_epochEffects read _ epoch t

/-- **What a step does to the samples and to the counters**: both are reset, or kept, or a
commit is recorded in both. -/
lemma samplesAfter_cases {label : Label}
    (halive : (e.apply d label).halted = false) (samples : List LivenessSample) :
    (e.samplesAfter d label samples = [] ∧ (e.apply d label).livenessTracker = LivenessTracker.new)
      ∨ ∃ m effects, Sampled e.keyring.validatorSetForEpoch e m effects samples
          (e.samplesAfter d label samples)
        ∧ (e.apply d label).livenessTracker = m.livenessTracker
        ∧ effects <+: e.stepEffects d label := by
  have hends := ends_apply (d := d) e label
  unfold samplesAfter stepEffects
  generalize e.apply d label = e' at *
  cases hends with
  | commits h =>
    obtain ⟨effects, heq⟩ := h.grows
    rw [← heq, drop_left]
    exact .inr ⟨e', effects, h.sampled halive heq.symm _ ⟨samples, none⟩, rfl, prefix_refl _⟩
  | @entered m h tasks view trigger _ =>
    have hm : ({ m with todo := tasks ++ m.todo } : Engine σ).halted = false :=
      Housed.halted_advanceViewTo halive
    obtain ⟨effects, heq⟩ := h.grows
    obtain ⟨after, hafter, hview⟩ := samples_advanceViewTo (d := d)
      { m with todo := tasks ++ m.todo } view trigger e.keyring.validatorSetForEpoch
    have hdrop : ({ m with todo := tasks ++ m.todo }.advanceViewTo d view trigger).trace.drop
        e.trace.length = effects ++ after := by
      rw [hafter]
      change (m.trace ++ after).drop _ = _
      rw [← heq, append_assoc, drop_left]
    rw [hdrop, foldl_append]
    rcases hview with ⟨hlive, hkept⟩ | ⟨hlive, hreset⟩
    · rw [hkept]
      exact .inr ⟨m, effects, h.sampled hm heq.symm _ ⟨samples, none⟩, hlive, prefix_append _ _⟩
    · exact .inl ⟨hreset _, hlive⟩

/-! ### Runs -/

/-- A commit is tried on a certificate of the epoch. -/
def Effect.triesInEpoch (number : ℕ) : Effect → Bool
  | .tryCommit dc => dc.innerQc.epoch = number
  | _ => true

/-- The commits of a step execute blocks below the start of the pending epoch, and are
certified in the current epoch. -/
def CommitsInEpoch (d : Deps σ) (e : Engine σ) (label : Label) : Prop :=
  CommitsBelowStart d e label
    ∧ ∀ effect ∈ e.stepEffects d label, effect.triesInEpoch e.state.currentEpoch.number = true

instance (d : Deps σ) (e : Engine σ) (label : Label) : Decidable (CommitsInEpoch d e label) :=
  inferInstanceAs (Decidable (_ ∧ _))

/-- **The samples are the commits that the tracker has recorded**, in every run. -/
theorem SampledRun.totalCommits {P : Engine σ → Label → Prop}
    {samples : List LivenessSample} (h : SampledRun d cfg P e samples) (halive : e.halted = false) :
    e.livenessTracker.totalCommits = samples.length := by
  induction h with
  | start app evidence | restart _ _ _ app evidence =>
    rw [(forgotten_launch d cfg _ app evidence).livenessTracker]
    rfl
  | @step e samples label h henabled hP ih =>
    have hbefore := ih (not_halted_of_enabled henabled)
    rcases samplesAfter_cases halive samples with
      ⟨hsamples, hlive⟩ | ⟨m, effects, ⟨hsamples, hm⟩ | ⟨dc, -, hsamples, hm, -⟩, hlive, -⟩
    · rw [hsamples, hlive]
      rfl
    · rw [hsamples, hlive, hm, hbefore]
    · rw [hsamples, hlive, hm, length_append, ← hbefore]
      rfl

/-- **Liveness counts.**  In every run whose commits execute blocks below the start of the
pending epoch and are certified in the current epoch, the missed count of a validator is the
number of commits since the last reset whose certificate, read with the validator set of the
epoch that it names, has the validator as a member that did not sign. -/
theorem missed_eq_samples (d : Deps σ) (cfg : NodeConfig) {e : Engine σ}
    {samples : List LivenessSample} (hrun : SampledRun d cfg (CommitsInEpoch d) e samples)
    (halive : e.halted = false) (id : ℕ) :
    e.livenessTracker.missedBy id = samples.countP (·.misses id) := by
  induction hrun with
  | start app evidence | restart _ _ _ app evidence =>
    rw [(forgotten_launch d cfg _ app evidence).livenessTracker]
    rfl
  | @step e samples label h henabled hP ih =>
    have hbefore := ih (not_halted_of_enabled henabled)
    obtain ⟨hbelow, hepoch⟩ := hP
    rcases samplesAfter_cases halive samples with
      ⟨hsamples, hlive⟩
        | ⟨m, effects, ⟨hsamples, hm⟩ | ⟨dc, htry, hsamples, hm, hset⟩, hlive, hpre⟩
    · rw [hsamples, hlive]
      rfl
    · rw [hsamples, hlive, hm, hbefore]
    · -- the tracker reads the bits with the set of the current epoch, which is the sample's
      have hread : e.keyring.validatorSetForEpoch dc.innerQc.epoch = some e.state.validatorSet := by
        have hcurrent := hepoch _ (hpre.subset htry)
        rw [of_decide_eq_true hcurrent]
        exact if_pos rfl
      have hsame : m.state.validatorSet = e.state.validatorSet :=
        hset (hbelow.sublist (hpre.sublist.filterMap _))
      rw [hsamples, hlive, hm, hsame, hread, recordCommit_missed, hbefore, countP_append,
        countP_singleton]
      rfl

theorem missed_eq_samples_commit : beforeStart.livenessTracker.totalCommits = 1 ∧ ∃ samples,
      SampledRun updating ((solo (updatesAt [1])).config 0) (CommitsInEpoch updating)
        beforeStart samples
      ∧ beforeStart.livenessTracker.missedBy 1 = samples.countP (·.misses 1) := by
  have hrun : SampledRun updating ((solo (updatesAt [1])).config 0)
      (CommitsInEpoch updating) beforeStart _ :=
    .step (.step (.start () .empty) (by decide +kernel) (by decide +kernel)) (by decide +kernel)
      (by decide +kernel)
  exact ⟨by decide +kernel, _, hrun, missed_eq_samples _ _ hrun (by decide +kernel) 1⟩

/-- The node and its samples after steps that follow one another; nothing if one of them is not
enabled. -/
def sampleAll (d : Deps Unit) : List Label → Engine Unit × List LivenessSample →
    Option (Engine Unit × List LivenessSample)
  | [], x => some x
  | label :: labels, x =>
    if x.1.enabled label then
      sampleAll d labels (x.1.apply d label, x.1.samplesAfter d label x.2)
    else none

lemma sampledRun_sampleAll {d : Deps Unit} {labels : List Label}
    {x x' : Engine Unit × List LivenessSample} (h : sampleAll d labels x = some x')
    (hrun : SampledRun d cfg (fun _ _ => True) x.1 x.2) :
    SampledRun d cfg (fun _ _ => True) x'.1 x'.2 := by
  induction labels generalizing x with
  | nil => exact Option.some.inj h ▸ hrun
  | cons label labels ih =>
    rw [sampleAll] at h
    split_ifs at h with henabled
    exact ih h (hrun.step henabled trivial)

/-- The node that answers with updates at height 2, and its samples, when it gets to view 4 by
timeouts and commits there. -/
def crossed : Option (Engine Unit × List LivenessSample) :=
  sampleAll ((solo (updatesAt [2])).deps only) [.task env, .task env, .timeout, .timeout, .task env]
    ((solo (updatesAt [2])).init only, [])

/-- The commit of view 4 activates epoch 1, with validator 12; its certificate is of epoch 0,
whose set does not have that validator, and the tracker counts it as missing. -/
theorem missed_without_sample : ∃ e samples, SampledRun ((solo (updatesAt [2])).deps only)
        ((solo (updatesAt [2])).config only) (fun _ _ => True) e samples
      ∧ e.halted = false ∧ e.livenessTracker.missedBy 12 = 1
      ∧ samples.countP (·.misses 12) = 0 := by
  have hcounts : crossed.any (fun x => !x.1.halted && x.1.livenessTracker.missedBy 12 == 1
      && x.2.countP (·.misses 12) == 0) = true := by decide +kernel
  obtain ⟨x, hx, hcounts⟩ := (Option.any_eq_true _ _).mp hcounts
  simp only [Bool.and_eq_true, Bool.not_eq_true', beq_iff_eq] at hcounts
  unfold crossed at hx
  exact ⟨x.1, x.2, sampledRun_sampleAll hx (.start () .empty), hcounts.1.1, hcounts.1.2, hcounts.2⟩

end Hotmint
