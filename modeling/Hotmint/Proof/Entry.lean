/-
A step enters a view last.

* `Still`: a part of a handler that leaves the view and the epochs alone and
  executes nothing;
* `Tried`, `Commits`: a part that makes at most one commit, and adopts its result
  unless the commit failed;
* `Housed`: the view entry proper, which leaves the epochs alone as well;
* `Ends`: such a part, with nothing or one view entry after it;
* `ends_apply`: **every step of every node ends that way**.

No assumption on the message or on the state is made.
-/
import Hotmint.Proof.Fold
import Hotmint.Proof.Loop

namespace Hotmint

open Engine List Effect
variable {σ : Type} {d : Deps σ} {env : Env}
variable {P : Block → Prop} {dc : DoubleCertificate} {e e' e₁ m : Engine σ} {effects : List Effect}
variable {result : CommitResult} {effect : Effect} {m₀ : Engine σ} {view : ℕ}
variable {e₂ e₃ m' : Engine σ} {r : Option CommitResult × Engine σ}

/-- Effects that execute nothing. -/
lemma ranBlocks_eq_nil (h : ∀ effect ∈ effects, effect.ran = none) : ranBlocks effects = [] :=
  filterMap_eq_nil_iff.mpr h

lemma Effect.ran_of_calm (h : effect.calm = true) : effect.ran = none := by
  cases effect with
  | app call => cases call <;> first | rfl | cases h
  | _ => rfl

/-- The effects that a commit or a change of the epoch is known by. -/
def Effect.newsworthy : Effect → Bool
  | .app (.executeBlock _ _ (some _)) => true
  | .commitFailed _ => true
  | .onEpochChange _ _ => true
  | _ => false

/-- What a trace says of commits and changes of the epoch. -/
def news (trace : List Effect) : List Effect := trace.filter newsworthy

@[simp] lemma news_append (t t' : List Effect) : news (t ++ t') = news t ++ news t' :=
  filter_append _ _

lemma news_eq_nil (h : ∀ effect ∈ effects, effect.newsworthy = false) : news effects = [] :=
  filter_eq_nil_iff.mpr fun effect hmem => by simp [h effect hmem]

lemma ranBlocks_of_news (h : news effects = []) : ranBlocks effects = [] := by
  refine ranBlocks_eq_nil fun effect hmem => ?_
  have hquiet := filter_eq_nil_iff.mp h effect hmem
  cases effect with
  | app call =>
    cases call with
    | executeBlock block ctx response =>
      cases response with
      | none => rfl
      | some response => exact absurd rfl hquiet
    | _ => rfl
  | _ => rfl

lemma Effect.newsworthy_of_quiet (h : effect.quiet = true) : effect.newsworthy = false := by
  cases effect with
  | app call => cases call <;> first | rfl | cases h
  | commitFailed | onEpochChange => cases h
  | _ => rfl

lemma news_of_stored (h : ∀ effect ∈ effects, effect.stored = true) : news effects = [] := by
  refine news_eq_nil fun effect hmem => ?_
  have hstored := h effect hmem
  cases effect <;> first | rfl | cases hstored

section

variable {t t' t'' : List Effect} (h : ∃ effects, t' = t ++ effects ∧ news effects = [])

include h

/-- What adds no news executes nothing. -/
lemma grows_of_news : t <+: t' ∧ ranBlocks t' = ranBlocks t := by
  obtain ⟨effects, rfl, hnews⟩ := h
  exact ⟨prefix_append _ _, by rw [ranBlocks_append, ranBlocks_of_news hnews, append_nil]⟩

/-- What adds no news, twice. -/
lemma news_trans (h' : ∃ effects, t'' = t' ++ effects ∧ news effects = []) :
    ∃ effects, t'' = t ++ effects ∧ news effects = [] := by
  obtain ⟨effects, rfl, hnews⟩ := h
  obtain ⟨effects', rfl, hnews'⟩ := h'
  exact ⟨effects ++ effects', append_assoc _ _ _, by rw [news_append, hnews, hnews', append_nil]⟩

end

/-- The view, the epochs and the liveness counters stay, nothing is executed and no
continuation is left. -/
structure Still (e m : Engine σ) : Prop where
  currentView : m.state.currentView = e.state.currentView
  currentEpoch : m.state.currentEpoch = e.state.currentEpoch
  validatorSet : m.state.validatorSet = e.state.validatorSet
  pendingEpoch : m.pendingEpoch = e.pendingEpoch
  previousEpoch : m.previousEpoch = e.previousEpoch
  livenessTracker : m.livenessTracker = e.livenessTracker
  todo : m.todo ⊆ e.todo
  trace : ∃ effects, m.trace = e.trace ++ effects ∧ news effects = []

namespace Still

/-- Changes that neither touch the trace nor what is looked at here. -/
lemma silent (hview : m.state.currentView = e.state.currentView := by rfl)
    (hcurrent : m.state.currentEpoch = e.state.currentEpoch := by rfl)
    (hset : m.state.validatorSet = e.state.validatorSet := by rfl)
    (hpending : m.pendingEpoch = e.pendingEpoch := by rfl)
    (hprevious : m.previousEpoch = e.previousEpoch := by rfl)
    (hlive : m.livenessTracker = e.livenessTracker := by rfl)
    (htodo : m.todo ⊆ e.todo := by exact List.Subset.refl _)
    (htrace : m.trace = e.trace := by rfl) : Still e m :=
  ⟨hview, hcurrent, hset, hpending, hprevious, hlive, htodo, [], by rw [htrace, append_nil], rfl⟩

/-- The same, with effects that are no news. -/
lemma adds (h : Still e { m with trace := e.trace }) (htrace : m.trace = e.trace ++ effects)
    (hnews : news effects = []) : Still e m :=
  ⟨h.currentView, h.currentEpoch, h.validatorSet, h.pendingEpoch, h.previousEpoch,
    h.livenessTracker, h.todo, effects, htrace, hnews⟩

lemma refl (e : Engine σ) : Still e e := silent

lemma trans (h : Still e₁ e₂) (h' : Still e₂ e₃) : Still e₁ e₃ :=
  ⟨h'.currentView.trans h.currentView, h'.currentEpoch.trans h.currentEpoch,
    h'.validatorSet.trans h.validatorSet, h'.pendingEpoch.trans h.pendingEpoch,
    h'.previousEpoch.trans h.previousEpoch, h'.livenessTracker.trans h.livenessTracker,
    List.Subset.trans h'.todo h.todo, news_trans h.trace h'.trace⟩

lemma grows (h : Still e m) : e.trace <+: m.trace := (grows_of_news h.trace).1

lemma ran (h : Still e m) : ranBlocks m.trace = ranBlocks e.trace := (grows_of_news h.trace).2

lemma of_quiet (h : Quiet e e') : Still e e' := by
  obtain ⟨effects, heq, hquiet⟩ := h.trace
  exact ⟨h.currentView, h.currentEpoch, h.validatorSet, h.pendingEpoch, h.previousEpoch,
    h.livenessTracker, h.todo ▸ List.Subset.refl _, effects, heq,
    news_eq_nil fun effect hmem => newsworthy_of_quiet (hquiet effect hmem)⟩

lemma of_filed (h : Filed e e') : Still e e' := by
  obtain ⟨store, effects, rfl, hflush⟩ := h
  refine adds silent rfl (news_eq_nil fun effect hmem => ?_)
  rw [hflush effect hmem]
  rfl

section

variable (e : Engine σ)

lemma emits (h : news effects = []) : Still e (e.emits effects) := adds silent rfl h

lemma emit (h : effect.newsworthy = false) : Still e (e.emit effect) :=
  emits e (news_eq_nil (by simpa using h))

lemma putBlock (block : Block) : Still e (e.putBlock block) := adds silent rfl rfl

lemma raise (qc : QuorumCertificate) : Still e (e.mapState (·.updateHighestQc qc)) := by
  rw [mapState, ConsensusState.updateHighestQc_eq]
  exact silent

lemma lock (qc : QuorumCertificate) : Still e (e.mapState (·.updateLockedQc qc)) := by
  rw [mapState, ConsensusState.updateLockedQc_eq]
  exact silent

lemma withDc (dc : DoubleCertificate) : Still e (e.withDc dc) :=
  silent

lemma persistState : Still e (e.persistState d) := by
  rw [persistState_eq]
  exact emits e (news_of_stored fun _ => stored_persistEffects)

lemma finishWalIntent (height : ℕ) : Still e (e.finishWalIntent d env height) := by
  rw [finishWalIntent_eq]
  exact emits e (news_of_stored fun _ => stored_unlogEffects)

lemma finishIntent (intent : Option ℕ) : Still e (e.finishIntent d env intent) := by
  cases intent with
  | none => exact refl e
  | some height => exact finishWalIntent e height

lemma logCommitIntent (height : ℕ) : Still e (e.logCommitIntent d env height) := by
  unfold Engine.logCommitIntent
  split_ifs
  · exact emits e rfl
  · exact of_quiet (Quiet.halt e)
  · exact refl e

lemma collectVote (vote : Vote) : Still e (e.collectVote d vote).2 := by
  obtain ⟨effects, heq, heffects⟩ := collectVote_eq e vote
  rw [heq]
  refine adds silent rfl (news_eq_nil fun effect hmem => ?_)
  rcases heffects effect hmem with hquiet | ⟨qc, rfl, -⟩ | ⟨proof, -, rfl⟩
  · exact newsworthy_of_quiet hquiet
  · rfl
  · rfl

lemma signVote1 (block : Block) (justify : QuorumCertificate) :
    Still e (e.signVote1 d block justify).2 := by
  rcases hsign : e.signVote1 d block justify with ⟨_ | vote, e'⟩
  · rw [signVote1_refused hsign]
    exact refl e
  · obtain ⟨-, heq, -⟩ := signVote1_spec hsign
    rw [heq]
    refine adds silent rfl ?_
    rw [news_append, news_of_stored fun _ => stored_slotEffects]
    rfl

lemma signVote2 (qc : QuorumCertificate) (extension : Option Bytes) :
    Still e (e.signVote2 d qc extension).2 := by
  rcases hsign : e.signVote2 d qc extension with ⟨_ | vote, e'⟩
  · rw [signVote2_refused hsign]
    exact refl e
  · obtain ⟨-, heq, -⟩ := signVote2_spec hsign
    rw [heq]
    refine adds silent rfl ?_
    rw [news_append, news_of_stored fun _ => stored_slotEffects]
    rfl

/-- Processing a result, once its epochs are adopted: the commit is counted, and nothing
else happens. -/
lemma processCommitResult (hne : ¬ result.committedBlocks.isEmpty = true) :
    Still (e.recorded result) (e.processCommitResult d env result) := by
  have hstore : ∀ pairs : List (Block × Option EndBlockResponse),
      Still e ((pairs.foldl (Engine.storeCommitted result.commitQc) e).emit .flush) := by
    intro pairs
    have hstored : Still e (pairs.foldl (Engine.storeCommitted result.commitQc) e) := by
      rw [Engine.foldl_storeCommitted_eq]
      exact adds silent rfl (news_of_stored fun _ => Engine.stored_storeEffects)
    exact hstored.trans (emit _ rfl)
  unfold Engine.processCommitResult
  rw [if_neg hne]
  have hmarked := (hstore (result.committedBlocks.zipIdx.map fun p =>
    (p.1, result.blockResponses[p.2]?))).trans
      (of_filed (filed_markEvidence (d := d) _ result.committedBlocks))
  dsimp only at hmarked ⊢
  generalize Engine.markEvidence d result.committedBlocks _ = marked at hmarked
  have hrecorded : Still (e.recorded result) (marked.recorded result) := by
    refine ⟨hmarked.currentView, hmarked.currentEpoch, hmarked.validatorSet, hmarked.pendingEpoch,
      hmarked.previousEpoch, ?_, hmarked.todo, hmarked.trace⟩
    unfold Engine.recorded
    rw [hmarked.livenessTracker, hmarked.validatorSet]
  exact hrecorded.trans ((persistState _).trans (finishWalIntent _ _))

end

lemma storeAncestors (ancestors : List Block) (e : Engine σ) :
    Still e (ancestors.foldl (storeAncestor d) e) := by
  induction ancestors generalizing e with
  | nil => exact refl e
  | cons ancestor ancestors ih =>
    refine Still.trans ?_ (ih _)
    unfold storeAncestor
    split_ifs
    · exact putBlock e ancestor
    · exact refl e

lemma storePastBlock (e : Engine σ) (block : Block) : Still e (e.storePastBlock d block) := by
  unfold Engine.storePastBlock
  split_ifs
  · exact putBlock e block
  · exact refl e

lemma recordJustify (e : Engine σ) (justify : QuorumCertificate) :
    Still e (e.recordJustify justify) := by
  unfold Engine.recordJustify
  split_ifs
  · split
    · split_ifs
      · exact adds silent rfl rfl
      · exact refl e
    · exact refl e
  · exact refl e

lemma voteOnProposal (e : Engine σ) (block : Block) (justify : QuorumCertificate) :
    Still e (e.voteOnProposal d block justify) := by
  have hsign := signVote1 (d := d) e block justify
  unfold Engine.voteOnProposal
  split_ifs
  · exact refl e
  · split
    · next e' heq =>
        rw [heq] at hsign
        exact hsign.trans (of_quiet (Quiet.setStep _ _))
    · next vote e' heq =>
        rw [heq] at hsign
        split
        · exact hsign.trans ((emits e' rfl).trans (of_quiet (Quiet.setStep _ _)))
        · exact hsign.trans (of_quiet (Quiet.halt _))
  · exact of_quiet (Quiet.setStep _ _)

lemma propose (e : Engine σ) : Still e (e.propose d env).2 := by
  unfold Engine.propose
  split
  · exact refl e
  · split
    · exact refl e
    · next justify _ parent _ =>
        have hcreate : Still e (e.createPayload d env parent).2 :=
          adds silent rfl rfl
        refine hcreate.trans ?_
        exact (putBlock _ _).trans ((emits _ rfl).trans (of_quiet (Quiet.setStep _ _)))

lemma onPrepare (e : Engine σ) (qc : QuorumCertificate) (extension : Option Bytes) :
    Still e (e.onPrepare d qc extension).2 := by
  unfold Engine.onPrepare
  split_ifs
  · exact refl e
  dsimp only
  have hlock : Still e (e.mapState fun st => (st.updateLockedQc qc).updateHighestQc qc) :=
    (lock e qc).trans (raise _ qc)
  refine hlock.trans ?_
  generalize (e.mapState fun st => (st.updateLockedQc qc).updateHighestQc qc) = e₁
  have hsign := signVote2 (d := d) e₁ qc extension
  split_ifs
  · split
    · next e' heq =>
        rw [heq] at hsign
        exact hsign.trans (of_quiet (Quiet.setStep _ _))
    · next vote e' heq =>
        rw [heq] at hsign
        split
        · exact hsign.trans (of_quiet (Quiet.setStep _ _))
        · exact hsign.trans (of_quiet (Quiet.halt _))
  · exact of_quiet (Quiet.setStep _ _)

end Still

/-! ### Entering a view -/

/-- What the view entry proper leaves alone. -/
structure Housed (e e' : Engine σ) : Prop where
  currentEpoch : e'.state.currentEpoch = e.state.currentEpoch
  validatorSet : e'.state.validatorSet = e.state.validatorSet
  pendingEpoch : e'.pendingEpoch = e.pendingEpoch
  previousEpoch : e'.previousEpoch = e.previousEpoch
  voteCollector : e'.voteCollector = e.voteCollector
  pacemaker : e'.pacemaker = e.pacemaker
  livenessTracker : e'.livenessTracker = e.livenessTracker
  halted : e.halted = true → e'.halted = true
  trace : ∃ effects, e'.trace = e.trace ++ effects ∧ news effects = []

namespace Housed

lemma grows (h : Housed e e') : e.trace <+: e'.trace := (grows_of_news h.trace).1

lemma ran (h : Housed e e') : ranBlocks e'.trace = ranBlocks e.trace := (grows_of_news h.trace).2

lemma trans (h : Housed e₁ e₂) (h' : Housed e₂ e₃) : Housed e₁ e₃ :=
  ⟨h'.currentEpoch.trans h.currentEpoch, h'.validatorSet.trans h.validatorSet,
    h'.pendingEpoch.trans h.pendingEpoch, h'.previousEpoch.trans h.previousEpoch,
    h'.voteCollector.trans h.voteCollector, h'.pacemaker.trans h.pacemaker,
    h'.livenessTracker.trans h.livenessTracker, fun hhalt => h'.halted (h.halted hhalt),
    news_trans h.trace h'.trace⟩

/-- Changes of the state alone, its epoch apart. -/
lemma mapState (e : Engine σ) {f : ConsensusState → ConsensusState}
    (hepoch : (f e.state).currentEpoch = e.state.currentEpoch)
    (hset : (f e.state).validatorSet = e.state.validatorSet) : Housed e (e.mapState f) :=
  ⟨hepoch, hset, rfl, rfl, rfl, rfl, rfl, id, [], (append_nil _).symm, rfl⟩

lemma emits (e : Engine σ) (h : news effects = []) : Housed e (e.emits effects) :=
  ⟨rfl, rfl, rfl, rfl, rfl, rfl, rfl, id, effects, rfl, h⟩

lemma awaitTurn (e : Engine σ) (view : ℕ) (amLeader : Bool) : Housed e (e.awaitTurn d view amLeader)
      ∧ (e.awaitTurn d view amLeader).state.currentView = e.state.currentView := by
  unfold Engine.awaitTurn Engine.sendStatus
  split_ifs
  · exact ⟨mapState e rfl rfl, rfl⟩
  · split
    · exact ⟨(emits e rfl).trans (mapState _ rfl rfl), rfl⟩
    · exact ⟨⟨rfl, rfl, rfl, rfl, rfl, rfl, rfl, fun _ => rfl, [], (append_nil _).symm, rfl⟩, rfl⟩
  · exact ⟨mapState e rfl rfl, rfl⟩

/-- **Entering a later view.** -/
lemma enterView (e : Engine σ) (trigger : ViewEntryTrigger)
    (h : e.state.currentView < view) : Housed e (e.enterView d view trigger)
      ∧ (e.enterView d view trigger).state.currentView = view := by
  have hraised : ∀ (st : ConsensusState) (qc : QuorumCertificate),
      (st.updateHighestQc qc).currentEpoch = st.currentEpoch
        ∧ (st.updateHighestQc qc).validatorSet = st.validatorSet
        ∧ (st.updateHighestQc qc).currentView = st.currentView := by
    intro st qc
    rw [ConsensusState.updateHighestQc_eq]
    exact ⟨rfl, rfl, rfl⟩
  have hturn : ∀ (e₁ : Engine σ) (amLeader : Bool), Housed e e₁ → e₁.state.currentView = view →
      Housed e (e₁.awaitTurn d view amLeader)
        ∧ (e₁.awaitTurn d view amLeader).state.currentView = view := by
    intro e₁ amLeader hhoused hview
    obtain ⟨hturned, hkept⟩ := awaitTurn e₁ view amLeader
    exact ⟨hhoused.trans hturned, hkept.trans hview⟩
  have hfresh : ¬ decide (view ≤ e.state.currentView) = true := by simpa using h
  unfold Engine.enterView
  cases trigger with
  | genesis =>
    exact ⟨⟨rfl, rfl, rfl, rfl, rfl, rfl, rfl, id, [], (append_nil _).symm, rfl⟩, rfl⟩
  | doubleCert dc =>
    rw [if_neg hfresh]
    refine hturn _ _ ?_ (hraised _ _).2.2
    exact (mapState e rfl rfl).trans (mapState _ (hraised _ _).1 (hraised _ _).2.1)
  | timeoutCert tc =>
    dsimp only
    rw [if_neg hfresh]
    cases tc.highestQc with
    | none => exact hturn _ _ (mapState e rfl rfl) rfl
    | some qc =>
      refine hturn _ _ ?_ (hraised _ _).2.2
      exact (mapState e rfl rfl).trans (mapState _ (hraised _ _).1 (hraised _ _).2.1)

/-- **A view change** does nothing, or changes the epoch if one is due and enters the
view. -/
lemma advanceViewTo (m : Engine σ) (view : ℕ) (trigger : ViewEntryTrigger) :
    (view ≤ m.state.currentView ∧ m.advanceViewTo d view trigger = m)
      ∨ (m.state.currentView < view ∧ (m.advanceViewTo d view trigger).state.currentView = view
        ∧ Housed ((m.clearForView trigger).startEpoch d view) (m.advanceViewTo d view trigger)) :=
        by
  unfold Engine.advanceViewTo
  split_ifs with hle
  · exact .inl ⟨hle, rfl⟩
  have hlt : ((m.clearForView trigger).startEpoch d view).state.currentView < view := by
    rw [Engine.startEpoch_currentView]
    exact not_le.mp hle
  obtain ⟨hhoused, hview⟩ := enterView _ trigger hlt
  refine .inr ⟨not_le.mp hle, ?_⟩
  dsimp only
  generalize ((m.clearForView trigger).startEpoch d view).enterView d view trigger = entered
    at hhoused hview
  have hpushed : ∀ e : Engine σ, Housed e (e.push .tryPropose) := fun e =>
    ⟨rfl, rfl, rfl, rfl, rfl, rfl, rfl, id, [], (append_nil _).symm, rfl⟩
  have hpersist : Housed entered (entered.persistState d) := by
    rw [Engine.persistState_eq]
    exact emits entered (news_of_stored fun _ => Engine.stored_persistEffects)
  have hkept : (entered.persistState d).state.currentView = entered.state.currentView := by
    rw [Engine.persistState_eq]
    rfl
  unfold Engine.andThen
  dsimp only
  split_ifs
  · exact ⟨hview, hhoused⟩
  · exact ⟨hkept.trans hview, hhoused.trans (hpersist.trans (hpushed _))⟩
  · exact ⟨hkept.trans hview, hhoused.trans hpersist⟩

/-- A leader enters a view as one of that view. -/
lemma role_enterView (e : Engine σ) (trigger : ViewEntryTrigger)
    (h : e.state.currentView < view) : (e.enterView d view trigger).todo = e.todo
      ∧ ((e.enterView d view trigger).state.isLeader = true →
        isLeaderOf (e.enterView d view trigger).state.validatorSet view
          (e.enterView d view trigger).state.validatorId = true) := by
  have hturn : ∀ (m : Engine σ) (amLeader : Bool), (m.awaitTurn d view amLeader).todo = m.todo
      ∧ ∃ step, (m.awaitTurn d view amLeader).state = { m.state with step } := by
    intro m amLeader
    unfold Engine.awaitTurn Engine.sendStatus
    split_ifs
    · exact ⟨rfl, _, rfl⟩
    · split <;> exact ⟨rfl, _, rfl⟩
    · exact ⟨rfl, _, rfl⟩
  have hrole : ∀ amLeader : Bool,
      decide ((if amLeader = true then ViewRole.leader else .replica) = .leader) = true →
        amLeader = true := by
    intro amLeader
    cases amLeader <;> simp
  have hfresh : ¬ decide (view ≤ e.state.currentView) = true := by simpa using h
  unfold Engine.enterView
  cases trigger with
  | genesis => exact ⟨rfl, hrole _⟩
  | doubleCert dc =>
    rw [if_neg hfresh]
    obtain ⟨htodo, _, hstate⟩ := hturn _ _
    rw [htodo, hstate, Engine.state_mapState, ConsensusState.updateHighestQc_eq]
    exact ⟨rfl, hrole _⟩
  | timeoutCert tc =>
    rw [if_neg hfresh]
    obtain ⟨htodo, _, hstate⟩ := hturn _ _
    rw [htodo, hstate]
    cases tc.highestQc with
    | none => exact ⟨rfl, hrole _⟩
    | some qc =>
      rw [Engine.state_mapState, ConsensusState.updateHighestQc_eq]
      exact ⟨rfl, hrole _⟩

/-- Entering a view leaves a continuation to a leader only. -/
lemma todo_advanceViewTo (m : Engine σ) (view : ℕ) (trigger : ViewEntryTrigger) :
    (m.advanceViewTo d view trigger).todo = m.todo
      ∨ ((m.advanceViewTo d view trigger).todo = .tryPropose :: m.todo
        ∧ isLeaderOf (m.advanceViewTo d view trigger).state.validatorSet view
          (m.advanceViewTo d view trigger).state.validatorId = true) := by
  unfold Engine.advanceViewTo
  split_ifs with hle
  · exact .inl rfl
  have hsame : ((m.clearForView trigger).startEpoch d view).todo = m.todo := by
    rcases Engine.startEpoch_eq (m.clearForView trigger) view with
      heq | ⟨_, _, _, -, -, -, -, heq⟩ <;> rw [heq] <;> rfl
  have hlt : ((m.clearForView trigger).startEpoch d view).state.currentView < view := by
    rw [Engine.startEpoch_currentView]
    exact not_le.mp hle
  obtain ⟨htodo, hleader⟩ := role_enterView _ trigger hlt
  rw [hsame] at htodo
  unfold Engine.andThen
  dsimp only
  rw [Engine.persistState_eq]
  split_ifs with hhalt hturn
  · exact .inl htodo
  · exact .inr ⟨congrArg _ htodo, hleader hturn.1⟩
  · exact .inl htodo

lemma grows_startEpoch (e : Engine σ) (view : ℕ) : ∃ effects,
    (e.startEpoch d view).trace = e.trace ++ effects := by
  rcases startEpoch_eq e view with heq | ⟨_, _, effects, -, -, -, -, heq⟩
  · exact ⟨[], by rw [heq, append_nil]⟩
  · exact ⟨effects, by rw [heq]⟩

lemma grows_advanceViewTo (m : Engine σ) (view : ℕ) (trigger : ViewEntryTrigger) :
    m.trace <+: (m.advanceViewTo d view trigger).trace := by
  rcases advanceViewTo m view trigger with ⟨-, heq⟩ | ⟨-, -, hhoused⟩
  · exact heq.symm ▸ prefix_refl _
  · obtain ⟨effects, heq⟩ := grows_startEpoch (m.clearForView trigger) view
    refine List.IsPrefix.trans ?_ hhoused.grows
    exact heq ▸ prefix_append _ _

/-- A node that stopped stays so when it enters a view. -/
lemma halted_advanceViewTo {trigger : ViewEntryTrigger}
    (h : (m.advanceViewTo d view trigger).halted = false) : m.halted = false := by
  refine Bool.eq_false_iff.mpr fun hhalt => ?_
  rcases advanceViewTo m view trigger with ⟨-, heq⟩ | ⟨-, -, hhoused⟩
  · rw [heq, hhalt] at h
    cases h
  · have hstart : ((m.clearForView trigger).startEpoch d view).halted = true := by
      rcases startEpoch_eq (m.clearForView trigger) view with
        heq | ⟨_, _, _, -, -, -, -, heq⟩ <;> rw [heq] <;> exact hhalt
    rw [hhoused.halted hstart] at h
    cases h

end Housed

/-! ### Commits and view entries -/

/-- `try_commit` ran on the way from `m₀` to `m`, and nothing else was executed. -/
structure Tried (d : Deps σ) (m₀ : Engine σ) (dc : DoubleCertificate) (m : Engine σ) : Prop where
  currentView : m.state.currentView = m₀.state.currentView
  todo : m.todo ⊆ m₀.todo
  trace : ∃ effects, m.trace = m₀.trace ++ (.tryCommit dc :: (m₀.commitRun d dc).calls.map .app)
        ++ failureEffects (m₀.commitRun d dc).outcome ++ effects
    ∧ news effects = []

/-- A part of a step that makes at most one commit, and adopts its result unless the
commit failed or the node stopped. -/
inductive Commits (d : Deps σ) (e : Engine σ) : Engine σ → Prop
  | still {m : Engine σ} (h : Still e m) : Commits d e m
  | refused {m₀ m : Engine σ} {dc : DoubleCertificate} (h : Still e m₀) (htried : Tried d m₀ dc m)
      (hcurrent : m.state.currentEpoch = m₀.state.currentEpoch)
      (hpending : m.pendingEpoch = m₀.pendingEpoch) (hprevious : m.previousEpoch = m₀.previousEpoch)
      (hstop : m.halted = true ∨ ∃ err, (m₀.commitRun d dc).outcome = .err err)
      (hset : m.state.validatorSet = m₀.state.validatorSet)
      (hlive : m.livenessTracker = m₀.livenessTracker) : Commits d e m
  | adopted {m₀ m : Engine σ} {dc : DoubleCertificate} {result : CommitResult} (h : Still e m₀)
      (hok : (m₀.commitRun d dc).outcome = .ok result) (hne : result.committedBlocks ≠ [])
      (htried : Tried d m₀ dc m)
      (hcurrent : m.state.currentEpoch = result.activatedEpoch.getD m₀.state.currentEpoch)
      (hpending : m.pendingEpoch = result.pendingEpoch)
      (hprevious : m.previousEpoch
        = (result.activatedEpoch.map fun _ => some m₀.state.currentEpoch).getD m₀.previousEpoch)
      (hset : m.state.validatorSet
        = (result.activatedEpoch.map (·.validatorSet)).getD m₀.state.validatorSet)
      (hlive : m.livenessTracker = m₀.livenessTracker.recordCommit m.state.validatorSet
        result.commitQc.aggregateSignature.signers) :
      Commits d e m

/-- The continuation that is left when a view is entered: none, or the rest of the
handling of a proposal of that view. -/
def Leaves (P : Block → Prop) (e : Engine σ) (view : ℕ) (tasks : List Task) : Prop :=
  tasks = [] ∨ ∃ block justify dc, tasks = [.resumeProposal block justify dc]
    ∧ view = block.view ∧ e.state.currentView < block.view ∧ P block

/-- A step that enters a view, if any, as the last thing it does; `P` holds of the
proposal it leaves for later. -/
inductive Ends (d : Deps σ) (P : Block → Prop) (e : Engine σ) : Engine σ → Prop
  | commits {m : Engine σ} (h : Commits d e m) : Ends d P e m
  | entered {m : Engine σ} (h : Commits d e m) (tasks : List Task) (view : ℕ)
      (trigger : ViewEntryTrigger) (hleaves : Leaves P e view tasks) :
      Ends d P e ({ m with todo := tasks ++ m.todo }.advanceViewTo d view trigger)

/-- A view entry that leaves nothing. -/
lemma Commits.entered (h : Commits d e m) (view : ℕ)
    (trigger : ViewEntryTrigger) : Ends d P e (m.advanceViewTo d view trigger) :=
  .entered h [] view trigger (.inl rfl)

lemma Tried.then (h : Tried d m₀ dc m) (h' : Still m m') : Tried d m₀ dc m' :=
  ⟨h'.currentView.trans h.currentView, List.Subset.trans h'.todo h.todo,
    news_trans h.trace h'.trace⟩

lemma Tried.grows (h : Tried d m₀ dc m) :
    m₀.trace ++ .tryCommit dc :: (m₀.commitRun d dc).calls.map .app <+: m.trace := by
  obtain ⟨effects, heq, -⟩ := h.trace
  rw [heq, append_assoc]
  exact prefix_append _ _

lemma Tried.ran (h : Tried d m₀ dc m) : ranBlocks m.trace
      = ranBlocks m₀.trace ++ ranBlocks ((m₀.commitRun d dc).calls.map .app) := by
  obtain ⟨effects, heq, hnews⟩ := h.trace
  have hfailed : ranBlocks (failureEffects (m₀.commitRun d dc).outcome) = [] := by
    cases (m₀.commitRun d dc).outcome <;> rfl
  rw [heq, ranBlocks_append, ranBlocks_append, ranBlocks_append, hfailed, ranBlocks_of_news hnews,
    append_nil, append_nil]
  rfl

lemma Commits.grows (h : Commits d e m) : e.trace <+: m.trace := by
  cases h with
  | still h => exact h.grows
  | refused h htried _ _ _ _
  | adopted h _ _ htried _ _ _ => exact h.grows.trans ((prefix_append _ _).trans htried.grows)

lemma Commits.currentView (h : Commits d e m) : m.state.currentView = e.state.currentView := by
  cases h with
  | still h => exact h.currentView
  | refused h htried _ _ _ _
  | adopted h _ _ htried _ _ _ => exact htried.currentView.trans h.currentView

lemma Commits.todo (h : Commits d e m) : m.todo ⊆ e.todo := by
  cases h with
  | still h => exact h.todo
  | refused h htried _ _ _ _
  | adopted h _ _ htried _ _ _ => exact List.Subset.trans htried.todo h.todo

lemma Still.commits (h : Still e e₁) (h' : Commits d e₁ m) : Commits d e m := by
  cases h' with
  | still h' => exact .still (h.trans h')
  | refused h' htried hcurrent hpending hprevious hstop hset hlive =>
    exact .refused (h.trans h') htried hcurrent hpending hprevious hstop hset hlive
  | adopted h' hok hne htried hcurrent hpending hprevious hset hlive =>
    exact .adopted (h.trans h') hok hne htried hcurrent hpending hprevious hset hlive

lemma Still.ends (h : Still e e₁) (h' : Ends d P e₁ m) : Ends d P e m := by
  cases h' with
  | commits h' => exact .commits (h.commits h')
  | entered h' tasks view trigger hleaves =>
    refine .entered (h.commits h') tasks view trigger ?_
    unfold Leaves at hleaves ⊢
    rwa [← h.currentView]

/-- The trace only grows. -/
lemma Ends.grows (h : Ends d P e e') : e.trace <+: e'.trace := by
  cases h with
  | commits h => exact h.grows
  | @entered m h tasks view trigger _ =>
    have hm : e.trace <+: { m with todo := tasks ++ m.todo }.trace := h.grows
    exact hm.trans (Housed.grows_advanceViewTo _ view trigger)

lemma Still.unchanged (h : Still e m) : Ends d P e m :=
  .commits (.still h)

/-- What a node that goes on does after a commit. -/
lemma Commits.then (h : Commits d e m) (halive : ¬ m.halted = true)
    (h' : Still m m') : Commits d e m' := by
  cases h with
  | still h => exact .still (h.trans h')
  | refused h htried hcurrent hpending hprevious hstop hset hlive =>
    exact .refused h (htried.then h') (h'.currentEpoch.trans hcurrent)
      (h'.pendingEpoch.trans hpending) (h'.previousEpoch.trans hprevious)
      (.inr (hstop.resolve_left halive)) (h'.validatorSet.trans hset)
      (h'.livenessTracker.trans hlive)
  | adopted h hok hne htried hcurrent hpending hprevious hset hlive =>
    refine .adopted h hok hne (htried.then h') (h'.currentEpoch.trans hcurrent)
      (h'.pendingEpoch.trans hpending) (h'.previousEpoch.trans hprevious)
      (h'.validatorSet.trans hset) ?_
    rw [h'.livenessTracker, hlive, h'.validatorSet]

/-- `try_commit` itself adopts nothing. -/
lemma tried_runTryCommit (e : Engine σ) (dc : DoubleCertificate) :
    Tried d e dc (e.runTryCommit d dc).2
      ∧ (e.runTryCommit d dc).2.state.currentEpoch = e.state.currentEpoch
      ∧ (e.runTryCommit d dc).2.pendingEpoch = e.pendingEpoch
      ∧ (e.runTryCommit d dc).2.previousEpoch = e.previousEpoch
      ∧ (e.runTryCommit d dc).2.state.validatorSet = e.state.validatorSet
      ∧ (e.runTryCommit d dc).2.livenessTracker = e.livenessTracker := by
  obtain ⟨_, _, heq⟩ := runTryCommit_eq e dc
  rw [heq]
  refine ⟨⟨rfl, List.Subset.refl _, [], ?_, rfl⟩, rfl, rfl, rfl, rfl, rfl⟩
  rw [append_nil, append_assoc]

/-- A commit whose result nobody adopts. -/
lemma commits_refused (hm : Still (e.runTryCommit d dc).2 m)
    (hstop : m.halted = true ∨ ∃ err, (e.commitRun d dc).outcome = .err err) : Commits d e m := by
  obtain ⟨htried, hcurrent, hpending, hprevious, hset, hlive⟩ := tried_runTryCommit e dc
  exact .refused (Still.refl e) (htried.then hm) (hm.currentEpoch.trans hcurrent)
    (hm.pendingEpoch.trans hpending) (hm.previousEpoch.trans hprevious) hstop
    (hm.validatorSet.trans hset) (hm.livenessTracker.trans hlive)

/-- A commit of nothing executes nothing. -/
lemma still_runTryCommit
    (h : (e.runTryCommit d dc).1 = .ok result) (hempty : result.committedBlocks.isEmpty = true) :
    Still e (e.runTryCommit d dc).2 := by
  obtain ⟨htried, hcurrent, hpending, hprevious, hset, hlive⟩ := tried_runTryCommit (d := d) e dc
  rw [runTryCommit_outcome] at h
  have hcalls : (e.commitRun d dc).calls = [] := by
    rcases tryCommit_ok h with ⟨-, -, hcalls⟩ | ⟨target, blocks, x, -, hwalk, -, rfl, -⟩
    · exact hcalls
    · have hlast := hwalk.getLast
      rw [show blocks = [] from isEmpty_iff.mp hempty] at hlast
      cases hlast
  obtain ⟨effects, heq, hnews⟩ := htried.trace
  rw [hcalls, h] at heq
  refine ⟨htried.currentView, hcurrent, hset, hpending, hprevious, hlive, htried.todo,
    .tryCommit dc :: effects, by simpa [failureEffects] using heq, ?_⟩
  exact hnews

/-- A result is adopted some time after `try_commit` returned it. -/
lemma commits_processCommitResult
    (h : (e.runTryCommit d dc).1 = .ok result) (hne : ¬ result.committedBlocks.isEmpty = true)
    (hm : Still (e.runTryCommit d dc).2 m) :
    Commits d e ((m.adoptCommitEpoch result).processCommitResult d env result) := by
  obtain ⟨htried, hcurrent, hpending, hprevious, hset, hlive⟩ := tried_runTryCommit e dc
  have hprocessed : Still ((m.adoptCommitEpoch result).recorded result)
      ((m.adoptCommitEpoch result).processCommitResult d env result) :=
    Still.processCommitResult _ hne
  rw [runTryCommit_outcome] at h
  rw [adoptCommitEpoch_eq] at hprocessed ⊢
  have hadopted : Tried d e dc _ := htried.then hm
  refine .adopted (Still.refl e) h (fun hnil => hne (isEmpty_iff.mpr hnil))
    ⟨hprocessed.currentView.trans hadopted.currentView,
      List.Subset.trans hprocessed.todo hadopted.todo,
      news_trans hadopted.trace hprocessed.trace⟩ ?_ ?_ ?_ ?_ ?_
  · rw [hprocessed.currentEpoch, ← hcurrent, ← hm.currentEpoch]
    rfl
  · exact hprocessed.pendingEpoch
  · rw [hprocessed.previousEpoch, ← hcurrent, ← hm.currentEpoch, ← hprevious, ← hm.previousEpoch]
    rfl
  · rw [hprocessed.validatorSet, ← hset, ← hm.validatorSet]
    rfl
  · rw [hprocessed.livenessTracker, hprocessed.validatorSet, ← hlive, ← hm.livenessTracker]
    rfl

/-- `try_commit` and what follows it. -/
lemma commits_finishCommit (e : Engine σ) (dc : DoubleCertificate) (intent : Option ℕ) :
    Commits d e ((e.runTryCommit d dc).2.finishCommit d env intent (e.runTryCommit d dc).1) := by
  cases hout : (e.runTryCommit d dc).1 with
  | ok result =>
    unfold finishCommit
    dsimp only
    split_ifs with hempty
    · exact .still ((still_runTryCommit hout hempty).trans (Still.finishIntent _ intent))
    · exact commits_processCommitResult hout hempty (Still.refl _)
  | err err =>
    rw [runTryCommit_outcome] at hout
    exact commits_refused (Still.finishIntent _ intent) (.inr ⟨err, hout⟩)
  | panic => exact commits_refused (Still.refl _) (.inl (halted_of_panic hout))

lemma commits_applyCommit (e : Engine σ) (dc : DoubleCertificate) :
    Commits d e (e.applyCommit d env dc) := by
  have hcommit : ∀ (m : Engine σ) (intent : Option ℕ), Still e m → Commits d e (m.andThen fun m =>
        (m.runTryCommit d dc).2.finishCommit d env intent (m.runTryCommit d dc).1) := by
    intro m intent hm
    unfold andThen
    split_ifs
    · exact .still hm
    · exact hm.commits (commits_finishCommit m dc intent)
  unfold applyCommit
  dsimp only
  split
  · exact hcommit _ _ (Still.logCommitIntent e _)
  · exact hcommit e _ (Still.refl e)

/-! ### The handlers -/

variable {P : Block → Prop}

/-- **`on_double_cert_formed`** commits, then enters the next view. -/
lemma ends_onDoubleCertFormed (e : Engine σ) (outerQc : QuorumCertificate)
    (extensions : List (ℕ × Bytes)) : Ends d P e (e.onDoubleCertFormed d env outerQc extensions) :=
    by
  unfold onDoubleCertFormed
  dsimp only
  split
  · have hcleared : Still e { e with currentViewQc := none } := Still.silent
    exact hcleared.unchanged
  · next innerQc _ =>
      have hformed : Still e ({ e with currentViewQc := none }.emit
          (.formed (.dc ⟨innerQc, outerQc, extensions⟩))) :=
        .adds .silent rfl rfl
      refine hformed.ends ?_
      have hcommit : Commits d _ (applyCommit d env _ _) :=
        commits_applyCommit ({ e with currentViewQc := none }.emit
          (.formed (.dc ⟨innerQc, outerQc, extensions⟩))) ⟨innerQc, outerQc, extensions⟩
      unfold andThen
      split_ifs with halted
      · exact .commits hcommit
      · exact (hcommit.then halted (Still.withDc _ _)).entered _ _

lemma ends_collectVote2 (e : Engine σ) (vote : Vote) : Ends d P e (match e.collectVote d vote with
      | (some (outerQc, extensions), e) => e.onDoubleCertFormed d env outerQc extensions
      | (none, e) => e) := by
  have hcollect := Still.collectVote (d := d) e vote
  split
  · next outerQc extensions e' heq =>
      rw [heq] at hcollect
      exact hcollect.ends (ends_onDoubleCertFormed _ _ _)
  · next e' heq =>
      rw [heq] at hcollect
      exact hcollect.unchanged

lemma ends_releaseVote2 (e : Engine σ) (vote : Vote) : Ends d P e (e.releaseVote2 d env vote) := by
  unfold releaseVote2
  split
  · exact (Still.of_quiet (Quiet.halt e)).unchanged
  · split_ifs
    · exact (Still.emit e rfl).ends (ends_collectVote2 _ vote)
    · exact (Still.emits e rfl).unchanged

/-- **`on_qc_formed`.** -/
lemma ends_onQcFormed (e : Engine σ) (qc : QuorumCertificate) :
    Ends d P e (e.onQcFormed d env qc) := by
  have hcollected : Still e ({ e with currentViewQc := some qc }.onVotesCollected d qc) := by
    have hset : Still e { e with currentViewQc := some qc } := Still.silent
    exact hset.trans ((Still.raise _ qc).trans
      ((Still.emits _ rfl).trans (Still.of_quiet (Quiet.setStep _ _))))
  have hextended := hcollected.trans (Still.of_quiet (quiet_extendVote (d := d) _ qc.blockHash))
  unfold onQcFormed
  dsimp only
  generalize ({ e with currentViewQc := some qc }.onVotesCollected d qc).extendVote d qc.blockHash
    = r at hextended
  have hsigned := hextended.trans (Still.signVote2 (d := d) r.2 qc r.1)
  split
  · next e' heq =>
      rw [heq] at hsigned
      exact hsigned.unchanged
  · next vote e' heq =>
      rw [heq] at hsigned
      refine hsigned.ends ((Still.lock e' qc).ends ((Still.persistState (d := d) _).ends ?_))
      exact ends_releaseVote2 _ vote

lemma ends_collectVote1 (e : Engine σ) (vote : Vote) : Ends d P e (match e.collectVote d vote with
      | (some (qc, _), e) => e.onQcFormed d env qc
      | (none, e) => e) := by
  have hcollect := Still.collectVote (d := d) e vote
  split
  · next qc extensions e' heq =>
      rw [heq] at hcollect
      exact hcollect.ends (ends_onQcFormed _ _)
  · next e' heq =>
      rw [heq] at hcollect
      exact hcollect.unchanged

/-- **`try_propose`.** -/
lemma ends_tryPropose (e : Engine σ) : Ends d P e (e.tryPropose d env) := by
  have hpropose : Still e (e.propose d env).2 := Still.propose e
  unfold tryPropose
  split
  · next block justify e₁ heq =>
      rw [heq] at hpropose
      refine hpropose.ends ?_
      have hsigned := Still.signVote1 (d := d) e₁ block justify
      unfold leaderSelfVote
      split
      · next e₂ heq₂ =>
          rw [heq₂] at hsigned
          exact hsigned.unchanged
      · next vote e₂ heq₂ =>
          rw [heq₂] at hsigned
          exact hsigned.ends ((Still.emit e₂ rfl).ends (ends_collectVote1 _ vote))
  · next e₁ heq =>
      rw [heq] at hpropose
      exact hpropose.unchanged

/-- What `on_proposal` leaves for its caller: a commit that was made on the way and
is not adopted yet, or none. -/
def CommitLeft (d : Deps σ) (e : Engine σ) : Option CommitResult × Engine σ → Prop
  | (none, e') => Commits d e e'
  | (some result, e') => ∃ m dc, Still e m ∧ (m.runTryCommit d dc).1 = .ok result
      ∧ Still (m.runTryCommit d dc).2 e'

lemma Still.commitLeft (h : Still e e₁) (h' : CommitLeft d e₁ r) : CommitLeft d e r := by
  rcases r with ⟨_ | result, e'⟩
  · exact h.commits h'
  · obtain ⟨m, dc, hm, hok, he'⟩ := h'
    exact ⟨m, dc, h.trans hm, hok, he'⟩

lemma commitLeft_commit (e : Engine σ) (block : Block) (justify : QuorumCertificate)
    (dc : DoubleCertificate) : CommitLeft d e (match e.runTryCommit d dc with
      | (.ok result, e) => (some result, e.voteOnProposal d block justify)
      | (.err _, e) => (none, e)
      | (.panic, e) => (none, e)) := by
  split
  · next result m heq =>
      refine ⟨e, dc, Still.refl e, by rw [heq], ?_⟩
      rw [heq]
      exact Still.voteOnProposal m block justify
  · next err m heq =>
      have hout : (e.runTryCommit d dc).1 = .err err := by rw [heq]
      have hrun : Still (e.runTryCommit d dc).2 m := by rw [heq]; exact Still.refl m
      rw [runTryCommit_outcome] at hout
      exact commits_refused hrun (.inr ⟨err, hout⟩)
  · next m heq =>
      have hout : (e.runTryCommit d dc).1 = .panic := by rw [heq]
      have hrun : Still (e.runTryCommit d dc).2 m := by rw [heq]; exact Still.refl m
      have hhalt := halted_of_panic hout
      rw [heq] at hhalt
      exact commits_refused hrun (.inl hhalt)

lemma commitLeft_onProposal (e : Engine σ) (block : Block) (justify : QuorumCertificate)
    (dc : Option DoubleCertificate) : CommitLeft d e (e.onProposal d env block justify dc) := by
  unfold onProposal
  dsimp only
  split
  · exact .still (Still.refl e)
  split
  · exact .still (Still.refl e)
  · have hcall : ∀ s call, newsworthy (.app call) = false →
        Still e ({ e with app := s }.emit (.app call)) := fun s call hcall =>
      .adds .silent rfl (news_eq_nil (by simpa using hcall))
    have hstored : ∀ s call, newsworthy (.app call) = false →
        Still e ((({ e with app := s }.emit (.app call)).putBlock
          block).mapState (·.updateHighestQc justify)) := fun s call hnews =>
      (hcall s call hnews).trans ((Still.putBlock _ block).trans (Still.raise _ justify))
    split_ifs
    · cases dc with
      | none => exact .still ((hstored _ _ rfl).trans (Still.voteOnProposal _ block justify))
      | some dc => exact (hstored _ _ rfl).commitLeft (commitLeft_commit _ block justify dc)
    · exact .still (hcall _ _ rfl)

/-- The caller adopts the commit that is left to it. -/
lemma CommitLeft.commits
    (h : CommitLeft d e r) (intent : Option ℕ) : Commits d e (r.2.andThen fun m =>
      match r.1 with
      | some result => m.finishCommit d env intent (.ok result)
      | none => m.finishIntent d env intent) := by
  rcases r with ⟨_ | result, m⟩
  · unfold andThen
    split_ifs with halted
    · exact h
    · exact Commits.then h halted (Still.finishIntent m intent)
  · obtain ⟨m₀, dc, hm₀, hok, hm⟩ := h
    unfold andThen
    split_ifs with halted
    · exact hm₀.commits (commits_refused hm (.inl halted))
    unfold finishCommit
    dsimp only
    split_ifs with hempty
    · have hstill := hm₀.trans ((still_runTryCommit hok hempty).trans hm)
      exact .still (hstill.trans (Still.finishIntent m intent))
    · exact hm₀.commits (commits_processCommitResult hok hempty hm)

section

variable (e : Engine σ)

/-- **The proposal branch from `R-25` on.** -/
lemma commits_resumeProposal (block : Block) (justify : QuorumCertificate)
    (dc : Option DoubleCertificate) : Commits d e (e.resumeProposal d env block justify dc) := by
  have hleft : ∀ (m : Engine σ) (intent : Option ℕ), Still e m → Commits d e (m.andThen fun m =>
      (m.onProposal d env block justify dc).2.andThen fun m' =>
        match (m.onProposal d env block justify dc).1 with
        | some result => m'.finishCommit d env intent (.ok result)
        | none => m'.finishIntent d env intent) := by
    intro m intent hm
    rw [andThen]
    split_ifs
    · exact .still hm
    · exact hm.commits ((commitLeft_onProposal m block justify dc).commits intent)
  unfold resumeProposal
  dsimp only
  split_ifs
  · have hverified : news (dc.map fun dc => verified (.dc dc)).toList = [] := by
      cases dc <;> rfl
    have hrecorded := (Still.emits e hverified).trans (Still.recordJustify _ justify)
    split
    · exact hleft _ _ (hrecorded.trans (Still.logCommitIntent _ _))
    · exact hleft _ _ hrecorded
  · exact .still (Still.refl e)

/-- **The proposal branch.** -/
lemma ends_handlePropose (block : Block) (justify : QuorumCertificate)
    (dc : Option DoubleCertificate) (ancestors : List Block)
    (hP : e.state.currentView < block.view → P block) :
    Ends d P e (e.handlePropose d env block justify dc ancestors) := by
  have hstored := Still.storeAncestors (d := d) ancestors e
  refine hstored.ends ?_
  rw [← hstored.currentView] at hP
  unfold handlePropose
  dsimp only
  generalize ancestors.foldl (storeAncestor d) e = e₁ at hP
  split_ifs with hfuture
  · split
    · exact (Still.refl e₁).unchanged
    · next cert =>
        split_ifs
        · have hverified : Still e₁ (e₁.emits [.verified (.dc cert)]) := Still.emits e₁ rfl
          refine hverified.ends ?_
          have hcommit : Commits d _ (applyCommit d env _ _) :=
            commits_applyCommit (e₁.emits [.verified (.dc cert)]) cert
          unfold andThen
          split_ifs with halted
          · exact .commits hcommit
          · exact .entered (hcommit.then halted (Still.withDc _ cert)) [_] _ _
              (.inr ⟨block, justify, some cert, rfl, rfl, hfuture, hP hfuture⟩)
        · exact (Still.refl e₁).unchanged
  · exact (Still.storePastBlock e₁ block).unchanged
  · exact .commits (commits_resumeProposal e₁ block justify dc)

lemma ends_handleVote (vote : Vote) : Ends d P e (e.handleVote d env vote) := by
  unfold handleVote
  split_ifs
  · exact ends_collectVote1 e vote
  · exact (Still.refl e).unchanged

lemma ends_handleVote2 (vote : Vote) : Ends d P e (e.handleVote2 d env vote) := by
  unfold handleVote2
  split_ifs
  · have haccept := Still.of_quiet (quiet_acceptExtension (d := d) e vote)
    dsimp only
    generalize e.acceptExtension d vote = r at haccept
    split_ifs
    · exact haccept.ends (ends_collectVote2 r.2 vote)
    · exact haccept.unchanged
  · exact (Still.refl e).unchanged

lemma still_handlePrepare (certificate : QuorumCertificate) :
    Still e (e.handlePrepare d certificate) := by
  unfold handlePrepare
  split_ifs
  · exact Still.refl e
  · have hextended := Still.of_quiet (quiet_extendVote (d := d) e certificate.blockHash)
    dsimp only
    generalize e.extendVote d certificate.blockHash = r at hextended
    have hprepared := hextended.trans (Still.onPrepare (d := d) r.2 certificate r.1)
    generalize r.2.onPrepare d certificate r.1 = r' at hprepared
    unfold andThen
    split_ifs
    · exact hprepared
    · have hsaved := hprepared.trans (Still.persistState (d := d) r'.2)
      split
      · exact hsaved.trans (Still.emits _ rfl)
      · exact hsaved
  · exact Still.refl e

lemma ends_collectWish (targetView validator : ℕ)
    (highestQc : Option QuorumCertificate) (signature : Signature) :
    Ends d P e (e.collectWish d targetView validator highestQc signature) := by
  have hadd : Still e (e.addWish targetView validator highestQc signature).2 := by
    unfold addWish
    split
    · exact .adds .silent rfl rfl
    · exact Still.silent
  unfold collectWish
  split
  · next tc e' heq =>
      rw [heq] at hadd
      exact (Commits.still hadd).entered _ _
  · next e' heq =>
      rw [heq] at hadd
      exact hadd.unchanged

lemma ends_handleWish (targetView validator : ℕ)
    (highestQc : Option QuorumCertificate) (signature : Signature) :
    Ends d P e (e.handleWish d targetView validator highestQc signature) := by
  unfold handleWish
  dsimp only
  split_ifs
  · exact (Still.emits e (by cases highestQc <;> rfl)).ends (ends_collectWish _ _ _ _ _)
  · exact (Still.refl e).unchanged

lemma ends_handleTimeoutCert (tc : TimeoutCertificate) : Ends d P e (e.handleTimeoutCert d tc) := by
  have hrelay : Still e (if e.state.currentView ≤ tc.view + 1 then
      if (e.pacemaker.shouldRelayTc tc).1 then
        ({ e with pacemaker := (e.pacemaker.shouldRelayTc tc).2 }).emit
          (.broadcast (.timeoutCert tc))
      else { e with pacemaker := (e.pacemaker.shouldRelayTc tc).2 }
    else e) := by
    split_ifs
    · exact .adds .silent rfl rfl
    · exact Still.silent
    · exact Still.refl e
  refine hrelay.ends ?_
  unfold handleTimeoutCert
  dsimp only
  generalize (if e.state.currentView ≤ tc.view + 1 then _ else _) = e₁
  split_ifs
  · exact (Commits.still (Still.refl _)).entered _ _
  · exact (Still.refl _).unchanged

lemma ends_handleStatusCert (lockedQc : Option QuorumCertificate) (validator : ℕ) :
    Ends d P e (e.handleStatusCert d env lockedQc validator) := by
  have hadopt : Still e (e.adoptStatusQc d lockedQc) := by
    unfold adoptStatusQc
    split
    · split_ifs
      · exact (Still.emits e rfl).trans (Still.raise _ _)
      · exact Still.refl e
    · exact Still.refl e
  unfold handleStatusCert
  split_ifs
  · dsimp only
    generalize e.adoptStatusQc d lockedQc = e₁ at hadopt
    have hsenders : Still e { e₁ with statusSenders := e₁.statusSenders.insert validator } :=
      hadopt.trans (Still.silent)
    split_ifs
    · exact hsenders.ends (ends_tryPropose _)
    · exact hsenders.unchanged
  · exact (Still.refl e).unchanged

lemma ends_dispatch (msg : ConsensusMessage) (hP : ∀ block justify dc signature ancestors,
      msg = .propose block justify dc signature ancestors → e.state.currentView < block.view →
        P block) : Ends d P e (e.dispatch d env msg) := by
  cases msg with
  | propose block justify dc signature ancestors =>
    exact ends_handlePropose e block justify dc ancestors (hP _ _ _ _ _ rfl)
  | voteMsg vote => exact ends_handleVote e vote
  | prepare certificate signature => exact (still_handlePrepare e certificate).unchanged
  | vote2Msg vote => exact ends_handleVote2 e vote
  | wish targetView validator highestQc signature =>
    exact ends_handleWish e targetView validator highestQc signature
  | timeoutCert tc => exact ends_handleTimeoutCert e tc
  | statusCert lockedQc validator signature => exact ends_handleStatusCert e lockedQc validator
  | evidence proof => exact (Still.of_filed (filed_handleEvidence e proof)).unchanged

/-- The message of a label is a proposal of the block that passes the checks. -/
def Label.Proposes (c : Crypto) (k : Keyring) (label : Label) (block : Block) : Prop :=
  ∃ env sender justify dc signature ancestors,
    label = .message env sender (.propose block justify dc signature ancestors)
      ∧ k.verifyCurrent c (.propose block justify dc signature ancestors) = true

/-- **Every step of every node** commits at most once and enters a view, if any,
last. -/
theorem ends_apply (label : Label) :
    Ends d (label.Proposes d.crypto e.keyring) e (e.apply d label) := by
  cases label with
  | message env sender msg =>
    have hquiet := quiet_rateLimit env e sender
    have hlimit := Still.of_quiet hquiet
    change Ends d _ e (e.handleMessage d env sender msg)
    unfold handleMessage
    split
    · next e₁ heq =>
        rw [heq] at hlimit
        exact hlimit.unchanged
    · next e₁ heq =>
        rw [heq] at hlimit hquiet
        refine hlimit.ends ?_
        split_ifs with hpast hcheck
        · refine ends_dispatch e₁ msg fun block justify dc signature ancestors hmsg _ => ?_
          -- proposals are always checked
          subst hmsg
          cases hpast
        · have hverified : news ((checkedCertificates msg).map .verified) = [] :=
            news_eq_nil (by simp [newsworthy])
          refine (Still.emits e₁ hverified).ends (ends_dispatch _ msg ?_)
          intro block justify dc signature ancestors hmsg _
          subst hmsg
          rw [hquiet.keyring] at hcheck
          exact ⟨env, sender, justify, dc, signature, ancestors, rfl, hcheck⟩
        · exact (Still.refl e₁).unchanged
  | timeout =>
    change Ends d _ e (e.handleTimeout d)
    unfold handleTimeout
    split_ifs
    · exact (Still.emits e rfl).ends (ends_collectWish _ _ _ _ _)
    · exact (Still.refl e).unchanged
  | task env =>
    change Ends d _ e (e.runTask d env)
    unfold runTask
    split
    · exact (Still.refl e).unchanged
    · next task todo htodo =>
        have hpop : Still e { e with todo } :=
          Still.silent rfl rfl rfl rfl rfl rfl (htodo ▸ subset_cons_self _ _) rfl
        refine hpop.ends ?_
        cases task with
        | tryPropose => exact ends_tryPropose _
        | resumeProposal block justify dc =>
          exact .commits (commits_resumeProposal _ block justify dc)

end

end Hotmint
