/-
Staking drives the epochs.

* `StakingManager.after`, `Driven`: an application that keeps a staking manager and answers
  every block with the updates from the validator set of its context;
* `BlockRun`: blocks committed one after the other, with the epochs entered and the staking
  calls made in between;
* `InForce`: the set that is or will be in force has the formal validators;
* `Aligned`: the set of the context is the one that the updates are chained onto;
* `staking_drives_epochs`: **in a run of such blocks every block leaves the formal
  validators in force**;
* `slashed_validator_joins`: a validator slashed while its epoch is pending joins the set.
-/
import Hotmint.Proof.Fold
import Hotmint.Staking.Updates

namespace Hotmint.Staking

open StakingManager StakingStore ValidatorSet List

variable {σ : Type}
variable {block : Block} {x : ExecState σ} {m : StakingManager}
variable {x' x₀ : ExecState σ} {config : StakingConfig} {s s' : σ}

/-! ### Applications with a staking manager -/

/-- The manager after some calls. -/
def StakingManager.after (m : StakingManager) (calls : List Call) : StakingManager :=
  calls.foldl (fun m call => (call.outcome m).2) m

lemma Books.manager_performAll (b : Books) (calls : List Call) :
    (b.performAll calls).manager = b.manager.after calls := by
  unfold Books.performAll StakingManager.after
  induction calls generalizing b with
  | nil => rfl
  | cons call calls ih =>
    rw [foldl_cons, foldl_cons, ← b.manager_perform]
    exact ih (b.perform call)

/-- A manager that calls can lead to. -/
def StakingManager.Reachable (config : StakingConfig) (m : StakingManager) : Prop :=
  ∃ calls, m = (StakingManager.new config).after calls

lemma StakingManager.Reachable.after (h : m.Reachable config)
    (calls : List Call) : (m.after calls).Reachable config := by
  obtain ⟨calls₀, rfl⟩ := h
  refine ⟨calls₀ ++ calls, ?_⟩
  unfold StakingManager.after
  rw [foldl_append]

lemma StakingManager.Reachable.sound (hconfig : config.validate = .ok ())
    (h : m.Reachable config) : m.store.Sound := by
  obtain ⟨calls, rfl⟩ := h
  have hsound := (Books.sound_performAll hconfig calls).2
  rwa [Books.manager_performAll] at hsound

/-- An application whose callbacks change its staking manager by calls only, and which
answers a block with the updates from the validator set it was shown. -/
structure Driven (app : Application σ) (staking : σ → StakingManager) : Prop where
  onEvidence : ∀ s proof, ∃ calls, staking (app.onEvidence s proof).2 = (staking s).after calls
  executeBlock : ∀ s txs ctx, ∃ calls,
    staking (app.executeBlock s txs ctx).2 = (staking s).after calls
  updates : ∀ s txs ctx response s', app.executeBlock s txs ctx = (some response, s') →
    response.validatorUpdates = (staking s').computeValidatorUpdates ctx.validatorSet
  onCommit : ∀ s block ctx, staking (app.onCommit s block ctx).2 = staking s

/-! ### Runs of blocks -/

/-- A committed block, with the loop variables before and after it. -/
structure Round (σ : Type) where
  before : ExecState σ
  block : Block
  after : ExecState σ

/-- Committed blocks: rounds of the loop of `try_commit`; between them the node may enter
the pending epoch when its view reaches it, and start the loop anew with the epochs it has,
after any staking calls. -/
inductive BlockRun (app : Application σ) (staking : σ → StakingManager) (x₀ : ExecState σ) :
    List (Round σ) → ExecState σ → Prop
  | start : BlockRun app staking x₀ [] x₀
  | block {rounds : List (Round σ)} {x x' : ExecState σ} {block : Block}
      (h : BlockRun app staking x₀ rounds x) (hround : executeOne app x block = (.completed, x')) :
      BlockRun app staking x₀ (rounds ++ [⟨x, block, x'⟩]) x'
  | enter {rounds : List (Round σ)} {x : ExecState σ} {epoch : Epoch}
      (h : BlockRun app staking x₀ rounds x) (hpending : x.pending = some epoch) :
      BlockRun app staking x₀ rounds
        { x with previous := some x.active, active := epoch, pending := none }
  | resume {rounds : List (Round σ)} {x x' : ExecState σ} (calls : List Call)
      (h : BlockRun app staking x₀ rounds x) (hactive : x'.active = x.active)
      (hpending : x'.pending = x.pending)
      (hstaking : staking x'.app = (staking x.app).after calls) :
      BlockRun app staking x₀ rounds x'

/-- The set that will be in force, or that is. -/
def targetSet (x : ExecState σ) : ValidatorSet := (x.pending.getD x.active).validatorSet

/-- **The formal validators are in force**, as a map from ids. -/
def InForce (m : StakingManager) (set : ValidatorSet) : Prop :=
  ∀ id, set.get id = (m.formalValidatorList.find? (·.id = id)).map
    fun f => ⟨f.id, f.publicKey, f.votingPower⟩

/-- There are formal validators, all with power, and their powers together fit. -/
def Electable (m : StakingManager) : Prop :=
  m.formalValidatorList ≠ [] ∧ (∀ f ∈ m.formalValidatorList, 0 < f.votingPower)
    ∧ (m.formalValidatorList.map (·.votingPower)).sum < 2 ^ 64

instance (m : StakingManager) : Decidable (Electable m) := inferInstanceAs (Decidable (_ ∧ _))

/-- The validator set that the context of a block shows is the one that its updates are
chained onto. -/
def Aligned (x : ExecState σ) (block : Block) : Prop :=
  ((x.activate block).ctxEpoch block).validatorSet = targetSet (x.activate block)

/-- So it is when the pending epoch and the current one have started. -/
lemma aligned_of_started (hpending : ∀ epoch, x.pending = some epoch → epoch.startView ≤ block.view)
    (hactive : x.active.startView ≤ block.view) : Aligned x block := by
  have hstarted : (x.activate block).pending = none
      ∧ (x.activate block).active.startView ≤ block.view := by
    unfold ExecState.activate
    cases hx : x.pending with
    | none => exact ⟨hx, hactive⟩
    | some epoch =>
      dsimp only
      rw [if_pos (hpending epoch hx)]
      exact ⟨rfl, hpending epoch hx⟩
  unfold Aligned targetSet ExecState.ctxEpoch
  rw [if_neg (Nat.not_lt_of_le hstarted.2), hstarted.1, Option.getD_none]

lemma inForce_of_perm {set : ValidatorSet}
    (hperm : set.validators.Perm (m.formalValidatorList.map (·.info))) : InForce m set := by
  intro id
  cases hfind : m.formalValidatorList.find? (·.id = id) with
  | none =>
    rw [Option.map_none, get_eq_none]
    intro v hv
    obtain ⟨f, hf, rfl⟩ := mem_map.mp (hperm.mem_iff.mp hv)
    have hne := find?_eq_none.mp hfind f hf
    exact fun hid => hne (decide_eq_true hid)
  | some f =>
    rw [Option.map_some, get_eq_some]
    have hid : f.id = id := of_decide_eq_true (find?_some hfind :)
    exact ⟨hperm.mem_iff.mpr (mem_map.mpr ⟨f, mem_of_find?_eq_some hfind, rfl⟩), hid⟩

/-- **Updates chained onto the set they were computed from** can be applied, and leave the
formal validators in force. -/
lemma pendingAfter_inForce (h : m.store.Sound) (helectable : Electable m)
    (active : Epoch) (pending : Option Epoch) (view : ℕ) :
    ∃ pending', pendingAfter active pending view
        (m.computeValidatorUpdates (pending.getD active).validatorSet) = .ok pending'
      ∧ InForce m (pending'.getD active).validatorSet := by
  obtain ⟨hne, hpower, hfits⟩ := helectable
  have htotal : totalPowerOf m.formalValidatorList < 2 ^ 64 := by
    unfold totalPowerOf sumPower
    rw [map_map]
    exact hfits
  obtain ⟨set, hset, hperm⟩ := tryApplyUpdates_reaches h (pending.getD active).validatorSet hne
    hpower htotal
  unfold pendingAfter
  split_ifs with hempty
  · -- without updates the set already has the formal validators
    rw [isEmpty_iff.mp hempty] at hset
    have hsame : set.validators = (pending.getD active).validatorSet.validators :=
      tryNew_validators hset
    exact ⟨pending, rfl, inForce_of_perm (hsame ▸ hperm)⟩
  · unfold chainedPendingEpoch
    dsimp only
    rw [hset]
    exact ⟨some _, rfl, inForce_of_perm hperm⟩

section Step

lemma executeOne_app (app : Application σ) (x : ExecState σ) (block : Block) :
    (executeOne app x block).2.app
      = (executeCommittedBlock app block (x.context block) x.app).2.1 := by
  rw [executeOne_eq]
  rcases executeCommittedBlock app block (x.context block) x.app with ⟨_ | response, s, calls⟩
  · rfl
  · unfold ExecState.conclude
    dsimp only
    split <;> rfl

variable {app : Application σ} {staking : σ → StakingManager} {config : StakingConfig}

section

variable (hdriven : Driven app staking)

include hdriven

lemma Driven.evidenceApplied {proofs : List EquivocationProof} (h : EvidenceApplied app s proofs s')
    (hs : (staking s).Reachable config) : (staking s').Reachable config := by
  induction h with
  | nil s => exact hs
  | @cons s s₁ s' proof proofs hproof hrest ih =>
    obtain ⟨calls, hcalls⟩ := hdriven.onEvidence s proof
    rw [hproof] at hcalls
    exact ih (hcalls ▸ hs.after calls)

/-- What a block does to the staking manager, and what it answers. -/
lemma Driven.blockApplied {ctx : BlockContext} {response : EndBlockResponse}
    (h : BlockApplied app s block ctx response s') (hs : (staking s).Reachable config) :
    (staking s').Reachable config
      ∧ response.validatorUpdates = (staking s').computeValidatorUpdates ctx.validatorSet := by
  obtain ⟨s₁, s₂, hevidence, hexecute, hcommit⟩ := h
  obtain ⟨calls, hcalls⟩ := hdriven.executeBlock s₁ (decodePayload block.payload) ctx
  have hsame := hdriven.onCommit s₂ block ctx
  rw [hexecute] at hcalls
  rw [hcommit] at hsame
  have hreach : (staking s₂).Reachable config :=
    hcalls ▸ (hdriven.evidenceApplied hevidence hs).after calls
  refine ⟨hsame.symm ▸ hreach, ?_⟩
  rw [hsame]
  exact hdriven.updates s₁ _ ctx response s₂ hexecute

/-- **A round** leaves the formal validators in force, when the set of its context is the
one that its updates are chained onto. -/
lemma Driven.executeOne (hconfig : config.validate = .ok ())
    {ending : ExecEnd} (hround : Hotmint.executeOne app x block = (ending, x'))
    (hx : (staking x.app).Reachable config) (haligned : Aligned x block)
    (helectable : Electable (staking x'.app)) : (∀ err, ending ≠ .failed err)
      ∧ (ending = .completed → InForce (staking x'.app) (targetSet x')) := by
  rcases hexec : executeCommittedBlock app block (x.context block) x.app with ⟨answer, s, calls⟩
  have happ := executeOne_app app x block
  rw [hround, hexec] at happ
  cases answer with
  | none =>
    obtain rfl : ending = .panicked := by
      rw [executeOne_eq, hexec] at hround
      exact (Prod.mk.inj hround).1.symm
    exact ⟨fun err herr => (by cases herr), fun herr => (by cases herr)⟩
  | some response =>
    obtain ⟨happlied, -⟩ := executeCommittedBlock_eq_some.mp hexec
    obtain ⟨hreach, hupdates⟩ := hdriven.blockApplied happlied hx
    rw [happ] at helectable ⊢
    -- the context shows the set that the updates are chained onto
    rw [show (x.context block).validatorSet = targetSet (x.activate block) from haligned]
      at hupdates
    obtain ⟨pending, hpending, hinForce⟩ := pendingAfter_inForce (hreach.sound hconfig)
      helectable (x.activate block).active (x.activate block).pending block.view
    have hcompleted := executeOne_eq_completed.mpr
      ⟨response, s, pending, happlied, hupdates ▸ hpending, rfl⟩
    rw [hround] at hcompleted
    cases hcompleted
    exact ⟨fun err herr => (by cases herr), fun _ => hinForce⟩

/-- The manager stays reachable in a round that completes. -/
lemma Driven.reachable_round (hround : Hotmint.executeOne app x block = (.completed, x'))
    (hx : (staking x.app).Reachable config) : (staking x'.app).Reachable config := by
  obtain ⟨response, s, pending, happlied, -, rfl⟩ := executeOne_eq_completed.mp hround
  exact (hdriven.blockApplied happlied hx).1

/-- The manager stays reachable in a run. -/
lemma BlockRun.reachable {rounds : List (Round σ)} (h : BlockRun app staking x₀ rounds x)
    (hx₀ : (staking x₀.app).Reachable config) : (staking x.app).Reachable config := by
  induction h with
  | start => exact hx₀
  | block h hround ih => exact hdriven.reachable_round hround ih
  | enter h hpending ih => exact ih
  | resume calls h hactive hpending hstaking ih => exact hstaking ▸ ih.after calls

end

/-- **Staking drives the epochs.**  In every run of committed blocks, with any staking calls
in the blocks and between them: when the set that each block's context shows is the one
that its updates are chained onto, then after every block the set that is or will be in
force has the formal validators, and no block's updates are refused. -/
theorem staking_drives_epochs (hconfig : config.validate = .ok ()) (hdriven : Driven app staking)
    {x₀ x : ExecState σ} (hx₀ : (staking x₀.app).Reachable config) {rounds : List (Round σ)}
    (hrun : BlockRun app staking x₀ rounds x)
    (hrounds : ∀ r ∈ rounds, Aligned r.before r.block ∧ Electable (staking r.after.app)) :
    (∀ r ∈ rounds, InForce (staking r.after.app) (targetSet r.after))
      ∧ ∀ block, Aligned x block → Electable (staking (Hotmint.executeOne app x block).2.app) →
        ∀ err, (Hotmint.executeOne app x block).1 ≠ .failed err := by
  constructor
  · induction hrun with
    | start => exact fun r hr => (not_mem_nil hr).elim
    | @block rounds x x' block h hround ih =>
      intro r hr
      rcases mem_append.mp hr with hr | hr
      · exact ih (fun r hr => hrounds r (mem_append_left _ hr)) r hr
      · obtain rfl := mem_singleton.mp hr
        obtain ⟨haligned, helectable⟩ := hrounds _ (mem_append_right _ hr)
        exact (hdriven.executeOne hconfig hround (h.reachable hdriven hx₀) haligned
          helectable).2 rfl
    | enter h hpending ih | resume calls h hactive hpending hstaking ih => exact ih hrounds
  · intro block haligned helectable
    exact (hdriven.executeOne hconfig rfl (hrun.reachable hdriven hx₀) haligned helectable).1

/-- The loop of `try_commit` is such a run. -/
lemma BlockRun.chainApplied {rounds : List (Round σ)} {blocks : List Block}
    (h : BlockRun app staking x₀ rounds x) (hchain : ChainApplied app x blocks x') :
    ∃ rounds', BlockRun app staking x₀ (rounds ++ rounds') x' ∧ rounds'.map (·.block) = blocks := by
  induction hchain generalizing rounds with
  | nil x => exact ⟨[], by rwa [append_nil], rfl⟩
  | @cons x x₁ x' block blocks hround hrest ih =>
    obtain ⟨rounds', hrun, hblocks⟩ := ih (h.block (executeOne_eq_completed.mpr hround))
    refine ⟨⟨x, block, x₁⟩ :: rounds', ?_, congrArg (block :: ·) hblocks⟩
    rwa [append_assoc] at hrun

end Step

/-! ### A staking application -/

/-- An application that is nothing but a staking manager, with the calls that the block of
each height makes. -/
def stakingApplication (operations : ℕ → List Call) : Application StakingManager where
  info _ := ⟨0, BlockHash.genesis⟩
  createPayload m _ := ([], m)
  validateBlock m _ _ := (true, m)
  executeBlock m _ ctx :=
    let m' := m.after (operations ctx.height)
    (some ⟨m'.computeValidatorUpdates ctx.validatorSet, [], BlockHash.genesis⟩, m')
  onCommit m _ _ := (true, m)
  onEvidence m _ := (true, m)
  onOfflineValidators m _ := m
  extendVote m _ _ := (none, m)
  verifyVoteExtension m _ _ _ := (true, m)
  tracksAppHash _ := false

lemma driven_stakingApplication (operations : ℕ → List Call) :
    Driven (stakingApplication operations) id where
  onEvidence _ _ := ⟨[], rfl⟩
  executeBlock _ _ ctx := ⟨operations ctx.height, rfl⟩
  updates _ _ _ _ _ h := by
    obtain ⟨hresponse, rfl⟩ := Prod.mk.inj h
    cases hresponse
    rfl
  onCommit _ _ _ := rfl

/-- One validator. -/
def oneMember : ValidatorSet where
  validators := [⟨0, ⟨replicate 32 1⟩, 1000⟩]
  total_lt := by decide
  total_ne_zero := by decide
  nodup_id := by decide
  nodup_key := by decide
  key_length := by decide

/-- A second validator registers in the first block and is slashed in the second. -/
def joinAndSlash : ℕ → List Call
  | 1 => [.register 1 ⟨replicate 32 2⟩ 2000]
  | 2 => [.slash 1 .downtime 2]
  | _ => []

/-- The loop variables before the first block, with the one validator registered. -/
def oneMemberStart : ExecState StakingManager :=
  .start 0 ⟨0, 0, oneMember⟩ none none
    ((StakingManager.new {}).after [.register 0 ⟨replicate 32 1⟩ 1000])

/-- A block of the given height and view. -/
def plainBlock (height view : ℕ) : Block := { Block.genesis with height, view }

/-- With the second block two views later the slashed validator has left again. -/
theorem staking_drives_epochs_spaced :
    let app := stakingApplication joinAndSlash
    let x₁ := (executeOne app oneMemberStart (plainBlock 1 1)).2
    let x₂ := (executeOne app x₁ (plainBlock 2 3)).2
    x₁.app.formalValidatorList.map (·.id) = [1, 0] ∧ x₂.app.formalValidatorList.map (·.id) = [0]
      ∧ InForce x₁.app (targetSet x₁) ∧ InForce x₂.app (targetSet x₂) := by
  intro app x₁ x₂
  have hround₁ : executeOne app oneMemberStart (plainBlock 1 1) = (.completed, x₁) :=
    Prod.ext (by decide +kernel) rfl
  have hround₂ : executeOne app x₁ (plainBlock 2 3) = (.completed, x₂) :=
    Prod.ext (by decide +kernel) rfl
  have hrun : BlockRun app id oneMemberStart
      [⟨oneMemberStart, plainBlock 1 1, x₁⟩, ⟨x₁, plainBlock 2 3, x₂⟩] x₂ :=
    (BlockRun.start.block hround₁).block hround₂
  have hpending : x₁.pending.all (·.startView ≤ 3) = true := by decide +kernel
  have haligned₁ : Aligned oneMemberStart (plainBlock 1 1) :=
    aligned_of_started (fun epoch hepoch => by cases hepoch) (by decide)
  have haligned₂ : Aligned x₁ (plainBlock 2 3) :=
    aligned_of_started (fun epoch hepoch => of_decide_eq_true
      ((Option.all_eq_true _ _).mp hpending epoch hepoch)) (by decide +kernel)
  have hconfig : ({} : StakingConfig).validate = .ok () := by decide
  obtain ⟨hinForce, -⟩ := staking_drives_epochs hconfig
    (driven_stakingApplication joinAndSlash) ⟨_, rfl⟩ hrun
    (forall_mem_cons.mpr ⟨⟨haligned₁, by decide +kernel⟩,
      forall_mem_cons.mpr ⟨⟨haligned₂, by decide +kernel⟩, fun _ hr => (not_mem_nil hr).elim⟩⟩)
  exact ⟨by decide +kernel, by decide +kernel, hinForce _ mem_cons_self,
    hinForce _ (.tail _ mem_cons_self)⟩

/-- **A slashed validator joins the set.**  In the view after the block in which it
registered it is slashed: it is jailed and no longer formal, but the set that the context
shows does not have it yet, so it is not removed from the set that will be in force. -/
theorem slashed_validator_joins :
    let app := stakingApplication joinAndSlash
    let r := executeChain app oneMemberStart [plainBlock 1 1, plainBlock 2 2]
    r.1 = .completed ∧ Electable r.2.app ∧ r.2.app.formalValidatorList.map (·.id) = [0]
      ∧ r.2.responses.map (·.validatorUpdates.length) = [1, 0]
      ∧ (targetSet r.2).validators.map (·.id) = [0, 1] ∧ ¬InForce r.2.app (targetSet r.2) := by
  intro app r
  refine ⟨by decide +kernel, by decide +kernel, by decide +kernel, by decide +kernel,
    by decide +kernel, fun hinForce => ?_⟩
  have hjoined : ((targetSet r.2).get 1).isSome = true := by decide +kernel
  have hformal : (r.2.app.formalValidatorList.find? (·.id = 1)).isSome = false := by
    decide +kernel
  rw [hinForce 1, Option.isSome_map, hformal] at hjoined
  cases hjoined

end Hotmint.Staking
