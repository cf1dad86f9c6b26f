/-
Stake is conserved.

* `Books`, `Books.perform`: a manager with the ledger of what its calls reported;
* `Moves`, `Returns`: what each call moves, and that a call that fails leaves the manager
  as it was;
* `Books.Balanced.perform`: **every call keeps the books balanced**;
* `staking_conserved`: so does every sequence of calls.
-/
import Hotmint.Staking.Charge
import Mathlib.Data.List.Induction

namespace Hotmint.Staking

open StakingManager StakingStore List U64
variable {m : StakingManager} {v : ValidatorState}
variable {extra : List (Bytes × ℕ × ℕ)} {s : StakingStore} {paid : ℕ}

/-! ### The books -/

/-- The calls of the manager. -/
inductive Call
  | register (id : ℕ) (pubkey : PublicKey) (selfStake : ℕ)
  | unregister (id : ℕ)
  | delegate (staker : Bytes) (validator amount : ℕ)
  | undelegate (staker : Bytes) (validator amount height : ℕ)
  | slash (id : ℕ) (reason : SlashReason) (height : ℕ)
  | slashWithEvidence (id : ℕ) (evidenceId : Bytes) (reason : SlashReason) (height : ℕ)
  | reward (proposer : ℕ)
  | processUnbonding (height : ℕ)
  | unjail (id height : ℕ)
  | incrementScore (id delta : ℕ)
  | decrementScore (id delta : ℕ)
deriving DecidableEq, Repr

/-- What the calls of a run reported: the stake paid in, the stake slashed, the
undelegations (staker, validator and completion height), and the entries released, with
the height they were released at. -/
structure Ledger where
  registered : ℕ := 0
  delegated : ℕ := 0
  rewarded : ℕ := 0
  slashed : ℕ := 0
  queued : List (Bytes × ℕ × ℕ) := []
  released : List (ℕ × UnbondingEntry) := []
deriving DecidableEq, Repr

/-- All that was paid in. -/
def Ledger.deposits (l : Ledger) : ℕ := l.registered + l.delegated + l.rewarded

/-- All that was released. -/
def Ledger.releasedAmount (l : Ledger) : ℕ := (l.released.map (·.2.amount)).sum

/-- A manager and its ledger. -/
structure Books where
  manager : StakingManager
  ledger : Ledger

namespace Books

/-- New books. -/
def new (config : StakingConfig) : Books := ⟨.new config, {}⟩

/-- A call that returned, with what it adds to the ledger when it succeeded. -/
def settle {α : Type} (l : Ledger) (r : Except StakingError α × StakingManager)
    (entry : α → Ledger) : Books :=
  match r.1 with
  | .ok a => ⟨r.2, entry a⟩
  | .error _ => ⟨r.2, l⟩

/-- One call. -/
def perform (b : Books) : Call → Books
  | .register id pubkey selfStake =>
    settle b.ledger (b.manager.registerValidator id pubkey selfStake) fun _ =>
      { b.ledger with registered := b.ledger.registered + selfStake }
  | .unregister id => settle b.ledger (b.manager.unregisterValidator id) fun _ => b.ledger
  | .delegate staker validator amount =>
    settle b.ledger (b.manager.delegate staker validator amount) fun _ =>
      { b.ledger with delegated := b.ledger.delegated + amount }
  | .undelegate staker validator amount height =>
    settle b.ledger (b.manager.undelegate staker validator amount height) fun _ =>
      { b.ledger with queued := (staker, validator,
          saturatingAdd height b.manager.config.unbondingPeriod) :: b.ledger.queued }
  | .slash id reason height =>
    settle b.ledger (b.manager.slash id reason height) fun r =>
      { b.ledger with
        slashed := b.ledger.slashed + (r.result.selfSlashed + r.result.delegatedSlashed) }
  | .slashWithEvidence id evidenceId reason height =>
    settle b.ledger (b.manager.slashWithEvidence id evidenceId reason height) fun r =>
      { b.ledger with
        slashed := b.ledger.slashed + (r.result.selfSlashed + r.result.delegatedSlashed) }
  | .reward proposer =>
    settle b.ledger (b.manager.rewardProposer proposer) fun reward =>
      { b.ledger with rewarded := b.ledger.rewarded + reward }
  | .processUnbonding height =>
    let (released, manager) := b.manager.processUnbonding height
    ⟨manager, { b.ledger with
      released := b.ledger.released ++ released.map fun e => (height, e) }⟩
  | .unjail id height => settle b.ledger (b.manager.unjail id height) fun _ => b.ledger
  | .incrementScore id delta => ⟨b.manager.incrementScore id delta, b.ledger⟩
  | .decrementScore id delta => ⟨b.manager.decrementScore id delta, b.ledger⟩

/-- Some calls, in order. -/
def performAll (b : Books) (calls : List Call) : Books := calls.foldl perform b

end Books

/-- The sum of the delegations to each validator is what it records. -/
def StakingStore.Matched (s : StakingStore) : Prop :=
  ∀ id, s.stakeOf id = (s.getValidator id).elim 0 (·.delegatedStake)

/-- **The books balance.** -/
structure Books.Balanced (b : Books) : Prop where
  rates : ∀ reason, b.manager.slashRate reason ≤ 10000
  matched : b.manager.store.Matched
  total : b.manager.store.bonded + b.manager.store.pending + b.ledger.releasedAmount
    + b.ledger.slashed = b.ledger.deposits
  queued : ∀ e ∈ b.manager.store.unbondings,
    (e.staker, e.validator, e.completionHeight) ∈ b.ledger.queued
  released : ∀ p ∈ b.ledger.released, p.2.completionHeight ≤ p.1
    ∧ (p.2.staker, p.2.validator, p.2.completionHeight) ∈ b.ledger.queued

/-! ### What the calls do -/

/-- What names an undelegation. -/
def UnbondingEntry.key (e : UnbondingEntry) : Bytes × ℕ × ℕ :=
  (e.staker, e.validator, e.completionHeight)

/-- A call that took in `paid` and gave away `out`, and queued `extra`. -/
structure Moves (m m' : StakingManager) (paid out : ℕ) (extra : List (Bytes × ℕ × ℕ)) : Prop where
  config : m'.config = m.config
  matched : m'.store.Matched
  total : m'.store.bonded + m'.store.pending + out = m.store.bonded + m.store.pending + paid
  queued : ∀ e ∈ m'.store.unbondings, e.key ∈ extra ∨ ∃ e₀ ∈ m.store.unbondings, e₀.key = e.key

/-- How a call returns: **a call that fails leaves the manager as it was**. -/
inductive Returns {α : Type} (m : StakingManager) (paid out : α → ℕ)
    (extra : List (Bytes × ℕ × ℕ)) : Except StakingError α × StakingManager → Prop
  | ok {a : α} {m' : StakingManager} (h : Moves m m' (paid a) (out a) extra) :
      Returns m paid out extra (.ok a, m')
  | error {err : StakingError} : Returns m paid out extra (.error err, m)

section Validators

variable {m : StakingManager} {id : ℕ}

/-- Where the delegations to the other validators did not change, and the delegations to
this one are what it now records. -/
lemma matched_setValidator {s' : StakingStore} (h : s.Matched)
    (hvalidators : s'.validators = s.validators)
    (hothers : ∀ id', id' ≠ id → s'.stakeOf id' = s.stakeOf id')
    (hid : s'.stakeOf id = v.delegatedStake) : (s'.setValidator id v).Matched := by
  intro id'
  by_cases heq : id' = id
  · subst heq
    rw [getValidator, setValidator, AList.lookup_insert]
    exact hid
  · rw [getValidator, setValidator, AList.lookup_insert_ne heq, hvalidators]
    exact (hothers id' heq).trans (h id')

/-- What a known validator records. -/
lemma StakingStore.Matched.stakeOf_eq (h : s.Matched)
    (hv : s.getValidator id = some v) : s.stakeOf id = v.delegatedStake := by
  rw [h id, hv, Option.elim_some]

/-- A validator written over a known one. -/
lemma bonded_overwrite (v' : ValidatorState) (hv : s.getValidator id = some v) :
    (s.setValidator id v').bonded + (v.selfStake + v.delegatedStake)
      = s.bonded + (v'.selfStake + v'.delegatedStake) := by
  have h := bonded_setValidator s id v'
  rwa [hv, Option.elim_some] at h

/-- A validator written with a self-stake that is `paid` larger. -/
lemma moves_setValidator {v' : ValidatorState} (h : m.store.Matched)
    (hv : m.store.getValidator id = some v) (hself : v'.selfStake = v.selfStake + paid)
    (hdelegated : v'.delegatedStake = v.delegatedStake) :
    Moves m { m with store := m.store.setValidator id v' } paid 0 [] where
  config := rfl
  matched := matched_setValidator h rfl (fun _ _ => rfl) ((h.stakeOf_eq hv).trans hdelegated.symm)
  total := by
    have hbonded := bonded_overwrite v' hv
    have hpending : (m.store.setValidator id v').pending = m.store.pending := rfl
    dsimp only
    omega
  queued e he := .inr ⟨e, he, rfl⟩

lemma Moves.refl (h : m.store.Matched) : Moves m m 0 0 [] :=
  ⟨rfl, h, rfl, fun e he => .inr ⟨e, he, rfl⟩⟩

/-- A validator without stake can be removed. -/
lemma moves_removeValidator (h : m.store.Matched)
    (hv : m.store.getValidator id = some v) (hzero : v.totalStake = 0) :
    Moves m { m with store := m.store.removeValidator id } 0 0 [] where
  config := rfl
  matched id' := by
    by_cases heq : id' = id
    · subst heq
      have hdelegated : v.delegatedStake = 0 := by
        unfold ValidatorState.totalStake saturatingAdd at hzero
        omega
      rw [getValidator, removeValidator, AList.lookup_erase]
      exact (h.stakeOf_eq hv).trans hdelegated
    · rw [getValidator, removeValidator, AList.lookup_erase_ne heq]
      exact h id'
  total := by
    have hbonded := bonded_removeValidator m.store id
    have hpending : (m.store.removeValidator id).pending = m.store.pending := rfl
    rw [hv, Option.elim_some] at hbonded
    unfold ValidatorState.totalStake saturatingAdd at hzero
    dsimp only
    omega
  queued e he := .inr ⟨e, he, rfl⟩

/-- A delegation and the delegated stake written together. -/
lemma matched_writeStake (v' : ValidatorState) (staker : Bytes) (amount : ℕ)
    (h : m.store.Matched) (hv : m.store.getValidator id = some v)
    (hself : v'.selfStake = v.selfStake)
    (hdelegated : v'.delegatedStake + m.store.balance staker id = v.delegatedStake + amount) :
    ((writeStake m.store staker id amount).setValidator id v').Matched
      ∧ ((writeStake m.store staker id amount).setValidator id v').bonded
          + m.store.balance staker id = m.store.bonded + amount := by
  have hvalidators := validators_writeStake m.store staker id amount
  constructor
  · refine matched_setValidator h hvalidators ?_ ?_
    · intro id' hne
      have hwrite := stakeOf_writeStake m.store staker id amount id'
      rwa [if_neg hne.symm, if_neg hne.symm] at hwrite
    · have hwrite := stakeOf_writeStake m.store staker id amount id
      rw [if_pos rfl, if_pos rfl, h.stakeOf_eq hv] at hwrite
      omega
  · have hv' : (writeStake m.store staker id amount).getValidator id = some v := by
      rw [getValidator, hvalidators]
      exact hv
    have hbonded := bonded_overwrite v' hv'
    have hsame : (writeStake m.store staker id amount).bonded = m.store.bonded := by
      unfold StakingStore.bonded
      rw [hvalidators]
    omega

end Validators

/-- **A slash takes what it reports**, and from no staker, no entry and no validator more
than they have. -/
structure FairSlash (id rate : ℕ) (s s' : StakingStore) (r : Slashed) : Prop where
  self : (s'.getValidator id).elim 0 (·.selfStake) + r.result.selfSlashed
    = (s.getValidator id).elim 0 (·.selfStake)
  stakers : ∀ p ∈ r.charges, p.2 ≤ s.balance p.1 id ∧ s'.balance p.1 id + p.2 = s.balance p.1 id
  others : ∀ staker, staker ∉ r.charges.map Prod.fst → s'.balance staker id = s.balance staker id
  entries : ∀ e ∈ s.unbondings, unbondingSlash id rate e ≤ e.amount

/-- The two calls that write a score: `increment_score` and `decrement_score`. -/
def StakingManager.rescored (m : StakingManager) (id : ℕ) (score : ValidatorState → ℕ) :
    StakingManager :=
  match m.store.getValidator id with
  | none => m
  | some v => { m with store := m.store.setValidator id { v with score := score v } }

section Calls

variable {m : StakingManager} (h : m.store.Matched)

include h

lemma registerValidator_returns (id : ℕ) (pubkey : PublicKey) (selfStake : ℕ) :
    Returns m (fun _ => selfStake) (fun _ => 0) [] (m.registerValidator id pubkey selfStake) := by
  unfold registerValidator
  cases hv : m.store.getValidator id with
  | some v => exact .error
  | none =>
    rw [Option.isSome_none, if_neg Bool.false_ne_true]
    cases m.validatePublicKey pubkey with
    | error err => exact .error
    | ok u =>
      split_ifs
      · exact .error
      · refine .ok ⟨rfl, matched_setValidator h rfl (fun _ _ => rfl) ?_, ?_,
          fun e he => .inr ⟨e, he, rfl⟩⟩
        · rw [h id, hv]
          rfl
        · set v : ValidatorState := ⟨id, pubkey, selfStake, 0, _, _, _, _, _⟩
          have hbonded := bonded_setValidator m.store id v
          have hpending : (m.store.setValidator id v).pending = m.store.pending := rfl
          rw [hv] at hbonded
          dsimp only [Option.elim_none, v] at hbonded hpending ⊢
          omega

lemma unregisterValidator_returns (id : ℕ) :
    Returns m (fun _ => 0) (fun _ => 0) [] (m.unregisterValidator id) := by
  unfold unregisterValidator
  cases hv : m.store.getValidator id with
  | none => exact .error
  | some v =>
    dsimp only
    split_ifs with hzero
    · exact .error
    · exact .ok (moves_setValidator h hv rfl rfl)
    · exact .ok (moves_removeValidator h hv (Nat.eq_zero_of_not_pos hzero))

/-- What a delegation does.  Its entry never overflows: it is part of the delegated stake,
which is checked first. -/
lemma delegate_cases (staker : Bytes) (validator amount : ℕ) :
    (∃ err, m.delegate staker validator amount = (.error err, m))
      ∨ ∃ v, m.store.getValidator validator = some v ∧ v.tombstoned = false ∧ 0 < amount
        ∧ v.delegatedStake + amount < 2 ^ 64
        ∧ m.delegate staker validator amount = (.ok (), { m with
            store := (writeStake m.store staker validator
              (m.store.balance staker validator + amount)).setValidator validator
                { v with delegatedStake := v.delegatedStake + amount } }) := by
  unfold delegate
  split_ifs with hpos
  · exact .inl ⟨_, rfl⟩
  · cases hv : m.store.getValidator validator with
    | none => exact .inl ⟨_, rfl⟩
    | some v =>
      dsimp only
      split_ifs with htombstoned
      · exact .inl ⟨_, rfl⟩
      · by_cases hfits : v.delegatedStake + amount < 2 ^ 64
        · have hle := balance_le_stakeOf m.store staker validator
          rw [h.stakeOf_eq hv] at hle
          have hentry : (m.store.getStake staker validator).getD ⟨0⟩
              = ⟨m.store.balance staker validator⟩ := by
            unfold StakingStore.balance
            cases m.store.getStake staker validator <;> rfl
          have hfits' : m.store.balance staker validator + amount < 2 ^ 64 := by omega
          rw [checkedAdd, if_pos hfits]
          set v' : ValidatorState := { v with delegatedStake := v.delegatedStake + amount }
          have hsame : (m.store.setValidator validator v').getStake staker validator
              = m.store.getStake staker validator := rfl
          dsimp only
          rw [hsame, hentry, checkedAdd, if_pos hfits', writeStake, if_neg (by omega)]
          exact .inr ⟨v, rfl, Bool.eq_false_of_not_eq_true htombstoned,
            Nat.pos_of_ne_zero hpos, hfits, rfl⟩
        · rw [checkedAdd, if_neg hfits]
          exact .inl ⟨_, rfl⟩

lemma delegate_returns (staker : Bytes) (validator amount : ℕ) :
    Returns m (fun _ => amount) (fun _ => 0) [] (m.delegate staker validator amount) := by
  rcases delegate_cases h staker validator amount with ⟨err, heq⟩ | ⟨v, hv, -, -, -, heq⟩
  · rw [heq]
    exact .error
  · rw [heq]
    set v' : ValidatorState := { v with delegatedStake := v.delegatedStake + amount }
    obtain ⟨hmatched, hbonded⟩ := matched_writeStake v' staker
      (m.store.balance staker validator + amount) h hv rfl (by dsimp only [v']; omega)
    refine .ok ⟨rfl, hmatched, ?_, fun e he => .inr ⟨e, ?_, rfl⟩⟩
    · have hpending : ((writeStake m.store staker validator
          (m.store.balance staker validator + amount)).setValidator validator v').pending
            = m.store.pending :=
        congrArg (fun entries => (entries.map (·.amount)).sum) (unbondings_writeStake _ _ _ _)
      dsimp only
      omega
    · exact (unbondings_writeStake m.store _ _ _) ▸ he

/-- What an undelegation does. -/
lemma undelegate_cases (staker : Bytes) (validator amount height : ℕ) :
    (∃ err, m.undelegate staker validator amount height = (.error err, m))
      ∨ ∃ v, m.store.getValidator validator = some v ∧ 0 < amount
        ∧ amount ≤ m.store.balance staker validator
        ∧ m.store.balance staker validator ≤ v.delegatedStake
        ∧ m.undelegate staker validator amount height = (.ok (), { m with
            store := ((writeStake m.store staker validator
              (m.store.balance staker validator - amount)).setValidator validator
                { v with delegatedStake := v.delegatedStake - amount }).pushUnbonding
                  ⟨staker, validator, amount,
                    saturatingAdd height m.config.unbondingPeriod⟩ }) := by
  unfold undelegate
  split_ifs with hpos
  · exact .inl ⟨_, rfl⟩
  · cases hv : m.store.getValidator validator with
    | none => exact .inl ⟨_, rfl⟩
    | some v =>
      cases hentry : m.store.getStake staker validator with
      | none => exact .inl ⟨_, rfl⟩
      | some entry =>
        dsimp only
        split_ifs with hshort
        · exact .inl ⟨_, rfl⟩
        · have hbalance : m.store.balance staker validator = entry.amount := by
            rw [StakingStore.balance, hentry]
            rfl
          have hle := balance_le_stakeOf m.store staker validator
          rw [h.stakeOf_eq hv, hbalance] at hle
          rw [hbalance]
          exact .inr ⟨v, rfl, Nat.pos_of_ne_zero hpos, Nat.le_of_not_lt hshort, hle, rfl⟩

lemma undelegate_returns (staker : Bytes) (validator amount height : ℕ) :
    Returns m (fun _ => 0) (fun _ => 0)
      [(staker, validator, saturatingAdd height m.config.unbondingPeriod)]
      (m.undelegate staker validator amount height) := by
  rcases undelegate_cases h staker validator amount height with
    ⟨err, heq⟩ | ⟨v, hv, -, hle, hle', heq⟩
  · rw [heq]
    exact .error
  · rw [heq]
    set v' : ValidatorState := { v with delegatedStake := v.delegatedStake - amount }
    obtain ⟨hmatched, hbonded⟩ := matched_writeStake v' staker
      (m.store.balance staker validator - amount) h hv rfl (by dsimp only [v']; omega)
    refine .ok ⟨rfl, hmatched, ?_, ?_⟩
    · have hpending : (((writeStake m.store staker validator
          (m.store.balance staker validator - amount)).setValidator validator v').pushUnbonding
            ⟨staker, validator, amount, saturatingAdd height m.config.unbondingPeriod⟩).pending
          = m.store.pending + amount := by
        simp [StakingStore.pending, pushUnbonding, setValidator]
      have hsame : ∀ (s : StakingStore) e, (s.pushUnbonding e).bonded = s.bonded :=
        fun _ _ => rfl
      rw [hpending, hsame]
      omega
    · intro e he
      rcases mem_append.mp he with he | he
      · exact .inr ⟨e, (unbondings_writeStake m.store _ _ _) ▸ he, rfl⟩
      · obtain rfl := mem_singleton.mp he
        exact .inl (mem_singleton.mpr rfl)

lemma rewardProposer_returns (proposer : ℕ) :
    Returns m (fun reward => reward) (fun _ => 0) [] (m.rewardProposer proposer) := by
  unfold rewardProposer
  split_ifs
  · exact .ok (.refl h)
  · cases hv : m.store.getValidator proposer with
    | none => exact .error
    | some v =>
      dsimp only
      split_ifs
      · exact .error
      · by_cases hfits : v.selfStake + m.config.blockReward < 2 ^ 64
        · rw [checkedAdd, if_pos hfits]
          exact .ok (moves_setValidator h hv rfl rfl)
        · rw [checkedAdd, if_neg hfits]
          exact .error

lemma unjail_returns (id height : ℕ) :
    Returns m (fun _ => 0) (fun _ => 0) [] (m.unjail id height) := by
  unfold unjail
  cases hv : m.store.getValidator id with
  | none => exact .error
  | some v =>
    dsimp only
    split_ifs
    · exact .error
    · exact .error
    · exact .error
    · exact .ok (moves_setValidator h hv rfl rfl)

lemma rescored_moves (id : ℕ) (score : ValidatorState → ℕ) :
    Moves m (m.rescored id score) 0 0 [] := by
  unfold rescored
  cases hv : m.store.getValidator id with
  | none => exact .refl h
  | some v => exact moves_setValidator h hv rfl rfl

lemma slashWithEvidence_returns (hrates : ∀ reason, m.slashRate reason ≤ 10000)
    (hfits : m.store.bonded + m.store.pending < 2 ^ 64) (id : ℕ) (evidenceId : Bytes)
    (reason : SlashReason) (height : ℕ) :
    Returns m (fun _ => 0) (fun r => r.result.selfSlashed + r.result.delegatedSlashed) []
      (m.slashWithEvidence id evidenceId reason height)
    ∧ ∀ r m', m.slashWithEvidence id evidenceId reason height = (.ok r, m') →
      FairSlash id (m.slashRate reason) m.store m'.store r := by
  unfold slashWithEvidence
  split_ifs
  · exact ⟨.error, fun _ _ hr => by cases hr⟩
  cases hv : m.store.getValidator id with
  | none => exact ⟨.error, fun _ _ hr => by cases hr⟩
  | some v =>
    dsimp only
    split_ifs
    · exact ⟨.error, fun _ _ hr => by cases hr⟩
    have hstake := stake_le_bonded hv
    obtain ⟨-, hself⟩ := mulDiv_eq v.selfStake (hrates reason) (by omega)
    obtain ⟨-, hdel⟩ := mulDiv_eq v.delegatedStake (hrates reason) (by omega)
    have hstakeOf := h.stakeOf_eq hv
    set selfSlash := mulDiv v.selfStake (m.slashRate reason) 10000
    set delSlash := mulDiv v.delegatedStake (m.slashRate reason) 10000
    obtain ⟨hcharged, hsum⟩ := slashDelegations_spec id (s := m.store) (hstakeOf ▸ hdel) (by omega)
    set r := slashDelegations id delSlash m.store
    set v' : ValidatorState := ⟨v.id, v.publicKey, saturatingSub v.selfStake selfSlash,
      saturatingSub v.delegatedStake delSlash, _, _, _, _, _⟩
    rw [show (r.2.setValidator id v').unbondings = m.store.unbondings from hcharged.unbondings]
    have hentries := unbondingSlash_le id (hrates reason) (show m.store.pending < 2 ^ 64 by omega)
    have hpending := slashUnbondings_spec id (hrates reason)
      (show m.store.pending < 2 ^ 64 by omega)
    change _ = m.store.pending at hpending
    set u := slashUnbondings id (m.slashRate reason) m.store.unbondings
    have hv' : r.2.getValidator id = some v := by
      rw [getValidator, hcharged.validators]
      exact hv
    have hbonded := bonded_overwrite v' hv'
    have hsame : r.2.bonded = m.store.bonded := by
      unfold StakingStore.bonded
      rw [hcharged.validators]
    have htotal := hcharged.total
    have hself' : v'.selfStake = v.selfStake - selfSlash := rfl
    have hdel' : v'.delegatedStake = v.delegatedStake - delSlash := rfl
    constructor
    · refine .ok ⟨rfl, ?_, ?_, ?_⟩
      · exact matched_setValidator h hcharged.validators hcharged.others (by omega)
      · have hout : saturatingAdd delSlash u.2 = delSlash + u.2 := by
          unfold saturatingAdd
          omega
        change (r.2.setValidator id v').bonded + (u.1.map (·.amount)).sum
          + (selfSlash + saturatingAdd delSlash u.2) = _
        omega
      · intro e he
        obtain ⟨e₀, he₀, rfl⟩ := mem_map.mp (mem_of_mem_filter he)
        exact .inr ⟨e₀, he₀, rfl⟩
    · intro r' m' heq
      obtain ⟨hok, rfl⟩ := Prod.mk.inj heq
      obtain rfl := Except.ok.inj hok
      refine ⟨?_, fun p hp => ?_, fun staker hnot => ?_, hentries⟩
      · rw [hv]
        change (AList.lookup id (r.2.validators.insert id v')).elim 0 _ + selfSlash = v.selfStake
        rw [AList.lookup_insert, Option.elim_some]
        omega
      · have heach := hcharged.each p hp
        exact ⟨by omega, heach⟩
      · exact balance_congr (hcharged.rest staker hnot)

end Calls

/-! ### Releasing -/

/-- A call that moves nothing in or out, after another. -/
lemma Moves.trans {m' m'' : StakingManager} {out : ℕ}
    (h : Moves m m' paid out extra) (h' : Moves m' m'' 0 0 []) : Moves m m'' paid out extra where
  config := h'.config.trans h.config
  matched := h'.matched
  total := by
    have htotal := h.total
    have htotal' := h'.total
    omega
  queued e he := by
    rcases h'.queued e he with hnew | ⟨e₁, he₁, hkey⟩
    · exact (not_mem_nil hnew).elim
    · rcases h.queued e₁ he₁ with hextra | ⟨e₀, he₀, hkey₀⟩
      · exact .inl (hkey ▸ hextra)
      · exact .inr ⟨e₀, he₀, hkey₀.trans hkey⟩

/-- The validators that are pruned have no stake. -/
lemma pruneTombstonedValidators_moves (h : m.store.Matched) :
    Moves m m.pruneTombstonedValidators 0 0 [] := by
  unfold pruneTombstonedValidators
  dsimp only
  generalize m.store.allValidatorIds = ids
  -- by induction on the ids still to look at, for any manager
  induction ids generalizing m with
  | nil => exact .refl h
  | cons id ids ih =>
    rw [foldl_cons]
    cases hv : m.store.getValidator id with
    | none => exact ih h
    | some v =>
      dsimp only
      split_ifs with hprune
      · rw [Bool.and_eq_true, Bool.and_eq_true] at hprune
        have hmoves := moves_removeValidator h hv (of_decide_eq_true hprune.1.2)
        exact hmoves.trans (ih (m := { m with store := m.store.removeValidator id }) hmoves.matched)
      · exact ih h

/-- **What is released** has completed, and leaves the queue. -/
lemma processUnbonding_moves (h : m.store.Matched) (height : ℕ) :
    let r := m.processUnbonding height
    Moves m r.2 0 (r.1.map (·.amount)).sum []
      ∧ ∀ e ∈ r.1, e.completionHeight ≤ height ∧ e ∈ m.store.unbondings := by
  unfold processUnbonding drainMatureUnbondings
  rw [partition_eq_filter_filter]
  dsimp only
  constructor
  · let drained : StakingStore := { m.store with
      unbondings := m.store.unbondings.filter
        (not ∘ fun e => decide (e.completionHeight ≤ height)) }
    refine Moves.trans (?_ : Moves m ⟨drained, m.config⟩ 0 _ []) (pruneTombstonedValidators_moves h)
    refine ⟨rfl, h, ?_, ?_⟩
    · have hsplit := ((filter_append_perm (fun e : UnbondingEntry =>
        decide (e.completionHeight ≤ height)) m.store.unbondings).map (·.amount)).sum_eq
      rw [map_append, sum_append] at hsplit
      change m.store.bonded + (map _ (filter _ m.store.unbondings)).sum + _
        = m.store.bonded + (m.store.unbondings.map (·.amount)).sum + 0
      have hnot : (not ∘ fun e : UnbondingEntry => decide (e.completionHeight ≤ height))
          = fun e => !decide (e.completionHeight ≤ height) := rfl
      rw [hnot]
      omega
    · intro e he
      exact .inr ⟨e, mem_of_mem_filter he, rfl⟩
  · intro e he
    exact ⟨of_decide_eq_true (mem_filter.mp he).2, mem_of_mem_filter he⟩

/-! ### Every call, every run -/

/-- A call whose moves are entered in the ledger. -/
lemma Books.Balanced.moves {b : Books} (h : b.Balanced) {m' : StakingManager} {l' : Ledger}
    {out : ℕ} (hmoves : Moves b.manager m' paid out extra)
    (hdeposits : l'.deposits = b.ledger.deposits + paid)
    (hout : l'.slashed + l'.releasedAmount = b.ledger.slashed + b.ledger.releasedAmount + out)
    (hqueued : l'.queued = extra ++ b.ledger.queued)
    (hreleased : ∀ p ∈ l'.released, p ∈ b.ledger.released
      ∨ (p.2.completionHeight ≤ p.1 ∧ p.2 ∈ b.manager.store.unbondings)) : Balanced ⟨m', l'⟩ := by
  refine ⟨fun reason => ?_, hmoves.matched, ?_, fun e he => ?_, fun p hp => ?_⟩
  · have hrate := h.rates reason
    cases reason <;> · unfold slashRate at hrate ⊢; rwa [← hmoves.config] at hrate
  · have htotal := h.total
    have hmoved := hmoves.total
    dsimp only
    omega
  · change e.key ∈ l'.queued
    rw [hqueued, mem_append]
    refine (hmoves.queued e he).imp_right fun ⟨e₀, he₀, hkey⟩ => ?_
    rw [← hkey]
    exact h.queued e₀ he₀
  · rw [hqueued, mem_append]
    rcases hreleased p hp with hold | ⟨hdone, hmem⟩
    · exact (h.released p hold).imp_right .inr
    · exact ⟨hdone, .inr (h.queued p.2 hmem)⟩

/-- A call that failed paid nothing in. -/
lemma Books.Balanced.returns {α : Type} {b : Books} (h : b.Balanced) {paid out : α → ℕ}
    {entry : α → Ledger}
    {r : Except StakingError α × StakingManager} (hr : Returns b.manager paid out extra r)
    (hentry : ∀ a, (entry a).deposits = b.ledger.deposits + paid a
      ∧ (entry a).slashed = b.ledger.slashed + out a
      ∧ (entry a).queued = extra ++ b.ledger.queued
      ∧ (entry a).released = b.ledger.released) : (Books.settle b.ledger r entry).Balanced := by
  cases hr with
  | error => exact h
  | @ok a m' hmoves =>
    obtain ⟨hdeposits, hslashed, hqueued, hreleased⟩ := hentry a
    refine h.moves hmoves hdeposits ?_ hqueued fun p hp => .inl (hreleased ▸ hp)
    rw [hslashed, Ledger.releasedAmount, hreleased, ← Ledger.releasedAmount]
    omega

/-- **Every call keeps the books balanced.** -/
lemma Books.Balanced.perform {b : Books} (h : b.Balanced) (hfits : b.ledger.deposits < 2 ^ 64)
    (call : Call) : (b.perform call).Balanced := by
  have htotal := h.total
  cases call with
  | register id pubkey selfStake =>
    exact h.returns (registerValidator_returns h.matched id pubkey selfStake)
      fun _ => ⟨by simp only [Ledger.deposits]; omega, rfl, rfl, rfl⟩
  | unregister id =>
    exact h.returns (unregisterValidator_returns h.matched id) fun _ => ⟨rfl, rfl, rfl, rfl⟩
  | delegate staker validator amount =>
    exact h.returns (delegate_returns h.matched staker validator amount)
      fun _ => ⟨by simp only [Ledger.deposits]; omega, rfl, rfl, rfl⟩
  | undelegate staker validator amount height =>
    exact h.returns (undelegate_returns h.matched staker validator amount height)
      fun _ => ⟨rfl, rfl, rfl, rfl⟩
  | slash id reason height =>
    exact h.returns (slashWithEvidence_returns h.matched h.rates (by omega) id
      (defaultEvidenceId reason) reason height).1 fun _ => ⟨rfl, rfl, rfl, rfl⟩
  | slashWithEvidence id evidenceId reason height =>
    exact h.returns (slashWithEvidence_returns h.matched h.rates (by omega) id evidenceId reason
      height).1 fun _ => ⟨rfl, rfl, rfl, rfl⟩
  | reward proposer =>
    exact h.returns (rewardProposer_returns h.matched proposer)
      fun _ => ⟨by simp only [Ledger.deposits]; omega, rfl, rfl, rfl⟩
  | processUnbonding height =>
    obtain ⟨hmoves, hreleased⟩ := processUnbonding_moves h.matched height
    have hperform : b.perform (.processUnbonding height)
        = ⟨(b.manager.processUnbonding height).2, { b.ledger with
            released := b.ledger.released
              ++ (b.manager.processUnbonding height).1.map fun e => (height, e) }⟩ := rfl
    rw [hperform]
    refine h.moves hmoves rfl ?_ rfl fun p hp => ?_
    · simp only [Ledger.releasedAmount, map_append, sum_append, map_map, Function.comp_def]
      omega
    · refine (mem_append.mp hp).imp_right fun hnew => ?_
      obtain ⟨e, he, rfl⟩ := mem_map.mp hnew
      exact hreleased e he
  | unjail id height =>
    exact h.returns (unjail_returns h.matched id height) fun _ => ⟨rfl, rfl, rfl, rfl⟩
  | incrementScore id _
  | decrementScore id _ => exact h.moves (rescored_moves h.matched id _) rfl rfl rfl fun _ => .inl

/-- The rates of a valid configuration. -/
lemma slashRate_le (h : m.config.validate = .ok ()) (reason : SlashReason) :
    m.slashRate reason ≤ 10000 := by
  unfold StakingConfig.validate at h
  split_ifs at h with hmax hdouble hdowntime
  cases reason
  · exact Nat.le_of_not_lt hdouble
  · exact Nat.le_of_not_lt hdowntime

/-- New books balance. -/
lemma Books.balanced_new {config : StakingConfig} (h : config.validate = .ok ()) :
    (Books.new config).Balanced :=
  ⟨slashRate_le (m := .new config) h, fun _ => rfl, rfl, fun _ he => (not_mem_nil he).elim,
    fun _ hp => (not_mem_nil hp).elim⟩

lemma Books.deposits_settle {α : Type} {l : Ledger} {entry : α → Ledger}
    (r : Except StakingError α × StakingManager) (h : ∀ a, l.deposits ≤ (entry a).deposits) :
    l.deposits ≤ (Books.settle l r entry).ledger.deposits := by
  obtain ⟨a | a, m'⟩ := r
  · exact le_rfl
  · exact h a

/-- No call takes back what was paid in. -/
lemma Books.deposits_perform (b : Books) (call : Call) :
    b.ledger.deposits ≤ (b.perform call).ledger.deposits := by
  cases call with
  | processUnbonding height | incrementScore id delta | decrementScore id delta => exact le_rfl
  | _ => exact deposits_settle _ fun _ => by simp only [Ledger.deposits]; omega

/-- **Every sequence of calls keeps the books balanced.** -/
lemma Books.Balanced.performAll {b : Books} (h : b.Balanced) {calls : List Call}
    (hfits : (b.performAll calls).ledger.deposits < 2 ^ 64) : (b.performAll calls).Balanced := by
  -- the last call first: what is paid in at the end bounds what was paid in before
  induction calls using reverseRecOn with
  | nil => exact h
  | append_singleton calls call ih =>
    have hlast : b.performAll (calls ++ [call]) = (b.performAll calls).perform call := by
      unfold Books.performAll
      rw [foldl_append, foldl_cons, foldl_nil]
    rw [hlast] at hfits ⊢
    have hfits' := (deposits_perform (b.performAll calls) call).trans_lt hfits
    exact (ih hfits').perform hfits' call

/-- **Staking conserves tokens.**  With a valid configuration, after every sequence of
calls that pays in less than `2^64`: what is bonded, unbonding, released and slashed is
what was registered, delegated and rewarded; a slash then takes from nobody more than
they have; and what was released had reached the completion height that its undelegation
was given. -/
theorem staking_conserved {config : StakingConfig} (hconfig : config.validate = .ok ())
    (calls : List Call) (hfits : ((Books.new config).performAll calls).ledger.deposits < 2 ^ 64) :
    let b := (Books.new config).performAll calls
    b.manager.store.bonded + b.manager.store.pending + b.ledger.releasedAmount + b.ledger.slashed
        = b.ledger.registered + b.ledger.delegated + b.ledger.rewarded
      ∧ (∀ id evidenceId reason height r m',
        b.manager.slashWithEvidence id evidenceId reason height = (.ok r, m') →
          FairSlash id (b.manager.slashRate reason) b.manager.store m'.store r)
      ∧ ∀ p ∈ b.ledger.released, p.2.completionHeight ≤ p.1
        ∧ (p.2.staker, p.2.validator, p.2.completionHeight) ∈ b.ledger.queued := by
  have hbalanced := (Books.balanced_new hconfig).performAll hfits
  have htotal := hbalanced.total
  refine ⟨htotal, fun id evidenceId reason height r m' heq => ?_, hbalanced.released⟩
  exact (slashWithEvidence_returns hbalanced.matched hbalanced.rates (by omega) id evidenceId
    reason height).2 r m' heq

/-- A run in which stake is registered, delegated, unbonded, slashed, rewarded and
released. -/
theorem staking_conserved_run :
    let calls : List Call := [.register 1 ⟨replicate 32 1⟩ 1001, .delegate [1] 1 333,
      .delegate [2] 1 167, .undelegate [1] 1 100 5, .slash 1 .doubleSign 6, .reward 1,
      .processUnbonding 1004, .processUnbonding 1005]
    let b := (Books.new {}).performAll calls
    (b.manager.store.bonded, b.manager.store.pending, b.ledger.releasedAmount, b.ledger.slashed)
        = (1431, 0, 95, 75)
      ∧ b.manager.store.bonded + b.manager.store.pending + b.ledger.releasedAmount
        + b.ledger.slashed = b.ledger.registered + b.ledger.delegated + b.ledger.rewarded := by
  intro calls b
  refine ⟨by decide +kernel, ?_⟩
  have hconfig : ({} : StakingConfig).validate = .ok () := by decide
  exact (staking_conserved hconfig calls (by decide +kernel)).1

end Hotmint.Staking
