/-
`hotmint-staking`: validators, delegations, slashing and unbonding.

* `StakingConfig`, `ValidatorState`, `UnbondingEntry`, …: `types.rs`;
* `StakingStore`: `store.rs`, the in-memory store.  Its hash maps are association lists
  without repeated keys, whose order stands for the iteration order of the maps;
* `StakingManager` and its operations: `manager.rs`.  An operation returns the manager
  as it leaves it, also when it fails;
* `StakingManager.computeValidatorUpdates`: the updates that lead from a validator set to
  the one the stakes ask for.

Stakes and heights are `u64` in the source: `U64` has the checked, saturating and
wrapping operations.
-/
import Hotmint.Types.ValidatorSet
import Mathlib.Algebra.Ring.Nat
import Mathlib.Data.List.AList
import Mathlib.Data.List.Sort

namespace Hotmint.Staking

/-! ### Machine arithmetic -/

namespace U64

/-- `checked_add`. -/
def checkedAdd (a b : ℕ) : Option ℕ := if a + b < 2 ^ 64 then some (a + b) else none

/-- `saturating_add`. -/
def saturatingAdd (a b : ℕ) : ℕ := min (a + b) (2 ^ 64 - 1)

/-- `saturating_sub`. -/
def saturatingSub (a b : ℕ) : ℕ := a - b

/-- `+`, without overflow checks. -/
def wrappingAdd (a b : ℕ) : ℕ := (a + b) % 2 ^ 64

/-- `-`, without overflow checks. -/
def wrappingSub (a b : ℕ) : ℕ := (a + (2 ^ 64 - b)) % 2 ^ 64

/-- `(a as u128 * b as u128 / c as u128) as u64`. -/
def mulDiv (a b c : ℕ) : ℕ := a * b / c % 2 ^ 64

end U64

/-! ### `types.rs` -/

/-- `SlashReason`. -/
inductive SlashReason
  | doubleSign
  | downtime
deriving DecidableEq, Repr

/-- `AppliedSlash`. -/
structure AppliedSlash where
  evidenceId : Bytes
  reason : SlashReason
deriving DecidableEq, Repr

/-- `ValidatorState`. -/
structure ValidatorState where
  id : ℕ
  publicKey : PublicKey
  selfStake : ℕ
  delegatedStake : ℕ
  score : ℕ
  jailed : Bool
  jailUntilHeight : ℕ
  tombstoned : Bool
  appliedSlashes : List AppliedSlash
deriving DecidableEq, Repr

/-- `total_stake`. -/
def ValidatorState.totalStake (v : ValidatorState) : ℕ :=
  U64.saturatingAdd v.selfStake v.delegatedStake

/-- `voting_power`. -/
def ValidatorState.votingPower (v : ValidatorState) : ℕ :=
  if v.jailed || v.tombstoned then 0 else v.totalStake

/-- `StakeEntry`. -/
structure StakeEntry where
  amount : ℕ
deriving DecidableEq, Repr

/-- `SlashResult`. -/
structure SlashResult where
  selfSlashed : ℕ
  delegatedSlashed : ℕ
  jailed : Bool
deriving DecidableEq, Repr

/-- `UnbondingEntry`. -/
structure UnbondingEntry where
  staker : Bytes
  validator : ℕ
  amount : ℕ
  completionHeight : ℕ
deriving DecidableEq, Repr

/-- `StakingConfig`. -/
structure StakingConfig where
  maxValidators : ℕ := 100
  minSelfStake : ℕ := 1000
  slashRateDoubleSign : ℕ := 500
  slashRateDowntime : ℕ := 100
  jailDuration : ℕ := 1000
  initialScore : ℕ := 10000
  maxScore : ℕ := 10000
  blockReward : ℕ := 100
  unbondingPeriod : ℕ := 1000
deriving DecidableEq, Repr

/-- The errors of `StakingConfig::validate`. -/
inductive ConfigError
  /-- `max_validators must be > 0`. -/
  | maxValidators
  /-- `slash_rate_double_sign must be <= 10000 (basis points)`. -/
  | slashRateDoubleSign
  /-- `slash_rate_downtime must be <= 10000 (basis points)`. -/
  | slashRateDowntime
  /-- `initial_score must be <= max_score`. -/
  | initialScore
deriving DecidableEq, Repr

/-- `StakingConfig::validate`. -/
def StakingConfig.validate (c : StakingConfig) : Except ConfigError Unit :=
  if c.maxValidators = 0 then .error .maxValidators
  else if 10000 < c.slashRateDoubleSign then .error .slashRateDoubleSign
  else if 10000 < c.slashRateDowntime then .error .slashRateDowntime
  else if c.maxScore < c.initialScore then .error .initialScore
  else .ok ()

/-- The errors of the operations, with the values their messages show. -/
inductive StakingError
  | alreadyRegistered (id : ℕ)
  | keyLength (got : ℕ)
  | duplicateKey
  | belowMinimum (selfStake minimum : ℕ)
  | notFound (id : ℕ)
  | stakeRemains (id total : ℕ)
  | zeroDelegation
  | tombstonedValidator (id : ℕ)
  | delegatedOverflow (id : ℕ)
  | entryOverflow
  | zeroUndelegation
  | noStake (id : ℕ)
  | insufficient (have_ requested : ℕ)
  | emptyEvidenceId
  | alreadySlashed (id bytes : ℕ)
  | notJailed (id : ℕ)
  | stillJailed (id untilHeight current : ℕ)
  | rewardOverflow
deriving DecidableEq, Repr

/-! ### `store.rs` -/

/-- `InMemoryStakingStore`. -/
structure StakingStore where
  validators : AList fun _ : ℕ => ValidatorState
  stakes : AList fun _ : Bytes × ℕ => StakeEntry
  unbondings : List UnbondingEntry

namespace StakingStore

/-- `InMemoryStakingStore::new`. -/
def new : StakingStore := ⟨∅, ∅, []⟩

def getValidator (s : StakingStore) (id : ℕ) : Option ValidatorState := s.validators.lookup id

def setValidator (s : StakingStore) (id : ℕ) (v : ValidatorState) : StakingStore :=
  { s with validators := s.validators.insert id v }

def removeValidator (s : StakingStore) (id : ℕ) : StakingStore :=
  { s with validators := s.validators.erase id }

def allValidatorIds (s : StakingStore) : List ℕ := s.validators.keys

def getStake (s : StakingStore) (staker : Bytes) (validator : ℕ) : Option StakeEntry :=
  s.stakes.lookup (staker, validator)

def setStake (s : StakingStore) (staker : Bytes) (validator : ℕ) (entry : StakeEntry) :
    StakingStore :=
  { s with stakes := s.stakes.insert (staker, validator) entry }

def removeStake (s : StakingStore) (staker : Bytes) (validator : ℕ) : StakingStore :=
  { s with stakes := s.stakes.erase (staker, validator) }

/-- `stakers_of`: all delegations to a validator, in the order of the map. -/
def stakersOf (s : StakingStore) (validator : ℕ) : List (Bytes × StakeEntry) :=
  (s.stakes.entries.filter fun e => e.1.2 = validator).map fun e => (e.1.1, e.2)

def pushUnbonding (s : StakingStore) (entry : UnbondingEntry) : StakingStore :=
  { s with unbondings := s.unbondings ++ [entry] }

/-- `drain_mature_unbondings`. -/
def drainMatureUnbondings (s : StakingStore) (currentHeight : ℕ) :
    List UnbondingEntry × StakingStore :=
  let (mature, pending) := s.unbondings.partition fun e => e.completionHeight ≤ currentHeight
  (mature, { s with unbondings := pending })

def replaceUnbondings (s : StakingStore) (entries : List UnbondingEntry) : StakingStore :=
  { s with unbondings := entries }

end StakingStore

/-! ### `manager.rs` -/

/-- `StakingManager`. -/
structure StakingManager where
  store : StakingStore
  config : StakingConfig

namespace StakingManager

/-- `StakingManager::new` on a new store. -/
def new (config : StakingConfig) : StakingManager := ⟨.new, config⟩

/-- `validate_public_key`. -/
def validatePublicKey (m : StakingManager) (pubkey : PublicKey) : Except StakingError Unit :=
  if pubkey.bytes.length ≠ 32 then .error (.keyLength pubkey.bytes.length)
  else if (m.store.allValidatorIds.filterMap m.store.getValidator).any (·.publicKey = pubkey) then
    .error .duplicateKey
  else .ok ()

/-- `has_pending_unbondings`. -/
def hasPendingUnbondings (m : StakingManager) (id : ℕ) : Bool :=
  m.store.unbondings.any fun e => e.validator = id && 0 < e.amount

/-- `register_validator`. -/
def registerValidator (m : StakingManager) (id : ℕ) (pubkey : PublicKey) (selfStake : ℕ) :
    Except StakingError Unit × StakingManager :=
  if (m.store.getValidator id).isSome then (.error (.alreadyRegistered id), m)
  else
    match m.validatePublicKey pubkey with
    | .error err => (.error err, m)
    | .ok () =>
      if selfStake < m.config.minSelfStake then
        (.error (.belowMinimum selfStake m.config.minSelfStake), m)
      else
        let state : ValidatorState :=
          { id
            publicKey := pubkey
            selfStake
            delegatedStake := 0
            score := m.config.initialScore
            jailed := false
            jailUntilHeight := 0
            tombstoned := false
            appliedSlashes := [] }
        (.ok (), { m with store := m.store.setValidator id state })

/-- `unregister_validator`. -/
def unregisterValidator (m : StakingManager) (id : ℕ) : Except StakingError ℕ × StakingManager :=
  match m.store.getValidator id with
  | none => (.error (.notFound id), m)
  | some state =>
    if 0 < state.totalStake then (.error (.stakeRemains id state.totalStake), m)
    else if m.hasPendingUnbondings id then
      (.ok 0, { m with store := m.store.setValidator id { state with tombstoned := true } })
    else (.ok 0, { m with store := m.store.removeValidator id })

/-- `delegate`.  The validator is written before the entry is checked. -/
def delegate (m : StakingManager) (staker : Bytes) (validator amount : ℕ) :
    Except StakingError Unit × StakingManager :=
  if amount = 0 then (.error .zeroDelegation, m)
  else
    match m.store.getValidator validator with
    | none => (.error (.notFound validator), m)
    | some vs =>
      if vs.tombstoned then (.error (.tombstonedValidator validator), m)
      else
        match U64.checkedAdd vs.delegatedStake amount with
        | none => (.error (.delegatedOverflow validator), m)
        | some delegatedStake =>
          let store := m.store.setValidator validator { vs with delegatedStake }
          let entry := (store.getStake staker validator).getD ⟨0⟩
          match U64.checkedAdd entry.amount amount with
          | none => (.error .entryOverflow, { m with store })
          | some amount =>
            (.ok (), { m with store := store.setStake staker validator ⟨amount⟩ })

/-- A stake entry after it was reduced: empty entries are removed. -/
def writeStake (store : StakingStore) (staker : Bytes) (validator amount : ℕ) : StakingStore :=
  if amount = 0 then store.removeStake staker validator
  else store.setStake staker validator ⟨amount⟩

/-- `undelegate`. -/
def undelegate (m : StakingManager) (staker : Bytes) (validator amount currentHeight : ℕ) :
    Except StakingError Unit × StakingManager :=
  if amount = 0 then (.error .zeroUndelegation, m)
  else
    match m.store.getValidator validator with
    | none => (.error (.notFound validator), m)
    | some vs =>
      match m.store.getStake staker validator with
      | none => (.error (.noStake validator), m)
      | some entry =>
        if entry.amount < amount then (.error (.insufficient entry.amount amount), m)
        else
          let store := writeStake m.store staker validator (entry.amount - amount)
          let store := store.setValidator validator
            { vs with delegatedStake := U64.saturatingSub vs.delegatedStake amount }
          let completionHeight := U64.saturatingAdd currentHeight m.config.unbondingPeriod
          (.ok (), { m with
            store := store.pushUnbonding ⟨staker, validator, amount, completionHeight⟩ })

/-- `prune_tombstoned_validators`. -/
def pruneTombstonedValidators (m : StakingManager) : StakingManager :=
  let pending := (m.store.unbondings.filter fun e => 0 < e.amount).map (·.validator)
  { m with store := m.store.allValidatorIds.foldl (fun store id =>
      match store.getValidator id with
      | none => store
      | some state =>
        if state.tombstoned && state.totalStake = 0 && !pending.contains id then
          store.removeValidator id
        else store) m.store }

/-- `process_unbonding`. -/
def processUnbonding (m : StakingManager) (currentHeight : ℕ) :
    List UnbondingEntry × StakingManager :=
  let (mature, store) := m.store.drainMatureUnbondings currentHeight
  (mature, { m with store }.pruneTombstonedValidators)

/-- `slash_rate`. -/
def slashRate (m : StakingManager) : SlashReason → ℕ
  | .doubleSign => m.config.slashRateDoubleSign
  | .downtime => m.config.slashRateDowntime

/-- `default_evidence_id`. -/
def defaultEvidenceId : SlashReason → Bytes
  | .doubleSign => "reason:double-sign".toUTF8.toList
  | .downtime => "reason:downtime".toUTF8.toList

/-- The loop over the stakers of a slashed validator, with the loop variables
`slashed_so_far` and `cumulative_stake`; it also lists what each staker is charged. -/
def chargeStakers (id delSlash totalDel : ℕ) :
    List (Bytes × StakeEntry) → ℕ → ℕ → StakingStore → List (Bytes × ℕ) × StakingStore
  | [], _, _, store => ([], store)
  | (addr, entry) :: stakers, slashedSoFar, cumulativeStake, store =>
    let cumulativeStake := U64.wrappingAdd cumulativeStake entry.amount
    let cumulativeSlash := U64.mulDiv cumulativeStake delSlash totalDel
    let stakerSlash := U64.wrappingSub cumulativeSlash slashedSoFar
    let store := writeStake store addr id (U64.saturatingSub entry.amount stakerSlash)
    let (charges, store) := chargeStakers id delSlash totalDel stakers cumulativeSlash
      cumulativeStake store
    ((addr, stakerSlash) :: charges, store)

/-- The delegations part of a slash. -/
def slashDelegations (id delSlash : ℕ) (store : StakingStore) :
    List (Bytes × ℕ) × StakingStore :=
  if 0 < delSlash then
    let stakers := (store.stakersOf id).insertionSort fun a b => a.1 ≤ b.1
    let totalDel := (stakers.map (·.2.amount)).foldl U64.wrappingAdd 0
    if 0 < totalDel then chargeStakers id delSlash totalDel stakers 0 0 store else ([], store)
  else ([], store)

/-- What a pending entry is slashed by. -/
def unbondingSlash (id rate : ℕ) (e : UnbondingEntry) : ℕ :=
  if e.validator = id ∧ 0 < e.amount then U64.mulDiv e.amount rate 10000 else 0

/-- The unbondings part of a slash: the entries left, and the amount slashed. -/
def slashUnbondings (id rate : ℕ) (entries : List UnbondingEntry) : List UnbondingEntry × ℕ :=
  let updated := (entries.map fun e =>
    { e with amount := U64.saturatingSub e.amount (unbondingSlash id rate e) }).filter
      fun e => 0 < e.amount
  (updated, (entries.map (unbondingSlash id rate)).foldl U64.saturatingAdd 0)

/-- What a slash did: its result, and what each staker was charged. -/
structure Slashed where
  result : SlashResult
  charges : List (Bytes × ℕ)

/-- `slash_with_evidence`. -/
def slashWithEvidence (m : StakingManager) (id : ℕ) (evidenceId : Bytes) (reason : SlashReason)
    (currentHeight : ℕ) : Except StakingError Slashed × StakingManager :=
  if evidenceId.isEmpty then (.error .emptyEvidenceId, m)
  else
    match m.store.getValidator id with
    | none => (.error (.notFound id), m)
    | some vs =>
      if vs.appliedSlashes.any (·.evidenceId = evidenceId) then
        (.error (.alreadySlashed id evidenceId.length), m)
      else
        let rate := m.slashRate reason
        let selfSlash := U64.mulDiv vs.selfStake rate 10000
        let delSlash := U64.mulDiv vs.delegatedStake rate 10000
        let vs := { vs with
          selfStake := U64.saturatingSub vs.selfStake selfSlash
          delegatedStake := U64.saturatingSub vs.delegatedStake delSlash
          jailed := true
          jailUntilHeight := max vs.jailUntilHeight
            (U64.saturatingAdd currentHeight m.config.jailDuration)
          score := vs.score - m.config.maxScore / 10
          appliedSlashes := vs.appliedSlashes ++ [⟨evidenceId, reason⟩] }
        let (charges, store) := slashDelegations id delSlash m.store
        let store := store.setValidator id vs
        let (updated, unbondingSlashed) := slashUnbondings id rate store.unbondings
        (.ok ⟨⟨selfSlash, U64.saturatingAdd delSlash unbondingSlashed, true⟩, charges⟩,
          { m with store := store.replaceUnbondings updated })

/-- `slash`. -/
def slash (m : StakingManager) (id : ℕ) (reason : SlashReason) (currentHeight : ℕ) :
    Except StakingError Slashed × StakingManager :=
  m.slashWithEvidence id (defaultEvidenceId reason) reason currentHeight

/-- `unjail`. -/
def unjail (m : StakingManager) (id currentHeight : ℕ) :
    Except StakingError Unit × StakingManager :=
  match m.store.getValidator id with
  | none => (.error (.notFound id), m)
  | some vs =>
    if vs.tombstoned then (.error (.tombstonedValidator id), m)
    else if !vs.jailed then (.error (.notJailed id), m)
    else if currentHeight < vs.jailUntilHeight then
      (.error (.stillJailed id vs.jailUntilHeight currentHeight), m)
    else
      let vs := { vs with jailed := false, jailUntilHeight := 0 }
      (.ok (), { m with store := m.store.setValidator id vs })

/-- `increment_score`. -/
def incrementScore (m : StakingManager) (id delta : ℕ) : StakingManager :=
  match m.store.getValidator id with
  | none => m
  | some vs =>
    let vs := { vs with score := min (min (vs.score + delta) (2 ^ 32 - 1)) m.config.maxScore }
    { m with store := m.store.setValidator id vs }

/-- `decrement_score`. -/
def decrementScore (m : StakingManager) (id delta : ℕ) : StakingManager :=
  match m.store.getValidator id with
  | none => m
  | some vs =>
    let vs := { vs with score := vs.score - delta }
    { m with store := m.store.setValidator id vs }

/-- `reward_proposer`. -/
def rewardProposer (m : StakingManager) (proposer : ℕ) : Except StakingError ℕ × StakingManager :=
  if m.config.blockReward = 0 then (.ok 0, m)
  else
    match m.store.getValidator proposer with
    | none => (.error (.notFound proposer), m)
    | some vs =>
      if vs.tombstoned then (.error (.tombstonedValidator proposer), m)
      else
        match U64.checkedAdd vs.selfStake m.config.blockReward with
        | none => (.error .rewardOverflow, m)
        | some selfStake =>
          (.ok m.config.blockReward,
            { m with store := m.store.setValidator proposer { vs with selfStake } })

/-! ### The validator set -/

/-- May a validator be in the set: it is neither jailed nor tombstoned, and has the minimum
self-stake. -/
def isActive (m : StakingManager) (vs : ValidatorState) : Bool :=
  !vs.jailed && !vs.tombstoned && m.config.minSelfStake ≤ vs.selfStake

/-- The order of `sort_by_key(|v| (Reverse(v.voting_power()), v.id))`. -/
def ranksBefore (a b : ValidatorState) : Bool :=
  b.votingPower < a.votingPower || (a.votingPower = b.votingPower && a.id ≤ b.id)

/-- `formal_validator_list`. -/
def formalValidatorList (m : StakingManager) : List ValidatorState :=
  let active := (m.store.allValidatorIds.filterMap m.store.getValidator).filter m.isActive
  (active.insertionSort fun a b => ranksBefore a b).take m.config.maxValidators

/-- The overflow guard of `compute_validator_updates`: the checked sum of the voting powers. -/
def totalVotingPower : List ValidatorState → ℕ → Option ℕ
  | [], total => some total
  | vs :: rest, total =>
    match U64.checkedAdd total vs.votingPower with
    | some t => totalVotingPower rest t
    | none => none

/-- `compute_validator_updates`. -/
def computeValidatorUpdates (m : StakingManager) (currentSet : ValidatorSet) :
    List ValidatorUpdate :=
  let formal := m.formalValidatorList
  if formal.isEmpty then []
  else
    match totalVotingPower formal 0 with
    | none => []
    | some _ =>
      let changed := formal.filter fun vs =>
        !(currentSet.get vs.id).any fun current =>
          current.power = vs.votingPower && current.publicKey = vs.publicKey
      let dropped := currentSet.validators.filter fun vi => !formal.any (·.id = vi.id)
      changed.map (fun vs => ⟨vs.id, vs.publicKey, vs.votingPower⟩)
        ++ dropped.map (fun vi => ⟨vi.id, vi.publicKey, 0⟩)

end StakingManager

end Hotmint.Staking
