/-
Stake stays slashable.

* `Call.outcome`: what a call answers, and the manager it leaves;
* `StakingStore.Sound`: the records, the delegations and the pending unbondings refer to
  each other;
* `Leaves`, `Call.leaves`: **every call leaves a sound store, or fails and leaves the
  manager as it was**;
* `stake_slashable`: so does every sequence of calls.
-/
import Hotmint.Staking.Conservation

namespace Hotmint.Staking

open StakingManager StakingStore List AList
variable {m : StakingManager} {s : StakingStore} {v v' : ValidatorState} {id : ℕ}

/-! ### Outcomes -/

/-- The error of a call that returned, and the manager it leaves. -/
def outcomeOf {α : Type} (r : Except StakingError α × StakingManager) :
    Option StakingError × StakingManager :=
  match r.1 with
  | .ok _ => (none, r.2)
  | .error err => (some err, r.2)

/-- What a call answers, and the manager it leaves. -/
def Call.outcome (m : StakingManager) : Call → Option StakingError × StakingManager
  | .register id pubkey selfStake => outcomeOf (m.registerValidator id pubkey selfStake)
  | .unregister id => outcomeOf (m.unregisterValidator id)
  | .delegate staker validator amount => outcomeOf (m.delegate staker validator amount)
  | .undelegate staker validator amount height =>
    outcomeOf (m.undelegate staker validator amount height)
  | .slash id reason height => outcomeOf (m.slash id reason height)
  | .slashWithEvidence id evidenceId reason height =>
    outcomeOf (m.slashWithEvidence id evidenceId reason height)
  | .reward proposer => outcomeOf (m.rewardProposer proposer)
  | .processUnbonding height => (none, (m.processUnbonding height).2)
  | .unjail id height => outcomeOf (m.unjail id height)
  | .incrementScore id delta => (none, m.incrementScore id delta)
  | .decrementScore id delta => (none, m.decrementScore id delta)

lemma Books.manager_settle {α : Type} (l : Ledger) (r : Except StakingError α × StakingManager)
    (entry : α → Ledger) : (Books.settle l r entry).manager = (outcomeOf r).2 := by
  obtain ⟨a | a, m'⟩ := r <;> rfl

/-- The books follow the manager. -/
lemma Books.manager_perform (b : Books) (call : Call) :
    (b.perform call).manager = (call.outcome b.manager).2 := by
  cases call with
  | processUnbonding height => rfl
  | incrementScore id delta => rfl
  | decrementScore id delta => rfl
  | _ => exact manager_settle _ _ _

/-! ### The invariant -/

/-- Every delegation is positive: an emptied one is removed. -/
def StakingStore.Positive (s : StakingStore) : Prop :=
  ∀ staker id entry, s.getStake staker id = some entry → 0 < entry.amount

/-- **The records, the delegations and the pending unbondings refer to each other.** -/
structure StakingStore.Sound (s : StakingStore) : Prop where
  matched : s.Matched
  fits : ∀ id v, s.getValidator id = some v → v.delegatedStake < 2 ^ 64
  positive : s.Positive
  pending : ∀ e ∈ s.unbondings, 0 < e.amount ∧ (s.getValidator e.validator).isSome
  retired : ∀ id v, s.getValidator id = some v → v.tombstoned →
    v.selfStake = 0 ∧ v.delegatedStake = 0
  ids : ∀ id v, s.getValidator id = some v → v.id = id
  keyLength : ∀ id v, s.getValidator id = some v → v.publicKey.bytes.length = 32
  keys : ∀ id v id' v', s.getValidator id = some v → s.getValidator id' = some v' →
    v.publicKey = v'.publicKey → id = id'

/-- How a call returns: with a sound store, or with an error and **the manager as it
was**. -/
inductive Leaves {α : Type} (m : StakingManager) : Except StakingError α × StakingManager → Prop
  | ok {a : α} {m' : StakingManager} (hconfig : m'.config = m.config) (h : m'.store.Sound) :
      Leaves m (.ok a, m')
  | error {err : StakingError} : Leaves m (.error err, m)

lemma totalStake_eq_zero (h : v.totalStake = 0) : v.selfStake = 0 ∧ v.delegatedStake = 0 := by
  unfold ValidatorState.totalStake U64.saturatingAdd at h
  omega

lemma getValidator_setValidator (s : StakingStore) (id : ℕ) (v : ValidatorState) (id' : ℕ) :
    (s.setValidator id v).getValidator id' = if id' = id then some v else s.getValidator id' := by
  unfold getValidator setValidator
  split_ifs with heq
  · rw [heq, lookup_insert]
  · exact lookup_insert_ne heq

lemma getValidator_removeValidator (s : StakingStore) (id id' : ℕ) :
    (s.removeValidator id).getValidator id' = if id' = id then none else s.getValidator id' := by
  unfold getValidator removeValidator
  split_ifs with heq
  · rw [heq, lookup_erase]
  · exact lookup_erase_ne heq

lemma StakingStore.Positive.writeStake (h : s.Positive) (staker : Bytes)
    (id amount : ℕ) : (writeStake s staker id amount).Positive := by
  intro staker' id' entry hentry
  unfold StakingManager.writeStake at hentry
  by_cases hkey : (staker', id') = (staker, id)
  · split_ifs at hentry with hzero
    · rw [getStake, removeStake, hkey, lookup_erase] at hentry
      cases hentry
    · rw [getStake, setStake, hkey, lookup_insert] at hentry
      cases hentry
      exact Nat.pos_of_ne_zero hzero
  · refine h staker' id' entry ?_
    split_ifs at hentry
    · rwa [getStake, removeStake, lookup_erase_ne hkey] at hentry
    · rwa [getStake, setStake, lookup_insert_ne hkey] at hentry

/-- Charging keeps the delegations positive. -/
lemma StakingStore.Positive.chargeStakers {delSlash totalDel : ℕ}
    {stakers : List (Bytes × StakeEntry)} {slashed cumulative : ℕ} (h : s.Positive) :
    (chargeStakers id delSlash totalDel stakers slashed cumulative s).2.Positive := by
  induction stakers generalizing slashed cumulative s with
  | nil => exact h
  | cons staker stakers ih => exact ih (h.writeStake staker.1 id _)

lemma StakingStore.Positive.slashDelegations {delSlash : ℕ}
    (h : s.Positive) : (slashDelegations id delSlash s).2.Positive := by
  unfold StakingManager.slashDelegations
  split_ifs
  · dsimp only
    split_ifs
    · exact h.chargeStakers
    · exact h
  · exact h

namespace StakingStore.Sound

variable {s : StakingStore} (h : s.Sound)

include h

/-- A known validator written over, beside changes to the delegations and the queue. -/
lemma write {s' : StakingStore}
    (hv : s.getValidator id = some v) (hvalidators : s'.validators = s.validators)
    (hmatched : (s'.setValidator id v').Matched) (hfits : v'.delegatedStake < 2 ^ 64)
    (hpositive : s'.Positive)
    (hpending : ∀ e ∈ s'.unbondings, 0 < e.amount ∧ (s.getValidator e.validator).isSome)
    (hretired : v'.tombstoned → v'.selfStake = 0 ∧ v'.delegatedStake = 0)
    (hid : v'.id = v.id) (hkey : v'.publicKey = v.publicKey) : (s'.setValidator id v').Sound := by
  have hget : ∀ id', (s'.setValidator id v').getValidator id'
      = if id' = id then some v' else s.getValidator id' := by
    intro id'
    rw [getValidator_setValidator]
    unfold getValidator
    rw [hvalidators]
  -- every record afterwards has the id and the key of one that was there before
  have hold : ∀ id' w, (s'.setValidator id v').getValidator id' = some w →
      ∃ w₀, s.getValidator id' = some w₀ ∧ w.id = w₀.id ∧ w.publicKey = w₀.publicKey := by
    intro id' w hw
    rw [hget] at hw
    split_ifs at hw with heq
    · cases hw
      exact ⟨v, heq ▸ hv, hid, hkey⟩
    · exact ⟨w, hw, rfl, rfl⟩
  refine ⟨hmatched, ?_, hpositive, ?_, ?_, ?_, ?_, ?_⟩
  · intro id' w hw
    rw [hget] at hw
    split_ifs at hw with heq
    · exact Option.some.inj hw ▸ hfits
    · exact h.fits id' w hw
  · intro e he
    obtain ⟨hpos, hknown⟩ := hpending e he
    refine ⟨hpos, ?_⟩
    rw [hget]
    split_ifs
    · rfl
    · exact hknown
  · intro id' w hw
    rw [hget] at hw
    split_ifs at hw with heq
    · exact Option.some.inj hw ▸ hretired
    · exact h.retired id' w hw
  · intro id' w hw
    obtain ⟨w₀, hw₀, heq, -⟩ := hold id' w hw
    exact heq.trans (h.ids id' w₀ hw₀)
  · intro id' w hw
    obtain ⟨w₀, hw₀, -, heq⟩ := hold id' w hw
    exact heq ▸ h.keyLength id' w₀ hw₀
  · intro id₁ w₁ id₂ w₂ hw₁ hw₂ heq
    obtain ⟨u₁, hu₁, -, hkey₁⟩ := hold id₁ w₁ hw₁
    obtain ⟨u₂, hu₂, -, hkey₂⟩ := hold id₂ w₂ hw₂
    exact h.keys id₁ u₁ id₂ u₂ hu₁ hu₂ (hkey₁.symm.trans (heq.trans hkey₂))

/-- A known validator written over, and nothing else. -/
lemma overwrite (hv : s.getValidator id = some v)
    (hdelegated : v'.delegatedStake = v.delegatedStake)
    (hretired : v'.tombstoned → v'.selfStake = 0 ∧ v'.delegatedStake = 0)
    (hid : v'.id = v.id) (hkey : v'.publicKey = v.publicKey) : (s.setValidator id v').Sound :=
  h.write hv rfl (matched_setValidator h.matched rfl (fun _ _ => rfl)
      ((h.matched.stakeOf_eq hv).trans hdelegated.symm))
    (hdelegated ▸ h.fits id v hv) h.positive h.pending hretired hid hkey

/-- A new validator, with a new key. -/
lemma add (hnew : s.getValidator id = none) (hid : v.id = id)
    (hlength : v.publicKey.bytes.length = 32)
    (hkey : ∀ id' w, s.getValidator id' = some w → w.publicKey ≠ v.publicKey)
    (hdelegated : v.delegatedStake = 0) (htombstoned : v.tombstoned = false) :
    (s.setValidator id v).Sound := by
  have hcases : ∀ id' w, (s.setValidator id v).getValidator id' = some w →
      (id' = id ∧ w = v) ∨ s.getValidator id' = some w := by
    intro id' w hw
    rw [getValidator_setValidator] at hw
    split_ifs at hw with heq
    · exact .inl ⟨heq, (Option.some.inj hw).symm⟩
    · exact .inr hw
  refine ⟨?_, ?_, h.positive, ?_, ?_, ?_, ?_, ?_⟩
  · refine matched_setValidator h.matched rfl (fun _ _ => rfl) ?_
    rw [h.matched id, hnew, hdelegated]
    rfl
  · intro id' w hw
    rcases hcases id' w hw with ⟨-, rfl⟩ | hw
    · rw [hdelegated]
      exact Nat.two_pow_pos 64
    · exact h.fits id' w hw
  · intro e he
    obtain ⟨hpos, hknown⟩ := h.pending e he
    refine ⟨hpos, ?_⟩
    rw [getValidator_setValidator]
    split_ifs
    · rfl
    · exact hknown
  · intro id' w hw htomb
    rcases hcases id' w hw with ⟨-, rfl⟩ | hw
    · rw [htombstoned] at htomb
      cases htomb
    · exact h.retired id' w hw htomb
  · intro id' w hw
    rcases hcases id' w hw with ⟨rfl, rfl⟩ | hw
    · exact hid
    · exact h.ids id' w hw
  · intro id' w hw
    rcases hcases id' w hw with ⟨-, rfl⟩ | hw
    · exact hlength
    · exact h.keyLength id' w hw
  · intro id₁ w₁ id₂ w₂ hw₁ hw₂ heq
    rcases hcases id₁ w₁ hw₁ with ⟨hid₁, rfl⟩ | hold₁ <;>
      rcases hcases id₂ w₂ hw₂ with ⟨hid₂, rfl⟩ | hold₂
    · exact hid₁.trans hid₂.symm
    · exact (hkey id₂ w₂ hold₂ heq.symm).elim
    · exact (hkey id₁ w₁ hold₁ heq).elim
    · exact h.keys id₁ w₁ id₂ w₂ hold₁ hold₂ heq

/-- A validator without stake and without pending unbondings can be removed. -/
lemma remove (hv : s.getValidator id = some v)
    (hzero : v.totalStake = 0) (hnone : ∀ e ∈ s.unbondings, e.validator ≠ id) :
    (s.removeValidator id).Sound := by
  have hold : ∀ id' w, (s.removeValidator id).getValidator id' = some w →
      s.getValidator id' = some w := by
    intro id' w hw
    rw [getValidator_removeValidator] at hw
    split_ifs at hw
    exact hw
  refine ⟨?_, fun id' w hw => h.fits id' w (hold id' w hw), h.positive, ?_,
    fun id' w hw => h.retired id' w (hold id' w hw), fun id' w hw => h.ids id' w (hold id' w hw),
    fun id' w hw => h.keyLength id' w (hold id' w hw),
    fun id₁ w₁ id₂ w₂ hw₁ hw₂ => h.keys id₁ w₁ id₂ w₂ (hold id₁ w₁ hw₁) (hold id₂ w₂ hw₂)⟩
  · exact (moves_removeValidator (m := ⟨s, {}⟩) h.matched hv hzero).matched
  · intro e he
    obtain ⟨hpos, hknown⟩ := h.pending e he
    refine ⟨hpos, ?_⟩
    rw [getValidator_removeValidator, if_neg (hnone e he)]
    exact hknown

end StakingStore.Sound

/-! ### The calls -/

lemma validatePublicKey_ok {pubkey : PublicKey}
    (h : m.validatePublicKey pubkey = .ok ()) : pubkey.bytes.length = 32
      ∧ ∀ id v, m.store.getValidator id = some v → v.publicKey ≠ pubkey := by
  unfold validatePublicKey at h
  split_ifs at h with hlength hany
  refine ⟨not_not.mp hlength, fun id v hv hkey => hany ?_⟩
  rw [any_eq_true]
  refine ⟨v, mem_filterMap.mpr ⟨id, ?_, hv⟩, decide_eq_true hkey⟩
  exact lookup_isSome.mp (Option.isSome_of_mem hv)

/-- No pending entry of a validator without pending unbondings. -/
lemma StakingStore.Sound.not_pending (h : m.store.Sound)
    (hnone : ¬m.hasPendingUnbondings id) : ∀ e ∈ m.store.unbondings, e.validator ≠ id := by
  intro e he heq
  refine hnone (any_eq_true.mpr ⟨e, he, ?_⟩)
  rw [Bool.and_eq_true]
  exact ⟨decide_eq_true heq, decide_eq_true (h.pending e he).1⟩

section Calls

variable {m : StakingManager} (h : m.store.Sound)

include h

lemma registerValidator_leaves (id : ℕ) (pubkey : PublicKey) (selfStake : ℕ) :
    Leaves m (m.registerValidator id pubkey selfStake) := by
  unfold registerValidator
  cases hv : m.store.getValidator id with
  | some v => exact .error
  | none =>
    rw [Option.isSome_none, if_neg Bool.false_ne_true]
    cases hkey : m.validatePublicKey pubkey with
    | error err => exact .error
    | ok u =>
      obtain ⟨hlength, hfresh⟩ := validatePublicKey_ok hkey
      dsimp only
      split_ifs
      · exact .error
      · exact .ok rfl (h.add hv rfl hlength hfresh rfl rfl)

lemma unregisterValidator_leaves (id : ℕ) : Leaves m (m.unregisterValidator id) := by
  unfold unregisterValidator
  cases hv : m.store.getValidator id with
  | none => exact .error
  | some v =>
    dsimp only
    split_ifs with hstake hpending
    · exact .error
    · have hzero := totalStake_eq_zero (Nat.eq_zero_of_not_pos hstake)
      exact .ok rfl (h.overwrite hv rfl (fun _ => hzero) rfl rfl)
    · exact .ok rfl (h.remove hv (Nat.eq_zero_of_not_pos hstake) (h.not_pending hpending))

lemma delegate_leaves (staker : Bytes) (validator amount : ℕ) :
    Leaves m (m.delegate staker validator amount) := by
  rcases delegate_cases h.matched staker validator amount with
    ⟨err, heq⟩ | ⟨v, hv, htombstoned, -, hfits, heq⟩
  · exact heq ▸ .error
  · rw [heq]
    set v' : ValidatorState := { v with delegatedStake := v.delegatedStake + amount }
    have hmatched := (matched_writeStake v' staker (m.store.balance staker validator + amount)
      h.matched hv rfl (by dsimp only [v']; omega)).1
    refine .ok rfl (h.write hv (validators_writeStake _ _ _ _) hmatched hfits
      (h.positive.writeStake staker validator _) ?_ ?_ rfl rfl)
    · rw [unbondings_writeStake]
      exact h.pending
    · intro htomb
      exact absurd htomb (Bool.eq_false_iff.mp htombstoned)

lemma undelegate_leaves (staker : Bytes) (validator amount height : ℕ) :
    Leaves m (m.undelegate staker validator amount height) := by
  rcases undelegate_cases h.matched staker validator amount height with
    ⟨err, heq⟩ | ⟨v, hv, hpos, hle, hle', heq⟩
  · exact heq ▸ .error
  · rw [heq]
    set v' : ValidatorState := { v with delegatedStake := v.delegatedStake - amount }
    have hmatched := (matched_writeStake v' staker (m.store.balance staker validator - amount)
      h.matched hv rfl (by dsimp only [v']; omega)).1
    have hfits := h.fits validator v hv
    -- the entry is queued behind the others, and the queue is no part of what is matched
    let queued := (writeStake m.store staker validator
      (m.store.balance staker validator - amount)).pushUnbonding
        ⟨staker, validator, amount, U64.saturatingAdd height m.config.unbondingPeriod⟩
    have hsame : queued.validators = m.store.validators := validators_writeStake _ _ _ _
    refine .ok rfl (h.write hv hsame hmatched (Nat.lt_of_le_of_lt (Nat.sub_le _ _) hfits)
      (h.positive.writeStake staker validator _) ?_ ?_ rfl rfl)
    · intro e he
      rcases mem_append.mp he with he | he
      · exact h.pending e (unbondings_writeStake m.store _ _ _ ▸ he)
      · obtain rfl := mem_singleton.mp he
        exact ⟨hpos, Option.isSome_of_mem hv⟩
    · intro htomb
      have hretired := h.retired validator v hv htomb
      exact ⟨hretired.1, by dsimp only [v']; omega⟩

lemma rewardProposer_leaves (proposer : ℕ) : Leaves m (m.rewardProposer proposer) := by
  unfold rewardProposer
  split_ifs
  · exact .ok rfl h
  · cases hv : m.store.getValidator proposer with
    | none => exact .error
    | some v =>
      dsimp only
      split_ifs with htombstoned
      · exact .error
      · cases U64.checkedAdd v.selfStake m.config.blockReward with
        | none => exact .error
        | some selfStake =>
          exact .ok rfl (h.overwrite hv rfl (fun htomb => (htombstoned htomb).elim) rfl rfl)

lemma unjail_leaves (id height : ℕ) : Leaves m (m.unjail id height) := by
  unfold unjail
  cases hv : m.store.getValidator id with
  | none => exact .error
  | some v =>
    dsimp only
    split_ifs
    · exact .error
    · exact .error
    · exact .error
    · exact .ok rfl (h.overwrite hv rfl (h.retired id v hv) rfl rfl)

lemma rescored_sound (id : ℕ) (score : ValidatorState → ℕ) : (m.rescored id score).store.Sound := by
  unfold rescored
  cases hv : m.store.getValidator id with
  | none => exact h
  | some v => exact h.overwrite hv rfl (h.retired id v hv) rfl rfl

lemma slashWithEvidence_leaves (hrates : ∀ reason, m.slashRate reason ≤ 10000) (id : ℕ)
    (evidenceId : Bytes) (reason : SlashReason) (height : ℕ) :
    Leaves m (m.slashWithEvidence id evidenceId reason height) := by
  unfold slashWithEvidence
  split_ifs
  · exact .error
  cases hv : m.store.getValidator id with
  | none => exact .error
  | some v =>
    dsimp only
    split_ifs
    · exact .error
    have hfits := h.fits id v hv
    have hstakeOf := h.matched.stakeOf_eq hv
    have hdel := (U64.mulDiv_eq v.delegatedStake (hrates reason) hfits).2
    set delSlash := U64.mulDiv v.delegatedStake (m.slashRate reason) 10000
    obtain ⟨hcharged, hsum⟩ := slashDelegations_spec id (s := m.store)
      (hstakeOf ▸ hdel) (hstakeOf ▸ hfits)
    have hpositive : (slashDelegations id delSlash m.store).2.Positive :=
      h.positive.slashDelegations
    set r := slashDelegations id delSlash m.store
    set v' : ValidatorState := ⟨v.id, v.publicKey, _, U64.saturatingSub v.delegatedStake delSlash,
      _, _, _, _, _⟩
    have hdel' : v'.delegatedStake = v.delegatedStake - delSlash := rfl
    have htotal := hcharged.total
    set entries := (slashUnbondings id (m.slashRate reason)
      (r.2.setValidator id v').unbondings).1 with hentries
    have hsound : ((r.2.replaceUnbondings entries).setValidator id v').Sound := by
      refine h.write hv hcharged.validators (matched_setValidator h.matched hcharged.validators
        hcharged.others ?_) (by omega) hpositive ?_ ?_ rfl rfl
      · change r.2.stakeOf id = _
        omega
      · intro e he
        rw [replaceUnbondings, hentries] at he
        obtain ⟨he, hpos⟩ := mem_filter.mp he
        obtain ⟨e₀, he₀, rfl⟩ := mem_map.mp he
        have hunbondings : e₀ ∈ m.store.unbondings := hcharged.unbondings ▸ he₀
        exact ⟨of_decide_eq_true hpos, (h.pending e₀ hunbondings).2⟩
      · intro htomb
        obtain ⟨hself, hdelegated⟩ := h.retired id v hv htomb
        refine ⟨?_, by omega⟩
        change v.selfStake - _ = 0
        omega
    exact .ok rfl hsound

end Calls

/-- **What is pruned** has no stake and nothing pending. -/
lemma pruneTombstonedValidators_sound (h : m.store.Sound) :
    m.pruneTombstonedValidators.store.Sound := by
  unfold pruneTombstonedValidators
  have hpending : ∀ e ∈ m.store.unbondings,
      e.validator ∈ (m.store.unbondings.filter fun e => 0 < e.amount).map (·.validator) :=
    fun e he => mem_map_of_mem (mem_filter.mpr ⟨he, decide_eq_true (h.pending e he).1⟩)
  dsimp only
  generalize (m.store.unbondings.filter fun e => 0 < e.amount).map (·.validator) = pending
    at hpending ⊢
  generalize m.store.allValidatorIds = ids
  generalize m.store = s at h hpending ⊢
  -- by induction on the ids still to look at; removing a validator keeps the queue
  induction ids generalizing s with
  | nil => exact h
  | cons id ids ih =>
    rw [foldl_cons]
    cases hv : s.getValidator id with
    | none => exact ih s h hpending
    | some v =>
      dsimp only
      split_ifs with hprune
      · rw [Bool.and_eq_true, Bool.and_eq_true] at hprune
        obtain ⟨⟨-, hzero⟩, hnone⟩ := hprune
        refine ih (s.removeValidator id) (h.remove hv (of_decide_eq_true hzero) ?_) hpending
        rintro e he rfl
        simp [hpending e he] at hnone
      · exact ih s h hpending

lemma processUnbonding_sound (h : m.store.Sound) (height : ℕ) :
    (m.processUnbonding height).2.store.Sound := by
  unfold processUnbonding drainMatureUnbondings
  dsimp only
  rw [partition_eq_filter_filter]
  refine pruneTombstonedValidators_sound ⟨h.matched, h.fits, h.positive, ?_, h.retired, h.ids,
    h.keyLength, h.keys⟩
  exact fun e he => h.pending e (mem_of_mem_filter he)

/-! ### Every call, every run -/

lemma Leaves.outcome {α : Type} {r : Except StakingError α × StakingManager}
    (h : m.store.Sound) (hr : Leaves m r) :
    (outcomeOf r).2.config = m.config ∧ (outcomeOf r).2.store.Sound
      ∧ ∀ err, (outcomeOf r).1 = some err → (outcomeOf r).2 = m := by
  cases hr with
  | error => exact ⟨rfl, h, fun _ _ => rfl⟩
  | ok hconfig hsound => exact ⟨hconfig, hsound, fun _ herr => by cases herr⟩

/-- **Every call leaves a sound store**, and the manager as it was when it fails. -/
lemma Call.leaves (h : m.store.Sound)
    (hrates : ∀ reason, m.slashRate reason ≤ 10000) (call : Call) :
    (call.outcome m).2.config = m.config ∧ (call.outcome m).2.store.Sound
      ∧ ∀ err, (call.outcome m).1 = some err → (call.outcome m).2 = m := by
  cases call with
  | register id pubkey selfStake => exact (registerValidator_leaves h id pubkey selfStake).outcome h
  | unregister id => exact (unregisterValidator_leaves h id).outcome h
  | delegate staker validator amount => exact (delegate_leaves h staker validator amount).outcome h
  | undelegate staker validator amount height =>
    exact (undelegate_leaves h staker validator amount height).outcome h
  | slash id reason height => exact (slashWithEvidence_leaves h hrates id _ reason height).outcome h
  | slashWithEvidence id evidenceId reason height =>
    exact (slashWithEvidence_leaves h hrates id evidenceId reason height).outcome h
  | reward proposer => exact (rewardProposer_leaves h proposer).outcome h
  | processUnbonding height => exact ⟨rfl, processUnbonding_sound h height, fun _ herr => by cases
      herr⟩
  | unjail id height => exact (unjail_leaves h id height).outcome h
  | incrementScore id _ | decrementScore id _ =>
    exact ⟨(rescored_moves h.matched id _).config, rescored_sound h id _, fun _ herr => by cases
      herr⟩

lemma StakingStore.sound_new : StakingStore.new.Sound where
  matched _ := rfl
  fits _ _ hv := by cases hv
  positive _ _ _ hentry := by cases hentry
  pending _ he := (not_mem_nil he).elim
  retired _ _ hv := by cases hv
  ids _ _ hv := by cases hv
  keyLength _ _ hv := by cases hv
  keys _ _ _ _ hv := by cases hv

/-- **Every sequence of calls leaves a sound store.** -/
lemma Books.sound_performAll {config : StakingConfig} (h : config.validate = .ok ())
    (calls : List Call) : ((Books.new config).performAll calls).manager.config = config
      ∧ ((Books.new config).performAll calls).manager.store.Sound := by
  induction calls using reverseRecOn with
  | nil => exact ⟨rfl, sound_new⟩
  | append_singleton calls call ih =>
    have hlast : (Books.new config).performAll (calls ++ [call])
        = ((Books.new config).performAll calls).perform call := by
      unfold Books.performAll
      rw [foldl_append, foldl_cons, foldl_nil]
    rw [hlast, manager_perform]
    obtain ⟨hconfig, hsound, -⟩ := Call.leaves ih.2 (slashRate_le (ih.1.symm ▸ h)) call
    exact ⟨hconfig.trans ih.1, hsound⟩

lemma StakingStore.Sound.known_of_stake (h : s.Sound) {staker : Bytes}
    {entry : StakeEntry} (hentry : s.getStake staker id = some entry) :
    ∃ v, s.getValidator id = some v ∧ 0 < v.delegatedStake := by
  have hpos := h.positive staker id entry hentry
  have hle := balance_le_stakeOf s staker id
  rw [StakingStore.balance, hentry, h.matched id] at hle
  cases hv : s.getValidator id with
  | none =>
    rw [hv] at hle
    exact absurd hle (Nat.not_le_of_lt hpos)
  | some v =>
    rw [hv] at hle
    exact ⟨v, rfl, hpos.trans_le hle⟩

/-- **Stake stays slashable.**  With a valid configuration, after every sequence of calls:
the delegated stake of a validator is the sum of its entries; every entry and every pending
unbonding refers to a validator that is there; a tombstoned one has no voting power, no
stake and no entries; and a call that fails leaves the manager as it was. -/
theorem stake_slashable {config : StakingConfig} (hconfig : config.validate = .ok ())
    (calls : List Call) :
    let m := ((Books.new config).performAll calls).manager
    (∀ id v, m.store.getValidator id = some v →
        v.delegatedStake = ((m.store.stakersOf id).map (·.2.amount)).sum)
      ∧ (∀ staker id entry, m.store.getStake staker id = some entry →
        (m.store.getValidator id).isSome)
      ∧ (∀ e ∈ m.store.unbondings, (m.store.getValidator e.validator).isSome)
      ∧ (∀ id v, m.store.getValidator id = some v → v.tombstoned →
        v.votingPower = 0 ∧ v.selfStake = 0 ∧ v.delegatedStake = 0 ∧ m.store.stakersOf id = [])
      ∧ ∀ call err m', Call.outcome m call = (some err, m') → m' = m := by
  intro m
  obtain ⟨hm, hsound⟩ := Books.sound_performAll hconfig calls
  refine ⟨fun id v hv => ?_, fun staker id entry hentry => ?_, fun e he => (hsound.pending e he).2,
    fun id v hv htomb => ?_, fun call err m' houtcome => ?_⟩
  · rw [sum_stakersOf]
    exact (hsound.matched.stakeOf_eq hv).symm
  · obtain ⟨v, hv, -⟩ := hsound.known_of_stake hentry
    exact Option.isSome_of_mem hv
  · obtain ⟨hself, hdelegated⟩ := hsound.retired id v hv htomb
    refine ⟨?_, hself, hdelegated, ?_⟩
    · rw [ValidatorState.votingPower, htomb, Bool.or_true, if_pos rfl]
    · refine eq_nil_iff_forall_not_mem.mpr fun staker hstaker => ?_
      obtain ⟨w, hw, hpos⟩ := hsound.known_of_stake (mem_stakersOf.mp hstaker)
      obtain rfl := Option.some.inj (hw.symm.trans hv)
      omega
  · have hleaves := (Call.leaves hsound (slashRate_le (hm.symm ▸ hconfig)) call).2.2 err
    rw [show (call.outcome _) = (some err, m') from houtcome] at hleaves
    exact hleaves rfl

/-- A validator is unregistered while an unbonding is pending, and then refuses a
delegation. -/
theorem stake_slashable_run :
    let config : StakingConfig := { minSelfStake := 0 }
    let calls : List Call := [.register 1 ⟨replicate 32 1⟩ 0, .delegate [1] 1 300,
      .slash 1 .downtime 4, .undelegate [1] 1 297 5, .unregister 1]
    let m := ((Books.new config).performAll calls).manager
    config.validate = .ok () ∧ (m.store.getValidator 1).map (·.tombstoned) = some true
      ∧ m.store.unbondings.map (·.amount) = [297]
      ∧ (∀ e ∈ m.store.unbondings, (m.store.getValidator e.validator).isSome)
      ∧ (Call.outcome m (.delegate [2] 1 10)).2 = m := by
  intro config calls m
  have hconfig : config.validate = .ok () := by decide
  obtain ⟨-, -, hpending, -, hfails⟩ := stake_slashable hconfig calls
  refine ⟨hconfig, by decide +kernel, by decide +kernel, hpending, ?_⟩
  have herr : (Call.outcome m (.delegate [2] 1 10)).1 = some (.tombstonedValidator 1) := by
    decide +kernel
  exact hfails _ _ _ (Prod.ext herr rfl)

end Hotmint.Staking
