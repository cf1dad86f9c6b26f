/-
What a slash charges.

* `StakingStore.stakeOf`, `bonded`, `pending`: what is delegated to a validator, what
  is bonded, and what is being unbonded;
* `Charged`, `chargeStakers_spec`: the loop over the stakers takes from each of them the
  share of the slash, and from none more than they have;
* `slashDelegations_spec`, `slashUnbondings_spec`: **a slash takes from the delegations
  and from the pending entries exactly what it takes from the totals**.
-/
import Hotmint.Library.Apportion
import Hotmint.Library.Totals
import Hotmint.Staking.Manager
import Mathlib.Algebra.Order.BigOperators.Group.List

namespace Hotmint.Staking

open List U64 AList

namespace StakingStore

/-- The sum of the delegations to a validator. -/
def stakeOf (s : StakingStore) (id : ℕ) : ℕ :=
  s.stakes.total fun k e => if k.2 = id then e.amount else 0

/-- All bonded stake, of the validators themselves and delegated. -/
def bonded (s : StakingStore) : ℕ := s.validators.total fun _ v => v.selfStake + v.delegatedStake

/-- All stake that is being unbonded. -/
def pending (s : StakingStore) : ℕ := (s.unbondings.map (·.amount)).sum

/-- The amount of one delegation. -/
def balance (s : StakingStore) (staker : Bytes) (id : ℕ) : ℕ :=
  (s.getStake staker id).elim 0 (·.amount)

lemma balance_congr {s s' : StakingStore} {staker : Bytes} {id : ℕ}
    (h : s'.getStake staker id = s.getStake staker id) :
    s'.balance staker id = s.balance staker id :=
  congrArg (fun entry : Option StakeEntry => entry.elim 0 (·.amount)) h

/-- Writing a validator exchanges its stake. -/
lemma bonded_setValidator (s : StakingStore) (id : ℕ) (v : ValidatorState) :
    (s.setValidator id v).bonded
      + (s.getValidator id).elim 0 (fun v => v.selfStake + v.delegatedStake)
      = s.bonded + (v.selfStake + v.delegatedStake) :=
  total_insert _ _ _ _

lemma bonded_removeValidator (s : StakingStore) (id : ℕ) : (s.removeValidator id).bonded
      + (s.getValidator id).elim 0 (fun v => v.selfStake + v.delegatedStake) = s.bonded :=
  total_erase _ _ _

/-- A validator's stake is bonded. -/
lemma stake_le_bonded {s : StakingStore} {id : ℕ} {v : ValidatorState}
    (h : s.getValidator id = some v) : v.selfStake + v.delegatedStake ≤ s.bonded := by
  have hle := weightAt_le_total (fun _ v => v.selfStake + v.delegatedStake) s.validators id
  rwa [weightAt, show s.validators.lookup id = some v from h] at hle

/-- A delegation is part of what is delegated. -/
lemma balance_le_stakeOf (s : StakingStore) (staker : Bytes) (id : ℕ) :
    s.balance staker id ≤ s.stakeOf id := by
  have hle := weightAt_le_total (fun (k : Bytes × ℕ) (e : StakeEntry) =>
    if k.2 = id then e.amount else 0) s.stakes (staker, id)
  unfold balance getStake
  cases hentry : s.stakes.lookup (staker, id) with
  | none => exact Nat.zero_le _
  | some entry =>
    rw [weightAt, hentry, Option.elim_some, if_pos rfl] at hle
    exact hle

end StakingStore

open StakingManager StakingStore

/-! ### Writing a delegation -/

/-- Writing a reduced entry exchanges its amount. -/
lemma stakeOf_writeStake (s : StakingStore) (staker : Bytes) (id amount id' : ℕ) :
    (writeStake s staker id amount).stakeOf id' + (if id = id' then s.balance staker id else 0)
      = s.stakeOf id' + (if id = id' then amount else 0) := by
  have hweight : s.stakes.weightAt (fun k e => if k.2 = id' then e.amount else 0) (staker, id)
      = if id = id' then s.balance staker id else 0 := by
    unfold weightAt StakingStore.balance StakingStore.getStake
    cases s.stakes.lookup (staker, id) <;> simp
  rw [← hweight]
  unfold writeStake
  by_cases hzero : amount = 0
  · rw [if_pos hzero, hzero, ite_self, Nat.add_zero]
    exact total_erase _ _ _
  · rw [if_neg hzero]
    exact total_insert _ _ _ _

lemma balance_writeStake (s : StakingStore) (staker : Bytes) (id amount : ℕ) :
    (writeStake s staker id amount).balance staker id = amount := by
  unfold writeStake
  split_ifs with hzero
  · rw [StakingStore.balance, StakingStore.getStake, StakingStore.removeStake, lookup_erase, hzero]
    rfl
  · rw [StakingStore.balance, StakingStore.getStake, StakingStore.setStake, lookup_insert]
    rfl

lemma getStake_writeStake_ne (s : StakingStore) {staker staker' : Bytes} (id amount : ℕ)
    (h : staker' ≠ staker) :
    (writeStake s staker id amount).getStake staker' id = s.getStake staker' id := by
  have hne : (staker', id) ≠ (staker, id) := fun heq => h (Prod.mk.inj heq).1
  unfold writeStake
  split_ifs
  · exact lookup_erase_ne hne
  · exact lookup_insert_ne hne

@[simp] lemma validators_writeStake (s : StakingStore) (staker : Bytes) (id amount : ℕ) :
    (writeStake s staker id amount).validators = s.validators := by
  unfold writeStake
  split_ifs <;> rfl

@[simp] lemma unbondings_writeStake (s : StakingStore) (staker : Bytes) (id amount : ℕ) :
    (writeStake s staker id amount).unbondings = s.unbondings := by
  unfold writeStake
  split_ifs <;> rfl

/-! ### The stakers of a validator -/

lemma mem_stakersOf {s : StakingStore} {id : ℕ} {staker : Bytes × StakeEntry} :
    staker ∈ s.stakersOf id ↔ s.getStake staker.1 id = some staker.2 := by
  obtain ⟨addr, entry⟩ := staker
  unfold stakersOf getStake
  rw [mem_map]
  constructor
  · rintro ⟨⟨⟨addr', id'⟩, entry'⟩, hmem, heq⟩
    obtain rfl : id' = id := of_decide_eq_true (mem_filter.mp hmem).2
    cases heq
    exact mem_lookup_iff.mpr (mem_of_mem_filter hmem)
  · intro h
    refine ⟨⟨(addr, id), entry⟩, mem_filter.mpr ⟨mem_lookup_iff.mp h, ?_⟩, rfl⟩
    exact decide_eq_true rfl

/-- Every staker is listed once. -/
lemma nodup_stakersOf (s : StakingStore) (id : ℕ) : ((s.stakersOf id).map Prod.fst).Nodup := by
  unfold stakersOf
  rw [map_map]
  have hkeys : (s.stakes.entries.filter fun e => e.1.2 = id).Pairwise fun e e' => e.1 ≠ e'.1 :=
    (pairwise_map.mp s.stakes.nodupKeys).sublist filter_sublist
  refine pairwise_map.mpr (hkeys.imp_of_mem fun {e e'} hmem hmem' hne heq => hne ?_)
  have hid : e.1.2 = id := of_decide_eq_true (mem_filter.mp hmem).2
  have hid' : e'.1.2 = id := of_decide_eq_true (mem_filter.mp hmem').2
  exact Prod.ext heq (hid.trans hid'.symm)

lemma sum_stakersOf (s : StakingStore) (id : ℕ) :
    ((s.stakersOf id).map (·.2.amount)).sum = s.stakeOf id := by
  unfold stakersOf stakeOf total
  induction s.stakes.entries with
  | nil => rfl
  | cons e entries ih =>
    by_cases hid : e.1.2 = id
    · simp only [filter_cons, hid, decide_true, if_true, map_cons, sum_cons, ih]
    · simp only [filter_cons, hid, decide_false, Bool.false_eq_true, if_false, map_cons,
        sum_cons, ih, Nat.zero_add]

/-! ### Arithmetic that does not overflow -/

lemma U64.wrappingAdd_of_lt {a b : ℕ} (h : a + b < 2 ^ 64) : wrappingAdd a b = a + b :=
  Nat.mod_eq_of_lt h

lemma U64.wrappingSub_of_le {a b : ℕ} (h : b ≤ a) (ha : a < 2 ^ 64) : wrappingSub a b = a - b := by
  unfold wrappingSub
  omega

lemma U64.foldl_wrappingAdd {amounts : List ℕ} {a : ℕ} (h : a + amounts.sum < 2 ^ 64) :
    amounts.foldl wrappingAdd a = a + amounts.sum := by
  induction amounts generalizing a with
  | nil => rfl
  | cons amount amounts ih =>
    rw [sum_cons, ← Nat.add_assoc] at h ⊢
    rw [foldl_cons, wrappingAdd_of_lt (by omega), ih h]

lemma U64.foldl_saturatingAdd {amounts : List ℕ} {a : ℕ} (h : a + amounts.sum < 2 ^ 64) :
    amounts.foldl saturatingAdd a = a + amounts.sum := by
  induction amounts generalizing a with
  | nil => rfl
  | cons amount amounts ih =>
    rw [sum_cons, ← Nat.add_assoc] at h ⊢
    have hsat : saturatingAdd a amount = a + amount := by
      unfold saturatingAdd
      omega
    rw [foldl_cons, hsat, ih h]

/-- A rate of at most one takes at most everything. -/
lemma U64.mulDiv_eq (amount : ℕ) {rate : ℕ} (hrate : rate ≤ 10000) (h : amount < 2 ^ 64) :
    mulDiv amount rate 10000 = amount * rate / 10000 ∧ mulDiv amount rate 10000 ≤ amount := by
  have hle : amount * rate / 10000 ≤ amount :=
    Nat.div_le_of_le_mul (by rw [Nat.mul_comm]; exact Nat.mul_le_mul_right amount hrate)
  have heq : mulDiv amount rate 10000 = amount * rate / 10000 :=
    Nat.mod_eq_of_lt (hle.trans_lt h)
  exact ⟨heq, heq ▸ hle⟩

/-! ### Charging the stakers -/

/-- What charging some stakers of a validator does to the store. -/
structure Charged (id : ℕ) (s : StakingStore) (charges : List (Bytes × ℕ)) (s' : StakingStore) :
    Prop where
  validators : s'.validators = s.validators
  unbondings : s'.unbondings = s.unbondings
  others : ∀ id', id' ≠ id → s'.stakeOf id' = s.stakeOf id'
  total : s'.stakeOf id + (charges.map Prod.snd).sum = s.stakeOf id
  each : ∀ p ∈ charges, s'.balance p.1 id + p.2 = s.balance p.1 id
  rest : ∀ staker, staker ∉ charges.map Prod.fst → s'.getStake staker id = s.getStake staker id

lemma Charged.refl (id : ℕ) (s : StakingStore) : Charged id s [] s :=
  ⟨rfl, rfl, fun _ _ => rfl, rfl, fun _ h => (not_mem_nil h).elim, fun _ _ => rfl⟩

/-- One more staker, who is charged at most the balance. -/
lemma Charged.cons {id : ℕ} {s s' : StakingStore} {charges : List (Bytes × ℕ)} {staker : Bytes}
    {charge : ℕ} (hle : charge ≤ s.balance staker id) (hnew : staker ∉ charges.map Prod.fst)
    (h : Charged id (writeStake s staker id (s.balance staker id - charge)) charges s') :
    Charged id s ((staker, charge) :: charges) s' where
  validators := h.validators.trans (validators_writeStake _ _ _ _)
  unbondings := h.unbondings.trans (unbondings_writeStake _ _ _ _)
  others id' hid := by
    have hwrite := stakeOf_writeStake s staker id (s.balance staker id - charge) id'
    rw [if_neg hid.symm, if_neg hid.symm] at hwrite
    exact (h.others id' hid).trans hwrite
  total := by
    have hwrite := stakeOf_writeStake s staker id (s.balance staker id - charge) id
    rw [if_pos rfl, if_pos rfl] at hwrite
    have htotal := h.total
    rw [map_cons, sum_cons]
    omega
  each p hp := by
    rcases mem_cons.mp hp with rfl | hp
    · rw [balance_congr (h.rest staker hnew), balance_writeStake]
      exact Nat.sub_add_cancel hle
    · have hne : p.1 ≠ staker := fun heq =>
        hnew (heq ▸ mem_map_of_mem (f := Prod.fst) hp)
      have heach := h.each p hp
      rwa [balance_congr (getStake_writeStake_ne s id _ hne)] at heach
  rest staker' hnot := by
    rw [map_cons, mem_cons, not_or] at hnot
    rw [h.rest staker' hnot.2, getStake_writeStake_ne s id _ hnot.1]

/-- **The loop over the stakers** charges the shares of the slash, each at most the
balance. -/
lemma chargeStakers_spec {id delSlash totalDel : ℕ} (hle : delSlash ≤ totalDel)
    (hfits : totalDel < 2 ^ 64) {stakers : List (Bytes × StakeEntry)} (cumulative : ℕ)
    {s : StakingStore} (hnodup : (stakers.map Prod.fst).Nodup)
    (hstakers : ∀ staker ∈ stakers, s.getStake staker.1 id = some staker.2)
    (hsum : cumulative + (stakers.map (·.2.amount)).sum ≤ totalDel) :
    let r := chargeStakers id delSlash totalDel stakers
      (Apportion.upTo delSlash totalDel cumulative) cumulative s
    Charged id s r.1 r.2 ∧ r.1.map Prod.fst = stakers.map Prod.fst ∧ r.1.map Prod.snd
        = Apportion.shares delSlash totalDel cumulative (stakers.map (·.2.amount)) := by
  induction stakers generalizing cumulative s with
  | nil => exact ⟨.refl id s, rfl, rfl⟩
  | cons staker stakers ih =>
    obtain ⟨addr, entry⟩ := staker
    rw [map_cons, nodup_cons] at hnodup
    rw [map_cons, sum_cons, ← Nat.add_assoc] at hsum
    dsimp only at hsum
    have hentry := hstakers _ mem_cons_self
    have hbalance : s.balance addr id = entry.amount := by rw [StakingStore.balance, hentry]; rfl
    -- nothing in the round overflows
    have hcum : wrappingAdd cumulative entry.amount = cumulative + entry.amount :=
      wrappingAdd_of_lt (by omega)
    have hupTo : Apportion.upTo delSlash totalDel (cumulative + entry.amount) ≤ delSlash :=
      Nat.div_le_of_le_mul (Nat.mul_le_mul_right _ (by omega))
    have hslash : mulDiv (cumulative + entry.amount) delSlash totalDel
        = Apportion.upTo delSlash totalDel (cumulative + entry.amount) :=
      Nat.mod_eq_of_lt (hupTo.trans_lt (by omega))
    have hmono := Apportion.upTo_mono delSlash totalDel (Nat.le_add_right cumulative entry.amount)
    have hshare := Apportion.upTo_add_le hle cumulative entry.amount
    have hdiff := wrappingSub_of_le hmono (hupTo.trans_lt (by omega))
    have hrest := @ih (cumulative + entry.amount) (writeStake s addr id (s.balance addr id
      - (Apportion.upTo delSlash totalDel (cumulative + entry.amount)
        - Apportion.upTo delSlash totalDel cumulative))) hnodup.2 (fun staker hmem => by
          have hlisted : staker.1 ∈ stakers.map Prod.fst := mem_map_of_mem hmem
          have hne : staker.1 ≠ addr := fun heq => hnodup.1 (heq ▸ hlisted)
          rw [getStake_writeStake_ne s id _ hne]
          exact hstakers staker (.tail _ hmem)) hsum
    dsimp only [chargeStakers]
    rw [hcum, hslash, hdiff, saturatingSub, ← hbalance]
    rw [hbalance] at hrest ⊢
    obtain ⟨hcharged, hfst, hsnd⟩ := hrest
    refine ⟨Charged.cons (by rw [hbalance]; omega) ?_ (by rw [hbalance]; exact hcharged), ?_, ?_⟩
    · rw [hfst]
      exact hnodup.1
    · rw [map_cons, map_cons, hfst]
    · rw [map_cons, hsnd]
      rfl

/-- **A slash of the delegations** takes the given amount from the stakers. -/
lemma slashDelegations_spec (id : ℕ) {delSlash : ℕ} {s : StakingStore}
    (hle : delSlash ≤ s.stakeOf id)
    (hfits : s.stakeOf id < 2 ^ 64) :
    let r := slashDelegations id delSlash s
    Charged id s r.1 r.2 ∧ (r.1.map Prod.snd).sum = delSlash := by
  unfold slashDelegations
  by_cases hzero : 0 < delSlash
  · have hperm := perm_insertionSort (fun a b : Bytes × StakeEntry => a.1 ≤ b.1) (s.stakersOf id)
    have hsum : (((s.stakersOf id).insertionSort fun a b => a.1 ≤ b.1).map (·.2.amount)).sum
        = s.stakeOf id := by
      rw [(hperm.map _).sum_eq, sum_stakersOf]
    have htotal : (((s.stakersOf id).insertionSort fun a b => a.1 ≤ b.1).map (·.2.amount)).foldl
        wrappingAdd 0 = s.stakeOf id := by
      rw [foldl_wrappingAdd (by rw [hsum, Nat.zero_add]; exact hfits), hsum, Nat.zero_add]
    dsimp only
    rw [if_pos hzero, htotal, if_pos (hzero.trans_le hle)]
    have hstart : Apportion.upTo delSlash (s.stakeOf id) 0 = 0 := by simp [Apportion.upTo]
    have hspec := chargeStakers_spec hle hfits 0
      ((hperm.map Prod.fst).nodup_iff.mpr (nodup_stakersOf s id))
      (fun staker hmem => mem_stakersOf.mp (hperm.subset hmem)) (by rw [hsum, Nat.zero_add])
    rw [hstart] at hspec
    obtain ⟨hcharged, -, hshares⟩ := hspec
    refine ⟨hcharged, ?_⟩
    have hshared := Apportion.sum_shares delSlash (s.stakeOf id) 0
      (((s.stakersOf id).insertionSort fun a b => a.1 ≤ b.1).map (·.2.amount))
    rw [hstart, Nat.zero_add, Nat.zero_add, hsum,
      Apportion.upTo_whole (hzero.trans_le hle)] at hshared
    rw [hshares, hshared]
  · dsimp only
    rw [if_neg hzero]
    exact ⟨.refl id s, by simp; omega⟩

section

variable (id : ℕ) {rate : ℕ} {entries : List UnbondingEntry} (hrate : rate ≤ 10000)
  (hfits : (entries.map (·.amount)).sum < 2 ^ 64)

include hrate hfits

lemma unbondingSlash_le (e : UnbondingEntry) (hmem : e ∈ entries) :
    unbondingSlash id rate e ≤ e.amount := by
  unfold unbondingSlash
  split_ifs
  · have hlt : e.amount < 2 ^ 64 :=
      (le_sum_of_mem (mem_map_of_mem hmem)).trans_lt hfits
    exact (mulDiv_eq e.amount hrate hlt).2
  · exact Nat.zero_le _

/-- **A slash of the unbondings** takes what it reports. -/
lemma slashUnbondings_spec : ((slashUnbondings id rate entries).1.map (·.amount)).sum
      + (slashUnbondings id rate entries).2 = (entries.map (·.amount)).sum := by
  have hone := unbondingSlash_le id hrate hfits
  have hsum : ((entries.map fun e => { e with
      amount := saturatingSub e.amount (unbondingSlash id rate e) : UnbondingEntry }).map
        (·.amount)).sum + (entries.map (unbondingSlash id rate)).sum
      = (entries.map (·.amount)).sum := by
    clear hfits
    induction entries with
    | nil => rfl
    | cons e entries ih =>
      have hrest := ih fun e hmem => hone e (.tail _ hmem)
      have hhead := hone e mem_cons_self
      simp only [map_cons, sum_cons, saturatingSub] at hrest ⊢
      omega
  have hfilter : ∀ entries : List UnbondingEntry,
      ((entries.filter fun e => 0 < e.amount).map (·.amount)).sum = (entries.map (·.amount)).sum :=
        by
    intro entries
    induction entries with
    | nil => rfl
    | cons e entries ih =>
      by_cases hpos : 0 < e.amount
      · rw [filter_cons_of_pos (by simpa using hpos), map_cons, sum_cons, ih, map_cons, sum_cons]
      · rw [filter_cons_of_neg (by simpa using hpos), ih, map_cons, sum_cons]
        omega
  unfold slashUnbondings
  dsimp only
  rw [hfilter, foldl_saturatingAdd (by omega), Nat.zero_add, hsum]

end

end Hotmint.Staking
