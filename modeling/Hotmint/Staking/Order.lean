/-
Staking does not depend on the iteration order of its store.

* `StakingStore.Same`: the same records, delegations and queue, in any order of the maps;
* `insertionSort_eq_of_perm`: sorting forgets an order that the keys tell apart;
* `Tied`, `Replies`: what the two managers of a comparison keep in common, call by call;
* `Call.replies`: **one call**;
* `Runs`: a run whose maps may iterate in another order at every call;
* `staking_ignores_order`: **two such runs answer alike**.
-/
import Hotmint.Staking.Updates

namespace Hotmint.Staking

open StakingManager StakingStore List

/-! ### Stores with the same contents -/

/-- The same validators, stakes and unbonding queue; the maps may iterate in another order. -/
structure StakingStore.Same (s s' : StakingStore) : Prop where
  validators : s'.validators.entries.Perm s.validators.entries
  stakes : s'.stakes.entries.Perm s.stakes.entries
  unbondings : s'.unbondings = s.unbondings

/-- Every record is stored under its own id. -/
def StakingStore.Keyed (s : StakingStore) : Prop :=
  ∀ id v, s.getValidator id = some v → v.id = id

/-- The stores of a comparison: the same contents, with the records under their ids if `P`. -/
structure Tied (P : Prop) (s s' : StakingStore) : Prop extends s.Same s' where
  keyed : P → s.Keyed

/-- Two calls that return the same and leave stores with the same contents. -/
inductive Replies (P : Prop) {α : Type} : α × StakingManager → α × StakingManager → Prop
  | intro {a : α} {c : StakingConfig} {s s' : StakingStore} (h : Tied P s s') :
      Replies P (a, ⟨s, c⟩) (a, ⟨s', c⟩)

namespace StakingStore.Same

variable {s s' s'' : StakingStore} (h : s.Same s')

include h

lemma symm : s'.Same s := ⟨h.validators.symm, h.stakes.symm, h.unbondings.symm⟩

lemma trans (h' : s'.Same s'') : s.Same s'' :=
  ⟨h'.validators.trans h.validators, h'.stakes.trans h.stakes, h'.unbondings.trans h.unbondings⟩

lemma getValidator (id : ℕ) : s'.getValidator id = s.getValidator id := AList.perm_lookup
    h.validators

lemma getStake (staker : Bytes) (id : ℕ) : s'.getStake staker id = s.getStake staker id :=
  AList.perm_lookup h.stakes

lemma allValidatorIds : s'.allValidatorIds.Perm s.allValidatorIds := h.validators.map _

/-- The records, in the order of the maps. -/
lemma records : (s'.allValidatorIds.filterMap s'.getValidator).Perm
    (s.allValidatorIds.filterMap s.getValidator) := by
  rw [funext h.getValidator]
  exact h.allValidatorIds.filterMap _

lemma stakersOf (id : ℕ) : (s'.stakersOf id).Perm (s.stakersOf id) := (h.stakes.filter _).map _

end StakingStore.Same

/-- **Sorting forgets the order** of elements that the order tells apart. -/
lemma insertionSort_eq_of_perm {α : Type*} (r : α → α → Prop) [DecidableRel r] [Std.Total r]
    [IsTrans α r] {l l' : List α} (h : l'.Perm l)
    (hanti : ∀ a ∈ l, ∀ b ∈ l, r a b → r b a → a = b) : l'.insertionSort r = l.insertionSort r := by
  refine Perm.eq_of_pairwise (fun a b ha hb => ?_) (pairwise_insertionSort r l')
    (pairwise_insertionSort r l)
    ((perm_insertionSort r l').trans (h.trans (perm_insertionSort r l).symm))
  exact hanti a (h.subset ((perm_insertionSort r l').subset ha)) b
    ((perm_insertionSort r l).subset hb)

/-- What a loop that removes stale validators leaves does not depend on its order. -/
lemma foldl_removeValidator (stale : ℕ → ValidatorState → Bool) (ids : List ℕ) (s : StakingStore) :
    let s' := ids.foldl (fun store id =>
      match store.getValidator id with
      | none => store
      | some v => if stale id v then store.removeValidator id else store) s
    s'.stakes = s.stakes ∧ s'.unbondings = s.unbondings
      ∧ ∀ id, s'.getValidator id = if id ∈ ids then (s.getValidator id).filter (!stale id ·)
        else s.getValidator id := by
  induction ids generalizing s with
  | nil => exact ⟨rfl, rfl, fun id => rfl⟩
  | cons first ids ih =>
    rw [foldl_cons]
    -- either the first one is removed, or it is not there to remove
    have hkept : (s.getValidator first).filter (!stale first ·) = s.getValidator first →
        ∀ id, (if id ∈ ids then (s.getValidator id).filter (!stale id ·) else s.getValidator id)
          = if id ∈ first :: ids then (s.getValidator id).filter (!stale id ·)
            else s.getValidator id := by
      intro hkept id
      by_cases heq : id = first
      · simp [heq, hkept]
      · simp [heq]
    cases hv : s.getValidator first with
    | none =>
      obtain ⟨hstakes, hunbondings, hget⟩ := ih s
      exact ⟨hstakes, hunbondings, fun id => (hget id).trans (hkept (by rw [hv]; rfl) id)⟩
    | some v =>
      dsimp only
      split_ifs with hstale
      · obtain ⟨hstakes, hunbondings, hget⟩ := ih (s.removeValidator first)
        refine ⟨hstakes, hunbondings, fun id => (hget id).trans ?_⟩
        by_cases heq : id = first
        · simp [heq, hv, hstale, Option.filter, getValidator_removeValidator]
        · simp [heq, getValidator_removeValidator]
      · obtain ⟨hstakes, hunbondings, hget⟩ := ih s
        exact ⟨hstakes, hunbondings, fun id => (hget id).trans
          (hkept (by simp [hv, hstale, Option.filter]) id)⟩

namespace Tied

variable {P : Prop} {s s' : StakingStore} {id : ℕ} {v v' : ValidatorState} (h : Tied P s s')

include h

lemma setValidator (hid : P → v.id = id) : Tied P (s.setValidator id v) (s'.setValidator id v) := by
  refine ⟨⟨AList.perm_insert h.validators, h.stakes, h.unbondings⟩, fun hP id' w hw => ?_⟩
  rw [getValidator_setValidator] at hw
  split_ifs at hw with heq
  · rw [heq, ← Option.some.inj hw, hid hP]
  · exact h.keyed hP id' w hw

/-- A known record written over. -/
lemma overwrite (hv : s.getValidator id = some v) (hid : v'.id = v.id) :
    Tied P (s.setValidator id v') (s'.setValidator id v') :=
  h.setValidator fun hP => hid.trans (h.keyed hP id v hv)

lemma removeValidator (id : ℕ) : Tied P (s.removeValidator id) (s'.removeValidator id) := by
  refine ⟨⟨AList.perm_erase h.validators, h.stakes, h.unbondings⟩, fun hP id' w hw => ?_⟩
  rw [getValidator_removeValidator] at hw
  split_ifs at hw
  exact h.keyed hP id' w hw

lemma setStake (staker : Bytes) (id : ℕ) (entry : StakeEntry) :
    Tied P (s.setStake staker id entry) (s'.setStake staker id entry) :=
  ⟨⟨h.validators, AList.perm_insert h.stakes, h.unbondings⟩, h.keyed⟩

lemma writeStake (staker : Bytes) (id amount : ℕ) :
    Tied P (writeStake s staker id amount) (writeStake s' staker id amount) := by
  unfold StakingManager.writeStake
  split_ifs
  · exact ⟨⟨h.validators, AList.perm_erase h.stakes, h.unbondings⟩, h.keyed⟩
  · exact h.setStake staker id _

lemma setUnbondings (entries : List UnbondingEntry) :
    Tied P { s with unbondings := entries } { s' with unbondings := entries } :=
  ⟨⟨h.validators, h.stakes, rfl⟩, h.keyed⟩

lemma pushUnbonding (entry : UnbondingEntry) :
    Tied P (s.pushUnbonding entry) (s'.pushUnbonding entry) :=
  ⟨⟨h.validators, h.stakes, congrArg (· ++ [entry]) h.unbondings⟩, h.keyed⟩

/-- The loop over the stakers writes the same entries. -/
lemma chargeStakers (id delSlash totalDel : ℕ) (stakers : List (Bytes × StakeEntry))
    (slashed cumulative : ℕ) : (chargeStakers id delSlash totalDel stakers slashed cumulative s').1
        = (chargeStakers id delSlash totalDel stakers slashed cumulative s).1
      ∧ Tied P (chargeStakers id delSlash totalDel stakers slashed cumulative s).2
        (chargeStakers id delSlash totalDel stakers slashed cumulative s').2 := by
  induction stakers generalizing slashed cumulative s s' with
  | nil => exact ⟨rfl, h⟩
  | cons staker stakers ih =>
    obtain ⟨addr, entry⟩ := staker
    obtain ⟨hcharges, hstores⟩ := ih (h.writeStake addr id _) _ _
    exact ⟨congrArg (_ :: ·) hcharges, hstores⟩

/-- **The distribution of a slash.**  The stakers are sorted by address before the loop rounds
their shares. -/
lemma slashDelegations (id delSlash : ℕ) :
    (slashDelegations id delSlash s').1 = (slashDelegations id delSlash s).1
      ∧ Tied P (slashDelegations id delSlash s).2 (slashDelegations id delSlash s').2 := by
  have hsorted : ((s'.stakersOf id).insertionSort fun a b => a.1 ≤ b.1)
      = (s.stakersOf id).insertionSort fun a b => a.1 ≤ b.1 := by
    have htotal : Std.Total fun a b : Bytes × StakeEntry => a.1 ≤ b.1 :=
      ⟨fun a b => List.le_total a.1 b.1⟩
    have htrans : IsTrans _ fun a b : Bytes × StakeEntry => a.1 ≤ b.1 :=
      ⟨fun a b c => List.le_trans⟩
    refine insertionSort_eq_of_perm _ (h.stakersOf id) fun a ha b hb hab hba => ?_
    exact inj_on_of_nodup_map (nodup_stakersOf s id) ha hb (List.le_antisymm hab hba)
  unfold StakingManager.slashDelegations
  rw [hsorted]
  split_ifs
  · dsimp only
    split_ifs
    · exact h.chargeStakers _ _ _ _ _ _
    · exact ⟨rfl, h⟩
  · exact ⟨rfl, h⟩

/-- **Pruning** looks at every validator, in the order of the map. -/
lemma removeStale (stale : ℕ → ValidatorState → Bool) :
    Tied P (s.allValidatorIds.foldl (fun store id =>
        match store.getValidator id with
        | none => store
        | some v => if stale id v then store.removeValidator id else store) s)
      (s'.allValidatorIds.foldl (fun store id =>
        match store.getValidator id with
        | none => store
        | some v => if stale id v then store.removeValidator id else store) s') := by
  obtain ⟨hstakes, hqueue, hget⟩ := foldl_removeValidator stale s.allValidatorIds s
  obtain ⟨hstakes', hqueue', hget'⟩ := foldl_removeValidator stale s'.allValidatorIds s'
  refine ⟨⟨lookup_ext (AList.nodupKeys _) (AList.nodupKeys _) fun id v => ?_, ?_, ?_⟩,
    fun hP id v hv => ?_⟩
  · change v ∈ StakingStore.getValidator _ id ↔ v ∈ StakingStore.getValidator _ id
    rw [hget, hget', h.getValidator]
    simp only [h.allValidatorIds.mem_iff]
  · rw [hstakes, hstakes']
    exact h.stakes
  · rw [hqueue, hqueue', h.unbondings]
  · rw [hget] at hv
    refine h.keyed hP id v ?_
    split_ifs at hv
    · exact (Option.filter_eq_some_iff.mp hv).1
    · exact hv

end Tied

/-! ### The calls -/

section Calls

variable {P : Prop} {s s' : StakingStore} {c : StakingConfig} (h : Tied P s s')

include h

lemma registerValidator_replies (id : ℕ) (pubkey : PublicKey) (selfStake : ℕ) :
    Replies P (registerValidator ⟨s, c⟩ id pubkey selfStake)
      (registerValidator ⟨s', c⟩ id pubkey selfStake) := by
  have hkey : validatePublicKey ⟨s', c⟩ pubkey = validatePublicKey ⟨s, c⟩ pubkey := by
    unfold validatePublicKey
    rw [h.records.any_eq]
  unfold registerValidator
  rw [hkey, h.getValidator]
  cases validatePublicKey ⟨s, c⟩ pubkey with
  | error err => split_ifs <;> exact ⟨h⟩
  | ok u =>
    split_ifs
    · exact ⟨h⟩
    · exact ⟨h⟩
    · exact ⟨h.setValidator fun _ => rfl⟩

lemma unregisterValidator_replies (id : ℕ) :
    Replies P (unregisterValidator ⟨s, c⟩ id) (unregisterValidator ⟨s', c⟩ id) := by
  unfold unregisterValidator hasPendingUnbondings
  rw [h.getValidator, h.unbondings]
  cases hv : s.getValidator id with
  | none => exact ⟨h⟩
  | some v =>
    dsimp only
    split_ifs
    · exact ⟨h⟩
    · exact ⟨h.overwrite hv rfl⟩
    · exact ⟨h.removeValidator id⟩

lemma delegate_replies (staker : Bytes) (validator amount : ℕ) :
    Replies P (delegate ⟨s, c⟩ staker validator amount)
      (delegate ⟨s', c⟩ staker validator amount) := by
  unfold delegate
  rw [h.getValidator]
  split_ifs
  · exact ⟨h⟩
  cases hv : s.getValidator validator with
  | none => exact ⟨h⟩
  | some v =>
    dsimp only
    split_ifs
    · exact ⟨h⟩
    cases U64.checkedAdd v.delegatedStake amount with
    | none => exact ⟨h⟩
    | some delegatedStake =>
      have hset : Tied P (s.setValidator validator { v with delegatedStake }) _ :=
        h.overwrite hv rfl
      dsimp only
      rw [hset.getStake]
      cases U64.checkedAdd _ amount with
      | none => exact ⟨hset⟩
      | some total => exact ⟨hset.setStake staker validator _⟩

lemma undelegate_replies (staker : Bytes) (validator amount height : ℕ) :
    Replies P (undelegate ⟨s, c⟩ staker validator amount height)
      (undelegate ⟨s', c⟩ staker validator amount height) := by
  unfold undelegate
  rw [h.getValidator, h.getStake]
  split_ifs
  · exact ⟨h⟩
  cases hv : s.getValidator validator with
  | none => exact ⟨h⟩
  | some v =>
    cases s.getStake staker validator with
    | none => exact ⟨h⟩
    | some entry =>
      dsimp only
      split_ifs
      · exact ⟨h⟩
      · have hwritten := h.writeStake staker validator (entry.amount - amount)
        refine ⟨(hwritten.setValidator ?_).pushUnbonding _⟩
        exact fun hP => h.keyed hP validator v hv

lemma rewardProposer_replies (proposer : ℕ) :
    Replies P (rewardProposer ⟨s, c⟩ proposer) (rewardProposer ⟨s', c⟩ proposer) := by
  unfold rewardProposer
  rw [h.getValidator]
  split_ifs
  · exact ⟨h⟩
  cases hv : s.getValidator proposer with
  | none => exact ⟨h⟩
  | some v =>
    dsimp only
    split_ifs
    · exact ⟨h⟩
    cases U64.checkedAdd v.selfStake c.blockReward with
    | none => exact ⟨h⟩
    | some selfStake => exact ⟨h.overwrite hv rfl⟩

lemma unjail_replies (id height : ℕ) :
    Replies P (unjail ⟨s, c⟩ id height) (unjail ⟨s', c⟩ id height) := by
  unfold unjail
  rw [h.getValidator]
  cases hv : s.getValidator id with
  | none => exact ⟨h⟩
  | some v =>
    dsimp only
    split_ifs
    iterate 3 exact ⟨h⟩
    exact ⟨h.overwrite hv rfl⟩

lemma slashWithEvidence_replies (id : ℕ) (evidenceId : Bytes) (reason : SlashReason)
    (height : ℕ) : Replies P (slashWithEvidence ⟨s, c⟩ id evidenceId reason height)
      (slashWithEvidence ⟨s', c⟩ id evidenceId reason height) := by
  unfold slashWithEvidence
  rw [h.getValidator]
  split_ifs
  · exact ⟨h⟩
  cases hv : s.getValidator id with
  | none => exact ⟨h⟩
  | some v =>
    dsimp only
    split_ifs
    · exact ⟨h⟩
    have hrate : slashRate ⟨s', c⟩ reason = slashRate ⟨s, c⟩ reason := by cases reason <;> rfl
    rw [hrate]
    obtain ⟨hcharges, hcharged⟩ := h.slashDelegations id
      (U64.mulDiv v.delegatedStake (slashRate ⟨s, c⟩ reason) 10000)
    have hqueue : ∀ w, ((StakingManager.slashDelegations id _ s').2.setValidator id w).unbondings
        = _ := fun _ => hcharged.unbondings
    rw [hcharges, hqueue]
    refine ⟨(hcharged.setValidator ?_).setUnbondings _⟩
    exact fun hP => h.keyed hP id v hv

lemma processUnbonding_replies (height : ℕ) :
    Replies P (processUnbonding ⟨s, c⟩ height) (processUnbonding ⟨s', c⟩ height) := by
  unfold processUnbonding drainMatureUnbondings pruneTombstonedValidators
  rw [h.unbondings]
  exact ⟨(h.setUnbondings _).removeStale _⟩

lemma rescored_replies (id : ℕ) (score : ValidatorState → ℕ) :
    Replies P ((), rescored ⟨s, c⟩ id score) ((), rescored ⟨s', c⟩ id score) := by
  unfold rescored
  rw [h.getValidator]
  cases hv : s.getValidator id with
  | none => exact ⟨h⟩
  | some v => exact ⟨h.overwrite hv rfl⟩

end Calls

/-- **The formal list** is sorted before it is cut. -/
lemma formalValidatorList_eq {P : Prop} {s s' : StakingStore} {c : StakingConfig} (h : Tied P s s')
    (hP : P) : formalValidatorList ⟨s', c⟩ = formalValidatorList ⟨s, c⟩ := by
  have hrecord : ∀ a ∈ (s.allValidatorIds.filterMap s.getValidator).filter (isActive ⟨s, c⟩),
      s.getValidator a.id = some a := by
    intro a ha
    obtain ⟨id, -, hget⟩ := mem_filterMap.mp (mem_filter.mp ha).1
    exact (h.keyed hP id a hget).symm ▸ hget
  have hsorted := insertionSort_eq_of_perm (fun a b => ranksBefore a b) (h.records.filter _)
    fun a ha b hb hab hba => Option.some.inj
      ((hrecord a ha).symm.trans ((ranksBefore_antisymm hab hba) ▸ hrecord b hb))
  exact congrArg (take c.maxValidators) hsorted

/-! ### Runs -/

/-- What a call returns. -/
def Call.Result : Call → Type
  | .register _ _ _ | .delegate _ _ _ | .undelegate _ _ _ _ | .unjail _ _ => Except StakingError
      Unit
  | .unregister _ | .reward _ => Except StakingError ℕ
  | .slash _ _ _ | .slashWithEvidence _ _ _ _ => Except StakingError Slashed
  | .processUnbonding _ => List UnbondingEntry
  | .incrementScore _ _ | .decrementScore _ _ => Unit

/-- A call: what it returns, and the manager it leaves. -/
def Call.run (m : StakingManager) : (call : Call) → call.Result × StakingManager
  | .register id pubkey selfStake => m.registerValidator id pubkey selfStake
  | .unregister id => m.unregisterValidator id
  | .delegate staker validator amount => m.delegate staker validator amount
  | .undelegate staker validator amount height => m.undelegate staker validator amount height
  | .slash id reason height => m.slash id reason height
  | .slashWithEvidence id evidenceId reason height =>
    m.slashWithEvidence id evidenceId reason height
  | .reward proposer => m.rewardProposer proposer
  | .processUnbonding height => m.processUnbonding height
  | .unjail id height => m.unjail id height
  | .incrementScore id delta => ((), m.incrementScore id delta)
  | .decrementScore id delta => ((), m.decrementScore id delta)

/-- **One call.** -/
lemma Call.replies {P : Prop} {s s' : StakingStore} (c : StakingConfig) (h : Tied P s s')
    (call : Call) : Replies P (call.run ⟨s, c⟩) (call.run ⟨s', c⟩) := by
  cases call with
  | register id pubkey selfStake => exact registerValidator_replies h id pubkey selfStake
  | unregister id => exact unregisterValidator_replies h id
  | delegate staker validator amount => exact delegate_replies h staker validator amount
  | undelegate staker validator amount height =>
    exact undelegate_replies h staker validator amount height
  | slash id reason height => exact slashWithEvidence_replies h id _ reason height
  | slashWithEvidence id evidenceId reason height =>
    exact slashWithEvidence_replies h id evidenceId reason height
  | reward proposer => exact rewardProposer_replies h proposer
  | processUnbonding height => exact processUnbonding_replies h height
  | unjail id height => exact unjail_replies h id height
  | incrementScore id _ | decrementScore id _ => exact rescored_replies h id _

/-- A run of calls, with what they return; before each of them the maps may come to iterate in
another order. -/
inductive Runs : StakingManager → List Call → List (Sigma Call.Result) → StakingManager → Prop
  | nil (m : StakingManager) : Runs m [] [] m
  | cons {s s₁ : StakingStore} {c : StakingConfig} {call : Call} {calls : List Call}
      {results : List (Sigma Call.Result)} {m : StakingManager} (hsame : s.Same s₁)
      (hrest : Runs (call.run ⟨s₁, c⟩).2 calls results m) :
      Runs ⟨s, c⟩ (call :: calls) (⟨call, (call.run ⟨s₁, c⟩).1⟩ :: results) m

/-- **Two runs of the same calls** on stores with the same contents. -/
lemma Runs.replies {P : Prop} {s s' : StakingStore} {c : StakingConfig} {calls : List Call}
    {results results' : List (Sigma Call.Result)} {m m' : StakingManager} (h : Tied P s s')
    (hrun : Runs ⟨s, c⟩ calls results m) (hrun' : Runs ⟨s', c⟩ calls results' m') :
    Replies P (results, m) (results', m') := by
  induction calls generalizing s s' c results results' with
  | nil =>
    cases hrun
    cases hrun'
    exact ⟨h⟩
  | cons call calls ih =>
    cases hrun with
    | @cons _ s₁ _ _ _ _ _ hsame hrest =>
      cases hrun' with
      | @cons _ s₁' _ _ _ _ _ hsame' hrest' =>
        have htied : Tied P s₁ s₁' := by
          refine ⟨hsame.symm.trans (h.toSame.trans hsame'), fun hP id v hv => ?_⟩
          exact h.keyed hP id v ((hsame.getValidator id).symm.trans hv)
        have hcall := call.replies c htied
        generalize call.run ⟨s₁, c⟩ = r at hrest hcall ⊢
        generalize call.run ⟨s₁', c⟩ = r' at hrest' hcall ⊢
        cases hcall with
        | intro hleft =>
          cases ih hleft hrest hrest' with
          | intro hend => exact ⟨hend⟩

/-- **Staking does not depend on the order of its store.**  Two managers with one
configuration start from stores with the same validators, stakes and unbonding queue, make
the same calls, and their maps iterate in any order at every call.  Then every result (the
errors, the amount each staker is slashed, the entries released) is the same, and so are the
contents afterwards; and where every record is stored under its own id, as
`register_validator` stores it, that stays so, and the formal lists and the validator updates
are the same. -/
theorem staking_ignores_order {c : StakingConfig} {s s' : StakingStore} (hsame : s.Same s')
    {calls : List Call} {results results' : List (Sigma Call.Result)} {m m' : StakingManager}
    (hrun : Runs ⟨s, c⟩ calls results m) (hrun' : Runs ⟨s', c⟩ calls results' m') :
    results = results' ∧ m.config = m'.config ∧ m.store.Same m'.store
      ∧ (s.Keyed → m.store.Keyed ∧ m.formalValidatorList = m'.formalValidatorList
        ∧ ∀ current, m.computeValidatorUpdates current = m'.computeValidatorUpdates current) := by
  cases hrun.replies ⟨hsame, id⟩ hrun' with
  | @intro _ c _ _ h =>
    refine ⟨rfl, rfl, h.toSame, fun hkeyed => ⟨h.keyed hkeyed, ?_⟩⟩
    have hformal := formalValidatorList_eq (c := c) h hkeyed
    refine ⟨hformal.symm, fun current => ?_⟩
    unfold computeValidatorUpdates
    rw [hformal]

/-- A validator with delegations of 20 in all. -/
def backed (id : ℕ) : ValidatorState := ⟨id, ⟨[]⟩, 1000, 20, 0, false, 0, false, []⟩

/-- Two validators, and two delegations to the first one. -/
def twoBacked (first second : ℕ) (staker staker' : Bytes) : StakingStore :=
  (((StakingStore.new.setValidator first (backed first)).setValidator second
    (backed second)).setStake
    staker 1 ⟨10⟩).setStake staker' 1 ⟨10⟩

/-- A slash of 1 over two equal delegations, met in either order. -/
theorem staking_ignores_order_slash :
    let m := (⟨twoBacked 1 2 [1] [2], {}⟩ : StakingManager)
    let m' := (⟨twoBacked 2 1 [2] [1], {}⟩ : StakingManager)
    let call := Call.slash 1 .doubleSign 5
    m.store.allValidatorIds = [2, 1] ∧ m'.store.allValidatorIds = [1, 2]
      ∧ (⟨call, (call.run m).1⟩ : Sigma Call.Result) = ⟨call, (call.run m').1⟩
      ∧ (call.run m).2.formalValidatorList = (call.run m').2.formalValidatorList := by
  intro m m' call
  have hsame : m.store.Same m'.store := ⟨.swap _ _ _, .swap _ _ _, rfl⟩
  have hkeyed : m.store.Keyed := by
    intro id v hv
    change ((StakingStore.new.setValidator 1 (backed 1)).setValidator 2 (backed 2)).getValidator id
      = some v at hv
    rw [getValidator_setValidator, getValidator_setValidator] at hv
    split_ifs at hv with h₂ h₁
    · cases hv
      exact h₂.symm
    · cases hv
      exact h₁.symm
    · cases hv
  have hself : ∀ s : StakingStore, s.Same s := fun s => ⟨.refl _, .refl _, rfl⟩
  have hrun : ∀ m : StakingManager, Runs m [call] [⟨call, (call.run m).1⟩] (call.run m).2 :=
    fun m => .cons (hself m.store) (.nil _)
  obtain ⟨hresults, -, -, hformal⟩ := staking_ignores_order hsame (hrun m) (hrun m')
  exact ⟨rfl, rfl, (cons.inj hresults).1, (hformal hkeyed).2.1⟩

end Hotmint.Staking
