/-
The updates that staking asks for.

* `mem_formalValidatorList`, `nodup_formalValidatorList`: the formal validators are active
  validators of the store, each once;
* `diff`, `mem_applyUpdates_diff`: what the updates make of the current set;
* `updates_reach_target`: **applied to the current set they give the formal validators**,
  and nothing is left to update;
* `updates_keep_set_iff`: they leave somebody in the set exactly when nobody is active or
  somebody active has stake;
* `updates_empty_set`: an active validator without stake empties it.
-/
import Hotmint.Staking.Slashable
import Hotmint.Types.ValidatorUpdates

namespace Hotmint.Staking

open StakingManager StakingStore ValidatorSet List
variable {m : StakingManager} {v f : ValidatorState} {formal : List ValidatorState}

/-- A validator as the validator set has it. -/
def ValidatorState.info (v : ValidatorState) : ValidatorInfo :=
  ⟨v.id, v.publicKey, v.votingPower⟩

/-! ### The formal list -/

section Formal

variable {m : StakingManager}

/-- The validators that may be in the set. -/
def StakingManager.Active (m : StakingManager) (v : ValidatorState) : Prop :=
  m.store.getValidator v.id = some v ∧ m.isActive v = true

/-- The list before it is sorted and cut. -/
lemma mem_active (h : m.store.Sound) :
    v ∈ (m.store.allValidatorIds.filterMap m.store.getValidator).filter m.isActive
      ↔ m.Active v := by
  rw [mem_filter, mem_filterMap]
  refine and_congr_left fun _ => ⟨?_, fun hv => ⟨v.id, ?_, hv⟩⟩
  · rintro ⟨id, -, hv⟩
    exact (h.ids id v hv).symm ▸ hv
  · exact AList.lookup_isSome.mp (Option.isSome_of_mem hv)

lemma mem_formalValidatorList (h : m.store.Sound)
    (hv : v ∈ m.formalValidatorList) : m.Active v := by
  have hsorted := mem_of_mem_take hv
  exact (mem_active h).mp ((perm_insertionSort _ _).subset hsorted)

lemma nodup_formalValidatorList (h : m.store.Sound) : (m.formalValidatorList.map (·.id)).Nodup := by
  have hstored : ((m.store.allValidatorIds.filterMap m.store.getValidator).map (·.id)).Nodup := by
    have hnodup : (m.store.allValidatorIds.filterMap m.store.getValidator).Nodup := by
      refine List.Nodup.filterMap (fun id id' v hv hv' => ?_) m.store.validators.keys_nodup
      exact (h.ids id v hv).symm.trans (h.ids id' v hv')
    refine hnodup.map_on fun v hv w hw hid => ?_
    obtain ⟨i, -, hv⟩ := mem_filterMap.mp hv
    obtain ⟨j, -, hw⟩ := mem_filterMap.mp hw
    have hij : i = j := ((h.ids i v hv).symm.trans hid).trans (h.ids j w hw)
    exact Option.some.inj (hv.symm.trans (hij ▸ hw))
  have hactive := hstored.sublist (filter_sublist (p := m.isActive).map _)
  have hsorted := ((perm_insertionSort (fun a b => ranksBefore a b) _).map
    (·.id)).nodup_iff.mpr hactive
  exact hsorted.sublist ((take_sublist _ _).map _)

lemma nodup_formal_keys (h : m.store.Sound) : (m.formalValidatorList.map (·.publicKey)).Nodup := by
  refine (List.Nodup.of_map _ (nodup_formalValidatorList h)).map_on fun v hv w hw hkey => ?_
  have hv := (mem_formalValidatorList h hv).1
  have hw := (mem_formalValidatorList h hw).1
  have hid := h.keys _ v _ w hv hw hkey
  exact Option.some.inj (hv.symm.trans (hid ▸ hw))

instance ranksBefore_total : Std.Total fun a b : ValidatorState => ranksBefore a b = true where
  total a b := by
    unfold ranksBefore
    simp only [Bool.or_eq_true, Bool.and_eq_true, decide_eq_true_eq]
    omega

instance ranksBefore_trans : IsTrans _ fun a b : ValidatorState => ranksBefore a b = true where
  trans a b c := by
    unfold ranksBefore
    simp only [Bool.or_eq_true, Bool.and_eq_true, decide_eq_true_eq]
    omega

/-- Equal powers are told apart by the ids. -/
lemma ranksBefore_antisymm {a b : ValidatorState} (h : ranksBefore a b = true)
    (h' : ranksBefore b a = true) : a.id = b.id := by
  unfold ranksBefore at h h'
  simp only [Bool.or_eq_true, Bool.and_eq_true, decide_eq_true_eq] at h h'
  omega

/-- The powers are compared first. -/
lemma votingPower_le_of_ranksBefore {a b : ValidatorState} (h : ranksBefore a b = true) :
    b.votingPower ≤ a.votingPower := by
  unfold ranksBefore at h
  simp only [Bool.or_eq_true, Bool.and_eq_true, decide_eq_true_eq] at h
  omega

/-- **The strongest active validator is in the formal list.** -/
lemma exists_formal_ge (h : m.store.Sound) (hmax : 0 < m.config.maxValidators) (hv : m.Active v) :
    ∃ f ∈ m.formalValidatorList, v.votingPower ≤ f.votingPower := by
  unfold formalValidatorList
  dsimp only
  set active := (m.store.allValidatorIds.filterMap m.store.getValidator).filter m.isActive
  have hsorted := pairwise_insertionSort (fun a b : ValidatorState => ranksBefore a b) active
  have hmem := (perm_insertionSort (fun a b : ValidatorState => ranksBefore a b) active).mem_iff.mpr
    ((mem_active h).mpr hv)
  obtain ⟨cut, hcut⟩ := Nat.exists_eq_succ_of_ne_zero (Nat.ne_of_gt hmax)
  rw [hcut]
  -- the first of the sorted list is kept, and it is at least as strong as the others
  cases hlist : active.insertionSort fun a b => ranksBefore a b with
  | nil =>
    rw [hlist] at hmem
    exact (not_mem_nil hmem).elim
  | cons f rest =>
    rw [hlist] at hmem hsorted
    refine ⟨f, .head _, ?_⟩
    rcases mem_cons.mp hmem with rfl | hmem
    · exact le_rfl
    · exact votingPower_le_of_ranksBefore (rel_of_pairwise_cons hsorted hmem)

end Formal

/-! ### The updates -/

/-- The power of the formal validators together. -/
def totalPowerOf (formal : List ValidatorState) : ℕ := sumPower (formal.map (·.info))

lemma totalVotingPower_eq (formal : List ValidatorState) {total : ℕ} (h : total < 2 ^ 64) :
    totalVotingPower formal total
      = if total + totalPowerOf formal < 2 ^ 64 then some (total + totalPowerOf formal)
        else none := by
  induction formal generalizing total with
  | nil => exact (if_pos h).symm
  | cons v formal ih =>
    have hcons : totalPowerOf (v :: formal) = v.votingPower + totalPowerOf formal :=
      sum_cons
    rw [totalVotingPower, hcons, ← Nat.add_assoc, U64.checkedAdd]
    by_cases hfits : total + v.votingPower < 2 ^ 64
    · rw [if_pos hfits]
      exact ih hfits
    · rw [if_neg hfits, if_neg (by omega)]

/-- The updates from the current set to the formal validators. -/
def diff (formal : List ValidatorState) (current : ValidatorSet) : List ValidatorUpdate :=
  (formal.filter fun vs => !(current.get vs.id).any fun v =>
      v.power = vs.votingPower && v.publicKey = vs.publicKey).map
        (fun vs => ⟨vs.id, vs.publicKey, vs.votingPower⟩)
    ++ (current.validators.filter fun vi => !formal.any (·.id = vi.id)).map
      (fun vi => ⟨vi.id, vi.publicKey, 0⟩)

/-- The two guards, and the updates. -/
lemma computeValidatorUpdates_eq (m : StakingManager) (current : ValidatorSet) :
    m.computeValidatorUpdates current
      = if m.formalValidatorList = [] ∨ 2 ^ 64 ≤ totalPowerOf m.formalValidatorList then []
        else diff m.formalValidatorList current := by
  unfold computeValidatorUpdates
  dsimp only
  rw [totalVotingPower_eq _ (Nat.two_pow_pos 64), Nat.zero_add]
  by_cases hempty : m.formalValidatorList = []
  · rw [if_pos (isEmpty_iff.mpr hempty), if_pos (.inl hempty)]
  · rw [if_neg fun h => hempty (isEmpty_iff.mp h)]
    by_cases hfits : totalPowerOf m.formalValidatorList < 2 ^ 64
    · rw [if_pos hfits, if_neg fun h => h.elim hempty (Nat.not_le_of_lt hfits)]
      rfl
    · rw [if_neg hfits, if_pos (.inr (Nat.le_of_not_lt hfits))]

section Diff

variable {formal : List ValidatorState} {current : ValidatorSet}

/-- A formal validator is left alone when the set has it as it is. -/
lemma unchanged_iff :
    ((current.get f.id).any fun v => v.power = f.votingPower && v.publicKey = f.publicKey) = true
      ↔ f.info ∈ current.validators := by
  rw [Option.any_eq_true]
  constructor
  · rintro ⟨v, hv, hsame⟩
    rw [Bool.and_eq_true, decide_eq_true_iff, decide_eq_true_iff] at hsame
    obtain ⟨hmem, hid⟩ := get_eq_some.mp hv
    have heq : v = f.info := by
      obtain ⟨id, publicKey, power⟩ := v
      dsimp only at hsame hid
      rw [ValidatorState.info, hid, hsame.1, hsame.2]
    exact heq ▸ hmem
  · intro hmem
    refine ⟨f.info, get_eq_some.mpr ⟨hmem, rfl⟩, ?_⟩
    rw [Bool.and_eq_true]
    exact ⟨decide_eq_true rfl, decide_eq_true rfl⟩

/-- The updates that are asked for. -/
lemma mem_diff {u : ValidatorUpdate} : u ∈ diff formal current ↔
      (∃ f ∈ formal, f.info ∉ current.validators ∧ u = ⟨f.id, f.publicKey, f.votingPower⟩)
        ∨ ∃ v ∈ current.validators, (∀ f ∈ formal, f.id ≠ v.id) ∧ u = ⟨v.id, v.publicKey, 0⟩ := by
  rw [diff, mem_append, mem_map, mem_map]
  refine or_congr (exists_congr fun f => ?_) (exists_congr fun v => ?_)
  · rw [mem_filter, Bool.not_eq_true', ← Bool.not_eq_true, unchanged_iff, and_assoc,
      eq_comm (a := u)]
  · rw [mem_filter, Bool.not_eq_true', ← Bool.not_eq_true, any_eq_true, and_assoc, eq_comm (a := u)]
    simp only [decide_eq_true_eq, not_exists, not_and, ne_eq]

/-- Every validator is updated once. -/
lemma nodup_diff (h : (formal.map (·.id)).Nodup) : ((diff formal current).map (·.id)).Nodup := by
  rw [diff, map_append, map_map, map_map]
  refine List.Nodup.append (h.sublist (filter_sublist.map _))
    (current.nodup_id.sublist (filter_sublist.map _)) fun id hid hid' => ?_
  obtain ⟨f, hf, rfl⟩ := mem_map.mp hid
  obtain ⟨v, hv, heq⟩ := mem_map.mp hid'
  have hnone := (mem_filter.mp hv).2
  rw [Bool.not_eq_true', ← Bool.not_eq_true, any_eq_true] at hnone
  exact hnone ⟨f, mem_of_mem_filter hf, decide_eq_true heq.symm⟩

/-- **What the updates make of the set**: the formal validators, but for those without
power that were not in it as they are. -/
lemma mem_applyUpdates_diff (h : (formal.map (·.id)).Nodup) {v : ValidatorInfo} :
    v ∈ (diff formal current).foldl applyUpdate current.validators ↔
      ∃ f ∈ formal, (f.info ∈ current.validators ∨ f.votingPower ≠ 0) ∧ f.info = v := by
  rw [mem_applyUpdates (nodup_diff h)]
  constructor
  · rintro (⟨hv, hnone⟩ | ⟨u, hu, hpower, rfl⟩)
    · -- a member that is not updated is formal, and is left alone
      by_cases hformal : ∃ f ∈ formal, f.id = v.id
      · obtain ⟨f, hf, hid⟩ := hformal
        by_cases hsame : f.info ∈ current.validators
        · exact ⟨f, hf, .inl hsame, inj_on_of_nodup_map current.nodup_id hsame hv hid⟩
        · exact (hnone _ (mem_diff.mpr (.inl ⟨f, hf, hsame, rfl⟩)) hid).elim
      · refine (hnone _ (mem_diff.mpr (.inr ⟨v, hv, ?_, rfl⟩)) rfl).elim
        exact fun f hf hid => hformal ⟨f, hf, hid⟩
    · rcases mem_diff.mp hu with ⟨f, hf, -, rfl⟩ | ⟨w, -, -, rfl⟩
      · exact ⟨f, hf, .inr hpower, rfl⟩
      · exact (hpower rfl).elim
  · rintro ⟨f, hf, hkept, rfl⟩
    by_cases hsame : f.info ∈ current.validators
    · refine .inl ⟨hsame, fun u hu hid => ?_⟩
      rcases mem_diff.mp hu with ⟨f', hf', hchanged, rfl⟩ | ⟨w, -, hnone, rfl⟩
      · obtain rfl := inj_on_of_nodup_map h hf' hf hid
        exact hchanged hsame
      · exact hnone f hf hid.symm
    · exact .inr ⟨_, mem_diff.mpr (.inl ⟨f, hf, hsame, rfl⟩), hkept.resolve_left hsame, rfl⟩

/-- The members afterwards, as a part of the formal list. -/
lemma perm_applyUpdates_diff (current : ValidatorSet) (h : (formal.map (·.id)).Nodup) :
    ((diff formal current).foldl applyUpdate current.validators).Perm
      ((formal.filter fun f => f.info ∈ current.validators ∨ f.votingPower ≠ 0).map (·.info)) := by
  have hnodup := List.Nodup.of_map _ (nodup_applyUpdates (diff formal current) current.nodup_id)
  have hids : ((formal.map (·.info)).map (·.id)).Nodup := by
    rw [map_map]
    exact h
  have hkept := (List.Nodup.of_map _ hids).sublist (filter_sublist
    (p := fun f : ValidatorState => f.info ∈ current.validators ∨ f.votingPower ≠ 0).map (·.info))
  refine (perm_ext_iff_of_nodup hnodup hkept).mpr fun v => ?_
  rw [mem_applyUpdates_diff h, mem_map]
  refine exists_congr fun f => ?_
  rw [mem_filter, decide_eq_true_iff, and_assoc]

lemma sumPower_perm {vs vs' : List ValidatorInfo} (h : vs.Perm vs') : sumPower vs = sumPower vs' :=
  (h.map _).sum_eq

lemma power_le_sumPower {vs : List ValidatorInfo} {v : ValidatorInfo} (h : v ∈ vs) :
    v.power ≤ sumPower vs :=
  le_sum_of_mem (mem_map_of_mem h)

/-- **The updates can be applied** when a formal validator has power. -/
lemma tryApplyUpdates_diff (current : ValidatorSet) (hids : (formal.map (·.id)).Nodup)
    (hkeys : (formal.map (·.publicKey)).Nodup)
    (hlength : ∀ f ∈ formal, f.publicKey.bytes.length = 32)
    (hfits : totalPowerOf formal < 2 ^ 64) (hf : f ∈ formal)
    (hpower : 0 < f.votingPower) : ∃ set, current.tryApplyUpdates (diff formal current) = .ok set
      ∧ set.validators = (diff formal current).foldl applyUpdate current.validators := by
  have hperm := perm_applyUpdates_diff current hids
  have hmember : f.info ∈ (diff formal current).foldl applyUpdate current.validators :=
    (mem_applyUpdates_diff hids).mpr ⟨f, hf, .inr (Nat.ne_of_gt hpower), rfl⟩
  refine tryNew_ok ?_ (fun _ => ?_) (nodup_applyUpdates _ current.nodup_id) ?_ ?_
  · rw [sumPower_perm hperm]
    refine Nat.lt_of_le_of_lt ?_ hfits
    exact ((filter_sublist.map _).map _).sum_le_sum fun _ _ => Nat.zero_le _
  · exact Nat.ne_of_gt (Nat.lt_of_lt_of_le hpower (power_le_sumPower hmember))
  · refine (hperm.map (·.publicKey)).nodup_iff.mpr ?_
    rw [map_map]
    exact hkeys.sublist (filter_sublist.map _)
  · intro v hv
    obtain ⟨f', hf', -, rfl⟩ := (mem_applyUpdates_diff hids).mp hv
    exact hlength f' hf'

end Diff

/-- The formal validators of a sound store can form a set. -/
lemma StakingStore.Sound.keyLength_formal (h : m.store.Sound) :
    ∀ f ∈ m.formalValidatorList, f.publicKey.bytes.length = 32 :=
  fun f hf => h.keyLength f.id f (mem_formalValidatorList h hf).1

/-- **The updates reach the formal validators.** -/
lemma tryApplyUpdates_reaches (h : m.store.Sound) (current : ValidatorSet)
    (hne : m.formalValidatorList ≠ []) (hpower : ∀ f ∈ m.formalValidatorList, 0 < f.votingPower)
    (hfits : totalPowerOf m.formalValidatorList < 2 ^ 64) :
    ∃ set, current.tryApplyUpdates (m.computeValidatorUpdates current) = .ok set
      ∧ set.validators.Perm (m.formalValidatorList.map (·.info)) := by
  obtain ⟨f, hf⟩ := exists_mem_of_ne_nil _ hne
  rw [computeValidatorUpdates_eq, if_neg fun hg => hg.elim hne (Nat.not_le_of_lt hfits)]
  obtain ⟨set, hset, hvalidators⟩ := tryApplyUpdates_diff current
    (nodup_formalValidatorList h) (nodup_formal_keys h) h.keyLength_formal hfits hf (hpower f hf)
  refine ⟨set, hset, ?_⟩
  rw [hvalidators]
  have hall : m.formalValidatorList.filter (fun f => f.info ∈ current.validators
      ∨ f.votingPower ≠ 0) = m.formalValidatorList :=
    filter_eq_self.mpr fun f hf => decide_eq_true (.inr (Nat.ne_of_gt (hpower f hf)))
  have hperm := perm_applyUpdates_diff current (nodup_formalValidatorList h)
  rwa [hall] at hperm

/-- Against a set that has the formal validators there is nothing to update. -/
lemma computeValidatorUpdates_of_perm {set : ValidatorSet}
    (hperm : set.validators.Perm (m.formalValidatorList.map (·.info))) :
    m.computeValidatorUpdates set = [] := by
  rw [computeValidatorUpdates_eq]
  split_ifs
  · rfl
  · refine eq_nil_iff_forall_not_mem.mpr fun u hu => ?_
    rcases mem_diff.mp hu with ⟨f, hf, hnew, -⟩ | ⟨v, hv, hnone, -⟩
    · exact hnew (hperm.mem_iff.mpr (mem_map_of_mem hf))
    · obtain ⟨f, hf, rfl⟩ := mem_map.mp (hperm.mem_iff.mp hv)
      exact hnone f hf rfl

/-- **Validator updates reach the staking target.**  In every state that calls can reach,
for every current set: when there are formal validators, all of them with power, and their
powers together fit, the updates can be applied, the set then has exactly the formal
validators with their keys and powers, and nothing is left to update. -/
theorem updates_reach_target {config : StakingConfig} (hconfig : config.validate = .ok ())
    (calls : List Call) (current : ValidatorSet)
    (hne : ((Books.new config).performAll calls).manager.formalValidatorList ≠ [])
    (hpower : ∀ f ∈ ((Books.new config).performAll calls).manager.formalValidatorList,
      0 < f.votingPower)
    (hfits : ((((Books.new config).performAll calls).manager.formalValidatorList).map
      (·.votingPower)).sum < 2 ^ 64) :
    let m := ((Books.new config).performAll calls).manager
    ∃ set, current.tryApplyUpdates (m.computeValidatorUpdates current) = .ok set
      ∧ set.validators.Perm (m.formalValidatorList.map fun f => ⟨f.id, f.publicKey, f.votingPower⟩)
      ∧ m.computeValidatorUpdates set = [] := by
  intro m
  have hsound := (Books.sound_performAll hconfig calls).2
  have htotal : totalPowerOf m.formalValidatorList < 2 ^ 64 := by
    unfold totalPowerOf sumPower
    rw [map_map]
    exact hfits
  obtain ⟨set, hset, hperm⟩ := tryApplyUpdates_reaches hsound current hne hpower htotal
  exact ⟨set, hset, hperm, computeValidatorUpdates_of_perm hperm⟩

/-- A set of two validators, one with the key of a validator that staking knows under
another id. -/
def twoMembers : ValidatorSet where
  validators := [⟨0, ⟨replicate 32 1⟩, 1000⟩, ⟨9, ⟨replicate 32 9⟩, 5⟩]
  total_lt := by decide
  total_ne_zero := by decide
  nodup_id := by decide
  nodup_key := by decide
  key_length := by decide

/-- A key is taken over from a member that changes its own, one member is new and one is
removed. -/
theorem updates_reach_target_rotation :
    let calls : List Call := [.register 1 ⟨replicate 32 1⟩ 3000,
      .register 0 ⟨replicate 32 2⟩ 1000, .delegate [1] 0 500]
    let m := ((Books.new {}).performAll calls).manager
    m.formalValidatorList.map (fun f => (f.id, f.votingPower)) = [(1, 3000), (0, 1500)]
      ∧ ∃ set, twoMembers.tryApplyUpdates (m.computeValidatorUpdates twoMembers) = .ok set
        ∧ set.validators.Perm
          (m.formalValidatorList.map fun f => ⟨f.id, f.publicKey, f.votingPower⟩)
        ∧ m.computeValidatorUpdates set = [] := by
  intro calls m
  refine ⟨by decide +kernel, ?_⟩
  exact updates_reach_target (by decide) calls twoMembers (by decide +kernel) (by decide +kernel)
    (by decide +kernel)

/-! ### Who is left in the set -/

lemma votingPower_of_isActive (h : m.isActive v = true) : v.votingPower = v.totalStake := by
  unfold isActive at h
  rw [Bool.and_eq_true, Bool.and_eq_true, Bool.not_eq_true', Bool.not_eq_true'] at h
  rw [ValidatorState.votingPower, h.1.1, h.1.2]
  rfl

lemma tryApplyUpdates_nil (current : ValidatorSet) (h : current.validators ≠ []) :
    ∃ set, current.tryApplyUpdates [] = .ok set ∧ set.validators ≠ [] :=
  ⟨current, current.tryNew_self, h⟩

/-- When no formal validator has power, nobody is left. -/
lemma applyUpdates_powerless {current set : ValidatorSet}
    (h : (formal.map (·.id)).Nodup) (hzero : ∀ f ∈ formal, f.votingPower = 0)
    (hset : current.tryApplyUpdates (diff formal current) = .ok set) : set.validators = [] := by
  have hvalidators := tryNew_validators hset
  by_contra hne
  refine set.total_ne_zero hne (sum_eq_zero fun power hpower => ?_)
  obtain ⟨v, hv, rfl⟩ := mem_map.mp hpower
  rw [hvalidators] at hv
  obtain ⟨f, hf, -, rfl⟩ := (mem_applyUpdates_diff h).mp hv
  exact hzero f hf

lemma totalPowerOf_eq_zero (h : ∀ f ∈ formal, f.votingPower = 0) :
    totalPowerOf formal = 0 := by
  refine sum_eq_zero fun power hpower => ?_
  obtain ⟨v, hv, rfl⟩ := mem_map.mp hpower
  obtain ⟨f, hf, rfl⟩ := mem_map.mp hv
  exact h f hf

/-- **When the updates leave somebody in the set.**  In every state that calls can reach,
for every non-empty current set: the updates give a non-empty set exactly when no validator
is active, or an active one has stake. -/
theorem updates_keep_set_iff {config : StakingConfig} (hconfig : config.validate = .ok ())
    (calls : List Call) (current : ValidatorSet) (hcurrent : current.validators ≠ []) :
    let m := ((Books.new config).performAll calls).manager
    (∃ set, current.tryApplyUpdates (m.computeValidatorUpdates current) = .ok set
        ∧ set.validators ≠ [])
      ↔ (∀ id v, m.store.getValidator id = some v → m.isActive v = false)
        ∨ ∃ id v, m.store.getValidator id = some v ∧ m.isActive v = true ∧ 0 < v.totalStake := by
  intro m
  obtain ⟨hm, hsound⟩ := Books.sound_performAll hconfig calls
  have hmax : 0 < m.config.maxValidators := by
    unfold StakingConfig.validate at hconfig
    split_ifs at hconfig with hzero
    rw [hm]
    exact Nat.pos_of_ne_zero hzero
  constructor
  · rintro ⟨set, hset, hne⟩
    by_contra hnone
    rw [not_or] at hnone
    obtain ⟨hsome, hnone⟩ := hnone
    push Not at hsome hnone
    obtain ⟨id, v, hv, hactive⟩ := hsome
    -- every active validator is without stake, so every formal one is without power
    have hzero : ∀ f ∈ m.formalValidatorList, f.votingPower = 0 := by
      intro f hf
      obtain ⟨hget, hf⟩ := mem_formalValidatorList hsound hf
      rw [votingPower_of_isActive hf]
      exact Nat.le_zero.mp (hnone f.id f hget hf)
    have hmember : m.Active v :=
      ⟨(hsound.ids id v hv).symm ▸ hv, Bool.eq_true_of_not_eq_false hactive⟩
    obtain ⟨f, hf, -⟩ := exists_formal_ge hsound hmax hmember
    have hformal : m.formalValidatorList ≠ [] := ne_nil_of_mem hf
    have htotal := totalPowerOf_eq_zero hzero
    rw [computeValidatorUpdates_eq, if_neg fun hg => hg.elim hformal (by rw [htotal]; decide)]
      at hset
    exact hne (applyUpdates_powerless (nodup_formalValidatorList hsound) hzero hset)
  · rw [computeValidatorUpdates_eq]
    split_ifs with hguard
    · exact fun _ => tryApplyUpdates_nil current hcurrent
    · obtain ⟨hformal, hfits⟩ := not_or.mp hguard
      rintro (hnone | ⟨id, v, hv, hactive, hstake⟩)
      · obtain ⟨f, hf⟩ := exists_mem_of_ne_nil _ hformal
        obtain ⟨hget, hf⟩ := mem_formalValidatorList hsound hf
        exact absurd hf (Bool.eq_false_iff.mp (hnone f.id f hget))
      · have hmember : m.Active v := ⟨(hsound.ids id v hv).symm ▸ hv, hactive⟩
        obtain ⟨f, hf, hle⟩ := exists_formal_ge hsound hmax hmember
        rw [votingPower_of_isActive hactive] at hle
        have hpower : 0 < f.votingPower := Nat.lt_of_lt_of_le hstake hle
        obtain ⟨set, hset, hvalidators⟩ := tryApplyUpdates_diff current
          (nodup_formalValidatorList hsound) (nodup_formal_keys hsound) hsound.keyLength_formal
          (Nat.lt_of_not_le hfits) hf hpower
        have hleft : f.info ∈ set.validators := by
          rw [hvalidators]
          exact (mem_applyUpdates_diff (nodup_formalValidatorList hsound)).mpr
            ⟨f, hf, .inr (Nat.ne_of_gt hpower), rfl⟩
        exact ⟨set, hset, ne_nil_of_mem hleft⟩

/-- With a positive minimum, an active validator has stake. -/
theorem updates_keep_set_iff_default :
    let m := ((Books.new {}).performAll [.register 1 ⟨replicate 32 1⟩ 1000]).manager
    ∃ set, twoMembers.tryApplyUpdates (m.computeValidatorUpdates twoMembers) = .ok set
      ∧ set.validators ≠ [] := by
  intro m
  refine (updates_keep_set_iff (by decide) [.register 1 ⟨replicate 32 1⟩ 1000] twoMembers
    (by decide)).mpr (.inr ⟨1, ⟨1, ⟨replicate 32 1⟩, 1000, 0, 10000, false, 0, false, []⟩, ?_⟩)
  exact ⟨by decide +kernel, by decide +kernel, by decide⟩

/-- **An active validator without stake empties the set**: a minimum self-stake of zero is a
valid configuration, and then the formal list is not empty but nobody in it has power. -/
theorem updates_empty_set :
    let config : StakingConfig := { minSelfStake := 0 }
    let m := ((Books.new config).performAll [.register 1 ⟨replicate 32 1⟩ 0]).manager
    config.validate = .ok () ∧ m.formalValidatorList.length = 1 ∧ twoMembers.validators ≠ []
      ∧ m.computeValidatorUpdates twoMembers
        = [⟨1, ⟨replicate 32 1⟩, 0⟩, ⟨0, ⟨replicate 32 1⟩, 0⟩, ⟨9, ⟨replicate 32 9⟩, 0⟩]
      ∧ (twoMembers.tryApplyUpdates (m.computeValidatorUpdates twoMembers)).map (·.validators)
        = .ok [] := by
  intro config m
  exact ⟨by decide, by decide +kernel, by decide, by decide +kernel, by decide +kernel⟩

end Hotmint.Staking
