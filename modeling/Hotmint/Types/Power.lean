/-
Voting power in machine arithmetic (`quorum_threshold`, `max_faulty_power` and
`leader_for_view` of `hotmint-types/src/validator.rs`, `has_quorum` of
`hotmint-crypto/src/aggregate.rs`).

* `ValidatorSet.quorumThresholdU64`, `hasQuorumU64`, `leaderForViewU64`: the functions with
  the word sizes of the source, whose sums and casts could wrap or fail;
* `quorumThresholdU64_eq`, `hasQuorumU64_eq`, `leaderForViewU64_eq`: **they never do**, so
  they compute what the rest of the development uses;
* `ValidatorSet.quorum_intersection`: two quorums share more than the faulty power;
* `ValidatorSet.fair_rotation`: each validator leads as often as its power.
-/
import Hotmint.Library.Slots
import Hotmint.Types.Crypto
import Hotmint.Types.ValidatorUpdates

namespace Hotmint

open List

/-! ### The power of signers -/

lemma signedPower_cons (bit : Bool) (bits : List Bool) (vi : ValidatorInfo)
    (validators : List ValidatorInfo) : signedPower (bit :: bits) (vi :: validators)
      = (if bit then vi.power else 0) + signedPower bits validators := by
  cases bit <;> simp [signedPower, sumPower]

@[simp] lemma signedPower_nil_right (bits : List Bool) : signedPower bits [] = 0 := by
  simp [signedPower, sumPower]

@[simp] lemma signedPower_nil_left (validators : List ValidatorInfo) :
    signedPower [] validators = 0 := rfl

lemma sumPower_cons (vi : ValidatorInfo) (validators : List ValidatorInfo) :
    sumPower (vi :: validators) = vi.power + sumPower validators := sum_cons

/-- A new bit adds the power of its validator. -/
lemma signedPower_set {bits : List Bool} {validators : List ValidatorInfo} {idx : ℕ}
    {vi : ValidatorInfo} (hbit : bits[idx]? = some false) (hvi : validators[idx]? = some vi) :
    signedPower (bits.set idx true) validators = signedPower bits validators + vi.power := by
  induction bits generalizing idx validators with
  | nil => cases hbit
  | cons bit bits ih =>
    cases validators with
    | nil => cases hvi
    | cons v validators =>
      cases idx with
      | zero =>
        obtain rfl : bit = false := Option.some.inj hbit
        obtain rfl : v = vi := Option.some.inj hvi
        rw [set_cons_zero, signedPower_cons, signedPower_cons, if_pos rfl]
        simp [Nat.add_comm]
      | succ idx =>
        rw [set_cons_succ, signedPower_cons, signedPower_cons, ih hbit hvi]
        omega

lemma signedPower_replicate (n : ℕ) (validators : List ValidatorInfo) :
    signedPower (replicate n false) validators = 0 := by
  induction n generalizing validators with
  | zero => rfl
  | succ n ih =>
    cases validators with
    | nil => rfl
    | cons v validators =>
      rw [replicate_succ, signedPower_cons, ih]
      rfl

/-- The signers have at most the total power. -/
lemma signedPower_le (bits : List Bool) (validators : List ValidatorInfo) :
    signedPower bits validators ≤ sumPower validators := by
  induction validators generalizing bits with
  | nil => simp
  | cons vi validators ih =>
    cases bits with
    | nil => simp
    | cons bit bits =>
      have hrest := ih bits
      rw [signedPower_cons, sumPower_cons]
      split_ifs <;> omega

/-- Inclusion and exclusion for two bitfields. -/
lemma signedPower_add_le (bits bits' : List Bool) (validators : List ValidatorInfo) :
    signedPower bits validators + signedPower bits' validators
      ≤ sumPower validators + signedPower (zipWith (· && ·) bits bits') validators := by
  induction validators generalizing bits bits' with
  | nil => simp
  | cons vi validators ih =>
    rcases bits with _ | ⟨bit, bits⟩
    · have hle := signedPower_le bits' (vi :: validators)
      simpa using hle
    rcases bits' with _ | ⟨bit', bits'⟩
    · have hle := signedPower_le (bit :: bits) (vi :: validators)
      simpa using hle
    have hrest := ih bits bits'
    rw [zipWith_cons_cons, signedPower_cons, signedPower_cons, signedPower_cons, sumPower_cons]
    cases bit <;> cases bit' <;> simp only [Bool.and_self, Bool.and_true, Bool.and_false,
      if_true, Bool.false_eq_true, if_false] <;> omega

/-- The loop of `has_quorum`: the checked `u64` sum of the powers of the set bits, from
`power`; a set bit beyond the set counts nothing. -/
def countSigned : List Bool → List ValidatorInfo → ℕ → Option ℕ
  | [], _, power => some power
  | _ :: bits, [], power => countSigned bits [] power
  | false :: bits, _ :: validators, power => countSigned bits validators power
  | true :: bits, vi :: validators, power =>
    if power + vi.power < 2 ^ 64 then countSigned bits validators (power + vi.power) else none

/-- The checked sum never fails on a list whose total fits. -/
lemma countSigned_eq {bits : List Bool} {validators : List ValidatorInfo} {power : ℕ}
    (h : power + sumPower validators < 2 ^ 64) :
    countSigned bits validators power = some (power + signedPower bits validators) := by
  induction bits generalizing validators power with
  | nil => simp [countSigned]
  | cons bit bits ih =>
    cases validators with
    | nil =>
      rw [countSigned, ih h]
      simp
    | cons vi validators =>
      rw [sumPower_cons] at h
      rw [signedPower_cons]
      cases bit with
      | false =>
        rw [countSigned, ih (by omega)]
        simp
      | true =>
        rw [countSigned, if_pos (by omega), ih (by omega), if_pos rfl, Nat.add_assoc]

namespace ValidatorSet

variable (vs : ValidatorSet)

/-! ### Quorums -/

/-- `quorum_threshold`: the product and the sum in `u128`, then a cast to `u64`. -/
def quorumThresholdU64 : ℕ := (vs.totalPower * 2 % 2 ^ 128 / 3 + 1) % 2 ^ 128 % 2 ^ 64

/-- `max_faulty_power`, from the cast threshold. -/
def maxFaultyPowerU64 : ℕ := vs.totalPower - vs.quorumThresholdU64

/-- `has_quorum`: no quorum when the checked sum fails. -/
def hasQuorumU64 (agg : AggregateSignature) : Bool :=
  match countSigned agg.signers vs.validators 0 with
  | some power => vs.quorumThresholdU64 ≤ power
  | none => false

lemma totalPower_lt : vs.totalPower < 2 ^ 64 := vs.total_lt

lemma totalPower_pos {vs : ValidatorSet} (h : vs.validators ≠ []) : 0 < vs.totalPower :=
  Nat.pos_of_ne_zero (vs.total_ne_zero h)

/-- The threshold is the exact one: nothing is cut off. -/
lemma quorumThresholdU64_eq : vs.quorumThresholdU64 = vs.quorumThreshold := by
  have hlt := vs.totalPower_lt
  unfold quorumThresholdU64 quorumThreshold
  rw [Nat.mod_eq_of_lt (a := vs.totalPower * 2) (by omega), Nat.mod_eq_of_lt (b := 2 ^ 128)
    (by omega), Nat.mod_eq_of_lt (by omega)]

lemma maxFaultyPowerU64_eq : vs.maxFaultyPowerU64 = vs.maxFaultyPower := by
  rw [maxFaultyPowerU64, quorumThresholdU64_eq, maxFaultyPower]

lemma countSigned_validators (signers : List Bool) :
    countSigned signers vs.validators 0 = some (signedPower signers vs.validators) := by
  rw [countSigned_eq (by rw [Nat.zero_add]; exact vs.total_lt), Nat.zero_add]

/-- **The checked count is the exact one.** -/
lemma hasQuorumU64_eq (agg : AggregateSignature) : vs.hasQuorumU64 agg = hasQuorum vs agg := by
  rw [hasQuorumU64, countSigned_validators, hasQuorum, quorumThresholdU64_eq]

/-- **Weighted quorum intersection.**  Two signer sets with a quorum share more than the
faulty power, three times the faulty power is below the total, a quorum can be reached, and
every sum and cast on the way is exact: the total, the threshold with its `u128` product, and
the count of any signer set. -/
theorem quorum_intersection (hne : vs.validators ≠ []) :
    (∀ agg agg' : AggregateSignature, vs.hasQuorumU64 agg = true → vs.hasQuorumU64 agg' = true →
      vs.maxFaultyPowerU64 < signedPower (zipWith (· && ·) agg.signers agg'.signers) vs.validators)
    ∧ 3 * vs.maxFaultyPowerU64 < vs.totalPower ∧ vs.quorumThresholdU64 ≤ vs.totalPower
    ∧ computeTotalPower vs.validators 0 = .ok vs.totalPower
    ∧ vs.totalPower * 2 < 2 ^ 128 ∧ vs.totalPower * 2 / 3 + 1 < 2 ^ 64
    ∧ vs.quorumThresholdU64 = vs.totalPower * 2 / 3 + 1
    ∧ vs.maxFaultyPowerU64 + vs.quorumThresholdU64 = vs.totalPower
    ∧ ∀ signers, countSigned signers vs.validators 0
        = some (signedPower signers vs.validators) := by
  have hpos : 0 < vs.totalPower := totalPower_pos hne
  have hlt := vs.totalPower_lt
  have hthreshold : vs.quorumThresholdU64 = vs.totalPower * 2 / 3 + 1 := vs.quorumThresholdU64_eq
  have hfaulty : vs.maxFaultyPowerU64 = vs.totalPower - (vs.totalPower * 2 / 3 + 1) :=
    vs.maxFaultyPowerU64_eq
  have htotal : computeTotalPower vs.validators 0 = .ok vs.totalPower := by
    rw [computeTotalPower_of_lt (by rw [Nat.zero_add]; exact vs.total_lt), Nat.zero_add]
    rfl
  refine ⟨?_, by omega, by omega, htotal, by omega, by omega, hthreshold, by omega,
    vs.countSigned_validators⟩
  intro agg agg' hquorum hquorum'
  rw [hasQuorumU64_eq] at hquorum hquorum'
  have hpower : vs.totalPower * 2 / 3 + 1 ≤ signedPower agg.signers vs.validators :=
    of_decide_eq_true hquorum
  have hpower' : vs.totalPower * 2 / 3 + 1 ≤ signedPower agg'.signers vs.validators :=
    of_decide_eq_true hquorum'
  have hcommon : signedPower agg.signers vs.validators + signedPower agg'.signers vs.validators
      ≤ vs.totalPower + signedPower (zipWith (· && ·) agg.signers agg'.signers) vs.validators :=
    signedPower_add_le agg.signers agg'.signers vs.validators
  omega

theorem quorum_intersection_weighted : weighted.validators ≠ [] ∧ weighted.maxFaultyPowerU64 = 33
    ∧ 33 < signedPower [false, false, false, true] weighted.validators :=
  ⟨by decide, by decide, (quorum_intersection weighted (by decide)).1
    ⟨[true, false, false, true], []⟩ ⟨[false, true, true, true], []⟩ (by decide) (by decide)⟩

/-! ### Leaders -/

/-- The scan of `leader_for_view` with its `u64` sum, which wraps. -/
def leaderAtU64 : List ValidatorInfo → ℕ → ℕ → Option ValidatorInfo
  | [], _, _ => none
  | v :: vs, cumulative, slot =>
    if slot < (cumulative + v.power) % 2 ^ 64 then some v
    else leaderAtU64 vs ((cumulative + v.power) % 2 ^ 64) slot

/-- `leader_for_view`, with the sum of the source. -/
def leaderForViewU64 (view : ℕ) : Option ValidatorInfo :=
  if vs.validators = [] ∨ vs.totalPower = 0 then none
  else
    match leaderAtU64 vs.validators 0 (view % vs.totalPower) with
    | some v => some v
    | none => vs.validators.getLast?

/-- The sum never wraps on a list whose total fits. -/
lemma leaderAtU64_eq {validators : List ValidatorInfo} {cumulative : ℕ}
    (h : cumulative + sumPower validators < 2 ^ 64) (slot : ℕ) :
    leaderAtU64 validators cumulative slot = leaderAt validators cumulative slot := by
  induction validators generalizing cumulative with
  | nil => rfl
  | cons v validators ih =>
    rw [sumPower_cons, ← Nat.add_assoc] at h
    rw [leaderAtU64, leaderAt, Nat.mod_eq_of_lt (by omega), ih h]

lemma leaderForViewU64_eq (view : ℕ) : vs.leaderForViewU64 view = vs.leaderForView view := by
  rw [leaderForViewU64, leaderAtU64_eq (by rw [Nat.zero_add]; exact vs.total_lt)]
  rfl

/-- The scan is the search for the owner of a slot. -/
lemma leaderAt_eq_owner (validators : List ValidatorInfo) (cumulative slot : ℕ) :
    leaderAt validators cumulative slot = Slots.owner (·.power) validators cumulative slot := by
  induction validators generalizing cumulative with
  | nil => rfl
  | cons v validators ih => rw [leaderAt, Slots.owner, ih]

/-- The scan finds a leader for every view. -/
lemma leaderAt_isSome {vs : ValidatorSet} (hne : vs.validators ≠ []) (view : ℕ) :
    (leaderAt vs.validators 0 (view % vs.totalPower)).isSome = true := by
  rw [leaderAt_eq_owner]
  refine Slots.owner_isSome _ ?_ hne
  rw [Nat.zero_add]
  exact Nat.mod_lt view (totalPower_pos hne)

/-- **The leader of a view owns its slot.** -/
lemma leaderForView_eq_owner {vs : ValidatorSet} (hne : vs.validators ≠ []) (view : ℕ) :
    vs.leaderForView view = Slots.owner (·.power) vs.validators 0 (view % vs.totalPower) := by
  obtain ⟨v, hv⟩ := Option.isSome_iff_exists.mp (leaderAt_isSome hne view)
  rw [leaderForView, if_neg (not_or.mpr ⟨hne, (totalPower_pos hne).ne'⟩), hv,
    ← leaderAt_eq_owner, hv]

/-- **Fair leader rotation.**  In a window of as many consecutive views as the total power,
every validator leads as many views as its power; one without power never leads; no prefix of
the powers overflows, and the scan never falls through to the last validator. -/
theorem fair_rotation (hne : vs.validators ≠ []) : (∀ start, ∀ v ∈ vs.validators,
      ((Finset.Ico start (start + vs.totalPower)).filter
        fun view => vs.leaderForViewU64 view = some v).card = v.power)
    ∧ (∀ view v, vs.leaderForViewU64 view = some v → v ∈ vs.validators ∧ 0 < v.power)
    ∧ (∀ front, front <+: vs.validators → sumPower front < 2 ^ 64)
    ∧ ∀ view, (leaderAtU64 vs.validators 0 (view % vs.totalPower)).isSome = true := by
  refine ⟨?_, ?_, ?_, ?_⟩
  · intro start v hv
    simp only [leaderForViewU64_eq, leaderForView_eq_owner hne]
    exact Slots.card_window _ (.of_map _ vs.nodup_id) hv start
  · intro view v hleads
    rw [leaderForViewU64_eq, leaderForView_eq_owner hne] at hleads
    exact ⟨Slots.mem_of_owner _ hleads, Slots.weight_pos_of_owner _ hleads (Nat.zero_le _)⟩
  · rintro front ⟨rest, hrest⟩
    have htotal : sumPower front + sumPower rest = vs.totalPower := by
      rw [totalPower, ← hrest, sumPower, sumPower, sumPower, map_append, sum_append]
    have hlt := vs.totalPower_lt
    omega
  · intro view
    rw [leaderAtU64_eq (by rw [Nat.zero_add]; exact vs.total_lt)]
    exact leaderAt_isSome hne view

theorem fair_rotation_weighted : weighted.validators ≠ []
    ∧ ((Finset.Ico 1000 (1000 + weighted.totalPower)).filter fun view =>
      weighted.leaderForViewU64 view = some ⟨3, ⟨replicate 32 3⟩, 70⟩).card = 70 :=
  ⟨by decide, (fair_rotation weighted (by decide)).1 1000 _ (by decide)⟩

end ValidatorSet

end Hotmint
