/-
Validator sets (`hotmint-types/src/validator.rs`):

* `ValidatorSet`: the validated list, carrying the invariants `try_from_parts`
  checks (total power below `2^64` and non-zero, distinct ids, distinct keys,
  keys of 32 bytes);
* `ValidatorSet.tryNew`, `ValidatorSet.tryApplyUpdates`: the two fallible ways
  to obtain one;
* `ValidatorSet.quorumThreshold`, `maxFaultyPower`, `leaderForView`,
  `powerOf`, `indexOf`: the functions the consensus reads.
-/
import Mathlib.Algebra.BigOperators.Group.List.Basic
import Mathlib.Algebra.GroupWithZero.Nat
import Mathlib.Data.List.Nodup
import Hotmint.Types.Basic

namespace Hotmint

open List

/-- `ValidatorInfo`. -/
structure ValidatorInfo where
  id : ℕ
  publicKey : PublicKey
  power : ℕ
deriving DecidableEq, Repr

/-- `ValidatorUpdate`: a new power for a validator, `0` to remove it. -/
structure ValidatorUpdate where
  id : ℕ
  publicKey : PublicKey
  power : ℕ
deriving DecidableEq, Repr

/-- The reasons `try_new` gives for refusing a list of validators. -/
inductive ValidatorSetError
  | totalPowerOverflow (id : ℕ)
  | zeroTotalPower
  | duplicateId (id : ℕ)
  | invalidKeyLength (id : ℕ) (len : ℕ)
  | duplicateKey (id : ℕ)
deriving DecidableEq, Repr

/-- The error texts of `try_from_parts` and `compute_total_power`. -/
def ValidatorSetError.message : ValidatorSetError → String
  | totalPowerOverflow id =>
    "validator set total_power overflow while adding V" ++ toString id
  | zeroTotalPower => "non-empty validator set has zero total power"
  | duplicateId id => "duplicate validator id V" ++ toString id
  | invalidKeyLength id len =>
    "validator V" ++ toString id ++ " has invalid public key length " ++ toString len
  | duplicateKey id => "duplicate public key for validator V" ++ toString id

/-- The total power of a list of validators. -/
def sumPower (vs : List ValidatorInfo) : ℕ := (vs.map (·.power)).sum

/-- `ValidatorSet::compute_total_power`: the checked `u64` sum, from `acc`. -/
def computeTotalPower : List ValidatorInfo → ℕ → Except ValidatorSetError ℕ
  | [], acc => .ok acc
  | v :: vs, acc =>
    if acc + v.power < 2 ^ 64 then computeTotalPower vs (acc + v.power)
    else .error (.totalPowerOverflow v.id)

/-- The membership loop of `try_from_parts`, with the ids and keys seen so far. -/
def checkMembers : List ValidatorInfo → List ℕ → List PublicKey →
    Except ValidatorSetError Unit
  | [], _, _ => .ok ()
  | v :: vs, ids, keys =>
    if v.id ∈ ids then .error (.duplicateId v.id)
    else if v.publicKey.bytes.length ≠ 32 then
      .error (.invalidKeyLength v.id v.publicKey.bytes.length)
    else if v.publicKey ∈ keys then .error (.duplicateKey v.id)
    else checkMembers vs (v.id :: ids) (v.publicKey :: keys)

/-- All checks of `try_new` and `try_from_parts`, in their order. -/
def validateMembers (vs : List ValidatorInfo) : Except ValidatorSetError Unit :=
  match computeTotalPower vs 0 with
  | .error err => .error err
  | .ok total =>
    if vs ≠ [] ∧ total = 0 then .error .zeroTotalPower else checkMembers vs [] []

/-- The checked sum is the sum, and it fits. -/
lemma computeTotalPower_ok {vs : List ValidatorInfo} {acc total : ℕ}
    (h : computeTotalPower vs acc = .ok total) :
    total = acc + sumPower vs ∧ (acc < 2 ^ 64 → total < 2 ^ 64) := by
  induction vs generalizing acc with
  | nil =>
    simp only [computeTotalPower, Except.ok.injEq] at h
    simp [sumPower, h]
  | cons v vs ih =>
    simp only [computeTotalPower] at h
    split_ifs at h with hlt
    obtain ⟨hsum, hfit⟩ := ih h
    refine ⟨?_, fun _ => hfit hlt⟩
    simp only [hsum, sumPower, map_cons, sum_cons]
    omega

/-- What an accepted membership loop guarantees. -/
lemma checkMembers_ok {vs : List ValidatorInfo} {ids : List ℕ}
    {keys : List PublicKey} (h : checkMembers vs ids keys = .ok ()) :
    ((vs.map (·.id)).Nodup ∧ ∀ v ∈ vs, v.id ∉ ids)
      ∧ ((vs.map (·.publicKey)).Nodup ∧ ∀ v ∈ vs, v.publicKey ∉ keys)
      ∧ ∀ v ∈ vs, v.publicKey.bytes.length = 32 := by
  induction vs generalizing ids keys with
  | nil => simp
  | cons v vs ih =>
    simp only [checkMembers] at h
    split_ifs at h with hid hlen hkey
    obtain ⟨⟨hids, hidsNew⟩, ⟨hkeys, hkeysNew⟩, hlens⟩ := ih h
    refine ⟨⟨?_, ?_⟩, ⟨?_, ?_⟩, ?_⟩
    · refine nodup_cons.mpr ⟨?_, hids⟩
      intro hmem
      obtain ⟨w, hw, hwid⟩ := mem_map.mp hmem
      exact hidsNew w hw (by simp [hwid])
    · intro w hw
      rcases mem_cons.mp hw with rfl | hw
      · exact hid
      · exact fun hc => hidsNew w hw (.tail _ hc)
    · refine nodup_cons.mpr ⟨?_, hkeys⟩
      intro hmem
      obtain ⟨w, hw, hwkey⟩ := mem_map.mp hmem
      exact hkeysNew w hw (by simp [hwkey])
    · intro w hw
      rcases mem_cons.mp hw with rfl | hw
      · exact hkey
      · exact fun hc => hkeysNew w hw (.tail _ hc)
    · intro w hw
      rcases mem_cons.mp hw with rfl | hw
      · exact not_not.mp hlen
      · exact hlens w hw

/-- What an accepted list of validators satisfies. -/
lemma validateMembers_ok {vs : List ValidatorInfo} (h : validateMembers vs = .ok ()) :
    sumPower vs < 2 ^ 64 ∧ (vs ≠ [] → sumPower vs ≠ 0) ∧ checkMembers vs [] [] = .ok () := by
  unfold validateMembers at h
  split at h
  · cases h
  · next total htotal =>
      obtain ⟨hsum, hfit⟩ := computeTotalPower_ok htotal
      have hlt := hfit (Nat.two_pow_pos 64)
      split_ifs at h with hzero
      refine ⟨by omega, fun hne h0 => hzero ⟨hne, by omega⟩, h⟩

/-- `ValidatorSet`: a list of validators that passed `try_from_parts`. -/
structure ValidatorSet where
  validators : List ValidatorInfo
  total_lt : sumPower validators < 2 ^ 64
  total_ne_zero : validators ≠ [] → sumPower validators ≠ 0
  nodup_id : (validators.map (·.id)).Nodup
  nodup_key : (validators.map (·.publicKey)).Nodup
  key_length : ∀ v ∈ validators, v.publicKey.bytes.length = 32
deriving DecidableEq

namespace ValidatorSet

/-- A list that passes every check is a validator set. -/
def ofValidated (vs : List ValidatorInfo) (h : validateMembers vs = .ok ()) : ValidatorSet where
  validators := vs
  total_lt := (validateMembers_ok h).1
  total_ne_zero := (validateMembers_ok h).2.1
  nodup_id := (checkMembers_ok (validateMembers_ok h).2.2).1.1
  nodup_key := (checkMembers_ok (validateMembers_ok h).2.2).2.1.1
  key_length := (checkMembers_ok (validateMembers_ok h).2.2).2.2

/-- `ValidatorSet::try_new`. -/
def tryNew (vs : List ValidatorInfo) : Except ValidatorSetError ValidatorSet :=
  match h : validateMembers vs with
  | .ok () => .ok (ofValidated vs h)
  | .error err => .error err

/-- `ValidatorSet::total_power`. -/
def totalPower (vs : ValidatorSet) : ℕ := sumPower vs.validators

/-- `ValidatorSet::quorum_threshold`: `⌊2n/3⌋ + 1`. -/
def quorumThreshold (vs : ValidatorSet) : ℕ := vs.totalPower * 2 / 3 + 1

/-- `ValidatorSet::max_faulty_power` (a saturating subtraction). -/
def maxFaultyPower (vs : ValidatorSet) : ℕ := vs.totalPower - vs.quorumThreshold

/-- The scan of `leader_for_view`: the first validator whose cumulative power
exceeds `slot`. -/
def leaderAt : List ValidatorInfo → ℕ → ℕ → Option ValidatorInfo
  | [], _, _ => none
  | v :: vs, cumulative, slot =>
    if slot < cumulative + v.power then some v else leaderAt vs (cumulative + v.power) slot

/-- `ValidatorSet::leader_for_view`. -/
def leaderForView (vs : ValidatorSet) (view : ℕ) : Option ValidatorInfo :=
  if vs.validators = [] ∨ vs.totalPower = 0 then none
  else
    match leaderAt vs.validators 0 (view % vs.totalPower) with
    | some v => some v
    | none => vs.validators.getLast?

/-- `ValidatorSet::validator_count`. -/
def validatorCount (vs : ValidatorSet) : ℕ := vs.validators.length

/-- `ValidatorSet::index_of`: the index map is the position of the id. -/
def indexOf (vs : ValidatorSet) (id : ℕ) : Option ℕ :=
  vs.validators.findIdx? (·.id = id)

/-- `ValidatorSet::get`. -/
def get (vs : ValidatorSet) (id : ℕ) : Option ValidatorInfo :=
  vs.validators.find? (·.id = id)

/-- `ValidatorSet::power_of`. -/
def powerOf (vs : ValidatorSet) (id : ℕ) : ℕ :=
  match vs.get id with
  | some v => v.power
  | none => 0

/-- One update of `try_apply_updates`: remove, change in place, or append. -/
def applyUpdate (infos : List ValidatorInfo) (u : ValidatorUpdate) : List ValidatorInfo :=
  if u.power = 0 then infos.filter (·.id ≠ u.id)
  else if infos.any (·.id = u.id) then
    infos.map fun v =>
      if v.id = u.id then { v with power := u.power, publicKey := u.publicKey } else v
  else infos ++ [⟨u.id, u.publicKey, u.power⟩]

/-- `ValidatorSet::try_apply_updates`. -/
def tryApplyUpdates (vs : ValidatorSet) (updates : List ValidatorUpdate) :
    Except ValidatorSetError ValidatorSet :=
  tryNew (updates.foldl applyUpdate vs.validators)

end ValidatorSet

end Hotmint
