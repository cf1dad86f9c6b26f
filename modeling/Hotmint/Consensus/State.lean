/-
The mutable state of one validator (`hotmint-consensus/src/state.rs` and
`leader.rs`):

* `ConsensusState`, `ConsensusState.withChainId`;
* `checkAndRecordVote`: the double-sign guard, with
  `checkAndRecordVote_spec`: it succeeds exactly when it leaves the vote in
  its slot;
* `updateHighestQc`, `updateLockedQc`: certificates only move to strictly
  higher views.
-/
import Hotmint.Types.Crypto

namespace Hotmint

/-- `ViewRole`. -/
inductive ViewRole
  | leader
  | replica
deriving DecidableEq, Repr

/-- `ViewStep`. -/
inductive ViewStep
  | entered
  | waitingForStatus
  | proposed
  | waitingForProposal
  | voted
  | collectingVotes
  | prepared
  | sentVote2
  | done
deriving DecidableEq, Repr

/-- A vote slot: the view and block of the last vote of one type. -/
abbrev VoteSlot := Option (ℕ × BlockHash)

/-- `ConsensusState`. -/
structure ConsensusState where
  validatorId : ℕ
  validatorSet : ValidatorSet
  chainIdHash : Digest
  currentView : ℕ
  role : ViewRole
  step : ViewStep
  lockedQc : Option QuorumCertificate
  highestDoubleCert : Option DoubleCertificate
  highestQc : Option QuorumCertificate
  lastCommittedHeight : ℕ
  lastAppHash : BlockHash
  currentEpoch : Epoch
  pendingVoteExtensions : List (ℕ × Bytes)
  lastVote1 : VoteSlot
  lastVote2 : VoteSlot

namespace ConsensusState

/-- `ConsensusState::with_chain_id`, given the hash of the chain id. -/
def withChainId (validatorId : ℕ) (validatorSet : ValidatorSet)
    (chainIdHash : Digest) : ConsensusState where
  validatorId := validatorId
  validatorSet := validatorSet
  chainIdHash := chainIdHash
  currentView := 0
  role := .replica
  step := .entered
  lockedQc := none
  highestDoubleCert := none
  highestQc := none
  lastCommittedHeight := 0
  lastAppHash := BlockHash.genesis
  currentEpoch := Epoch.genesis validatorSet
  pendingVoteExtensions := []
  lastVote1 := none
  lastVote2 := none

/-- `ConsensusState::is_leader`. -/
def isLeader (st : ConsensusState) : Bool := st.role = .leader

/-- The slot of a vote type. -/
def lastVote (st : ConsensusState) : VoteType → VoteSlot
  | .vote => st.lastVote1
  | .vote2 => st.lastVote2

/-- Overwrite the slot of a vote type. -/
def setLastVote (st : ConsensusState) (voteType : VoteType) (slot : VoteSlot) : ConsensusState :=
  match voteType with
  | .vote => { st with lastVote1 := slot }
  | .vote2 => { st with lastVote2 := slot }

/-- `ConsensusState::check_and_record_vote`: refuse a lower view, and a second
block in the recorded view; otherwise record the vote. -/
def checkAndRecordVote (st : ConsensusState) (voteType : VoteType) (view : ℕ)
    (blockHash : BlockHash) : Bool × ConsensusState :=
  match st.lastVote voteType with
  | some (v, h) =>
    if view < v then (false, st)
    else if v = view then (h = blockHash, st)
    else (true, st.setLastVote voteType (some (view, blockHash)))
  | none => (true, st.setLastVote voteType (some (view, blockHash)))

/-- The new certificate replaces the old one only from a strictly higher view. -/
def dominates (qc : QuorumCertificate) (old : Option QuorumCertificate) : Bool :=
  match old with
  | none => true
  | some h => h.view < qc.view

/-- `ConsensusState::update_highest_qc`. -/
def updateHighestQc (st : ConsensusState) (qc : QuorumCertificate) : ConsensusState :=
  if dominates qc st.highestQc then { st with highestQc := some qc } else st

/-- `ConsensusState::update_locked_qc`. -/
def updateLockedQc (st : ConsensusState) (qc : QuorumCertificate) : ConsensusState :=
  if dominates qc st.lockedQc then { st with lockedQc := some qc } else st

/-- `state.validator_set.power_of(state.validator_id)`. -/
def ownPower (st : ConsensusState) : ℕ := st.validatorSet.powerOf st.validatorId

/-! ### Replacing certificates -/

/-- The second certificate is at least as high as the first, if there is one. -/
def QcLe (old new : Option QuorumCertificate) : Prop :=
  ∀ qc, old = some qc → ∃ qc', new = some qc' ∧ qc.view ≤ qc'.view

lemma QcLe.refl (qc : Option QuorumCertificate) : QcLe qc qc := fun q h => ⟨q, h, Nat.le_refl _⟩

lemma QcLe.trans {a b c : Option QuorumCertificate} (h : QcLe a b) (h' : QcLe b c) : QcLe a c := by
  intro q hq
  obtain ⟨q₁, hq₁, hle₁⟩ := h q hq
  obtain ⟨q₂, hq₂, hle₂⟩ := h' q₁ hq₁
  exact ⟨q₂, hq₂, Nat.le_trans hle₁ hle₂⟩

section

variable (st : ConsensusState) (qc : QuorumCertificate)

/-- Raising the highest certificate leaves it at least as high. -/
lemma updateHighestQc_ge :
    ∃ high, (st.updateHighestQc qc).highestQc = some high ∧ qc.view ≤ high.view := by
  unfold updateHighestQc dominates
  split_ifs with h
  · exact ⟨qc, rfl, Nat.le_refl _⟩
  · split at h
    · exact absurd rfl h
    · next high hhigh =>
        exact ⟨high, hhigh, by simpa using h⟩

lemma updateLockedQc_ge :
    ∃ locked, (st.updateLockedQc qc).lockedQc = some locked ∧ qc.view ≤ locked.view := by
  unfold updateLockedQc dominates
  split_ifs with h
  · exact ⟨qc, rfl, Nat.le_refl _⟩
  · split at h
    · exact absurd rfl h
    · next locked hlocked =>
        exact ⟨locked, hlocked, by simpa using h⟩

/-- Neither certificate is ever replaced by a lower one. -/
lemma qcLe_updateHighestQc : QcLe st.highestQc (st.updateHighestQc qc).highestQc := by
  intro high hhigh
  unfold updateHighestQc dominates
  rw [hhigh]
  dsimp only
  split_ifs with h
  · exact ⟨qc, rfl, Nat.le_of_lt (of_decide_eq_true h)⟩
  · exact ⟨high, hhigh, Nat.le_refl _⟩

lemma qcLe_updateLockedQc : QcLe st.lockedQc (st.updateLockedQc qc).lockedQc := by
  intro locked hlocked
  unfold updateLockedQc dominates
  rw [hlocked]
  dsimp only
  split_ifs with h
  · exact ⟨qc, rfl, Nat.le_of_lt (of_decide_eq_true h)⟩
  · exact ⟨locked, hlocked, Nat.le_refl _⟩

lemma updateHighestQc_lockedQc : (st.updateHighestQc qc).lockedQc = st.lockedQc := by
  unfold updateHighestQc
  split_ifs <;> rfl

lemma updateLockedQc_highestQc : (st.updateLockedQc qc).highestQc = st.highestQc := by
  unfold updateLockedQc
  split_ifs <;> rfl

@[simp] lemma updateHighestQc_currentView :
    (st.updateHighestQc qc).currentView = st.currentView := by
  unfold updateHighestQc
  split_ifs <;> rfl

@[simp] lemma updateLockedQc_currentView :
    (st.updateLockedQc qc).currentView = st.currentView := by
  unfold updateLockedQc
  split_ifs <;> rfl

/-- Raising the highest certificate changes nothing else. -/
lemma updateHighestQc_eq :
    st.updateHighestQc qc = { st with highestQc := (st.updateHighestQc qc).highestQc } := by
  unfold updateHighestQc
  split_ifs <;> rfl

lemma updateHighestQc_withDc (dc : Option DoubleCertificate) :
    { st with highestDoubleCert := dc }.updateHighestQc qc
      = { st.updateHighestQc qc with highestDoubleCert := dc } := by
  unfold updateHighestQc
  dsimp only
  split_ifs <;> rfl

/-- Nor does raising the lock. -/
lemma updateLockedQc_eq :
    st.updateLockedQc qc = { st with lockedQc := (st.updateLockedQc qc).lockedQc } := by
  unfold updateLockedQc
  split_ifs <;> rfl

/-- A raised certificate is the old one or the new one. -/
lemma updateHighestQc_highestQc : (st.updateHighestQc qc).highestQc = st.highestQc
      ∨ (st.updateHighestQc qc).highestQc = some qc := by
  unfold updateHighestQc
  split_ifs
  · exact .inr rfl
  · exact .inl rfl

lemma updateLockedQc_lockedQc :
    (st.updateLockedQc qc).lockedQc = st.lockedQc ∨ (st.updateLockedQc qc).lockedQc = some qc := by
  unfold updateLockedQc
  split_ifs
  · exact .inr rfl
  · exact .inl rfl

end

/-- A highest certificate that is already as high stays. -/
lemma updateHighestQc_of_le {st : ConsensusState} {qc high : QuorumCertificate}
    (hhigh : st.highestQc = some high) (hle : qc.view ≤ high.view) :
    st.updateHighestQc qc = st := by
  unfold updateHighestQc dominates
  rw [hhigh, if_neg (by simpa using hle)]

/-! ### The double-sign guard -/

section

variable (st : ConsensusState) (t : VoteType)

@[simp] lemma setLastVote_lastVote :
    st.setLastVote t (st.lastVote t) = st := by
  cases t <;> rfl

/-- **A granted vote sits in its slot afterwards**, no matter whether it was
recorded now or is the repetition of the recorded vote; and a slot only moves
to a strictly higher view. -/
lemma checkAndRecordVote_spec (view : ℕ)
    (hash : BlockHash) (h : (st.checkAndRecordVote t view hash).1 = true) :
    (st.checkAndRecordVote t view hash).2 = st.setLastVote t (some (view, hash))
      ∧ ∀ v b, st.lastVote t = some (v, b) → v < view ∨ (v = view ∧ b = hash) := by
  rcases hslot : st.lastVote t with _ | ⟨v, b⟩
  · simp [checkAndRecordVote, hslot]
  · simp only [checkAndRecordVote, hslot] at h ⊢
    by_cases hlt : view < v
    · simp [hlt] at h
    by_cases heq : v = view
    · -- the recorded view: the slot already holds this block
      subst heq
      have hb : b = hash := by simpa using h
      subst hb
      refine ⟨?_, fun v' b' he => ?_⟩
      · simp [← hslot]
      · simp only [Option.some.injEq, Prod.mk.injEq] at he
        exact .inr ⟨he.1.symm, he.2.symm⟩
    · refine ⟨by simp [hlt, heq], fun v' b' he => ?_⟩
      simp only [Option.some.injEq, Prod.mk.injEq] at he
      exact .inl (by omega)

/-- The guard grants every vote that does not contradict the slot. -/
lemma checkAndRecordVote_of_slot (view : ℕ) (hash : BlockHash)
    (h : ∀ v b, st.lastVote t = some (v, b) → v < view ∨ (v = view ∧ b = hash)) :
    st.checkAndRecordVote t view hash = (true, st.setLastVote t (some (view, hash))) := by
  have hgranted : (st.checkAndRecordVote t view hash).1 = true := by
    rcases hslot : st.lastVote t with _ | ⟨v, b⟩
    · simp [checkAndRecordVote, hslot]
    · rcases h v b hslot with hlt | ⟨rfl, rfl⟩
      · have hle : ¬ view < v := by omega
        have hne : v ≠ view := by omega
        simp [checkAndRecordVote, hslot, hle, hne]
      · simp [checkAndRecordVote, hslot]
  exact Prod.ext hgranted (st.checkAndRecordVote_spec t view hash hgranted).1

/-- A refused vote changes nothing. -/
lemma checkAndRecordVote_refused (view : ℕ)
    (hash : BlockHash) (h : (st.checkAndRecordVote t view hash).1 = false) :
    (st.checkAndRecordVote t view hash).2 = st := by
  rcases hslot : st.lastVote t with _ | ⟨v, b⟩
  · simp [checkAndRecordVote, hslot] at h
  · simp only [checkAndRecordVote, hslot] at h ⊢
    split_ifs at h ⊢ with hlt heq
    · rfl
    · rfl

end

end ConsensusState

/-! ### Leaders -/

/-- `leader::is_leader`. -/
def isLeaderOf (vs : ValidatorSet) (view : ℕ) (id : ℕ) : Bool :=
  match vs.leaderForView view with
  | some l => l.id = id
  | none => false

/-- `leader::next_leader`; `none` where the source panics on an empty set. -/
def nextLeader (vs : ValidatorSet) (view : ℕ) : Option ℕ :=
  (vs.leaderForView (view + 1)).map (·.id)

end Hotmint
