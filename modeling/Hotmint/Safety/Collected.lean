/-
What `add_vote` makes of any sequence of votes (`vote_collector.rs`, `aggregate.rs`).

* `voterBits`, `voterSignatures`: the aggregate of given votes, in the order of the validator
  set; `aggregateVotes_eq`: **`aggregate_votes` builds it from votes in any order**;
* `Collected`: the collectors that a sequence of votes leads to, whatever the order in which
  the hash map keeps its buckets;
* `Collected.bucket_eq`: **a bucket holds the first vote of each validator for its key**;
* `qc_formation`: when a certificate is formed, and which;
* `equivocation_detection`: when an equivocation is reported, and that its proof is accepted.
-/
import Hotmint.Library.Firsts
import Hotmint.Proof.Aggregates
import Hotmint.Types.Encoding
import Hotmint.Types.Power

namespace Hotmint

open List Option ValidatorSet
variable {votes : List Vote} {vs : ValidatorSet} {vote : Vote} {vc : VoteCollector}
variable {v : Vote} {sets : ℕ → ValidatorSet}

/-! ### The aggregate of votes -/

/-- For each validator, whether one of the votes is its. -/
def voterBits (votes : List Vote) (validators : List ValidatorInfo) : List Bool :=
  validators.map fun vi => votes.any (·.validator = vi.id)

/-- The signatures of the validators' first votes, in the order of the validators. -/
def voterSignatures (votes : List Vote) (validators : List ValidatorInfo) : List Signature :=
  validators.filterMap fun vi => (votes.find? (·.validator = vi.id)).map (·.signature)

/-- The power of the validators with a vote. -/
def voterPower (votes : List Vote) (validators : List ValidatorInfo) : ℕ :=
  sumPower (validators.filter fun vi => votes.any (·.validator = vi.id))

section Aggregate

variable {votes : List Vote} {validators : List ValidatorInfo} {vote : Vote}

/-- There are as many signatures as set bits. -/
lemma count_voterBits (votes : List Vote) (validators : List ValidatorInfo) :
    (voterBits votes validators).count true = (voterSignatures votes validators).length := by
  induction validators with
  | nil => rfl
  | cons vi validators ih =>
    rw [voterBits, map_cons, voterSignatures, filterMap_cons,
      Firsts.any_eq_isSome_find? (fun v : Vote => v.validator)]
    cases votes.find? (·.validator = vi.id) with
    | none => exact (count_cons_of_ne (by decide)).trans ih
    | some v => exact count_cons_self.trans (congrArg (· + 1) ih)

/-- A vote of none of the validators changes nothing. -/
lemma voterBits_concat_of_ne (h : ∀ vi ∈ validators, vi.id ≠ vote.validator) :
    voterBits (votes ++ [vote]) validators = voterBits votes validators := by
  refine map_congr_left fun vi hvi => ?_
  simp [(h vi hvi).symm]

lemma voterSignatures_concat_of_ne (h : ∀ vi ∈ validators, vi.id ≠ vote.validator) :
    voterSignatures (votes ++ [vote]) validators = voterSignatures votes validators := by
  refine filterMap_congr fun vi hvi => ?_
  rw [find?_append, find?_singleton, if_neg (by simpa using (h vi hvi).symm), or_none]

/-- The counted power is that of the voters. -/
lemma signedPower_voterBits (votes : List Vote) (validators : List ValidatorInfo) :
    signedPower (voterBits votes validators) validators = voterPower votes validators := by
  induction validators with
  | nil => rfl
  | cons vi validators ih =>
    rw [voterBits, map_cons, signedPower_cons, voterPower, filter_cons]
    split_ifs with hvoted
    · exact congrArg (vi.power + ·) ih
    · exact (Nat.zero_add _).trans ih

end Aggregate

/-- The validators before and after an index. -/
lemma ValidatorSet.split_indexOf {id idx : ℕ} (h : vs.indexOf id = some idx) :
    ∃ front vi back, vs.validators = front ++ vi :: back ∧ front.length = idx ∧ vi.id = id
      ∧ (∀ v ∈ front, v.id ≠ id) ∧ ∀ v ∈ back, v.id ≠ id := by
  obtain ⟨vi, hvi, hid, -⟩ := indexOf_eq_some h
  obtain ⟨hlt, hget⟩ := List.getElem?_eq_some_iff.mp hvi
  have hsplit : vs.validators = vs.validators.take idx ++ vi :: vs.validators.drop (idx + 1) := by
    rw [← hget, ← List.drop_eq_getElem_cons hlt, List.take_append_drop]
  have hnodup := vs.nodup_id
  rw [hsplit, List.map_append, List.map_cons, List.nodup_append, List.nodup_cons] at hnodup
  obtain ⟨-, ⟨hback, -⟩, hfront⟩ := hnodup
  refine ⟨_, vi, _, hsplit, List.length_take_of_le (Nat.le_of_lt hlt), hid, ?_, ?_⟩
  · rintro v hv rfl
    exact hfront v.id (List.mem_map.mpr ⟨v, hv, rfl⟩) vi.id List.mem_cons_self hid.symm
  · rintro v hv rfl
    exact hback (List.mem_map.mpr ⟨v, hv, hid.symm⟩)

lemma insertIdx_length_append {α : Type*} (front back : List α) (a : α) :
    (front ++ back).insertIdx front.length a = front ++ a :: back := by
  induction front with
  | nil => rfl
  | cons b front ih =>
    rw [cons_append, length_cons, insertIdx_succ_cons, ih, cons_append]

/-- One more vote, of a new validator, sets its bit and inserts its signature in its place. -/
lemma add_voter {idx : ℕ} (hnew : ∀ v ∈ votes, v.validator ≠ vote.validator)
    (hidx : vs.indexOf vote.validator = some idx) :
    AggregateSignature.add ⟨voterBits votes vs.validators, voterSignatures votes vs.validators⟩ idx
        vote.signature
      = some ⟨voterBits (votes ++ [vote]) vs.validators,
        voterSignatures (votes ++ [vote]) vs.validators⟩ := by
  obtain ⟨front, vi, back, hsplit, rfl, hid, hfront, hback⟩ := split_indexOf hidx
  -- the votes have none of this validator, with the new one they have
  have hbit : votes.any (·.validator = vi.id) = false := by
    simpa [hid] using hnew
  have hnone : votes.find? (·.validator = vi.id) = none := by
    simpa [hid] using hnew
  have hbit' : (votes ++ [vote]).any (·.validator = vi.id) = true := by simp [hid]
  have hsome : (votes ++ [vote]).find? (·.validator = vi.id) = some vote := by
    rw [find?_append, hnone, find?_singleton, if_pos (by simp [hid]), none_or]
  have hbits : voterBits votes vs.validators
      = voterBits votes front ++ false :: voterBits votes back := by
    rw [hsplit, voterBits, map_append, map_cons, hbit]
    rfl
  have hbits' : voterBits (votes ++ [vote]) vs.validators
      = voterBits votes front ++ true :: voterBits votes back := by
    rw [hsplit, voterBits, map_append, map_cons, hbit']
    exact congrArg₂ (· ++ true :: ·) (voterBits_concat_of_ne hfront) (voterBits_concat_of_ne hback)
  have hsigs : voterSignatures votes vs.validators
      = voterSignatures votes front ++ voterSignatures votes back := by
    rw [hsplit, voterSignatures, filterMap_append, filterMap_cons, hnone]
    rfl
  have hsigs' : voterSignatures (votes ++ [vote]) vs.validators
      = voterSignatures votes front ++ vote.signature :: voterSignatures votes back := by
    rw [hsplit, voterSignatures, filterMap_append, filterMap_cons, hsome]
    exact congrArg₂ (· ++ vote.signature :: ·) (voterSignatures_concat_of_ne hfront)
      (voterSignatures_concat_of_ne hback)
  have hlength : (voterBits votes front).length = front.length := length_map _
  have hunset : (voterBits votes vs.validators)[front.length]? = some false := by
    rw [hbits, ← hlength, getElem?_append_right (le_rfl), Nat.sub_self]
    rfl
  unfold AggregateSignature.add
  rw [hunset]
  dsimp only
  rw [hbits, hbits', hsigs, hsigs', ← hlength, take_left, count_voterBits,
    set_append_right _ _ (le_rfl), Nat.sub_self, set_cons_zero,
    insertIdx_length_append]

/-- **The aggregate of votes of distinct members**, in whatever order they come. -/
lemma aggregateVotes_eq (hnodup : (votes.map (·.validator)).Nodup)
    (hmember : ∀ v ∈ votes, (vs.get v.validator).isSome = true) : aggregateVotes vs votes
      = some ⟨voterBits votes vs.validators, voterSignatures votes vs.validators⟩ := by
  induction votes using reverseRecOn with
  | nil => simp [aggregateVotes, AggregateSignature.new, voterBits, voterSignatures,
      validatorCount]
  | append_singleton votes vote ih =>
    rw [map_append, map_singleton, nodup_append] at hnodup
    obtain ⟨hvotes, -, hdisjoint⟩ := hnodup
    have hnew : ∀ v ∈ votes, v.validator ≠ vote.validator := fun v hv =>
      hdisjoint _ (mem_map.mpr ⟨v, hv, rfl⟩) _ (mem_singleton.mpr rfl)
    obtain ⟨hold, hlast⟩ := forall_mem_append.mp hmember
    have hget := hlast vote (mem_singleton.mpr rfl)
    obtain ⟨idx, hidx⟩ : ∃ idx, vs.indexOf vote.validator = some idx := by
      refine isSome_iff_exists.mp ?_
      rw [indexOf, findIdx?_isSome, Firsts.any_eq_isSome_find? (fun vi : ValidatorInfo => vi.id)]
      exact hget
    have hprev := ih hvotes hold
    unfold aggregateVotes at hprev ⊢
    rw [foldlM_append, hprev]
    simp only [bind_eq_bind, bind_some, foldlM_cons, foldlM_nil, hidx, add_voter hnew hidx]
    rfl

/-! ### Sequences of votes -/

/-- The votes of a bucket among given votes. -/
def votesFor (votes : List Vote) (key : VoteKey) : List Vote := votes.filter (·.key = key)

lemma votesFor_concat_self (votes : List Vote) (vote : Vote) :
    votesFor (votes ++ [vote]) vote.key = votesFor votes vote.key ++ [vote] := by
  simp [votesFor, filter_append]

lemma votesFor_concat_of_ne (votes : List Vote) {key : VoteKey}
    (h : key ≠ vote.key) : votesFor (votes ++ [vote]) key = votesFor votes key := by
  simp [votesFor, filter_append, h.symm]

namespace VoteCollector

/-- What a collector becomes when it is given votes of members, one after the other, without
extensions in the first phase; the validator set of a vote is that of its epoch.  The hash map
may keep its buckets in any order at any time. -/
inductive Collected (sets : ℕ → ValidatorSet) : List Vote → VoteCollector → Prop
  | new : Collected sets [] .new
  | add {votes : List Vote} {vc : VoteCollector} (h : Collected sets votes vc) {vote : Vote}
      (hvote : Admitted (sets vote.epoch) vote vote.epoch) :
      Collected sets (votes ++ [vote]) (vc.addVote (sets vote.epoch) vote vote.epoch).2
  | reorder {votes : List Vote} {vc vc' : VoteCollector} (h : Collected sets votes vc)
      (hperm : vc.votes.entries.Perm vc'.votes.entries) : Collected sets votes vc'

/-- The aggregate of the votes of a bucket and one more vote. -/
def aggregateWith (vc : VoteCollector) (vs : ValidatorSet) (vote : Vote) : AggregateSignature :=
  ⟨voterBits (vc.bucket vote.key ++ [vote]) vs.validators,
    voterSignatures (vc.bucket vote.key ++ [vote]) vs.validators⟩

section

variable (hvote : Admitted vs vote vote.epoch)
  (hnodup : ((vc.bucket vote.key).map (·.validator)).Nodup)
  (hmember : ∀ v ∈ vc.bucket vote.key, (vs.get v.validator).isSome = true)

include hvote hnodup hmember

/-- **What `add_vote` does with an admitted vote**, when its bucket has votes of distinct
members: a repeated voter counts nothing, any other vote is appended and counted. -/
lemma addVote_eq :
    vc.addVote vs vote vote.epoch = if (vc.bucket vote.key).any (·.validator = vote.validator) then
          (.ok ⟨none, vc.findEquivocation vote vote.epoch, []⟩,
            ⟨vc.votes.insert vote.key (vc.bucket vote.key)⟩)
        else (.ok (if hasQuorum vs (vc.aggregateWith vs vote) then
            ⟨some ⟨vote.blockHash, vote.view, vc.aggregateWith vs vote, vote.epoch⟩,
              vc.findEquivocation vote vote.epoch,
              collectExtensions (vc.bucket vote.key ++ [vote])⟩
          else ⟨none, vc.findEquivocation vote vote.epoch, []⟩),
          ⟨vc.votes.insert vote.key (vc.bucket vote.key ++ [vote])⟩) := by
  have hextension : ¬ (vote.voteType = .vote ∧ vote.extension.isSome = true) := by
    rintro ⟨htype, hsome⟩
    rw [hvote.extension htype] at hsome
    cases hsome
  have hget : ¬ (vs.get vote.validator).isNone = true := by
    rw [isNone_iff_eq_none]
    exact isSome_iff_ne_none.mp hvote.member
  have hkey : (vote.epoch, vote.view, vote.blockHash, vote.voteType) = vote.key := rfl
  by_cases hany : (vc.bucket vote.key).any (·.validator = vote.validator) = true
  · simp only [addVote, ne_eq, not_true, if_false, if_neg hextension, hkey, if_pos hany]
  · -- the bucket with the vote is one of distinct members again
    have hnew : ∀ v ∈ vc.bucket vote.key, v.validator ≠ vote.validator := by
      simpa using hany
    have hnodup' : ((vc.bucket vote.key ++ [vote]).map (·.validator)).Nodup := by
      rw [map_append, map_singleton]
      refine hnodup.append (nodup_singleton _) fun id hid hid' => ?_
      obtain ⟨v, hv, rfl⟩ := mem_map.mp hid
      exact hnew v hv (mem_singleton.mp hid')
    have hmember' : ∀ v ∈ vc.bucket vote.key ++ [vote], (vs.get v.validator).isSome = true := by
      refine forall_mem_append.mpr ⟨hmember, fun v hv => ?_⟩
      rw [mem_singleton.mp hv]
      exact hvote.member
    have hagg : aggregateVotes vs (vc.bucket vote.key ++ [vote])
        = some (vc.aggregateWith vs vote) := aggregateVotes_eq hnodup' hmember'
    simp only [addVote, ne_eq, not_true, if_false, if_neg hextension, hkey, if_neg hany,
      if_neg hget, hagg]
    split_ifs <;> rfl

lemma snd_addVote : (vc.addVote vs vote vote.epoch).2
      = ⟨vc.votes.insert vote.key (Firsts.push (·.validator) (vc.bucket vote.key) vote)⟩ := by
  rw [addVote_eq hvote hnodup hmember, Firsts.push]
  split_ifs <;> rfl

end

/-- Every vote of the sequence was admitted. -/
lemma Collected.admitted
    (h : Collected sets votes vc) : ∀ v ∈ votes, Admitted (sets v.epoch) v v.epoch := by
  induction h with
  | new => exact fun v hv => absurd hv not_mem_nil
  | add h hvote ih =>
    refine forall_mem_append.mpr ⟨ih, fun v hv => ?_⟩
    rw [mem_singleton.mp hv]
    exact hvote
  | reorder h hperm ih => exact ih

/-- The votes of a bucket are of members of the set of its epoch. -/
lemma member_of_votesFor (h : ∀ v ∈ votes, Admitted (sets v.epoch) v v.epoch)
    (hv : v ∈ votesFor votes vote.key) : ((sets vote.epoch).get v.validator).isSome = true := by
  obtain ⟨hv, hkey⟩ := mem_filter.mp hv
  have hepoch : v.epoch = vote.epoch := congrArg Prod.fst (of_decide_eq_true hkey)
  rw [← hepoch]
  exact (h v hv).member

/-- **A bucket holds the first vote of each validator for its key.** -/
lemma Collected.bucket_eq (h : Collected sets votes vc) (key : VoteKey) :
    vc.bucket key = Firsts.firsts (·.validator) (votesFor votes key) := by
  induction h generalizing key with
  | new => rfl
  | @add votes vc h vote hvote ih =>
    have hbucket := ih vote.key
    have hnodup : ((vc.bucket vote.key).map (·.validator)).Nodup := by
      rw [hbucket]
      exact Firsts.nodup_firsts _ _
    have hmember : ∀ v ∈ vc.bucket vote.key, ((sets vote.epoch).get v.validator).isSome = true := by
      rw [hbucket]
      exact fun v hv => member_of_votesFor h.admitted (Firsts.mem_of_mem_firsts _ hv)
    rw [snd_addVote hvote hnodup hmember, bucket, AList.lookup_insert_ite]
    by_cases hkey : key = vote.key
    · rw [if_pos hkey, hkey, votesFor_concat_self, Firsts.firsts_concat, hbucket]
      rfl
    · rw [if_neg hkey, votesFor_concat_of_ne votes hkey]
      exact ih key
  | reorder h hperm ih =>
    unfold bucket at ih ⊢
    rw [← AList.perm_lookup hperm]
    exact ih key

/-- The voters of a bucket are those of the sequence. -/
lemma voterBits_firsts (votes rest : List Vote) (validators : List ValidatorInfo) :
    voterBits (Firsts.firsts (·.validator) votes ++ rest) validators
      = voterBits (votes ++ rest) validators := by
  refine map_congr_left fun vi _ => ?_
  rw [any_append, any_append, Firsts.any_firsts]

lemma voterSignatures_firsts (votes rest : List Vote) (validators : List ValidatorInfo) :
    voterSignatures (Firsts.firsts (·.validator) votes ++ rest) validators
      = voterSignatures (votes ++ rest) validators := by
  refine filterMap_congr fun vi _ => ?_
  rw [find?_append, find?_append, Firsts.find?_firsts]

section Run

variable {sets : ℕ → ValidatorSet} {votes : List Vote} {vc : VoteCollector}

/-- **What `add_vote` answers after a sequence of votes.** -/
lemma Collected.addVote_eq (h : Collected sets votes vc)
    (hvote : Admitted (sets vote.epoch) vote vote.epoch) :
    (vc.addVote (sets vote.epoch) vote vote.epoch).1
      = .ok (if (votesFor votes vote.key).any (·.validator = vote.validator) then
          ⟨none, vc.findEquivocation vote vote.epoch, []⟩
        else if hasQuorum (sets vote.epoch) (vc.aggregateWith (sets vote.epoch) vote) then
          ⟨some ⟨vote.blockHash, vote.view, vc.aggregateWith (sets vote.epoch) vote, vote.epoch⟩,
            vc.findEquivocation vote vote.epoch,
            collectExtensions (vc.bucket vote.key ++ [vote])⟩
        else ⟨none, vc.findEquivocation vote vote.epoch, []⟩) := by
  have hbucket := h.bucket_eq vote.key
  have hany : (vc.bucket vote.key).any (·.validator = vote.validator)
      = (votesFor votes vote.key).any (·.validator = vote.validator) := by
    rw [hbucket, Firsts.any_firsts]
  rw [VoteCollector.addVote_eq hvote (by rw [hbucket]; exact Firsts.nodup_firsts _ _)
    (by rw [hbucket]
        exact fun v hv => member_of_votesFor h.admitted (Firsts.mem_of_mem_firsts _ hv)), hany]
  split_ifs <;> rfl

lemma Collected.aggregateWith_eq (h : Collected sets votes vc) (vs : ValidatorSet) (vote : Vote) :
    vc.aggregateWith vs vote = ⟨voterBits (votesFor (votes ++ [vote]) vote.key) vs.validators,
      voterSignatures (votesFor (votes ++ [vote]) vote.key) vs.validators⟩ := by
  rw [aggregateWith, h.bucket_eq, voterBits_firsts, voterSignatures_firsts, votesFor_concat_self]

/-- **QC formation.**  After any sequence of admitted votes, in any order and with any
repetitions, an admitted vote is answered with a certificate exactly if no earlier vote of its
bucket is of its validator and the power of the validators with a vote in the bucket reaches
the quorum threshold.  The certificate is for the bucket; its bits are those of these
validators, and its signatures are those of their first votes, in the order of the set. -/
theorem qc_formation (h : Collected sets votes vc) {vote : Vote}
    (hvote : Admitted (sets vote.epoch) vote vote.epoch) :
    ∃ result, (vc.addVote (sets vote.epoch) vote vote.epoch).1 = .ok result
      ∧ (result.qc.isSome = true ↔ (∀ v ∈ votes, v.key = vote.key → v.validator ≠ vote.validator)
        ∧ (sets vote.epoch).quorumThreshold
          ≤ voterPower (votesFor (votes ++ [vote]) vote.key) (sets vote.epoch).validators)
      ∧ ∀ qc, result.qc = some qc →
        qc.epoch = vote.epoch ∧ qc.view = vote.view ∧ qc.blockHash = vote.blockHash
        ∧ qc.aggregateSignature.signers
          = voterBits (votesFor (votes ++ [vote]) vote.key) (sets vote.epoch).validators
        ∧ qc.aggregateSignature.signatures
          = voterSignatures (votesFor (votes ++ [vote]) vote.key) (sets vote.epoch).validators := by
  refine ⟨_, h.addVote_eq hvote, ?_⟩
  have hnew : (votesFor votes vote.key).any (·.validator = vote.validator) = true ↔
      ¬ ∀ v ∈ votes, v.key = vote.key → v.validator ≠ vote.validator := by
    simp [votesFor]
  have hquorum : hasQuorum (sets vote.epoch) (vc.aggregateWith (sets vote.epoch) vote) = true ↔
      (sets vote.epoch).quorumThreshold
        ≤ voterPower (votesFor (votes ++ [vote]) vote.key) (sets vote.epoch).validators := by
    rw [h.aggregateWith_eq, hasQuorum, decide_eq_true_iff, signedPower_voterBits]
  split_ifs with hany hreached
  · refine ⟨⟨fun hsome => (by cases hsome), fun hboth => ?_⟩, fun qc hqc => by cases hqc⟩
    exact absurd hboth.1 (hnew.mp hany)
  · refine ⟨⟨fun _ => ⟨?_, hquorum.mp hreached⟩, fun _ => rfl⟩, fun qc hqc => ?_⟩
    · exact not_not.mp fun hnot => hany (hnew.mpr hnot)
    · cases hqc
      rw [h.aggregateWith_eq]
      exact ⟨rfl, rfl, rfl, rfl, rfl⟩
  · refine ⟨⟨fun hsome => (by cases hsome), fun hboth => ?_⟩, fun qc hqc => by cases hqc⟩
    exact absurd (hquorum.mpr hboth.2) hreached

/-- The heaviest of four validators certifies a block alone. -/
theorem qc_formation_weighted :
    ∃ result, (new.addVote weighted ⟨0, ⟨1⟩, 5, 3, ⟨[1]⟩, .vote, none⟩ 0).1 = .ok result
      ∧ result.qc.isSome = true := by
  have hvote : Admitted weighted ⟨0, ⟨1⟩, 5, 3, ⟨[1]⟩, .vote, none⟩ 0 :=
    ⟨rfl, fun _ => rfl, by decide⟩
  obtain ⟨result, hresult, hqc, -⟩ :=
    qc_formation (.new : Collected (fun _ => weighted) [] .new) hvote
  exact ⟨result, hresult, hqc.mpr ⟨fun v hv => absurd hv not_mem_nil, by decide⟩⟩

/-! ### Equivocations -/

/-- **The scan finds an equivocation exactly if there is one**, in whatever order it goes
through the buckets. -/
lemma findEquivocation_isSome_iff (vc : VoteCollector) (vote : Vote) (epoch : ℕ) :
    (vc.findEquivocation vote epoch).isSome = true ↔ ∃ hash existing,
      existing ∈ vc.bucket (epoch, vote.view, hash, vote.voteType) ∧ hash ≠ vote.blockHash
        ∧ existing.validator = vote.validator := by
  constructor
  · intro hsome
    obtain ⟨proof, hproof⟩ := isSome_iff_exists.mp hsome
    obtain ⟨hash, existing, hmem, hne, hid, -⟩ := findEquivocation_some hproof
    exact ⟨hash, existing, hmem, hne, hid⟩
  · rintro ⟨hash, existing, hmem, hne, hid⟩
    unfold bucket at hmem
    cases hlookup : vc.votes.lookup (epoch, vote.view, hash, vote.voteType) with
    | none =>
      rw [hlookup] at hmem
      cases hmem
    | some held =>
      rw [hlookup] at hmem
      have hentry : (⟨(epoch, vote.view, hash, vote.voteType), held⟩ : Sigma fun _ : VoteKey =>
          List Vote) ∈ vc.votes.entries := AList.mem_lookup_iff.mp hlookup
      refine findSome?_isSome_iff.mpr ⟨_, hentry, ?_⟩
      rw [if_pos ⟨rfl, rfl, rfl, hne⟩, isSome_map, find?_isSome]
      exact ⟨existing, hmem, decide_eq_true hid⟩

/-- The vote carries a valid signature of a member. -/
def SignedBy (c : Crypto) (chainIdHash : Digest) (vs : ValidatorSet) (vote : Vote) : Prop :=
  ∃ vi, vs.get vote.validator = some vi
    ∧ c.verify vi.publicKey (c.payloadOfVote chainIdHash vote) vote.signature = true

/-- The votes are of one validator, epoch, view and type, for different blocks. -/
def Conflicts (held vote : Vote) : Prop :=
  held.validator = vote.validator ∧ held.epoch = vote.epoch ∧ held.view = vote.view
    ∧ held.voteType = vote.voteType ∧ held.blockHash ≠ vote.blockHash

/-- What the collector holds is what it was given. -/
lemma Collected.mem_of_mem_bucket (h : Collected sets votes vc) {key : VoteKey}
    (hv : v ∈ vc.bucket key) : v ∈ votes ∧ v.key = key := by
  rw [h.bucket_eq] at hv
  obtain ⟨hv, hkey⟩ := mem_filter.mp (Firsts.mem_of_mem_firsts _ hv)
  exact ⟨hv, of_decide_eq_true hkey⟩

/-- Of every vote it was given it holds one of the same validator in the same bucket. -/
lemma Collected.held_of_mem (h : Collected sets votes vc) (hv : v ∈ votes) :
    ∃ held, held ∈ vc.bucket v.key ∧ held.key = v.key ∧ held.validator = v.validator := by
  have hany : (vc.bucket v.key).any (·.validator = v.validator) = true := by
    rw [h.bucket_eq, Firsts.any_firsts]
    exact any_eq_true.mpr ⟨v, mem_filter.mpr ⟨hv, by simp⟩, by simp⟩
  obtain ⟨held, hheld, hid⟩ := any_eq_true.mp hany
  exact ⟨held, hheld, (h.mem_of_mem_bucket hheld).2, of_decide_eq_true hid⟩

/-- A proof made of two signed votes that conflict is accepted. -/
lemma validateEvidence_of_votes {c : Crypto} {chainIdHash : Digest}
    {held : Vote} (hheld : Admitted vs held held.epoch) (hvote : Admitted vs vote vote.epoch)
    (hsigned : SignedBy c chainIdHash vs held) (hsigned' : SignedBy c chainIdHash vs vote)
    (hconflict : Conflicts held vote) {epoch : Epoch} (hnumber : epoch.number = vote.epoch)
    (hset : epoch.validatorSet = vs) (previous : Option Epoch) {blockView : ℕ}
    (hview : vote.view ≤ blockView) :
    validateEvidence c ⟨vote.validator, vote.view, vote.voteType, vote.epoch, held.blockHash,
      held.signature, held.extension, vote.blockHash, vote.signature, vote.extension⟩ blockView
      epoch previous chainIdHash = .ok () := by
  obtain ⟨hid, hepoch, hviews, htype, hne⟩ := hconflict
  obtain ⟨vi, hget, hsig⟩ := hsigned
  obtain ⟨vi', hget', hsig'⟩ := hsigned'
  rw [hid] at hget
  obtain rfl := some.inj (hget.symm.trans hget')
  have hext : ¬ (vote.voteType = .vote ∧ (held.extension.isSome = true
      ∨ vote.extension.isSome = true)) := by
    rintro ⟨hfirst, hsome | hsome⟩
    · rw [hheld.extension (htype.trans hfirst)] at hsome
      cases hsome
    · rw [hvote.extension hfirst] at hsome
      cases hsome
  have hallowed : ¬ (held.blockHash = vote.blockHash ∨ epoch.number < vote.epoch
      ∨ blockView < vote.view ∨ (vote.voteType = .vote ∧ (held.extension.isSome = true
        ∨ vote.extension.isSome = true))) := by
    rintro (heq | hlt | hlt | hextension)
    · exact hne heq
    · omega
    · omega
    · exact hext hextension
  -- the checker rebuilds the payloads of the two votes
  rw [Crypto.payloadOfVote, hepoch, hviews, hid, htype] at hsig
  rw [Crypto.payloadOfVote] at hsig'
  unfold validateEvidence
  rw [hset, hget', some_or]
  dsimp only
  rw [if_neg hallowed, hsig, hsig']
  rfl

/-- **Equivocation detection.**  After any sequence of admitted, correctly signed votes, such a
vote is reported as an equivocation exactly if the collector holds a vote that conflicts with
it, that is, if it was given one.  Every proof it reports is accepted by `validate_evidence`
for the epoch of the vote, whatever epoch came before, in every block of the vote's view or a
later one. -/
theorem equivocation_detection (c : Crypto) (chainIdHash : Digest) (h : Collected sets votes vc)
    (hsigned : ∀ v ∈ votes, SignedBy c chainIdHash (sets v.epoch) v) {vote : Vote}
    (hvote : Admitted (sets vote.epoch) vote vote.epoch)
    (hvoteSigned : SignedBy c chainIdHash (sets vote.epoch) vote) :
    ∃ result, (vc.addVote (sets vote.epoch) vote vote.epoch).1 = .ok result
      ∧ (result.equivocation.isSome = true ↔
        ∃ held, held ∈ vc.bucket held.key ∧ Conflicts held vote)
      ∧ (result.equivocation.isSome = true ↔ ∃ earlier ∈ votes, Conflicts earlier vote)
      ∧ ∀ proof, result.equivocation = some proof → ∀ (epoch : Epoch) (previous : Option Epoch)
        (blockView : ℕ), epoch.number = vote.epoch → epoch.validatorSet = sets vote.epoch →
        vote.view ≤ blockView →
        validateEvidence c proof blockView epoch previous chainIdHash = .ok () := by
  obtain ⟨result, hresult⟩ : ∃ result,
      (vc.addVote (sets vote.epoch) vote vote.epoch).1 = .ok result :=
    ⟨_, h.addVote_eq hvote⟩
  have hequivocation := addVote_equivocation hresult
  -- a bucket of the vote's epoch, view and type with another hash has conflicting votes
  have hconflicts : ∀ {hash : BlockHash} {held : Vote},
      held ∈ vc.bucket (vote.epoch, vote.view, hash, vote.voteType) → hash ≠ vote.blockHash →
      held.validator = vote.validator →
      held ∈ votes ∧ held ∈ vc.bucket held.key ∧ Conflicts held vote := by
    intro hash held hheld hne hid
    obtain ⟨hmem, hkey⟩ := h.mem_of_mem_bucket hheld
    rw [← hkey] at hheld
    obtain ⟨hepoch, hview, hhash, htype⟩ : held.epoch = vote.epoch ∧ held.view = vote.view
        ∧ held.blockHash = hash ∧ held.voteType = vote.voteType := by
      simpa [Vote.key] using hkey
    exact ⟨hmem, hheld, hid, hepoch, hview, htype, hhash ▸ hne⟩
  have hfound : ∀ {held : Vote}, held ∈ vc.bucket held.key → Conflicts held vote →
      (vc.findEquivocation vote vote.epoch).isSome = true := by
    rintro held hheld ⟨hid, hepoch, hview, htype, hne⟩
    refine (findEquivocation_isSome_iff vc vote vote.epoch).mpr ⟨held.blockHash, held, ?_, hne, hid⟩
    rw [← hepoch, ← hview, ← htype]
    exact hheld
  refine ⟨result, hresult, ?_, ?_, ?_⟩
  · rw [hequivocation]
    constructor
    · intro hsome
      obtain ⟨hash, held, hheld, hne, hid⟩ := (findEquivocation_isSome_iff _ _ _).mp hsome
      obtain ⟨-, hheld, hconflict⟩ := hconflicts hheld hne hid
      exact ⟨held, hheld, hconflict⟩
    · rintro ⟨held, hheld, hconflict⟩
      exact hfound hheld hconflict
  · rw [hequivocation]
    constructor
    · intro hsome
      obtain ⟨hash, held, hheld, hne, hid⟩ := (findEquivocation_isSome_iff _ _ _).mp hsome
      obtain ⟨hmem, -, hconflict⟩ := hconflicts hheld hne hid
      exact ⟨held, hmem, hconflict⟩
    · rintro ⟨earlier, hearlier, hid, hepoch, hview, htype, hne⟩
      obtain ⟨held, hheld, hkey, hid'⟩ := h.held_of_mem hearlier
      obtain ⟨hepoch', hview', hhash', htype'⟩ : held.epoch = earlier.epoch
          ∧ held.view = earlier.view ∧ held.blockHash = earlier.blockHash
          ∧ held.voteType = earlier.voteType := by
        simpa [Vote.key] using hkey
      rw [← hkey] at hheld
      exact hfound hheld ⟨hid'.trans hid, hepoch'.trans hepoch, hview'.trans hview,
        htype'.trans htype, hhash' ▸ hne⟩
  · intro proof hproof epoch previous blockView hnumber hset hview
    rw [hequivocation] at hproof
    obtain ⟨hash, held, hheld, hne, hid, rfl⟩ := findEquivocation_some hproof
    obtain ⟨hmem, -, hconflict⟩ := hconflicts hheld hne hid
    have hepoch := hconflict.2.1
    have hadmitted := h.admitted held hmem
    have hheldSigned := hsigned held hmem
    rw [hepoch] at hadmitted hheldSigned
    exact validateEvidence_of_votes (hepoch.symm ▸ hadmitted) hvote hheldSigned hvoteSigned
      hconflict hnumber hset previous hview

/-- Two votes of one validator in one view: the second is reported. -/
theorem equivocation_detection_weighted :
    ∃ result, ((new.addVote weighted ⟨0, ⟨1⟩, 5, 3, ⟨[1]⟩, .vote, none⟩ 0).2.addVote
        weighted ⟨0, ⟨2⟩, 5, 3, ⟨[1]⟩, .vote, none⟩ 0).1 = .ok result
      ∧ result.equivocation.isSome = true := by
  have hget : weighted.get 3 = some ⟨3, ⟨replicate 32 3⟩, 70⟩ := by decide
  have hvote : ∀ hash, Admitted weighted ⟨0, hash, 5, 3, ⟨[1]⟩, .vote, none⟩ 0 :=
    fun _ => ⟨rfl, fun _ => rfl, by rw [hget]; rfl⟩
  have hsigned : ∀ hash, SignedBy (.ofHash (fun _ => 0) fun _ _ sig => sig.bytes = [1]) 0
      weighted ⟨0, hash, 5, 3, ⟨[1]⟩, .vote, none⟩ :=
    fun _ => ⟨_, hget, rfl⟩
  have hrun : Collected (fun _ => weighted)
      ([] ++ [⟨0, ⟨1⟩, 5, 3, ⟨[1]⟩, .vote, none⟩]) _ := .add .new (hvote ⟨1⟩)
  obtain ⟨result, hresult, -, hgiven, -⟩ := equivocation_detection
    (.ofHash (fun _ => 0) fun _ _ sig => sig.bytes = [1]) 0 hrun
    (fun v hv => mem_singleton.mp hv ▸ hsigned ⟨1⟩) (hvote ⟨2⟩) (hsigned ⟨2⟩)
  refine ⟨result, hresult, hgiven.mpr ⟨_, mem_singleton.mpr rfl, rfl, rfl, rfl, rfl, ?_⟩⟩
  decide

end Run

end VoteCollector

end Hotmint
