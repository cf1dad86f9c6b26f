/-
Aggregates built from collected votes pass the checks of `engine.rs`.

* `verifySigners_insert`: setting one more bit, with its signature at the place of
  the bit, keeps a bitfield accepted;
* `aggregateVotes_concat`, `verifySigners_aggregateVotes`: **the votes of an
  aggregate may come in any order**;
* `addAll_new`: a sequence of `add` calls fills a table with one slot per validator;
* `add_calls_aligned`: **the signatures of an aggregate are in the order of its bits**,
  whatever the order of the calls;
* `extensionOf_collectExtensions`: the extension looked up for a signer is the one
  its vote carries;
* `verifyVoteAggregate_collected`: **an aggregate of signed votes with quorum power
  passes `verify_vote_aggregate`** with the extensions of its votes;
* `canonicalVoteExtensions_collected`: `canonical_vote_extensions` gives these
  extensions back, in the order of the set.
-/
import Mathlib.Data.List.Induction
import Mathlib.Data.List.ReduceOption
import Hotmint.Consensus.Collectors
import Hotmint.Consensus.Verify

namespace Hotmint

open List Option Keyring
variable {exts : List (ℕ × Bytes)} {bits : List Bool} {vote : Vote} {id idx : ℕ}
variable {agg : AggregateSignature} {blockHash : BlockHash} {c : Crypto} {k : Keyring}
  {validators : List ValidatorInfo} {sig : Signature} {α : Type*} {vs : ValidatorSet}
  {epoch view : ℕ}

/-! ### Bitfields -/

/-- One more signer: its bit is set and its signature inserted in index order. -/
lemma verifySigners_insert {ok : α → Signature → Bool}
    {entries : List α} {sigs : List Signature} (h : verifySigners ok bits entries sigs = true)
    {a : α} (hbit : bits[idx]? = some false)
    (hentry : entries[idx]? = some a) (hok : ok a sig = true) :
    verifySigners ok (bits.set idx true) entries
      (sigs.insertIdx ((bits.take idx).count true) sig) = true := by
  -- along the bitfield up to the new bit; the set bits before it are its position
  induction bits generalizing idx entries sigs with
  | nil => cases hbit
  | cons bit bits ih =>
    cases entries with
    | nil => cases hentry
    | cons b entries =>
      cases idx with
      | zero =>
        obtain rfl : b = a := some.inj hentry
        obtain rfl : bit = false := some.inj hbit
        have hrest : verifySigners ok bits entries sigs = true := h
        change (ok b sig && verifySigners ok bits entries sigs) = true
        rw [hok, hrest]
        rfl
      | succ idx =>
        cases bit with
        | false =>
          have hrest : verifySigners ok bits entries sigs = true := h
          have hset := ih hrest hbit hentry
          rw [set_cons_succ, take_succ_cons, count_cons_of_ne (by decide)]
          exact hset
        | true =>
          cases sigs with
          | nil => cases h
          | cons s sigs =>
            obtain ⟨hs, hrest⟩ := Bool.and_eq_true_iff.mp h
            have hset := ih hrest hbit hentry
            rw [set_cons_succ, take_succ_cons, count_cons_self, insertIdx_succ_cons]
            exact Bool.and_eq_true_iff.mpr ⟨hs, hset⟩

lemma verifySigners_replicate (ok : α → Signature → Bool) (n : ℕ) (entries : List α) :
    verifySigners ok (replicate n false) entries [] = true := by
  induction n generalizing entries with
  | zero => rfl
  | succ n ih => exact ih entries.tail

lemma AggregateSignature.add_eq_some {agg' : AggregateSignature}
    (h : agg.add idx sig = some agg') : agg.signers[idx]? = some false
      ∧ agg' = ⟨agg.signers.set idx true,
        agg.signatures.insertIdx ((agg.signers.take idx).count true) sig⟩ := by
  unfold add at h
  split at h
  · cases h
  · cases h
  · next hbit => exact ⟨hbit, (some.inj h).symm⟩

/-- The index of an id is that of the entry found under it. -/
lemma ValidatorSet.indexOf_eq_some (h : vs.indexOf id = some idx) :
    ∃ vi, vs.validators[idx]? = some vi ∧ vi.id = id ∧ vs.get id = some vi := by
  obtain ⟨hlt, hid, hbefore⟩ := findIdx?_eq_some_iff_getElem.mp h
  refine ⟨vs.validators[idx], getElem?_eq_getElem hlt, of_decide_eq_true hid, ?_⟩
  refine find?_eq_some_iff_getElem.mpr ⟨hid, idx, hlt, rfl, fun j hj => ?_⟩
  simpa using hbefore j hj

/-! ### Aggregates of votes -/

/-- The last vote of an aggregate is added to the aggregate of the others. -/
lemma aggregateVotes_concat {votes : List Vote}
    (h : aggregateVotes vs (votes ++ [vote]) = some agg) :
    ∃ acc idx, aggregateVotes vs votes = some acc ∧ vs.indexOf vote.validator = some idx
      ∧ acc.add idx vote.signature = some agg := by
  unfold aggregateVotes at h
  rw [foldlM_append, bind_eq_bind, bind_eq_some_iff] at h
  obtain ⟨acc, hacc, hadd⟩ := h
  rw [foldlM_cons, bind_eq_bind, bind_eq_some_iff] at hadd
  obtain ⟨last, hlast, hnil⟩ := hadd
  obtain rfl : last = agg := some.inj hnil
  split at hlast
  · cases hlast
  · next idx hidx => exact ⟨acc, idx, hacc, hidx, hlast⟩

variable {vs : ValidatorSet} {votes : List Vote} {agg : AggregateSignature}

lemma length_signers (h : aggregateVotes vs votes = some agg) :
    agg.signers.length = vs.validatorCount := by
  induction votes using reverseRecOn generalizing agg with
  | nil =>
    obtain rfl : AggregateSignature.new vs.validatorCount = agg := some.inj h
    exact length_replicate
  | append_singleton votes vote ih =>
    obtain ⟨acc, idx, hacc, -, hadd⟩ := aggregateVotes_concat h
    obtain ⟨-, rfl⟩ := AggregateSignature.add_eq_some hadd
    rw [length_set]
    exact ih hacc

/-- A vote sets the bit of its validator. -/
lemma signer_of_mem (h : aggregateVotes vs votes = some agg) (hvote : vote ∈ votes) :
    ∃ idx, vs.indexOf vote.validator = some idx ∧ agg.signers[idx]? = some true := by
  induction votes using List.reverseRecOn generalizing agg with
  | nil => cases hvote
  | append_singleton votes last ih =>
    obtain ⟨acc, idx, hacc, hidx, hadd⟩ := aggregateVotes_concat h
    obtain ⟨hbit, rfl⟩ := AggregateSignature.add_eq_some hadd
    rcases List.mem_append.mp hvote with hold | hlast
    · obtain ⟨idx', hidx', hset⟩ := ih hacc hold
      refine ⟨idx', hidx', ?_⟩
      have hne : idx ≠ idx' := by
        rintro rfl
        rw [hbit] at hset
        cases hset
      rw [List.getElem?_set_ne hne]
      exact hset
    · rw [List.mem_singleton.mp hlast]
      refine ⟨idx, hidx, ?_⟩
      obtain ⟨hlt, -⟩ := List.getElem?_eq_some_iff.mp hbit
      exact List.getElem?_set_self hlt

/-- No validator votes twice in an aggregate. -/
lemma nodup_voters (h : aggregateVotes vs votes = some agg) : (votes.map (·.validator)).Nodup := by
  induction votes using reverseRecOn generalizing agg with
  | nil => exact nodup_nil
  | append_singleton votes last ih =>
    obtain ⟨acc, idx, hacc, hidx, hadd⟩ := aggregateVotes_concat h
    obtain ⟨hbit, -⟩ := AggregateSignature.add_eq_some hadd
    rw [map_append, map_singleton]
    refine nodup_append.mpr ⟨ih hacc, nodup_singleton _, fun id hid id' hid' heq => ?_⟩
    obtain ⟨vote, hvote, rfl⟩ := mem_map.mp hid
    obtain ⟨idx', hidx', hset⟩ := signer_of_mem hacc hvote
    rw [heq, mem_singleton.mp hid', hidx] at hidx'
    obtain rfl := some.inj hidx'
    rw [hbit] at hset
    cases hset

/-- **The votes of an aggregate may come in any order**: its bitfield is accepted by
every check that each of them passes. -/
lemma verifySigners_aggregateVotes (ok : ValidatorInfo → Signature → Bool)
    (h : aggregateVotes vs votes = some agg) (hok : ∀ vote ∈ votes, ∀ vi,
      vs.get vote.validator = some vi → ok vi vote.signature = true) :
    verifySigners ok agg.signers vs.validators agg.signatures = true := by
  induction votes using reverseRecOn generalizing agg with
  | nil =>
    obtain rfl : AggregateSignature.new vs.validatorCount = agg := some.inj h
    exact verifySigners_replicate ok _ _
  | append_singleton votes last ih =>
    obtain ⟨acc, idx, hacc, hidx, hadd⟩ := aggregateVotes_concat h
    obtain ⟨hbit, rfl⟩ := AggregateSignature.add_eq_some hadd
    obtain ⟨vi, hentry, -, hget⟩ := ValidatorSet.indexOf_eq_some hidx
    refine verifySigners_insert (ih hacc fun vote hvote => ?_) hbit hentry ?_
    · exact hok vote (mem_append_left _ hvote)
    · exact hok last (mem_append_right _ (mem_singleton.mpr rfl)) vi hget

/-! ### Adding in any order -/

namespace AggregateSignature

/-- The aggregate of a table with one slot per validator. -/
def ofSlots (slots : List (Option Signature)) : AggregateSignature :=
  ⟨slots.map (·.isSome), slots.reduceOption⟩

/-- A sequence of `add` calls; a call that is rejected leaves the aggregate. -/
def addAll (agg : AggregateSignature) (adds : List (ℕ × Signature)) : AggregateSignature :=
  adds.foldl (fun agg a => (agg.add a.1 a.2).getD agg) agg

/-- The indices of the set bits, in order. -/
def setBits (agg : AggregateSignature) : List ℕ :=
  (range agg.signers.length).filter fun i => agg.signers[i]? = some true

/-- The signature that a sequence of calls gives first for an index. -/
def given (adds : List (ℕ × Signature)) (i : ℕ) : Option Signature :=
  (adds.find? (·.1 = i)).map (·.2)

variable {slots : List (Option Signature)} {i : ℕ} {sig : Signature}

/-- Filling a free slot puts its signature behind those of the slots before it. -/
lemma reduceOption_set (h : slots[i]? = some none) : (slots.set i (some sig)).reduceOption
    = slots.reduceOption.insertIdx (((slots.map (·.isSome)).take i).count true) sig := by
  induction slots generalizing i with
  | nil => cases h
  | cons slot slots ih =>
    cases i with
    | zero =>
      obtain rfl : slot = none := some.inj h
      rfl
    | succ i =>
      have hrest := ih h
      cases slot with
      | none | some s => simpa using hrest

/-- What `add` does to the aggregate of a table: a free slot is filled, else the call is
rejected. -/
lemma add_ofSlots (slots : List (Option Signature)) (i : ℕ) (sig : Signature) :
    ((ofSlots slots).add i sig).getD (ofSlots slots)
      = ofSlots (if slots[i]? = some none then slots.set i (some sig) else slots) := by
  unfold add
  split_ifs with h
  · have hbit : (ofSlots slots).signers[i]? = some false := by simp [ofSlots, h]
    rw [hbit, getD_some]
    simp only [ofSlots, reduceOption_set h, map_set, isSome_some]
  · rcases hslot : slots[i]? with _ | (_ | s)
    · simp [ofSlots, hslot]
    · exact absurd hslot h
    · simp [ofSlots, hslot]

lemma given_concat (adds : List (ℕ × Signature)) (a : ℕ × Signature) (i : ℕ) :
    given (adds ++ [a]) i = (given adds i).or (if a.1 = i then some a.2 else none) := by
  unfold given
  rw [find?_append, map_or, find?_singleton]
  split_ifs with h h' h' <;> simp_all

/-- **The calls fill a table** with the signature given first for each index. -/
lemma addAll_new (n : ℕ) (adds : List (ℕ × Signature)) :
    (new n).addAll adds = ofSlots ((range n).map (given adds)) := by
  induction adds using reverseRecOn with
  | nil =>
    have hslots : (range n).map (given []) = replicate n none := by
      rw [eq_replicate_iff, length_map, length_range]
      simp [given]
    rw [hslots]
    simp [addAll, new, ofSlots, reduceOption_replicate_none]
  | append_singleton adds a ih =>
    rw [addAll, foldl_append, foldl_cons, foldl_nil, ← addAll, ih, add_ofSlots]
    congr 1
    refine ext_getElem? fun j => ?_
    have hget : ∀ (f : ℕ → Option Signature) (j : ℕ),
        ((range n).map f)[j]? = if j < n then some (f j) else none := by
      intro f j
      split_ifs with hj
      · simp [getElem?_range hj]
      · simp [hj]
    by_cases heq : a.1 = j
    · subst heq
      rw [hget, hget, given_concat, if_pos rfl]
      cases hgiven : given adds a.1 with
      | none => by_cases hj : a.1 < n <;> simp [hj]
      | some s => by_cases hj : a.1 < n <;> simp [hj, hgiven]
    · rw [apply_ite fun slots : List (Option Signature) => slots[j]?, getElem?_set_ne heq, ite_self,
        hget, hget, given_concat, if_neg heq, or_none]

/-- When no index is given two signatures, all calls with an index give its one. -/
lemma given_eq_some_iff {adds : List (ℕ × Signature)}
    (hone : ∀ a ∈ adds, ∀ b ∈ adds, a.1 = b.1 → a = b) :
    given adds i = some sig ↔ (i, sig) ∈ adds := by
  constructor
  · intro h
    obtain ⟨a, hfind, rfl⟩ := map_eq_some_iff.mp h
    obtain rfl : a.1 = i := by simpa using find?_some hfind
    exact mem_of_find?_eq_some hfind
  · intro h
    have hfound : (adds.find? (·.1 = i)).isSome := find?_isSome.mpr ⟨_, h, by simp⟩
    obtain ⟨a, hfind⟩ := isSome_iff_exists.mp hfound
    have hi : a.1 = i := by simpa using find?_some hfind
    obtain rfl := hone a (mem_of_find?_eq_some hfind) _ h hi
    rw [given, hfind, map_some]

/-- The signatures are those of the set bits, one by one. -/
lemma map_some_signatures (n : ℕ) (adds : List (ℕ × Signature)) :
    ((new n).addAll adds).signatures.map some = ((new n).addAll adds).setBits.map (given adds) := by
  have hbits : ((new n).addAll adds).setBits = (range n).filter fun i => (given adds i).isSome := by
    unfold setBits
    rw [addAll_new, ofSlots, length_map, length_map, length_range]
    refine filter_congr fun i hi => ?_
    simp [getElem?_range (mem_range.mp hi)]
  rw [hbits, addAll_new]
  unfold ofSlots reduceOption
  dsimp only
  rw [filterMap_map, Function.id_comp]
  induction range n with
  | nil => rfl
  | cons i indices ih =>
    cases hgiven : given adds i with
    | none | some sig => simpa [hgiven] using ih

/-- **Aggregate signatures are in the order of the bits.**  After any sequence of `add` calls
on a new aggregate, there are as many signatures as set bits, and the one at each place is
the first that was given for the set bit at this place; leaving a rejected call out gives the
same aggregate, and so does any permutation of calls that give one signature per index. -/
theorem add_calls_aligned (n : ℕ) (adds : List (ℕ × Signature)) :
    let agg := (new n).addAll adds
    agg.signatures.length = agg.count ∧ (∀ k i : ℕ, agg.setBits[k]? = some i →
      ∃ sig, given adds i = some sig ∧ agg.signatures[k]? = some sig)
    ∧ (∀ before i sig after, adds = before ++ (i, sig) :: after →
      ((new n).addAll before).add i sig = none → (new n).addAll (before ++ after) = agg)
    ∧ ∀ adds' : List (ℕ × Signature), adds'.Perm adds →
      (∀ a ∈ adds, ∀ b ∈ adds, a.1 = b.1 → a = b) → (new n).addAll adds' = agg := by
  refine ⟨?_, fun k i hbit => ?_, ?_, fun adds' hperm hone => ?_⟩
  · rw [addAll_new, count, count_eq_countP, ofSlots, countP_map, countP_eq_length_filter,
      reduceOption_length_eq]
    simp [Function.comp_def]
  · have hsig : (((new n).addAll adds).signatures.map some)[k]? = some (given adds i) := by
      rw [map_some_signatures, getElem?_map, hbit, map_some]
    obtain ⟨sig, hget, hgiven⟩ := map_eq_some_iff.mp (getElem?_map.symm.trans hsig)
    exact ⟨sig, hgiven.symm, hget⟩
  · rintro before i sig after rfl hreject
    rw [addAll, addAll, foldl_append, foldl_append, foldl_cons, ← addAll]
    change _ = addAll ((((new n).addAll before).add i sig).getD _) after
    rw [hreject, getD_none]
  · rw [addAll_new, addAll_new]
    congr 2
    funext i
    have hone' : ∀ a ∈ adds', ∀ b ∈ adds', a.1 = b.1 → a = b := fun a ha b hb =>
      hone a (hperm.mem_iff.mp ha) b (hperm.mem_iff.mp hb)
    ext sig
    rw [given_eq_some_iff hone', given_eq_some_iff hone, hperm.mem_iff]

end AggregateSignature

/-! ### Extensions -/

namespace Keyring

/-- Under distinct ids the lookup finds exactly the listed pairs. -/
lemma extensionOf_eq_some_iff {extensions : List (ℕ × Bytes)} {ext : Bytes}
    (hnodup : (extensions.map (·.1)).Nodup) :
    extensionOf extensions id = some ext ↔ (id, ext) ∈ extensions := by
  unfold extensionOf
  constructor
  · intro h
    obtain ⟨⟨id', ext'⟩, hfind, rfl⟩ := map_eq_some_iff.mp h
    obtain rfl : id' = id := by simpa using find?_some hfind
    exact mem_reverse.mp (mem_of_find?_eq_some hfind)
  · intro h
    cases hfind : extensions.reverse.find? (·.1 = id) with
    | none =>
      have hnone := find?_eq_none.mp hfind (id, ext) (mem_reverse.mpr h)
      exact absurd (decide_eq_true rfl) hnone
    | some entry =>
      have hid : entry.1 = id := by simpa using find?_some hfind
      have hmem := mem_reverse.mp (mem_of_find?_eq_some hfind)
      obtain rfl := inj_on_of_nodup_map hnodup hmem h hid
      rfl

end Keyring

lemma mem_collectExtensions {entry : ℕ × Bytes} : entry ∈ VoteCollector.collectExtensions votes
      ↔ ∃ vote ∈ votes, vote.validator = entry.1 ∧ vote.extension = some entry.2 := by
  unfold VoteCollector.collectExtensions
  rw [mem_filterMap]
  constructor
  · rintro ⟨vote, hvote, hentry⟩
    obtain ⟨ext, hext, rfl⟩ := map_eq_some_iff.mp hentry
    exact ⟨vote, hvote, rfl, hext⟩
  · rintro ⟨vote, hvote, hid, hext⟩
    exact ⟨vote, hvote, by rw [hext, hid]; rfl⟩

lemma nodup_collectExtensions (h : (votes.map (·.validator)).Nodup) :
    ((VoteCollector.collectExtensions votes).map (·.1)).Nodup := by
  induction votes with
  | nil => exact nodup_nil
  | cons vote votes ih =>
    obtain ⟨hnew, hrest⟩ := nodup_cons.mp h
    cases hext : vote.extension with
    | none =>
      have heq : VoteCollector.collectExtensions (vote :: votes)
          = VoteCollector.collectExtensions votes := by
        simp [VoteCollector.collectExtensions, hext]
      rw [heq]
      exact ih hrest
    | some ext =>
      have heq : VoteCollector.collectExtensions (vote :: votes)
          = (vote.validator, ext) :: VoteCollector.collectExtensions votes := by
        simp [VoteCollector.collectExtensions, hext]
      rw [heq, map_cons]
      refine nodup_cons.mpr ⟨fun hmem => hnew ?_, ih hrest⟩
      obtain ⟨entry, hentry, hid⟩ := mem_map.mp hmem
      obtain ⟨vote', hvote', hid', -⟩ := mem_collectExtensions.mp hentry
      exact mem_map.mpr ⟨vote', hvote', hid'.trans hid⟩

/-- **The extension of a signer** is the one its vote carries. -/
lemma extensionOf_collectExtensions (hnodup : (votes.map (·.validator)).Nodup)
    (hvote : vote ∈ votes) : extensionOf (VoteCollector.collectExtensions votes) vote.validator
      = vote.extension := by
  refine ext fun ext => ?_
  rw [extensionOf_eq_some_iff (nodup_collectExtensions hnodup), mem_collectExtensions]
  constructor
  · rintro ⟨vote', hvote', hid, hext⟩
    obtain rfl := inj_on_of_nodup_map hnodup hvote' hvote hid
    exact hext
  · exact fun hext => ⟨vote, hvote, rfl, hext⟩

/-! ### The check -/

/-- **An aggregate of signed votes with quorum power passes `verify_vote_aggregate`**,
with the extensions of its votes. -/
lemma verifyVoteAggregate_collected
    {voteType : VoteType} (hagg : aggregateVotes vs votes = some agg)
    (hquorum : hasQuorum vs agg = true) (hkey : ∀ vote ∈ votes, (epoch, view, blockHash, voteType)
      = (vote.epoch, vote.view, vote.blockHash, vote.voteType))
    (hextension : ∀ vote ∈ votes, vote.voteType = .vote → vote.extension = none)
    (hsigned : ∀ vote ∈ votes, ∀ vi, vs.get vote.validator = some vi →
      c.verify vi.publicKey (c.payloadOfVote k.chainIdHash vote) vote.signature = true) :
    k.verifyVoteAggregate c vs epoch view blockHash voteType agg
      (VoteCollector.collectExtensions votes) = true := by
  have hlength := length_signers hagg
  have hplain : ¬ voteType = .vote ∨ VoteCollector.collectExtensions votes = [] := by
    refine or_iff_not_imp_left.mpr fun htype => by_contra fun hne => ?_
    obtain ⟨entry, hentry⟩ := exists_mem_of_ne_nil _ hne
    obtain ⟨vote, hvote, -, hext⟩ := mem_collectExtensions.mp hentry
    have hvotes := hkey vote hvote
    simp only [Prod.mk.injEq] at hvotes
    rw [hextension vote hvote (hvotes.2.2.2.symm.trans (not_not.mp htype))] at hext
    cases hext
  have hsigners := verifySigners_aggregateVotes (fun vi sig => c.verify vi.publicKey
    (c.votePayload k.chainIdHash epoch view vi.id blockHash voteType
      (extensionOf (VoteCollector.collectExtensions votes) vi.id)) sig) hagg
    fun vote hvote vi hvi => by
      have hid : vi.id = vote.validator := by simpa using find?_some hvi
      have hvotes := hkey vote hvote
      simp only [Prod.mk.injEq] at hvotes
      obtain ⟨rfl, rfl, rfl, rfl⟩ := hvotes
      rw [hid, extensionOf_collectExtensions (nodup_voters hagg) hvote]
      exact hsigned vote hvote vi hvi
  unfold verifyVoteAggregate
  rw [hsigners, hquorum, decide_eq_true hlength]
  simpa using hplain

/-! ### The canonical extensions -/

/-- The ids of the signers, in the order of the set. -/
def signersOf (bits : List Bool) (validators : List ValidatorInfo) : List ℕ :=
  ((bits.zip validators).filter (·.1)).map (·.2.id)

lemma signersOf_true (bits : List Bool) (vi : ValidatorInfo) (validators : List ValidatorInfo) :
    signersOf (true :: bits) (vi :: validators) = vi.id :: signersOf bits validators := rfl

lemma signersOf_false (bits : List Bool) (vi : ValidatorInfo) (validators : List ValidatorInfo) :
    signersOf (false :: bits) (vi :: validators) = signersOf bits validators := rfl

lemma mem_signersOf
    {vi : ValidatorInfo} (hbit : bits[idx]? = some true) (hvi : validators[idx]? = some vi) :
    vi.id ∈ signersOf bits validators := by
  refine mem_map.mpr ⟨(true, vi), mem_filter.mpr ⟨?_, rfl⟩, rfl⟩
  refine mem_of_getElem? (i := idx) ?_
  rw [getElem?_zip_eq_some]
  exact ⟨hbit, hvi⟩

namespace Keyring

/-- With distinct ids, an extension found by its id is the only one with it. -/
lemma perm_cons_filter {ext : ℕ × Bytes}
    (hnodup : (exts.map (·.1)).Nodup) (hfound : exts.find? (·.1 = id) = some ext) :
    (ext :: exts.filter (·.1 ≠ id)).Perm exts := by
  induction exts with
  | nil => cases hfound
  | cons p exts ih =>
    obtain ⟨hnew, hrest⟩ := nodup_cons.mp hnodup
    by_cases hid : p.1 = id
    · rw [find?_cons_of_pos (by simpa using hid)] at hfound
      cases hfound
      have hall : exts.filter (·.1 ≠ id) = exts := by
        refine filter_eq_self.mpr fun q hq => decide_eq_true fun hq' => ?_
        exact hnew (mem_map.mpr ⟨q, hq, hq'.trans hid.symm⟩)
      rw [filter_cons_of_neg (by simpa using hid), hall]
    · rw [find?_cons_of_neg (by simpa using hid)] at hfound
      rw [filter_cons_of_pos (by simpa using hid)]
      exact (List.Perm.swap _ _ _).trans ((ih hrest hfound).cons p)

/-- **The loop of `canonical_vote_extensions`** takes the extensions of the signers, in the order of
the set. -/
lemma takeExtensions_spec
    (hlength : bits.length = validators.length) (hnodup : (exts.map (·.1)).Nodup) :
    ∃ canonical rest, takeExtensions bits validators exts = some (canonical, rest)
      ∧ (canonical ++ rest).Perm exts
      ∧ (canonical.map (·.1)).Sublist (signersOf bits validators)
      ∧ ∀ p ∈ rest, p.1 ∉ signersOf bits validators := by
  induction bits generalizing validators exts with
  | nil => exact ⟨[], exts, rfl, List.Perm.refl _, nil_sublist _, fun _ _ h => by cases h⟩
  | cons bit bits ih =>
    cases validators with
    | nil => cases hlength
    | cons vi validators =>
      have hlength' : bits.length = validators.length := Nat.succ.inj hlength
      cases bit with
      | false =>
        rw [signersOf_false]
        exact ih hlength' hnodup
      | true =>
        rw [signersOf_true]
        cases hfound : exts.find? (·.1 = vi.id) with
        | none =>
          obtain ⟨canonical, rest, htake, hperm, hsub, hrest⟩ := ih hlength' hnodup
          refine ⟨canonical, rest, ?_, hperm, hsub.cons _, fun p hp hmem => ?_⟩
          · conv_lhs => unfold takeExtensions
            rw [hfound]
            exact htake
          · rcases mem_cons.mp hmem with hid | hmem
            · have hp' := hperm.subset (mem_append_right _ hp)
              exact find?_eq_none.mp hfound p hp' (decide_eq_true hid)
            · exact hrest p hp hmem
        | some ext =>
          have hid : ext.1 = vi.id := by simpa using find?_some hfound
          have hnodup' : ((exts.filter (·.1 ≠ vi.id)).map (·.1)).Nodup :=
            hnodup.sublist (filter_sublist.map _)
          obtain ⟨canonical, rest, htake, hperm, hsub, hrest⟩ := ih hlength' hnodup'
          refine ⟨ext :: canonical, rest, ?_, ?_, ?_, fun p hp hmem => ?_⟩
          · unfold takeExtensions
            rw [hfound]
            dsimp only
            rw [htake]
            rfl
          · exact (hperm.cons ext).trans (perm_cons_filter hnodup hfound)
          · rw [map_cons, hid]
            exact hsub.cons_cons _
          · rcases mem_cons.mp hmem with hvi | hmem
            · have hp' := hperm.subset (mem_append_right _ hp)
              exact of_decide_eq_true (mem_filter.mp hp').2 hvi
            · exact hrest p hp hmem

end Keyring

/-- **The canonical extensions of an aggregate of votes** are the extensions of the votes, those of
the signers in the order of the set. -/
lemma canonicalVoteExtensions_collected {dc : DoubleCertificate}
    (hagg : aggregateVotes vs votes = some dc.outerQc.aggregateSignature)
    (hexts : dc.voteExtensions = VoteCollector.collectExtensions votes) :
    ∃ canonical, canonicalVoteExtensions dc vs = some canonical ∧ canonical.Perm dc.voteExtensions
      ∧ (canonical.map (·.1)).Sublist
        (signersOf dc.outerQc.aggregateSignature.signers vs.validators) := by
  have hlength := length_signers hagg
  have hnodup : (dc.voteExtensions.map (·.1)).Nodup := by
    rw [hexts]
    exact nodup_collectExtensions (nodup_voters hagg)
  obtain ⟨canonical, rest, htake, hperm, hsub, hrest⟩ := takeExtensions_spec hlength hnodup
  -- every extension is one of a signer, so nothing is left
  have hnone : rest = [] := by
    refine eq_nil_iff_forall_not_mem.mpr fun p hp => hrest p hp ?_
    have hmem := hperm.subset (mem_append_right _ hp)
    rw [hexts] at hmem
    obtain ⟨vote, hvote, hid, -⟩ := mem_collectExtensions.mp hmem
    obtain ⟨idx, hidx, hbit⟩ := signer_of_mem hagg hvote
    obtain ⟨vi, hvi, hviid, -⟩ := ValidatorSet.indexOf_eq_some hidx
    rw [← hid, ← hviid]
    exact mem_signersOf hbit hvi
  subst hnone
  refine ⟨canonical, ?_, by simpa using hperm, hsub⟩
  unfold canonicalVoteExtensions
  rw [if_neg (not_not.mpr hlength), if_neg (not_not.mpr hnodup), htake]
  rfl

/-- The check does not depend on the order of the extensions. -/
lemma verifyVoteAggregate_perm {t : VoteType} {exts' : List (ℕ × Bytes)} (hperm : exts.Perm exts')
    (hnodup : (exts'.map (·.1)).Nodup) : k.verifyVoteAggregate c vs epoch view blockHash t agg exts
      = k.verifyVoteAggregate c vs epoch view blockHash t agg exts' := by
  have hlookup : extensionOf exts = extensionOf exts' := by
    funext id
    refine ext fun ext => ?_
    rw [extensionOf_eq_some_iff ((hperm.map _).nodup_iff.mpr hnodup),
      extensionOf_eq_some_iff hnodup, hperm.mem_iff]
  have hempty : exts.isEmpty = exts'.isEmpty := by
    rw [Bool.eq_iff_iff, List.isEmpty_iff, List.isEmpty_iff]
    exact ⟨fun h => (h ▸ hperm).nil_eq.symm, fun h => (h ▸ hperm).eq_nil⟩
  unfold verifyVoteAggregate
  rw [hlookup, hempty]

end Hotmint
