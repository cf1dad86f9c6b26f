/-
What a node accumulates before it can act (`vote_collector.rs`,
`pacemaker.rs`, `liveness.rs`):

* `VoteCollector.addVote`: votes by `(epoch, view, block, type)`, with the
  certificate once a bucket reaches quorum power.  `mem_bucket_addVote` says
  what the buckets hold afterwards, `addVote_formed` where a formed certificate
  comes from, and `findEquivocation_some` what is reported as an equivocation;
* `Pacemaker.addWish`: timeout wishes by target view, with the timeout
  certificate at quorum (`addWish_tc`: every certificate it carries came with
  a wish);
* `LivenessTracker`: missed commit signatures.

Timers and back-off durations are not part of the model: a timeout may fire at
any moment.
-/
import Mathlib.Data.List.Sort
import Hotmint.Consensus.Store

namespace Hotmint

open List Option AList
variable {qc : QuorumCertificate} {vs : ValidatorSet} {vote : Vote} {epoch : ℕ}
variable {highestQc : Option QuorumCertificate} {signature : Signature} {v : Vote}
  {targetView validator view view' : ℕ}

/-! ### Votes -/

/-- The key of a bucket: `(epoch, view, block_hash, vote_type)`. -/
abbrev VoteKey := ℕ × ℕ × BlockHash × VoteType

/-- The key a vote is collected under. -/
def Vote.key (vote : Vote) : VoteKey := (vote.epoch, vote.view, vote.blockHash, vote.voteType)

/-- `VoteCollector`. -/
structure VoteCollector where
  votes : AList fun _ : VoteKey => List Vote

/-- `VoteResult`. -/
structure VoteResult where
  qc : Option QuorumCertificate
  equivocation : Option EquivocationProof
  extensions : List (ℕ × Bytes)

/-- The reasons `add_vote` gives for refusing a vote. -/
inductive AddVoteError
  | epochMismatch (voteEpoch collectorEpoch : ℕ)
  | unexpectedExtension
  | unknownValidator (validator : ℕ)
  | aggregation
deriving DecidableEq, Repr

namespace VoteCollector

/-- `VoteCollector::new`. -/
def new : VoteCollector := ⟨∅⟩

/-- The votes collected under a key. -/
def bucket (vc : VoteCollector) (key : VoteKey) : List Vote := (vc.votes.lookup key).getD []

/-- The scan for an earlier vote of the same validator, view and type for
another block. -/
def findEquivocation (vc : VoteCollector) (vote : Vote) (epoch : ℕ) :
    Option EquivocationProof :=
  vc.votes.entries.findSome? fun entry =>
    if entry.1.1 = epoch ∧ entry.1.2.1 = vote.view ∧ entry.1.2.2.2 = vote.voteType
        ∧ entry.1.2.2.1 ≠ vote.blockHash then
      (entry.2.find? fun ev => ev.validator = vote.validator).map fun existing =>
        { validator := vote.validator
          view := vote.view
          voteType := vote.voteType
          epoch
          blockHashA := existing.blockHash
          signatureA := existing.signature
          extensionA := existing.extension
          blockHashB := vote.blockHash
          signatureB := vote.signature
          extensionB := vote.extension }
    else none

/-- `(validator, extension)` of the votes that carry one. -/
def collectExtensions (votes : List Vote) : List (ℕ × Bytes) :=
  votes.filterMap fun v => v.extension.map fun ext => (v.validator, ext)

/-- `VoteCollector::add_vote`. -/
def addVote (vc : VoteCollector) (vs : ValidatorSet) (vote : Vote) (epoch : ℕ) :
    Except AddVoteError VoteResult × VoteCollector :=
  if vote.epoch ≠ epoch then (.error (.epochMismatch vote.epoch epoch), vc)
  else if vote.voteType = .vote ∧ vote.extension.isSome then (.error .unexpectedExtension, vc)
  else
    let equivocation := vc.findEquivocation vote epoch
    let key : VoteKey := (epoch, vote.view, vote.blockHash, vote.voteType)
    let votes := vc.bucket key
    if votes.any (·.validator = vote.validator) then
      (.ok ⟨none, equivocation, []⟩, ⟨vc.votes.insert key votes⟩)
    else if (vs.get vote.validator).isNone then
      (.error (.unknownValidator vote.validator), ⟨vc.votes.insert key votes⟩)
    else
      let votes := votes ++ [vote]
      let vc' : VoteCollector := ⟨vc.votes.insert key votes⟩
      match aggregateVotes vs votes with
      | none => (.error .aggregation, vc')
      | some agg =>
        if hasQuorum vs agg then
          (.ok ⟨some ⟨vote.blockHash, vote.view, agg, epoch⟩, equivocation,
            collectExtensions votes⟩, vc')
        else (.ok ⟨none, equivocation, []⟩, vc')

/-- `VoteCollector::clear_view`. -/
def clearView (vc : VoteCollector) (view : ℕ) : VoteCollector :=
  ⟨vc.votes.retain fun key => key.2.1 ≠ view⟩

/-- `VoteCollector::prune_before`. -/
def pruneBefore (vc : VoteCollector) (minView : ℕ) : VoteCollector :=
  ⟨vc.votes.retain fun key => minView ≤ key.2.1⟩

section

variable {vc vc' : VoteCollector} {result : VoteResult}
  (h : vc.addVote vs vote epoch = (.ok result, vc')) (hqc : result.qc = some qc)

include h hqc

/-- **How `add_vote` comes to return a certificate**, and what it leaves: the certificate and
the extensions are those of the bucket. -/
lemma addVote_formed : ∃ agg, aggregateVotes vs
        (vc.bucket (epoch, vote.view, vote.blockHash, vote.voteType) ++ [vote]) = some agg
      ∧ hasQuorum vs agg = true ∧ qc = ⟨vote.blockHash, vote.view, agg, epoch⟩
      ∧ vc'.bucket (epoch, vote.view, vote.blockHash, vote.voteType)
        = vc.bucket (epoch, vote.view, vote.blockHash, vote.voteType) ++ [vote]
      ∧ result.extensions = collectExtensions
        (vc.bucket (epoch, vote.view, vote.blockHash, vote.voteType) ++ [vote]) := by
  unfold addVote at h
  dsimp only at h
  split_ifs at h
  · cases h
  · cases h
  · obtain ⟨hres, -⟩ := Prod.mk.inj h
    rw [← Except.ok.inj hres] at hqc
    cases hqc
  · cases h
  · split at h
    · cases h
    · next agg hagg =>
        split_ifs at h with hquorum
        · obtain ⟨hres, hvc⟩ := Prod.mk.inj h
          rw [← Except.ok.inj hres] at hqc ⊢
          refine ⟨agg, hagg, hquorum, (some.inj hqc).symm, ?_, rfl⟩
          rw [← hvc, bucket, lookup_insert, getD_some]
        · obtain ⟨hres, -⟩ := Prod.mk.inj h
          rw [← Except.ok.inj hres] at hqc
          cases hqc

/-- The certificate and the extensions are those of the votes collected for the block. -/
structure Yields (vc : VoteCollector) (vs : ValidatorSet) (epoch : ℕ) (t : VoteType)
    (qc : QuorumCertificate) (exts : List (ℕ × Bytes)) : Prop where
  epoch_eq : qc.epoch = epoch
  aggregate : aggregateVotes vs (vc.bucket (qc.epoch, qc.view, qc.blockHash, t))
    = some qc.aggregateSignature
  quorum : hasQuorum vs qc.aggregateSignature = true
  extensions : exts = collectExtensions (vc.bucket (qc.epoch, qc.view, qc.blockHash, t))

lemma addVote_yields : vc'.Yields vs epoch vote.voteType qc result.extensions := by
  obtain ⟨agg, hagg, hquorum, rfl, hbucket, hexts⟩ := addVote_formed h hqc
  refine ⟨rfl, ?_, hquorum, ?_⟩
  · rw [hbucket]
    exact hagg
  · rw [hexts, hbucket]

lemma addVote_qc_vote : qc.view = vote.view ∧ qc.blockHash = vote.blockHash := by
  obtain ⟨agg, -, -, rfl, -⟩ := addVote_formed h hqc
  exact ⟨rfl, rfl⟩

end

/-- What `add_vote` asks of a vote that it counts. -/
structure Admitted (vs : ValidatorSet) (vote : Vote) (epoch : ℕ) : Prop where
  epoch : vote.epoch = epoch
  extension : vote.voteType = .vote → vote.extension = none
  member : (vs.get vote.validator).isSome = true

/-- The first two checks of `add_vote`. -/
lemma addVote_checks (vc : VoteCollector) (vs : ValidatorSet) (vote : Vote) (epoch : ℕ) :
    (vote.epoch = epoch ∧ (vote.voteType = .vote → vote.extension = none))
      ∨ ((vc.addVote vs vote epoch).1.isOk = false ∧ (vc.addVote vs vote epoch).2 = vc) := by
  unfold addVote
  dsimp only
  split_ifs with hepoch hextension
  · exact .inr ⟨rfl, rfl⟩
  · exact .inr ⟨rfl, rfl⟩
  all_goals
    refine .inl ⟨not_not.mp hepoch, fun htype => ?_⟩
    exact not_isSome_iff_eq_none.mp fun hsome => hextension ⟨htype, hsome⟩

/-- A vote that is counted carries no extension in the first phase. -/
lemma addVote_ok_extension {vc : VoteCollector}
    {result : VoteResult} (h : (vc.addVote vs vote epoch).1 = .ok result) :
    vote.voteType = .vote → vote.extension = none := by
  rcases addVote_checks vc vs vote epoch with ⟨-, hextension⟩ | ⟨herror, -⟩
  · exact hextension
  · rw [h] at herror
    cases herror

/-- **What the buckets hold** after a vote: what they held, and the vote under its
key. -/
lemma mem_bucket_addVote {vc : VoteCollector}
    {key : VoteKey} (h : v ∈ (vc.addVote vs vote epoch).2.bucket key) : v ∈ vc.bucket key
      ∨ (v = vote ∧ key = (vote.epoch, vote.view, vote.blockHash, vote.voteType)
        ∧ Admitted vs vote epoch) := by
  rcases addVote_checks vc vs vote epoch with ⟨hepoch, hextension⟩ | ⟨-, hsame⟩
  rotate_left
  · exact .inl (hsame ▸ h)
  have hinsert : ∀ (k : VoteKey) (votes : List Vote), (∀ x ∈ votes, x ∈ vc.bucket k
      ∨ (x = vote ∧ k = (vote.epoch, vote.view, vote.blockHash, vote.voteType)
        ∧ Admitted vs vote epoch)) →
      v ∈ VoteCollector.bucket ⟨vc.votes.insert k votes⟩ key → v ∈ vc.bucket key
        ∨ (v = vote ∧ key = (vote.epoch, vote.view, vote.blockHash, vote.voteType)
          ∧ Admitted vs vote epoch) := by
    intro k votes hvotes hv
    by_cases hkey : key = k
    · subst hkey
      rw [bucket, lookup_insert] at hv
      exact hvotes v hv
    · rw [bucket, lookup_insert_ne hkey] at hv
      exact .inl hv
  unfold addVote at h
  dsimp only at h
  split_ifs at h with _ _ _ hmember
  · exact .inl h
  · exact .inl h
  · exact hinsert _ _ (fun x hx => .inl hx) h
  · exact hinsert _ _ (fun x hx => .inl hx) h
  · have hnew : ∀ x ∈ vc.bucket (epoch, vote.view, vote.blockHash, vote.voteType) ++ [vote],
        x ∈ vc.bucket (epoch, vote.view, vote.blockHash, vote.voteType) ∨ (x = vote
          ∧ (epoch, vote.view, vote.blockHash, vote.voteType)
            = (vote.epoch, vote.view, vote.blockHash, vote.voteType)
          ∧ Admitted vs vote epoch) := by
      intro x hx
      rcases mem_append.mp hx with hx | hx
      · exact .inl hx
      · refine .inr ⟨mem_singleton.mp hx, by rw [hepoch], hepoch, hextension, ?_⟩
        exact isSome_iff_ne_none.mpr fun hnone => hmember (isNone_iff_eq_none.mpr hnone)
    split at h
    · exact hinsert _ _ hnew h
    · split_ifs at h
      · exact hinsert _ _ hnew h
      · exact hinsert _ _ hnew h

/-- **A reported equivocation** names a collected vote of the same validator, view and
type for another block. -/
lemma findEquivocation_some {vc : VoteCollector}
    {proof : EquivocationProof} (h : vc.findEquivocation vote epoch = some proof) :
    ∃ hash existing, existing ∈ vc.bucket (epoch, vote.view, hash, vote.voteType)
      ∧ hash ≠ vote.blockHash ∧ existing.validator = vote.validator
      ∧ proof = {
        validator := vote.validator
        view := vote.view
        voteType := vote.voteType
        epoch
        blockHashA := existing.blockHash
        signatureA := existing.signature
        extensionA := existing.extension
        blockHashB := vote.blockHash
        signatureB := vote.signature
        extensionB := vote.extension } := by
  obtain ⟨⟨⟨epoch', view, hash, voteType⟩, votes⟩, hentry, hfound⟩ :=
    exists_of_findSome?_eq_some h
  dsimp only at hfound
  split_ifs at hfound with hkey
  obtain ⟨rfl, rfl, rfl, hne⟩ := hkey
  obtain ⟨existing, hexisting, rfl⟩ := map_eq_some_iff.mp hfound
  have hlookup : vc.votes.lookup (epoch', vote.view, hash, vote.voteType) = some votes :=
    mem_lookup_iff.mpr hentry
  refine ⟨hash, existing, ?_, hne, by simpa using find?_some hexisting, rfl⟩
  rw [bucket, hlookup]
  exact mem_of_find?_eq_some hexisting

/-- `add_vote` reports what its scan found. -/
lemma addVote_equivocation {vc : VoteCollector}
    {result : VoteResult} (h : (vc.addVote vs vote epoch).1 = .ok result) :
    result.equivocation = vc.findEquivocation vote epoch := by
  unfold addVote at h
  dsimp only at h
  split_ifs at h
  · rw [← Except.ok.inj h]
  · split at h
    · cases h
    · split_ifs at h
      · rw [← Except.ok.inj h]
      · rw [← Except.ok.inj h]

/-- A view change only drops votes. -/
lemma mem_bucket_clear {vc : VoteCollector} {key : VoteKey}
    (h : v ∈ ((vc.clearView view).pruneBefore view').bucket key) : v ∈ vc.bucket key := by
  unfold bucket pruneBefore clearView at *
  rw [lookup_retain, lookup_retain] at h
  split_ifs at h
  · exact h
  · cases h
  · cases h

end VoteCollector

/-! ### Wishes -/

/-- A recorded wish: who, with which highest certificate, signed how. -/
structure WishRecord where
  validator : ℕ
  highestQc : Option QuorumCertificate
  signature : Signature
deriving DecidableEq

/-- `Pacemaker`, without its timers. -/
structure Pacemaker where
  wishes : AList fun _ : ℕ => List WishRecord
  relayedTcs : AList fun _ : ℕ => Bool

namespace Pacemaker

/-- `Pacemaker::with_config`. -/
def new : Pacemaker := ⟨∅, ∅⟩

/-- The wishes recorded for a target view. -/
def bucket (pm : Pacemaker) (targetView : ℕ) : List WishRecord :=
  (pm.wishes.lookup targetView).getD []

/-- One round of the loop that assembles a timeout certificate; a repeated or
unknown signer is skipped. -/
def assembleStep (vs : ValidatorSet)
    (acc : AggregateSignature × List (Option QuorumCertificate)) (w : WishRecord) :
    AggregateSignature × List (Option QuorumCertificate) :=
  match vs.indexOf w.validator with
  | some idx => ((acc.1.add idx w.signature).getD acc.1, acc.2.set idx w.highestQc)
  | none => acc

/-- `Pacemaker::add_wish`.  The powers summed are those of distinct validators,
so the checked addition of the source never fails. -/
def addWish (pm : Pacemaker) (vs : ValidatorSet) (targetView validator : ℕ)
    (highestQc : Option QuorumCertificate) (signature : Signature) :
    Option TimeoutCertificate × Pacemaker :=
  let wishes := pm.bucket targetView
  if wishes.any (·.validator = validator) then
    (none, { pm with wishes := pm.wishes.insert targetView wishes })
  else
    let wishes := wishes ++ [⟨validator, highestQc, signature⟩]
    let pm' := { pm with wishes := pm.wishes.insert targetView wishes }
    if vs.quorumThreshold ≤ (wishes.map fun w => vs.powerOf w.validator).sum then
      let acc := wishes.foldl (assembleStep vs)
        (AggregateSignature.new vs.validatorCount, replicate vs.validatorCount none)
      (some ⟨targetView - 1, acc.1, acc.2⟩, pm')
    else (none, pm')

/-- `Pacemaker::should_relay_tc`: true the first time a view is seen. -/
def shouldRelayTc (pm : Pacemaker) (tc : TimeoutCertificate) : Bool × Pacemaker :=
  match pm.relayedTcs.lookup tc.view with
  | some _ => (false, pm)
  | none => (true, { pm with relayedTcs := pm.relayedTcs.insert tc.view true })

/-- `Pacemaker::clear_view`. -/
def clearView (pm : Pacemaker) (view : ℕ) : Pacemaker :=
  { pm with wishes := pm.wishes.erase view }

/-- `Pacemaker::prune_before`. -/
def pruneBefore (pm : Pacemaker) (minView : ℕ) : Pacemaker where
  wishes := pm.wishes.retain fun v => minView ≤ v
  relayedTcs := pm.relayedTcs.retain fun v => minView ≤ v

/-- **What the wishes are after one more**: what they were, with the new one at the end of
its bucket unless its validator is already there. -/
lemma bucket_addWish (pm : Pacemaker) (vs : ValidatorSet) (targetView validator : ℕ)
    (highestQc : Option QuorumCertificate) (signature : Signature) (view : ℕ) :
    (pm.addWish vs targetView validator highestQc signature).2.bucket view = pm.bucket view
      ∨ (view = targetView ∧ (∀ w ∈ pm.bucket targetView, w.validator ≠ validator)
        ∧ (pm.addWish vs targetView validator highestQc signature).2.bucket view
          = pm.bucket targetView ++ [⟨validator, highestQc, signature⟩]) := by
  have hinsert : ∀ wishes : List WishRecord,
      bucket { pm with wishes := pm.wishes.insert targetView wishes } view
        = if view = targetView then wishes else pm.bucket view := by
    intro wishes
    split_ifs with hview
    · rw [hview, bucket, lookup_insert, getD_some]
    · rw [bucket, lookup_insert_ne hview]
      rfl
  unfold addWish
  dsimp only
  split_ifs with hknown hquorum
  · left
    rw [hinsert]
    split_ifs with hview
    · rw [hview]
    · rfl
  all_goals
    rw [hinsert]
    split_ifs with hview
    · refine .inr ⟨hview, fun w hw heq => hknown ?_, rfl⟩
      exact any_eq_true.mpr ⟨w, hw, decide_eq_true heq⟩
    · exact .inl rfl

lemma mem_bucket_addWish {pm : Pacemaker} {w : WishRecord}
    (h : w ∈ (pm.addWish vs targetView validator highestQc signature).2.bucket view) :
    w ∈ pm.bucket view ∨ w = ⟨validator, highestQc, signature⟩ := by
  rcases pm.bucket_addWish vs targetView validator highestQc signature view with
    heq | ⟨rfl, -, heq⟩
  · exact .inl (heq ▸ h)
  · rw [heq] at h
    exact (mem_append.mp h).imp_right mem_singleton.mp

/-- The certificates assembled from wishes came with one of them. -/
lemma mem_foldl_assembleStep {wishes : List WishRecord}
    {acc : AggregateSignature × List (Option QuorumCertificate)}
    (h : some qc ∈ (wishes.foldl (assembleStep vs) acc).2) :
    some qc ∈ acc.2 ∨ ∃ w ∈ wishes, w.highestQc = some qc := by
  induction wishes generalizing acc with
  | nil => exact .inl h
  | cons w wishes ih =>
    rcases ih h with hstep | ⟨w', hw', heq⟩
    · unfold assembleStep at hstep
      split at hstep
      · rcases mem_or_eq_of_mem_set hstep with hacc | heq
        · exact .inl hacc
        · exact .inr ⟨w, .head _, heq.symm⟩
      · exact .inl hstep
    · exact .inr ⟨w', .tail _ hw', heq⟩

/-- **A formed timeout certificate** carries certificates that came with wishes. -/
lemma addWish_tc {pm pm' : Pacemaker} {tc : TimeoutCertificate}
    (h : pm.addWish vs targetView validator highestQc signature = (some tc, pm'))
    (hqc : some qc ∈ tc.highestQcs) : tc.view = targetView - 1
      ∧ ∃ w ∈ pm.bucket targetView ++ [⟨validator, highestQc, signature⟩],
        w.highestQc = some qc := by
  unfold addWish at h
  dsimp only at h
  split_ifs at h
  · cases h
  · obtain ⟨htc, -⟩ := Prod.mk.inj h
    rw [← some.inj htc] at hqc ⊢
    refine ⟨rfl, ?_⟩
    rcases mem_foldl_assembleStep hqc with hnone | hw
    · simp [mem_replicate] at hnone
    · exact hw
  · cases h

/-- A view change only drops wishes. -/
lemma bucket_clear (pm : Pacemaker) (view view' v : ℕ) :
    ((pm.clearView view).pruneBefore view').bucket v = pm.bucket v
      ∨ ((pm.clearView view).pruneBefore view').bucket v = [] := by
  unfold bucket pruneBefore clearView
  rw [lookup_retain]
  split_ifs
  · by_cases hv : v = view
    · subst hv
      rw [lookup_erase]
      exact .inr rfl
    · rw [lookup_erase_ne hv]
      exact .inl rfl
  · exact .inr rfl

lemma mem_bucket_clear {pm : Pacemaker} {v : ℕ} {w : WishRecord}
    (h : w ∈ ((pm.clearView view).pruneBefore view').bucket v) : w ∈ pm.bucket v := by
  rcases pm.bucket_clear view view' v with heq | heq
  · exact heq ▸ h
  · rw [heq] at h
    cases h

end Pacemaker

/-! ### Liveness -/

/-- `LivenessTracker` with its default threshold of one half. -/
structure LivenessTracker where
  missed : AList fun _ : ℕ => ℕ
  totalCommits : ℕ

/-- `OfflineEvidence`. -/
structure OfflineEvidence where
  validator : ℕ
  missedCommits : ℕ
  totalCommits : ℕ
  evidenceHeight : ℕ
deriving DecidableEq, Repr

namespace LivenessTracker

/-- `LivenessTracker::new`. -/
def new : LivenessTracker := ⟨∅, 0⟩

/-- `LivenessTracker::record_commit`. -/
def recordCommit (t : LivenessTracker) (vs : ValidatorSet) (signers : List Bool) :
    LivenessTracker where
  totalCommits := t.totalCommits + 1
  missed := vs.validators.zipIdx.foldl (fun missed vi =>
    if signers.getD vi.2 false then missed
    else missed.insert vi.1.id ((missed.lookup vi.1.id).getD 0 + 1)) t.missed

/-- `LivenessTracker::offline_validators`: missed more than half, by id. -/
def offlineValidators (t : LivenessTracker) : List (ℕ × ℕ × ℕ) :=
  if t.totalCommits = 0 then []
  else
    let late := t.missed.entries.filter fun e => 50 * t.totalCommits < e.2 * 100
    (late.map fun e => (e.1, e.2, t.totalCommits)).insertionSort fun a b => a.1 ≤ b.1

end LivenessTracker

end Hotmint
