/-
Certified blocks form chains.

* `Network.VoteQuorum`: what every first-phase certificate rests on;
* `Network.Follows`: a certified block on its parent;
* `Network.HistoryInv.follows`: a certified block follows a certified one of an earlier
  view, or genesis;
* `Network.certified_chain`: **every certified block is joined to genesis by certified
  blocks of contiguous heights and increasing views**.
-/
import Hotmint.Safety.Agreement

namespace Hotmint

open VoteHistory Sample
variable {hash : BlockHash} {view : ℕ}

namespace Network

variable {ι σ : Type} {N : Network ι σ} {faulty : List ℕ} {s : ι → Engine σ} {H : History ι}

/-- Honest validators whom the faulty ones complete to a quorum have signed first votes
for the hash in the view.  Without that nobody can show a certificate for it. -/
def VoteQuorum (N : Network ι σ) (faulty : List ℕ) (s : ι → Engine σ) (view : ℕ)
    (hash : BlockHash) : Prop :=
  ∃ S, N.IsQuorum faulty S ∧ ∀ i ∈ S, ∃ vote block justify locked,
    Effect.signVote1 vote block justify locked ∈ (s i).trace
      ∧ vote.voteType = .vote ∧ vote.view = view ∧ vote.blockHash = hash

/-- A certified block on its parent.  The parent is genesis, or some honest node has
checked or formed a certificate for it. -/
structure Follows (N : Network ι σ) (faulty : List ℕ) (s : ι → Engine σ) (block parent : Block) :
    Prop where
  certified : N.VoteQuorum faulty s block.view block.hash
  hash : block.hash = N.crypto.computeHash block
  parentHash : block.parentHash = parent.hash
  height : block.height = parent.height + 1
  timestamp : parent.timestamp ≤ block.timestamp
  view : parent.view < block.view
  justified : parent = Block.genesis
    ∨ ∃ i qc, KnownQc (s i).trace qc ∧ qc.view = parent.view ∧ qc.blockHash = parent.hash

/-- The votes of a history are the signed ones. -/
lemma HistoryInv.certified_iff (h : N.HistoryInv faulty s H) :
    Certified (N.IsQuorum faulty) H view hash ↔ N.VoteQuorum faulty s view hash := by
  refine exists_congr fun S => and_congr_right fun _ => forall₂_congr fun i _ => ?_
  constructor
  · rintro ⟨pv, p, hmem⟩
    obtain ⟨block, _, hvoted⟩ := (h.vote i).block _ _ _ _ hmem
    obtain ⟨vote, justify, locked, hsigned, hvote⟩ := hvoted.signed
    exact ⟨vote, block, justify, locked, hsigned, hvote⟩
  · rintro ⟨vote, block, justify, locked, hsigned, htype, hview, hhash⟩
    have hvoted := ((h.vote i).signed vote (.inl ⟨_, _, _, hsigned⟩)).2
    rw [htype, hview, hhash] at hvoted
    exact hvoted

/-- A block with a parent below it was stored with its content hash. -/
lemma hash_of_height {c : Crypto} {e : Engine σ} (he : StoredInv c e) {block : Block}
    (hknown : KnownBlock e.trace block) (hheight : 0 < block.height) :
    block.hash = c.computeHash block := by
  rcases hknown with rfl | hput
  · cases hheight
  · exact he.hashed block hput

/-- **A certified block was voted for on** genesis or on a block that was certified
before, in an earlier view. -/
lemma HistoryInv.certified_parent (hbound : N.FaultBound faulty)
    (h : N.HistoryInv faulty s H) (hB : HashInjective (Known s))
    (hcert : Certified (N.IsQuorum faulty) H view hash) :
    ∃ i block parent pv, VotedBlock (s i).trace view hash pv parent.hash block parent
      ∧ (parent = Block.genesis
        ∨ (pv < view ∧ Certified (N.IsQuorum faulty) H pv parent.hash)) := by
  obtain ⟨i, pv, p, hmem, hcase⟩ := h.valid.certified_parent (IsQuorum.inter hbound) hcert
  obtain ⟨block, parent, hvoted⟩ := (h.vote i).block _ _ _ _ hmem
  obtain rfl := hvoted.parent_hash
  refine ⟨i, block, parent, pv, hvoted, ?_⟩
  rcases hcase with ⟨-, hroot⟩ | ⟨hparent, hlt | ⟨-, hself⟩⟩
  · exact .inl (hB _ _ ⟨i, hvoted.parentKnown⟩ ⟨i, .inl rfl⟩ hroot)
  · exact .inr ⟨hlt, hparent⟩
  · -- a block is not its own parent: the heights differ
    have heq : parent = block :=
      hB _ _ ⟨i, hvoted.parentKnown⟩ ⟨i, hvoted.known⟩ (hself.trans hvoted.hash_eq.symm)
    have hheight := hvoted.height
    rw [heq] at hheight
    omega

/-- A voted block follows its parent once the parent's view is known to be that of its
certificate. -/
lemma HistoryInv.follows (h : N.HistoryInv faulty s H)
    (hstored : ∀ i, StoredInv N.crypto (s i)) (hB : HashInjective (Known s)) {i : ι} {pv : ℕ}
    (hcert : Certified (N.IsQuorum faulty) H view hash) {block parent : Block}
    (hvoted : VotedBlock (s i).trace view hash pv parent.hash block parent)
    (hparent : parent = Block.genesis ∨ (pv < view ∧ parent.view = pv)) :
    N.Follows faulty s block parent where
  certified := by
    rw [hvoted.view_eq, hvoted.hash_eq]
    exact h.certified_iff.mp hcert
  hash := hash_of_height (hstored i) hvoted.known (by rw [hvoted.height]; exact Nat.succ_pos _)
  parentHash := hvoted.parentHash_eq
  height := hvoted.height
  timestamp := hvoted.timestamp
  view := by
    rw [hvoted.view_eq]
    rcases hparent with rfl | ⟨hlt, rfl⟩
    · exact hvoted.pos
    · exact hlt
  justified := by
    rcases hparent with hroot | ⟨-, rfl⟩
    · exact .inl hroot
    · obtain ⟨qc, ⟨-, hgenesis⟩ | hknown, hview, hhash⟩ := hvoted.justified
      · exact .inl (hB _ _ ⟨i, hvoted.parentKnown⟩ ⟨i, .inl rfl⟩ (hhash.symm.trans hgenesis))
      · exact .inr ⟨i, qc, hknown, hview, hhash⟩

/-- **A certified block is joined to genesis**, by induction on its view: the parent of
its first vote was certified in an earlier one. -/
lemma HistoryInv.chain (hbound : N.FaultBound faulty)
    (h : N.HistoryInv faulty s H) (hstored : ∀ i, StoredInv N.crypto (s i))
    (hB : HashInjective (Known s)) (hcert : Certified (N.IsQuorum faulty) H view hash) :
    ∃ block, Known s block ∧ block.hash = hash ∧ block.view = view
      ∧ Relation.TransGen (N.Follows faulty s) block Block.genesis := by
  induction view using Nat.strong_induction_on generalizing hash with
  | _ view ih =>
    obtain ⟨i, block, parent, pv, hvoted, hcase⟩ := h.certified_parent hbound hB hcert
    refine ⟨block, ⟨i, hvoted.known⟩, hvoted.hash_eq, hvoted.view_eq, ?_⟩
    rcases hcase with rfl | ⟨hlt, hparent⟩
    · exact .single (h.follows hstored hB hcert hvoted (.inl rfl))
    · obtain ⟨block', hknown, hhash, hview, hchain⟩ := ih pv hlt hparent
      obtain rfl := hB _ _ ⟨i, hvoted.parentKnown⟩ hknown hhash.symm
      exact .head (h.follows hstored hB hcert hvoted (.inr ⟨hlt, hview⟩)) hchain

/-- **Certified chains are well formed.**  With one validator set and faulty validators
of at most `maxFaultyPower`, every first-phase certificate that a node has checked or
formed, the genesis one apart, rests on a quorum of signed votes; and every hash with
such a quorum is that of a block of the certificate's view, joined to genesis by a
chain of blocks each of which follows its parent. -/
theorem certified_chain [DecidableEq ι] (N : Network ι σ) (faulty : List ℕ)
    (hbound : N.FaultBound faulty) (hfixed : N.FixedSet) (s : ι → Engine σ) (hrun : N.Run s)
    (hcoll : N.CollisionFree s) :
    (∀ i qc, KnownQc (s i).trace qc → (qc.view = 0 ∧ qc.blockHash = BlockHash.genesis)
      ∨ N.VoteQuorum faulty s qc.view qc.blockHash)
    ∧ ∀ view hash, N.VoteQuorum faulty s view hash → ∃ block, block.hash = hash
      ∧ block.view = view ∧ Relation.TransGen (N.Follows faulty s) block Block.genesis := by
  have hstored := hrun.stored
  have hB := hcoll.hashInjective hstored
  rcases isEmpty_or_nonempty ι with hempty | ⟨⟨i₀⟩⟩
  · refine ⟨fun i => (hempty.false i).elim, fun view hash hquorum => ?_⟩
    obtain ⟨S, hS, -⟩ := hquorum
    obtain ⟨i, -⟩ := IsQuorum.inter hbound S S hS hS
    exact (hempty.false i).elim
  obtain ⟨H, hH⟩ := hrun.history hbound hB ⟨i₀, .inl rfl⟩ (fun _ => .inl hfixed)
    fun i b hb => ⟨i, hb⟩
  refine ⟨fun i qc hqc => ?_, fun view hash hquorum => ?_⟩
  · exact ((hH.cert i).qcs.known hqc).imp id hH.certified_iff.mp
  · obtain ⟨block, -, hblock⟩ := hH.chain hbound hstored hB (hH.certified_iff.mpr hquorum)
    exact ⟨block, hblock⟩

/-- The certificate of the second block of the sample run. -/
def sampleQc : QuorumCertificate :=
  qc pair.validatorSet [0] .vote 0 2
    (blockHash { block 2 sampleBlock.hash 2 0 with timestamp := 1001 })

theorem certified_chain_pair : pair.FaultBound [2] ∧ pair.FixedSet
    ∧ pair.Run sampleState ∧ pair.CollisionFree sampleState
    ∧ KnownQc (sampleState leader).trace sampleQc
    ∧ ∃ block, block.hash = sampleQc.blockHash ∧ block.view = sampleQc.view
      ∧ Relation.TransGen (pair.Follows [2] sampleState) block Block.genesis := by
  obtain ⟨hbound, hfixed, hrun, hcoll⟩ := sampleState_ok
  have hknown : KnownQc (sampleState leader).trace sampleQc :=
    KnownQc.of_formed (by decide +kernel)
  obtain ⟨hquorum, hchain⟩ := certified_chain pair [2] hbound hfixed sampleState hrun hcoll
  refine ⟨hbound, hfixed, hrun, hcoll, hknown, ?_⟩
  rcases hquorum _ _ hknown with ⟨hzero, -⟩ | hvotes
  · cases hzero
  · exact hchain _ _ hvotes

end Network

end Hotmint
