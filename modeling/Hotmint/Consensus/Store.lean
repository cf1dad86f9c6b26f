/-
The stores behind the engine (`hotmint-consensus/src/store.rs`,
`hotmint-storage/src/{block_store,evidence_store,consensus_state,wal}.rs`):

* `BlockStore`: blocks by hash, the height index, commit certificates and block
  results; the index entry of a height is pinned by its commit certificate
  (`BlockStore.Pinned`);
* `EvidenceStore`: pending equivocation proofs;
* `SavedState`: the key-value record of the persisted consensus state;
* `WalEntry`, `checkRecovery`: the commit log and the startup check on it.
-/
import Hotmint.Library.Retain
import Hotmint.Consensus.State

namespace Hotmint

/-! ### Blocks -/

/-- The maps of `MemoryBlockStore` and `VsdbBlockStore`. -/
structure BlockStore where
  byHash : AList fun _ : BlockHash => Block
  byHeight : AList fun _ : ℕ => BlockHash
  commitQcs : AList fun _ : ℕ => QuorumCertificate
  blockResults : AList fun _ : ℕ => EndBlockResponse

namespace BlockStore

/-- `get_block`. -/
def getBlock (s : BlockStore) (hash : BlockHash) : Option Block := s.byHash.lookup hash

/-- `get_block_by_height`. -/
def getBlockByHeight (s : BlockStore) (h : ℕ) : Option Block :=
  match s.byHeight.lookup h with
  | some hash => s.byHash.lookup hash
  | none => none

/-- `get_commit_qc`. -/
def getCommitQc (s : BlockStore) (h : ℕ) : Option QuorumCertificate := s.commitQcs.lookup h

/-- `get_block_results`. -/
def getBlockResults (s : BlockStore) (h : ℕ) : Option EndBlockResponse := s.blockResults.lookup h

/-- `put_block`: the height index is moved unless a commit certificate of that
height names another block. -/
def putBlock (s : BlockStore) (block : Block) : BlockStore :=
  let indexed := { s with
    byHash := s.byHash.insert block.hash block
    byHeight := s.byHeight.insert block.height block.hash }
  match s.commitQcs.lookup block.height with
  | some qc =>
    if qc.blockHash = block.hash then indexed
    else { s with byHash := s.byHash.insert block.hash block }
  | none => indexed

/-- `put_commit_qc`: the height index is moved to the certified block when it
is stored at that height. -/
def putCommitQc (s : BlockStore) (h : ℕ) (qc : QuorumCertificate) : BlockStore :=
  let s' := { s with commitQcs := s.commitQcs.insert h qc }
  match s.byHash.lookup qc.blockHash with
  | some block =>
    if block.height = h then { s' with byHeight := s.byHeight.insert h qc.blockHash } else s'
  | none => s'

/-- `put_block_results`. -/
def putBlockResults (s : BlockStore) (h : ℕ) (results : EndBlockResponse) : BlockStore :=
  { s with blockResults := s.blockResults.insert h results }

/-- A store without any block. -/
def empty : BlockStore := ⟨∅, ∅, ∅, ∅⟩

/-- `new`: a store holding the genesis block. -/
def new : BlockStore := empty.putBlock Block.genesis

/-! What each write does to each read. -/

section

variable (s : BlockStore)

lemma getBlock_putBlock (block : Block) (hash : BlockHash) :
    (s.putBlock block).getBlock hash = if hash = block.hash then some block
      else s.getBlock hash := by
  have hins := s.byHash.lookup_insert_ite block.hash hash block
  unfold putBlock getBlock
  split
  · split_ifs <;> simp_all
  · exact hins

@[simp] lemma getBlock_putCommitQc (h : ℕ) (qc : QuorumCertificate)
    (hash : BlockHash) : (s.putCommitQc h qc).getBlock hash = s.getBlock hash := by
  unfold putCommitQc
  split
  · split_ifs <;> rfl
  · rfl

@[simp] lemma getBlock_putBlockResults (h : ℕ) (r : EndBlockResponse)
    (hash : BlockHash) : (s.putBlockResults h r).getBlock hash = s.getBlock hash := rfl

@[simp] lemma getCommitQc_putBlock (block : Block) (h : ℕ) :
    (s.putBlock block).getCommitQc h = s.getCommitQc h := by
  unfold putBlock
  split
  · split_ifs <;> rfl
  · rfl

lemma getCommitQc_putCommitQc (h h' : ℕ) (qc : QuorumCertificate) :
    (s.putCommitQc h qc).getCommitQc h' = if h' = h then some qc else s.getCommitQc h' := by
  have hins := s.commitQcs.lookup_insert_ite h h' qc
  unfold putCommitQc getCommitQc
  split
  · split_ifs <;> simp_all
  · exact hins

/-- A stored block is found under its height once its certificate is stored. -/
lemma getBlockByHeight_putCommitQc {h : ℕ} {qc : QuorumCertificate}
    {block : Block} (hblock : s.getBlock qc.blockHash = some block) (hheight : block.height = h) :
    (s.putCommitQc h qc).getBlockByHeight h = some block := by
  unfold getBlock at hblock
  unfold putCommitQc getBlockByHeight
  rw [hblock]
  dsimp only
  rw [if_pos hheight]
  dsimp only
  rw [AList.lookup_insert]
  exact hblock

@[simp] lemma getCommitQc_putBlockResults (h h' : ℕ) (r : EndBlockResponse) :
    (s.putBlockResults h r).getCommitQc h' = s.getCommitQc h' := rfl

end

/-! What the height index is pinned to. -/

/-- A commit certificate pins the height index, if its block is stored with that height. -/
def Pinned (s : BlockStore) : Prop :=
  ∀ h qc b, s.getCommitQc h = some qc → s.getBlock qc.blockHash = some b → b.height = h →
    s.byHeight.lookup h = some qc.blockHash

lemma Pinned.putBlock {s : BlockStore} (hs : s.Pinned) (block : Block) :
    (s.putBlock block).Pinned := by
  intro h qc b hqc hb hheight
  rw [getCommitQc_putBlock] at hqc
  rw [getBlock_putBlock] at hb
  have hlookup : s.commitQcs.lookup h = some qc := hqc
  split_ifs at hb with hhash
  · -- the certified block is stored now
    cases hb
    subst hheight
    unfold BlockStore.putBlock
    dsimp only
    rw [hlookup]
    dsimp only
    rw [if_pos hhash, hhash]
    exact AList.lookup_insert _
  · -- another block does not move the index of this height
    have hold := hs h qc b hqc hb hheight
    unfold BlockStore.putBlock
    by_cases hsame : block.height = h
    · rw [hsame, hlookup]
      dsimp only
      rw [if_neg hhash]
      exact hold
    · have hother : (s.byHeight.insert block.height block.hash).lookup h = s.byHeight.lookup h :=
        AList.lookup_insert_ne fun heq => hsame heq.symm
      split
      · split_ifs
        · exact hother.trans hold
        · exact hold
      · exact hother.trans hold

lemma Pinned.putCommitQc {s : BlockStore} (hs : s.Pinned) (height : ℕ) (qc : QuorumCertificate) :
    (s.putCommitQc height qc).Pinned := by
  intro h qc' b hqc hb hheight
  rw [getCommitQc_putCommitQc] at hqc
  rw [getBlock_putCommitQc] at hb
  have hstored : s.byHash.lookup qc'.blockHash = some b := hb
  by_cases hsame : h = height
  · rw [if_pos hsame] at hqc
    cases hqc
    unfold BlockStore.putCommitQc
    dsimp only
    rw [hstored]
    dsimp only
    rw [if_pos (hheight.trans hsame), hsame]
    exact AList.lookup_insert _
  · rw [if_neg hsame] at hqc
    have hold := hs h qc' b hqc hb hheight
    unfold BlockStore.putCommitQc
    dsimp only
    split
    · split_ifs
      · exact (AList.lookup_insert_ne hsame).trans hold
      · exact hold
    · exact hold

lemma pinned_new : BlockStore.new.Pinned := by
  refine Pinned.putBlock (fun h qc b hqc => ?_) _
  cases hqc

end BlockStore

/-! ### Evidence -/

/-- `MemoryEvidenceStore`. -/
structure EvidenceStore where
  proofs : List EquivocationProof
  committed : List (ℕ × ℕ)

namespace EvidenceStore

/-- `MemoryEvidenceStore::new`. -/
def empty : EvidenceStore := ⟨[], []⟩

/-- `put_evidence`: one proof per `(view, validator)`. -/
def putEvidence (s : EvidenceStore) (proof : EquivocationProof) : EvidenceStore :=
  if s.proofs.any fun p => p.view = proof.view ∧ p.validator = proof.validator then s
  else { s with proofs := s.proofs ++ [proof] }

/-- `get_pending`. -/
def getPending (s : EvidenceStore) : List EquivocationProof :=
  s.proofs.filter fun p => (p.view, p.validator) ∉ s.committed

/-- `mark_committed`: remember the pair and drop its proofs. -/
def markCommitted (s : EvidenceStore) (view validator : ℕ) : EvidenceStore :=
  let committed := s.committed.insert (view, validator)
  { proofs := s.proofs.filter fun p => (p.view, p.validator) ∉ committed, committed }

lemma committed_putEvidence (s : EvidenceStore) (proof : EquivocationProof) :
    (s.putEvidence proof).committed = s.committed := by
  unfold putEvidence
  split_ifs <;> rfl

end EvidenceStore

/-! ### The persisted consensus state -/

/-- One `save_*` call of `StatePersistence`. -/
inductive SavedItem
  | currentView (view : ℕ)
  | lockedQc (qc : QuorumCertificate)
  | highestQc (qc : QuorumCertificate)
  | lastCommittedHeight (height : ℕ)
  | currentEpoch (epoch : Epoch)
  | previousEpoch (epoch : Option Epoch)
  | lastAppHash (hash : BlockHash)
  | pendingEpoch (epoch : Option Epoch)
  | lastVote (voteType : VoteType) (view : ℕ) (blockHash : BlockHash)
deriving DecidableEq

/-- The contents of `PersistentConsensusState`: one optional value per key. -/
structure SavedState where
  currentView : Option ℕ
  lockedQc : Option QuorumCertificate
  highestQc : Option QuorumCertificate
  lastCommittedHeight : Option ℕ
  currentEpoch : Option Epoch
  previousEpoch : Option Epoch
  lastAppHash : Option BlockHash
  pendingEpoch : Option Epoch
  lastVote1 : VoteSlot
  lastVote2 : VoteSlot

namespace SavedState

/-- A database without any key. -/
def empty : SavedState := ⟨none, none, none, none, none, none, none, none, none, none⟩

/-- The effect of one `save_*` call. -/
def write (s : SavedState) : SavedItem → SavedState
  | .currentView view => { s with currentView := some view }
  | .lockedQc qc => { s with lockedQc := some qc }
  | .highestQc qc => { s with highestQc := some qc }
  | .lastCommittedHeight height => { s with lastCommittedHeight := some height }
  | .currentEpoch epoch => { s with currentEpoch := some epoch }
  | .previousEpoch epoch => { s with previousEpoch := epoch }
  | .lastAppHash hash => { s with lastAppHash := some hash }
  | .pendingEpoch epoch => { s with pendingEpoch := epoch }
  | .lastVote .vote view hash => { s with lastVote1 := some (view, hash) }
  | .lastVote .vote2 view hash => { s with lastVote2 := some (view, hash) }

/-- `load_last_vote`. -/
def lastVote (s : SavedState) : VoteType → VoteSlot
  | .vote => s.lastVote1
  | .vote2 => s.lastVote2

end SavedState

/-! ### The commit log -/

/-- `WalEntry`. -/
inductive WalEntry
  | commitIntent (targetHeight : ℕ)
  | commitDone (targetHeight : ℕ)
deriving DecidableEq, Repr

/-- `WalRecovery`. -/
inductive WalRecovery
  | clean
  | needsReplay (targetHeight : ℕ)
deriving DecidableEq, Repr

/-- `check_recovery_path` with a committed height, on the decoded entries: only
the last one counts, and an intent covered by the checkpoint is stale. -/
def checkRecovery (entries : List WalEntry) (committedHeight : ℕ) : WalRecovery :=
  match entries.getLast? with
  | some (.commitIntent target) =>
    if target ≤ committedHeight then .clean else .needsReplay target
  | some (.commitDone _) => .clean
  | none => .clean

end Hotmint
