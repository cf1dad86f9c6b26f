/-
The two block stores (`MemoryBlockStore` of `hotmint-consensus/src/store.rs`,
`VsdbBlockStore` of `hotmint-storage/src/block_store.rs`; its maps `MapxOrd` are ordered maps).

* `MemoryBlockStore`, `VsdbBlockStore`: their maps, writes and reads, each in the order of its
  source;
* `Mirrors`: the two stores hold the same, kept by every call (`Mirrors.perform`);
* `MemoryBlockStore.Implements`: the in-memory store holds what the store of the engine model
  holds, whose height index is pinned;
* `block_stores_agree`: **the stores give the same answers, and pin commits**.
-/
import Mathlib.Data.List.Induction
import Mathlib.Order.Fin.Basic
import Hotmint.Consensus.Store
import Hotmint.Library.OrderedMap

namespace Hotmint

open BlockStore

/-- A write to a block store. -/
inductive StoreCall
  | putBlock (block : Block)
  | putCommitQc (height : ℕ) (qc : QuorumCertificate)
deriving DecidableEq

/-! ### In memory -/

/-- `MemoryBlockStore`: hash maps, and a B-tree map for the heights. -/
structure MemoryBlockStore where
  byHash : AList fun _ : BlockHash => Block
  byHeight : OrderedMap ℕ BlockHash
  commitQcs : AList fun _ : ℕ => QuorumCertificate

namespace MemoryBlockStore

/-- `put_block`: the height index first, then the block. -/
def putBlock (s : MemoryBlockStore) (block : Block) : MemoryBlockStore :=
  let s :=
    match s.commitQcs.lookup block.height with
    | some commitQc =>
      if commitQc.blockHash = block.hash then
        { s with byHeight := s.byHeight.insert block.height block.hash }
      else s
    | none => { s with byHeight := s.byHeight.insert block.height block.hash }
  { s with byHash := s.byHash.insert block.hash block }

/-- `put_commit_qc`: the height index first, then the certificate. -/
def putCommitQc (s : MemoryBlockStore) (height : ℕ) (qc : QuorumCertificate) : MemoryBlockStore :=
  let s :=
    match s.byHash.lookup qc.blockHash with
    | some block =>
      if block.height = height then
        { s with byHeight := s.byHeight.insert height qc.blockHash }
      else s
    | none => s
  { s with commitQcs := s.commitQcs.insert height qc }

/-- `get_block`. -/
def getBlock (s : MemoryBlockStore) (hash : BlockHash) : Option Block := s.byHash.lookup hash

/-- `get_block_by_height`. -/
def getBlockByHeight (s : MemoryBlockStore) (h : ℕ) : Option Block :=
  (s.byHeight.lookup h).bind s.byHash.lookup

/-- `get_commit_qc`. -/
def getCommitQc (s : MemoryBlockStore) (h : ℕ) : Option QuorumCertificate := s.commitQcs.lookup h

/-- `get_blocks_in_range`. -/
def getBlocksInRange (s : MemoryBlockStore) (fromHeight toHeight : ℕ) : List Block :=
  if toHeight < fromHeight then []
  else (s.byHeight.range fromHeight toHeight).filterMap fun e => s.byHash.lookup e.2

/-- `tip_height`. -/
def tipHeight (s : MemoryBlockStore) : ℕ := (s.byHeight.last.map (·.1)).getD 0

/-- `new`. -/
def new : MemoryBlockStore := putBlock ⟨∅, .empty, ∅⟩ Block.genesis

/-- A write. -/
def perform (s : MemoryBlockStore) : StoreCall → MemoryBlockStore
  | .putBlock block => s.putBlock block
  | .putCommitQc height qc => s.putCommitQc height qc

end MemoryBlockStore

/-! ### On disk -/

/-- The 32 bytes of a hash as a key of an ordered map. -/
abbrev HashKey := Fin (2 ^ 256)

/-- `hash.0`. -/
def BlockHash.key (hash : BlockHash) : HashKey := hash.word.toFin

lemma BlockHash.key_inj {a b : BlockHash} : a.key = b.key ↔ a = b := by
  constructor
  · intro h
    obtain ⟨word⟩ := a
    exact congrArg BlockHash.mk (BitVec.toFin_inj.mp h)
  · rintro rfl
    rfl

/-- `VsdbBlockStore`, without the maps that these calls do not touch. -/
structure VsdbBlockStore where
  byHash : OrderedMap HashKey Block
  byHeight : OrderedMap ℕ HashKey
  commitQcs : OrderedMap ℕ QuorumCertificate

namespace VsdbBlockStore

/-- `put_block`: the block first, then the height index. -/
def putBlock (s : VsdbBlockStore) (block : Block) : VsdbBlockStore :=
  let s := { s with byHash := s.byHash.insert block.hash.key block }
  match s.commitQcs.lookup block.height with
  | some commitQc =>
    if commitQc.blockHash = block.hash then
      { s with byHeight := s.byHeight.insert block.height block.hash.key }
    else s
  | none => { s with byHeight := s.byHeight.insert block.height block.hash.key }

/-- `put_commit_qc`: the certificate first, then the height index. -/
def putCommitQc (s : VsdbBlockStore) (height : ℕ) (qc : QuorumCertificate) : VsdbBlockStore :=
  let s := { s with commitQcs := s.commitQcs.insert height qc }
  match s.byHash.lookup qc.blockHash.key with
  | some block =>
    if block.height = height then
      { s with byHeight := s.byHeight.insert height qc.blockHash.key }
    else s
  | none => s

/-- `get_block`. -/
def getBlock (s : VsdbBlockStore) (hash : BlockHash) : Option Block := s.byHash.lookup hash.key

/-- `get_block_by_height`. -/
def getBlockByHeight (s : VsdbBlockStore) (h : ℕ) : Option Block :=
  (s.byHeight.lookup h).bind s.byHash.lookup

/-- `get_commit_qc`. -/
def getCommitQc (s : VsdbBlockStore) (h : ℕ) : Option QuorumCertificate := s.commitQcs.lookup h

/-- `get_blocks_in_range`. -/
def getBlocksInRange (s : VsdbBlockStore) (fromHeight toHeight : ℕ) : List Block :=
  if toHeight < fromHeight then []
  else (s.byHeight.range fromHeight toHeight).filterMap fun e => s.byHash.lookup e.2

/-- `tip_height`. -/
def tipHeight (s : VsdbBlockStore) : ℕ := (s.byHeight.last.map (·.1)).getD 0

/-- `new`. -/
def new : VsdbBlockStore := putBlock ⟨.empty, .empty, .empty⟩ Block.genesis

/-- A write. -/
def perform (s : VsdbBlockStore) : StoreCall → VsdbBlockStore
  | .putBlock block => s.putBlock block
  | .putCommitQc height qc => s.putCommitQc height qc

end VsdbBlockStore

/-! ### The same contents -/

/-- The two stores hold the same blocks, certificates and index entries. -/
structure Mirrors (m : MemoryBlockStore) (v : VsdbBlockStore) : Prop where
  byHash : ∀ hash, m.byHash.lookup hash = v.byHash.lookup hash.key
  byHeight : m.byHeight.mapValues BlockHash.key = v.byHeight
  commitQcs : ∀ h, m.commitQcs.lookup h = v.commitQcs.lookup h

namespace Mirrors

variable {m : MemoryBlockStore} {v : VsdbBlockStore}

section

variable (h : Mirrors m v)

include h

/-- The same block is written under the same hash. -/
lemma insert_byHash (block : Block) (hash : BlockHash) :
    (m.byHash.insert block.hash block).lookup hash
      = (v.byHash.insert block.hash.key block).lookup hash.key := by
  rw [AList.lookup_insert_ite, OrderedMap.lookup_insert, h.byHash]
  simp only [BlockHash.key_inj]

/-- The same index entry is written. -/
lemma insert_byHeight (height : ℕ) (hash : BlockHash) :
    (m.byHeight.insert height hash).mapValues BlockHash.key
      = v.byHeight.insert height hash.key := by
  rw [OrderedMap.mapValues_insert, h.byHeight]

/-- **Storing a block** keeps the contents equal. -/
lemma putBlock (block : Block) : Mirrors (m.putBlock block) (v.putBlock block) := by
  unfold MemoryBlockStore.putBlock VsdbBlockStore.putBlock
  dsimp only
  rw [← h.commitQcs block.height]
  cases m.commitQcs.lookup block.height with
  | none => exact ⟨h.insert_byHash block, h.insert_byHeight _ _, h.commitQcs⟩
  | some commitQc =>
    dsimp only
    split_ifs
    · exact ⟨h.insert_byHash block, h.insert_byHeight _ _, h.commitQcs⟩
    · exact ⟨h.insert_byHash block, h.byHeight, h.commitQcs⟩

/-- **Storing a commit certificate** keeps the contents equal. -/
lemma putCommitQc (height : ℕ) (qc : QuorumCertificate) :
    Mirrors (m.putCommitQc height qc) (v.putCommitQc height qc) := by
  have hinsert : ∀ h', (m.commitQcs.insert height qc).lookup h'
      = (v.commitQcs.insert height qc).lookup h' := by
    intro h'
    rw [AList.lookup_insert_ite, OrderedMap.lookup_insert, h.commitQcs]
  unfold MemoryBlockStore.putCommitQc VsdbBlockStore.putCommitQc
  dsimp only
  rw [← h.byHash qc.blockHash]
  cases m.byHash.lookup qc.blockHash with
  | none => exact ⟨h.byHash, h.byHeight, hinsert⟩
  | some block =>
    dsimp only
    split_ifs
    · exact ⟨h.byHash, h.insert_byHeight _ _, hinsert⟩
    · exact ⟨h.byHash, h.byHeight, hinsert⟩

lemma perform (call : StoreCall) : Mirrors (m.perform call) (v.perform call) := by
  cases call with
  | putBlock block => exact h.putBlock block
  | putCommitQc height qc => exact h.putCommitQc height qc

/-- The index of the one leads to the blocks of the other. -/
lemma lookup_key (o : Option BlockHash) :
    (o.map BlockHash.key).bind v.byHash.lookup = o.bind m.byHash.lookup := by
  cases o with
  | none => rfl
  | some hash => exact (h.byHash hash).symm

lemma getBlockByHeight (height : ℕ) : m.getBlockByHeight height = v.getBlockByHeight height := by
  rw [MemoryBlockStore.getBlockByHeight, VsdbBlockStore.getBlockByHeight, ← h.byHeight,
    OrderedMap.lookup_mapValues, h.lookup_key]

lemma getBlocksInRange (fromHeight toHeight : ℕ) :
    m.getBlocksInRange fromHeight toHeight = v.getBlocksInRange fromHeight toHeight := by
  rw [MemoryBlockStore.getBlocksInRange, VsdbBlockStore.getBlocksInRange, ← h.byHeight,
    OrderedMap.range_mapValues, List.filterMap_map]
  simp only [h.byHash]
  rfl

lemma tipHeight : m.tipHeight = v.tipHeight := by
  rw [MemoryBlockStore.tipHeight, VsdbBlockStore.tipHeight, ← h.byHeight,
    OrderedMap.last_mapValues, Option.map_map]
  rfl

end

end Mirrors

lemma mirrors_new : Mirrors MemoryBlockStore.new VsdbBlockStore.new :=
  Mirrors.putBlock ⟨fun _ => rfl, rfl, fun _ => rfl⟩ Block.genesis

/-! ### The store of the engine -/

/-- The in-memory store holds what the store of the engine model holds. -/
structure MemoryBlockStore.Implements (m : MemoryBlockStore) (s : BlockStore) : Prop where
  byHash : ∀ hash, m.byHash.lookup hash = s.byHash.lookup hash
  byHeight : ∀ h, m.byHeight.lookup h = s.byHeight.lookup h
  commitQcs : ∀ h, m.commitQcs.lookup h = s.commitQcs.lookup h

/-- The write of the model's store. -/
def BlockStore.perform (s : BlockStore) : StoreCall → BlockStore
  | .putBlock block => s.putBlock block
  | .putCommitQc height qc => s.putCommitQc height qc

namespace MemoryBlockStore.Implements

variable {m : MemoryBlockStore} {s : BlockStore}

lemma insert_byHeight (h : m.Implements s) (height : ℕ) (hash : BlockHash) (h' : ℕ) :
    (m.byHeight.insert height hash).lookup h' = (s.byHeight.insert height hash).lookup h' := by
  rw [OrderedMap.lookup_insert, AList.lookup_insert_ite, h.byHeight]

/-- **Every call keeps the contents equal.** -/
lemma perform (h : m.Implements s) (call : StoreCall) :
    (m.perform call).Implements (s.perform call) := by
  cases call with
  | putBlock block =>
    have hinsert : ∀ hash, (m.byHash.insert block.hash block).lookup hash
        = (s.byHash.insert block.hash block).lookup hash := by
      intro hash
      rw [AList.lookup_insert_ite, AList.lookup_insert_ite, h.byHash]
    unfold MemoryBlockStore.perform BlockStore.perform MemoryBlockStore.putBlock BlockStore.putBlock
    dsimp only
    rw [h.commitQcs block.height]
    cases s.commitQcs.lookup block.height with
    | none => exact ⟨hinsert, h.insert_byHeight _ _, h.commitQcs⟩
    | some commitQc =>
      dsimp only
      split_ifs
      · exact ⟨hinsert, h.insert_byHeight _ _, h.commitQcs⟩
      · exact ⟨hinsert, h.byHeight, h.commitQcs⟩
  | putCommitQc height qc =>
    have hinsert : ∀ h', (m.commitQcs.insert height qc).lookup h'
        = (s.commitQcs.insert height qc).lookup h' := by
      intro h'
      rw [AList.lookup_insert_ite, AList.lookup_insert_ite, h.commitQcs]
    unfold MemoryBlockStore.perform BlockStore.perform MemoryBlockStore.putCommitQc
      BlockStore.putCommitQc
    dsimp only
    rw [h.byHash qc.blockHash]
    cases s.byHash.lookup qc.blockHash with
    | none => exact ⟨h.byHash, h.byHeight, hinsert⟩
    | some block =>
      dsimp only
      split_ifs
      · exact ⟨h.byHash, h.insert_byHeight _ _, hinsert⟩
      · exact ⟨h.byHash, h.byHeight, hinsert⟩

end MemoryBlockStore.Implements

lemma implements_new : MemoryBlockStore.new.Implements new :=
  MemoryBlockStore.Implements.perform (s := .empty) ⟨fun _ => rfl, fun _ => rfl, fun _ => rfl⟩
    (.putBlock Block.genesis)

lemma BlockStore.Pinned.perform {s : BlockStore} (h : s.Pinned) (call : StoreCall) :
    (s.perform call).Pinned := by
  cases call with
  | putBlock block => exact h.putBlock block
  | putCommitQc height qc => exact h.putCommitQc height qc

/-- **Whole runs**: after any calls the two stores hold the same, namely what a pinned store
of the engine model holds. -/
lemma stores_run (calls : List StoreCall) :
    Mirrors (calls.foldl MemoryBlockStore.perform .new) (calls.foldl VsdbBlockStore.perform .new)
    ∧ (calls.foldl MemoryBlockStore.perform .new).Implements (calls.foldl perform .new)
    ∧ (calls.foldl perform .new).Pinned := by
  induction calls using List.reverseRecOn with
  | nil => exact ⟨mirrors_new, implements_new, pinned_new⟩
  | append_singleton calls call ih =>
    obtain ⟨hmirrors, himplements, hpinned⟩ := ih
    simp only [List.foldl_append, List.foldl_cons, List.foldl_nil]
    exact ⟨hmirrors.perform call, himplements.perform call, hpinned.perform call⟩

/-- **Block stores agree and pin commits.**  After every sequence of `put_block` and
`put_commit_qc` calls the two stores give the same answers to every read, and a stored block
that the commit certificate of its height names is the block of that height. -/
theorem block_stores_agree (calls : List StoreCall) :
    (∀ hash, (calls.foldl MemoryBlockStore.perform .new).getBlock hash
      = (calls.foldl VsdbBlockStore.perform .new).getBlock hash)
    ∧ (∀ h, (calls.foldl MemoryBlockStore.perform .new).getBlockByHeight h
      = (calls.foldl VsdbBlockStore.perform .new).getBlockByHeight h)
    ∧ (∀ h, (calls.foldl MemoryBlockStore.perform .new).getCommitQc h
      = (calls.foldl VsdbBlockStore.perform .new).getCommitQc h) ∧ (∀ fromHeight toHeight,
      (calls.foldl MemoryBlockStore.perform .new).getBlocksInRange fromHeight toHeight
        = (calls.foldl VsdbBlockStore.perform .new).getBlocksInRange fromHeight toHeight)
    ∧ (calls.foldl MemoryBlockStore.perform .new).tipHeight
      = (calls.foldl VsdbBlockStore.perform .new).tipHeight
    ∧ ∀ h qc block, (calls.foldl MemoryBlockStore.perform .new).getCommitQc h = some qc →
      (calls.foldl MemoryBlockStore.perform .new).getBlock qc.blockHash = some block →
      block.height = h →
      (calls.foldl MemoryBlockStore.perform .new).getBlockByHeight h = some block := by
  obtain ⟨hmirrors, himplements, hpinned⟩ := stores_run calls
  refine ⟨hmirrors.byHash, hmirrors.getBlockByHeight, hmirrors.commitQcs,
    hmirrors.getBlocksInRange, hmirrors.tipHeight, ?_⟩
  intro h qc block hqc hblock hheight
  have hindex : (calls.foldl perform .new).byHeight.lookup h = some qc.blockHash := by
    refine hpinned h qc block ?_ ?_ hheight
    · exact (himplements.commitQcs h).symm.trans hqc
    · exact (himplements.byHash qc.blockHash).symm.trans hblock
  rw [MemoryBlockStore.getBlockByHeight, himplements.byHeight, hindex]
  exact hblock

end Hotmint
