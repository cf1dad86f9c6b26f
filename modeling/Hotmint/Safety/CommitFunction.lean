/-
The commit function: what `try_commit` does for every store and application.

* `ChainExists`: the certified block is above the committed one, and its parent
  links lead there;
* `tryCommit_correct`: **when every call succeeds, exactly this chain is committed**,
  in ascending order and with the callbacks of the lifecycle, once each; when there
  is no such chain, no callback is made and the height stays.
-/
import Hotmint.Consensus.Sample
import Hotmint.Proof.Fold

namespace Hotmint

open Sample
variable {σ : Type}

/-- The certified block is above the committed height, and its parent links lead,
one height at a time, to the block indexed at that height. -/
def ChainExists (store : BlockStore) (dc : DoubleCertificate) (lastCommitted : ℕ) (target : Block)
    (blocks : List Block) : Prop :=
  store.getBlock dc.innerQc.blockHash = some target ∧ lastCommitted < target.height
    ∧ Walk store lastCommitted target blocks

/-- **The commit function.**  If the chain exists and every application call and
validator update succeeds, `try_commit` returns it in ascending order, has called
`on_evidence` for every proof, `execute_block` and `on_commit` for each of its blocks,
and sets the height to the target; if it does not exist, no callback is made and the
height stays. -/
theorem tryCommit_correct (app : Application σ) (dc : DoubleCertificate) (store : BlockStore)
    (s : σ)
    (lastCommitted : ℕ) (currentEpoch : Epoch) (previousEpoch pending : Option Epoch) :
    (∀ target blocks x, ChainExists store dc lastCommitted target blocks →
      ChainApplied app (.start lastCommitted currentEpoch previousEpoch pending s) blocks x →
      ∃ result answers,
        (tryCommit app dc store s lastCommitted currentEpoch previousEpoch pending).outcome
          = .ok result
        ∧ result.committedBlocks = blocks
        ∧ blocks.map (·.height) = List.range' (lastCommitted + 1) blocks.length
        ∧ answers.length = blocks.length
        ∧ (tryCommit app dc store s lastCommitted currentEpoch previousEpoch pending).calls
          = chainCalls blocks answers
        ∧ (tryCommit app dc store s lastCommitted currentEpoch previousEpoch
          pending).lastCommittedHeight = target.height)
      ∧ ((¬ ∃ target blocks, ChainExists store dc lastCommitted target blocks) →
        (tryCommit app dc store s lastCommitted currentEpoch previousEpoch pending).calls = []
        ∧ (tryCommit app dc store s lastCommitted currentEpoch previousEpoch
          pending).lastCommittedHeight = lastCommitted) := by
  constructor
  · rintro target blocks x ⟨htarget, -, hwalk⟩ happlied
    obtain ⟨answers, hlength, hcalls⟩ := happlied.calls
    rw [tryCommit_of_walk htarget hwalk happlied]
    exact ⟨_, answers, rfl, rfl, hwalk.heights.1, hlength, hcalls,
      happlied.lastCommittedHeight hwalk.getLast⟩
  · intro hnone
    have hspec := tryCommit_spec app dc store s lastCommitted currentEpoch previousEpoch pending
    cases hspec with
    | nothing hcalls hheight _ => exact ⟨hcalls, hheight⟩
    | chain htarget hwalk _ _ _ _ => exact absurd ⟨_, _, htarget, hwalk.above, hwalk⟩ hnone

/-! Two blocks above genesis, certified and not. -/

/-- The lower block. -/
def lowBlock : Block := block 1 BlockHash.genesis 1 0

/-- The upper block. -/
def highBlock : Block := block 2 lowBlock.hash 2 0

/-- A store with both of them. -/
def twoBlocks : BlockStore := (BlockStore.new.putBlock lowBlock).putBlock highBlock

/-- A certificate for the upper block. -/
def highDc : DoubleCertificate := dc pair.validatorSet [0] 0 2 highBlock.hash

theorem tryCommit_correct_two : (∃ result answers,
      (tryCommit (application fun _ => []) highDc twoBlocks () 0
          (.genesis pair.validatorSet) none none).outcome = .ok result
        ∧ result.committedBlocks = [lowBlock, highBlock]
        ∧ answers.length = 2
        ∧ (tryCommit (application fun _ => []) highDc twoBlocks () 0
          (.genesis pair.validatorSet) none none).calls
          = chainCalls [lowBlock, highBlock] answers)
      ∧ (tryCommit (application fun _ => []) highDc BlockStore.new () 0
        (.genesis pair.validatorSet) none none).calls = [] := by
  have hroot : twoBlocks.getBlock lowBlock.parentHash = some Block.genesis
      ∧ twoBlocks.getBlockByHeight 0 = some Block.genesis := by decide +kernel
  have hparent : twoBlocks.getBlock highBlock.parentHash = some lowBlock := by decide +kernel
  have hwalk : Walk twoBlocks 0 highBlock [lowBlock, highBlock] :=
    .step hparent rfl (.last hroot.1 rfl rfl hroot.2 rfl)
  have hchain : ChainExists twoBlocks highDc 0 highBlock [lowBlock, highBlock] :=
    ⟨by decide +kernel, by decide +kernel, hwalk⟩
  obtain ⟨x, happlied⟩ : ∃ x, ChainApplied (application fun _ => [])
      (.start 0 (.genesis pair.validatorSet) none none ()) [lowBlock, highBlock] x :=
    ⟨_, executeChain_eq_completed.mp rfl⟩
  obtain ⟨result, answers, hok, hblocks, -, hlength, hcalls, -⟩ :=
    (tryCommit_correct _ highDc twoBlocks () 0 _ _ _).1 _ _ _ hchain happlied
  refine ⟨⟨result, answers, hok, hblocks, hlength, hcalls⟩,
    ((tryCommit_correct _ highDc BlockStore.new () 0 _ _ _).2 ?_).1⟩
  rintro ⟨target, blocks, htarget, -⟩
  have hnone : BlockStore.new.getBlock highDc.innerQc.blockHash = none := by decide +kernel
  rw [hnone] at htarget
  cases htarget

end Hotmint
