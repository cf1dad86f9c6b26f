/-
The identifiers and byte-level values of `hotmint-types`:

* views, heights, epoch numbers and validator ids (the `u64` newtypes
  `ViewNumber`, `Height`, `EpochNumber`, `ValidatorId`) are natural numbers:
  every increment in the source is checked and aborts the process on overflow;
* `BlockHash`: a 32-byte digest, as a 256-bit word;
* `PublicKey`, `Signature`: byte strings of any length;
* `VoteType`: the two voting phases.
-/
import Mathlib.Data.List.Basic

namespace Hotmint

/-- `Vec<u8>`. -/
abbrev Bytes := List UInt8

/-- `[u8; 32]`, the output of the hasher. -/
abbrev Digest := BitVec 256

/-- `BlockHash([u8; 32])`. -/
structure BlockHash where
  word : Digest
deriving DecidableEq, Repr

/-- `BlockHash::GENESIS`, the all-zero hash. -/
def BlockHash.genesis : BlockHash := ⟨0#256⟩

/-- `BlockHash::is_genesis`. -/
def BlockHash.isGenesis (h : BlockHash) : Bool := h = BlockHash.genesis

/-- `PublicKey(Vec<u8>)`. -/
structure PublicKey where
  bytes : Bytes
deriving DecidableEq, Repr

/-- `Signature(Vec<u8>)`. -/
structure Signature where
  bytes : Bytes
deriving DecidableEq, Repr

/-- `VoteType`: first-phase votes certify a block, second-phase votes certify
its certificate. -/
inductive VoteType
  | vote
  | vote2
deriving DecidableEq, Repr

end Hotmint
