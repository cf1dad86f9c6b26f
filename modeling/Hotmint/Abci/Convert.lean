/-
`hotmint-abci-proto`: the protobuf messages of the application protocol, and the conversions
between them and the types of `hotmint-types`.

* `Pb`: the messages of `abci.proto` that values are converted to, and `Pb.DecodeError`;
* `bytesToArray32`, `bytesToPublicKey`, `bytesToSignature`: the length checks;
* `toProto`, `fromProto`: the `From` and the `TryFrom` conversion of each type.  The checks are
  made in the order of the source;
* `recovers`, for each type: **a value comes back from its message**.  Evidence has to carry
  signatures of 64 bytes, and an update a key of 32 bytes (`EquivocationProof.Signed`,
  `ValidatorUpdate.Keyed`).  A validator set is validated again, and its total power is not read.
-/
import Hotmint.Types.Encoding
import Hotmint.Types.ValidatorUpdates

namespace Hotmint

open Codes List

namespace Pb

/-! ### `error.rs` and `abci.proto` -/

/-- `DecodeError`. -/
inductive DecodeError
  | protobuf (err : String)
  | invalidMessage (message : String)
deriving DecidableEq, Repr

/-- `pb::EquivocationProof`. -/
structure EquivocationProof where
  validator : ℕ
  view : ℕ
  voteType : ℕ
  blockHashA : Bytes
  signatureA : Bytes
  blockHashB : Bytes
  signatureB : Bytes
  epoch : ℕ
  extensionA : Bytes
  extensionB : Bytes
  hasExtensionA : Bool
  hasExtensionB : Bool
deriving DecidableEq, Repr

/-- `pb::Block`. -/
structure Block where
  height : ℕ
  parentHash : Bytes
  view : ℕ
  proposer : ℕ
  timestamp : ℕ
  payload : Bytes
  hash : Bytes
  appHash : Bytes
  evidence : List EquivocationProof
deriving DecidableEq, Repr

/-- `pb::TxContext`. -/
structure TxContext where
  height : ℕ
  epoch : ℕ
deriving DecidableEq, Repr

/-- `pb::ValidatorInfo`. -/
structure ValidatorInfo where
  id : ℕ
  publicKey : Bytes
  power : ℕ
deriving DecidableEq, Repr

/-- `pb::ValidatorSet`. -/
structure ValidatorSet where
  validators : List ValidatorInfo
  totalPower : ℕ
deriving DecidableEq, Repr

/-- `pb::VoteExtension`. -/
structure VoteExtension where
  validatorId : ℕ
  data : Bytes
deriving DecidableEq, Repr

/-- `pb::BlockContext`. -/
structure BlockContext where
  height : ℕ
  view : ℕ
  proposer : ℕ
  epoch : ℕ
  epochStartView : ℕ
  validatorSet : Option ValidatorSet
  voteExtensions : List VoteExtension
  timestamp : ℕ
deriving DecidableEq, Repr

/-- `pb::ValidatorUpdate`. -/
structure ValidatorUpdate where
  id : ℕ
  publicKey : Bytes
  power : ℕ
deriving DecidableEq, Repr

/-- `pb::EventAttribute`. -/
structure EventAttribute where
  key : String
  value : String
deriving DecidableEq, Repr

/-- `pb::Event`. -/
structure Event where
  type : String
  attributes : List EventAttribute
deriving DecidableEq, Repr

/-- `pb::EndBlockResponse`. -/
structure EndBlockResponse where
  validatorUpdates : List ValidatorUpdate
  events : List Event
  appHash : Bytes
deriving DecidableEq, Repr

/-- `pb::SnapshotInfo`. -/
structure SnapshotInfo where
  height : ℕ
  chunks : ℕ
  hash : Bytes
deriving DecidableEq, Repr

end Pb

/-- `TxContext`. -/
structure TxContext where
  height : ℕ
  epoch : ℕ
deriving DecidableEq, Repr

open Pb (DecodeError)

/-! ### Fixed lengths -/

/-- `bytes_to_array_32`. -/
def bytesToArray32 (field : String) (bytes : Bytes) : Except DecodeError Digest :=
  if bytes.length = 32 then .ok (BitVec.ofNat 256 (ofLeBytes bytes))
  else .error (.invalidMessage (field ++ ": expected 32 bytes, got " ++ toString bytes.length))

/-- `bytes_to_hash`. -/
def bytesToHash (bytes : Bytes) : Except DecodeError BlockHash := do
  let word ← bytesToArray32 "block hash" bytes
  return ⟨word⟩

/-- `bytes_to_public_key`: the array is turned into a vector again. -/
def bytesToPublicKey (bytes : Bytes) : Except DecodeError PublicKey := do
  let publicKey ← bytesToArray32 "public key" bytes
  return ⟨digestBytes publicKey⟩

/-- `bytes_to_signature`. -/
def bytesToSignature (bytes : Bytes) : Except DecodeError Signature :=
  if bytes.length ≠ 64 then
    .error (.invalidMessage ("signature: expected 64 bytes, got " ++ toString bytes.length))
  else .ok ⟨bytes⟩

/-- An array comes back from its bytes. -/
@[simp] lemma bytesToArray32_digestBytes (field : String) (digest : Digest) :
    bytesToArray32 field (digestBytes digest) = .ok digest := by
  have hlt : digest.toNat < 256 ^ 32 := digest.isLt
  rw [bytesToArray32, digestBytes, if_pos (length_leBytes 32 _), ofLeBytes_leBytes,
    Nat.mod_eq_of_lt hlt, BitVec.ofNat_toNat, BitVec.setWidth_eq]

@[simp] lemma bytesToHash_bytes (hash : BlockHash) : bytesToHash hash.bytes = .ok hash := by
  rw [bytesToHash, BlockHash.bytes, bytesToArray32_digestBytes]
  rfl

/-- 32 bytes come back from the array they fill. -/
lemma bytesToPublicKey_bytes {key : PublicKey} (h : key.bytes.length = 32) :
    bytesToPublicKey key.bytes = .ok key := by
  have hbytes : digestBytes (BitVec.ofNat 256 (ofLeBytes key.bytes)) = key.bytes := by
    have hlt : ofLeBytes key.bytes < 2 ^ 256 := by
      have hlt := ofLeBytes_lt key.bytes
      rwa [h] at hlt
    rw [digestBytes, BitVec.toNat_ofNat, Nat.mod_eq_of_lt hlt, ← h, leBytes_ofLeBytes]
  rw [bytesToPublicKey, bytesToArray32, if_pos h]
  exact congrArg (Except.ok ∘ PublicKey.mk) hbytes

lemma bytesToSignature_bytes {sig : Signature} (h : sig.bytes.length = 64) :
    bytesToSignature sig.bytes = .ok sig := by
  rw [bytesToSignature, if_neg (not_not.mpr h)]

/-- `bool::then_some`. -/
def thenSome (flag : Bool) (bytes : Bytes) : Option Bytes := if flag then some bytes else none

/-- A flag keeps an empty byte string apart from none. -/
@[simp] lemma thenSome_getD (ext : Option Bytes) : thenSome ext.isSome (ext.getD []) = ext := by
  cases ext <;> rfl

/-! ### Evidence and blocks -/

/-- The code of a vote type in a message. -/
def VoteType.toCode : VoteType → ℕ
  | .vote => 0
  | .vote2 => 1

/-- The vote type of a code, in `TryFrom<pb::EquivocationProof>`. -/
def VoteType.fromCode : ℕ → Except DecodeError VoteType
  | 0 => .ok .vote
  | 1 => .ok .vote2
  | other => .error (.invalidMessage ("invalid vote_type: " ++ toString other))

@[simp] lemma VoteType.fromCode_toCode (voteType : VoteType) :
    fromCode voteType.toCode = .ok voteType := by
  cases voteType <;> rfl

/-- `From<&EquivocationProof>`. -/
def EquivocationProof.toProto (e : EquivocationProof) : Pb.EquivocationProof where
  validator := e.validator
  view := e.view
  voteType := e.voteType.toCode
  blockHashA := e.blockHashA.bytes
  signatureA := e.signatureA.bytes
  extensionA := e.extensionA.getD []
  hasExtensionA := e.extensionA.isSome
  blockHashB := e.blockHashB.bytes
  signatureB := e.signatureB.bytes
  extensionB := e.extensionB.getD []
  hasExtensionB := e.extensionB.isSome
  epoch := e.epoch

/-- `TryFrom<pb::EquivocationProof>`. -/
def EquivocationProof.fromProto (e : Pb.EquivocationProof) :
    Except DecodeError EquivocationProof := do
  let voteType ← VoteType.fromCode e.voteType
  let blockHashA ← bytesToHash e.blockHashA
  let signatureA ← bytesToSignature e.signatureA
  let blockHashB ← bytesToHash e.blockHashB
  let signatureB ← bytesToSignature e.signatureB
  return {
    validator := e.validator
    view := e.view
    voteType := voteType
    epoch := e.epoch
    blockHashA := blockHashA
    signatureA := signatureA
    extensionA := thenSome e.hasExtensionA e.extensionA
    blockHashB := blockHashB
    signatureB := signatureB
    extensionB := thenSome e.hasExtensionB e.extensionB }

/-- Both signatures have 64 bytes. -/
def EquivocationProof.Signed (e : EquivocationProof) : Prop :=
  e.signatureA.bytes.length = 64 ∧ e.signatureB.bytes.length = 64

lemma EquivocationProof.recovers : Recovers Signed toProto fromProto := by
  rintro e ⟨ha, hb⟩
  simp only [fromProto, toProto, VoteType.fromCode_toCode, bytesToHash_bytes,
    bytesToSignature_bytes ha, bytesToSignature_bytes hb, thenSome_getD]
  rfl

/-- `From<&Block>`. -/
def Block.toProto (b : Block) : Pb.Block where
  height := b.height
  parentHash := b.parentHash.bytes
  view := b.view
  proposer := b.proposer
  timestamp := b.timestamp
  payload := b.payload
  hash := b.hash.bytes
  appHash := b.appHash.bytes
  evidence := b.evidence.map EquivocationProof.toProto

/-- `TryFrom<pb::Block>`. -/
def Block.fromProto (b : Pb.Block) : Except DecodeError Block := do
  let parentHash ← bytesToHash b.parentHash
  let appHash ← bytesToHash b.appHash
  let evidence ← b.evidence.mapM EquivocationProof.fromProto
  let hash ← bytesToHash b.hash
  return {
    height := b.height
    parentHash := parentHash
    view := b.view
    proposer := b.proposer
    timestamp := b.timestamp
    payload := b.payload
    appHash := appHash
    evidence := evidence
    hash := hash }

lemma Block.recovers : Recovers (∀ e ∈ ·.evidence, e.Signed) toProto fromProto := by
  intro b hsigned
  simp only [fromProto, toProto, bytesToHash_bytes, EquivocationProof.recovers.list _ hsigned]
  rfl

/-! ### Contexts -/

/-- `From<&TxContext>`. -/
def TxContext.toProto (c : TxContext) : Pb.TxContext := ⟨c.height, c.epoch⟩

/-- `From<pb::TxContext>`. -/
def TxContext.fromProto (c : Pb.TxContext) : TxContext := ⟨c.height, c.epoch⟩

@[simp] lemma TxContext.fromProto_toProto (c : TxContext) : fromProto c.toProto = c := rfl

/-- `From<&ValidatorInfo>`. -/
def ValidatorInfo.toProto (v : ValidatorInfo) : Pb.ValidatorInfo :=
  ⟨v.id, v.publicKey.bytes, v.power⟩

/-- `TryFrom<pb::ValidatorInfo>`. -/
def ValidatorInfo.fromProto (v : Pb.ValidatorInfo) : Except DecodeError ValidatorInfo := do
  let publicKey ← bytesToPublicKey v.publicKey
  return ⟨v.id, publicKey, v.power⟩

lemma ValidatorInfo.recovers : Recovers (·.publicKey.bytes.length = 32) toProto fromProto := by
  intro v hkey
  rw [fromProto, toProto, bytesToPublicKey_bytes hkey]
  rfl

/-- `From<&ValidatorSet>`. -/
def ValidatorSet.toProto (vs : ValidatorSet) : Pb.ValidatorSet :=
  ⟨vs.validators.map ValidatorInfo.toProto, vs.totalPower⟩

/-- `TryFrom<pb::ValidatorSet>`. -/
def ValidatorSet.fromProto (vs : Pb.ValidatorSet) : Except DecodeError ValidatorSet := do
  let infos ← vs.validators.mapM ValidatorInfo.fromProto
  (tryNew infos).mapError fun err => .invalidMessage err.message

lemma ValidatorSet.recovers : Recovers (fun _ => True) toProto fromProto := by
  intro vs _
  have hinfos := ValidatorInfo.recovers.list _ vs.key_length
  rw [fromProto, toProto, hinfos]
  exact congrArg (Except.mapError _) vs.tryNew_self

/-- `From<&OwnedBlockContext>`. -/
def BlockContext.toProto (c : BlockContext) : Pb.BlockContext where
  height := c.height
  view := c.view
  proposer := c.proposer
  epoch := c.epoch
  epochStartView := c.epochStartView
  validatorSet := some c.validatorSet.toProto
  voteExtensions := c.voteExtensions.map fun (id, data) => ⟨id, data⟩
  timestamp := c.timestamp

/-- `ok_or_else`, with the text of the error. -/
def required {α : Type} (message : String) : Option α → Except DecodeError α
  | some a => .ok a
  | none => .error (.invalidMessage message)

@[simp] lemma required_some_bind {α β : Type} (message : String) (a : α)
    (f : α → Except DecodeError β) : (required message (some a) >>= f) = f a := rfl

/-- `TryFrom<pb::BlockContext>`. -/
def BlockContext.fromProto (c : Pb.BlockContext) : Except DecodeError BlockContext := do
  let validatorSet ← required "missing validator_set" c.validatorSet
  let validatorSet ← ValidatorSet.fromProto validatorSet
  return {
    height := c.height
    view := c.view
    proposer := c.proposer
    epoch := c.epoch
    epochStartView := c.epochStartView
    validatorSet := validatorSet
    timestamp := c.timestamp
    voteExtensions := c.voteExtensions.map fun ve => (ve.validatorId, ve.data) }

lemma BlockContext.recovers : Recovers (fun _ => True) toProto fromProto := by
  intro c _
  have hset := ValidatorSet.recovers c.validatorSet trivial
  simp only [fromProto, toProto, required_some_bind, hset, map_map, Function.comp_def, map_id']
  rfl

/-! ### Answers of the application -/

/-- `From<&ValidatorUpdate>`. -/
def ValidatorUpdate.toProto (u : ValidatorUpdate) : Pb.ValidatorUpdate :=
  ⟨u.id, u.publicKey.bytes, u.power⟩

/-- `TryFrom<pb::ValidatorUpdate>`. -/
def ValidatorUpdate.fromProto (u : Pb.ValidatorUpdate) : Except DecodeError ValidatorUpdate := do
  let publicKey ← bytesToPublicKey u.publicKey
  return ⟨u.id, publicKey, u.power⟩

/-- The key has 32 bytes. -/
def ValidatorUpdate.Keyed (u : ValidatorUpdate) : Prop := u.publicKey.bytes.length = 32

lemma ValidatorUpdate.recovers : Recovers Keyed toProto fromProto := by
  intro u hkey
  rw [fromProto, toProto, bytesToPublicKey_bytes hkey]
  rfl

/-- `From<&Event>`, with `From<&EventAttribute>`. -/
def Event.toProto (e : Event) : Pb.Event :=
  ⟨e.type, e.attributes.map fun (key, value) => ⟨key, value⟩⟩

/-- `From<pb::Event>`, with `From<pb::EventAttribute>`. -/
def Event.fromProto (e : Pb.Event) : Event := ⟨e.type, e.attributes.map fun a => (a.key, a.value)⟩

@[simp] lemma Event.fromProto_toProto (e : Event) : fromProto e.toProto = e := by
  simp only [fromProto, toProto, map_map, Function.comp_def, map_id']

/-- `From<&EndBlockResponse>`. -/
def EndBlockResponse.toProto (r : EndBlockResponse) : Pb.EndBlockResponse :=
  ⟨r.validatorUpdates.map ValidatorUpdate.toProto, r.events.map Event.toProto, r.appHash.bytes⟩

/-- `TryFrom<pb::EndBlockResponse>`. -/
def EndBlockResponse.fromProto (r : Pb.EndBlockResponse) : Except DecodeError EndBlockResponse := do
  let validatorUpdates ← r.validatorUpdates.mapM ValidatorUpdate.fromProto
  let appHash ← bytesToHash r.appHash
  return ⟨validatorUpdates, r.events.map Event.fromProto, appHash⟩

lemma EndBlockResponse.recovers :
    Recovers (∀ u ∈ ·.validatorUpdates, u.Keyed) toProto fromProto := by
  intro r hkeyed
  simp only [fromProto, toProto, ValidatorUpdate.recovers.list _ hkeyed, bytesToHash_bytes,
    map_map, Function.comp_def, Event.fromProto_toProto, map_id']
  rfl

/-- `From<&SnapshotInfo>`. -/
def SnapshotInfo.toProto (s : SnapshotInfo) : Pb.SnapshotInfo :=
  ⟨s.height, s.chunks, digestBytes s.hash⟩

/-- `TryFrom<pb::SnapshotInfo>`. -/
def SnapshotInfo.fromProto (s : Pb.SnapshotInfo) : Except DecodeError SnapshotInfo := do
  let hash ← bytesToArray32 "snapshot hash" s.hash
  return ⟨s.height, s.chunks, hash⟩

lemma SnapshotInfo.recovers : Recovers (fun _ => True) toProto fromProto := by
  intro s _
  rw [fromProto, toProto, bytesToArray32_digestBytes]
  rfl

end Hotmint
