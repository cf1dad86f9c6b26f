/-
The byte strings that are signed and hashed (`Vote::signing_bytes`, the signing helpers of
`view_protocol.rs` and `pacemaker.rs`, `Block::compute_hash`, `QuorumCertificate::digest`):

* `SigningPayload.bytes`: what each signing-bytes function returns;
* `Block.hashInput`, `QuorumCertificate.digestInput`: what the hasher is given;
* `Crypto.ofHash`: the primitives of the engine, from a hash and a verifier of byte strings;
* `SigningPayload.bytes_inj`: **signed bytes determine the payload**;
* `Block.hashInput_inj`, `QuorumCertificate.digestInput_inj`: **hashed bytes determine the
  block and the certificate**.

The words of the source are natural numbers here; the `Fits` predicates say that they are
words and that lengths are, as for every value of the source's types.
-/
import Hotmint.Library.Codes
import Hotmint.Types.Crypto

namespace Hotmint

open Codes List Option

/-! ### Fields -/

/-- `u64::to_le_bytes`. -/
def u64Bytes (n : ℕ) : Bytes := leBytes 8 n

/-- The 32 bytes of a digest. -/
def digestBytes (digest : Digest) : Bytes := leBytes 32 digest.toNat

/-- `vote_type as u8`. -/
def VoteType.byte : VoteType → UInt8
  | .vote => 0
  | .vote2 => 1

lemma readable_u64Bytes : Readable (· < 2 ^ 64) u64Bytes := readable_leBytes 8

lemma readable_digestBytes : Readable (fun _ => True) digestBytes :=
  readable_of_length (fun _ => length_leBytes 32 _) fun a b _ _ h =>
    BitVec.eq_of_toNat_eq (leBytes_inj a.isLt b.isLt h)

/-- A block hash as it is written. -/
def BlockHash.bytes (hash : BlockHash) : Bytes := digestBytes hash.word

lemma readable_blockHash : Readable (fun _ => True) BlockHash.bytes := by
  intro a b _ _ s t h
  obtain ⟨hword, hrest⟩ := readable_digestBytes trivial trivial h
  obtain ⟨word⟩ := a
  exact ⟨congrArg BlockHash.mk hword, hrest⟩

lemma readable_voteType : Readable (fun _ => True) fun t : VoteType => [t.byte] := by
  refine readable_of_length (fun _ => rfl) fun a b _ _ h => ?_
  cases a <;> cases b <;> first | rfl | exact absurd h (by decide)

lemma readable_signature : Readable (fun sig : Signature => sig.bytes.length < 2 ^ 64)
    fun sig => prefixed sig.bytes := by
  intro a b ha hb s t h
  obtain ⟨hbytes, hrest⟩ := readable_prefixed ha hb h
  obtain ⟨bytes⟩ := a
  exact ⟨congrArg Signature.mk hbytes, hrest⟩

/-! ### Blocks -/

/-- One round of the evidence loop of `compute_hash`. -/
def EquivocationProof.hashInput (ev : EquivocationProof) : Bytes :=
  u64Bytes ev.validator ++ u64Bytes ev.view ++ [ev.voteType.byte] ++ u64Bytes ev.epoch
    ++ ev.blockHashA.bytes ++ prefixed ev.signatureA.bytes ++ optional prefixed ev.extensionA
    ++ ev.blockHashB.bytes ++ prefixed ev.signatureB.bytes ++ optional prefixed ev.extensionB

/-- The words and lengths of a proof fit. -/
structure EquivocationProof.Fits (ev : EquivocationProof) : Prop where
  validator : ev.validator < 2 ^ 64
  view : ev.view < 2 ^ 64
  epoch : ev.epoch < 2 ^ 64
  signatureA : ev.signatureA.bytes.length < 2 ^ 64
  extensionA : ∀ ext ∈ ev.extensionA, ext.length < 2 ^ 64
  signatureB : ev.signatureB.bytes.length < 2 ^ 64
  extensionB : ∀ ext ∈ ev.extensionB, ext.length < 2 ^ 64

/-- What `Block::compute_hash` gives to the hasher. -/
def Block.hashInput (b : Block) : Bytes :=
  u64Bytes b.height ++ b.parentHash.bytes ++ u64Bytes b.view ++ u64Bytes b.proposer
    ++ u64Bytes b.timestamp ++ b.appHash.bytes
    ++ counted EquivocationProof.hashInput b.evidence ++ prefixed b.payload

/-- The words and lengths of a block fit. -/
structure Block.Fits (b : Block) : Prop where
  height : b.height < 2 ^ 64
  view : b.view < 2 ^ 64
  proposer : b.proposer < 2 ^ 64
  timestamp : b.timestamp < 2 ^ 64
  payload : b.payload.length < 2 ^ 64
  evidence : b.evidence.length < 2 ^ 64 ∧ ∀ ev ∈ b.evidence, ev.Fits

/-- What `QuorumCertificate::digest` gives to the hasher. -/
def QuorumCertificate.digestInput (qc : QuorumCertificate) : Bytes :=
  u64Bytes qc.epoch ++ u64Bytes qc.view ++ qc.blockHash.bytes
    ++ counted (fun signed => [cond signed 1 0]) qc.aggregateSignature.signers
    ++ counted (fun sig : Signature => prefixed sig.bytes) qc.aggregateSignature.signatures

/-- The words and lengths of a certificate fit. -/
structure QuorumCertificate.Fits (qc : QuorumCertificate) : Prop where
  epoch : qc.epoch < 2 ^ 64
  view : qc.view < 2 ^ 64
  signers : qc.aggregateSignature.signers.length < 2 ^ 64
  signatures : qc.aggregateSignature.signatures.length < 2 ^ 64
    ∧ ∀ sig ∈ qc.aggregateSignature.signatures, sig.bytes.length < 2 ^ 64

lemma readable_bit : Readable (fun _ => True) fun signed : Bool => [cond signed (1 : UInt8) 0] := by
  refine readable_of_length (fun _ => rfl) fun a b _ _ h => ?_
  cases a <;> cases b <;> first | rfl | exact absurd h (by decide)

/-- **The hashed bytes determine the certificate.** -/
lemma QuorumCertificate.digestInput_inj {a b : QuorumCertificate} (ha : a.Fits) (hb : b.Fits)
    (h : a.digestInput = b.digestInput) : a = b := by
  simp only [QuorumCertificate.digestInput, append_assoc] at h
  obtain ⟨hepoch, h⟩ := readable_u64Bytes ha.epoch hb.epoch h
  obtain ⟨hview, h⟩ := readable_u64Bytes ha.view hb.view h
  obtain ⟨hhash, h⟩ := readable_blockHash trivial trivial h
  obtain ⟨hsigners, h⟩ := readable_counted readable_bit ⟨ha.signers, fun _ _ => trivial⟩
    ⟨hb.signers, fun _ _ => trivial⟩ h
  have hsignatures := (readable_counted readable_signature).injOn ha.signatures hb.signatures h
  obtain ⟨hash, view, ⟨signers, signatures⟩, epoch⟩ := a
  obtain ⟨hash', view', ⟨signers', signatures'⟩, epoch'⟩ := b
  rw [QuorumCertificate.mk.injEq, AggregateSignature.mk.injEq]
  exact ⟨hhash, hview, ⟨hsigners, hsignatures⟩, hepoch⟩

/-- The five signing-bytes functions. -/
inductive SigningKind
  | vote
  | proposal
  | prepare
  | wish
  | status
deriving DecidableEq, Repr

/-- The bytes of an ASCII string. -/
def asciiBytes (text : String) : Bytes := text.toList.map fun c => UInt8.ofNat c.toNat

/-- The domain tag that the function writes first. -/
def SigningKind.tag : SigningKind → Bytes
  | vote => asciiBytes "HOTMINT_VOTE_V3\x00"
  | proposal => asciiBytes "HOTMINT_PROPOSAL_V1\x00"
  | prepare => asciiBytes "HOTMINT_PREPARE_V1\x00"
  | wish => asciiBytes "HOTMINT_WISH_V1\x00"
  | status => asciiBytes "HOTMINT_STATUS_V2\x00"

/-- The tail of `Vote::signing_bytes`: marker, length and digest of the extension, which are
all zero without one. -/
def extensionBytes : Option (ℕ × Digest) → Bytes
  | some (len, digest) => 1 :: (u64Bytes len ++ digestBytes digest)
  | none => 0 :: (u64Bytes 0 ++ digestBytes 0)

/-- The tail of `status_signing_bytes`, empty without a locked certificate. -/
def lockedBytes : Option (BlockHash × ℕ) → Bytes
  | some (hash, view) => hash.bytes ++ u64Bytes view
  | none => []

namespace SigningPayload

/-- The function that signs the payload. -/
def kind : SigningPayload → SigningKind
  | vote .. => .vote
  | proposal .. => .proposal
  | prepare .. => .prepare
  | wish .. => .wish
  | status .. => .status

/-- What the function writes after its tag. -/
def fields : SigningPayload → Bytes
  | vote chainIdHash epoch view validator blockHash voteType extension =>
    digestBytes chainIdHash ++ u64Bytes epoch ++ u64Bytes view ++ u64Bytes validator
      ++ blockHash.bytes ++ [voteType.byte] ++ extensionBytes extension
  | proposal chainIdHash epoch blockHash justifyHash justifyView =>
    digestBytes chainIdHash ++ u64Bytes epoch ++ blockHash.bytes ++ justifyHash.bytes
      ++ u64Bytes justifyView
  | prepare chainIdHash epoch blockHash view =>
    digestBytes chainIdHash ++ u64Bytes epoch ++ blockHash.bytes ++ u64Bytes view
  | wish chainIdHash epoch targetView highestQc =>
    digestBytes chainIdHash ++ u64Bytes epoch ++ u64Bytes targetView
      ++ optional digestBytes highestQc
  | status chainIdHash epoch view validator lockedQc =>
    digestBytes chainIdHash ++ u64Bytes epoch ++ u64Bytes view ++ u64Bytes validator
      ++ lockedBytes lockedQc

/-- The byte string that is signed. -/
def bytes (p : SigningPayload) : Bytes := p.kind.tag ++ p.fields

/-- The words of a payload fit. -/
def Fits : SigningPayload → Prop
  | vote _ epoch view validator _ _ extension =>
    epoch < 2 ^ 64 ∧ view < 2 ^ 64 ∧ validator < 2 ^ 64 ∧ ∀ ext ∈ extension, ext.1 < 2 ^ 64
  | proposal _ epoch _ _ justifyView => epoch < 2 ^ 64 ∧ justifyView < 2 ^ 64
  | prepare _ epoch _ view => epoch < 2 ^ 64 ∧ view < 2 ^ 64
  | wish _ epoch targetView _ => epoch < 2 ^ 64 ∧ targetView < 2 ^ 64
  | status _ epoch view validator lockedQc =>
    epoch < 2 ^ 64 ∧ view < 2 ^ 64 ∧ validator < 2 ^ 64 ∧ ∀ locked ∈ lockedQc, locked.2 < 2 ^ 64

end SigningPayload

/-- The first eleven bytes tell the tags apart, and every tag has so many. -/
lemma SigningKind.tag_take_inj {k k' : SigningKind} (h : k.tag.take 11 = k'.tag.take 11) :
    k = k' := by
  cases k <;> cases k' <;> first | rfl | exact absurd h (by decide)

lemma SigningKind.le_length_tag (k : SigningKind) : 11 ≤ k.tag.length := by
  cases k <;> decide

lemma extensionBytes_inj {a b : Option (ℕ × Digest)} (ha : ∀ e ∈ a, e.1 < 2 ^ 64)
    (hb : ∀ e ∈ b, e.1 < 2 ^ 64) (h : extensionBytes a = extensionBytes b) : a = b := by
  cases a with
  | none =>
    cases b with
    | none => rfl
    | some e => exact absurd (cons.inj h).1 (by decide)
  | some e =>
    cases b with
    | none => exact absurd (cons.inj h).1 (by decide)
    | some e' =>
      obtain ⟨hlen, hdigest⟩ := readable_u64Bytes (ha e rfl) (hb e' rfl) (cons.inj h).2
      exact congrArg some (Prod.ext hlen (readable_digestBytes.injOn trivial trivial hdigest))

lemma lockedBytes_inj {a b : Option (BlockHash × ℕ)} (ha : ∀ e ∈ a, e.2 < 2 ^ 64)
    (hb : ∀ e ∈ b, e.2 < 2 ^ 64) (h : lockedBytes a = lockedBytes b) : a = b := by
  -- with a certificate there are forty bytes, without one there are none
  have hlength : ∀ e, (lockedBytes (some e)).length = 40 := by
    intro e
    simp [lockedBytes, BlockHash.bytes, digestBytes, u64Bytes]
  cases a with
  | none =>
    cases b with
    | none => rfl
    | some e => exact absurd (congrArg length h).symm (by rw [hlength e]; decide)
  | some e =>
    cases b with
    | none => exact absurd (congrArg length h) (by rw [hlength e]; decide)
    | some e' =>
      obtain ⟨hhash, hview⟩ := readable_blockHash trivial trivial h
      exact congrArg some (Prod.ext hhash (readable_u64Bytes.injOn (ha e rfl) (hb e' rfl) hview))

namespace SigningPayload

/-- Signed bytes tell the kinds apart. -/
lemma kind_eq_of_bytes_eq {p q : SigningPayload} (h : p.bytes = q.bytes) : p.kind = q.kind := by
  refine SigningKind.tag_take_inj ?_
  have htake : p.bytes.take 11 = q.bytes.take 11 := by rw [h]
  rwa [bytes, bytes, take_append_of_le_length p.kind.le_length_tag,
    take_append_of_le_length q.kind.le_length_tag] at htake

/-- Two payloads of one kind are determined by their fields. -/
lemma fields_inj {p q : SigningPayload} (hp : p.Fits) (hq : q.Fits) (hkind : p.kind = q.kind)
    (h : p.fields = q.fields) : p = q := by
  cases p <;> cases q <;> cases hkind <;> simp only [fields, append_assoc] at h
  -- every payload starts with the chain and the epoch
  all_goals obtain ⟨hchain, h⟩ := readable_digestBytes trivial trivial h
  all_goals obtain ⟨hepoch, h⟩ := readable_u64Bytes hp.1 hq.1 h
  case vote.vote.refl =>
    obtain ⟨hview, h⟩ := readable_u64Bytes hp.2.1 hq.2.1 h
    obtain ⟨hvalidator, h⟩ := readable_u64Bytes hp.2.2.1 hq.2.2.1 h
    obtain ⟨hhash, h⟩ := readable_blockHash trivial trivial h
    obtain ⟨htype, h⟩ := readable_voteType trivial trivial h
    have hext := extensionBytes_inj hp.2.2.2 hq.2.2.2 h
    rw [SigningPayload.vote.injEq]
    exact ⟨hchain, hepoch, hview, hvalidator, hhash, htype, hext⟩
  case proposal.proposal.refl =>
    obtain ⟨hhash, h⟩ := readable_blockHash trivial trivial h
    obtain ⟨hjustify, h⟩ := readable_blockHash trivial trivial h
    have hview := readable_u64Bytes.injOn hp.2 hq.2 h
    rw [SigningPayload.proposal.injEq]
    exact ⟨hchain, hepoch, hhash, hjustify, hview⟩
  case prepare.prepare.refl =>
    obtain ⟨hhash, h⟩ := readable_blockHash trivial trivial h
    have hview := readable_u64Bytes.injOn hp.2 hq.2 h
    rw [SigningPayload.prepare.injEq]
    exact ⟨hchain, hepoch, hhash, hview⟩
  case wish.wish.refl =>
    obtain ⟨hview, h⟩ := readable_u64Bytes hp.2 hq.2 h
    have hqc := (readable_optional readable_digestBytes).injOn (fun _ _ => trivial)
      (fun _ _ => trivial) h
    rw [SigningPayload.wish.injEq]
    exact ⟨hchain, hepoch, hview, hqc⟩
  case status.status.refl =>
    obtain ⟨hview, h⟩ := readable_u64Bytes hp.2.1 hq.2.1 h
    obtain ⟨hvalidator, h⟩ := readable_u64Bytes hp.2.2.1 hq.2.2.1 h
    have hlocked := lockedBytes_inj hp.2.2.2 hq.2.2.2 h
    rw [SigningPayload.status.injEq]
    exact ⟨hchain, hepoch, hview, hvalidator, hlocked⟩

/-- **Signed bytes determine the payload.** -/
lemma bytes_inj {p q : SigningPayload} (hp : p.Fits) (hq : q.Fits) (h : p.bytes = q.bytes) :
    p = q := by
  have hkind := kind_eq_of_bytes_eq h
  refine fields_inj hp hq hkind ?_
  rw [bytes, bytes, hkind] at h
  exact append_cancel_left h

end SigningPayload

/-! ### Hashes and signatures of byte strings -/

/-- Options are equal when their images are and the function does not confuse their values. -/
lemma optionMap_inj {α β : Type*} {f : α → β} {o o' : Option α}
    (hinj : ∀ a ∈ o, ∀ b ∈ o', f a = f b → a = b) (h : o.map f = o'.map f) : o = o' := by
  cases o with
  | none => exact (map_eq_none_iff.mp h.symm).symm
  | some a =>
    obtain ⟨b, rfl, hb⟩ := map_eq_some_iff.mp h.symm
    exact congrArg some (hinj a rfl b rfl hb.symm)

/-- The primitives of the engine, from a hash and a signature check of byte strings. -/
def Crypto.ofHash (hash : Bytes → Digest) (verify : PublicKey → Bytes → Signature → Bool) :
    Crypto where
  computeHash b := ⟨hash b.hashInput⟩
  computeHash_content _ _ := rfl
  qcDigest qc := hash qc.digestInput
  hashBytes := hash
  verify pk payload sig := verify pk payload.bytes sig

/-- **Signing payloads are unambiguous.**  The bytes of two kinds always differ.  Equal bytes
come from equal payloads, of any kind; those of votes from votes that differ in their
signature at most, and those of wishes from equal certificates, when the hash does not
collide on the two extensions, or on the two certificates. -/
theorem signing_payloads_unambiguous (hash : Bytes → Digest)
    (verify : PublicKey → Bytes → Signature → Bool) :
    (∀ p q : SigningPayload, p.kind ≠ q.kind → p.bytes ≠ q.bytes)
    ∧ (∀ p q : SigningPayload, p.Fits → q.Fits → p.bytes = q.bytes → p = q)
    ∧ (∀ (chain chain' : Digest) (v v' : Vote),
        ((Crypto.ofHash hash verify).payloadOfVote chain v).Fits →
        ((Crypto.ofHash hash verify).payloadOfVote chain' v').Fits →
        (∀ x ∈ v.extension, ∀ y ∈ v'.extension, hash x = hash y → x = y) →
        ((Crypto.ofHash hash verify).payloadOfVote chain v).bytes
          = ((Crypto.ofHash hash verify).payloadOfVote chain' v').bytes →
        chain = chain' ∧ { v with signature := v'.signature } = v')
    ∧ ∀ (chain chain' : Digest) (epoch epoch' view view' : ℕ) (qc qc' : Option QuorumCertificate),
        epoch < 2 ^ 64 → epoch' < 2 ^ 64 → view < 2 ^ 64 → view' < 2 ^ 64 →
        (∀ a ∈ qc, a.Fits) → (∀ b ∈ qc', b.Fits) →
        (∀ a ∈ qc, ∀ b ∈ qc', hash a.digestInput = hash b.digestInput →
          a.digestInput = b.digestInput) →
        ((Crypto.ofHash hash verify).wishPayload chain epoch view qc).bytes
          = ((Crypto.ofHash hash verify).wishPayload chain' epoch' view' qc').bytes →
        chain = chain' ∧ epoch = epoch' ∧ view = view' ∧ qc = qc' := by
  refine ⟨fun p q hkind h => hkind (SigningPayload.kind_eq_of_bytes_eq h),
    fun p q hp hq h => SigningPayload.bytes_inj hp hq h, ?_, ?_⟩
  · intro chain chain' v v' hv hv' hfree h
    obtain ⟨hchain, hepoch, hview, hvalidator, hhash, htype, hext⟩ :=
      SigningPayload.vote.inj (SigningPayload.bytes_inj hv hv' h)
    have hextension : v.extension = v'.extension := by
      refine optionMap_inj ?_ hext
      intro x hx y hy heq
      exact hfree x hx y hy (Prod.mk.inj heq).2
    refine ⟨hchain, ?_⟩
    cases v'
    rw [Vote.mk.injEq]
    exact ⟨hepoch, hhash, hview, hvalidator, rfl, htype, hextension⟩
  · intro chain chain' epoch epoch' view view' qc qc' hepochP hepochQ hviewP hviewQ hqc hqc' hfree h
    obtain ⟨hchain, hepoch, hview, hdigest⟩ := SigningPayload.wish.inj
      (SigningPayload.bytes_inj (p := .wish ..) (q := .wish ..) ⟨hepochP, hviewP⟩
        ⟨hepochQ, hviewQ⟩ h)
    refine ⟨hchain, hepoch, hview, optionMap_inj ?_ hdigest⟩
    intro a ha b hb heq
    exact QuorumCertificate.digestInput_inj (hqc a ha) (hqc' b hb) (hfree a ha b hb heq)

/-- Two signatures on one vote with an extension. -/
theorem signing_payloads_unambiguous_vote :
    (0 : Digest) = 0 ∧ ({ (⟨1, BlockHash.genesis, 2, 3, ⟨[1]⟩, .vote2, some [7]⟩ : Vote) with
      signature := ⟨[2]⟩ } : Vote) = ⟨1, BlockHash.genesis, 2, 3, ⟨[2]⟩, .vote2, some [7]⟩ := by
  have hfits : ∀ sig, ((Crypto.ofHash (fun x => BitVec.ofNat 256 x.length) fun _ _ _ =>
      true).payloadOfVote 0 ⟨1, BlockHash.genesis, 2, 3, sig, .vote2, some [7]⟩).Fits := fun _ =>
    ⟨(by decide : 1 < 2 ^ 64), (by decide : 2 < 2 ^ 64), (by decide : 3 < 2 ^ 64),
      fun _ hext => some.inj hext ▸ (by decide : 1 < 2 ^ 64)⟩
  exact (signing_payloads_unambiguous (fun x => BitVec.ofNat 256 x.length) fun _ _ _ => true).2.2.1
    0 0 ⟨1, BlockHash.genesis, 2, 3, ⟨[1]⟩, .vote2, some [7]⟩
    ⟨1, BlockHash.genesis, 2, 3, ⟨[2]⟩, .vote2, some [7]⟩ (hfits _) (hfits _)
    (fun _ hx _ hy _ => (some.inj hx).symm.trans (some.inj hy)) rfl

end Hotmint
