/-
A small instance of everything the model leaves open, so that runs of it can be
evaluated.

* `Sample.crypto`: signatures that spell out the key and the payload, so that
  `Sample.verify_read` recovers both;
* `Sample.application`: an application whose validator updates depend on the
  height only;
* `Sample.network`, `Move`, `Sample.perform`: networks of such nodes and scripts
  for them, with `Sample.run_outcome`: **a script is a run**.
-/
import Hotmint.Consensus.Run

namespace Hotmint

open List

namespace Sample

/-! ### Keys, hashes and signatures -/

/-- The key of a validator. -/
def key (id : UInt8) : PublicKey := ⟨replicate 32 id⟩

/-- A hash that tells blocks of different small heights, views, proposers and
times apart. -/
def blockHash (b : Block) : BlockHash :=
  ⟨BitVec.ofNat 256 (1 + b.view + 16 * b.height + 256 * b.proposer + 4096 * (b.timestamp % 16))⟩

/-- Two bytes of a digest. -/
def digestBytes (w : Digest) : Bytes := [UInt8.ofNat w.toNat, UInt8.ofNat (w.toNat / 256)]

/-- The digest two bytes stand for. -/
def readDigest (lo hi : UInt8) : Digest := BitVec.ofNat 256 (lo.toNat + 256 * hi.toNat)

/-- A payload as bytes: a tag, then its fields. -/
def payloadBytes : SigningPayload → Bytes
  | .vote _ epoch view validator hash voteType none =>
    [1, UInt8.ofNat epoch, UInt8.ofNat view, UInt8.ofNat validator,
      if voteType = .vote then 0 else 1] ++ digestBytes hash.word
  | .vote _ epoch view validator hash voteType (some (length, digest)) =>
    [8, UInt8.ofNat epoch, UInt8.ofNat view, UInt8.ofNat validator,
      if voteType = .vote then 0 else 1, UInt8.ofNat length] ++ digestBytes hash.word
      ++ digestBytes digest
  | .proposal _ epoch hash justifyHash justifyView =>
    [2, UInt8.ofNat epoch, UInt8.ofNat justifyView] ++ digestBytes hash.word
      ++ digestBytes justifyHash.word
  | .prepare _ epoch hash view =>
    [3, UInt8.ofNat epoch, UInt8.ofNat view] ++ digestBytes hash.word
  | .wish _ epoch targetView none => [4, UInt8.ofNat epoch, UInt8.ofNat targetView]
  | .wish _ epoch targetView (some digest) =>
    [5, UInt8.ofNat epoch, UInt8.ofNat targetView] ++ digestBytes digest
  | .status _ epoch view validator none =>
    [6, UInt8.ofNat epoch, UInt8.ofNat view, UInt8.ofNat validator]
  | .status _ epoch view validator (some (hash, lockedView)) =>
    [7, UInt8.ofNat epoch, UInt8.ofNat view, UInt8.ofNat validator, UInt8.ofNat lockedView]
      ++ digestBytes hash.word

/-- The payload behind bytes, on the chain with hash zero. -/
def readPayload : Bytes → Option SigningPayload
  | [1, epoch, view, validator, t, lo, hi] => some (.vote 0#256 epoch.toNat view.toNat
      validator.toNat ⟨readDigest lo hi⟩ (if t = 0 then .vote else .vote2) none)
  | [2, epoch, view, lo, hi, lo', hi'] => some (.proposal 0#256 epoch.toNat ⟨readDigest lo hi⟩
      ⟨readDigest lo' hi'⟩ view.toNat)
  | [3, epoch, view, lo, hi] =>
    some (.prepare 0#256 epoch.toNat ⟨readDigest lo hi⟩ view.toNat)
  | [4, epoch, view] => some (.wish 0#256 epoch.toNat view.toNat none)
  | [5, epoch, view, lo, hi] =>
    some (.wish 0#256 epoch.toNat view.toNat (some (readDigest lo hi)))
  | [6, epoch, view, validator] =>
    some (.status 0#256 epoch.toNat view.toNat validator.toNat none)
  | [7, epoch, view, validator, lockedView, lo, hi] => some (.status 0#256 epoch.toNat view.toNat
      validator.toNat (some (⟨readDigest lo hi⟩, lockedView.toNat)))
  | [8, epoch, view, validator, t, length, lo, hi, lo', hi'] => some (.vote 0#256 epoch.toNat
      view.toNat validator.toNat ⟨readDigest lo hi⟩ (if t = 0 then .vote else .vote2)
      (some (length.toNat, readDigest lo' hi')))
  | _ => none

/-- A signature names its key and spells out the payload. -/
def sign (id : UInt8) (payload : SigningPayload) : Signature := ⟨id :: payloadBytes payload⟩

/-- What a signature signs. -/
def readSignature (sig : Signature) : Option (PublicKey × SigningPayload) :=
  match sig.bytes with
  | id :: bytes => (readPayload bytes).map fun payload => (key id, payload)
  | [] => none

/-- Transparent signatures and hashes. -/
def crypto : Crypto where
  computeHash := blockHash
  computeHash_content := fun _ _ => rfl
  qcDigest := fun qc => BitVec.ofNat 256 (qc.blockHash.word.toNat + 4096 * qc.view)
  hashBytes := fun bytes => BitVec.ofNat 256 bytes.length
  verify := fun pk payload sig => readSignature sig = some (pk, payload)

lemma verify_read {pk : PublicKey} {payload : SigningPayload} {sig : Signature}
    (h : crypto.verify pk payload sig = true) : readSignature sig = some (pk, payload) :=
  of_decide_eq_true h

/-! ### Nodes -/

/-- An application whose updates depend on the height only. -/
def application (updates : ℕ → List ValidatorUpdate) : Application Unit where
  info := fun _ => ⟨0, BlockHash.genesis⟩
  createPayload := fun _ _ => ([], ())
  validateBlock := fun _ _ _ => (true, ())
  executeBlock := fun _ _ ctx => (some ⟨updates ctx.height, [], BlockHash.genesis⟩, ())
  onCommit := fun _ _ _ => (true, ())
  onEvidence := fun _ _ => (true, ())
  onOfflineValidators := fun _ _ => ()
  extendVote := fun _ _ _ => (none, ())
  verifyVoteExtension := fun _ _ _ _ => (true, ())
  tracksAppHash := fun _ => true

/-- Validators 0, 1, 2, … of the given powers. -/
def validatorSet (powers : List ℕ) : ValidatorSet :=
  match ValidatorSet.tryNew (powers.zipIdx.map fun p => ⟨p.2, key (UInt8.ofNat p.2), p.1⟩) with
  | .ok vs => vs
  | .error _ => ⟨[], by decide, by simp, by simp, by simp, by simp⟩

/-- Everything is configured. -/
def deps (id : ℕ) (updates : ℕ → List ValidatorUpdate) : Deps Unit where
  crypto := crypto
  sign := sign (UInt8.ofNat id)
  app := application updates
  hasPersistence := true
  hasEvidenceStore := true
  hasWal := true

/-- Signatures that name their key and nothing else, so that all that is signed
verifies. -/
def nameCrypto : Crypto :=
  { crypto with verify := fun pk _ sig => sig.bytes = pk.bytes }

/-- A node that signs with its name. -/
def nameDeps (id : ℕ) (updates : ℕ → List ValidatorUpdate) : Deps Unit :=
  { deps id updates with
    crypto := nameCrypto
    sign := fun _ => ⟨(key (UInt8.ofNat id)).bytes⟩ }

/-- An environment in which everything succeeds, at a given time. -/
def envAt (ms : ℕ) : Env := ⟨ms, ms, true, 2⟩

/-- The environment of a run in which no time passes. -/
def env : Env := envAt 1000

/-- Steps that follow one another, or nothing if one of them is not enabled. -/
def steps (d : Deps Unit) (labels : List Label) (e : Engine Unit) : Engine Unit :=
  (e.applyAll d labels).getD e

lemma runWhere_steps (d : Deps Unit) {P : Label → Prop} {labels : List Label}
    (hP : ∀ label ∈ labels, P label) (e : Engine Unit) :
    RunWhere d (fun _ => P) e (steps d labels e) := by
  suffices hsome : ∀ e', e.applyAll d labels = some e' → RunWhere d (fun _ => P) e e' by
    unfold steps
    cases happly : e.applyAll d labels with
    | none => exact .refl
    | some e' => exact hsome e' happly
  intro e' happly
  induction labels generalizing e with
  | nil =>
    cases happly
    exact .refl
  | cons label labels ih =>
    rw [Engine.applyAll] at happly
    split_ifs at happly with henabled
    exact Relation.ReflTransGen.head (.step henabled (hP label mem_cons_self))
      (ih (fun l hl => hP l (.tail _ hl)) _ happly)

lemma run_steps (d : Deps Unit) (labels : List Label) (e : Engine Unit) :
    Run d e (steps d labels e) :=
  runWhere_steps d (fun _ _ => trivial) e

lemma crashRun_steps {d : Deps Unit} {cfg : NodeConfig} {R : List Effect → Prop} {e : Engine Unit}
    (h : CrashRunWhere d cfg (fun _ _ => True) R e) (labels : List Label) :
    CrashRunWhere d cfg (fun _ _ => True) R (steps d labels e) :=
  h.run (run_steps d labels e)

/-! ### Messages of any validator -/

/-- A block on the chain with hash zero. -/
def block (height : ℕ) (parentHash : BlockHash) (view proposer : ℕ) : Block :=
  let b : Block := ⟨height, parentHash, view, proposer, 1000, [], BlockHash.genesis, [],
    BlockHash.genesis⟩
  { b with hash := blockHash b }

/-- Signatures of the given validators, each on a payload of its own. -/
def aggregate (vs : ValidatorSet) (ids : List ℕ) (payload : ℕ → SigningPayload) :
    AggregateSignature where
  signers := vs.validators.map fun v => v.id ∈ ids
  signatures := (vs.validators.filter fun v => v.id ∈ ids).map fun v =>
    sign (UInt8.ofNat v.id) (payload v.id)

/-- A certificate of votes of the given validators for a block. -/
def qc (vs : ValidatorSet) (ids : List ℕ) (voteType : VoteType) (epoch view : ℕ)
    (hash : BlockHash) : QuorumCertificate where
  blockHash := hash
  view := view
  aggregateSignature := aggregate vs ids fun id => .vote 0#256 epoch view id hash voteType none
  epoch := epoch

/-- Both certificates for a block. -/
def dc (vs : ValidatorSet) (ids : List ℕ) (epoch view : ℕ) (hash : BlockHash) :
    DoubleCertificate :=
  ⟨qc vs ids .vote epoch view hash, qc vs ids .vote2 epoch view hash, []⟩

/-- The certificate every node starts from. -/
def genesisQc (vs : ValidatorSet) : QuorumCertificate :=
  ⟨BlockHash.genesis, 0, AggregateSignature.new vs.validatorCount, 0⟩

/-- A timeout certificate of the given validators, all with one highest
certificate. -/
def tc (vs : ValidatorSet) (ids : List ℕ) (epoch view : ℕ) (highest : QuorumCertificate) :
    TimeoutCertificate where
  view := view
  aggregateSignature := aggregate vs ids fun _ =>
    crypto.wishPayload 0#256 epoch (view + 1) (some highest)
  highestQcs := vs.validators.map fun v => if v.id ∈ ids then some highest else none

/-- A vote of the first epoch, signed by its validator. -/
def vote (voteType : VoteType) (view validator : ℕ) (hash : BlockHash)
    (extension : Option Bytes) : Vote where
  epoch := 0
  blockHash := hash
  view := view
  validator := validator
  signature := sign (UInt8.ofNat validator)
    (crypto.votePayload 0#256 0 view validator hash voteType extension)
  voteType := voteType
  extension := extension

/-- A proposal signed by its proposer. -/
def proposal (epoch : ℕ) (block : Block) (justify : QuorumCertificate)
    (doubleCert : Option DoubleCertificate) (ancestors : List Block) : ConsensusMessage :=
  .propose block justify doubleCert
    (sign (UInt8.ofNat block.proposer) (proposalPayload 0#256 epoch block justify)) ancestors

/-! ### Networks and scripts -/

/-- A network of nodes with the given ids. -/
def network {n : ℕ} (vs : ValidatorSet) (ids : Fin n → ℕ) (hids : Function.Injective ids)
    (updates : ℕ → List ValidatorUpdate) : Network (Fin n) Unit where
  crypto := crypto
  chainIdHash := 0#256
  validatorSet := vs
  deps := fun i => deps (ids i) updates
  validatorId := ids
  app := fun _ => ()
  crypto_eq := fun _ => rfl
  validatorId_injective := hids

/-- Honest validators of power 5 and 1, and a faulty one of power 1. -/
def pair : Network (Fin 2) Unit :=
  network (validatorSet [5, 1, 1]) (fun i => i.val) Fin.val_injective fun _ => []

/-- Honest validators of power 2 and 1, and a silent one of power 1. -/
def trio : Network (Fin 2) Unit :=
  network (validatorSet [2, 1, 1]) (fun i => i.val) Fin.val_injective fun _ => []

/-- An honest validator of power 3, and one of power 1 that leads views 3, 7, 11, … -/
def solo (updates : ℕ → List ValidatorUpdate) : Network (Fin 1) Unit :=
  network (validatorSet [3, 1]) (fun i => i.val) Fin.val_injective updates

/-- An honest validator of power 4, which leads views 1 to 3 and needs the vote of one of two
others of power 1. -/
def needy : Network (Fin 1) Unit :=
  network (validatorSet [4, 1, 1]) (fun i => i.val) Fin.val_injective fun _ => []

/-- An honest validator of power 3 that signs with its name, and one of power 1. -/
def named : Network (Fin 1) Unit :=
  { network (validatorSet [3, 1]) (fun i => i.val) Fin.val_injective fun _ => [] with
    crypto := nameCrypto
    deps := fun i => nameDeps i.val fun _ => []
    crypto_eq := fun _ => rfl }

/-- One new validator at each of the given heights. -/
def updatesAt (heights : List ℕ) (height : ℕ) : List ValidatorUpdate :=
  if height ∈ heights then [⟨10 + height, key (UInt8.ofNat (10 + height)), 1⟩] else []

/-- Honest validators of power 4 and 1, and a silent one of power 1; the first one leads views 1
to 3, and needs the vote of the second. -/
def coupled (heights : List ℕ) : Network (Fin 2) Unit :=
  network (validatorSet [4, 1, 1]) (fun i => i.val) Fin.val_injective (updatesAt heights)

/-- Honest validators of power 3 and 1, and no other. -/
def duo (heights : List ℕ) : Network (Fin 2) Unit :=
  network (validatorSet [3, 1]) (fun i => i.val) Fin.val_injective (updatesAt heights)

/-- The root of a height. -/
def rootAt (height : ℕ) : BlockHash := ⟨BitVec.ofNat 256 height⟩

/-- The same network, with an application whose roots depend on the height only. -/
def withRoots {n : ℕ} (N : Network (Fin n) Unit) : Network (Fin n) Unit :=
  { N with
    deps := fun i =>
      { N.deps i with
        app :=
          { application fun _ => [] with
            executeBlock := fun _ _ ctx => (some ⟨[], [], rootAt ctx.height⟩, ()) } }
    crypto_eq := fun i => N.crypto_eq i }

/-- The node of power 5, which leads view 1. -/
def leader : Fin 2 := 0

/-- The other honest node. -/
def replica : Fin 2 := 1

/-- The node of a network of one. -/
def only : Fin 1 := 0

/-- The messages a node has sent, oldest first. -/
def outbox (e : Engine Unit) : List ConsensusMessage :=
  e.trace.filterMap fun
    | .broadcast msg => some msg
    | .sendTo _ msg => some msg
    | _ => none

/-- The blocks a node has executed, oldest first. -/
def executedBlocks (e : Engine Unit) : List Block :=
  e.trace.filterMap fun
    | .app (.executeBlock block _ _) => some block
    | _ => none

/-- The blocks a node has stored, oldest first. -/
def storedBlocks (e : Engine Unit) : List Block :=
  e.trace.filterMap fun
    | .putBlock block => some block
    | _ => none

lemma committed_of_mem {e : Engine Unit} {block : Block} (h : block ∈ executedBlocks e) :
    Committed e block := by
  obtain ⟨effect, hmem, heffect⟩ := mem_filterMap.mp h
  split at heffect
  · next block' ctx response =>
      cases heffect
      exact ⟨ctx, response, hmem⟩
  · cases heffect

lemma mem_storedBlocks {e : Engine Unit} {block : Block} (h : Effect.putBlock block ∈ e.trace) :
    block ∈ storedBlocks e :=
  mem_filterMap.mpr ⟨_, h, rfl⟩

/-- A step of a script. -/
inductive Move (n : ℕ)
  /-- A message that another node has sent, by its position. -/
  | relay (node source : Fin n) (position : ℕ)
  /-- A message made up by a faulty validator. -/
  | inject (node : Fin n) (msg : ConsensusMessage)
  | timeout (node : Fin n)
  | task (node : Fin n)

/-- Who moves, and on which label. -/
def Move.label {n : ℕ} (s : Fin n → Engine Unit) : Move n → Option (Fin n × Label)
  | .relay i source k => (outbox (s source))[k]?.map fun msg => (i, .message env none msg)
  | .inject i msg => some (i, .message env none msg)
  | .timeout i => some (i, .timeout)
  | .task i => some (i, .task env)

variable {n : ℕ} (N : Network (Fin n) Unit) {s : Fin n → Engine Unit}

/-- A signature that is unreadable, or made by the honest validator it names. -/
def genuine (s : Fin n → Engine Unit) (sig : Signature) : Bool :=
  match readSignature sig with
  | none => true
  | some (pk, payload) => decide (∀ i : Fin n,
      (N.validatorSet.get (N.validatorId i)).map (·.publicKey) = some pk →
      (s i).trace.any (fun effect => effect.signed N.crypto N.chainIdHash = some payload))

/-- All signatures of a label are genuine. -/
def genuineLabel (s : Fin n → Engine Unit) : Label → Bool
  | .message _ _ msg => msg.signatures.all (genuine N s)
  | _ => true

/-- A genuine signature that verifies under an honest key was made by its owner. -/
lemma signed_of_genuine (hcrypto : N.crypto = crypto) {sig : Signature}
    (h : genuine N s sig = true) (i : Fin n) (info : ValidatorInfo) (payload : SigningPayload)
    (hinfo : N.validatorSet.get (N.validatorId i) = some info)
    (hverify : N.crypto.verify info.publicKey payload sig = true) : N.Signed s i payload := by
  rw [hcrypto] at hverify
  simp only [genuine, verify_read hverify, decide_eq_true_eq] at h
  obtain ⟨effect, hmem, heffect⟩ := any_eq_true.mp (h i (by rw [hinfo]; rfl))
  exact ⟨effect, hmem, of_decide_eq_true heffect⟩

lemma labelAuthentic_of_genuine (hcrypto : N.crypto = crypto)
    {label : Label} (h : genuineLabel N s label = true) : N.LabelAuthentic s label := by
  cases label with
  | message env sender msg =>
    intro sig hsig
    exact signed_of_genuine N hcrypto (all_eq_true.mp h sig hsig)
  | timeout | task env => trivial

/-- Perform a script; it fails at a move that is not enabled or not genuine. -/
def perform : List (Move n) → (Fin n → Engine Unit) → Option (Fin n → Engine Unit)
  | [], s => some s
  | move :: moves, s =>
    match move.label s with
    | none => none
    | some (i, label) =>
      if (s i).enabled label && genuineLabel N s label then
        perform moves (Function.update s i ((s i).apply (N.deps i) label))
      else none

/-- The state a script ends in. -/
def outcome (moves : List (Move n)) : Fin n → Engine Unit :=
  (perform N moves N.init).getD N.init

lemma run_perform (hcrypto : N.crypto = crypto) {moves : List (Move n)}
    {t : Fin n → Engine Unit} (hrun : N.Run s) (h : perform N moves s = some t) : N.Run t := by
  induction moves generalizing s with
  | nil => exact Option.some.inj h ▸ hrun
  | cons move moves ih =>
    rw [perform] at h
    split at h
    · cases h
    · next i label _ =>
        split_ifs at h with hok
        rw [Bool.and_eq_true] at hok
        exact ih (hrun.tail (.step i label hok.1 (labelAuthentic_of_genuine N hcrypto hok.2))) h

/-- **A script is a run.** -/
theorem run_outcome (hcrypto : N.crypto = crypto) (moves : List (Move n)) :
    N.Run (outcome N moves) := by
  unfold outcome
  cases h : perform N moves N.init with
  | none => exact .refl
  | some t => exact run_perform N hcrypto .refl h

/-- All moves of a script satisfy a condition. -/
def meets (P : Fin n → Engine Unit → Label → Prop) [∀ i e label, Decidable (P i e label)] :
    List (Move n) → (Fin n → Engine Unit) → Bool
  | [], _ => true
  | move :: moves, s =>
    match move.label s with
    | none => true
    | some (i, label) => decide (P i (s i) label)
        && meets P moves (Function.update s i ((s i).apply (N.deps i) label))

section

variable {P : Fin n → Engine Unit → Label → Prop} [∀ i e label, Decidable (P i e label)]
  (hcrypto : N.crypto = crypto) {moves : List (Move n)}

include hcrypto

lemma runWhere_perform {t : Fin n → Engine Unit}
    (hrun : N.RunWhere P s) (hmeets : meets N P moves s = true)
    (h : perform N moves s = some t) : N.RunWhere P t := by
  induction moves generalizing s with
  | nil => exact Option.some.inj h ▸ hrun
  | cons move moves ih =>
    rw [perform] at h
    rw [meets] at hmeets
    split at h
    · cases h
    · next i label hlabel =>
        rw [hlabel] at hmeets
        obtain ⟨hP, hmeets⟩ := Bool.and_eq_true_iff.mp hmeets
        split_ifs at h with hok
        rw [Bool.and_eq_true] at hok
        exact ih (hrun.tail (.step i label hok.1 (labelAuthentic_of_genuine N hcrypto hok.2)
          (of_decide_eq_true hP))) hmeets h

/-- **A script that meets a condition is a run that does.** -/
theorem runWhere_outcome (hmeets : meets N P moves N.init = true) :
    N.RunWhere P (outcome N moves) := by
  unfold outcome
  cases h : perform N moves N.init with
  | none => exact .refl
  | some t => exact runWhere_perform N hcrypto .refl hmeets h

end

end Sample

end Hotmint
