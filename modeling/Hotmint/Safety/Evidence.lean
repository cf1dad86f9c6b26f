/-
Evidence of an equivocation in the node's store.

* `EvidenceStore.Keeps`: what is filed stays filed until it is committed;
* `CollectInv`: the votes collected in the current epoch are signed by members of
  its set;
* `Convicts`, `validateEvidence_of_convicts`: the proofs `validate_evidence` accepts, in
  views from their own on;
* `Gossiped`: a gossiped proof of the equivocation passes the checks of
  `validate_evidence` that the evidence branch does not make;
* `detected_proof_accepted`: **a detected equivocation has an acceptable proof among the
  pending ones** for as long as the epoch lasts and none is committed;
* `detected_proof_hidden`: a gossiped proof that names a later epoch takes its place;
* `Network.convicted_faulty`: **only faulty validators are convicted**.
-/
import Hotmint.Proof.Epochs
import Hotmint.Safety.Agreement

namespace Hotmint

open Sample Engine List NodeConfig
variable {σ : Type} {d : Deps σ} {A : Allowance}
variable {e e₀ : Engine σ} {p proof : EquivocationProof} {s : EvidenceStore} {x y : Flow σ}
  {vote : Vote} {validator view : ℕ}
variable {block : Block} {result : CommitResult} {t : List Effect} {proofs : List EquivocationProof}
  {cfg : NodeConfig} {vi : ValidatorInfo} {epoch : ℕ}

/-- The proof is about the given view and validator. -/
def EquivocationProof.Accuses (view validator : ℕ) (proof : EquivocationProof) : Prop :=
  proof.view = view ∧ proof.validator = validator

instance {view validator : ℕ} {proof : EquivocationProof} :
    Decidable (proof.Accuses view validator) :=
  inferInstanceAs (Decidable (_ ∧ _))

/-! ### The store -/

namespace EvidenceStore

/-- What was filed is still there or was committed, and what was committed stays so. -/
structure Keeps (s s' : EvidenceStore) : Prop where
  proofs : ∀ proof ∈ s.proofs, proof ∈ s'.proofs ∨ (proof.view, proof.validator) ∈ s'.committed
  committed : s.committed ⊆ s'.committed

lemma Keeps.refl (s : EvidenceStore) : Keeps s s :=
  ⟨fun _ h => .inl h, List.Subset.refl _⟩

lemma Keeps.trans {s₁ s₂ s₃ : EvidenceStore} (h : Keeps s₁ s₂) (h' : Keeps s₂ s₃) :
    Keeps s₁ s₃ := by
  refine ⟨fun proof hmem => ?_, List.Subset.trans h.committed h'.committed⟩
  rcases h.proofs proof hmem with hmem | hcommitted
  · exact h'.proofs proof hmem
  · exact .inr (h'.committed hcommitted)

lemma mem_putEvidence (h : p ∈ (s.putEvidence proof).proofs) : p ∈ s.proofs ∨ p = proof := by
  unfold putEvidence at h
  split_ifs at h
  · exact .inl h
  · exact (mem_append.mp h).imp_right mem_singleton.mp

lemma keeps_putEvidence (s : EvidenceStore) (proof : EquivocationProof) :
    Keeps s (s.putEvidence proof) := by
  refine ⟨fun p hmem => .inl ?_, by rw [committed_putEvidence]; exact List.Subset.refl _⟩
  unfold putEvidence
  split_ifs
  · exact hmem
  · exact mem_append_left _ hmem

/-- After `put_evidence` there is a proof for the pair, the given one or an older. -/
lemma exists_putEvidence (s : EvidenceStore) (proof : EquivocationProof) :
    ∃ p ∈ (s.putEvidence proof).proofs, p.Accuses proof.view proof.validator := by
  unfold putEvidence
  split_ifs with hany
  · obtain ⟨p, hmem, hp⟩ := any_eq_true.mp hany
    have heq : p.view = proof.view ∧ p.validator = proof.validator := of_decide_eq_true hp
    exact ⟨p, hmem, heq⟩
  · exact ⟨proof, mem_concat_self, rfl, rfl⟩

/-- The loop over the proofs of committed blocks. -/
def markAll (s : EvidenceStore) (proofs : List EquivocationProof) : EvidenceStore :=
  proofs.foldl (fun s proof => s.markCommitted proof.view proof.validator) s

lemma mem_markCommitted (h : p ∈ (s.markCommitted view validator).proofs) : p ∈ s.proofs :=
  mem_of_mem_filter h

lemma committed_markCommitted {pair : ℕ × ℕ} : pair ∈ (s.markCommitted view validator).committed
      ↔ pair = (view, validator) ∨ pair ∈ s.committed :=
  mem_insert_iff

lemma keeps_markCommitted (s : EvidenceStore) (view validator : ℕ) :
    Keeps s (s.markCommitted view validator) := by
  refine ⟨fun p hmem => ?_, fun pair hpair => committed_markCommitted.mpr (.inr hpair)⟩
  by_cases hcommitted : (p.view, p.validator) ∈ (s.markCommitted view validator).committed
  · exact .inr hcommitted
  · exact .inl (mem_filter.mpr ⟨hmem, decide_eq_true hcommitted⟩)

lemma keeps_markAll (s : EvidenceStore) (proofs : List EquivocationProof) :
    Keeps s (s.markAll proofs) := by
  induction proofs generalizing s with
  | nil => exact Keeps.refl s
  | cons proof proofs ih => exact (keeps_markCommitted s _ _).trans (ih _)

lemma mem_markAll (h : p ∈ (s.markAll proofs).proofs) : p ∈ s.proofs := by
  induction proofs generalizing s with
  | nil => exact h
  | cons proof proofs ih => exact mem_markCommitted (ih h)

/-- Only the pairs of the given proofs are marked. -/
lemma committed_markAll (h : (view, validator) ∈ (s.markAll proofs).committed) :
    (view, validator) ∈ s.committed ∨ ∃ proof ∈ proofs, proof.Accuses view validator := by
  induction proofs generalizing s with
  | nil => exact .inl h
  | cons proof proofs ih =>
    rcases ih h with hold | ⟨p, hmem, hp⟩
    · rcases committed_markCommitted.mp hold with heq | hold
      · obtain ⟨hview, hvalidator⟩ := Prod.mk.inj heq
        exact .inr ⟨proof, .head _, hview.symm, hvalidator.symm⟩
      · exact .inl hold
    · exact .inr ⟨p, .tail _ hmem, hp⟩

end EvidenceStore

lemma keeps_fileProof (equivocation : Option EquivocationProof) (s : EvidenceStore) :
    s.Keeps (fileProof d equivocation s) := by
  unfold fileProof
  cases equivocation with
  | none => exact .refl s
  | some proof =>
    split_ifs
    · exact s.keeps_putEvidence proof
    · exact .refl s

lemma committed_fileProof (equivocation : Option EquivocationProof) (s : EvidenceStore) :
    (fileProof d equivocation s).committed = s.committed := by
  unfold fileProof
  cases equivocation with
  | none => rfl
  | some proof =>
    split_ifs
    · exact s.committed_putEvidence proof
    · rfl

lemma mem_fileProof {equivocation : Option EquivocationProof}
    (h : p ∈ (fileProof d equivocation s).proofs) : p ∈ s.proofs ∨ equivocation = some p := by
  unfold fileProof at h
  cases equivocation with
  | none => exact .inl h
  | some proof =>
    split_ifs at h
    · exact (EvidenceStore.mem_putEvidence h).imp_right fun heq => by rw [heq]
    · exact .inl h

lemma Engine.markEvidence_store (e : Engine σ) (blocks : List Block) :
    (e.markEvidence d blocks).evidenceStore = e.evidenceStore
      ∨ (e.markEvidence d blocks).evidenceStore
        = e.evidenceStore.markAll (blocks.flatMap (·.evidence)) := by
  unfold markEvidence
  split_ifs
  · exact .inr rfl
  · exact .inl rfl

/-! ### Acceptable proofs -/

/-- Everything `validate_evidence` asks of a proof but that its view has come. -/
structure Convicts (c : Crypto) (chainIdHash : Digest) (epoch : Epoch)
    (previousEpoch : Option Epoch) (proof : EquivocationProof) : Prop where
  conflict : proof.blockHashA ≠ proof.blockHashB
  epoch_le : proof.epoch ≤ epoch.number
  extensions : proof.voteType = .vote → proof.extensionA = none ∧ proof.extensionB = none
  signed : ∃ vi, (epoch.validatorSet.get proof.validator).or
      (previousEpoch.bind (·.validatorSet.get proof.validator)) = some vi
    ∧ c.verify vi.publicKey (c.votePayload chainIdHash proof.epoch proof.view proof.validator
      proof.blockHashA proof.voteType proof.extensionA) proof.signatureA = true
    ∧ c.verify vi.publicKey (c.votePayload chainIdHash proof.epoch proof.view proof.validator
      proof.blockHashB proof.voteType proof.extensionB) proof.signatureB = true

lemma validateEvidence_of_convicts {c : Crypto} {chainIdHash : Digest} {epoch : Epoch}
    {previousEpoch : Option Epoch}
    (h : Convicts c chainIdHash epoch previousEpoch proof) (hview : proof.view ≤ view) :
    validateEvidence c proof view epoch previousEpoch chainIdHash = .ok () := by
  obtain ⟨vi, hvi, hA, hB⟩ := h.signed
  have hpass : ¬ (proof.blockHashA = proof.blockHashB ∨ epoch.number < proof.epoch
      ∨ view < proof.view
      ∨ (proof.voteType = .vote ∧ (proof.extensionA.isSome ∨ proof.extensionB.isSome))) := by
    rintro (heq | hlt | hlt | ⟨htype, hsome⟩)
    · exact h.conflict heq
    · exact absurd hlt (not_lt.mpr h.epoch_le)
    · exact absurd hlt (not_lt.mpr hview)
    · obtain ⟨hnoneA, hnoneB⟩ := h.extensions htype
      rw [hnoneA, hnoneB] at hsome
      exact hsome.elim nofun nofun
  unfold validateEvidence
  rw [hvi]
  dsimp only
  rw [if_neg hpass, hA, hB]
  rfl

/-! ### Collected votes -/

/-- The signature of a vote was made by the node, or verifies under the key that the set
lists for the validator. -/
def SignedUnder (d : Deps σ) (e : Engine σ) (vi : ValidatorInfo) (vote : Vote) : Prop :=
  d.crypto.verify vi.publicKey (d.crypto.payloadOfVote e.state.chainIdHash vote) vote.signature
      = true
    ∨ (vote.validator = e.state.validatorId
      ∧ vote.signature = d.sign (d.crypto.payloadOfVote e.state.chainIdHash vote))

/-- A collected vote: it stands under its key, and if it is of the current epoch, then it
comes from a member of the set. -/
structure Counted (d : Deps σ) (e : Engine σ) (key : VoteKey) (vote : Vote) : Prop where
  key_eq : key = (vote.epoch, vote.view, vote.blockHash, vote.voteType)
  epoch_le : vote.epoch ≤ e.state.currentEpoch.number
  extension : vote.voteType = .vote → vote.extension = none
  signed : vote.epoch = e.state.currentEpoch.number → ∃ vi,
    e.state.currentEpoch.validatorSet.get vote.validator = some vi ∧ SignedUnder d e vi vote

/-- What holds of the votes a node has collected and signed. -/
structure CollectInv (d : Deps σ) (x : Flow σ) : Prop where
  counted : ∀ key vote, vote ∈ x.engine.voteCollector.bucket key → Counted d x.engine key vote
  own : ∀ vote, SignedVote x.engine.trace vote → vote.validator = x.engine.state.validatorId
    ∧ vote.signature = d.sign (d.crypto.payloadOfVote x.engine.state.chainIdHash vote)

/-- A vote that is handed to the collector is signed. -/
lemma CollectInv.signed (h : CollectInv d x) (hepoch : EpochInv x)
    (hcurrent : vote.epoch = x.engine.state.currentEpoch.number)
    (hvote : (x.engine.keyring.verifyVote d.crypto vote = true ∧ A.auth vote.signature)
      ∨ SignedVote x.engine.trace vote)
    (hvi : x.engine.state.currentEpoch.validatorSet.get vote.validator = some vi) :
    SignedUnder d x.engine vi vote := by
  rcases hvote with ⟨hverified, -⟩ | hsigned
  · have hset : x.engine.keyring.validatorSetForEpoch vote.epoch
        = some x.engine.state.currentEpoch.validatorSet := by
      rw [hcurrent, ← hepoch.validatorSet]
      exact if_pos rfl
    unfold Keyring.verifyVote at hverified
    rw [hset] at hverified
    dsimp only at hverified
    rw [hvi] at hverified
    exact .inl (Bool.and_eq_true_iff.mp hverified).2
  · exact .inr (h.own vote hsigned)

/-- **Every act keeps the collected votes signed.** -/
lemma Act.collectInv (h : Act d A x y) (hepoch : EpochInv x)
    (hx : CollectInv d x) : CollectInv d y := by
  have hid := h.validatorId
  have hchain := h.chainIdHash
  obtain ⟨hle, hsame⟩ := h.epoch_mono hepoch
  have hunder : ∀ vi vote, SignedUnder d x.engine vi vote → SignedUnder d y.engine vi vote := by
    intro vi vote hsigned
    unfold SignedUnder
    rw [hid, hchain]
    exact hsigned
  refine ⟨fun key vote hmem => ?_, fun vote hsigned => ?_⟩
  · rcases h.bucket hmem with hold | ⟨hkey, hadmitted, hvote, -⟩
    · obtain ⟨hkey, hepoch_le, hextension, hsigned⟩ := hx.counted key vote hold
      refine ⟨hkey, hepoch_le.trans hle, hextension, fun hcurrent => ?_⟩
      -- the epoch of an old vote is the current one only if the epoch has not changed
      have hnumber : y.engine.state.currentEpoch.number = x.engine.state.currentEpoch.number :=
        le_antisymm (hcurrent ▸ hepoch_le) hle
      obtain ⟨vi, hvi, hsigned⟩ := hsigned (hcurrent.trans hnumber)
      exact ⟨vi, (hsame hnumber).1 ▸ hvi, hunder vi vote hsigned⟩
    · refine ⟨hkey, hadmitted.epoch.le.trans hle, hadmitted.extension, fun hcurrent => ?_⟩
      have hnumber := hcurrent.symm.trans hadmitted.epoch
      obtain ⟨vi, hvi⟩ := Option.isSome_iff_exists.mp hadmitted.member
      rw [hepoch.validatorSet] at hvi
      exact ⟨vi, (hsame hnumber).1 ▸ hvi, hunder vi vote
        (hx.signed hepoch hadmitted.epoch hvote hvi)⟩
  · rw [hid, hchain]
    rcases hsigned with ⟨block, justify, locked, hmem⟩ | ⟨qc, hmem⟩
    · rcases h.tracked hmem rfl with hold | hnew
      · exact hx.own vote (.inl ⟨block, justify, locked, hold⟩)
      · cases hnew with
        | vote1 _ _ _ hvote _ _ _ _ _ =>
          rw [hvote]
          exact ⟨rfl, rfl⟩
    · rcases h.tracked hmem rfl with hold | hnew
      · exact hx.own vote (.inr ⟨qc, hold⟩)
      · cases hnew with
        | vote2 _ _ _ hvote _ _ _ _ _ =>
          rw [hvote]
          exact ⟨rfl, rfl⟩

/-- The current set, if it lists the node, lists the key the node signs with. -/
def SignerListed (d : Deps σ) (e : Engine σ) : Prop :=
  ∀ vi, e.state.currentEpoch.validatorSet.get e.state.validatorId = some vi →
    ∀ payload, d.crypto.verify vi.publicKey payload (d.sign payload) = true

lemma SignedUnder.verify (h : SignedUnder d e vi vote)
    (hsigner : vote.validator = e.state.validatorId → SignerListed d e)
    (hvi : e.state.currentEpoch.validatorSet.get vote.validator = some vi) :
    d.crypto.verify vi.publicKey (d.crypto.payloadOfVote e.state.chainIdHash vote) vote.signature
      = true := by
  rcases h with hverified | ⟨hown, hsign⟩
  · exact hverified
  · rw [hsign]
    exact hsigner hown vi (hown ▸ hvi) _

lemma Engine.detected_some
    (h : e.detected vote = some proof) : (vote.voteType = .vote → vote.extension = none)
      ∧ e.voteCollector.findEquivocation vote e.state.currentEpoch.number = some proof := by
  unfold detected at h
  split at h
  · next result hok =>
      exact ⟨VoteCollector.addVote_ok_extension hok, VoteCollector.addVote_equivocation hok ▸ h⟩
  · cases h

/-- **A detected equivocation convicts.** -/
lemma CollectInv.convicts (h : CollectInv d x) (hepoch : EpochInv x)
    (hsigner : proof.validator = x.engine.state.validatorId → SignerListed d x.engine)
    (hcurrent : vote.epoch = x.engine.state.currentEpoch.number)
    (hvote : (x.engine.keyring.verifyVote d.crypto vote = true ∧ A.auth vote.signature)
      ∨ SignedVote x.engine.trace vote) (hproof : x.engine.detected vote = some proof) :
    Convicts d.crypto x.engine.state.chainIdHash x.engine.state.currentEpoch
      x.engine.previousEpoch proof := by
  obtain ⟨hextension, hfound⟩ := detected_some hproof
  obtain ⟨hash, existing, hmem, hne, hvalidator, rfl⟩ :=
    VoteCollector.findEquivocation_some hfound
  have hcounted := h.counted _ existing hmem
  obtain ⟨hepoch', hkey⟩ := Prod.mk.inj hcounted.key_eq
  obtain ⟨hview, hkey⟩ := Prod.mk.inj hkey
  obtain ⟨rfl, htype⟩ := Prod.mk.inj hkey
  obtain ⟨vi, hvi, hsigned⟩ := hcounted.signed hepoch'.symm
  have hvi' := hvalidator ▸ hvi
  have hA := hsigned.verify (fun hown => hsigner (hvalidator.symm.trans hown)) hvi
  have hB := (h.signed hepoch hcurrent hvote hvi').verify hsigner hvi'
  unfold Crypto.payloadOfVote at hA hB
  rw [← hepoch', ← hview, ← htype, hvalidator] at hA
  rw [hcurrent] at hB
  refine ⟨hne, le_refl _, fun htype' => ⟨hcounted.extension (htype ▸ htype'), hextension htype'⟩,
    vi, ?_, hA, hB⟩
  rw [hvi']
  rfl

/-! ### From a state without the evidence -/

/-- What happened since a state. -/
def Engine.since (e₀ e : Engine σ) : List Effect := e.trace.drop e₀.trace.length

/-- The equivocations that were reported. -/
def reported (trace : List Effect) : List EquivocationProof :=
  trace.filterMap fun
    | .broadcastEvidence proof => some proof
    | _ => none

lemma mem_reported {trace : List Effect} :
    proof ∈ reported trace ↔ Effect.broadcastEvidence proof ∈ trace := by
  unfold reported
  rw [mem_filterMap]
  constructor
  · rintro ⟨effect, hmem, heffect⟩
    split at heffect
    · cases heffect
      exact hmem
    · cases heffect
  · exact fun hmem => ⟨_, hmem, rfl⟩

/-- The collector has detected the equivocation. -/
def Detected (view validator : ℕ) (trace : List Effect) : Prop :=
  ∃ proof ∈ reported trace, proof.Accuses view validator

instance {view validator : ℕ} {trace : List Effect} : Decidable (Detected view validator trace) :=
  inferInstanceAs (Decidable (∃ proof ∈ reported trace, proof.Accuses view validator))

/-- A block that carries a proof of the equivocation was executed. -/
def Carried (view validator : ℕ) (trace : List Effect) : Prop :=
  ∃ run ∈ ranBlocks trace, ∃ proof ∈ run.1.evidence, proof.Accuses view validator

instance {view validator : ℕ} {trace : List Effect} : Decidable (Carried view validator trace) :=
  inferInstanceAs (Decidable (∃ run ∈ ranBlocks trace, ∃ proof ∈ run.1.evidence,
    proof.Accuses view validator))

/-- The gossip of proofs for a pair: those that arrive name an epoch up to the given one,
and no extension in the first phase. -/
def Gossiped (view validator epoch : ℕ) (proof : EquivocationProof) : Prop :=
  proof.Accuses view validator → proof.epoch ≤ epoch
    ∧ (proof.voteType = .vote → proof.extensionA = none ∧ proof.extensionB = none)

/-- What is known of the evidence, given that there was none in the first state. -/
structure EvidenceInv (d : Deps σ) (view validator : ℕ) (e₀ : Engine σ) (x : Flow σ) : Prop where
  trace : e₀.trace <+: x.engine.trace
  validatorId : x.engine.state.validatorId = e₀.state.validatorId
  chainIdHash : x.engine.state.chainIdHash = e₀.state.chainIdHash
  ran : ∀ result, x.phase = .executed result ∨ x.phase = .adopted result →
    ∀ block ∈ result.committedBlocks, ∃ response, (block, response) ∈ ranBlocks (e₀.since x.engine)
  detected : Detected view validator (e₀.since x.engine) → view ≤ x.engine.state.currentView
    ∧ ((view, validator) ∈ x.engine.evidenceStore.committed
      ∨ ∃ proof ∈ x.engine.evidenceStore.proofs, proof.Accuses view validator)
  committed : (view, validator) ∈ x.engine.evidenceStore.committed →
    Carried view validator (e₀.since x.engine)
  epoch_le : e₀.state.currentEpoch.number ≤ x.engine.state.currentEpoch.number
  epochs : x.engine.state.currentEpoch.number = e₀.state.currentEpoch.number →
    x.engine.state.currentEpoch = e₀.state.currentEpoch ∧ x.engine.previousEpoch = e₀.previousEpoch
  convicts : x.engine.state.currentEpoch.number = e₀.state.currentEpoch.number →
    ∀ proof ∈ x.engine.evidenceStore.proofs, proof.Accuses view validator →
      Convicts d.crypto e₀.state.chainIdHash e₀.state.currentEpoch e₀.previousEpoch proof

/-- What has happened stays in the trace. -/
lemma Engine.since_append {e' : Engine σ} {effects : List Effect} (h : e₀.trace <+: e.trace)
    (heq : e'.trace = e.trace ++ effects) : e₀.since e' = e₀.since e ++ effects := by
  unfold since
  rw [heq, drop_append_of_le_length h.length_le]

lemma Carried.append (h : Carried view validator t)
    (t' : List Effect) : Carried view validator (t ++ t') := by
  obtain ⟨run, hmem, hproof⟩ := h
  exact ⟨run, by rw [ranBlocks_append]; exact mem_append_left _ hmem, hproof⟩

/-! ### Every act -/

/-- What the evidence branch has checked when it files a proof. -/
lemma Engine.handleEvidence_store (e : Engine σ) (proof : EquivocationProof) :
    (e.handleEvidence d proof).evidenceStore = e.evidenceStore
      ∨ ((e.handleEvidence d proof).evidenceStore = e.evidenceStore.putEvidence proof
        ∧ proof.blockHashA ≠ proof.blockHashB
        ∧ ∃ vi, e.keyring.getRetained proof.validator = some vi
          ∧ d.crypto.verify vi.publicKey (d.crypto.votePayload e.state.chainIdHash proof.epoch
            proof.view proof.validator proof.blockHashA proof.voteType proof.extensionA)
            proof.signatureA = true
          ∧ d.crypto.verify vi.publicKey (d.crypto.votePayload e.state.chainIdHash proof.epoch
            proof.view proof.validator proof.blockHashB proof.voteType proof.extensionB)
            proof.signatureB = true) := by
  unfold handleEvidence
  split
  · exact .inl rfl
  · next vi hvi =>
      dsimp only
      split_ifs with hchecks
      · exact .inr ⟨rfl, hchecks.1, vi, hvi, hchecks.2.1, hchecks.2.2⟩
      · exact .inl rfl
      · exact .inl rfl

/-- What was filed stays filed until it is committed. -/
lemma Act.keepsEvidence (h : Act d A x y) :
    x.engine.evidenceStore.Keeps y.engine.evidenceStore := by
  rcases h.evidenceStore with heq | ⟨vote, -, -, heq⟩ | ⟨result, -, heq⟩ | ⟨proof, -, heq⟩
  · rw [heq]
    exact .refl _
  · rw [heq]
    exact keeps_fileProof _ _
  · rw [heq]
    rcases x.engine.markEvidence_store result.committedBlocks with heq | heq
    · rw [heq]
      exact .refl _
    · rw [heq]
      exact EvidenceStore.keeps_markAll _ _
  · rw [heq]
    rcases x.engine.handleEvidence_store proof with heq | ⟨heq, -⟩
    · rw [heq]
      exact .refl _
    · rw [heq]
      exact EvidenceStore.keeps_putEvidence _ _

/-- A pair is marked when a block with its proof was committed. -/
lemma Act.committedEvidence (h : Act d A x y)
    (hmem : (view, validator) ∈ y.engine.evidenceStore.committed) :
    (view, validator) ∈ x.engine.evidenceStore.committed
      ∨ ∃ result, x.phase = .adopted result ∧ ∃ block ∈ result.committedBlocks,
        ∃ proof ∈ block.evidence, proof.Accuses view validator := by
  rcases h.evidenceStore with heq | ⟨vote, -, -, heq⟩ | ⟨result, hphase, heq⟩ | ⟨proof, -, heq⟩
  · exact .inl (heq ▸ hmem)
  · rw [heq, committed_fileProof] at hmem
    exact .inl hmem
  · rw [heq] at hmem
    rcases x.engine.markEvidence_store result.committedBlocks with heq | heq
    · exact .inl (heq ▸ hmem)
    · rw [heq] at hmem
      refine (EvidenceStore.committed_markAll hmem).imp_right fun hproof => ?_
      obtain ⟨proof, hproof, haccuses⟩ := hproof
      obtain ⟨block, hblock, hproof⟩ := mem_flatMap.mp hproof
      exact ⟨result, hphase, block, hblock, proof, hproof, haccuses⟩
  · rw [heq] at hmem
    rcases x.engine.handleEvidence_store proof with heq | ⟨heq, -⟩
    · exact .inl (heq ▸ hmem)
    · rw [heq, EvidenceStore.committed_putEvidence] at hmem
      exact .inl hmem

/-- A filed proof is old, was detected, or was gossiped and checked. -/
lemma Act.convicts (h : Act d A x y)
    (hgossip : ∀ proof, A.gossip proof → Gossiped view validator epoch proof)
    (hepoch : EpochInv x) (hcollect : CollectInv d x)
    (hsigner : validator = x.engine.state.validatorId → SignerListed d x.engine)
    (hnumber : x.engine.state.currentEpoch.number = epoch)
    (hmem : proof ∈ y.engine.evidenceStore.proofs) (haccuses : proof.Accuses view validator) :
    proof ∈ x.engine.evidenceStore.proofs
      ∨ Convicts d.crypto x.engine.state.chainIdHash x.engine.state.currentEpoch
        x.engine.previousEpoch proof := by
  rcases h.evidenceStore with heq | ⟨vote, hcurrent, hvote, heq⟩ | ⟨result, -, heq⟩
    | ⟨gossiped, hallowed, heq⟩
  · exact .inl (heq ▸ hmem)
  · rw [heq] at hmem
    exact (mem_fileProof hmem).imp_right fun hproof =>
      hcollect.convicts hepoch (fun hown => hsigner (haccuses.2.symm.trans hown)) hcurrent hvote
        hproof
  · rw [heq] at hmem
    rcases x.engine.markEvidence_store result.committedBlocks with heq | heq
    · exact .inl (heq ▸ hmem)
    · rw [heq] at hmem
      exact .inl (EvidenceStore.mem_markAll hmem)
  · rw [heq] at hmem
    rcases x.engine.handleEvidence_store gossiped with heq | ⟨heq, hne, vi, hvi, hA, hB⟩
    · exact .inl (heq ▸ hmem)
    · rw [heq] at hmem
      refine (EvidenceStore.mem_putEvidence hmem).imp_right fun hproof => ?_
      subst hproof
      obtain ⟨hle, hextensions⟩ := hgossip proof hallowed haccuses
      refine ⟨hne, hle.trans hnumber.ge, hextensions, vi, ?_, hA, hB⟩
      rw [← hepoch.validatorSet]
      exact hvi

lemma phaseAfter_ne_adopted {outcome : CommitOutcome} : phaseAfter outcome ≠ .adopted result := by
  unfold phaseAfter
  split
  · split_ifs <;> exact nofun
  · exact nofun
  · exact nofun

/-- The blocks of the result of a commit were executed in it. -/
lemma Engine.commitRun_ran {dc : DoubleCertificate}
    (h : phaseAfter (e.commitRun d dc).outcome = .executed result)
    (hblock : block ∈ result.committedBlocks) :
    ∃ response, (block, response) ∈ ranBlocks ((e.commitRun d dc).calls.map .app) := by
  obtain ⟨hok, hne⟩ := phaseAfter_executed h
  rcases tryCommit_ok hok with ⟨hempty, -⟩ | ⟨target, blocks, x, -, -, happlied, rfl, hrun⟩
  · exact absurd hempty hne
  · obtain ⟨runs, hruns, rfl⟩ := happlied.runs
    obtain ⟨run, hrun', rfl⟩ := mem_map.mp hblock
    refine ⟨run.2, ?_⟩
    unfold commitRun
    rw [hrun]
    rw [hruns]
    exact mem_append_right _ hrun'

/-- The blocks of a result have been executed since a state outside of commits. -/
lemma Act.ranResult (h : Act d A x y) (hgrown : e₀.trace <+: x.engine.trace)
    (hx : ∀ result, x.phase = .executed result ∨ x.phase = .adopted result →
      ∀ block ∈ result.committedBlocks,
        ∃ response, (block, response) ∈ ranBlocks (e₀.since x.engine))
    (hphase : y.phase = .executed result ∨ y.phase = .adopted result)
    (hblock : block ∈ result.committedBlocks) :
    ∃ response, (block, response) ∈ ranBlocks (e₀.since y.engine) := by
  obtain ⟨effects, heq⟩ := h.trace_grows
  have hsince := since_append hgrown heq.symm
  have hold : x.phase = .executed result ∨ x.phase = .adopted result →
      ∃ response, (block, response) ∈ ranBlocks (e₀.since y.engine) := by
    intro hphase
    obtain ⟨response, hmem⟩ := hx result hphase block hblock
    rw [hsince, ranBlocks_append]
    exact ⟨response, mem_append_left _ hmem⟩
  rcases h.phase with hsame | hidle | ⟨result', hexecuted, hadopted⟩
    | ⟨dc, -, -, htrace, hcommit⟩
  · exact hold (hsame ▸ hphase)
  · rw [hidle] at hphase
    rcases hphase with hphase | hphase <;> cases hphase
  · rw [hadopted] at hphase
    rcases hphase with hphase | hphase
    · cases hphase
    · obtain rfl := Phase.adopted.inj hphase
      exact hold (.inl hexecuted)
  · rw [hcommit] at hphase
    rcases hphase with hphase | hphase
    · obtain ⟨response, hmem⟩ := commitRun_ran hphase hblock
      refine ⟨response, ?_⟩
      rw [since_append hgrown htrace, ranBlocks_append, cons_append]
      refine mem_append_right _ ?_
      change _ ∈ ranBlocks ((x.engine.commitRun d dc).calls.map .app ++ _)
      rw [ranBlocks_append]
      exact mem_append_left _ hmem
    · exact absurd hphase phaseAfter_ne_adopted

/-- A detected equivocation is filed. -/
lemma Act.detectedFiled (h : Act d A x y)
    (hstore : d.hasEvidenceStore = true) (hx : EvidenceInv d view validator e₀ x)
    (hdetected : Detected view validator (e₀.since y.engine)) : view ≤ y.engine.state.currentView
      ∧ ((view, validator) ∈ y.engine.evidenceStore.committed
        ∨ ∃ proof ∈ y.engine.evidenceStore.proofs, proof.Accuses view validator) := by
  obtain ⟨effects, heq, hnew⟩ := h.effects
  obtain ⟨proof, hmem, haccuses⟩ := hdetected
  rw [mem_reported, since_append hx.trace heq] at hmem
  rcases mem_append.mp hmem with hold | hmem
  · -- reported before: the proof is still there, or was marked now
    obtain ⟨hview, hfiled⟩ := hx.detected ⟨proof, mem_reported.mpr hold, haccuses⟩
    refine ⟨hview.trans h.currentView_le, ?_⟩
    rcases hfiled with hcommitted | ⟨filed, hmem, haccuses⟩
    · exact .inl (h.keepsEvidence.committed hcommitted)
    · rcases h.keepsEvidence.proofs filed hmem with hmem | hcommitted
      · exact .inr ⟨filed, hmem, haccuses⟩
      · rw [haccuses.1, haccuses.2] at hcommitted
        exact .inl hcommitted
  · cases hnew _ hmem rfl with
    | detected vote _ hview hepoch hvote hproof hfiled =>
      obtain ⟨-, hfound⟩ := detected_some hproof
      obtain ⟨hash, existing, -, -, -, rfl⟩ := VoteCollector.findEquivocation_some hfound
      obtain ⟨rfl, rfl⟩ := haccuses
      refine ⟨hview.le.trans h.currentView_le, .inr ?_⟩
      rw [hfiled, fileProof, if_pos hstore]
      exact EvidenceStore.exists_putEvidence _ _

/-- **Every act keeps what is known of the evidence.** -/
lemma Act.evidenceInv (h : Act d A x y) (hstore : d.hasEvidenceStore = true)
    (hgossip : ∀ proof, A.gossip proof → Gossiped view validator e₀.state.currentEpoch.number proof)
    (hsigner : validator = e₀.state.validatorId → SignerListed d e₀) (hepoch : EpochInv x)
    (hcollect : CollectInv d x) (hx : EvidenceInv d view validator e₀ x) :
    EvidenceInv d view validator e₀ y := by
  obtain ⟨hle, hsame⟩ := h.epoch_mono hepoch
  obtain ⟨effects, heq⟩ := h.trace_grows
  have hsince := since_append hx.trace heq.symm
  -- the epoch of the first state is the current one only if it has not changed
  have hback : y.engine.state.currentEpoch.number = e₀.state.currentEpoch.number →
      x.engine.state.currentEpoch.number = e₀.state.currentEpoch.number
        ∧ y.engine.state.currentEpoch.number = x.engine.state.currentEpoch.number := by
    intro hnumber
    have hx_le := hx.epoch_le
    exact ⟨by omega, by omega⟩
  refine ⟨hx.trace.trans h.trace_grows, h.validatorId.trans hx.validatorId,
    h.chainIdHash.trans hx.chainIdHash,
    fun result hphase block hblock => h.ranResult hx.trace hx.ran hphase hblock,
    h.detectedFiled hstore hx, fun hmem => ?_, hx.epoch_le.trans hle, fun hnumber => ?_,
    fun hnumber proof hmem haccuses => ?_⟩
  · rcases h.committedEvidence hmem with hold | ⟨result, hphase, block, hblock, hproof⟩
    · rw [hsince]
      exact (hx.committed hold).append effects
    · obtain ⟨response, hran⟩ := hx.ran result (.inr hphase) block hblock
      rw [hsince]
      exact Carried.append ⟨(block, response), hran, hproof⟩ effects
  · obtain ⟨hnumber, hnumber'⟩ := hback hnumber
    obtain ⟨hcur, hprev⟩ := hx.epochs hnumber
    exact ⟨(hsame hnumber').1.trans hcur, (hsame hnumber').2.trans hprev⟩
  · obtain ⟨hnumber, -⟩ := hback hnumber
    obtain ⟨hcur, hprev⟩ := hx.epochs hnumber
    have hsigner' : validator = x.engine.state.validatorId → SignerListed d x.engine := by
      unfold SignerListed
      rw [hcur, hx.validatorId]
      exact hsigner
    rcases h.convicts hgossip hepoch hcollect hsigner' hnumber hmem haccuses with hold | hnew
    · exact hx.convicts hnumber proof hold haccuses
    · rwa [hx.chainIdHash, hcur, hprev] at hnew

/-! ### Every run -/

/-- A delivered proof of the equivocation could be proposed in the given epoch. -/
def GossipOk (view validator epoch : ℕ) : Label → Prop
  | .message _ _ (.evidence proof) => Gossiped view validator epoch proof
  | _ => True

/-- What is known of a message. -/
def gossipAllowance (view validator epoch : ℕ) : Allowance where
  auth := fun _ => True
  jump := fun _ _ _ => True
  unlogged := True
  gossip := Gossiped view validator epoch

lemma GossipOk.labelOk {label : Label} (h : GossipOk view validator epoch label) :
    LabelOk (gossipAllowance view validator epoch) label := by
  cases label with
  | message env sender msg =>
    refine ⟨fun _ _ => trivial, fun _ _ _ _ _ _ => ⟨fun _ _ => trivial, .inl trivial⟩,
      fun proof hmsg => ?_⟩
    subst hmsg
    exact h
  | timeout | task env => trivial

/-- The node is the configured one. -/
def Identified (cfg : NodeConfig) (e : Engine σ) : Prop :=
  e.state.validatorId = cfg.validatorId ∧ e.state.chainIdHash = cfg.chainIdHash

/-- A start keeps the votes of the history it finds, and collects none. -/
lemma CollectInv.launch {app : σ} {evidence : EvidenceStore}
    (h : ∀ vote, SignedVote t vote → vote.validator = cfg.validatorId
      ∧ vote.signature = d.sign (d.crypto.payloadOfVote cfg.chainIdHash vote)) :
    CollectInv d ⟨cfg.launch d t app evidence, .idle⟩ := by
  obtain ⟨-, -, -, hcollector⟩ := launch_epochs d cfg t app evidence
  obtain ⟨hid, hchain⟩ := launch_identity d cfg t app evidence
  refine ⟨fun key vote hmem => ?_, fun vote hsigned => ?_⟩
  · rw [hcollector] at hmem
    cases hmem
  · rw [launch_trace] at hsigned
    rw [hid, hchain]
    refine h vote (SignedVote.of_signsVote (fun effect hmem hsigns => ?_) hsigned)
    rcases mem_append.mp hmem with hold | hnew
    · exact hold
    · rcases mem_checkpointEffects hnew with ⟨item, rfl⟩ | rfl <;> cases hsigns

/-- Collected votes are signed in every run with crashes and restarts. -/
lemma CrashRunWhere.collectInv {P : Engine σ → Label → Prop}
    {R : List Effect → Prop} (hrun : CrashRunWhere d cfg P R e) :
    Settled (fun x => TodoOk .all x.engine ∧ (EpochInv x ∧ DiskOrdered x.engine.trace)
      ∧ CollectInv d x ∧ Identified cfg x.engine) e := by
  refine hrun.invariant (fun x y _ hxy hx => ?_) (fun _ label _ => labelOk_all label)
    holds_all (fun app evidence => ?_) fun e φ p app evidence hx hp _ _ => ?_
  · obtain ⟨⟨hepoch, hdisk⟩, hcollect, hid, hchain⟩ := hx
    exact ⟨⟨hxy.epochInv hepoch, hxy.diskOrdered hepoch hdisk⟩, hxy.collectInv hepoch hcollect,
      hxy.validatorId.trans hid, hxy.chainIdHash.trans hchain⟩
  · refine ⟨EpochInv.launch .nil, CollectInv.launch fun vote hsigned => ?_,
      launch_identity d cfg _ app evidence⟩
    rcases hsigned with ⟨_, _, _, hmem⟩ | ⟨_, hmem⟩ <;> cases hmem
  · obtain ⟨⟨-, hdisk⟩, hcollect, hid, hchain⟩ := hx
    refine ⟨EpochInv.launch (hdisk.restart hp), CollectInv.launch fun vote hsigned => ?_,
      launch_identity d cfg _ app evidence⟩
    have hold : SignedVote e.trace vote := by
      refine SignedVote.of_signsVote (fun effect hmem hsigns => ?_) hsigned
      rcases mem_append.mp hmem with hmem | hmem
      · exact hp.subset hmem
      · rcases mem_cons.mp hmem with rfl | hmem
        · cases hsigns
        · split_ifs at hmem
          · cases hmem
          · rw [mem_singleton.mp hmem] at hsigns
            cases hsigns
    rw [← hid, ← hchain]
    exact hcollect.own vote hold

/-- **A detected equivocation has an acceptable proof among the pending ones.**  From a
state of any run whose evidence does not name the validator in that view, and as long as
the proofs of it that are gossiped name no later epoch and no extension in the first
phase: once the collector has detected the equivocation, a pending proof of it is
acceptable in the current view, until the epoch changes or a proof is committed. -/
theorem detected_proof_accepted (d : Deps σ) (cfg : NodeConfig) {view validator : ℕ}
    {e₀ e : Engine σ} (hstart : CrashRun d cfg e₀) (hstore : d.hasEvidenceStore = true)
    (hsigner : validator = e₀.state.validatorId → SignerListed d e₀)
    (hfree : ∀ proof ∈ e₀.evidenceStore.proofs, ¬ proof.Accuses view validator)
    (hfresh : (view, validator) ∉ e₀.evidenceStore.committed)
    (hrun : RunWhere d (fun _ => GossipOk view validator e₀.state.currentEpoch.number) e₀ e)
    (hdetected : Detected view validator (e₀.since e))
    (hepoch : e.state.currentEpoch = e₀.state.currentEpoch)
    (hcarried : ¬ Carried view validator (e₀.since e)) :
    ∃ proof ∈ e.evidenceStore.getPending, proof.Accuses view validator
      ∧ validateEvidence d.crypto proof e.state.currentView e.state.currentEpoch e.previousEpoch
        e.state.chainIdHash = .ok () := by
  have hsince : e₀.since e₀ = [] := drop_length
  have hnothing : ¬ Detected view validator (e₀.since e₀) := by
    rw [hsince]
    rintro ⟨proof, hmem, -⟩
    cases hmem
  rcases hrun.cases_head with rfl | ⟨e₁, hstep, -⟩
  · exact absurd hdetected hnothing
  -- the first state is outside of commits, since a step is enabled in it
  have hidle : TodoOk .all e₀ ∧ (EpochInv ⟨e₀, .idle⟩ ∧ DiskOrdered e₀.trace)
      ∧ CollectInv d ⟨e₀, .idle⟩ ∧ Identified cfg e₀ := by
    cases hstep with
    | step henabled _ => exact (CrashRunWhere.collectInv hstart).idle henabled
  obtain ⟨htodo, ⟨hepoch₀, -⟩, hcollect₀, -⟩ := hidle
  have hinv₀ : EvidenceInv d view validator e₀ ⟨e₀, .idle⟩ :=
    ⟨prefix_refl _, rfl, rfl, fun result hphase => absurd hphase (by simp),
      fun h => absurd h hnothing, fun h => absurd h hfresh, le_refl _, fun _ => ⟨rfl, rfl⟩,
      fun _ proof hmem haccuses => absurd haccuses (hfree proof hmem)⟩
  obtain ⟨φ, -, -, -, -, hinv⟩ := hrun.invariant
    (A := fun _ => gossipAllowance view validator e₀.state.currentEpoch.number)
    (I := fun x => EpochInv x ∧ CollectInv d x ∧ EvidenceInv d view validator e₀ x)
    (fun _ _ h => h)
    (fun _ x y _ hxy hx => ⟨hxy.epochInv hx.1, hxy.collectInv hx.1 hx.2.1,
      hxy.evidenceInv hstore (fun _ h => h) hsigner hx.1 hx.2.1 hx.2.2⟩)
    (fun _ _ _ hP => hP.labelOk)
      (holds_of (fun _ => trivial) (fun _ => trivial) (fun _ _ => trivial))
    (htodo.weaken fun _ => trivial) ⟨hepoch₀, hcollect₀, hinv₀⟩
  obtain ⟨hview, hcommitted | ⟨proof, hmem, haccuses⟩⟩ := hinv.detected hdetected
  · exact absurd (hinv.committed hcommitted) hcarried
  have hnumber : e.state.currentEpoch.number = e₀.state.currentEpoch.number := by rw [hepoch]
  have hpending : (view, validator) ∉ e.evidenceStore.committed :=
    fun hcommitted => hcarried (hinv.committed hcommitted)
  refine ⟨proof, mem_filter.mpr ⟨hmem, decide_eq_true ?_⟩, haccuses, ?_⟩
  · rwa [haccuses.1, haccuses.2]
  · refine validateEvidence_of_convicts ?_ (haccuses.1.le.trans hview)
    rw [hinv.chainIdHash, (hinv.epochs hnumber).1, (hinv.epochs hnumber).2]
    exact hinv.convicts hnumber proof hmem haccuses

/-! The third validator signs two first-phase votes in view 1 for blocks nobody has
proposed. -/

/-- Such a vote, of the given epoch. -/
def strayVote (epoch block : ℕ) : Vote where
  epoch := epoch
  blockHash := ⟨BitVec.ofNat 256 block⟩
  view := 1
  validator := 2
  signature := sign 2 (.vote 0#256 epoch 1 2 ⟨BitVec.ofNat 256 block⟩ .vote none)
  voteType := .vote
  extension := none

/-- A proof made of two of them. -/
def strayProof (epoch : ℕ) : EquivocationProof where
  validator := 2
  view := 1
  voteType := .vote
  epoch := epoch
  blockHashA := (strayVote epoch 7).blockHash
  signatureA := (strayVote epoch 7).signature
  extensionA := none
  blockHashB := (strayVote epoch 8).blockHash
  signatureB := (strayVote epoch 8).signature
  extensionB := none

/-- The leader of view 1, before it has done anything. -/
def unaware : Engine Unit := trio.init leader

/-- The leader proposes and then gets both votes. -/
def detecting : List Label :=
  [.task env, .message env none (.voteMsg (strayVote 0 7)),
    .message env none (.voteMsg (strayVote 0 8))]

/-- The leader has detected the equivocation. -/
def aware : Engine Unit := steps (trio.deps leader) detecting unaware

theorem detected_proof_accepted_aware : Detected 1 2 (unaware.since aware)
    ∧ ∃ proof ∈ aware.evidenceStore.getPending, proof.Accuses 1 2
      ∧ validateEvidence crypto proof aware.state.currentView aware.state.currentEpoch
        aware.previousEpoch aware.state.chainIdHash = .ok () := by
  have hdetected : Detected 1 2 (unaware.since aware) := by decide +kernel
  have hgossip : ∀ label ∈ detecting, GossipOk 1 2 unaware.state.currentEpoch.number label := by
    simp [detecting, GossipOk]
  refine ⟨hdetected, detected_proof_accepted (trio.deps leader)
    (trio.config leader) (.start () .empty) rfl (fun hown => ?_) (by decide +kernel)
    (by decide +kernel) (runWhere_steps _ hgossip unaware) hdetected ?_ (by decide +kernel)⟩
  · exact absurd hown (by decide +kernel)
  · decide +kernel

/-- A proof made of votes of epoch 1 is gossiped before the votes arrive. -/
def misled : Fin 2 → Engine Unit :=
  outcome trio [.task leader, .inject leader (.evidence (strayProof 1)),
    .inject leader (.voteMsg (strayVote 0 7)),
    .inject leader (.voteMsg (strayVote 0 8))]

/-- The leader detects the equivocation, but keeps the gossiped proof only, which
`validate_evidence` refuses. -/
theorem detected_proof_hidden : trio.FaultBound [2] ∧ trio.Run misled
    ∧ Detected 1 2 (unaware.since (misled 0)) ∧ ¬ Carried 1 2 (unaware.since (misled 0))
    ∧ (misled 0).state.currentEpoch = unaware.state.currentEpoch
    ∧ (misled 0).evidenceStore.getPending = [strayProof 1]
    ∧ validateEvidence crypto (strayProof 1) (misled 0).state.currentView
      (misled 0).state.currentEpoch (misled 0).previousEpoch (misled 0).state.chainIdHash
        = .error .invalid := by
  refine ⟨⟨by decide +kernel, by decide +kernel⟩, run_outcome _ rfl _, by decide +kernel,
    by decide +kernel, by decide +kernel, by decide +kernel, ?_⟩
  rfl

/-! ### Honest validators -/

/-- **Only faulty validators are convicted.**  In every run of a network with one validator set,
a proof that `validate_evidence` accepts at an honest node names a faulty validator, if its
signatures are authentic. -/
theorem Network.convicted_faulty {ι : Type} [DecidableEq ι] (N : Network ι σ) (faulty : List ℕ)
    (hbound : N.FaultBound faulty) (hfixed : N.FixedSet) (s : ι → Engine σ) (hrun : N.Run s)
    (hcoll : N.CollisionFree s) (hauth : N.Authentic s (.evidence proof)) {i : ι} {v : ℕ}
    (hok : validateEvidence N.crypto proof v (s i).state.currentEpoch (s i).previousEpoch
      N.chainIdHash = .ok ()) : proof.validator ∈ faulty := by
  obtain ⟨H, hH⟩ := hrun.history hbound (hcoll.hashInjective hrun.stored) ⟨i, .inl rfl⟩
    (fun _ => .inl hfixed) fun i b hb => ⟨i, hb⟩
  obtain ⟨φ, -, -, hnode⟩ := (hrun.nodes i).1
  have hkeys := hnode.fixed hfixed
  unfold validateEvidence at hok
  split at hok
  · cases hok
  next vi hvi =>
  dsimp only at hok
  split_ifs at hok with hinvalid hverify
  obtain ⟨hA, hB⟩ := Bool.and_eq_true_iff.mp hverify
  have hget : N.validatorSet.get proof.validator = some vi := by
    rcases Option.or_eq_some_iff.mp hvi with hvi | ⟨-, hvi⟩
    · rwa [hkeys.currentEpoch] at hvi
    · obtain ⟨previous, hprevious, hvi⟩ := Option.bind_eq_some_iff.mp hvi
      rwa [hkeys.previousEpoch previous hprevious] at hvi
  obtain ⟨hmem, hid⟩ := ValidatorSet.get_eq_some.mp hget
  rcases hbound.honest vi hmem with hfaulty | ⟨j, hj⟩
  · rwa [← hid]
  -- an honest validator would have signed both votes
  rw [← hid, ← hj] at hget
  have hsigned := hH.signedVoted hrun.stored j
  have hvoteA := hsigned _ _ _ _ _ _ (hauth _ (.head _) j vi _ hget hA)
  have hvoteB := hsigned _ _ _ _ _ _ (hauth _ (.tail _ (.head _)) j vi _ hget hB)
  refine absurd (.inl ?_) hinvalid
  generalize proof.voteType = t at hvoteA hvoteB
  cases t with
  | vote =>
    obtain ⟨_, _, hvoteA⟩ := hvoteA
    obtain ⟨_, _, hvoteB⟩ := hvoteB
    exact hH.valid.first_unique hvoteA hvoteB
  | vote2 =>
    exact hH.valid.certified_unique (IsQuorum.inter hbound) (hH.valid.certified_of_second hvoteA)
      (hH.valid.certified_of_second hvoteB)

theorem convicted_faulty_stray : (strayProof 0).validator ∈ [2] := by
  obtain ⟨hbound, hfixed, hrun, hcoll⟩ := Network.sampleState_ok
  have hauth : pair.LabelAuthentic Network.sampleState
      (.message env none (.evidence (strayProof 0))) :=
    labelAuthentic_of_genuine pair rfl (by decide +kernel)
  exact Network.convicted_faulty pair [2] hbound hfixed _ hrun hcoll hauth (i := 0) (v := 1) rfl

end Hotmint
