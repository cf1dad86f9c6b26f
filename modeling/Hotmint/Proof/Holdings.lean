/-
The certificates a node holds.

* `CertWhere`: a certificate all of whose parts are good, for a given notion of a
  good certificate of votes;
* `Keyring.Accepts`, `certWhere_of_checks`: what the checks of `engine.rs` establish of
  the parts of a certificate;
* `Holdings`: the certificates in a node's state, in its recorded wishes and in its
  trace are good, and `QcHoldings` without its double certificate;
* `Act.qcHoldings`, `Act.holdings`: **every act keeps the holdings good**, if what it checks
  and what it forms from votes is good.
-/
import Hotmint.Proof.Durable

namespace Hotmint

open Option Effect Keyring List
variable {σ : Type} {d : Deps σ} {A : Allowance} {good : VoteType → QuorumCertificate → Prop}
variable {cert : Certificate} {e : Engine σ}
variable {c : Crypto} {k : Keyring} {qc : QuorumCertificate}
  {good' : VoteType → QuorumCertificate → Prop}

/-- A certificate all of whose parts are good. -/
def CertWhere (good : VoteType → QuorumCertificate → Prop) : Certificate → Prop
  | .qc t qc => good t qc
  | .dc dc => good .vote dc.innerQc ∧ good .vote2 dc.outerQc
      ∧ dc.innerQc.blockHash = dc.outerQc.blockHash
  | .tc tc => ∀ qc ∈ tc.signedQcs, good .vote qc

lemma CertWhere.mono
    (hle : ∀ t qc, good t qc → good' t qc) (h : CertWhere good cert) : CertWhere good' cert := by
  cases cert with
  | qc t qc => exact hle t qc h
  | dc dc => exact ⟨hle _ _ h.1, hle _ _ h.2.1, h.2.2⟩
  | tc tc => exact fun qc hqc => hle _ _ (h qc hqc)

/-- The certificate is the canonical genesis one, or carries verified signatures of the
given type with quorum power in the set of the epoch it names. -/
def Keyring.Accepts (c : Crypto) (k : Keyring) (t : VoteType) (qc : QuorumCertificate) : Prop :=
  (t = .vote ∧ isGenesisQc qc = true) ∨ ∃ vs extensions, k.validatorSetForEpoch qc.epoch = some vs
      ∧ k.verifyVoteAggregate c vs qc.epoch qc.view qc.blockHash t qc.aggregateSignature extensions
        = true

lemma Keyring.accepts_of_verifyJustifyQc
    (h : k.verifyJustifyQc c qc = true) : k.Accepts c .vote qc := by
  rcases Bool.or_eq_true_iff.mp h with hgenesis | hvotes
  · exact .inl ⟨rfl, hgenesis⟩
  · unfold verifyVoteQc at hvotes
    split at hvotes
    · cases hvotes
    · next vs hvs => exact .inr ⟨vs, [], hvs, hvotes⟩

/-- **The parts of a checked certificate are accepted**, and their signatures are among
its own. -/
lemma certWhere_of_checks (h : k.checks c cert = true) :
    CertWhere (fun t qc => k.Accepts c t qc ∧ qc.signatures ⊆ cert.signatures) cert := by
  match cert with
  | .qc .vote qc => exact ⟨accepts_of_verifyJustifyQc h, List.Subset.refl _⟩
  | .qc .vote2 qc => cases h
  | .dc dc =>
    simp only [checks, validateDoubleCert] at h
    split_ifs at h with hhash hview hepoch
    split at h
    · cases h
    · next vs hvs =>
        split at h
        · cases h
        · next extensions _ =>
            obtain ⟨hinner, houter⟩ := Bool.and_eq_true_iff.mp h
            exact ⟨⟨.inr ⟨vs, [], hvs, hinner⟩, subset_append_left _ _⟩,
              ⟨.inr ⟨vs, extensions, not_not.mp hepoch ▸ hvs, houter⟩,
                subset_append_right _ _⟩, not_not.mp hhash⟩
  | .tc tc =>
    intro qc hqc
    have hcheck : k.verifyJustifyQc c qc = true := by
      rcases Bool.or_eq_true_iff.mp h with h | h
      · exact verifyTc_signedQcs h hqc
      · split at h
        · exact verifyTc_signedQcs h hqc
        · cases h
    refine ⟨accepts_of_verifyJustifyQc hcheck, fun sig hsig => ?_⟩
    exact mem_append_right _ (mem_flatMap.mpr ⟨some qc, mem_highestQcs hqc, by simpa using hsig⟩)

/-- Every certificate a node holds, has checked or has formed is good. -/
structure Holdings (good : VoteType → QuorumCertificate → Prop) (e : Engine σ) : Prop where
  lockedQc : ∀ qc, e.state.lockedQc = some qc → good .vote qc
  highestQc : ∀ qc, e.state.highestQc = some qc → good .vote qc
  currentViewQc : ∀ qc, e.currentViewQc = some qc → good .vote qc
  highestDoubleCert : ∀ dc, e.state.highestDoubleCert = some dc → CertWhere good (.dc dc)
  certs : ∀ cert, verified cert ∈ e.trace ∨ formed cert ∈ e.trace → CertWhere good cert
  wishes : ∀ view w, w ∈ e.pacemaker.bucket view → ∀ qc, w.highestQc = some qc → good .vote qc

/-- A fresh node holds at most its first certificate. -/
lemma Fresh.holdings {cfg : NodeConfig} (h : Fresh cfg e)
    (hgood : ∀ qc, e.state.highestQc = some qc → good .vote qc) : Holdings good e where
  lockedQc qc hqc := by
    rw [h.lockedQc] at hqc
    cases hqc
  highestQc := hgood
  currentViewQc qc hqc := by
    rw [h.currentViewQc] at hqc
    cases hqc
  highestDoubleCert dc hdc := by
    rw [h.highestDoubleCert] at hdc
    cases hdc
  certs cert hcert := by
    rcases hcert with hmem | hmem
    · cases h.stored hmem
    · cases h.stored hmem
  wishes view w hw := by
    rw [h.pacemaker] at hw
    cases hw

namespace Holdings

lemma mono (hle : ∀ t qc, good t qc → good' t qc) (h : Holdings good e) : Holdings good' e where
  lockedQc qc hqc := hle _ _ (h.lockedQc qc hqc)
  highestQc qc hqc := hle _ _ (h.highestQc qc hqc)
  currentViewQc qc hqc := hle _ _ (h.currentViewQc qc hqc)
  highestDoubleCert dc hdc := (h.highestDoubleCert dc hdc).mono hle
  certs cert hcert := (h.certs cert hcert).mono hle
  wishes view w hw qc hqc := hle _ _ (h.wishes view w hw qc hqc)

end Holdings

/-- Every certificate a node holds is good, its double certificate apart. -/
structure QcHoldings (good : VoteType → QuorumCertificate → Prop) (e : Engine σ) : Prop where
  lockedQc : ∀ qc, e.state.lockedQc = some qc → good .vote qc
  highestQc : ∀ qc, e.state.highestQc = some qc → good .vote qc
  currentViewQc : ∀ qc, e.currentViewQc = some qc → good .vote qc
  certs : ∀ cert, verified cert ∈ e.trace ∨ formed cert ∈ e.trace → CertWhere good cert
  wishes : ∀ view w, w ∈ e.pacemaker.bucket view → ∀ qc, w.highestQc = some qc → good .vote qc

lemma Holdings.qcs (h : Holdings good e) : QcHoldings good e :=
  ⟨h.lockedQc, h.highestQc, h.currentViewQc, h.certs, h.wishes⟩

namespace QcHoldings

/-- A certificate the trace accounts for is good. -/
lemma known (h : QcHoldings good e) (hqc : KnownQc e.trace qc) : good .vote qc := by
  rcases hqc with hqc | hqc | ⟨dc, hdc, rfl⟩ | ⟨tc, htc, hmem⟩
  · exact h.certs _ (.inl hqc)
  · exact h.certs _ (.inr hqc)
  · exact (h.certs _ hdc).1
  · exact h.certs _ htc qc hmem

/-- The inner certificate paired with an outer one is good, and for the same block. -/
lemma innerQcFor (h : QcHoldings good e) {outer inner : QuorumCertificate}
    (hinner : e.innerQcFor outer = some inner) :
    good .vote inner ∧ inner.blockHash = outer.blockHash := by
  unfold Engine.innerQcFor at hinner
  dsimp only at hinner
  rcases or_eq_some_iff.mp hinner with hview | ⟨-, hrest⟩
  · obtain ⟨hqc, hhash⟩ := filter_eq_some_iff.mp hview
    exact ⟨h.currentViewQc inner hqc, of_decide_eq_true hhash⟩
  · rcases or_eq_some_iff.mp hrest with hlocked | ⟨-, hhigh⟩
    · obtain ⟨hqc, hhash⟩ := filter_eq_some_iff.mp hlocked
      exact ⟨h.lockedQc inner hqc, of_decide_eq_true hhash⟩
    · obtain ⟨hqc, hhash⟩ := filter_eq_some_iff.mp hhigh
      exact ⟨h.highestQc inner hqc, of_decide_eq_true hhash⟩

variable {x y : Flow σ}

/-- The certificates of a formed timeout certificate came with wishes. -/
lemma formedTc (hx : QcHoldings good x.engine) {tc : TimeoutCertificate}
    {targetView validator : ℕ} {highestQc : Option QuorumCertificate} {signature : Signature}
    (hqc : highestQc = x.engine.state.highestQc ∨ ∀ qc, highestQc = some qc →
      verified (.qc .vote qc) ∈ x.engine.trace)
    (hadd : (x.engine.pacemaker.addWish x.engine.state.validatorSet targetView validator highestQc
      signature).1 = some tc) : CertWhere good (.tc tc) := by
  intro qc hmem
  obtain ⟨-, w, hw, hwqc⟩ := Pacemaker.addWish_tc (Prod.ext hadd rfl) (mem_highestQcs hmem)
  rcases mem_append.mp hw with hw | hw
  · exact hx.wishes _ w hw qc hwqc
  · rw [mem_singleton.mp hw] at hwqc
    rcases hqc with hown | hverified
    · exact hx.highestQc qc (hown ▸ hwqc)
    · exact hx.certs (.qc .vote qc) (.inl (hverified qc hwqc))

end QcHoldings

variable {x y : Flow σ}

section

variable (h : Act d A x y)
  (hverified : ∀ cert, Tracked d A x.engine y.engine (.verified cert) →
    Effect.verified cert ∈ x.engine.trace ∨ CertWhere good cert)
  (hformed : ∀ t qc, Tracked d A x.engine y.engine (.formed (.qc t qc)) → good t qc)

include h hverified hformed

/-- The certificates that are checked or formed, for `Act.qcHoldings`. -/
lemma Act.holdings_certs (hx : QcHoldings good x.engine)
    (hcert : Effect.verified cert ∈ y.engine.trace ∨ Effect.formed cert ∈ y.engine.trace) :
    CertWhere good cert := by
  rcases hcert with hcert | hcert
  · rcases h.tracked hcert rfl with hold | hnew
    · exact hx.certs cert (.inl hold)
    · rcases hverified cert hnew with hold | hgood
      · exact hx.certs cert (.inl hold)
      · exact hgood
  · rcases h.tracked hcert rfl with hold | hnew
    · exact hx.certs cert (.inr hold)
    · cases cert with
      | qc t qc => exact hformed t qc hnew
      | tc tc =>
        cases hnew with
        | formedTc _ _ _ _ _ hqc _ _ hadd => exact hx.formedTc hqc hadd
      | dc dc =>
        cases hnew with
        | formedDc _ hinner houter _ =>
          obtain ⟨hgood, hhash⟩ := hx.innerQcFor hinner
          exact ⟨hgood, hx.certs (.qc .vote2 dc.outerQc) (.inr houter), hhash⟩

/-- **Every act keeps the holdings good.** -/
lemma Act.qcHoldings (hx : QcHoldings good x.engine) : QcHoldings good y.engine where
  lockedQc qc hqc := by
    rcases h.knownLock hqc with hold | ⟨hknown, -⟩
    · exact hx.lockedQc qc hold
    · exact hx.known hknown
  highestQc qc hqc := by
    rcases h.knownHighest hqc with hold | hknown
    · exact hx.highestQc qc hold
    · exact hx.known hknown
  currentViewQc qc hqc := by
    rcases h.currentViewQc hqc with hold | hformed'
    · exact hx.currentViewQc qc hold
    · exact hx.certs (.qc .vote qc) (.inr hformed')
  certs cert hcert := h.holdings_certs hverified hformed hx hcert
  wishes view w hw qc hqc := by
    rcases h.wishes hw with hold | hown | hchecked
    · exact hx.wishes view w hold qc hqc
    · exact hx.highestQc qc (hown ▸ hqc)
    · exact hx.certs (.qc .vote qc) (.inl (hchecked qc hqc))

/-- So does its double certificate. -/
lemma Act.holdings (hx : Holdings good x.engine) : Holdings good y.engine := by
  have hqcs := h.qcHoldings hverified hformed hx.qcs
  refine ⟨hqcs.lockedQc, hqcs.highestQc, hqcs.currentViewQc, fun dc hdc => ?_, hqcs.certs,
    hqcs.wishes⟩
  rcases h.knownDc hdc with hold | hknown
  · exact hx.highestDoubleCert dc hold
  · exact hx.certs (.dc dc) hknown

end

end Hotmint
