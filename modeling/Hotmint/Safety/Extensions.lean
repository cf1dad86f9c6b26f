/-
Vote extensions on their way to the application.

* `Vouched`: an extension is the node's own, or the application accepted it for a block and a
  validator;
* `ExtensionInv`: the extensions of collected votes are vouched for, as are those of the double
  certificates that the node forms; pending extensions are those of the double certificate that
  the node holds;
* `CrashRunWhere.extensionInv`: this holds in every run;
* `createPayload_pending`: `create_payload` is handed the extensions that were pending when the
  step began;
* `payload_extensions_accepted`: **so every extension of another validator was accepted before,
  if the node itself formed the double certificate that it holds**;
* `payload_extension_unchecked`: the extensions of a certificate that comes with a proposal are
  handed on unchecked.
-/
import Hotmint.Consensus.Sample
import Hotmint.Proof.Durable
import Hotmint.Safety.Certificates

namespace Hotmint

open Sample List Effect
variable {σ : Type} {d : Deps σ} {A : Allowance}
variable {e : Engine σ} {effects t : List Effect} {cfg : NodeConfig} {own : ℕ} {p : ℕ × Bytes}

/-! ### What the extensions come from -/

/-- The extension is of the node itself, or the application accepted it for the block and the
validator. -/
def Vouched (own : ℕ) (trace : List Effect) (hash : BlockHash) (p : ℕ × Bytes) : Prop :=
  p.1 = own ∨ app (.verifyVoteExtension p.2 hash p.1 true) ∈ trace

lemma Vouched.mono {t' : List Effect} {hash : BlockHash}
    (h : Vouched own t hash p) (hsub : t ⊆ t') : Vouched own t' hash p :=
  h.imp id fun hmem => hsub hmem

/-- The extensions of every double certificate that was formed are vouched for. -/
def FormedVouched (own : ℕ) (trace : List Effect) : Prop :=
  ∀ dc, formed (.dc dc) ∈ trace → ∀ p ∈ dc.voteExtensions, Vouched own trace dc.outerQc.blockHash p

/-- Effects that only form double certificates whose extensions are vouched for already. -/
lemma formedVouched_append
    (h : EveryPrefix (FormedVouched own) t) (hnew : ∀ dc, formed (.dc dc) ∈ effects →
      ∀ p ∈ dc.voteExtensions, Vouched own t dc.outerQc.blockHash p) :
    EveryPrefix (FormedVouched own) (t ++ effects) := by
  refine (EveryPrefix.append_of_strong (G := fun p => t ⊆ p ∧ FormedVouched own p)
    (fun effect => ∀ dc, effect = .formed (.dc dc) →
      ∀ p ∈ dc.voteExtensions, Vouched own t dc.outerQc.blockHash p)
    ?_ (fun _ hG => hG.2) h ⟨List.Subset.refl _, h.self⟩ ?_).1
  · rintro p effect hfree ⟨hsub, hformed⟩
    refine ⟨subset_append_of_subset_left _ hsub, fun dc hdc q hq => ?_⟩
    rcases mem_append.mp hdc with hold | hlast
    · exact (hformed dc hold q hq).mono (subset_append_left _ _)
    · have hvouched := hfree dc (mem_singleton.mp hlast).symm q hq
      exact hvouched.mono (subset_append_of_subset_left _ hsub)
  · rintro effect hmem dc rfl
    exact hnew dc hmem

/-- What holds of the extensions that a node has. -/
structure ExtensionInv (own : ℕ) (x : Flow σ) : Prop where
  validatorId : x.engine.state.validatorId = own
  votes : ∀ key vote ext, vote ∈ x.engine.voteCollector.bucket key → key.2.2.2 = .vote2 →
    vote.extension = some ext → Vouched own x.engine.trace key.2.2.1 (vote.validator, ext)
  formed : EveryPrefix (FormedVouched own) x.engine.trace
  pending : ∀ p ∈ x.engine.state.pendingVoteExtensions, ∃ dc,
    x.engine.state.highestDoubleCert = some dc ∧ p ∈ dc.voteExtensions

/-- **Every act** keeps that. -/
lemma Act.extensionInv {x y : Flow σ} (h : Act d A x y) (hx : ExtensionInv own x) :
    ExtensionInv own y := by
  refine ⟨h.validatorId.trans hx.validatorId, fun key vote ext hmem htype hext => ?_, ?_,
    fun p hp => ?_⟩
  · rcases h.bucket hmem with hold | ⟨rfl, -, -, hok⟩
    · exact (hx.votes key vote ext hold htype hext).mono h.trace_grows.subset
    · rcases hok htype ext hext with hown | haccepted
      · exact .inl (hown.trans hx.validatorId)
      · exact .inr (h.trace_grows.subset haccepted)
  · obtain ⟨effects, heq, hnew⟩ := h.effects
    rw [heq]
    refine formedVouched_append hx.formed fun dc hdc p hp => ?_
    cases hnew _ hdc rfl with
    | formedDc _ _ _ _ hyields =>
      -- the extensions are those of the votes in the bucket of the certificate
      rw [hyields.extensions] at hp
      obtain ⟨vote, hvote, hpair⟩ := mem_filterMap.mp hp
      obtain ⟨ext, hext, rfl⟩ := Option.map_eq_some_iff.mp hpair
      exact hx.votes _ vote ext hvote rfl hext
  · rcases h.pendingVoteExtensions hp with ⟨hold, hdc⟩ | hnew
    · rw [hdc]
      exact hx.pending p hold
    · exact hnew

/-- A start leaves no votes and no extensions. -/
lemma ExtensionInv.launch {trace : List Effect} {app : σ}
    {evidence : EvidenceStore} (h : EveryPrefix (FormedVouched cfg.validatorId) trace) :
    ExtensionInv cfg.validatorId ⟨cfg.launch d trace app evidence, .idle⟩ := by
  have hforgotten := NodeConfig.forgotten_launch d cfg trace app evidence
  refine ⟨(NodeConfig.launch_identity d cfg trace app evidence).1, fun key vote ext hmem => ?_, ?_,
    fun p hp => ?_⟩
  · rw [hforgotten.voteCollector] at hmem
    cases hmem
  · rw [NodeConfig.launch_trace]
    refine formedVouched_append h fun dc hdc => ?_
    rcases NodeConfig.mem_checkpointEffects hdc with ⟨item, hitem⟩ | hflush
    · cases hitem
    · cases hflush
  · rw [hforgotten.extensions] at hp
    cases hp

/-- **In every run** the extensions are where they come from. -/
lemma CrashRunWhere.extensionInv {P : Engine σ → Label → Prop}
    {R : List Effect → Prop} (hrun : CrashRunWhere d cfg P R e) :
    Settled (fun x => TodoOk .all x.engine ∧ ExtensionInv cfg.validatorId x) e := by
  refine hrun.invariant (fun _ _ _ hxy hx => hxy.extensionInv hx)
    (fun _ label _ => labelOk_all label) holds_all (fun _ _ => ?_) fun e _ p _ _ hx hp _ _ => ?_
  · exact ExtensionInv.launch (.nil fun _ hdc => by cases hdc)
  · refine ExtensionInv.launch (formedVouched_append (hx.formed.of_le hp) fun dc hdc => ?_)
    rcases mem_cons.mp hdc with hcrash | hwal
    · cases hcrash
    · split_ifs at hwal
      · cases hwal
      · cases mem_singleton.mp hwal

/-! ### What the application is handed -/

/-- In a step the application is asked for a payload with the extensions that were pending before
it, and only if the node was about to propose. -/
def Allowance.proposing (e : Engine σ) : Allowance :=
  { Allowance.all with
    payload := fun _ extensions =>
      extensions = e.state.pendingVoteExtensions ∧ e.AboutToPropose }

lemma labelOk_proposing (e : Engine σ) (label : Label) : LabelOk (.proposing e) label := by
  have hall := labelOk_all label
  cases label with
  | message env sender msg => exact hall
  | timeout | task env => trivial

/-- **`create_payload` is handed the pending extensions** of the engine before the step, which
was about to propose. -/
lemma createPayload_pending (htodo : TodoOk .all e) (label : Label)
    {ctx : BlockContext} {bytes : Bytes}
    (hcall : .app (.createPayload ctx bytes) ∈ e.stepEffects d label) :
    ctx.voteExtensions = e.state.pendingVoteExtensions ∧ e.AboutToPropose := by
  have hact : ∀ x y : Flow σ, Act d (.proposing e) x y →
      (∃ effects, x.engine.trace = e.trace ++ effects ∧ ∀ ctx bytes,
        .app (.createPayload ctx bytes) ∈ effects →
          ctx.voteExtensions = e.state.pendingVoteExtensions ∧ e.AboutToPropose) →
      ∃ effects, y.engine.trace = e.trace ++ effects ∧ ∀ ctx bytes,
        .app (.createPayload ctx bytes) ∈ effects →
          ctx.voteExtensions = e.state.pendingVoteExtensions ∧ e.AboutToPropose := by
    rintro x y hxy ⟨effects, heq, hold⟩
    obtain ⟨effects', heq', hnew⟩ := hxy.effects
    refine ⟨effects ++ effects', by rw [heq', heq, append_assoc], fun ctx bytes hmem => ?_⟩
    rcases mem_append.mp hmem with hmem | hmem
    · exact hold ctx bytes hmem
    · cases hnew _ hmem rfl with
      | payload _ _ _ hpayload => exact hpayload
  have hholds : (Allowance.proposing e).Holds e :=
    ⟨trivial, fun _ _ _ _ _ => .inr trivial, fun hturn => ⟨rfl, hturn⟩⟩
  have hreach := reach_apply (d := d) (labelOk_proposing e label) (htodo.weaken id) hholds
  obtain ⟨_, -, effects, heq, hpayload⟩ :=
    hreach.invariant hact ⟨[], (append_nil _).symm, by simp⟩
  unfold Engine.stepEffects at hcall
  rw [heq, drop_left] at hcall
  exact hpayload ctx bytes hcall

/-- If the node is about to propose while extensions of other validators are pending, then it has
formed the double certificate that it holds. -/
def ExtensionsFromVotes (e : Engine σ) : Prop :=
  e.AboutToPropose → (∃ p ∈ e.state.pendingVoteExtensions, p.1 ≠ e.state.validatorId) →
    ∃ dc, e.state.highestDoubleCert = some dc ∧ formed (.dc dc) ∈ e.trace

/-- **Vote extensions are checked before use.**  In every run with crashes and restarts, whenever a
step from a state that satisfies `ExtensionsFromVotes` hands an extension of another validator to
`create_payload`, the extension is one of the double certificate that the node holds, and the
application has accepted it before for that validator and the block of the certificate. -/
theorem payload_extensions_accepted (d : Deps σ) (cfg : NodeConfig) {e : Engine σ} {label : Label}
    (hrun : CrashRun d cfg e) (henabled : e.enabled label = true) (hvotes : ExtensionsFromVotes e)
    {ctx : BlockContext} {bytes : Bytes}
    (hcall : .app (.createPayload ctx bytes) ∈ e.stepEffects d label) {validator : ℕ}
    {extension : Bytes} (hmem : (validator, extension) ∈ ctx.voteExtensions)
    (hother : validator ≠ e.state.validatorId) :
    ∃ dc, e.state.highestDoubleCert = some dc ∧ (validator, extension) ∈ dc.voteExtensions
      ∧ app (.verifyVoteExtension extension dc.outerQc.blockHash validator true) ∈ e.trace := by
  obtain ⟨htodo, hinv⟩ := (CrashRunWhere.extensionInv hrun).idle henabled
  obtain ⟨hpending, hturn⟩ := createPayload_pending htodo label hcall
  rw [hpending] at hmem
  obtain ⟨dc, hdc, hformed⟩ := hvotes hturn ⟨_, hmem, hother⟩
  obtain ⟨dc', hdc', hextension⟩ := hinv.pending _ hmem
  obtain rfl := Option.some.inj (hdc.symm.trans hdc')
  refine ⟨dc, hdc, hextension, ?_⟩
  rcases hinv.formed.self dc hformed _ hextension with hown | haccepted
  · exact absurd (hown.trans hinv.validatorId.symm) hother
  · exact haccepted

/-! ### Two runs -/

/-- The context and the answer of a call of `create_payload`. -/
def Effect.requested : Effect → Option (BlockContext × Bytes)
  | .app (.createPayload ctx bytes) => some (ctx, bytes)
  | _ => none

/-- Whether the effects hand the extension to `create_payload`. -/
def handsOver (p : ℕ × Bytes) (effects : List Effect) : Bool :=
  (effects.filterMap requested).any fun r => p ∈ r.1.voteExtensions

lemma exists_of_handsOver (h : handsOver p effects = true) :
    ∃ ctx bytes, .app (.createPayload ctx bytes) ∈ effects ∧ p ∈ ctx.voteExtensions := by
  obtain ⟨⟨ctx, bytes⟩, hmem, hp⟩ := any_eq_true.mp h
  obtain ⟨effect, heffect, hrequested⟩ := mem_filterMap.mp hmem
  refine ⟨ctx, bytes, ?_, of_decide_eq_true hp⟩
  cases effect with
  | app call =>
    cases call with
    | createPayload ctx' bytes' =>
      obtain ⟨rfl, rfl⟩ := Prod.mk.inj (Option.some.inj hrequested)
      exact heffect
    | _ => cases hrequested
  | _ => cases hrequested

/-- The double certificate that an effect forms. -/
def Effect.formedDc : Effect → Option DoubleCertificate
  | .formed (.dc dc) => some dc
  | _ => none

lemma extensionsFromVotes_of_formed
    (h : ((e.trace.filterMap formedDc).any fun dc => e.state.highestDoubleCert = some dc)
      = true) : ExtensionsFromVotes e := by
  intro _ _
  obtain ⟨dc, hmem, hdc⟩ := any_eq_true.mp h
  obtain ⟨effect, heffect, hformed⟩ := mem_filterMap.mp hmem
  refine ⟨dc, of_decide_eq_true hdc, ?_⟩
  cases effect with
  | formed cert =>
    cases cert with
    | dc dc' =>
      cases hformed
      exact heffect
    | _ => cases hformed
  | _ => cases hformed

/-- The first block of validator 0. -/
def firstBlock : Block := block 1 BlockHash.genesis 1 0

/-- Validator 0 has formed the double certificate for its block with the votes of validator 2, the
second of which has an extension; it leads view 2 as well. -/
def extendedLeader : Engine Unit :=
  steps (needy.deps only) [.task env,
    .message env none (.voteMsg (vote .vote 1 2 firstBlock.hash none)),
    .message env none (.vote2Msg (vote .vote2 1 2 firstBlock.hash (some [9])))]
    (needy.init only)

theorem payload_extensions_accepted_vote : ∃ ctx bytes, .app (.createPayload ctx bytes)
        ∈ extendedLeader.stepEffects (needy.deps only) (.task env)
      ∧ (2, [9]) ∈ ctx.voteExtensions ∧ extendedLeader.state.validatorId ≠ 2
      ∧ ∃ dc, extendedLeader.state.highestDoubleCert = some dc ∧ (2, [9]) ∈ dc.voteExtensions
        ∧ app (.verifyVoteExtension [9] dc.outerQc.blockHash 2 true) ∈ extendedLeader.trace := by
  have hhands : handsOver (2, [9])
      (extendedLeader.stepEffects (needy.deps only) (.task env)) = true := by
    decide +kernel
  obtain ⟨ctx, bytes, hcall, hmem⟩ := exists_of_handsOver hhands
  have hrun : CrashRun (needy.deps only) (needy.config only) extendedLeader :=
    crashRun_steps (.start () .empty) _
  have hid : extendedLeader.state.validatorId = 0 := by decide +kernel
  refine ⟨ctx, bytes, hcall, hmem, by rw [hid]; decide, ?_⟩
  exact payload_extensions_accepted _ _ hrun (by decide +kernel)
    (extensionsFromVotes_of_formed (by decide +kernel)) hcall hmem (by rw [hid]; decide)

/-- A proposal of validator 2 for view 5, which validator 1 leads.  Its double certificate is the
one of validator 0 for the first block, with a second-phase vote of validator 2 added. -/
def graftedProposal : ConsensusMessage :=
  let vs := validatorSet [5, 1, 1]
  let inner := qc vs [0] .vote 0 1 firstBlock.hash
  let outer : QuorumCertificate :=
    { qc vs [0] .vote2 0 1 firstBlock.hash with
      aggregateSignature := aggregate vs [0, 2] fun id =>
        crypto.votePayload 0#256 0 1 id firstBlock.hash .vote2 (if id = 2 then some [9] else none) }
  proposal 0 (block 2 firstBlock.hash 5 2) inner (some ⟨inner, outer, [(2, [9])]⟩) [firstBlock]

/-- The leader has run through view 1, and validator 2 has sent the proposal to validator 1. -/
def grafted : Fin 2 → Engine Unit :=
  outcome pair [.task leader, .task leader, .inject replica graftedProposal]

/-- The application is asked about an extension. -/
def Effect.asksAboutExtension : Effect → Bool
  | .app (.verifyVoteExtension _ _ _ _) => true
  | _ => false

/-- Validator 1 hands the extension of validator 2 to its application, which it has never asked
about any extension. -/
theorem payload_extension_unchecked : pair.FaultBound [2] ∧ pair.Run grafted
    ∧ CrashRun (pair.deps 1) (pair.config 1) (grafted 1) ∧ (grafted 1).enabled (.task env) = true
    ∧ (grafted 1).state.validatorId = 1 ∧ (∃ ctx bytes, .app (.createPayload ctx bytes)
        ∈ (grafted 1).stepEffects (pair.deps 1) (.task env)
      ∧ (2, [9]) ∈ ctx.voteExtensions)
    ∧ ∀ effect ∈ (grafted 1).trace, effect.asksAboutExtension = false := by
  have hrun : pair.Run grafted := run_outcome _ rfl _
  have hnode : CrashRun (pair.deps 1) (pair.config 1) (grafted 1) :=
    CrashRunWhere.run (.start () .empty) (hrun.node 1)
  exact ⟨⟨by decide +kernel, by decide +kernel⟩, hrun, hnode, by decide +kernel,
    by decide +kernel, exists_of_handsOver (by decide +kernel), by decide +kernel⟩

end Hotmint
