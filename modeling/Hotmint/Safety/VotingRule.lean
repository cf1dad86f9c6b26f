/-
The voting rule, over runs with crashes and restarts: a first vote is for a block
whose justify certificate is of a higher view than the lock, or certifies the
locked block.

* `VotingRule`: the rule, for every first vote in a trace;
* `LockInv`, `LockInv.act`: the lock is never above the highest certificate, in
  memory and on the disk, wherever a crash may cut the trace off;
* `LockInv.restart`: a restart keeps this if it does not bootstrap view 1 under a
  lock;
* `vote1_respects_lock`: **the rule holds in every run whose restarts satisfy
  `ResumesLocked`**, for nodes that see one certified block a view;
* `vote1_ignores_lock`: a restart in view 1 forgets the highest certificate but
  not the lock, and the node then proposes and votes against its lock.
-/
import Hotmint.Consensus.Sample
import Hotmint.Proof.Durable

namespace Hotmint

open ConsensusState Sample Engine List Effect NodeConfig

variable {σ : Type} {d : Deps σ} {A : Allowance}
variable {effect : Effect} {x y : Flow σ} {effects t trace : List Effect}

/-! ### The rule -/

/-- Every first vote signed under a lock is for a block whose justify certificate
is of a higher view or certifies the locked block. -/
def VotingRule (trace : List Effect) : Prop :=
  ∀ vote block justify locked, signVote1 vote block justify (some locked) ∈ trace →
    locked.view < justify.view ∨ justify.blockHash = locked.blockHash

/-- The node has never seen certificates for two blocks of one view. -/
def OneQcPerView (trace : List Effect) : Prop :=
  ∀ qc qc', KnownQc trace qc → KnownQc trace qc' → qc.view = qc'.view → qc.blockHash = qc'.blockHash

/-- What the code guarantees by itself: the rule, or two certificates of one
view that were both seen before the vote. -/
def VotesOk (trace : List Effect) : Prop :=
  ∀ vote block justify locked, signVote1 vote block justify (some locked) ∈ trace →
    locked.view < justify.view ∨ justify.blockHash = locked.blockHash
      ∨ (justify.view = locked.view ∧ KnownQc trace justify ∧ KnownQc trace locked)

lemma VotesOk.rule (h : VotesOk trace) (hone : OneQcPerView trace) : VotingRule trace := by
  intro vote block justify locked hmem
  rcases h vote block justify locked hmem with hlt | heq | ⟨hview, hjustify, hlocked⟩
  · exact .inl hlt
  · exact .inr heq
  · exact .inr (hone justify locked hjustify hlocked hview)

/-- New effects whose first votes are right by what was seen before them. -/
lemma VotesOk.append (h : VotesOk trace)
    (hnew : ∀ vote block justify locked, signVote1 vote block justify (some locked) ∈ effects →
      locked.view < justify.view ∨ justify.blockHash = locked.blockHash
        ∨ (justify.view = locked.view ∧ KnownQc trace justify ∧ KnownQc trace locked)) :
    VotesOk (trace ++ effects) := by
  intro vote block justify locked hmem
  have hsub : trace ⊆ trace ++ effects := subset_append_left _ _
  have hvote := (mem_append.mp hmem).elim (h vote block justify locked)
    (hnew vote block justify locked)
  rcases hvote with hlt | heq | ⟨hview, hjustify, hlocked⟩
  · exact .inl hlt
  · exact .inr (.inl heq)
  · exact .inr (.inr ⟨hview, hjustify.mono hsub, hlocked.mono hsub⟩)

lemma VotesOk.concat (h : VotesOk trace)
    (hnew : ∀ vote block justify locked, effect ≠ .signVote1 vote block justify (some locked)) :
    VotesOk (trace ++ [effect]) :=
  h.append fun vote block justify locked hmem =>
    absurd (mem_singleton.mp hmem).symm (hnew vote block justify locked)

/-! ### Locks and highest certificates -/

/-- A lock and a highest certificate that belong together. -/
structure LockOk (trace : List Effect) (lockedQc highestQc : Option QuorumCertificate) :
    Prop where
  locked : ∀ qc, lockedQc = some qc → KnownQc trace qc ∧ 0 < qc.view
  highest : ∀ qc, highestQc = some qc → KnownQc trace qc ∨ qc.view = 0
  le : QcLe lockedQc highestQc

lemma LockOk.mono {t' : List Effect} (hsub : t ⊆ t') {locked highest : Option QuorumCertificate}
    (h : LockOk t locked highest) : LockOk t' locked highest where
  locked qc hqc := ⟨(h.locked qc hqc).1.mono hsub, (h.locked qc hqc).2⟩
  highest qc hqc := (h.highest qc hqc).imp (fun hk => hk.mono hsub) id
  le := h.le

/-- Without a lock every known certificate may be the highest. -/
lemma LockOk.of_unlocked {highest : Option QuorumCertificate}
    (h : ∀ qc, highest = some qc → KnownQc t qc ∨ qc.view = 0) : LockOk t none highest where
  locked qc hqc := by cases hqc
  highest := h
  le qc hqc := by cases hqc

/-- **Every act keeps the lock below the highest certificate.** -/
lemma LockOk.act (hpos : 0 < x.engine.state.currentView) (h : Act d A x y)
    (hx : LockOk x.engine.trace x.engine.state.lockedQc x.engine.state.highestQc) :
    LockOk y.engine.trace y.engine.state.lockedQc y.engine.state.highestQc where
  locked qc hqc := by
    have hsub := h.trace_grows.subset
    rcases h.knownLock hqc with hold | ⟨hknown, hview⟩
    · exact ⟨(hx.locked qc hold).1.mono hsub, (hx.locked qc hold).2⟩
    · exact ⟨hknown.mono hsub, by omega⟩
  highest qc hqc := by
    have hsub := h.trace_grows.subset
    rcases h.knownHighest hqc with hold | hknown
    · exact (hx.highest qc hold).imp (fun hk => hk.mono hsub) id
    · exact .inl (hknown.mono hsub)
  le := h.lockedQc_le_highestQc hx.le

/-- A first vote is cast under a lock that its justify certificate respects. -/
lemma VotesOk.vote
    (hx : LockOk x.engine.trace x.engine.state.lockedQc x.engine.state.highestQc) {vote : Vote}
    {block : Block} {justify locked : QuorumCertificate}
    (hlocked : x.engine.state.lockedQc = some locked)
    (h : Tracked d A x.engine y.engine (.signVote1 vote block justify x.engine.state.lockedQc)) :
    locked.view < justify.view ∨ justify.blockHash = locked.blockHash
      ∨ (justify.view = locked.view ∧ KnownQc x.engine.trace justify
        ∧ KnownQc x.engine.trace locked) := by
  obtain ⟨hknown, hpos⟩ := hx.locked locked hlocked
  cases h with
  | vote1 _ _ _ _ _ _ _ _ hjustify _ =>
    rcases hjustify with hhigh | ⟨-, hout⟩
    · -- the leader votes on its highest certificate
      obtain ⟨high, hhigh', hle⟩ := hx.le locked hlocked
      obtain rfl : justify = high := Option.some.inj (hhigh.symm.trans hhigh')
      rcases hle.lt_or_eq with hlt | heq
      · exact .inl hlt
      · rcases hx.highest justify hhigh with hk | hzero
        · exact .inr (.inr ⟨heq.symm, hk, hknown⟩)
        · omega
    · -- a replica has compared the certificate with its lock
      rw [hlocked] at hout
      simp only [lockedOut, Bool.or_eq_false_iff, decide_eq_false_iff_not, not_lt,
        Bool.and_eq_false_iff, decide_eq_false_iff_not, not_not] at hout
      obtain ⟨hle, hne | heq⟩ := hout
      · exact .inl (by omega)
      · exact .inr (.inl heq)

/-! ### On the disk -/

/-- The flushed certificates belong together, and every vote so far is right.  It
has to hold wherever a crash may cut the trace off. -/
def FlushedOk (trace : List Effect) : Prop :=
  LockOk trace (Disk.after trace).flushed.lockedQc (Disk.after trace).flushed.highestQc
    ∧ VotesOk trace

/-- The same with the buffered certificates, where an act ends. -/
def BufferedOk (trace : List Effect) : Prop :=
  LockOk trace (Disk.after trace).cache.lockedQc (Disk.after trace).cache.highestQc
    ∧ FlushedOk trace

/-- Effects that save no certificate and cast no first vote. -/
def Effect.keepsCerts : Effect → Bool
  | .save (.lockedQc _) | .save (.highestQc _) | .crash | .signVote1 _ _ _ _ => false
  | _ => true

lemma Effect.keepsCerts_of_free (h : effect.free = true) : effect.keepsCerts = true := by
  cases effect with
  | save | crash | signVote1 => cases h
  | _ => rfl

/-- Such an effect keeps the buffered certificates, and may flush them. -/
lemma Disk.apply_keepsCerts (disk : Disk) (h : effect.keepsCerts = true) :
    (disk.apply effect).cache.lockedQc = disk.cache.lockedQc
      ∧ (disk.apply effect).cache.highestQc = disk.cache.highestQc
      ∧ ((disk.apply effect).flushed = disk.flushed
        ∨ (disk.apply effect).flushed = disk.cache) := by
  cases effect with
  | flush => exact ⟨rfl, rfl, .inr rfl⟩
  | save item =>
    cases item with
    | lockedQc | highestQc => cases h
    | lastVote t view hash => cases t <;> exact ⟨rfl, rfl, .inl rfl⟩
    | _ => exact ⟨rfl, rfl, .inl rfl⟩
  | crash => cases h
  | _ => exact ⟨rfl, rfl, .inl rfl⟩

lemma BufferedOk.concat (h : BufferedOk trace)
    (heffect : effect.keepsCerts = true) : BufferedOk (trace ++ [effect]) := by
  obtain ⟨hcache, hflushed, hvotes⟩ := h
  have hsub : trace ⊆ trace ++ [effect] := subset_append_left _ _
  have hvotes' : VotesOk (trace ++ [effect]) := by
    refine hvotes.concat fun vote block justify locked heq => ?_
    rw [heq] at heffect
    cases heffect
  obtain ⟨hlocked, hhighest, hfl⟩ := (Disk.after trace).apply_keepsCerts heffect
  refine ⟨?_, ?_, hvotes'⟩
  · rw [Disk.after_concat, hlocked, hhighest]
    exact hcache.mono hsub
  · rw [Disk.after_concat]
    rcases hfl with heq | heq
    · rw [heq]
      exact hflushed.mono hsub
    · rw [heq]
      exact hcache.mono hsub

/-- An effect that leaves the flushed certificates as they are. -/
lemma FlushedOk.concat (h : FlushedOk trace)
    (hdisk : ((Disk.after trace).apply effect).flushed = (Disk.after trace).flushed)
    (hnew : ∀ vote block justify locked, effect ≠ .signVote1 vote block justify (some locked)) :
    FlushedOk (trace ++ [effect]) := by
  refine ⟨?_, h.2.concat hnew⟩
  rw [Disk.after_concat, hdisk]
  exact h.1.mono (subset_append_left _ _)

/-- Between a write and its flush the flushed certificates stay. -/
lemma FlushedOk.save (p : List Effect) (item : SavedItem) (h : FlushedOk p) :
    FlushedOk (p ++ [.save item]) :=
  h.concat rfl nofun

/-- What holds of the lock in memory and on the disk. -/
structure LockInv (x : Flow σ) : Prop where
  state : LockOk x.engine.trace x.engine.state.lockedQc x.engine.state.highestQc
  buffered : BufferedOk x.engine.trace
  flushed : EveryPrefix FlushedOk x.engine.trace
  le : QcLe (Disk.after x.engine.trace).cache.lockedQc x.engine.state.lockedQc

/-- **Effects that save no certificate.** -/
lemma flushedOk_append (h : EveryPrefix FlushedOk t)
    (hbuffered : BufferedOk t) (heffects : ∀ effect ∈ effects, effect.keepsCerts = true) :
    EveryPrefix FlushedOk (t ++ effects) ∧ BufferedOk (t ++ effects)
      ∧ (Disk.after (t ++ effects)).cache.lockedQc = (Disk.after t).cache.lockedQc := by
  have hstrong : ∀ p (effect : Effect), effect.keepsCerts = true →
      (BufferedOk p ∧ (Disk.after p).cache.lockedQc = (Disk.after t).cache.lockedQc) →
      BufferedOk (p ++ [effect])
        ∧ (Disk.after (p ++ [effect])).cache.lockedQc = (Disk.after t).cache.lockedQc := by
    intro p effect heffect hp
    refine ⟨hp.1.concat heffect, ?_⟩
    rw [Disk.after_concat, ((Disk.after p).apply_keepsCerts heffect).1]
    exact hp.2
  exact EveryPrefix.append_of_strong _ hstrong (fun p hp => hp.1.2) h ⟨hbuffered, rfl⟩ heffects

/-- **A checkpoint** writes certificates that belong together. -/
lemma flushedOk_checkpoint {e : Engine σ} (h : EveryPrefix FlushedOk e.trace)
    (hstate : LockOk e.trace e.state.lockedQc e.state.highestQc) (hbuffered : BufferedOk e.trace)
    (hle : QcLe (Disk.after e.trace).cache.lockedQc e.state.lockedQc) :
    EveryPrefix FlushedOk (e.trace ++ e.persistEffects d)
      ∧ BufferedOk (e.trace ++ e.persistEffects d)
      ∧ QcLe (Disk.after (e.trace ++ e.persistEffects d)).cache.lockedQc e.state.lockedQc := by
  cases hpersist : d.hasPersistence with
  | false =>
    have hnone : e.persistEffects d = [] := by simp [persistEffects, hpersist]
    rw [hnone, append_nil]
    exact ⟨h, hbuffered, hle⟩
  | true =>
    obtain ⟨hcache, hflushed⟩ := Disk.after_persistEffects hpersist e.trace e
    have hsub : e.trace ⊆ e.trace ++ e.persistEffects d := subset_append_left _ _
    have hlocked := SavedState.persisted_lockedQc hle
    have hok : LockOk e.trace ((Disk.after e.trace).cache.persisted e).lockedQc
        ((Disk.after e.trace).cache.persisted e).highestQc := by
      rw [hlocked]
      change LockOk e.trace e.state.lockedQc
        (e.state.highestQc.or (Disk.after e.trace).cache.highestQc)
      cases hh : e.state.highestQc with
      | some high =>
        rw [hh] at hstate
        exact hstate
      | none =>
        cases hl : e.state.lockedQc with
        | none => exact LockOk.of_unlocked hbuffered.1.highest
        | some l =>
          obtain ⟨high, hhigh, -⟩ := hstate.le l hl
          rw [hh] at hhigh
          cases hhigh
    have hend : FlushedOk (e.trace ++ e.persistEffects d) := by
      refine ⟨?_, h.self.2.append fun _ _ _ _ hmem => by cases stored_persistEffects hmem⟩
      rw [hflushed]
      exact hok.mono hsub
    refine ⟨everyPrefix_checkpoint hpersist h FlushedOk.save hend, ⟨?_, hend⟩, ?_⟩
    · rw [hcache]
      exact hok.mono hsub
    · rw [hcache, hlocked]
      exact QcLe.refl _

/-! ### Every act -/

lemma keepsCerts_slotEffects (t : VoteType) (view : ℕ) (hash : BlockHash) :
    ∀ effect ∈ slotEffects d t view hash, effect.keepsCerts = true := by
  intro effect hmem
  rcases mem_slotEffects hmem with rfl | rfl <;> rfl

lemma keepsCerts_unlogEffects (env : Env) (height : ℕ) :
    ∀ effect ∈ unlogEffects d env height, effect.keepsCerts = true := by
  intro effect hmem
  rcases mem_unlogEffects hmem with ⟨entry, rfl⟩ | rfl <;> rfl

lemma keepsCerts_commit (dc : DoubleCertificate) (calls : List AppCall) (outcome : CommitOutcome) :
    ∀ effect ∈ Effect.tryCommit dc :: calls.map .app ++ failureEffects outcome,
      effect.keepsCerts = true := by
  intro effect hmem
  rcases mem_commitEffects hmem with rfl | ⟨call, -, rfl⟩ | ⟨err, -, rfl⟩ <;> rfl

section

variable (hpos : 0 < x.engine.state.currentView) (h : Act d A x y) (hx : LockInv x)

include hpos h hx

/-- An act that saves no certificate and casts no first vote. -/
lemma LockInv.keeps (heq : y.engine.trace = x.engine.trace ++ effects)
    (heffects : ∀ effect ∈ effects, effect.keepsCerts = true) : LockInv y := by
  obtain ⟨hflushed, hbuffered, hcache⟩ := flushedOk_append hx.flushed hx.buffered heffects
  refine ⟨hx.state.act hpos h, heq ▸ hbuffered, heq ▸ hflushed, ?_⟩
  rw [heq, hcache]
  exact hx.le.trans h.qcLe_lockedQc

/-- An act that writes a checkpoint, and then saves no certificate. -/
lemma LockInv.checkpoint
    (heq : y.engine.trace = x.engine.trace ++ (x.engine.persistEffects d ++ effects))
    (heffects : ∀ effect ∈ effects, effect.keepsCerts = true) : LockInv y := by
  obtain ⟨hflushed, hbuffered, hle⟩ :=
    flushedOk_checkpoint (d := d) hx.flushed hx.state hx.buffered hx.le
  obtain ⟨hflushed', hbuffered', hcache⟩ := flushedOk_append hflushed hbuffered heffects
  rw [← append_assoc] at heq
  refine ⟨hx.state.act hpos h, heq ▸ hbuffered', heq ▸ hflushed', ?_⟩
  rw [heq, hcache]
  exact hle.trans h.qcLe_lockedQc

/-- **Every act keeps the lock below the highest certificate, in memory and on
the disk, and votes by the rule.** -/
lemma LockInv.act : LockInv y := by
  obtain ⟨effects, heq, hdisk⟩ := h.disk
  cases hdisk with
  | free hfree _ _ _ _ _ =>
    exact hx.keeps hpos h heq fun effect hmem => keepsCerts_of_free (hfree effect hmem)
  | vote1 vote block justify htracked _ _ =>
    obtain ⟨hflushed, hbuffered, hcache⟩ := flushedOk_append hx.flushed hx.buffered
      (keepsCerts_slotEffects (d := d) .vote x.engine.state.currentView block.hash)
    have hvotes : VotesOk y.engine.trace := by
      rw [heq]
      refine hx.flushed.self.2.append fun vote' block' justify' locked hmem => ?_
      rcases mem_append.mp hmem with hmem | hmem
      · cases stored_slotEffects hmem
      · obtain ⟨rfl, rfl, rfl, hlocked⟩ := signVote1.inj (mem_singleton.mp hmem)
        exact VotesOk.vote hx.state hlocked.symm htracked
    rw [← append_assoc] at heq
    set t := x.engine.trace ++ slotEffects d .vote x.engine.state.currentView block.hash with ht
    have hsub : t ⊆ y.engine.trace := by
      rw [heq]
      exact subset_append_left _ _
    have hdisk : Disk.after y.engine.trace = Disk.after t := by
      rw [heq, Disk.after_concat]
      rfl
    have hend : FlushedOk y.engine.trace := by
      refine ⟨?_, hvotes⟩
      rw [hdisk]
      exact hbuffered.2.1.mono hsub
    refine ⟨hx.state.act hpos h, ⟨?_, hend⟩, ?_, ?_⟩
    · rw [hdisk]
      exact hbuffered.1.mono hsub
    · rw [heq] at hend ⊢
      exact hflushed.concat hend
    · rw [hdisk, hcache]
      exact hx.le.trans h.qcLe_lockedQc
  | vote2 vote qc _ _ =>
    exact hx.keeps hpos h heq (forall_mem_append.mpr
      ⟨keepsCerts_slotEffects _ _ _, forall_mem_singleton.mpr rfl⟩)
  | release1 vote effect heffect _ _ _ _ =>
    refine hx.keeps hpos h heq (forall_mem_singleton.mpr ?_)
    rcases heffect with rfl | ⟨leader, rfl⟩ <;> rfl
  | release2 vote effect heffect _ _ _ _ _ _ =>
    refine hx.checkpoint hpos h heq (forall_mem_singleton.mpr ?_)
    rcases heffect with rfl | ⟨leader, rfl⟩ <;> rfl
  | persist _ _ _ =>
    rw [← append_nil (x.engine.persistEffects d)] at heq
    exact hx.checkpoint hpos h heq (by simp)
  | saved env _ _ _ => exact hx.checkpoint hpos h heq (keepsCerts_unlogEffects env _)
  | intent height _ _ _ => exact hx.keeps hpos h heq (by simp [keepsCerts])
  | unlog env height _ _ _ => exact hx.keeps hpos h heq (keepsCerts_unlogEffects env height)
  | commit dc _ _ _ _ _ _ _ _ => exact hx.keeps hpos h heq (keepsCerts_commit dc _ _)

end

/-! ### Starts and restarts -/

/-- A restart under a lock resumes a view above 1. -/
def ResumesLocked (trace : List Effect) : Prop :=
  (Disk.after trace).flushed.lockedQc = none ∨ 1 < restoredView trace

lemma keepsCerts_checkpointEffects (e : Engine σ) :
    ∀ effect ∈ checkpointEffects d e, effect.keepsCerts = true := by
  unfold checkpointEffects
  split_ifs <;> simp [keepsCerts]

/-- **A start** on a directory whose flushed certificates belong together. -/
lemma LockInv.launch {cfg : NodeConfig} {app : σ} {evidence : EvidenceStore}
    (hsame : (Disk.after t).cache = (Disk.after t).flushed) (hflushed : EveryPrefix FlushedOk t)
    (hresumes : ResumesLocked t) : LockInv ⟨cfg.launch d t app evidence, .idle⟩ := by
  have hbuffered : BufferedOk t := by
    refine ⟨?_, hflushed.self⟩
    rw [hsame]
    exact hflushed.self.1
  have hstate := hflushed.self.1
  obtain ⟨hflushed', hbuffered', hcache⟩ := flushedOk_append hflushed hbuffered
    (keepsCerts_checkpointEffects (d := d) (cfg.construct t app evidence))
  have hsub : t ⊆ (prepared d cfg t app evidence).trace :=
    subset_append_left _ _
  have hlocked : (prepared d cfg t app evidence).state.lockedQc
      = (Disk.after t).flushed.lockedQc := rfl
  have hle : QcLe (Disk.after (prepared d cfg t app evidence).trace).cache.lockedQc
      (Disk.after t).flushed.lockedQc := by
    change QcLe (Disk.after (t ++ _)).cache.lockedQc _
    rw [hcache, hsame]
    exact QcLe.refl _
  rw [launch_eq]
  rcases (prepared d cfg t app evidence).start_cases (d := d) with
    heq | ⟨hview, step, role, tasks, -, heq⟩ | ⟨-, heq⟩
  · rw [heq]
    exact ⟨hstate.mono hsub, hbuffered', hflushed', hle⟩
  · -- the bootstrap replaces the highest certificate; there is no lock to respect
    have hunlocked : (Disk.after t).flushed.lockedQc = none := by
      rcases hresumes with hnone | hlt
      · exact hnone
      · exact absurd hview (not_le.mpr hlt)
    rw [heq]
    refine ⟨?_, hbuffered', hflushed', hle⟩
    change LockOk _ (Disk.after t).flushed.lockedQc _
    rw [hunlocked]
    refine LockOk.of_unlocked fun qc hqc => .inr ?_
    cases hqc
    rfl
  · rw [heq]
    exact ⟨hstate.mono hsub, hbuffered', hflushed', hle⟩

lemma flushedOk_nil : FlushedOk [] := by
  refine ⟨LockOk.of_unlocked (by simp [Disk.after, Disk.fresh, SavedState.empty]), ?_⟩
  intro vote block justify locked hmem
  cases hmem

/-- The history a restart begins with is in order if it was before the crash. -/
lemma flushedOk_restartTrace {p : List Effect} (h : EveryPrefix FlushedOk p) :
    EveryPrefix FlushedOk (restartTrace p) :=
  everyPrefix_restartTrace h (fun _ hq => hq.concat rfl nofun) fun _ hq => hq.concat rfl nofun

/-! ### Every run -/

/-- **The voting rule**: in every run with crashes in which no restart bootstraps
view 1 under a lock, a node that has seen one certified block a view signs first
votes only for blocks whose justify certificate is of a higher view than its
lock or certifies the locked block. -/
theorem vote1_respects_lock (d : Deps σ) (cfg : NodeConfig) {e : Engine σ}
    (hrun : CrashRunWhere d cfg (fun _ _ => True) ResumesLocked e) (hone : OneQcPerView e.trace) :
    VotingRule e.trace := by
  have hstart : ∀ app evidence, LockInv ⟨cfg.launch d [] app evidence, .idle⟩ :=
    fun app evidence => LockInv.launch rfl (.nil flushedOk_nil) (.inl rfl)
  have hrestart : ∀ (e : Engine σ) (φ : Phase) p app evidence, LockInv ⟨e, φ⟩ → p <+: e.trace →
      recovery p = .clean → ResumesLocked (restartTrace p) →
      LockInv ⟨cfg.launch d (restartTrace p) app evidence, .idle⟩ := by
    intro e φ p app evidence hI hp _ hresumes
    obtain ⟨hcache, hflushed, -⟩ := Disk.after_restartTrace p
    exact LockInv.launch (hcache.trans hflushed.symm)
      (flushedOk_restartTrace (hI.flushed.of_le hp)) hresumes
  obtain ⟨φ, -, -, hinv⟩ := hrun.invariant (A := .all) (fun x y hpos h hx => hx.act hpos h)
    (fun e label _ => labelOk_all label) holds_all hstart hrestart
  exact hinv.flushed.self.2.rule hone

/-! Validator 0 of `Sample.pair` proposes, locks the certificate of view 1, releases
its second vote and enters view 2.  If the process dies after that, it resumes
view 2 under its lock; if it dies right after the second vote, what it has flushed
is view 1, the lock and both slots. -/

/-- The first step of the leader. -/
def lockedOnce : Engine Unit :=
  ((pair.config leader).launch (pair.deps leader) [] () .empty).apply (pair.deps leader) (.task env)

/-- A restart of the leader when it has had `n` effects. -/
def lockedRestart (n : ℕ) : Engine Unit :=
  (pair.config leader).launch (pair.deps leader) (restartTrace (lockedOnce.trace.take n)) () .empty

/-- The certificates of first votes an effect accounts for. -/
def Effect.qcs : Effect → List QuorumCertificate
  | .verified (.qc .vote qc) | .formed (.qc .vote qc) => [qc]
  | .verified (.dc dc) | .formed (.dc dc) => [dc.innerQc]
  | .verified (.tc tc) | .formed (.tc tc) => tc.signedQcs
  | _ => []

lemma KnownQc.mem_qcs {qc : QuorumCertificate} (h : KnownQc trace qc) : qc ∈ trace.flatMap qcs := by
  rw [mem_flatMap]
  rcases h with hmem | hmem | ⟨dc, hmem | hmem, rfl⟩ | ⟨tc, hmem | hmem, hqc⟩
  · exact ⟨_, hmem, mem_singleton.mpr rfl⟩
  · exact ⟨_, hmem, mem_singleton.mpr rfl⟩
  · exact ⟨_, hmem, mem_singleton.mpr rfl⟩
  · exact ⟨_, hmem, mem_singleton.mpr rfl⟩
  · exact ⟨_, hmem, hqc⟩
  · exact ⟨_, hmem, hqc⟩

/-- The leader restarts in view 2, times out, and proposes and votes in view 3. -/
def lockedResumed : Engine Unit :=
  steps (pair.deps leader) [.timeout, .task env] (lockedRestart 62)

/-- It is still under the lock of view 1 then. -/
theorem vote1_respects_lock_resumed :
    CrashRunWhere (pair.deps 0) (pair.config 0) (fun _ _ => True) ResumesLocked lockedResumed
      ∧ (lockedResumed.trace.any fun
        | .signVote1 vote _ _ (some locked) => vote.view = 3 && locked.view = 1
        | _ => false) = true
      ∧ VotingRule lockedResumed.trace := by
  have hfirst : CrashRunWhere (pair.deps 0) (pair.config 0) (fun _ _ => True)
      ResumesLocked lockedOnce := .step (.start () .empty) (by decide +kernel) trivial
  have hrestart : CrashRunWhere (pair.deps 0) (pair.config 0) (fun _ _ => True)
      ResumesLocked (lockedRestart 62) :=
    .restart hfirst ( take_prefix _ _) (by decide +kernel) (.inr (by decide +kernel)) () .empty
  have hrun := crashRun_steps hrestart [.timeout, .task env]
  have hone : OneQcPerView lockedResumed.trace := by
    have hcheck : ∀ qc ∈ lockedResumed.trace.flatMap qcs, ∀ qc' ∈ lockedResumed.trace.flatMap qcs,
        qc.view = qc'.view → qc.blockHash = qc'.blockHash := by decide +kernel
    exact fun qc qc' hqc hqc' => hcheck qc hqc.mem_qcs qc' hqc'.mem_qcs
  exact ⟨hrun, by decide +kernel, vote1_respects_lock _ _ hrun hone⟩

/-- The leader restarts in view 1, proposes there again, times out, and proposes
in view 2. -/
def lockedForgotten : Engine Unit :=
  steps (pair.deps leader) [.task (envAt 1001), .timeout, .task (envAt 1001)] (lockedRestart 32)

/-- A node that restarts in view 1 loses its highest certificate and keeps its
lock: in view 2 it votes for a block on genesis, against the block of view 1 it
has locked and given its second vote to. -/
theorem vote1_ignores_lock : CrashRun (pair.deps 0) (pair.config 0) lockedForgotten
      ∧ ¬ VotingRule lockedForgotten.trace := by
  have hfirst : CrashRun (pair.deps 0) (pair.config 0) lockedOnce :=
    .step (.start () .empty) (by decide +kernel) trivial
  have hrestart : CrashRun (pair.deps 0) (pair.config 0) (lockedRestart 32) :=
    .restart hfirst ( take_prefix _ _) (by decide +kernel) trivial () .empty
  refine ⟨crashRun_steps hrestart _, fun hrule => ?_⟩
  have hany : lockedForgotten.trace.any (fun
      | .signVote1 _ _ justify (some locked) =>
        justify.view ≤ locked.view && justify.blockHash ≠ locked.blockHash
      | _ => false) = true := by decide +kernel
  obtain ⟨effect, hmem, hbad⟩ := any_eq_true.mp hany
  split at hbad
  · next vote block justify locked =>
      simp only [Bool.and_eq_true, decide_eq_true_eq] at hbad
      rcases hrule vote block justify locked hmem with hlt | heq
      · omega
      · exact hbad.2 heq
  · cases hbad

end Hotmint
