/-
What the store has for every committed height.

* `BlockStore.Pinned`: **a commit certificate pins the height index** to the block it
  certifies, whatever is stored in whatever order;
* `executedAt`: the block that was executed last at a height;
* `CommitsCertified`: a step executes blocks that its double certificates certify, or
  that have a commit certificate already;
* `IndexInv`: the committed heights in the course of a step, kept by `Act.indexInv`;
* `committed_index`: **so every committed height has its block and a certificate for it**;
* `commitQc_missing`: a node that proposes on a block of its own that it has not
  committed has no certificate for that block.
-/
import Hotmint.Safety.Execution
import Hotmint.Safety.Resumed

namespace Hotmint

open Sample Engine List Option BlockStore
variable {block : Block} {s store : BlockStore} {result : CommitResult} {effects : List Effect}
  {h : ℕ}
variable {target : Block} {blocks : List Block} {lastCommitted : ℕ}
variable {before : BlockStore} {pairs : List (Block × Option EndBlockResponse)}
  {effects' t : List Effect} {n : ℕ}

/-! ### The height index -/

namespace BlockStore

/-- **The index is pinned** after any writes. -/
lemma Pinned.applyWrites (hs : s.Pinned) (effects : List Effect) :
    (applyWrites effects s).Pinned := by
  induction effects generalizing s with
  | nil => exact hs
  | cons effect effects ih =>
    have hone : (applyWrites [effect] s).Pinned := by
      cases effect with
      | putBlock block => exact hs.putBlock block
      | putCommitQc height qc => exact hs.putCommitQc height qc
      | _ => exact hs
    exact ih hone

/-- The store has a commit certificate for the block. -/
def certifies (s : BlockStore) (block : Block) : Bool :=
  (s.getCommitQc block.height).any fun qc => qc.blockHash = block.hash

lemma certifies_iff : s.certifies block = true
    ↔ ∃ qc, s.getCommitQc block.height = some qc ∧ qc.blockHash = block.hash := by
  unfold certifies
  rw [Option.any_eq_true]
  simp

/-- A certified block that is stored is found under its height. -/
lemma Pinned.getBlockByHeight (hs : s.Pinned)
    (hstored : s.getBlock block.hash = some block) (hcert : s.certifies block = true) :
    s.getBlockByHeight block.height = some block := by
  obtain ⟨qc, hqc, hhash⟩ := certifies_iff.mp hcert
  have hindex := hs _ qc block hqc (hhash ▸ hstored) rfl
  unfold BlockStore.getBlockByHeight
  rw [hindex, hhash]
  exact hstored

end BlockStore

variable {σ : Type} {d : Deps σ} {A : Allowance}

/-! ### The executed blocks -/

/-- The block that was executed last at a height. -/
def executedAt (trace : List Effect) (h : ℕ) : Option Block :=
  (((executions trace).map (·.1)).filter (·.height = h)).getLast?

lemma executedAt_append (t t' : List Effect) (h : ℕ) :
    executedAt (t ++ t') h = (executedAt t' h).or (executedAt t h) := by
  unfold executedAt
  rw [executions_append, map_append, filter_append, getLast?_append]

lemma executedAt_height {trace : List Effect}
    (hblock : executedAt trace h = some block) : block.height = h := by
  have hmem := mem_of_getLast? hblock
  exact of_decide_eq_true (mem_filter.mp hmem).2

/-- Effects that execute no block of a height leave it as it was. -/
lemma executedAt_of_not_mem (hnone : h ∉ ((executions effects).map (·.1)).map (·.height)) :
    executedAt (t ++ effects) h = executedAt t h := by
  have hempty : ((executions effects).map (·.1)).filter (·.height = h) = [] := by
    refine filter_eq_nil_iff.mpr fun block hblock heq => hnone ?_
    exact mem_map.mpr ⟨block, hblock, of_decide_eq_true heq⟩
  rw [executedAt_append]
  unfold executedAt
  rw [hempty]
  rfl

/-- Among blocks of different heights, each is the last of its height. -/
lemma executedAt_of_mem (hnodup : (((executions effects).map (·.1)).map (·.height)).Nodup)
    (hmem : block ∈ (executions effects).map (·.1)) :
    executedAt (t ++ effects) block.height = some block := by
  have hfiltered : block ∈ ((executions effects).map (·.1)).filter (·.height = block.height) :=
    mem_filter.mpr ⟨hmem, decide_eq_true rfl⟩
  have hlast : executedAt effects block.height = some block := by
    cases hfind : executedAt effects block.height with
    | none =>
      rw [executedAt, getLast?_eq_none_iff] at hfind
      rw [hfind] at hfiltered
      cases hfiltered
    | some last =>
      have hin := (mem_filter.mp (mem_of_getLast? hfind)).1
      rw [inj_on_of_nodup_map hnodup hin hmem (executedAt_height hfind)]
  rw [executedAt_append, hlast, some_or]

/-! ### The condition -/

/-- The block that `try_commit` is called for. -/
def Effect.tried : Effect → Option BlockHash
  | .tryCommit dc => some dc.innerQc.blockHash
  | _ => none

/-- Every executed block is the one that `try_commit` was called for last, or has a commit
certificate in the store. -/
def certifiedRuns (store : BlockStore) : Option BlockHash → List Effect → Bool
  | _, [] => true
  | target, effect :: effects =>
    (effect.execution.all fun p => decide (target = some p.1.hash) || store.certifies p.1)
      && certifiedRuns store (effect.tried.or target) effects

/-- A step executes only blocks that the double certificates handed to `try_commit` certify, and
blocks that have a commit certificate in the store before the step. -/
def CommitsCertified (d : Deps σ) (e : Engine σ) (label : Label) : Prop :=
  certifiedRuns e.store none (e.stepEffects d label) = true

instance (d : Deps σ) (e : Engine σ) (label : Label) : Decidable (CommitsCertified d e label) :=
  inferInstanceAs (Decidable (_ = true))

lemma certifiedRuns_left {target : Option BlockHash}
    (h : certifiedRuns store target (effects ++ effects') = true) :
    certifiedRuns store target effects = true := by
  induction effects generalizing target with
  | nil => rfl
  | cons effect effects ih =>
    obtain ⟨hone, hrest⟩ := Bool.and_eq_true_iff.mp h
    exact Bool.and_eq_true_iff.mpr ⟨hone, ih hrest⟩

lemma certifiedRuns_right {target : Option BlockHash}
    (h : certifiedRuns store target (effects ++ effects') = true) :
    ∃ target', certifiedRuns store target' effects' = true := by
  induction effects generalizing target with
  | nil => exact ⟨target, h⟩
  | cons effect effects ih => exact ih (Bool.and_eq_true_iff.mp h).2

/-- The blocks of a commit that meets the condition. -/
lemma certifiedRuns_calls {hash : BlockHash} {calls : List AppCall}
    (h : certifiedRuns store (some hash) (calls.map .app ++ effects) = true)
    {p : Block × BlockContext} (hp : p ∈ executed calls) :
    hash = p.1.hash ∨ store.certifies p.1 = true := by
  induction calls with
  | nil => cases hp
  | cons call calls ih =>
    obtain ⟨hone, hrest⟩ := Bool.and_eq_true_iff.mp h
    have hcons : executed (call :: calls) = executed [call] ++ executed calls :=
      executed_append [call] calls
    rw [hcons] at hp
    rcases mem_append.mp hp with hfirst | hlater
    · obtain ⟨call', hcall, hexec⟩ := mem_filterMap.mp hfirst
      obtain rfl := mem_singleton.mp hcall
      have hcheck := (all_eq_true _ _).mp hone p hexec
      rcases Bool.or_eq_true_iff.mp hcheck with htarget | hcert
      · exact .inl (some.inj (of_decide_eq_true htarget))
      · exact .inr hcert
    · exact ih hrest hlater

/-! ### Processing a commit -/

/-- The writes for one block put the certificate at its height, if it is the certified one. -/
lemma getCommitQc_storeEffects (qc : QuorumCertificate) (p : Block × Option EndBlockResponse)
    (s : BlockStore) (h : ℕ) : (applyWrites (storeEffects qc p) s).getCommitQc h
      = if qc.blockHash = p.1.hash ∧ h = p.1.height then some qc else s.getCommitQc h := by
  obtain ⟨block, response⟩ := p
  unfold storeEffects
  by_cases hhash : qc.blockHash = block.hash
  · rw [if_pos hhash]
    have hput : (s.putCommitQc block.height qc).getCommitQc h
        = if qc.blockHash = block.hash ∧ h = block.height then some qc else s.getCommitQc h := by
      rw [getCommitQc_putCommitQc]
      simp [hhash]
    cases response <;> exact hput
  · rw [if_neg hhash, if_neg fun hboth => hhash hboth.1]
    cases response <;> rfl

/-- The writes for blocks leave the certificates of other heights. -/
lemma getCommitQc_writes_of_ne (qc : QuorumCertificate) (s : BlockStore)
    (hne : ∀ p ∈ pairs, p.1.height ≠ h) :
    (applyWrites (pairs.flatMap (storeEffects qc)) s).getCommitQc h = s.getCommitQc h := by
  induction pairs generalizing s with
  | nil => rfl
  | cons p pairs ih =>
    rw [flatMap_cons, applyWrites_append,
      ih _ fun q hq => hne q (.tail _ hq), getCommitQc_storeEffects,
      if_neg fun hboth => hne p mem_cons_self hboth.2.symm]

/-- After the writes a block is certified if it was before, or if it is the one among them that
the certificate is for. -/
lemma certifies_writes {qc : QuorumCertificate}
    (hunique : ∀ p ∈ pairs, p.1.height = block.height → p.1 = block)
    (h : s.certifies block = true ∨ (qc.blockHash = block.hash ∧ ∃ p ∈ pairs, p.1 = block)) :
    (applyWrites (pairs.flatMap (storeEffects qc)) s).certifies block = true := by
  induction pairs generalizing s with
  | nil =>
    rcases h with hold | ⟨-, p, hp, -⟩
    · exact hold
    · cases hp
  | cons p pairs ih =>
    rw [flatMap_cons, applyWrites_append]
    refine ih (fun q hq => hunique q (.tail _ hq)) ?_
    have hfirst := getCommitQc_storeEffects qc p s block.height
    by_cases hthis : qc.blockHash = p.1.hash ∧ block.height = p.1.height
    · rw [if_pos hthis] at hfirst
      have hblock := hunique p mem_cons_self hthis.2.symm
      exact .inl (certifies_iff.mpr ⟨qc, hfirst, hblock ▸ hthis.1⟩)
    · rw [if_neg hthis] at hfirst
      rcases h with hold | ⟨hqc, q, hq, rfl⟩
      · refine .inl ?_
        unfold certifies
        rw [hfirst]
        exact hold
      · rcases mem_cons.mp hq with rfl | hlater
        · exact absurd ⟨hqc, rfl⟩ hthis
        · exact .inr ⟨hqc, q, hlater, rfl⟩

/-- The blocks of a processed commit, with what is written for each. -/
lemma mem_settled {p : Block × Option EndBlockResponse}
    (h : p ∈ result.committedBlocks.zipIdx.map fun p => (p.1, result.blockResponses[p.2]?)) :
    p.1 ∈ result.committedBlocks := by
  obtain ⟨q, hq, rfl⟩ := mem_map.mp h
  exact fst_mem_of_mem_zipIdx hq

lemma exists_settled (h : block ∈ result.committedBlocks) :
    ∃ p ∈ result.committedBlocks.zipIdx.map fun p => (p.1, result.blockResponses[p.2]?),
      p.1 = block := by
  obtain ⟨i, hi⟩ := getElem?_of_mem h
  have hzip : (block, i) ∈ result.committedBlocks.zipIdx := mem_zipIdx_iff_getElem?.mpr hi
  exact ⟨_, mem_map.mpr ⟨_, hzip, rfl⟩, rfl⟩

/-! ### The committed heights -/

/-- The block of a committed height is stored, and certified unless it is the last of a commit
that is still to be processed. -/
structure CommittedAt (x : Flow σ) (h : ℕ) (block : Block) : Prop where
  executed : executedAt x.engine.trace h = some block
  stored : x.engine.store.getBlock block.hash = some block
  certified : x.engine.store.certifies block = true ∨ ∃ result, x.phase = .executed result
    ∧ block ∈ result.committedBlocks ∧ result.commitQc.blockHash = block.hash

/-- The committed heights in the course of a step that began with the given store. -/
structure IndexInv (before : BlockStore) (x : Flow σ) : Prop where
  pinned : x.engine.store.Pinned
  kept : ∀ h qc, x.engine.state.lastCommittedHeight < h → before.getCommitQc h = some qc →
    x.engine.store.getCommitQc h = some qc
  counted : x.phase ≠ .dead → ∀ h, 1 ≤ h → h ≤ x.engine.state.lastCommittedHeight →
    ∃ block, CommittedAt x h block
  batch : ∀ result, x.phase = .executed result → ∀ block ∈ result.committedBlocks,
    block.height ≤ x.engine.state.lastCommittedHeight
      ∧ executedAt x.engine.trace block.height = some block

/-- While a commit waits to be processed, the store does not change. -/
lemma Act.executed_cases {x y : Flow σ} (h : Act d A x y) (hphase : x.phase = .executed result) :
    (y.phase = .executed result ∧ y.engine.store = x.engine.store) ∨ (y.phase = .adopted result
        ∧ y.engine.store = applyWrites (settleEffects result) x.engine.store) := by
  obtain ⟨e, φ⟩ := x
  obtain rfl : φ = .executed result := hphase
  cases h with
  | quiet h => exact .inl ⟨rfl, h.store⟩
  | vote1 block justify hsign _ _ _ _ _ =>
    obtain ⟨-, rfl, -⟩ := signVote1_spec hsign
    exact .inl ⟨rfl, rfl⟩
  | release1 _ _ _ _ _ _ => exact .inl ⟨rfl, rfl⟩
  | settle => exact .inr ⟨rfl, by rw [settle_eq]⟩

namespace IndexInv

variable {before : BlockStore} {x y : Flow σ}

lemma executedAt_eq (htrace : y.engine.trace = x.engine.trace ++ effects)
    (hnone : executions effects = []) (h : ℕ) :
    executedAt y.engine.trace h = executedAt x.engine.trace h := by
  rw [htrace]
  refine executedAt_of_not_mem ?_
  rw [hnone]
  exact not_mem_nil

section

variable (hx : IndexInv before x) (htrace : y.engine.trace = x.engine.trace ++ effects)
  (hnone : executions effects = [])
  (hlast : y.engine.state.lastCommittedHeight = x.engine.state.lastCommittedHeight)

include hx htrace hnone hlast

/-- An act that executes nothing and takes nothing from the store. -/
lemma frame (hphase : ∀ result, y.phase = .executed result ↔ x.phase = .executed result)
    (hdead : x.phase = .dead → y.phase = .dead) (hpinned : y.engine.store.Pinned)
    (hqc : ∀ h qc, x.engine.store.getCommitQc h = some qc → y.engine.store.getCommitQc h = some qc)
    (hblock : ∀ block, x.engine.store.getBlock block.hash = some block →
      y.engine.store.getBlock block.hash = some block) : IndexInv before y where
  pinned := hpinned
  kept h qc hlt hbefore := hqc h qc (hx.kept h qc (hlast ▸ hlt) hbefore)
  counted halive h hpos hle := by
    obtain ⟨block, hcommitted⟩ := hx.counted (fun hstop => halive (hdead hstop)) h hpos
      (hlast ▸ hle)
    refine ⟨block, (executedAt_eq htrace hnone h).trans hcommitted.executed,
      hblock block hcommitted.stored, ?_⟩
    rcases hcommitted.certified with hcert | ⟨result, hresult, hmem⟩
    · obtain ⟨qc, hget, hhash⟩ := certifies_iff.mp hcert
      exact .inl (certifies_iff.mpr ⟨qc, hqc _ qc hget, hhash⟩)
    · exact .inr ⟨result, (hphase result).mpr hresult, hmem⟩
  batch result hresult block hmem := by
    obtain ⟨hle, hexec⟩ := hx.batch result ((hphase result).mp hresult) block hmem
    exact ⟨hlast ▸ hle, (executedAt_eq htrace hnone _).trans hexec⟩

/-- The commit is processed. -/
lemma settle (hphase : x.phase = .executed result) (hphase' : y.phase = .adopted result)
    (hstore : y.engine.store = applyWrites (settleEffects result) x.engine.store) :
    IndexInv before y where
  pinned := hstore ▸ hx.pinned.applyWrites _
  kept h qc hlt hbefore := by
    rw [hstore]
    unfold settleEffects
    rw [getCommitQc_writes_of_ne]
    · exact hx.kept h qc (hlast ▸ hlt) hbefore
    · intro p hp
      have hle := (hx.batch result hphase p.1 (mem_settled hp)).1
      omega
  counted halive h hpos hle := by
    have hrunning : x.phase ≠ .dead := by
      intro hstop
      rw [hphase] at hstop
      cases hstop
    obtain ⟨block, hcommitted⟩ := hx.counted hrunning h hpos (hlast ▸ hle)
    have hheight := executedAt_height hcommitted.executed
    refine ⟨block, (executedAt_eq htrace hnone h).trans hcommitted.executed, ?_, .inl ?_⟩
    · rw [hstore, getBlock_settle]
      exact hcommitted.stored
    · rw [hstore]
      refine certifies_writes (fun p hp heq => ?_) ?_
      · -- both were executed last at this height
        have hexec := (hx.batch result hphase p.1 (mem_settled hp)).2
        rw [heq, hheight, hcommitted.executed] at hexec
        exact (some.inj hexec).symm
      · rcases hcommitted.certified with hcert | ⟨result', hresult', hmem, hhash⟩
        · exact .inl hcert
        · obtain rfl := Phase.executed.inj (hphase.symm.trans hresult')
          exact .inr ⟨hhash, exists_settled hmem⟩
  batch result' hresult' := by
    rw [hphase'] at hresult'
    cases hresult'

end

end IndexInv

/-- The blocks of a walk are stored under their hashes. -/
lemma StoredInv.stored_of_walk {c : Crypto} {e : Engine σ} (he : StoredInv c e)
    (h : Walk e.store lastCommitted target blocks)
    (htarget : e.store.getBlock target.hash = some target) :
    ∀ block ∈ blocks, e.store.getBlock block.hash = some block := by
  induction h with
  | last _ _ _ _ _ =>
    intro block hmem
    rw [mem_singleton.mp hmem]
    exact htarget
  | step hparent _ _ ih =>
    have hparent' := ih ((he.getBlock _ _ hparent).1 ▸ hparent)
    intro block hmem
    rcases mem_append.mp hmem with hbelow | hlast
    · exact hparent' block hbelow
    · rw [mem_singleton.mp hlast]
      exact htarget

/-- What `try_commit` runs: nothing, or the first blocks of a walk to its target.  Unless the
application panics or a block fails, the commit is for the whole walk. -/
inductive BatchRun (e : Engine σ) (dc : DoubleCertificate) (run : CommitRun σ) : Prop
  | nothing (hcalls : executed run.calls = [])
      (hlast : run.lastCommittedHeight = e.state.lastCommittedHeight)
      (hphase : phaseAfter run.outcome = .idle)
  | chain {target : Block} {blocks : List Block} (n : ℕ)
      (htarget : e.store.getBlock dc.innerQc.blockHash = some target)
      (hwalk : Walk e.store e.state.lastCommittedHeight target blocks) (hle : n ≤ blocks.length)
      (hran : (executed run.calls).map (·.1) = blocks.take n)
      (hlast : e.state.lastCommittedHeight ≤ run.lastCommittedHeight
        ∧ run.lastCommittedHeight ≤ e.state.lastCommittedHeight + n)
      (hphase : phaseAfter run.outcome = .dead ∨ (phaseAfter run.outcome = .idle
          ∧ run.lastCommittedHeight < e.state.lastCommittedHeight + blocks.length)
        ∨ ∃ result, phaseAfter run.outcome = .executed result ∧ result.committedBlocks = blocks
          ∧ result.commitQc = dc.innerQc ∧ n = blocks.length
          ∧ run.lastCommittedHeight = e.state.lastCommittedHeight + n)

lemma Engine.batchRun (d : Deps σ) (e : Engine σ) (dc : DoubleCertificate) :
    BatchRun e dc (e.commitRun d dc) := by
  cases e.commitTrace d dc with
  | nothing hcalls hheight houtcome =>
    refine .nothing (by rw [hcalls]; rfl) hheight ?_
    rcases houtcome with ⟨err, herr, -⟩ | ⟨result, hok, hempty⟩
    · rw [herr]
      rfl
    · rw [hok, phaseAfter, hempty]
      rfl
  | @chain target blocks ending z htarget hwalk hchain houtcome hcalls hheight =>
    obtain ⟨n, hle, hran, hall, hcount⟩ := hchain.executed_take hwalk.heights.1
    replace hcount : (z.lastCommittedHeight = e.state.lastCommittedHeight + n
          ∧ ∀ err, ending ≠ .failed err)
        ∨ (ending ≠ .completed
          ∧ ∃ m, n = m + 1 ∧ z.lastCommittedHeight = e.state.lastCommittedHeight + m) := hcount
    have hlast : e.state.lastCommittedHeight ≤ z.lastCommittedHeight
        ∧ z.lastCommittedHeight ≤ e.state.lastCommittedHeight + n := by
      rcases hcount with ⟨hcount, -⟩ | ⟨-, m, rfl, hcount⟩ <;> omega
    have hne : blocks.isEmpty = false := by
      cases hblocks : blocks with
      | nil =>
        have htop := hwalk.getLast
        rw [hblocks] at htop
        cases htop
      | cons _ _ => rfl
    refine .chain n htarget hwalk hle (by rw [hcalls, hran]; rfl) (hheight ▸ hlast) ?_
    rw [houtcome, hheight]
    cases ending with
    | completed =>
      refine .inr (.inr ⟨⟨blocks, dc.innerQc, z.pending, z.activated, z.lastAppHash,
        z.responses⟩, ?_, rfl, rfl, hall rfl, ?_⟩)
      · rw [outcomeOf, phaseAfter, hne]
        rfl
      · rcases hcount with ⟨hcount, -⟩ | ⟨hstop, -⟩
        · exact hcount
        · exact absurd rfl hstop
    | failed err =>
      rcases hcount with ⟨-, hend⟩ | ⟨-, m, rfl, hcount⟩
      · exact absurd rfl (hend err)
      · exact .inr (.inl ⟨rfl, by omega⟩)
    | panicked => exact .inl rfl

namespace IndexInv

variable {before : BlockStore} {x y : Flow σ}

/-- Heights that a commit executes are above those that were committed. -/
lemma executed_above (hwalk : Walk store lastCommitted target blocks) (hle : h ≤ lastCommitted) :
    h ∉ (blocks.take n).map (·.height) := by
  intro hmem
  rw [map_take, hwalk.heights.1] at hmem
  have hrange := mem_range'_1.mp (mem_of_mem_take hmem)
  omega

/-- Each height of a walk is that of one of its blocks. -/
lemma exists_block (hwalk : Walk store lastCommitted target blocks) (hn : n ≤ blocks.length)
    (hlt : lastCommitted < h) (hle : h ≤ lastCommitted + n) :
    ∃ block ∈ blocks.take n, block.height = h := by
  have hmem : h ∈ (blocks.take n).map (·.height) := by
    rw [map_take, hwalk.heights.1, take_range'_of_length_ge hn]
    exact mem_range'_1.mpr ⟨hlt, by omega⟩
  exact mem_map.mp hmem

/-- The commit is executed.  Its blocks are certified already, or the last of them is by its
double certificate. -/
lemma commit (hx : IndexInv before x) (hstored : StoredInv d.crypto x.engine)
    {dc : DoubleCertificate} (hidle : x.phase = .idle)
    (htrace : y.engine.trace = x.engine.trace ++ (.tryCommit dc
      :: (x.engine.commitRun d dc).calls.map .app
        ++ failureEffects (x.engine.commitRun d dc).outcome))
    (hphase : y.phase = phaseAfter (x.engine.commitRun d dc).outcome)
    (hlast : y.engine.state.lastCommittedHeight = (x.engine.commitRun d dc).lastCommittedHeight)
    (hstore : y.engine.store = x.engine.store)
    (hruns : ∀ p ∈ executed (x.engine.commitRun d dc).calls,
      dc.innerQc.blockHash = p.1.hash ∨ before.certifies p.1 = true) : IndexInv before y := by
  have hran := executions_commit dc (x.engine.commitRun d dc).calls
    (x.engine.commitRun d dc).outcome
  have hbatch := x.engine.batchRun d dc
  generalize x.engine.commitRun d dc = run at *
  cases hbatch with
  | nothing hcalls hkept hidle' =>
    refine hx.frame htrace (hran.trans hcalls) (hlast.trans hkept) (fun result => ?_)
      (fun hdead => ?_) (hstore ▸ hx.pinned) (fun h qc hqc => hstore ▸ hqc)
      fun block hblock => hstore ▸ hblock
    · rw [hphase, hidle', hidle]
    · rw [hidle] at hdead
      cases hdead
  | @chain target blocks n htarget hwalk hle htaken hcount hend =>
    have htop : x.engine.store.getBlock target.hash = some target :=
      (hstored.getBlock _ _ htarget).1.symm ▸ htarget
    -- the blocks that were executed, and where they are found
    have hblocks : (executions (.tryCommit dc :: run.calls.map .app
        ++ failureEffects run.outcome)).map (·.1) = blocks.take n := by
      rw [hran, htaken]
    have hnodup : ((blocks.take n).map (·.height)).Nodup := by
      rw [map_take, hwalk.heights.1]
      exact (nodup_range' 1).sublist (take_sublist _ _)
    have hexecuted : ∀ block ∈ blocks.take n,
        executedAt y.engine.trace block.height = some block := by
      intro block hmem
      rw [htrace]
      rw [← hblocks] at hnodup hmem
      exact executedAt_of_mem hnodup hmem
    refine ⟨hstore ▸ hx.pinned, fun h qc hlt hbefore => ?_, fun halive h hpos hbound => ?_,
      fun result hresult block hmem => ?_⟩
    · rw [hstore]
      exact hx.kept h qc (by omega) hbefore
    · by_cases hold : h ≤ x.engine.state.lastCommittedHeight
      · -- committed before
        obtain ⟨block, hcommitted⟩ := hx.counted (by rw [hidle]; exact Phase.noConfusion) h hpos
          hold
        have hsame : executedAt y.engine.trace h = executedAt x.engine.trace h := by
          rw [htrace]
          refine executedAt_of_not_mem ?_
          rw [hblocks]
          exact executed_above hwalk hold
        refine ⟨block, hsame.trans hcommitted.executed, hstore ▸ hcommitted.stored, .inl ?_⟩
        rcases hcommitted.certified with hcert | ⟨result, hresult, -⟩
        · exact hstore ▸ hcert
        · rw [hidle] at hresult
          cases hresult
      · -- committed now
        obtain ⟨block, hmem, rfl⟩ :=
          exists_block hwalk hle (Nat.lt_of_not_le hold) (by omega)
        have hblock := hstored.stored_of_walk hwalk htop block (mem_of_mem_take hmem)
        refine ⟨block, hexecuted block hmem, hstore ▸ hblock, ?_⟩
        obtain ⟨p, hp, rfl⟩ := mem_map.mp (htaken ▸ hmem)
        rcases hruns p hp with hhash | hcert
        · rcases hend with hdead | ⟨-, hlt⟩ | ⟨result, hresult, hall, hqc, -⟩
          · exact absurd (hphase.trans hdead) halive
          · -- the target itself is not reached by a commit that fails
            rw [hhash, hblock] at htarget
            have hheight := congrArg Block.height (some.inj htarget)
            have htip := hwalk.heights.2
            omega
          · exact .inr ⟨result, hphase.trans hresult, hall ▸ mem_of_mem_take hmem,
              by rw [hqc, hhash]⟩
        · obtain ⟨qc, hqc, hhash⟩ := certifies_iff.mp hcert
          refine .inl (certifies_iff.mpr ⟨qc, ?_, hhash⟩)
          rw [hstore]
          exact hx.kept _ qc (by omega) hqc
    · rcases hend with hdead | ⟨hidle', -⟩ | ⟨result', hresult', hall, -, rfl, hsum⟩
      · rw [hphase, hdead] at hresult
        cases hresult
      · rw [hphase, hidle'] at hresult
        cases hresult
      · obtain rfl := Phase.executed.inj (hresult'.symm.trans (hphase.symm.trans hresult))
        rw [hall] at hmem
        rw [take_length] at hexecuted
        refine ⟨?_, hexecuted block hmem⟩
        have hheight : block.height ∈ blocks.map (·.height) := mem_map_of_mem hmem
        rw [hwalk.heights.1] at hheight
        have hrange := mem_range'_1.mp hheight
        omega

end IndexInv

/-- **Every act keeps the committed heights in order**, if the blocks that it executes meet the
condition. -/
lemma Act.indexInv {x y : Flow σ} (h : Act d A x y)
    (hstored : StoredInv d.crypto x.engine) (hcoll : HashInjective (KnownBlock y.engine.trace))
    (hruns : ∀ effects, y.engine.trace = x.engine.trace ++ effects →
      ∃ target, certifiedRuns before target effects = true)
    (hx : IndexInv before x) : IndexInv before y := by
  obtain ⟨effects, htrace, hdisk⟩ := h.disk
  rcases hdisk.outside_or_commit with
    ⟨hnone, hlast, -, hphase, -⟩ | ⟨dc, hidle, hphase, hlast, -, hstore, rfl⟩
  · have hempty : executions effects = [] := by
      rw [ranHeights_eq, map_eq_nil_iff] at hnone
      exact hnone
    by_cases hexecuted : ∃ result, x.phase = .executed result
    · obtain ⟨result, hresult⟩ := hexecuted
      rcases h.executed_cases hresult with ⟨hsame, hstore⟩ | ⟨hadopted, hstore⟩
      · exact hx.frame htrace hempty hlast (fun result' => by rw [hsame, hresult])
          (fun hdead => hphase.dead hdead) (hstore ▸ hx.pinned) (fun _ _ hqc => hstore ▸ hqc)
          fun _ hblock => hstore ▸ hblock
      · exact hx.settle htrace hempty hlast hresult hadopted hstore
    · have hnot : ∀ result, y.phase ≠ .executed result := by
        intro result hresult
        rcases hphase with hsame | ⟨result', hold, -⟩ | ⟨-, -, hidle⟩
        · exact hexecuted ⟨result, hsame ▸ hresult⟩
        · exact hexecuted ⟨result', hold⟩
        · rw [hidle] at hresult
          cases hresult
      have hphases : ∀ result, y.phase = .executed result ↔ x.phase = .executed result :=
        fun result => iff_of_false (hnot result) fun hold => hexecuted ⟨result, hold⟩
      rcases h.store with hstore | ⟨new, hnew, hstore⟩ | ⟨height, qc, hqc, hstore⟩
        | ⟨result, hold, -⟩
      · exact hx.frame htrace hempty hlast hphases (fun hdead => hphase.dead hdead)
          (hstore ▸ hx.pinned) (fun _ _ hqc => hstore ▸ hqc) fun _ hblock => hstore ▸ hblock
      · refine hx.frame htrace hempty hlast hphases (fun hdead => hphase.dead hdead)
          (hstore ▸ hx.pinned.putBlock new) (fun h' qc hqc => ?_) fun block hblock => ?_
        · rw [hstore, getCommitQc_putBlock]
          exact hqc
        · rw [hstore, getBlock_putBlock]
          split_ifs with hhash
          · -- a block with the same hash is the same block
            have hknown := (hstored.getBlock _ _ hblock).2.mono h.trace_grows.subset
            rw [hcoll block new hknown (.inr hnew) hhash]
          · exact hblock
      · refine hx.frame htrace hempty hlast hphases (fun hdead => hphase.dead hdead)
          (hstore ▸ hx.pinned.putCommitQc height qc) (fun h' qc' hqc' => ?_) fun block hblock => ?_
        · rw [hstore, getCommitQc_putCommitQc]
          split_ifs with heq
          · rw [heq, hqc] at hqc'
            cases hqc'
          · exact hqc'
        · rw [hstore, getBlock_putCommitQc]
          exact hblock
      · exact absurd ⟨result, hold⟩ hexecuted
  · obtain ⟨target, hcertified⟩ := hruns _ htrace
    refine hx.commit hstored hidle htrace hphase hlast hstore fun p hp => ?_
    have hrest := (Bool.and_eq_true_iff.mp hcertified).2
    exact certifiedRuns_calls hrest hp

/-! ### Every run -/

/-- The committed heights between two steps. -/
structure Indexed (e : Engine σ) : Prop where
  pinned : e.store.Pinned
  counted : e.halted = false → ∀ h, 1 ≤ h → h ≤ e.state.lastCommittedHeight →
    ∃ block, executedAt e.trace h = some block ∧ e.store.getBlock block.hash = some block
      ∧ e.store.certifies block = true

namespace Indexed

variable {e : Engine σ} {label : Label}

lemma indexInv (h : Indexed e) (halive : e.halted = false) : IndexInv e.store ⟨e, .idle⟩ where
  pinned := h.pinned
  kept _ _ _ hqc := hqc
  counted _ height hpos hle := by
    obtain ⟨block, hexecuted, hstored, hcert⟩ := h.counted halive height hpos hle
    exact ⟨block, hexecuted, hstored, .inl hcert⟩
  batch _ hresult := by cases hresult

lemma of_indexInv {φ : Phase} (hφ : φ = .idle ∨ e.halted = true)
    (h : IndexInv before ⟨e, φ⟩) : Indexed e where
  pinned := h.pinned
  counted halive height hpos hle := by
    obtain rfl : φ = .idle := hφ.resolve_right (by rw [halive]; exact Bool.false_ne_true)
    obtain ⟨block, hexecuted, hstored, hcert | ⟨result, hresult, -⟩⟩ :=
      h.counted Phase.noConfusion height hpos hle
    · exact ⟨block, hexecuted, hstored, hcert⟩
    · cases hresult

/-- **One step.** -/
lemma step (h : Indexed e) (henabled : e.enabled label = true) (htodo : TodoOk .all e)
    (hstored : StoredInv d.crypto e) (hcert : CommitsCertified d e label)
    (hcoll : HashInjective (KnownBlock (e.apply d label).trace)) :
    TodoOk .all (e.apply d label) ∧ StoredInv d.crypto (e.apply d label)
      ∧ Indexed (e.apply d label) := by
  unfold CommitsCertified stepEffects at hcert
  have hreach := reach_apply (d := d) (labelOk_all label) htodo (holds_all e)
  generalize e.apply d label = final at *
  -- what is known of an act is that its effects are among those of the step
  have hact : ∀ x y, Act d .all x y →
      (TodoOk .all x.engine ∧ StoredInv d.crypto x.engine ∧ e.trace <+: x.engine.trace
        ∧ (x.engine.trace <+: final.trace → IndexInv e.store x)) →
      TodoOk .all y.engine ∧ StoredInv d.crypto y.engine ∧ e.trace <+: y.engine.trace
        ∧ (y.engine.trace <+: final.trace → IndexInv e.store y) := by
    rintro x y hxy ⟨htodo, hstored, hpre, hindex⟩
    refine ⟨hxy.todoOk htodo, hxy.storedInv hstored, hpre.trans hxy.trace_grows, fun hpost => ?_⟩
    refine hxy.indexInv hstored (fun b b' hb hb' => hcoll b b' (hb.mono hpost.subset)
      (hb'.mono hpost.subset)) (fun effects heffects => ?_) (hindex (hxy.trace_grows.trans hpost))
    obtain ⟨first, hfirst⟩ := hpre
    obtain ⟨rest, hrest⟩ := hpost
    rw [← hrest, heffects, ← hfirst, append_assoc, append_assoc, drop_left] at hcert
    obtain ⟨target, htarget⟩ := certifiedRuns_right hcert
    exact ⟨target, certifiedRuns_left htarget⟩
  obtain ⟨φ, hφ, htodo', hstored', -, hindex⟩ := hreach.invariant hact ⟨htodo, hstored,
    prefix_refl _, fun _ => h.indexInv (not_halted_of_enabled henabled)⟩
  exact ⟨htodo', hstored', of_indexInv hφ (hindex (prefix_refl _))⟩

end Indexed

lemma Fresh.indexed {cfg : NodeConfig} {e : Engine σ} (h : Fresh cfg e) : Indexed e where
  pinned := h.store ▸ pinned_new
  counted _ height hpos hle := by
    rw [h.lastCommittedHeight] at hle
    omega

/-- **The committed index.**  In every crash-free run of a node from genesis whose steps execute
only blocks that their double certificates certify and blocks that have a commit certificate
already, the height index gives for every committed height the block that was executed there,
and the commit certificate of the height is for that block. -/
theorem committed_index (d : Deps σ) (cfg : NodeConfig) (app : σ) (evidence : EvidenceStore)
    {e : Engine σ} (hrun : RunWhere d (CommitsCertified d) (cfg.launch d [] app evidence) e)
    (hcoll : HashInjective (KnownBlock e.trace)) (halive : e.halted = false) {h : ℕ} (hpos : 1 ≤ h)
    (hle : h ≤ e.state.lastCommittedHeight) :
    ∃ block qc, executedAt e.trace h = some block ∧ e.store.getBlockByHeight h = some block
      ∧ e.store.getCommitQc h = some qc ∧ qc.blockHash = block.hash := by
  have hfresh := fresh_launch d cfg app evidence
  have hkept : HashInjective (KnownBlock e.trace) →
      TodoOk .all e ∧ StoredInv d.crypto e ∧ Indexed e := by
    clear hcoll halive hle
    induction hrun with
    | refl => exact fun _ => ⟨hfresh.todoOk, hfresh.storedInv, hfresh.indexed⟩
    | @tail e₁ _ _ hstep ih =>
      intro hcoll
      cases hstep with
      | @step label henabled hcert =>
        have hgrows := (ends_apply (d := d) e₁ label).grows.subset
        obtain ⟨htodo, hstored, hindexed⟩ :=
          ih fun b b' hb hb' => hcoll b b' (hb.mono hgrows) (hb'.mono hgrows)
        exact hindexed.step henabled htodo hstored hcert hcoll
  obtain ⟨-, -, hindexed⟩ := hkept hcoll
  obtain ⟨block, hexecuted, hstored, hcert⟩ := hindexed.counted halive h hpos hle
  obtain rfl := executedAt_height hexecuted
  obtain ⟨qc, hqc, hhash⟩ := certifies_iff.mp hcert
  exact ⟨block, qc, hexecuted, hindexed.pinned.getBlockByHeight hstored hcert, hqc, hhash⟩

/-! Validator 0 of `Sample.pair` commits its blocks one by one. -/

/-- What a check of the stored blocks says about collisions. -/
lemma hashInjective_known {e : Engine Unit} (hcheck : ∀ b ∈ Block.genesis :: storedBlocks e,
      ∀ b' ∈ Block.genesis :: storedBlocks e, b.hash = b'.hash → b = b') :
    HashInjective (KnownBlock e.trace) := by
  have hlisted : ∀ b, KnownBlock e.trace b → b ∈ Block.genesis :: storedBlocks e := by
    rintro b (rfl | hmem)
    · exact .head _
    · exact .tail _ (mem_storedBlocks hmem)
  exact fun b b' hb hb' => hcheck b (hlisted b hb) b' (hlisted b' hb')

/-- The leader of `Sample.pair` after two views. -/
def indexedTwo : Engine Unit :=
  ((pair.init leader).apply (pair.deps leader) (.task env)).apply (pair.deps leader) (.task env)

theorem committed_index_two : RunWhere (pair.deps 0) (CommitsCertified (pair.deps 0)) (pair.init 0)
        indexedTwo
      ∧ indexedTwo.state.lastCommittedHeight = 2
      ∧ ∃ block qc, executedAt indexedTwo.trace 2 = some block
        ∧ indexedTwo.store.getBlockByHeight 2 = some block
        ∧ indexedTwo.store.getCommitQc 2 = some qc ∧ qc.blockHash = block.hash := by
  have hrun : RunWhere (pair.deps 0) (CommitsCertified (pair.deps 0)) (pair.init 0) indexedTwo :=
    .tail (.single (.step (by decide +kernel) (by decide +kernel)))
      (.step (by decide +kernel) (by decide +kernel))
  exact ⟨hrun, by decide +kernel, committed_index (pair.deps 0) (pair.config 0) ()
    .empty hrun (hashInjective_known (by decide +kernel)) (by decide +kernel) (by decide)
    (by decide +kernel)⟩

/-- The validator of power 3 gets from view 2 to view 4 by timeouts, and commits its blocks of both
views there. -/
def skipping : Fin 1 → Engine Unit :=
  outcome (solo fun _ => []) [.task only, .task only, .timeout only, .timeout only, .task only]

/-- Its block of view 2 is executed at height 2, and has no commit certificate. -/
theorem commitQc_missing : (solo fun _ => []).Run skipping ∧ (solo fun _ => []).FaultBound [1]
      ∧ (skipping 0).halted = false ∧ (skipping 0).state.lastCommittedHeight = 3
      ∧ (executedAt (skipping 0).trace 2).isSome = true
      ∧ (skipping 0).store.getCommitQc 2 = none :=
  ⟨run_outcome _ rfl _, ⟨by decide +kernel, by decide +kernel⟩, by decide +kernel,
    by decide +kernel, by decide +kernel, by decide +kernel⟩

end Hotmint
