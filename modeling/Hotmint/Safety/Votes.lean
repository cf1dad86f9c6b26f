/-
Released votes, over runs with crashes and restarts.

* `Released`: a vote was sent or counted;
* `Covers`, `ReleasedOk`: the flushed slots and the flushed lock cover every
  released vote, wherever a crash may cut the trace off, and no two released votes
  conflict;
* `SlotInv`, `SlotInv.act`: what is kept in memory, in the buffer and on the disk;
* `released_votes_safe`: **no run with crashes releases two votes of one type in
  one view for different blocks, and every restart restores a lock at least as
  high as every second vote released before**.
-/
import Hotmint.Consensus.Sample
import Hotmint.Proof.Durable

namespace Hotmint

open ConsensusState Sample Engine Effect NodeConfig List

variable {σ : Type} {d : Deps σ} {A : Allowance}
variable {effect : Effect} {x y : Flow σ} {effects trace t : List Effect} {vote : Vote}

/-! ### Released votes and slots -/

/-- An effect that sends or counts a vote. -/
def Effect.releases : Effect → Option Vote
  | .countVote vote => some vote
  | .sendTo _ (.voteMsg vote) | .sendTo _ (.vote2Msg vote) => some vote
  | .broadcast (.voteMsg vote) | .broadcast (.vote2Msg vote) => some vote
  | _ => none

/-- The vote was sent or counted. -/
def Released (trace : List Effect) (vote : Vote) : Prop :=
  ∃ effect ∈ trace, effect.releases = some vote

/-- The slot remembers the vote, or one of a later view. -/
def Covers (slot : VoteSlot) (vote : Vote) : Prop :=
  ∃ view hash, slot = some (view, hash)
    ∧ (vote.view < view ∨ (vote.view = view ∧ vote.blockHash = hash))

/-- The new slot remembers what the old one does. -/
def SlotLe (old new : VoteSlot) : Prop :=
  ∀ view hash, old = some (view, hash) → ∃ view' hash', new = some (view', hash')
    ∧ (view < view' ∨ (view = view' ∧ hash = hash'))

lemma SlotLe.refl (slot : VoteSlot) : SlotLe slot slot :=
  fun view hash h => ⟨view, hash, h, .inr ⟨rfl, rfl⟩⟩

lemma Covers.mono {old new : VoteSlot} (h : SlotLe old new)
    (hvote : Covers old vote) : Covers new vote := by
  obtain ⟨view, hash, hold, hcase⟩ := hvote
  obtain ⟨view', hash', hnew, hle⟩ := h view hash hold
  refine ⟨view', hash', hnew, ?_⟩
  rcases hcase with hlt | ⟨heq, hhash⟩
  · exact .inl (by omega)
  · rcases hle with hlt | ⟨heq', hhash'⟩
    · exact .inl (by omega)
    · exact .inr ⟨heq.trans heq', hhash.trans hhash'⟩

/-- Two votes under one slot do not conflict. -/
lemma Covers.eq_of_slot {vote' : Vote} {slot : VoteSlot} (h : Covers slot vote)
    (hslot : slot = some (vote'.view, vote'.blockHash)) (hview : vote.view = vote'.view) :
    vote.blockHash = vote'.blockHash := by
  obtain ⟨view, hash, hsome, hcase⟩ := h
  obtain ⟨rfl, rfl⟩ := Prod.mk.inj (Option.some.inj (hslot.symm.trans hsome))
  rcases hcase with hlt | ⟨-, hhash⟩
  · omega
  · exact hhash

/-- Second votes are covered by a lock. -/
def LockCovers (locked : Option QuorumCertificate) (vote : Vote) : Prop :=
  vote.voteType = .vote2 → ∃ qc, locked = some qc ∧ vote.view ≤ qc.view

lemma LockCovers.mono {locked locked' : Option QuorumCertificate} (h : QcLe locked locked')
    (hvote : LockCovers locked vote) : LockCovers locked' vote := by
  intro htype
  obtain ⟨qc, hqc, hle⟩ := hvote htype
  obtain ⟨qc', hqc', hle'⟩ := h qc hqc
  exact ⟨qc', hqc', hle.trans hle'⟩

/-! ### On the disk -/

/-- What is flushed covers every released vote, and no two of them conflict.  It
has to hold wherever a crash may cut the trace off. -/
structure ReleasedOk (trace : List Effect) : Prop where
  slot : ∀ vote, Released trace vote →
    Covers ((Disk.after trace).flushed.lastVote vote.voteType) vote
  lock : ∀ vote, Released trace vote → LockCovers (Disk.after trace).flushed.lockedQc vote
  unique : ∀ vote vote', Released trace vote → Released trace vote' →
    vote.voteType = vote'.voteType → vote.view = vote'.view → vote.blockHash = vote'.blockHash

lemma Released.append (h : Released (trace ++ effects) vote) :
    Released trace vote ∨ ∃ effect ∈ effects, effect.releases = some vote := by
  obtain ⟨effect, hmem, heffect⟩ := h
  rcases mem_append.mp hmem with hold | hnew
  · exact .inl ⟨effect, hold, heffect⟩
  · exact .inr ⟨effect, hnew, heffect⟩

/-- Effects that release nothing, and leave at least as much on the disk. -/
lemma ReleasedOk.append (h : ReleasedOk trace) (hnone : ∀ effect ∈ effects, effect.releases = none)
    (hslot : ∀ t, SlotLe ((Disk.after trace).flushed.lastVote t)
      ((Disk.after (trace ++ effects)).flushed.lastVote t))
    (hlock : QcLe (Disk.after trace).flushed.lockedQc
      (Disk.after (trace ++ effects)).flushed.lockedQc) : ReleasedOk (trace ++ effects) := by
  have hold : ∀ vote, Released (trace ++ effects) vote → Released trace vote := by
    intro vote hvote
    rcases hvote.append with hold | ⟨effect, hmem, hnew⟩
    · exact hold
    · rw [hnone effect hmem] at hnew
      cases hnew
  exact ⟨fun vote hvote => (h.slot vote (hold vote hvote)).mono (hslot _),
    fun vote hvote => (h.lock vote (hold vote hvote)).mono hlock,
    fun vote vote' hvote hvote' => h.unique vote vote' (hold vote hvote) (hold vote' hvote')⟩

/-- **A release**: the vote is in the flushed slot, under a flushed lock. -/
lemma ReleasedOk.release (h : ReleasedOk trace) (hvote : effect.releases = some vote)
    (hdisk : Disk.after (trace ++ [effect]) = Disk.after trace)
    (hslot : (Disk.after trace).flushed.lastVote vote.voteType = some (vote.view, vote.blockHash))
    (hlock : LockCovers (Disk.after trace).flushed.lockedQc vote) :
    ReleasedOk (trace ++ [effect]) := by
  have hcases : ∀ v, Released (trace ++ [effect]) v → Released trace v ∨ v = vote := by
    intro v hv
    rcases hv.append with hold | ⟨effect', hmem, hnew⟩
    · exact .inl hold
    · obtain rfl := mem_singleton.mp hmem
      exact .inr (Option.some.inj (hnew.symm.trans hvote))
  refine ⟨fun v hv => ?_, fun v hv => ?_, fun v v' hv hv' htype hview => ?_⟩
  · rw [hdisk]
    rcases hcases v hv with hold | rfl
    · exact h.slot v hold
    · exact ⟨v.view, v.blockHash, hslot, .inr ⟨rfl, rfl⟩⟩
  · rw [hdisk]
    rcases hcases v hv with hold | rfl
    · exact h.lock v hold
    · exact hlock
  · rcases hcases v hv with hold | rfl <;> rcases hcases v' hv' with hold' | rfl
    · exact h.unique v v' hold hold' htype hview
    · exact (htype ▸ h.slot v hold).eq_of_slot hslot hview
    · exact ((htype ▸ h.slot v' hold').eq_of_slot hslot hview.symm).symm
    · rfl

/-- The same with what is buffered, where an act ends. -/
structure BufferedSlots (trace : List Effect) : Prop where
  slot : ∀ t, (Disk.after trace).flushed.lastVote t = (Disk.after trace).cache.lastVote t
  lock : QcLe (Disk.after trace).flushed.lockedQc (Disk.after trace).cache.lockedQc
  released : ReleasedOk trace

/-- Effects that save no slot and no lock, and release no vote. -/
def Effect.keepsSlots : Effect → Bool
  | .save (.lockedQc _) | .save (.lastVote _ _ _) | .crash => false
  | effect => effect.releases.isNone

lemma Effect.keepsSlots_of_free (h : effect.free = true) : effect.keepsSlots = true := by
  cases effect with
  | save | crash | countVote => cases h
  | sendTo target msg | broadcast msg => cases msg <;> first | rfl | cases h
  | _ => rfl

/-- Such an effect keeps what is buffered, and may flush it. -/
lemma Disk.apply_keepsSlots (disk : Disk) (h : effect.keepsSlots = true) :
    (disk.apply effect).cache.lastVote = disk.cache.lastVote
      ∧ (disk.apply effect).cache.lockedQc = disk.cache.lockedQc
      ∧ ((disk.apply effect).flushed = disk.flushed
        ∨ (disk.apply effect).flushed = disk.cache) := by
  cases effect with
  | flush => exact ⟨rfl, rfl, .inr rfl⟩
  | save item =>
    cases item with
    | lockedQc | lastVote => cases h
    | _ => exact ⟨by funext t; cases t <;> rfl, rfl, .inl rfl⟩
  | crash => cases h
  | _ => exact ⟨rfl, rfl, .inl rfl⟩

lemma Effect.releases_of_keepsSlots (h : effect.keepsSlots = true) : effect.releases = none := by
  cases effect with
  | countVote => cases h
  | sendTo target msg | broadcast msg => cases msg <;> first | rfl | cases h
  | _ => rfl

lemma BufferedSlots.concat (h : BufferedSlots trace)
    (heffect : effect.keepsSlots = true) : BufferedSlots (trace ++ [effect]) := by
  obtain ⟨hslots, hlock, hfl⟩ := (Disk.after trace).apply_keepsSlots heffect
  have hslot' : ∀ t, (Disk.after (trace ++ [effect])).flushed.lastVote t
      = (Disk.after trace).flushed.lastVote t := by
    intro t
    rw [Disk.after_concat]
    rcases hfl with heq | heq
    · rw [heq]
    · rw [heq, h.slot]
  have hlock' : QcLe (Disk.after trace).flushed.lockedQc
      (Disk.after (trace ++ [effect])).flushed.lockedQc := by
    rw [Disk.after_concat]
    rcases hfl with heq | heq
    · exact heq ▸ QcLe.refl _
    · exact heq ▸ h.lock
  refine ⟨fun t => ?_, ?_, h.released.append
    (forall_mem_singleton.mpr (releases_of_keepsSlots heffect))
    (fun t => hslot' t ▸ SlotLe.refl _) hlock'⟩
  · rw [hslot', h.slot, Disk.after_concat, hslots]
  · rw [Disk.after_concat, hlock]
    rcases hfl with heq | heq
    · exact heq ▸ h.lock
    · exact heq ▸ QcLe.refl _

/-- An effect that leaves the flushed keys as they are. -/
lemma ReleasedOk.concat (h : ReleasedOk trace) (hnone : effect.releases = none)
    (hdisk : ((Disk.after trace).apply effect).flushed = (Disk.after trace).flushed) :
    ReleasedOk (trace ++ [effect]) := by
  rw [← Disk.after_concat] at hdisk
  exact h.append (forall_mem_singleton.mpr hnone) (fun t => hdisk ▸ SlotLe.refl _)
    (hdisk ▸ QcLe.refl _)

/-- Between a write and its flush the disk stays as it is. -/
lemma ReleasedOk.save (p : List Effect) (item : SavedItem) (h : ReleasedOk p) :
    ReleasedOk (p ++ [.save item]) :=
  h.concat rfl rfl

lemma Effect.releases_of_stored (h : effect.stored = true) : effect.releases = none := by
  cases effect <;> first | rfl | cases h

/-- **Effects that save no slot and no lock, and release no vote.** -/
lemma releasedOk_append (h : EveryPrefix ReleasedOk t)
    (hbuffered : BufferedSlots t) (heffects : ∀ effect ∈ effects, effect.keepsSlots = true) :
    EveryPrefix ReleasedOk (t ++ effects) ∧ BufferedSlots (t ++ effects)
      ∧ (Disk.after (t ++ effects)).cache.lastVote = (Disk.after t).cache.lastVote
      ∧ (Disk.after (t ++ effects)).cache.lockedQc = (Disk.after t).cache.lockedQc := by
  have hstrong : ∀ p (effect : Effect), effect.keepsSlots = true →
      (BufferedSlots p ∧ (Disk.after p).cache.lastVote = (Disk.after t).cache.lastVote
        ∧ (Disk.after p).cache.lockedQc = (Disk.after t).cache.lockedQc) →
      BufferedSlots (p ++ [effect])
        ∧ (Disk.after (p ++ [effect])).cache.lastVote = (Disk.after t).cache.lastVote
        ∧ (Disk.after (p ++ [effect])).cache.lockedQc = (Disk.after t).cache.lockedQc := by
    intro p effect heffect hp
    obtain ⟨hslots, hlock, -⟩ := (Disk.after p).apply_keepsSlots heffect
    refine ⟨hp.1.concat heffect, ?_, ?_⟩
    · rw [Disk.after_concat, hslots]
      exact hp.2.1
    · rw [Disk.after_concat, hlock]
      exact hp.2.2
  exact EveryPrefix.append_of_strong _ hstrong (fun p hp => hp.1.released) h ⟨hbuffered, rfl, rfl⟩
    heffects

/-! ### Every act -/

/-- What holds of the slots and the lock in memory and on the disk. -/
structure SlotInv (x : Flow σ) : Prop where
  buffered : BufferedSlots x.engine.trace
  every : EveryPrefix ReleasedOk x.engine.trace
  slot : (Disk.after x.engine.trace).cache.lastVote = x.engine.state.lastVote
  lock : QcLe (Disk.after x.engine.trace).cache.lockedQc x.engine.state.lockedQc

/-- **A checkpoint** brings the lock to the disk. -/
lemma SlotInv.checkpoint (hpersist : d.hasPersistence = true) (hx : SlotInv x) :
    EveryPrefix ReleasedOk (x.engine.trace ++ x.engine.persistEffects d)
      ∧ BufferedSlots (x.engine.trace ++ x.engine.persistEffects d)
      ∧ (Disk.after (x.engine.trace ++ x.engine.persistEffects d)).cache.lastVote
        = x.engine.state.lastVote
      ∧ (Disk.after (x.engine.trace ++ x.engine.persistEffects d)).cache.lockedQc
        = x.engine.state.lockedQc
      ∧ (Disk.after (x.engine.trace ++ x.engine.persistEffects d)).flushed.lockedQc
        = x.engine.state.lockedQc := by
  obtain ⟨e, φ⟩ := x
  obtain ⟨hcache, hflushed⟩ := Disk.after_persistEffects hpersist e.trace e
  have hlocked := SavedState.persisted_lockedQc hx.lock
  have hslots : ((Disk.after e.trace).cache.persisted e).lastVote
      = (Disk.after e.trace).cache.lastVote := by
    funext t
    cases t <;> rfl
  have hok : ReleasedOk (e.trace ++ e.persistEffects d) := by
    refine hx.every.self.append
      (fun _ hmem => releases_of_stored (stored_persistEffects hmem)) (fun t => ?_) ?_
    · rw [hflushed, hslots, hx.buffered.slot]
      exact SlotLe.refl _
    · rw [hflushed, hlocked]
      exact hx.buffered.lock.trans hx.lock
  refine ⟨everyPrefix_checkpoint hpersist hx.every ReleasedOk.save hok,
    ⟨fun t => by rw [hflushed, hcache], ?_, hok⟩, ?_, ?_, ?_⟩
  · rw [hflushed, hcache]
    exact QcLe.refl _
  · rw [hcache, hslots]
    exact hx.slot
  · rw [hcache, hlocked]
  · rw [hflushed, hlocked]

/-- **A slot is written and flushed**, and then nothing is released. -/
lemma SlotInv.record (hpersist : d.hasPersistence = true) (hx : SlotInv x)
    {t : VoteType} {view : ℕ} {hash : BlockHash}
    (heq : y.engine.trace = x.engine.trace ++ (slotEffects d t view hash ++ [effect]))
    (heffect : effect.keepsSlots = true) (hslot : y.engine.state.lastVote
      = Function.update x.engine.state.lastVote t (some (view, hash)))
    (hle : SlotLe (x.engine.state.lastVote t) (some (view, hash)))
    (hlock : y.engine.state.lockedQc = x.engine.state.lockedQc) : SlotInv y := by
  set slot := [save (.lastVote t view hash)] ++ [.flush] with hset
  have heffects : slotEffects d t view hash = slot := by
    simp [slotEffects, hpersist, hset]
  rw [heffects, ← append_assoc] at heq
  have hcache : (Disk.after (x.engine.trace ++ slot)).cache.lastVote
      = Function.update x.engine.state.lastVote t (some (view, hash)) := by
    rw [Disk.after_append, ← hx.slot]
    funext t'
    cases t <;> cases t' <;> rfl
  have hflushed : (Disk.after (x.engine.trace ++ slot)).flushed
      = (Disk.after (x.engine.trace ++ slot)).cache := by
    rw [Disk.after_append]
    rfl
  have hcacheLock : (Disk.after (x.engine.trace ++ slot)).cache.lockedQc
      = (Disk.after x.engine.trace).cache.lockedQc := by
    rw [Disk.after_append]
    cases t <;> rfl
  have hok : ReleasedOk (x.engine.trace ++ slot) := by
    refine hx.every.self.append (by simp [hset, releases]) (fun t' => ?_) ?_
    · rw [hflushed, hcache, hx.buffered.slot, hx.slot]
      by_cases ht : t' = t
      · subst ht
        rwa [Function.update_self]
      · rw [Function.update_of_ne ht]
        exact SlotLe.refl _
    · rw [hflushed, hcacheLock]
      exact hx.buffered.lock
  obtain ⟨hevery, hend, hslots, hlocks⟩ := releasedOk_append
    (everyPrefix_flush hx.every ReleasedOk.save (forall_mem_singleton.mpr ⟨_, rfl⟩) hok)
    ⟨fun t' => by rw [hflushed], hflushed ▸ QcLe.refl _, hok⟩ (forall_mem_singleton.mpr heffect)
  refine ⟨heq ▸ hend, heq ▸ hevery, ?_, ?_⟩
  · rw [heq, hslots, hcache, hslot]
  · rw [heq, hlocks, hcacheLock, hlock]
    exact hx.lock

/-- An act that saves no slot and no lock, and releases no vote. -/
lemma SlotInv.keeps (hx : SlotInv x) (heq : y.engine.trace = x.engine.trace ++ effects)
    (heffects : ∀ effect ∈ effects, effect.keepsSlots = true)
    (hslot : y.engine.state.lastVote = x.engine.state.lastVote)
    (hlock : QcLe x.engine.state.lockedQc y.engine.state.lockedQc) : SlotInv y := by
  obtain ⟨hevery, hbuffered, hslots, hlocks⟩ := releasedOk_append hx.every hx.buffered heffects
  refine ⟨heq ▸ hbuffered, heq ▸ hevery, ?_, ?_⟩
  · rw [heq, hslots, hx.slot, hslot]
  · rw [heq, hlocks]
    exact hx.lock.trans hlock

/-- An act that writes a checkpoint, and then saves and releases nothing. -/
lemma SlotInv.persist (hpersist : d.hasPersistence = true) (hx : SlotInv x)
    (heq : y.engine.trace = x.engine.trace ++ (x.engine.persistEffects d ++ effects))
    (heffects : ∀ effect ∈ effects, effect.keepsSlots = true)
    (hstate : y.engine.state = x.engine.state) : SlotInv y := by
  obtain ⟨hevery, hbuffered, hslot, hlock, -⟩ := hx.checkpoint hpersist
  obtain ⟨hevery', hbuffered', hslots, hlocks⟩ := releasedOk_append hevery hbuffered heffects
  rw [← append_assoc] at heq
  refine ⟨heq ▸ hbuffered', heq ▸ hevery', ?_, ?_⟩
  · rw [heq, hslots, hslot, hstate]
  · rw [heq, hlocks, hlock, hstate]
    exact QcLe.refl _

/-- **A release** of a vote that is in its slot. -/
lemma SlotInv.release
    (hevery : EveryPrefix ReleasedOk t) (hbuffered : BufferedSlots t)
    (hslot : (Disk.after t).cache.lastVote = x.engine.state.lastVote)
    (hlock : QcLe (Disk.after t).cache.lockedQc x.engine.state.lockedQc)
    (heffect : effect.releases = some vote) (heq : y.engine.trace = t ++ [effect])
    (hvote : x.engine.state.lastVote vote.voteType = some (vote.view, vote.blockHash))
    (hcovers : LockCovers (Disk.after t).flushed.lockedQc vote)
    (hstate : y.engine.state = x.engine.state) : SlotInv y := by
  have hdisk : Disk.after (t ++ [effect]) = Disk.after t := by
    rw [Disk.after_concat]
    cases effect <;> first | rfl | cases heffect
  have hok : ReleasedOk (t ++ [effect]) := by
    refine hbuffered.released.release heffect hdisk ?_ hcovers
    rw [hbuffered.slot, hslot, hvote]
  refine ⟨?_, ?_, ?_, ?_⟩
  · rw [heq]
    exact ⟨hdisk ▸ hbuffered.slot, hdisk ▸ hbuffered.lock, hok⟩
  · rw [heq]
    exact hevery.concat hok
  · rw [heq, hdisk, hstate, hslot]
  · rw [heq, hdisk, hstate]
    exact hlock

lemma keepsSlots_unlogEffects (env : Env) (height : ℕ) :
    ∀ effect ∈ unlogEffects d env height, effect.keepsSlots = true := by
  intro effect hmem
  rcases mem_unlogEffects hmem with ⟨entry, rfl⟩ | rfl <;> rfl

lemma keepsSlots_commit (dc : DoubleCertificate) (calls : List AppCall) (outcome : CommitOutcome) :
    ∀ effect ∈ Effect.tryCommit dc :: calls.map .app ++ failureEffects outcome,
      effect.keepsSlots = true := by
  intro effect hmem
  rcases mem_commitEffects hmem with rfl | ⟨call, -, rfl⟩ | ⟨err, -, rfl⟩ <;> rfl

lemma lastVote_ext {st st' : ConsensusState} (h1 : st'.lastVote1 = st.lastVote1)
    (h2 : st'.lastVote2 = st.lastVote2) : st'.lastVote = st.lastVote := by
  funext t
  cases t
  · exact h1
  · exact h2

/-- **Every act keeps released votes covered.** -/
lemma SlotInv.act (hpersist : d.hasPersistence = true) (h : Act d A x y)
    (hx : SlotInv x) : SlotInv y := by
  have hlock := h.qcLe_lockedQc
  obtain ⟨effects, heq, hdisk⟩ := h.disk
  cases hdisk with
  | free hfree hvote1 hvote2 _ _ _ =>
    exact hx.keeps heq (fun effect hmem => keepsSlots_of_free (hfree effect hmem))
      (lastVote_ext hvote1 hvote2) hlock
  | vote1 vote block justify htracked _ _ =>
    cases htracked with
    | vote1 _ _ _ _ hslot hengine _ _ _ =>
      refine hx.record hpersist heq rfl ?_ (fun v b hold => ⟨_, _, rfl, hslot v b hold⟩) ?_
      · rw [hengine]
        funext t
        cases t <;> rfl
      · rw [hengine]
  | vote2 vote qc htracked _ =>
    cases htracked with
    | vote2 _ _ _ _ hslot hengine _ _ _ =>
      refine hx.record hpersist heq rfl ?_ (fun v b hold => ⟨_, _, rfl, hslot v b hold⟩) ?_
      · rw [hengine]
        funext t
        cases t <;> rfl
      · rw [hengine]
  | release1 vote effect heffect htype hslot hstate _ =>
    have hreleases : effect.releases = some vote := by
      rcases heffect with rfl | ⟨leader, rfl⟩ <;> rfl
    refine SlotInv.release hx.every hx.buffered hx.slot hx.lock hreleases heq ?_ ?_ hstate
    · rw [htype]
      exact hslot
    · intro htype'
      rw [htype] at htype'
      cases htype'
  | release2 vote effect heffect htype hslot hcovers hstate _ _ =>
    have hreleases : effect.releases = some vote := by
      rcases heffect with rfl | ⟨leader, rfl⟩ <;> rfl
    obtain ⟨hevery, hbuffered, hslot', hlock', hflushed⟩ := hx.checkpoint hpersist
    rw [← append_assoc] at heq
    refine SlotInv.release hevery hbuffered hslot' (hlock' ▸ QcLe.refl _) hreleases heq ?_ ?_ hstate
    · rw [htype]
      exact hslot
    · rw [hflushed]
      exact fun _ => hcovers
  | persist hstate _ _ =>
    rw [← append_nil (x.engine.persistEffects d)] at heq
    exact hx.persist hpersist heq (by simp) hstate
  | saved env hstate _ _ =>
    exact hx.persist hpersist heq (keepsSlots_unlogEffects env _) hstate
  | intent height hstate _ _ =>
    exact hx.keeps heq (by simp [keepsSlots, releases]) (hstate ▸ rfl) hlock
  | unlog env height hstate _ _ =>
    exact hx.keeps heq (keepsSlots_unlogEffects env height) (hstate ▸ rfl) hlock
  | commit dc _ _ hvote1 hvote2 _ _ _ _ =>
    exact hx.keeps heq (keepsSlots_commit dc _ _) (lastVote_ext hvote1 hvote2) hlock

/-! ### Starts and restarts -/

lemma keepsSlots_checkpointEffects (e : Engine σ) :
    ∀ effect ∈ checkpointEffects d e, effect.keepsSlots = true := by
  unfold checkpointEffects
  split_ifs <;> simp [keepsSlots, releases]

/-- The slots and the lock a start restores. -/
lemma NodeConfig.launch_votes (d : Deps σ) (cfg : NodeConfig) (t : List Effect) (app : σ)
    (evidence : EvidenceStore) :
    (cfg.launch d t app evidence).state.lastVote = (Disk.after t).flushed.lastVote
      ∧ (cfg.launch d t app evidence).state.lockedQc = (Disk.after t).flushed.lockedQc := by
  have hslots : (prepared d cfg t app evidence).state.lastVote
      = (Disk.after t).flushed.lastVote := by
    funext t
    cases t <;> rfl
  rw [launch_eq]
  rcases (prepared d cfg t app evidence).start_cases with
    heq | ⟨-, step, role, tasks, -, heq⟩ | ⟨-, heq⟩
  · rw [heq]
    exact ⟨hslots, rfl⟩
  · rw [heq]
    exact ⟨hslots, rfl⟩
  · rw [heq]
    exact ⟨hslots, rfl⟩

/-- **A start** on a directory whose flushed slots cover the released votes. -/
lemma SlotInv.launch {cfg : NodeConfig} {app : σ} {evidence : EvidenceStore}
    (hsame : (Disk.after t).cache = (Disk.after t).flushed) (hevery : EveryPrefix ReleasedOk t) :
    SlotInv ⟨cfg.launch d t app evidence, .idle⟩ := by
  obtain ⟨hslot, hlock⟩ := launch_votes d cfg t app evidence
  have htrace := launch_trace d cfg t app evidence
  have hbuffered : BufferedSlots t :=
    ⟨fun _ => by rw [hsame], hsame ▸ QcLe.refl _, hevery.self⟩
  obtain ⟨hevery', hbuffered', hslots, hlocks⟩ := releasedOk_append hevery hbuffered
    (keepsSlots_checkpointEffects (cfg.construct t app evidence))
  refine ⟨htrace ▸ hbuffered', htrace ▸ hevery', ?_, ?_⟩
  · rw [htrace, hslots, hslot, hsame]
  · rw [htrace, hlocks, hlock, hsame]
    exact QcLe.refl _

lemma releasedOk_nil : ReleasedOk [] := by
  have hnone : ∀ vote, ¬ Released [] vote := by
    rintro vote ⟨effect, hmem, -⟩
    cases hmem
  exact ⟨fun vote h => absurd h (hnone vote), fun vote h => absurd h (hnone vote),
    fun vote _ h => absurd h (hnone vote)⟩

/-- The history a restart begins with is in order if it was before the crash. -/
lemma releasedOk_restartTrace {p : List Effect} (h : EveryPrefix ReleasedOk p) :
    EveryPrefix ReleasedOk (restartTrace p) :=
  everyPrefix_restartTrace h (fun _ hq => hq.concat rfl rfl) fun _ hq => hq.concat rfl rfl

/-! ### Every run -/

/-- **No lost or conflicting votes.**  In every run with crashes of a node that
persists its state, no two released votes of one type and view are for different
blocks; and wherever the run is cut off, a restart restores a lock at least as high
as every second vote released before. -/
theorem released_votes_safe (d : Deps σ) (cfg : NodeConfig) (hpersist : d.hasPersistence = true)
    {e : Engine σ} (hrun : CrashRun d cfg e) :
    (∀ vote vote', Released e.trace vote → Released e.trace vote' →
        vote.voteType = vote'.voteType → vote.view = vote'.view →
        vote.blockHash = vote'.blockHash)
      ∧ ∀ p, p <+: e.trace → ∀ app evidence vote, Released p vote → vote.voteType = .vote2 →
        ∃ locked, (cfg.launch d (restartTrace p) app evidence).state.lockedQc
          = some locked ∧ vote.view ≤ locked.view := by
  have hrestart : ∀ (e : Engine σ) (φ : Phase) p app evidence, SlotInv ⟨e, φ⟩ → p <+: e.trace →
      recovery p = .clean → True →
      SlotInv ⟨cfg.launch d (restartTrace p) app evidence, .idle⟩ := by
    intro e φ p app evidence hI hp _ _
    obtain ⟨hcache, hflushed, -⟩ := Disk.after_restartTrace p
    exact SlotInv.launch (hcache.trans hflushed.symm) (releasedOk_restartTrace (hI.every.of_le hp))
  obtain ⟨φ, -, -, hinv⟩ := CrashRunWhere.invariant (A := .all)
    (fun x y _ h hx => SlotInv.act hpersist h hx) (fun e label _ => labelOk_all label)
    holds_all (fun app evidence => SlotInv.launch rfl (.nil releasedOk_nil)) hrestart hrun
  refine ⟨hinv.every.self.unique, fun p hp app evidence vote hvote htype => ?_⟩
  have hlock := (launch_votes d cfg (restartTrace p) app evidence).2
  rw [hlock, (Disk.after_restartTrace p).2.1]
  exact (hinv.every p hp).lock vote hvote htype

/-! Validator 0 of `Sample.pair` votes twice in view 1 and dies right after its second
vote.  After the restart it proposes another block in view 1, is refused its votes
there, times out, and votes twice in view 2. -/

/-- The first step of the leader. -/
def votedOnce : Engine Unit :=
  ((pair.config leader).launch (pair.deps leader) [] () .empty).apply (pair.deps leader) (.task env)

/-- The leader after its restart. -/
def votedAgain : Engine Unit :=
  steps (pair.deps leader) [.task (envAt 1001), .timeout, .task (envAt 1001)]
    ((pair.config leader).launch (pair.deps leader)
      (restartTrace (votedOnce.trace.take 32)) () .empty)

theorem released_votes_safe_again : CrashRun (pair.deps 0) (pair.config 0) votedAgain
      ∧ (votedAgain.trace.filterMap releases).map (·.view) = [1, 1, 2, 2]
      ∧ (∀ vote vote', Released votedAgain.trace vote → Released votedAgain.trace vote' →
        vote.voteType = vote'.voteType → vote.view = vote'.view →
        vote.blockHash = vote'.blockHash)
      ∧ ∀ p, p <+: votedAgain.trace → ∀ app evidence vote, Released p vote →
        vote.voteType = .vote2 → ∃ locked, ((pair.config 0).launch (pair.deps 0)
          (restartTrace p) app evidence).state.lockedQc = some locked
            ∧ vote.view ≤ locked.view := by
  have hfirst : CrashRun (pair.deps 0) (pair.config 0) votedOnce :=
    .step (.start () .empty) (by decide +kernel) trivial
  have hrun : CrashRun (pair.deps 0) (pair.config 0) votedAgain :=
    crashRun_steps (.restart hfirst ( take_prefix _ _) (by decide +kernel) trivial () .empty) _
  exact ⟨hrun, by decide +kernel, released_votes_safe _ _ rfl hrun⟩

end Hotmint
