/-
What a certificate accepted from a peer proves about the committed chain.

A replay and a light client accept a block on one certificate of first votes.
The protocol can leave such certificates behind for blocks it never commits
(`catchUp_unsound`), so what they accept is the committed block only below a
certificate that is at least as young as the double certificate of the commit
(`catchUp_sound`).
-/
import Hotmint.Light.Client
import Hotmint.Safety.Agreement
import Hotmint.Safety.Replay

namespace Hotmint

open Sample

namespace Network

variable {ι σ τ : Type} {N : Network ι σ} {faulty : List ℕ} {s : ι → Engine σ}

/-- A client of the network: it starts from the network's validator set and chain,
and its application keeps the set. -/
structure IsClient (N : Network ι σ) (d : SyncDeps τ) (st : SyncState τ) : Prop where
  crypto : d.crypto = N.crypto
  keepsSet : d.app.KeepsSet N.validatorSet
  chainIdHash : st.chainIdHash = N.chainIdHash
  epochs : SyncState.EpochsFixed N.validatorSet st st.pendingEpoch

/-- Block hashes are collision-free among the blocks the nodes have stored and
those of a list. -/
def CollisionFreeWith (N : Network ι σ) (s : ι → Engine σ) (blocks : List Block) : Prop :=
  ∀ b, (∃ i, Effect.putBlock b ∈ (s i).trace) ∨ b ∈ blocks →
    N.crypto.computeHash b ≠ BlockHash.genesis
      ∧ ∀ b', (∃ i, Effect.putBlock b' ∈ (s i).trace) ∨ b' ∈ blocks →
        N.crypto.computeHash b = N.crypto.computeHash b' → b = b'

/-- The node has committed the block, and has a double certificate for it or a
descendant of it. -/
def CommittedBy (e : Engine σ) (dc : DoubleCertificate) (block : Block) : Prop :=
  Committed e block ∧ FinalizedBy e.trace dc block

/-- The blocks of a run, and some others with their own hashes, share no hash. -/
lemma CollisionFreeWith.hashInjective {blocks : List Block} (hcoll : N.CollisionFreeWith s blocks)
    (hstored : ∀ i, StoredInv N.crypto (s i)) : HashInjective fun b =>
      Known s b ∨ (b ∈ blocks ∧ b.hash = N.crypto.computeHash b) := by
  -- every such block is the genesis block, or has its computed hash
  have hcases : ∀ b, Known s b ∨ (b ∈ blocks ∧ b.hash = N.crypto.computeHash b) →
      b = Block.genesis ∨ (((∃ i, Effect.putBlock b ∈ (s i).trace) ∨ b ∈ blocks)
        ∧ b.hash = N.crypto.computeHash b) := by
    rintro b (⟨i, rfl | hput⟩ | ⟨hmem, hhash⟩)
    · exact .inl rfl
    · exact .inr ⟨.inl ⟨i, hput⟩, (hstored i).hashed b hput⟩
    · exact .inr ⟨.inr hmem, hhash⟩
  intro b b' hb hb' heq
  rcases hcases b hb with rfl | ⟨hmem, hhash⟩ <;> rcases hcases b' hb' with rfl | ⟨hmem', hhash'⟩
  · rfl
  · exact absurd (hhash'.symm.trans heq.symm) (hcoll b' hmem').1
  · exact absurd (hhash.symm.trans heq) (hcoll b hmem).1
  · exact (hcoll b hmem).2 b' hmem' (hhash.symm.trans (heq.trans hhash'))

/-- Every certified hash is the hash of a block an honest node has stored. -/
lemma HistoryInv.known_of_proved (hbound : N.FaultBound faulty) {H : History ι}
    (h : N.HistoryInv faulty s H) {view : ℕ} {hash : BlockHash}
    (hproved : N.Proved faulty H .vote view hash) : ∃ b, Known s b ∧ b.hash = hash := by
  obtain ⟨S, hquorum, hvoted⟩ := hproved
  obtain ⟨i, hi, -⟩ := IsQuorum.inter hbound S S hquorum hquorum
  obtain ⟨pv, p, hmem⟩ := hvoted i hi
  obtain ⟨b, -, hb, hhash, -⟩ := (h.vote i).block _ _ _ _ hmem
  exact ⟨b, ⟨i, hb⟩, hhash⟩

section

variable [DecidableEq ι] (hbound : N.FaultBound faulty) (hfixed : N.FixedSet) (hrun : N.Run s)
  {i : ι} {dc : DoubleCertificate} {committed : Block}
  (hcommitted : CommittedBy (s i) dc committed)

include hbound hfixed hrun hcommitted

/-- A block that a replay accepts is the committed one, if the replay also accepts
a block at its height or above on a certificate not older than the commit. -/
lemma replay_sound {d : SyncDeps τ} {env : ℕ → Env}
    {st : SyncState τ} {blocks : List (Block × Option QuorumCertificate)}
    (hclient : N.IsClient d st)
    (hcoll : N.CollisionFreeWith s (blocks.map (·.1)))
    (hauth : ∀ entry ∈ blocks, ∀ cert, entry.2 = some cert →
      ∀ sig ∈ cert.signatures, N.AuthenticSignature s sig)
    {block top : Block} {qc : Option QuorumCertificate} {topQc : QuorumCertificate}
    (hblock : st.Accepts d env blocks block qc) (htop : st.Accepts d env blocks top (some topQc))
    (hle : block.height ≤ top.height) (hview : dc.outerQc.view ≤ topQc.view)
    (hheight : block.height = committed.height) : block = committed := by
  have hstored := hrun.stored
  have hB := hcoll.hashInjective hstored
  obtain ⟨H, hH⟩ := hrun.history hbound hB (.inl ⟨i, .inl rfl⟩)
    (fun _ => .inl hfixed) fun j b hb => .inl ⟨j, hb⟩
  obtain ⟨hhash, cert, hcert, hfor, hverify⟩ := htop.certified hclient.keepsSet hclient.epochs
  cases hcert
  -- the certificate of the top block is proved, so it descends from the committed block
  have hproved : N.Proved faulty H .vote topQc.view top.hash := by
    rw [hclient.crypto, hclient.chainIdHash] at hverify
    simp only [Sync.verifyVoteAggregate, Bool.and_eq_true] at hverify
    rw [← hfor]
    exact proved_of_signatures hbound (hH.signedVoted hstored) hverify.2 hverify.1.2
      (hauth _ htop.mem topQc rfl)
  have hchain : ∀ b qc, st.Accepts d env blocks b qc →
      Known s b ∨ (b ∈ blocks.map (·.1) ∧ b.hash = N.crypto.computeHash b) := by
    intro b qc haccepts
    have hown := (haccepts.certified hclient.keepsSet hclient.epochs).1
    rw [hclient.crypto] at hown
    exact .inr ⟨List.mem_map.mpr ⟨_, haccepts.mem, rfl⟩, hown⟩
  have hdesc := hH.ancestor_of_certified hbound hB (fun b hb => .inl hb) (hchain _ _ htop)
    hcommitted.2 hproved hview
  exact (hblock.ancestor htop hchain hle).unique hB hdesc hheight

/-- A header hash that a light client accepts is the one of the committed block,
if the header states the height of its block and its certificate is not older
than the commit. -/
lemma header_sound {client client' : LightClient} {header : BlockHeader} {qc : QuorumCertificate}
    (hset : client.trustedValidatorSet = N.validatorSet)
    (hchain : client.chainIdHash = N.chainIdHash) (hcoll : N.CollisionFreeWith s [])
    (hauth : ∀ sig ∈ qc.signatures, N.AuthenticSignature s sig)
    (haccept : client.verifyHeader N.crypto header qc = .ok client')
    (hgenuine : ∀ b, Known s b → b.hash = header.hash → b.height = header.height)
    (hview : dc.outerQc.view ≤ qc.view) (hheight : header.height = committed.height) :
    header.hash = committed.hash := by
  have hstored := hrun.stored
  have hB := hcoll.hashInjective hstored
  obtain ⟨H, hH⟩ := hrun.history hbound hB (.inl ⟨i, .inl rfl⟩)
    (fun _ => .inl hfixed) fun j b hb => .inl ⟨j, hb⟩
  obtain ⟨-, -, hfor, hcert, -⟩ := LightClient.verifyHeader_ok haccept
  obtain ⟨hquorum, -, hsigners⟩ := LightClient.checkCertificate_ok hcert
  rw [hset] at hquorum hsigners
  rw [hchain] at hsigners
  have hproved := proved_of_signatures hbound (hH.signedVoted hstored) hquorum hsigners hauth
  obtain ⟨b, hknown, hhash⟩ := hH.known_of_proved hbound hproved
  rw [← hhash] at hproved
  have hdesc := hH.ancestor_of_certified hbound hB (fun b hb => .inl hb) (.inl hknown)
    hcommitted.2 hproved hview
  have hbheight := hgenuine b hknown (hhash.trans hfor)
  rw [hdesc.eq_of_height (by omega), hhash, hfor]

end

/-- **Soundness of certified catch-up.**  Let an honest node have committed a block
by some double certificate.  A block that a replay accepts at its height is that
block, if the replay also accepts, there or above, a certificate that is not older
than the double certificate; a header hash that a light client accepts at its
height is its hash, if the header states its block's height and the certificate is
not older either. -/
theorem catchUp_sound [DecidableEq ι] (N : Network ι σ) (faulty : List ℕ)
    (hbound : N.FaultBound faulty) (hfixed : N.FixedSet) (s : ι → Engine σ) (hrun : N.Run s)
    {i : ι} {dc : DoubleCertificate} {committed : Block}
    (hcommitted : CommittedBy (s i) dc committed) :
    (∀ (d : SyncDeps τ) (env : ℕ → Env) (st : SyncState τ)
        (blocks : List (Block × Option QuorumCertificate)), N.IsClient d st →
        N.CollisionFreeWith s (blocks.map (·.1)) →
        (∀ entry ∈ blocks, ∀ cert, entry.2 = some cert →
          ∀ sig ∈ cert.signatures, N.AuthenticSignature s sig) →
        ∀ block qc top topQc, st.Accepts d env blocks block qc →
          st.Accepts d env blocks top (some topQc) → block.height ≤ top.height →
          dc.outerQc.view ≤ topQc.view → block.height = committed.height → block = committed)
      ∧ ∀ (client client' : LightClient) (header : BlockHeader) (qc : QuorumCertificate),
        client.trustedValidatorSet = N.validatorSet → client.chainIdHash = N.chainIdHash →
        N.CollisionFreeWith s [] → (∀ sig ∈ qc.signatures, N.AuthenticSignature s sig) →
        client.verifyHeader N.crypto header qc = .ok client' →
        (∀ b, Known s b → b.hash = header.hash → b.height = header.height) →
        dc.outerQc.view ≤ qc.view → header.height = committed.height →
        header.hash = committed.hash := by
  refine ⟨fun d env st blocks hclient hcoll hauth block qc top topQc hblock htop hle hview
      hheight => ?_, fun client client' header qc hset hchain hcoll hauth haccept hgenuine hview
      hheight => ?_⟩
  · exact replay_sound hbound hfixed hrun hcommitted hclient hcoll hauth hblock htop hle hview
      hheight
  · exact header_sound hbound hfixed hrun hcommitted hset hchain hcoll hauth haccept hgenuine
      hview hheight

/-! A leader of view 1 that is faulty gets the votes of the only honest validator
for its block, and keeps the certificate to itself.  The honest validator times
out, proposes another block in view 2 and commits it.  A client that is given the
block of view 2 ends with the committed block; one that is given the block of view
1 does not. -/

/-- One honest validator of power 5, and two faulty ones of power 1. -/
def lone : Network (Fin 1) Unit :=
  Sample.network (Sample.validatorSet [1, 1, 5]) (fun _ => 2) (fun i j _ => Subsingleton.elim i j)
    fun _ => []

/-- The block of view 1. -/
def orphan : Block := block 1 BlockHash.genesis 1 1

/-- The block of view 2. -/
def settled : Block := block 1 BlockHash.genesis 2 2

/-- The honest validator votes for the one and commits the other. -/
def orphanState : Fin 1 → Engine Unit :=
  outcome lone [.inject only (proposal 0 orphan
    (genesisQc lone.validatorSet) none []), .timeout only, .task only]

/-- A client that starts at genesis. -/
def syncDeps : SyncDeps Unit :=
  ⟨Sample.crypto, Sample.application fun _ => [], true, true, fun _ => false⟩

/-- Its state. -/
def syncStart : SyncState Unit :=
  ⟨BlockStore.new, (), Epoch.genesis lone.validatorSet, 0, BlockHash.genesis, 0#256, none, none, []⟩

/-- The certificate of the honest validator for a block. -/
def loneQc (block : Block) : QuorumCertificate :=
  qc lone.validatorSet [2] .vote 0 block.view block.hash

lemma lone_faultBound : lone.FaultBound [0, 1] := ⟨by decide +kernel, by decide +kernel⟩

lemma lone_fixedSet : lone.FixedSet := fun _ => keepsSet_sample (by decide +kernel)

lemma lone_isClient : lone.IsClient syncDeps syncStart :=
  ⟨rfl, keepsSet_sample (by decide +kernel), rfl, rfl, nofun⟩

/-- The signatures of both certificates are the validator's own. -/
lemma authentic_loneQc : ∀ block ∈ [orphan, settled], ∀ sig ∈ (loneQc block).signatures,
    lone.AuthenticSignature orphanState sig := by
  have hcheck : ∀ block ∈ [orphan, settled], ∀ sig ∈ (loneQc block).signatures,
      Sample.genuine lone orphanState sig = true := by decide +kernel
  exact fun block hblock sig hsig =>
    Sample.signed_of_genuine lone rfl (hcheck block hblock sig hsig)

lemma collisionFree_orphanState {blocks : List Block} (h : blocks ⊆ [orphan, settled]) :
    lone.CollisionFreeWith orphanState blocks := by
  have hcheck : ∀ b ∈ Sample.storedBlocks (orphanState 0) ++ [orphan, settled],
      Sample.blockHash b ≠ BlockHash.genesis
        ∧ ∀ b' ∈ Sample.storedBlocks (orphanState 0) ++ [orphan, settled],
          Sample.blockHash b = Sample.blockHash b' → b = b' := by decide +kernel
  have hmem : ∀ b, (∃ i, Effect.putBlock b ∈ (orphanState i).trace) ∨ b ∈ blocks →
      b ∈ Sample.storedBlocks (orphanState 0) ++ [orphan, settled] := by
    rintro b (⟨i, hput⟩ | hmem)
    · rw [Subsingleton.elim i 0] at hput
      exact List.mem_append_left _ (Sample.mem_storedBlocks hput)
    · exact List.mem_append_right _ (h hmem)
  intro b hb
  exact ⟨(hcheck b (hmem b hb)).1, fun b' hb' => (hcheck b (hmem b hb)).2 b' (hmem b' hb')⟩

theorem catchUp_sound_settled :
    CommittedBy (orphanState 0) (Sample.dc lone.validatorSet [2] 0 2 settled.hash) settled
      ∧ (∀ block qc, syncStart.Accepts syncDeps (fun _ => Sample.env)
          [(settled, some (loneQc settled))] block qc → block.height = 1 → block = settled)
      ∧ ∀ header client', (LightClient.new lone.validatorSet 0 0#256).verifyHeader Sample.crypto
          header (loneQc settled) = .ok client' → header.hash = settled.hash := by
  have hknown : KnownBlock (orphanState 0).trace settled := .inr (by decide +kernel)
  have hcommitted : CommittedBy (orphanState 0) (Sample.dc lone.validatorSet [2] 0 2 settled.hash)
      settled :=
    ⟨Sample.committed_of_mem (by decide +kernel), .inr (by decide +kernel), settled, hknown, rfl,
      .refl⟩
  obtain ⟨hreplay, hlight⟩ := catchUp_sound lone [0, 1] lone_faultBound lone_fixedSet orphanState
    (Sample.run_outcome _ rfl _) hcommitted
  refine ⟨hcommitted, fun block qc hblock hheight => ?_, fun header client' haccept => ?_⟩
  · have htop : syncStart.Accepts syncDeps (fun _ => Sample.env)
        [(settled, some (loneQc settled))] settled (some (loneQc settled)) :=
      SyncState.accepts_of_done (by decide +kernel) (by simp)
    refine hreplay syncDeps _ syncStart _ lone_isClient (collisionFree_orphanState (by simp)) ?_
      block qc settled (loneQc settled) hblock htop (by rw [hheight]; decide) (by decide)
      (by rw [hheight]; decide)
    intro entry hentry cert hcert
    obtain rfl := List.mem_singleton.mp hentry
    cases hcert
    exact authentic_loneQc settled (by simp)
  · obtain ⟨hheight, -, hfor, -⟩ := LightClient.verifyHeader_ok haccept
    refine hlight _ client' _ _ rfl rfl (collisionFree_orphanState (by simp))
      (authentic_loneQc settled (by simp)) haccept (fun b hb hhash => ?_) (by decide) hheight
    have hcheck : ∀ b ∈ Block.genesis :: Sample.storedBlocks (orphanState 0),
        b.hash = settled.hash → b.height = 1 := by decide +kernel
    obtain ⟨i, hb⟩ := hb
    rw [Subsingleton.elim i 0] at hb
    rw [hheight]
    exact hcheck b (List.mem_cons.mpr (hb.imp_right Sample.mem_storedBlocks))
      (hhash.trans hfor.symm)

/-- A replay and a light client accept the block of view 1 at height 1, where the
honest validator has committed the block of view 2. -/
theorem catchUp_unsound : lone.FaultBound [0, 1] ∧ lone.FixedSet ∧ lone.Run orphanState
    ∧ lone.IsClient syncDeps syncStart ∧ lone.CollisionFreeWith orphanState [orphan]
    ∧ (∀ sig ∈ (loneQc orphan).signatures, lone.AuthenticSignature orphanState sig)
    ∧ syncStart.Accepts syncDeps (fun _ => Sample.env) [(orphan, some (loneQc orphan))] orphan
      (some (loneQc orphan))
    ∧ (∃ client', (LightClient.new lone.validatorSet 0 lone.chainIdHash).verifyHeader Sample.crypto
      (.ofBlock orphan) (loneQc orphan) = .ok client')
    ∧ Committed (orphanState 0) settled ∧ orphan.height = settled.height
    ∧ orphan.hash ≠ settled.hash := by
  refine ⟨lone_faultBound, lone_fixedSet, Sample.run_outcome _ rfl _, lone_isClient,
    collisionFree_orphanState (by simp), authentic_loneQc orphan (by simp),
    SyncState.accepts_of_done (by decide +kernel) (by simp), ⟨⟨_, _, _, _⟩, by rfl⟩,
    Sample.committed_of_mem (by decide +kernel), rfl, by decide +kernel⟩

end Network

end Hotmint
