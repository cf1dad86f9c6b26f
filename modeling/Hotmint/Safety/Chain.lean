/-
Blocks, parents and ancestors.

* `Ancestor`: chains of parent links with heights one apart;
* `Ancestor.unique`: **a block has one ancestor per height** when no two known
  blocks share a hash;
* `StoredInv`, `Act.storedInv`: in every state a node's store holds the genesis
  block and blocks whose hash was recomputed when they were stored, and every
  executed block is an ancestor of one a double certificate is for.
-/
import Hotmint.Proof.Tracked

namespace Hotmint

variable {block : Block} {dc : DoubleCertificate}

/-! ### Known blocks -/

/-- The genesis block, or a block the trace has stored. -/
def KnownBlock (trace : List Effect) (block : Block) : Prop :=
  block = Block.genesis ∨ Effect.putBlock block ∈ trace

lemma KnownBlock.mono {t t' : List Effect} (h : t ⊆ t')
    (hblock : KnownBlock t block) : KnownBlock t' block :=
  hblock.imp id fun hm => h hm

/-! ### Ancestors -/

/-- A parent among the blocks of a set. -/
def IsParent (B : Block → Prop) (child parent : Block) : Prop :=
  B parent ∧ parent.hash = child.parentHash ∧ child.height = parent.height + 1

/-- A block, its parent, and so on. -/
def Ancestor (B : Block → Prop) : Block → Block → Prop := Relation.ReflTransGen (IsParent B)

/-- No two blocks of a set share a hash. -/
def HashInjective (B : Block → Prop) : Prop :=
  ∀ b b', B b → B b' → b.hash = b'.hash → b = b'

namespace Ancestor

variable {B : Block → Prop} {top a b : Block}

lemma mono {B' : Block → Prop} (hB : ∀ x, B x → B' x) (h : Ancestor B top a) :
    Ancestor B' top a := by
  induction h with
  | refl => exact .refl
  | tail _ hstep ih => exact .tail ih ⟨hB _ hstep.1, hstep.2⟩

lemma trans (h : Ancestor B top a) (h' : Ancestor B a b) : Ancestor B top b :=
  Relation.ReflTransGen.trans h h'

lemma height_le (h : Ancestor B top a) : a.height ≤ top.height := by
  induction h with
  | refl => exact le_rfl
  | tail _ hstep ih =>
    obtain ⟨-, -, hheight⟩ := hstep
    omega

/-- At its own height a block has no other ancestor. -/
lemma eq_of_height (h : Ancestor B top a) (hheight : a.height = top.height) : a = top := by
  rcases Relation.ReflTransGen.cases_head h with heq | ⟨parent, ⟨-, -, hstep⟩, hrest⟩
  · exact heq.symm
  · have hle := height_le hrest
    omega

/-- **One ancestor per height.** -/
lemma unique (hB : HashInjective B) (ha : Ancestor B top a) (hb : Ancestor B top b)
    (hheight : a.height = b.height) : a = b := by
  induction ha using Relation.ReflTransGen.head_induction_on with
  | refl => exact (hb.eq_of_height hheight.symm).symm
  | @head top parent hstep hrest ih =>
    rcases Relation.ReflTransGen.cases_head hb with rfl | ⟨parent', hstep', hrest'⟩
    · have hle := height_le hrest
      obtain ⟨-, -, hdrop⟩ := hstep
      omega
    · have heq : parent = parent' :=
        hB _ _ hstep.1 hstep'.1 (hstep.2.1.trans hstep'.2.1.symm)
      exact ih (heq ▸ hrest')

end Ancestor

/-! ### Stored and executed blocks -/

/-- A double certificate the trace accounts for certifies the block, or a stored
descendant of it. -/
def FinalizedBy (trace : List Effect) (dc : DoubleCertificate) (block : Block) : Prop :=
  KnownDc trace dc ∧ ∃ target, KnownBlock trace target ∧ target.hash = dc.innerQc.blockHash
    ∧ Ancestor (KnownBlock trace) target block

lemma FinalizedBy.mono {t t' : List Effect} (h : t ⊆ t')
    (hdc : FinalizedBy t dc block) : FinalizedBy t' dc block := by
  obtain ⟨hknown, target, htarget, hhash, hanc⟩ := hdc
  exact ⟨hknown.imp (fun hm => h hm) fun hm => h hm, target, htarget.mono h, hhash,
    hanc.mono fun b hb => hb.mono h⟩

lemma FinalizedBy.known {trace : List Effect}
    (h : FinalizedBy trace dc block) : KnownBlock trace block := by
  obtain ⟨-, target, htarget, -, hanc⟩ := h
  rcases Relation.ReflTransGen.cases_tail hanc with rfl | ⟨_, -, hlast⟩
  · exact htarget
  · exact hlast.1

variable {σ : Type} {d : Deps σ} {A : Allowance}

/-- What the store and the trace say about blocks. -/
structure StoredInv (c : Crypto) (e : Engine σ) : Prop where
  hashed : ∀ block, Effect.putBlock block ∈ e.trace → block.hash = c.computeHash block
  getBlock : ∀ hash block, e.store.getBlock hash = some block →
    block.hash = hash ∧ KnownBlock e.trace block
  /-- Votes are signed as votes only. -/
  sign_vote : ∀ chainIdHash epoch view validator hash t ext,
    Effect.sign (.vote chainIdHash epoch view validator hash t ext) ∉ e.trace
  /-- Proposals are signed for stored blocks of the view they are made in. -/
  proposed : ∀ chainIdHash epoch hash justifyHash justifyView,
    Effect.sign (.proposal chainIdHash epoch hash justifyHash justifyView) ∈ e.trace →
      ∃ block, KnownBlock e.trace block ∧ block.hash = hash ∧ block.view ≤ e.state.currentView
  executed : ∀ block ctx response, Effect.app (.executeBlock block ctx response) ∈ e.trace →
    ∃ dc, FinalizedBy e.trace dc block

/-- The walk of `try_commit` follows ancestors. -/
lemma StoredInv.ancestor_of_walk {c : Crypto} {e : Engine σ} (he : StoredInv c e)
    {lastCommitted : ℕ} {target : Block} {blocks : List Block}
    (h : Walk e.store lastCommitted target blocks) (hmem : block ∈ blocks) :
    Ancestor (KnownBlock e.trace) target block := by
  have hlinks := h.ancestor hmem
  clear hmem
  induction hlinks with
  | refl => exact .refl
  | tail _ hstep ih =>
    obtain ⟨hget, hheight⟩ := hstep
    obtain ⟨hhash, hknown⟩ := he.getBlock _ _ hget
    exact .tail ih ⟨hknown, hhash, hheight⟩

/-- A commit executes ancestors of the block its certificate is for. -/
lemma StoredInv.finalizedBy {c : Crypto} {e : Engine σ} (he : StoredInv c e)
    (hdc : KnownDc e.trace dc) {ctx : BlockContext} {response : Option EndBlockResponse}
    (hcall : AppCall.executeBlock block ctx response ∈ (e.commitRun d dc).calls) :
    FinalizedBy e.trace dc block := by
  cases e.commitTrace d dc with
  | nothing hcalls _ _ =>
    rw [hcalls] at hcall
    cases hcall
  | @chain target blocks ending z htarget hwalk hchain _ hcalls _ =>
    rw [hcalls] at hcall
    have hmem : (block, ctx) ∈ Hotmint.executed z.calls :=
      List.mem_filterMap.mpr ⟨_, hcall, rfl⟩
    have hblock : block ∈ blocks := by
      rcases hchain.executed_subset hmem with hold | hnew
      · cases hold
      · exact hnew
    obtain ⟨hhash, hknown⟩ := he.getBlock _ _ htarget
    exact ⟨hdc, target, hknown, hhash, he.ancestor_of_walk hwalk hblock⟩

/-- **Every act keeps the store in order.** -/
lemma Act.storedInv {x y : Flow σ} (h : Act d A x y) (hx : StoredInv d.crypto x.engine) :
    StoredInv d.crypto y.engine where
  hashed block hmem := by
    rcases h.tracked hmem rfl with hold | hnew
    · exact hx.hashed block hold
    · cases hnew with
      | putBlock _ hhash _ => exact hhash
  getBlock hash block hget := by
    rcases h.getBlock hget with hold | ⟨rfl, -, hmem⟩
    · obtain ⟨hhash, hknown⟩ := hx.getBlock hash block hold
      exact ⟨hhash, hknown.mono h.trace_grows.subset⟩
    · exact ⟨rfl, .inr hmem⟩
  sign_vote chainIdHash epoch view validator hash t ext hmem :=
    hx.sign_vote chainIdHash epoch view validator hash t ext (h.sign_vote hmem)
  proposed chainIdHash epoch hash justifyHash justifyView hmem := by
    have hblock : ∃ block, KnownBlock x.engine.trace block ∧ block.hash = hash
        ∧ block.view ≤ x.engine.state.currentView := by
      rcases h.tracked hmem rfl with hold | hnew
      · exact hx.proposed chainIdHash epoch hash justifyHash justifyView hold
      · cases hnew with
        | proposal block justify hstored hview =>
          exact ⟨block, (hx.getBlock _ block hstored).2, rfl, hview.le⟩
    obtain ⟨block, hknown, hhash, hle⟩ := hblock
    exact ⟨block, hknown.mono h.trace_grows.subset, hhash, hle.trans h.currentView_le⟩
  executed block ctx response hmem := by
    have hfinal : ∃ dc, FinalizedBy x.engine.trace dc block := by
      rcases h.tracked hmem rfl with hold | hnew
      · exact hx.executed block ctx response hold
      · cases hnew with
        | executed dc _ _ _ hdc hcall => exact ⟨dc, hx.finalizedBy hdc hcall⟩
    obtain ⟨dc, hdc⟩ := hfinal
    exact ⟨dc, hdc.mono h.trace_grows.subset⟩

end Hotmint
