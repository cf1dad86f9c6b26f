/-
Timeout certificates a node forms from wishes.

* `Assembled`, `assembled`: what the loop of `add_wish` makes of wishes of distinct
  validators, in whatever order they came;
* `verifyTc_assembled`: **an assembled certificate passes `verify_tc` exactly if the
  certificates of its signers' wishes pass `verify_justify_qc`**;
* `WishInv`: the wishes recorded while the epochs stay fixed are signed, and the
  certificate of every wish but the node's own was checked;
* `addWish_tc_accepted`: **a timeout certificate is accepted under the same epochs exactly
  if the certificate of the node's own wish is**;
* `addWish_tc_rejected`: a run in which it is not;
* `Pacemaker.Windowed`: the target views of recorded wishes, seen from the current view;
* `wishes_bounded`: **there are never more than three, with one wish of a validator each**.
-/
import Hotmint.Safety.Provenance
import Hotmint.Types.Power

namespace Hotmint

open Sample List Option ValidatorSet
variable {σ : Type} {d : Deps σ} {A : Allowance}
variable {wishes : List WishRecord} {pm : Pacemaker} {tc : TimeoutCertificate} {vs : ValidatorSet}
  {w : WishRecord} {targetView : ℕ}
variable {e e₀ : Engine σ} {x : Flow σ} {idx target view : ℕ}
variable {acc : AggregateSignature × List (Option QuorumCertificate)} {y : Flow σ}
  {qc : QuorumCertificate} {α : Type*} {last : WishRecord} {id : ℕ}

/-! ### Bitfields -/

/-- An entry whose bit is not set does not matter. -/
lemma verifySigners_set_entry {ok : α → Signature → Bool} {bits : List Bool}
    {entries : List α} {sigs : List Signature} (hbit : bits[idx]? = some false) (a : α) :
    verifySigners ok bits (entries.set idx a) sigs = verifySigners ok bits entries sigs := by
  induction bits generalizing idx entries sigs with
  | nil => cases hbit
  | cons bit bits ih =>
    cases entries with
    | nil => rfl
    | cons b entries =>
      cases idx with
      | zero =>
        obtain rfl : bit = false := some.inj hbit
        rfl
      | succ idx =>
        cases bit with
        | false => exact ih hbit
        | true =>
          cases sigs with
          | nil => rfl
          | cons sig sigs => exact congrArg (ok b sig && ·) (ih hbit)

lemma zip_set {β : Type*} {as : List α} {a : α} (ha : as[idx]? = some a) (bs : List β)
    (b : β) : as.zip (bs.set idx b) = (as.zip bs).set idx (a, b) := by
  induction as generalizing idx bs with
  | nil => cases ha
  | cons a' as ih =>
    cases bs with
    | nil => rfl
    | cons b' bs =>
      cases idx with
      | zero =>
        obtain rfl : a' = a := some.inj ha
        rfl
      | succ idx => exact congrArg ((a', b') :: ·) (ih ha bs)

/-! ### The loop of `add_wish` -/

/-- What the loop has assembled from wishes of distinct validators. -/
structure Assembled (vs : ValidatorSet) (wishes : List WishRecord)
    (acc : AggregateSignature × List (Option QuorumCertificate)) : Prop where
  bits : acc.1.signers.length = vs.validatorCount
  entries : acc.2.length = vs.validatorCount
  signer : ∀ idx, acc.1.signers[idx]? = some true → ∃ w ∈ wishes, vs.indexOf w.validator = some idx
  placed : ∀ w ∈ wishes, ∀ idx, vs.indexOf w.validator = some idx →
    acc.1.signers[idx]? = some true ∧ acc.2[idx]? = some w.highestQc
  signatures : ∀ ok : ValidatorInfo × Option QuorumCertificate → Signature → Bool,
    (∀ w ∈ wishes, ∀ vi, vs.get w.validator = some vi → ok (vi, w.highestQc) w.signature = true) →
    verifySigners ok acc.1.signers (vs.validators.zip acc.2) acc.1.signatures = true
  power : signedPower acc.1.signers vs.validators = (wishes.map fun w => vs.powerOf w.validator).sum

lemma Assembled.nil (vs : ValidatorSet) : Assembled vs []
    (AggregateSignature.new vs.validatorCount, replicate vs.validatorCount none) where
  bits := length_replicate
  entries := length_replicate
  signer idx hbit := by
    have hfalse := eq_of_mem_replicate (mem_of_getElem? hbit)
    cases hfalse
  placed w hw := by cases hw
  signatures ok _ := verifySigners_replicate ok _ _
  power := signedPower_replicate _ _

lemma ValidatorSet.get_of_indexOf_none (h : vs.indexOf id = none) : vs.get id = none :=
  find?_eq_none.mpr fun v hv => by simpa using findIdx?_eq_none_iff.mp h v hv

lemma ValidatorSet.powerOf_of_get {vi : ValidatorInfo}
    (h : vs.get id = some vi) : vs.powerOf id = vi.power := by
  unfold powerOf
  rw [h]

/-- A wish of a new validator is placed at an unset bit. -/
lemma Assembled.bit_unset (h : Assembled vs wishes acc)
    (hnew : ∀ w ∈ wishes, w.validator ≠ last.validator)
    (hidx : vs.indexOf last.validator = some idx) : acc.1.signers[idx]? = some false := by
  obtain ⟨vi, hvi, hid, -⟩ := indexOf_eq_some hidx
  have hlt : idx < acc.1.signers.length := by
    rw [h.bits]
    exact (List.getElem?_eq_some_iff.mp hvi).1
  have hbit : acc.1.signers[idx]? = some acc.1.signers[idx] := List.getElem?_eq_getElem hlt
  cases hvalue : acc.1.signers[idx] with
  | false => rw [hbit, hvalue]
  | true =>
    obtain ⟨w, hw, hidx'⟩ := h.signer idx (by rw [hbit, hvalue])
    obtain ⟨vi', hvi', hid', -⟩ := indexOf_eq_some hidx'
    obtain rfl := some.inj (hvi.symm.trans hvi')
    exact absurd (hid'.symm.trans hid) (hnew w hw)

/-- One round of the loop. -/
lemma Assembled.concat (h : Assembled vs wishes acc)
    (hnew : ∀ w ∈ wishes, w.validator ≠ last.validator) :
    Assembled vs (wishes ++ [last]) (Pacemaker.assembleStep vs acc last) := by
  unfold Pacemaker.assembleStep
  cases hidx : vs.indexOf last.validator with
  | none =>
    -- a member of the previous epoch only: it weighs nothing and is left out
    have hget := get_of_indexOf_none hidx
    refine ⟨h.bits, h.entries, fun idx hbit => ?_, fun w hw idx hw' => ?_, fun ok hok => ?_, ?_⟩
    · obtain ⟨w, hw, hw'⟩ := h.signer idx hbit
      exact ⟨w, List.mem_append_left _ hw, hw'⟩
    · rcases List.mem_append.mp hw with hw | hw
      · exact h.placed w hw idx hw'
      · rw [List.mem_singleton.mp hw, hidx] at hw'
        cases hw'
    · exact h.signatures ok fun w hw => hok w (List.mem_append_left _ hw)
    · have hzero : vs.powerOf last.validator = 0 := by
        unfold powerOf
        rw [hget]
      simp [h.power, hzero]
  | some idx =>
    have hbit := h.bit_unset hnew hidx
    obtain ⟨vi, hvi, hid, hget⟩ := indexOf_eq_some hidx
    obtain ⟨hlt, -⟩ := List.getElem?_eq_some_iff.mp hbit
    have hadd : acc.1.add idx last.signature = some ⟨acc.1.signers.set idx true,
        acc.1.signatures.insertIdx ((acc.1.signers.take idx).count true) last.signature⟩ := by
      unfold AggregateSignature.add
      rw [hbit]
    dsimp only
    rw [hadd, getD_some]
    refine ⟨(List.length_set).trans h.bits, (List.length_set).trans h.entries,
      fun idx' hbit' => ?_, fun w hw idx' hw' => ?_, fun ok hok => ?_, ?_⟩
    · by_cases heq : idx = idx'
      · subst heq
        exact ⟨last, List.mem_append_right _ (List.mem_singleton_self _), hidx⟩
      · rw [List.getElem?_set_ne heq] at hbit'
        obtain ⟨w, hw, hw'⟩ := h.signer idx' hbit'
        exact ⟨w, List.mem_append_left _ hw, hw'⟩
    · rcases List.mem_append.mp hw with hw | hw
      · obtain ⟨hold, hentry⟩ := h.placed w hw idx' hw'
        have hne : idx ≠ idx' := by
          rintro rfl
          rw [hbit] at hold
          cases hold
        rw [List.getElem?_set_ne hne, List.getElem?_set_ne hne]
        exact ⟨hold, hentry⟩
      · rw [List.mem_singleton.mp hw, hidx] at hw'
        obtain rfl := some.inj hw'
        rw [List.mem_singleton.mp hw]
        refine ⟨List.getElem?_set_self hlt, List.getElem?_set_self ?_⟩
        rw [h.entries, ← h.bits]
        exact hlt
    · have hzip := zip_set hvi acc.2 last.highestQc
      have hold : verifySigners ok acc.1.signers (vs.validators.zip (acc.2.set idx last.highestQc))
          acc.1.signatures = true := by
        rw [hzip, verifySigners_set_entry hbit]
        exact h.signatures ok fun w hw => hok w (List.mem_append_left _ hw)
      refine verifySigners_insert hold hbit ?_
        (hok last (List.mem_append_right _ (List.mem_singleton_self _)) vi hget)
      rw [hzip]
      refine List.getElem?_set_self ?_
      rw [List.length_zip, h.entries]
      exact lt_min (List.getElem?_eq_some_iff.mp hvi).1 (h.bits ▸ hlt)
    · rw [signedPower_set hbit hvi, h.power, List.map_append, List.sum_append, List.map_singleton,
        List.sum_singleton, powerOf_of_get hget]

/-- **What the loop makes of wishes of distinct validators.** -/
lemma assembled (hnodup : (wishes.map (·.validator)).Nodup) :
    Assembled vs wishes (wishes.foldl (Pacemaker.assembleStep vs)
      (AggregateSignature.new vs.validatorCount, replicate vs.validatorCount none)) := by
  induction wishes using reverseRecOn with
  | nil => exact .nil vs
  | append_singleton wishes last ih =>
    rw [map_append, nodup_append] at hnodup
    rw [foldl_append]
    refine (ih hnodup.1).concat fun w hw => ?_
    exact hnodup.2.2 w.validator (mem_map_of_mem hw) last.validator (by simp)

/-! ### Assembled certificates -/

/-- The certificate of a signer's wish is among those of the signers. -/
lemma Assembled.mem_signedQcs (h : Assembled vs wishes (tc.aggregateSignature, tc.highestQcs))
    : qc ∈ tc.signedQcs
      ↔ ∃ w ∈ wishes, (vs.get w.validator).isSome = true ∧ w.highestQc = some qc := by
  constructor
  · intro hmem
    obtain ⟨⟨bit, entry⟩, hzip, hsome⟩ := mem_filterMap.mp hmem
    cases bit with
    | false => cases hsome
    | true =>
      obtain rfl : entry = some qc := hsome
      obtain ⟨idx, hidx⟩ := mem_iff_getElem?.mp hzip
      rw [getElem?_zip_eq_some] at hidx
      obtain ⟨w, hw, hplace⟩ := h.signer idx hidx.1
      have hentry := (h.placed w hw idx hplace).2
      obtain ⟨vi, -, -, hget⟩ := indexOf_eq_some hplace
      exact ⟨w, hw, by rw [hget]; rfl, some.inj (hentry.symm.trans hidx.2)⟩
  · rintro ⟨w, hw, hmember, hqc⟩
    obtain ⟨idx, hidx⟩ : ∃ idx, vs.indexOf w.validator = some idx := by
      cases hindex : vs.indexOf w.validator with
      | none =>
        rw [get_of_indexOf_none hindex] at hmember
        cases hmember
      | some idx => exact ⟨idx, rfl⟩
    obtain ⟨hbit, hentry⟩ := h.placed w hw idx hidx
    rw [hqc] at hentry
    refine mem_filterMap.mpr ⟨(true, some qc), mem_iff_getElem?.mpr ⟨idx, ?_⟩, rfl⟩
    exact getElem?_zip_eq_some.mpr ⟨hbit, hentry⟩

/-- **An assembled certificate passes `verify_tc` exactly if the certificates of its
signers' wishes pass `verify_justify_qc`.** -/
lemma verifyTc_assembled {c : Crypto} {k : Keyring}
    (h : Assembled k.validatorSet wishes (tc.aggregateSignature, tc.highestQcs))
    (hquorum : k.validatorSet.quorumThreshold
      ≤ (wishes.map fun w => k.validatorSet.powerOf w.validator).sum)
    (hsigned : ∀ w ∈ wishes, ∀ vi, k.validatorSet.get w.validator = some vi →
      k.verifyAnyEpoch c vi.publicKey
        (fun epoch => c.wishPayload k.chainIdHash epoch (tc.view + 1) w.highestQc) w.signature
      = true) : k.verifyTc c tc k.validatorSet = true
      ↔ ∀ w ∈ wishes, (k.validatorSet.get w.validator).isSome = true →
        ∀ qc, w.highestQc = some qc → k.verifyJustifyQc c qc = true := by
  constructor
  · intro hverify w hw hmember qc hqc
    exact verifyTc_signedQcs hverify (h.mem_signedQcs.mpr ⟨w, hw, hmember, hqc⟩)
  · intro hqcs
    unfold Keyring.verifyTc
    rw [decide_eq_true h.bits, decide_eq_true h.entries, h.signatures _ fun w hw vi hvi => ?_]
    · rw [← h.power] at hquorum
      exact decide_eq_true hquorum
    · refine Bool.and_eq_true_iff.mpr ⟨?_, hsigned w hw vi hvi⟩
      cases hqc : w.highestQc with
      | none => rfl
      | some qc => exact hqcs w hw (by rw [hvi]; rfl) qc hqc

/-! ### Recorded wishes -/

/-- A recorded wish is signed for its target view by a member of a known epoch, and its
certificate was checked, unless it is the node's own. -/
structure Recorded (c : Crypto) (k : Keyring) (own targetView : ℕ) (w : WishRecord) : Prop where
  signed : ∃ vi, k.getRetained w.validator = some vi ∧ k.verifyAnyEpoch c vi.publicKey
    (fun epoch => c.wishPayload k.chainIdHash epoch targetView w.highestQc) w.signature = true
  checked : (∀ qc, w.highestQc = some qc → k.verifyJustifyQc c qc = true)
    ∨ (w.validator = own ∧ (k.validatorSet.get own).isSome = true)

/-- A wish the node accepts is recorded so. -/
lemma AcceptedWish.recorded (h : AcceptedWish d e targetView w)
    (hset : e.state.validatorSet = e.state.currentEpoch.validatorSet) (hlisted : SignerListed d e) :
    Recorded d.crypto e.keyring e.state.validatorId targetView w := by
  cases h with
  | own hpower =>
    obtain ⟨vi, hvi⟩ : ∃ vi, e.state.validatorSet.get e.state.validatorId = some vi := by
      cases hget : e.state.validatorSet.get e.state.validatorId with
      | none =>
        unfold ConsensusState.ownPower powerOf at hpower
        rw [hget] at hpower
        exact absurd hpower (lt_irrefl 0)
      | some vi => exact ⟨vi, rfl⟩
    refine ⟨⟨vi, ?_, ?_⟩, .inr ⟨rfl, isSome_iff_exists.mpr ⟨vi, hvi⟩⟩⟩
    · change (e.state.validatorSet.get e.state.validatorId).or _ = some vi
      rw [hvi, some_or]
    · refine any_eq_true.mpr ⟨e.state.currentEpoch.number, .head _, ?_⟩
      exact hlisted vi (hset ▸ hvi) _
  | received _ _ hsigned hqc =>
    dsimp only [Keyring.verifyCurrent] at hsigned
    split at hsigned
    · cases hsigned
    · next vi hvi => exact ⟨⟨vi, hvi, hsigned⟩, .inl hqc⟩

/-- What holds of the wishes for a target view since a state in which there were none. -/
structure WishInv (d : Deps σ) (targetView : ℕ) (e₀ : Engine σ) (x : Flow σ) : Prop where
  epochInv : EpochInv x
  validatorId : x.engine.state.validatorId = e₀.state.validatorId
  nodup : ((x.engine.pacemaker.bucket targetView).map (·.validator)).Nodup
  number_le : e₀.state.currentEpoch.number ≤ x.engine.state.currentEpoch.number
  set_eq : x.engine.state.currentEpoch.number = e₀.state.currentEpoch.number →
    x.engine.state.currentEpoch = e₀.state.currentEpoch
  recorded : x.engine.state.currentEpoch.number = e₀.state.currentEpoch.number →
    ∀ w ∈ x.engine.pacemaker.bucket targetView,
      Recorded d.crypto x.engine.keyring e₀.state.validatorId targetView w

/-- The listed key stays the same while the epoch does. -/
lemma WishInv.signerListed (h : WishInv d targetView e₀ x) (hlisted : SignerListed d e₀)
    (hnumber : x.engine.state.currentEpoch.number = e₀.state.currentEpoch.number) :
    SignerListed d x.engine := by
  unfold SignerListed
  rw [h.set_eq hnumber, h.validatorId]
  exact hlisted

lemma nodup_validators_concat
    (h : (wishes.map (·.validator)).Nodup) (hnew : ∀ w' ∈ wishes, w'.validator ≠ w.validator) :
    ((wishes ++ [w]).map (·.validator)).Nodup := by
  rw [map_append, map_singleton]
  refine nodup_append.mpr ⟨h, nodup_singleton _, fun id hid id' hid' => ?_⟩
  obtain ⟨w', hw', rfl⟩ := mem_map.mp hid
  rw [mem_singleton.mp hid']
  exact hnew w' hw'

/-- **Every act keeps the recorded wishes in order.** -/
lemma Act.wishInv (hlisted : SignerListed d e₀)
    (h : Act d A x y) (hx : WishInv d targetView e₀ x) : WishInv d targetView e₀ y := by
  obtain ⟨hmono, hsame⟩ := h.epoch_mono hx.epochInv
  -- in the epoch of the first state, the keys have not changed
  have hback : y.engine.state.currentEpoch.number = e₀.state.currentEpoch.number →
      x.engine.state.currentEpoch.number = e₀.state.currentEpoch.number :=
    fun hnumber => le_antisymm (hmono.trans hnumber.le) hx.number_le
  have hkeys : y.engine.state.currentEpoch.number = e₀.state.currentEpoch.number →
      y.engine.keyring.SameEpochs x.engine.keyring := by
    intro hnumber
    obtain ⟨hcur, hprev⟩ := hsame (hnumber.trans (hback hnumber).symm)
    refine ⟨h.chainIdHash, congrArg Epoch.number hcur, ?_, hprev⟩
    change y.engine.state.validatorSet = x.engine.state.validatorSet
    rw [(h.epochInv hx.epochInv).validatorSet, hx.epochInv.validatorSet, hcur]
  have hkeep : ∀ w, y.engine.state.currentEpoch.number = e₀.state.currentEpoch.number →
      Recorded d.crypto x.engine.keyring e₀.state.validatorId targetView w →
      Recorded d.crypto y.engine.keyring e₀.state.validatorId targetView w := by
    intro w hnumber hw
    rw [(hkeys hnumber).eq]
    exact ⟨hw.signed, hw.checked⟩
  refine ⟨h.epochInv hx.epochInv, h.validatorId.trans hx.validatorId, ?_,
    hx.number_le.trans hmono, fun hnumber => ?_, fun hnumber w hw => ?_⟩
  · rcases h.wishBucket targetView with heq | heq | ⟨w, -, hnew, heq⟩
    · rw [heq]
      exact hx.nodup
    · rw [heq]
      exact nodup_nil
    · rw [heq]
      exact nodup_validators_concat hx.nodup hnew
  · rw [(hsame (hnumber.trans (hback hnumber).symm)).1]
    exact hx.set_eq (hback hnumber)
  · refine hkeep w hnumber ?_
    rcases h.wishBucket targetView with heq | heq | ⟨new, haccepted, -, heq⟩
    · exact hx.recorded (hback hnumber) w (heq ▸ hw)
    · rw [heq] at hw
      cases hw
    · rw [heq] at hw
      rcases mem_append.mp hw with hw | hw
      · exact hx.recorded (hback hnumber) w hw
      · rw [mem_singleton.mp hw, ← hx.validatorId]
        exact haccepted.recorded hx.epochInv.validatorSet (hx.signerListed hlisted (hback hnumber))

/-- The largest view is reported. -/
lemma maxByView_ge {qcs : List QuorumCertificate} (h : qc ∈ qcs) :
    ∃ best, maxByView qcs = some best ∧ qc.view ≤ best.view := by
  induction qcs with
  | nil => cases h
  | cons first qcs ih =>
    rw [maxByView]
    cases hbest : maxByView qcs with
    | none =>
      rcases mem_cons.mp h with rfl | h
      · exact ⟨qc, rfl, le_rfl⟩
      · obtain ⟨best, heq, -⟩ := ih h
        rw [hbest] at heq
        cases heq
    | some best =>
      dsimp only
      split_ifs with hlt
      · refine ⟨first, rfl, ?_⟩
        rcases mem_cons.mp h with rfl | h
        · exact le_rfl
        · obtain ⟨best', heq, hle⟩ := ih h
          rw [hbest] at heq
          cases heq
          exact hle.trans hlt.le
      · refine ⟨best, rfl, ?_⟩
        rcases mem_cons.mp h with rfl | h
        · exact not_lt.mp hlt
        · obtain ⟨best', heq, hle⟩ := ih h
          rw [hbest] at heq
          cases heq
          exact hle

/-- `highest_qc` of a certificate is one of the highest view among the wishes of its
signers. -/
structure HighestAmong (vs : ValidatorSet) (wishes : List WishRecord) (tc : TimeoutCertificate) :
    Prop where
  mem : ∀ qc, tc.highestQc = some qc →
    ∃ w ∈ wishes, (vs.get w.validator).isSome = true ∧ w.highestQc = some qc
  le : ∀ w ∈ wishes, (vs.get w.validator).isSome = true → ∀ qc, w.highestQc = some qc →
    ∃ best, tc.highestQc = some best ∧ qc.view ≤ best.view

lemma Assembled.highestAmong (h : Assembled vs wishes (tc.aggregateSignature, tc.highestQcs)) :
    HighestAmong vs wishes tc where
  mem _ hqc := h.mem_signedQcs.mp (maxByView_mem hqc)
  le w hw hmember _ hqc := maxByView_ge (h.mem_signedQcs.mpr ⟨w, hw, hmember, hqc⟩)

/-- What `add_wish` returns. -/
lemma Pacemaker.addWish_some
    (h : (pm.addWish vs targetView w.validator w.highestQc w.signature).1 = some tc) :
    (∀ w' ∈ pm.bucket targetView, w'.validator ≠ w.validator) ∧ vs.quorumThreshold
        ≤ ((pm.bucket targetView ++ [w]).map fun w => vs.powerOf w.validator).sum
      ∧ tc.view = targetView - 1
      ∧ (tc.aggregateSignature, tc.highestQcs) = (pm.bucket targetView ++ [w]).foldl
        (assembleStep vs)
        (AggregateSignature.new vs.validatorCount, replicate vs.validatorCount none) := by
  unfold addWish at h
  dsimp only at h
  split_ifs at h with hknown hquorum
  cases h
  refine ⟨fun w' hw' heq => hknown ?_, hquorum, rfl, rfl⟩
  exact any_eq_true.mpr ⟨w', hw', decide_eq_true heq⟩

/-! ### Formed certificates -/

/-- The wishes recorded since a state without any, in whatever state of a run. -/
lemma Run.wishInv {cfg : NodeConfig} (hstart : CrashRun d cfg e₀)
    (hlisted : SignerListed d e₀) (hrun : Run d e₀ e)
    (hempty : e₀.pacemaker.bucket targetView = []) : ∃ φ, WishInv d targetView e₀ ⟨e, φ⟩ := by
  obtain ⟨φ, hφ, htodo, hepoch, -⟩ := CrashRunWhere.epochInv hstart
  have hfirst : ∀ ψ, EpochInv ⟨e₀, ψ⟩ → WishInv d targetView e₀ ⟨e₀, ψ⟩ := by
    intro ψ hψ
    refine ⟨hψ, rfl, ?_, le_rfl, fun _ => rfl, fun _ w hw => ?_⟩
    · rw [hempty]
      exact nodup_nil
    · rw [hempty] at hw
      cases hw
  rcases hrun.cases_head with rfl | ⟨e₁, hstep, -⟩
  · exact ⟨φ, hfirst φ hepoch⟩
  -- the first state is outside of commits, since a step is enabled in it
  obtain rfl : φ = .idle := by
    cases hstep with
    | step henabled _ =>
      rcases hφ with rfl | hhalt
      · rfl
      · rw [Engine.not_halted_of_enabled henabled] at hhalt
        cases hhalt
  obtain ⟨ψ, -, -, hend⟩ := hrun.keeps (fun x y hxy hx => hxy.wishInv hlisted hx) htodo
    (hfirst .idle hepoch)
  exact ⟨ψ, hend⟩

/-- **A timeout certificate is accepted under the same epochs exactly if the certificate
of the node's own wish is**, if it counts one: the wishes of others were checked before
they were recorded, its own was not.  Its highest certificate is one of the highest view
among the wishes of its signers.  All its wishes came since a state of the same epoch in
which none was recorded. -/
theorem addWish_tc_accepted (d : Deps σ) (cfg : NodeConfig) {e₀ e : Engine σ} {targetView : ℕ}
    {w : WishRecord} {tc : TimeoutCertificate} (hstart : CrashRun d cfg e₀)
    (hlisted : SignerListed d e₀) (hempty : e₀.pacemaker.bucket targetView = [])
    (hrun : Run d e₀ e) (hepoch : e.state.currentEpoch = e₀.state.currentEpoch)
    (hview : 0 < e.state.currentView) (hwish : AcceptedWish d e targetView w)
    (htc : (e.pacemaker.addWish e.state.validatorSet targetView w.validator w.highestQc
      w.signature).1 = some tc) :
    ((∀ k : Keyring, k.SameEpochs e.keyring → k.verifyTc d.crypto tc k.validatorSet = true)
      ↔ ∀ own ∈ e.pacemaker.bucket targetView ++ [w], own.validator = e.state.validatorId →
        ∀ qc, own.highestQc = some qc → e.keyring.verifyJustifyQc d.crypto qc = true)
    ∧ HighestAmong e.state.validatorSet (e.pacemaker.bucket targetView ++ [w]) tc := by
  obtain ⟨φ, hinv⟩ := hrun.wishInv hstart hlisted hempty
  have hnumber : e.state.currentEpoch.number = e₀.state.currentEpoch.number := by rw [hepoch]
  obtain ⟨hnew, hquorum, htcview, hfold⟩ := Pacemaker.addWish_some htc
  have hassembled : Assembled e.state.validatorSet (e.pacemaker.bucket targetView ++ [w])
      (tc.aggregateSignature, tc.highestQcs) :=
    hfold ▸ assembled (nodup_validators_concat hinv.nodup hnew)
  have hrecorded : ∀ w' ∈ e.pacemaker.bucket targetView ++ [w],
      Recorded d.crypto e.keyring e.state.validatorId targetView w' := by
    intro w' hw'
    rcases mem_append.mp hw' with hold | hlast
    · rw [show e.state.validatorId = e₀.state.validatorId from hinv.validatorId]
      exact hinv.recorded hnumber w' hold
    · rw [mem_singleton.mp hlast]
      exact hwish.recorded hinv.epochInv.validatorSet (hinv.signerListed hlisted hnumber)
  have htarget : tc.view + 1 = targetView := by
    rw [htcview]
    cases hwish with
    | own _ => rfl
    | received hlow _ _ _ => exact Nat.sub_add_cancel (hview.trans_le hlow)
  have hsigned : ∀ w' ∈ e.pacemaker.bucket targetView ++ [w], ∀ vi,
      e.keyring.validatorSet.get w'.validator = some vi → e.keyring.verifyAnyEpoch d.crypto
        vi.publicKey (fun epoch => d.crypto.wishPayload e.keyring.chainIdHash epoch (tc.view + 1)
          w'.highestQc) w'.signature = true := by
    intro w' hw' vi hvi
    obtain ⟨vi', hretained, hverify⟩ := (hrecorded w' hw').signed
    have hsame : e.keyring.getRetained w'.validator = some vi := by
      unfold Keyring.getRetained
      rw [hvi, some_or]
    obtain rfl := some.inj (hsame.symm.trans hretained)
    rw [htarget]
    exact hverify
  refine ⟨⟨fun haccepted own hown hid qc hqc => ?_, fun hown k hk => ?_⟩, hassembled.highestAmong⟩
  · rcases (hrecorded own hown).checked with hchecked | ⟨-, hmember⟩
    · exact hchecked qc hqc
    · refine (verifyTc_assembled hassembled hquorum hsigned).mp
        (haccepted e.keyring ⟨rfl, rfl, rfl, rfl⟩) own hown ?_ qc hqc
      rw [hid]
      exact hmember
  · rw [hk.eq]
    refine (verifyTc_assembled (k := { e.keyring with currentView := k.currentView }) hassembled
      hquorum hsigned).mpr fun w' hw' _ qc hqc => ?_
    rcases (hrecorded w' hw').checked with hchecked | ⟨hid, -⟩
    · exact hchecked qc hqc
    · exact hown w' hw' hid qc hqc

/-- A node of quorum power forms a certificate of its first wish, which carries the genesis
certificate. -/
theorem addWish_tc_accepted_start : ∃ tc,
    (namedStart.pacemaker.addWish namedStart.state.validatorSet (namedStart.state.currentView + 1)
      namedStart.state.validatorId namedStart.state.highestQc
      (namedStart.ownWish (nameDeps 0 fun _ => [])).signature).1 = some tc
    ∧ ∀ k : Keyring, k.SameEpochs namedStart.keyring →
      k.verifyTc nameCrypto tc k.validatorSet = true := by
  have hsome : (namedStart.pacemaker.addWish namedStart.state.validatorSet
      (namedStart.state.currentView + 1) namedStart.state.validatorId namedStart.state.highestQc
      (namedStart.ownWish (nameDeps 0 fun _ => [])).signature).1.isSome = true := by
    decide +kernel
  obtain ⟨tc, htc⟩ := isSome_iff_exists.mp hsome
  refine ⟨tc, htc, (addWish_tc_accepted (nameDeps 0 fun _ => [])
    ((solo fun _ => []).config only) (.start () .empty) signerListed_namedStart rfl
    .refl rfl (by decide +kernel) (.own (by decide +kernel)) htc).1.mpr ?_⟩
  have hgenesis : namedStart.state.highestQc.all
      (namedStart.keyring.verifyJustifyQc nameCrypto) = true := by decide +kernel
  intro own hown _ qc hqc
  rw [mem_singleton.mp hown] at hqc
  rw [show namedStart.state.highestQc = some qc from hqc] at hgenesis
  exact hgenesis

/-! Two blocks that change the validators are committed together in view 4, and the epochs
they bring start in views 4 and 6, without a certificate for a newer block. -/

/-- A wish without a certificate. -/
def plainWish (id epoch targetView : ℕ) : Label :=
  .message env none (.wish targetView id none
    (sign (UInt8.ofNat id) (.wish 0#256 epoch targetView none)))

/-- The node after the second change of epoch: its highest certificate is of epoch 0. -/
def staleStart : Engine Unit :=
  steps (deps 0 (updatesAt [2, 3])) [.task env, .task env, .timeout, .timeout, .task env, .task env,
      plainWish 1 1 6, .timeout, .task env]
    (((solo (updatesAt [2, 3])).config only).launch (deps 0 (updatesAt [2, 3])) [] () .empty)

/-- The node with the wishes of two others to leave view 6. -/
def staleWishes : Engine Unit :=
  steps (deps 0 (updatesAt [2, 3])) [plainWish 1 2 7, plainWish 12 2 7] staleStart

/-- With its own wish the node forms a certificate that no node with its epochs accepts. -/
theorem addWish_tc_rejected : CrashRun (deps 0 (updatesAt [2, 3]))
        ((solo (updatesAt [2, 3])).config only) staleStart
      ∧ staleStart.pacemaker.bucket 7 = []
      ∧ Run (deps 0 (updatesAt [2, 3])) staleStart staleWishes
      ∧ staleWishes.state.currentEpoch = staleStart.state.currentEpoch
      ∧ staleWishes.state.currentView = 6
      ∧ AcceptedWish (deps 0 (updatesAt [2, 3])) staleWishes (staleWishes.state.currentView + 1)
        (staleWishes.ownWish (deps 0 (updatesAt [2, 3])))
      ∧ ∃ tc, (staleWishes.pacemaker.addWish staleWishes.state.validatorSet
          (staleWishes.state.currentView + 1) staleWishes.state.validatorId
          staleWishes.state.highestQc
          (staleWishes.ownWish (deps 0 (updatesAt [2, 3]))).signature).1 = some tc
        ∧ staleWishes.keyring.verifyTc crypto tc staleWishes.keyring.validatorSet = false := by
  refine ⟨crashRun_steps (.start () .empty) _, by decide +kernel, run_steps _ _ _,
    by decide +kernel, by decide +kernel, .own (by decide +kernel), ?_⟩
  have hrejected : (staleWishes.pacemaker.addWish staleWishes.state.validatorSet
      (staleWishes.state.currentView + 1) staleWishes.state.validatorId
      staleWishes.state.highestQc
      (staleWishes.ownWish (deps 0 (updatesAt [2, 3]))).signature).1.map
      (fun tc => staleWishes.keyring.verifyTc crypto tc staleWishes.keyring.validatorSet)
      = some false := by decide +kernel
  exact map_eq_some_iff.mp hrejected

/-! ### Bounded memory -/

namespace Pacemaker

/-- Wishes for at most three target views, and at most one of a validator in each. -/
structure Bounded (pm : Pacemaker) : Prop where
  targets : pm.wishes.keys.length ≤ 3
  nodup : ∀ target, ((pm.bucket target).map (·.validator)).Nodup

/-- The target views are the current one, the next one, and one that an earlier view change left
behind. -/
structure Windowed (pm : Pacemaker) (view : ℕ) : Prop where
  window : ∃ left ≤ view, ∀ target ∈ pm.wishes, target = left ∨ target = view ∨ target = view + 1
  nodup : ∀ target, ((pm.bucket target).map (·.validator)).Nodup

lemma windowed_new (view : ℕ) : new.Windowed view where
  window := ⟨view, le_rfl, fun _ h => absurd h (AList.notMem_empty _)⟩
  nodup _ := nodup_nil

lemma Windowed.bounded (h : pm.Windowed view) : pm.Bounded where
  targets := by
    obtain ⟨left, -, hwindow⟩ := h.window
    have hsub : pm.wishes.keys ⊆ [left, view, view + 1] := by
      intro target htarget
      rcases hwindow target htarget with rfl | rfl | rfl <;> simp
    exact (pm.wishes.keys_nodup.subperm hsub).length_le
  nodup := h.nodup

lemma mem_wishes_addWish {validator v : ℕ}
    {highestQc : Option QuorumCertificate} {signature : Signature}
    (h : v ∈ (pm.addWish vs target validator highestQc signature).2.wishes) :
    v = target ∨ v ∈ pm.wishes := by
  unfold addWish at h
  dsimp only at h
  split_ifs at h <;> exact (AList.mem_insert _).mp h

/-- A wish within the admission window. -/
lemma Windowed.addWish (h : pm.Windowed view)
    (hlow : view ≤ target) (hhigh : target ≤ view + 1) (vs : ValidatorSet) (validator : ℕ)
    (highestQc : Option QuorumCertificate) (signature : Signature) :
    (pm.addWish vs target validator highestQc signature).2.Windowed view where
  window := by
    obtain ⟨left, hleft, hwindow⟩ := h.window
    refine ⟨left, hleft, fun v hv => ?_⟩
    rcases mem_wishes_addWish hv with rfl | hv
    · omega
    · exact hwindow v hv
  nodup v := by
    rcases pm.bucket_addWish vs target validator highestQc signature v with
      heq | ⟨rfl, hnew, heq⟩
    · rw [heq]
      exact h.nodup v
    · rw [heq]
      exact nodup_validators_concat (h.nodup v) hnew

/-- A view change leaves only the wishes for the view after the one that is left. -/
lemma Windowed.clear {view' : ℕ} (h : pm.Windowed view)
    (hlt : view < view') : ((pm.clearView view).pruneBefore view).Windowed view' where
  window := by
    obtain ⟨left, hleft, hwindow⟩ := h.window
    refine ⟨view + 1, hlt, fun target htarget => .inl ?_⟩
    obtain ⟨hge, hkept⟩ := AList.mem_retain.mp htarget
    obtain ⟨hne, hold⟩ := AList.mem_erase.mp hkept
    have hge : view ≤ target := of_decide_eq_true hge
    have := hwindow target hold
    omega
  nodup target := by
    rcases pm.bucket_clear view view target with heq | heq
    · rw [heq]
      exact h.nodup target
    · rw [heq]
      exact nodup_nil

end Pacemaker

lemma AcceptedWish.window (h : AcceptedWish d e target w) :
    e.state.currentView ≤ target ∧ target ≤ e.state.currentView + 1 := by
  cases h with
  | own _ => exact ⟨Nat.le_succ _, le_rfl⟩
  | received hlow hhigh _ _ => exact ⟨hlow, hhigh⟩

/-- **Every act keeps the wishes in the window.** -/
lemma Act.windowed (h : Act d A x y) (hx : x.engine.pacemaker.Windowed x.engine.state.currentView) :
    y.engine.pacemaker.Windowed y.engine.state.currentView := by
  obtain ⟨e', ψ⟩ := y
  cases h.change with
  | inert h =>
    obtain ⟨hwindow, hnodup⟩ := hx
    unfold Pacemaker.bucket at hnodup
    rw [← h.wishes] at hwindow hnodup
    rw [h.currentView]
    exact ⟨hwindow, hnodup⟩
  | wish target validator highestQc signature _ haccepted _ =>
    exact hx.addWish haccepted.window.1 haccepted.window.2 _ _ _ _
  | move _ _ _ _ hlt _ => exact hx.clear hlt
  | moveEpoch view _ _ _ _ _ _ _ _ _ _ => exact Pacemaker.windowed_new view
  | _ => exact hx

/-- **Bounded pacemaker memory.**  In every state of every run with crashes, the pacemaker holds
wishes for at most three target views, and in each at most one of a validator; so it does when the
next wish is recorded, before the view changes for it. -/
theorem wishes_bounded (d : Deps σ) (cfg : NodeConfig) {e : Engine σ} (hrun : CrashRun d cfg e) :
    e.pacemaker.Bounded ∧ ∀ target w, AcceptedWish d e target w →
        (e.pacemaker.addWish e.state.validatorSet target w.validator w.highestQc
          w.signature).2.Bounded := by
  have hlaunch : ∀ trace app evidence, (cfg.launch d trace app evidence).pacemaker.Windowed
        (cfg.launch d trace app evidence).state.currentView := by
    intro trace app evidence
    rw [(NodeConfig.forgotten_launch d cfg trace app evidence).pacemaker]
    exact Pacemaker.windowed_new _
  obtain ⟨φ, -, -, hinv⟩ := CrashRunWhere.invariant (A := .all)
    (I := fun x => x.engine.pacemaker.Windowed x.engine.state.currentView)
    (fun x y _ h hx => h.windowed hx) (fun e label _ => labelOk_all label) holds_all
    (fun app evidence => hlaunch [] app evidence)
    (fun _ _ p app evidence _ _ _ _ => hlaunch (NodeConfig.restartTrace p) app evidence) hrun
  exact ⟨hinv.bounded, fun target w haccepted =>
    (hinv.addWish haccepted.window.1 haccepted.window.2 _ _ _ _).bounded⟩

/-- A node that skipped two views, with wishes for the view it should have entered, for its view and
for the next one. -/
def crowded : Engine Unit :=
  Sample.steps (Sample.pair.deps Sample.replica) [plainWish 2 0 2,
      .message Sample.env none (.timeoutCert (Sample.tc Sample.pair.validatorSet [0] 0 3
        (Sample.genesisQc Sample.pair.validatorSet))),
      plainWish 2 0 4, plainWish 2 0 5]
    ((Sample.pair.config Sample.replica).launch (Sample.pair.deps Sample.replica) [] () .empty)

/-- Three target views can be reached. -/
theorem wishes_bounded_crowded : crowded.pacemaker.Bounded ∧ crowded.state.currentView = 4
      ∧ crowded.pacemaker.wishes.keys.length = 3 := by
  have hrun : CrashRun (Sample.pair.deps Sample.replica) (Sample.pair.config Sample.replica)
      crowded := Sample.crashRun_steps (.start () .empty) _
  exact ⟨(wishes_bounded _ _ hrun).1, by decide +kernel, by decide +kernel⟩

end Hotmint
