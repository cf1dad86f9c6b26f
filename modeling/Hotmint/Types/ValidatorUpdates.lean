/-
What validator updates do to a validator set.

* `mem_applyUpdate`, `mem_applyUpdates`: the members after one update, and after updates
  of distinct validators;
* `tryNew_ok`: the lists that `try_new` accepts;
* `get_eq_some`: looking a validator up;
* `applyUpdateInPlace_eq`: the edit of the first entry in the source is the edit of the
  model;
* `updates_compose`: **updates compose, and the last one of an id counts**.
-/
import Hotmint.Types.ValidatorSet
import Mathlib.Data.List.Perm.Basic

namespace Hotmint

open List ValidatorSet
variable {infos vs : List ValidatorInfo} {v : ValidatorInfo}

/-- In a list of distinct ids an entry is found under its id, and only there. -/
lemma find?_id_eq_some (h : (infos.map (·.id)).Nodup) {id : ℕ}
    : infos.find? (·.id = id) = some v ↔ v ∈ infos ∧ v.id = id := by
  constructor
  · intro hfind
    exact ⟨mem_of_find?_eq_some hfind, of_decide_eq_true (find?_some hfind :)⟩
  · rintro ⟨hv, rfl⟩
    cases hfind : infos.find? (·.id = v.id) with
    | none => exact absurd (find?_eq_none.mp hfind v hv) (by simp)
    | some w =>
      have hw : w ∈ infos := mem_of_find?_eq_some hfind
      have hid : w.id = v.id := of_decide_eq_true (find?_some hfind :)
      exact congrArg some (inj_on_of_nodup_map h hw hv hid)

namespace ValidatorSet

/-- A member is found under its id, and only there. -/
lemma get_eq_some {vs : ValidatorSet} {id : ℕ} :
    vs.get id = some v ↔ v ∈ vs.validators ∧ v.id = id :=
  find?_id_eq_some vs.nodup_id

lemma get_eq_none {vs : ValidatorSet} {id : ℕ} :
    vs.get id = none ↔ ∀ v ∈ vs.validators, v.id ≠ id := by
  unfold get
  simp

end ValidatorSet

open ValidatorSet

/-! ### Updates -/

/-- The validator that an update describes. -/
def ValidatorUpdate.info (u : ValidatorUpdate) : ValidatorInfo := ⟨u.id, u.publicKey, u.power⟩

/-- **The members after an update**: the others, and the validator it describes unless it
removes it. -/
lemma mem_applyUpdate {u : ValidatorUpdate} :
    v ∈ applyUpdate infos u ↔ (v ∈ infos ∧ u.id ≠ v.id) ∨ (u.power ≠ 0 ∧ v = u.info) := by
  unfold applyUpdate
  split_ifs with hzero hany
  · rw [mem_filter, decide_eq_true_iff]
    constructor
    · exact fun h => .inl ⟨h.1, h.2.symm⟩
    · rintro (h | h)
      · exact ⟨h.1, h.2.symm⟩
      · exact (h.1 hzero).elim
  · obtain ⟨w, hw, hid⟩ := any_eq_true.mp hany
    have hid := of_decide_eq_true hid
    rw [mem_map]
    constructor
    · rintro ⟨w', hw', rfl⟩
      split_ifs with heq
      · exact .inr ⟨hzero, by rw [ValidatorUpdate.info, ← heq]⟩
      · exact .inl ⟨hw', fun hne => heq hne.symm⟩
    · rintro (⟨hv, hne⟩ | ⟨-, rfl⟩)
      · exact ⟨v, hv, if_neg fun heq => hne heq.symm⟩
      · refine ⟨w, hw, ?_⟩
        rw [if_pos hid, ValidatorUpdate.info, ← hid]
  · have hnone : ∀ w ∈ infos, u.id ≠ w.id := fun w hw heq =>
      hany (any_eq_true.mpr ⟨w, hw, decide_eq_true heq.symm⟩)
    rw [mem_append, mem_singleton]
    constructor
    · rintro (hv | rfl)
      · exact .inl ⟨hv, hnone v hv⟩
      · exact .inr ⟨hzero, rfl⟩
    · rintro (⟨hv, -⟩ | ⟨-, rfl⟩)
      · exact .inl hv
      · exact .inr rfl

/-- The ids stay distinct. -/
lemma nodup_applyUpdate (u : ValidatorUpdate)
    (h : (infos.map (·.id)).Nodup) : ((applyUpdate infos u).map (·.id)).Nodup := by
  unfold applyUpdate
  split_ifs with hzero hany
  · exact h.sublist (filter_sublist.map _)
  · rw [map_map]
    have hsame : ((·.id) ∘ fun v : ValidatorInfo =>
        if v.id = u.id then { v with power := u.power, publicKey := u.publicKey } else v)
          = (·.id) := by
      funext v
      dsimp only [Function.comp]
      split_ifs <;> rfl
    rw [hsame]
    exact h
  · rw [map_append, map_singleton]
    refine h.append (nodup_singleton _) fun id hid hid' => hany ?_
    obtain ⟨w, hw, rfl⟩ := mem_map.mp hid
    obtain heq := mem_singleton.mp hid'
    exact any_eq_true.mpr ⟨w, hw, decide_eq_true heq⟩

lemma nodup_applyUpdates (updates : List ValidatorUpdate)
    (h : (infos.map (·.id)).Nodup) : ((updates.foldl applyUpdate infos).map (·.id)).Nodup := by
  induction updates generalizing infos with
  | nil => exact h
  | cons u updates ih => exact ih (nodup_applyUpdate u h)

/-- **The members after updates of distinct validators.** -/
lemma mem_applyUpdates {updates : List ValidatorUpdate} (h : (updates.map (·.id)).Nodup) :
    v ∈ updates.foldl applyUpdate infos ↔
      (v ∈ infos ∧ ∀ u ∈ updates, u.id ≠ v.id) ∨ ∃ u ∈ updates, u.power ≠ 0 ∧ v = u.info := by
  induction updates generalizing infos with
  | nil => simp
  | cons u updates ih =>
    obtain ⟨hnew, hrest⟩ := nodup_cons.mp h
    -- a later update is of another validator than the first
    have hothers : ∀ w ∈ updates, w.id ≠ u.id := fun w hw heq =>
      hnew (mem_map.mpr ⟨w, hw, heq⟩)
    rw [foldl_cons, ih hrest, mem_applyUpdate]
    constructor
    · rintro (⟨⟨hv, hne⟩ | ⟨hpower, rfl⟩, hnone⟩ | ⟨w, hw, hpower, rfl⟩)
      · exact .inl ⟨hv, forall_mem_cons.mpr ⟨hne, hnone⟩⟩
      · exact .inr ⟨u, .head _, hpower, rfl⟩
      · exact .inr ⟨w, .tail _ hw, hpower, rfl⟩
    · rintro (⟨hv, hnone⟩ | ⟨w, hw, hpower, rfl⟩)
      · obtain ⟨hne, hnone⟩ := forall_mem_cons.mp hnone
        exact .inl ⟨.inl ⟨hv, hne⟩, hnone⟩
      · rcases mem_cons.mp hw with rfl | hw
        · exact .inl ⟨.inr ⟨hpower, rfl⟩, hothers⟩
        · exact .inr ⟨w, hw, hpower, rfl⟩

/-! ### Accepted lists -/

lemma computeTotalPower_of_lt {acc : ℕ}
    (h : acc + sumPower vs < 2 ^ 64) : computeTotalPower vs acc = .ok (acc + sumPower vs) := by
  induction vs generalizing acc with
  | nil => rfl
  | cons v vs ih =>
    have hcons : sumPower (v :: vs) = v.power + sumPower vs := sum_cons
    rw [hcons, ← Nat.add_assoc] at h ⊢
    rw [computeTotalPower, if_pos (by omega), ih h]

lemma checkMembers_of {ids : List ℕ} {keys : List PublicKey}
    (hids : (vs.map (·.id)).Nodup) (hnew : ∀ v ∈ vs, v.id ∉ ids)
    (hkeys : (vs.map (·.publicKey)).Nodup) (hnew' : ∀ v ∈ vs, v.publicKey ∉ keys)
    (hlength : ∀ v ∈ vs, v.publicKey.bytes.length = 32) : checkMembers vs ids keys = .ok () := by
  induction vs generalizing ids keys with
  | nil => rfl
  | cons v vs ih =>
    obtain ⟨hid, hids⟩ := nodup_cons.mp hids
    obtain ⟨hkey, hkeys⟩ := nodup_cons.mp hkeys
    obtain ⟨hnewHead, hnew⟩ := forall_mem_cons.mp hnew
    obtain ⟨hnewHead', hnew'⟩ := forall_mem_cons.mp hnew'
    obtain ⟨hlengthHead, hlength⟩ := forall_mem_cons.mp hlength
    rw [checkMembers, if_neg hnewHead, if_neg (not_not.mpr hlengthHead), if_neg hnewHead']
    refine ih hids (fun w hw hmem => ?_) hkeys (fun w hw hmem => ?_) hlength
    · rcases mem_cons.mp hmem with heq | hmem
      · exact hid (mem_map.mpr ⟨w, hw, heq⟩)
      · exact hnew w hw hmem
    · rcases mem_cons.mp hmem with heq | hmem
      · exact hkey (mem_map.mpr ⟨w, hw, heq⟩)
      · exact hnew' w hw hmem

lemma tryNew_validators {set : ValidatorSet} (h : tryNew vs = .ok set) : set.validators = vs := by
  unfold tryNew at h
  split at h
  · exact congrArg validators (Except.ok.inj h).symm
  · cases h

/-- **The lists that are accepted.** -/
lemma tryNew_ok (hsum : sumPower vs < 2 ^ 64)
    (hzero : vs ≠ [] → sumPower vs ≠ 0) (hids : (vs.map (·.id)).Nodup)
    (hkeys : (vs.map (·.publicKey)).Nodup) (hlength : ∀ v ∈ vs, v.publicKey.bytes.length = 32) :
    ∃ set, tryNew vs = .ok set ∧ set.validators = vs := by
  have hvalid : validateMembers vs = .ok () := by
    unfold validateMembers
    rw [computeTotalPower_of_lt (by rwa [Nat.zero_add]), Nat.zero_add]
    dsimp only
    rw [if_neg fun h => hzero h.1 h.2]
    exact checkMembers_of hids (fun _ _ => not_mem_nil) hkeys (fun _ _ => not_mem_nil) hlength
  have hnew : ∃ set, tryNew vs = .ok set := by
    unfold tryNew
    split
    · exact ⟨_, rfl⟩
    · next err herr =>
        rw [hvalid] at herr
        cases herr
  obtain ⟨set, hset⟩ := hnew
  exact ⟨set, hset, tryNew_validators hset⟩

/-! ### Updates in place -/

/-- `infos.iter_mut().find(..)` and the assignments to what it finds: the first entry of the
id is changed, and there may be none. -/
def editFirst (u : ValidatorUpdate) : List ValidatorInfo → Option (List ValidatorInfo)
  | [] => none
  | v :: infos =>
    if v.id = u.id then some ({ v with power := u.power, publicKey := u.publicKey } :: infos)
    else (editFirst u infos).map (v :: ·)

/-- The body of the loop of `try_apply_updates`, statement by statement. -/
def applyUpdateInPlace (infos : List ValidatorInfo) (u : ValidatorUpdate) : List ValidatorInfo :=
  if u.power = 0 then infos.filter (·.id ≠ u.id)
  else
    match editFirst u infos with
    | some edited => edited
    | none => infos ++ [⟨u.id, u.publicKey, u.power⟩]

/-- Among distinct ids, changing the first entry of an id changes all of them. -/
lemma editFirst_eq (u : ValidatorUpdate) (h : (infos.map (·.id)).Nodup) :
    editFirst u infos = if infos.any (·.id = u.id) then some (infos.map fun v =>
      if v.id = u.id then { v with power := u.power, publicKey := u.publicKey } else v)
      else none := by
  induction infos with
  | nil => rfl
  | cons v infos ih =>
    obtain ⟨hv, hrest⟩ := nodup_cons.mp h
    rw [editFirst, any_cons, map_cons]
    by_cases hid : v.id = u.id
    · have hothers : ∀ w ∈ infos, w.id ≠ u.id := fun w hw heq =>
        hv (mem_map.mpr ⟨w, hw, heq.trans hid.symm⟩)
      have hsame : (infos.map fun w => if w.id = u.id
          then { w with power := u.power, publicKey := u.publicKey } else w) = infos :=
        (map_congr_left fun w hw => if_neg (hothers w hw)).trans (map_id' infos)
      simp only [hid, if_true, decide_true, Bool.true_or, hsame]
    · simp only [hid, if_false, decide_false, Bool.false_or, ih hrest]
      split_ifs <;> rfl

/-- **The loop body of the source is the update of the model.** -/
lemma applyUpdateInPlace_eq (u : ValidatorUpdate)
    (h : (infos.map (·.id)).Nodup) : applyUpdateInPlace infos u = applyUpdate infos u := by
  unfold applyUpdateInPlace applyUpdate
  split_ifs with hzero hany
  · rfl
  · rw [editFirst_eq u h, if_pos hany]
  · rw [editFirst_eq u h, if_neg hany]

lemma applyUpdatesInPlace_eq (updates : List ValidatorUpdate) (h : (infos.map (·.id)).Nodup) :
    updates.foldl applyUpdateInPlace infos = updates.foldl applyUpdate infos := by
  induction updates generalizing infos with
  | nil => rfl
  | cons u updates ih =>
    rw [foldl_cons, foldl_cons, applyUpdateInPlace_eq u h]
    exact ih (nodup_applyUpdate u h)

/-! ### The last update of an id -/

/-- The entry that an update leaves for its id. -/
def ValidatorUpdate.entry (u : ValidatorUpdate) : Option ValidatorInfo :=
  if u.power = 0 then none else some u.info

/-- The entry of an id after updates: that of its last update, or else the old one. -/
def entryAfter (updates : List ValidatorUpdate) (id : ℕ) (old : Option ValidatorInfo) :
    Option ValidatorInfo :=
  match updates.reverse.find? (·.id = id) with
  | some u => u.entry
  | none => old

/-- One update decides the entry of its id. -/
lemma find?_applyUpdate (u : ValidatorUpdate) (h : (infos.map (·.id)).Nodup) (id : ℕ) :
    (applyUpdate infos u).find? (·.id = id)
      = if u.id = id then u.entry else infos.find? (·.id = id) := by
  ext v
  rw [find?_id_eq_some (nodup_applyUpdate u h), mem_applyUpdate]
  split_ifs with hid
  · subst hid
    unfold ValidatorUpdate.entry
    split_ifs with hzero
    · constructor
      · rintro ⟨⟨-, hne⟩ | ⟨hpower, -⟩, heq⟩
        · exact (hne heq.symm).elim
        · exact (hpower hzero).elim
      · exact False.elim
    · constructor
      · rintro ⟨⟨-, hne⟩ | ⟨-, rfl⟩, heq⟩
        · exact (hne heq.symm).elim
        · rfl
      · intro heq
        cases heq
        exact ⟨.inr ⟨hzero, rfl⟩, rfl⟩
  · rw [find?_id_eq_some h]
    constructor
    · rintro ⟨⟨hv, -⟩ | ⟨-, rfl⟩, heq⟩
      · exact ⟨hv, heq⟩
      · exact (hid heq).elim
    · rintro ⟨hv, rfl⟩
      exact ⟨.inl ⟨hv, hid⟩, rfl⟩

/-- **After updates, the last one of an id counts.** -/
lemma find?_applyUpdates (updates : List ValidatorUpdate) (h : (infos.map (·.id)).Nodup) (id : ℕ) :
    (updates.foldl applyUpdate infos).find? (·.id = id)
      = entryAfter updates id (infos.find? (·.id = id)) := by
  induction updates generalizing infos with
  | nil => rfl
  | cons u updates ih =>
    rw [foldl_cons, ih (nodup_applyUpdate u h), find?_applyUpdate u h, entryAfter,
      entryAfter, reverse_cons, find?_append]
    cases updates.reverse.find? (·.id = id) with
    | some last => rfl
    | none =>
      by_cases hid : u.id = id
      · simp [hid]
      · simp [hid]

/-- **Updates compose.**  When `u₁` is accepted, applying `u₁` followed by `u₂` in one call is
applying `u₂` to the result of `u₁`: the same set in the same order, or the same error.  The
loop is that of the source, which edits entries in place.  The entry of an id after the
accepted updates is that of its last update, none when it has power zero, and the old entry
when there is no update; the members are exactly these entries. -/
theorem ValidatorSet.updates_compose {vs set₁ : ValidatorSet} {u₁ : List ValidatorUpdate}
    (h : vs.tryApplyUpdates u₁ = .ok set₁) :
    (∀ u₂, vs.tryApplyUpdates (u₁ ++ u₂) = set₁.tryApplyUpdates u₂)
    ∧ (∀ updates, vs.tryApplyUpdates updates
        = tryNew (updates.foldl applyUpdateInPlace vs.validators))
    ∧ (∀ id, set₁.get id = entryAfter u₁ id (vs.get id))
    ∧ ∀ v, v ∈ set₁.validators ↔ entryAfter u₁ v.id (vs.get v.id) = some v := by
  have hset : set₁.validators = u₁.foldl applyUpdate vs.validators := tryNew_validators h
  have hentry : ∀ id, set₁.get id = entryAfter u₁ id (vs.get id) := by
    intro id
    rw [get, hset]
    exact find?_applyUpdates u₁ vs.nodup_id id
  refine ⟨fun u₂ => ?_, fun updates => ?_, hentry, fun v => ?_⟩
  · rw [tryApplyUpdates, tryApplyUpdates, foldl_append, hset]
  · rw [tryApplyUpdates, applyUpdatesInPlace_eq updates vs.nodup_id]
  · rw [← hentry, get_eq_some]
    simp

/-- Four validators, of power 10, 10, 10 and 70. -/
def ValidatorSet.weighted : ValidatorSet :=
  ofValidated [⟨0, ⟨replicate 32 0⟩, 10⟩, ⟨1, ⟨replicate 32 1⟩, 10⟩,
    ⟨2, ⟨replicate 32 2⟩, 10⟩, ⟨3, ⟨replicate 32 3⟩, 70⟩] (by decide)

theorem ValidatorSet.updates_compose_weighted :
    ∃ set₁, weighted.tryApplyUpdates [⟨0, ⟨replicate 32 0⟩, 0⟩, ⟨4, ⟨replicate 32 4⟩, 5⟩] = .ok set₁
      ∧ weighted.tryApplyUpdates ([⟨0, ⟨replicate 32 0⟩, 0⟩, ⟨4, ⟨replicate 32 4⟩, 5⟩]
          ++ [⟨3, ⟨replicate 32 3⟩, 60⟩])
        = set₁.tryApplyUpdates [⟨3, ⟨replicate 32 3⟩, 60⟩]
      ∧ set₁.get 0 = none ∧ set₁.get 4 = some ⟨4, ⟨replicate 32 4⟩, 5⟩ := by
  obtain ⟨set₁, hset⟩ : ∃ set₁, weighted.tryApplyUpdates
      [⟨0, ⟨replicate 32 0⟩, 0⟩, ⟨4, ⟨replicate 32 4⟩, 5⟩] = .ok set₁ := ⟨_, rfl⟩
  obtain ⟨hcompose, -, hentry, -⟩ := updates_compose hset
  exact ⟨set₁, hset, hcompose _, (hentry 0).trans (by decide), (hentry 4).trans (by decide)⟩

/-- A validator set is accepted again. -/
lemma ValidatorSet.tryNew_self (vs : ValidatorSet) : tryNew vs.validators = .ok vs := by
  obtain ⟨set, hset, hvalidators⟩ :=
    tryNew_ok vs.total_lt vs.total_ne_zero vs.nodup_id vs.nodup_key vs.key_length
  rw [hset]
  cases vs
  cases set
  cases hvalidators
  rfl

end Hotmint
