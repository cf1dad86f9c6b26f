/-
Routes to validators (`PeerMap` and `handle_epoch_change` of `service.rs` in `hotmint-network`).

* `PeerMap`: a map of validators to peers and one of peers to validators;
* `PeerMap.Inverse`: each is the inverse of the other, kept by `insert` and `remove`;
* `Router.handleEpochChange`: the routes of a new validator set;
* `Settled`: what the loop over the new validators has done so far, kept by every round
  (`Settled.route`): **a later round does not take away what an earlier one has given**;
* `routes_follow_keys`: **the maps are inverse in every run, and after an epoch change exactly the
  new validators have a route, each to the peer of its new key**.
-/
import Hotmint.Library.Retain
import Hotmint.Network.Pex
import Hotmint.Types.ValidatorSet
import Mathlib.Data.List.Induction

namespace Hotmint.Network

open List

/-- `PeerMap`. -/
structure PeerMap where
  validatorToPeer : AList fun _ : ℕ => PeerId
  peerToValidator : AList fun _ : PeerId => ℕ

namespace PeerMap

/-- `PeerMap::new`. -/
def new : PeerMap := ⟨∅, ∅⟩

/-- `PeerMap::insert`. -/
def insert (m : PeerMap) (vid : ℕ) (pid : PeerId) : PeerMap :=
  let oldPid := m.validatorToPeer.lookup vid
  let validatorToPeer := m.validatorToPeer.insert vid pid
  let peerToValidator :=
    match oldPid with
    | some oldPid => m.peerToValidator.erase oldPid
    | none => m.peerToValidator
  match peerToValidator.lookup pid with
  | some oldVid =>
    if oldVid ≠ vid then ⟨validatorToPeer.erase oldVid, peerToValidator.insert pid vid⟩
    else ⟨validatorToPeer, peerToValidator.insert pid vid⟩
  | none => ⟨validatorToPeer, peerToValidator.insert pid vid⟩

/-- `PeerMap::remove`. -/
def remove (m : PeerMap) (vid : ℕ) : PeerMap × Option PeerId :=
  match m.validatorToPeer.lookup vid with
  | some pid => (⟨m.validatorToPeer.erase vid, m.peerToValidator.erase pid⟩, some pid)
  | none => (m, none)

/-- The peer that a validator is routed to. -/
def route (m : PeerMap) (vid : ℕ) : Option PeerId := m.validatorToPeer.lookup vid

/-- The validator behind a peer. -/
def origin (m : PeerMap) (pid : PeerId) : Option ℕ := m.peerToValidator.lookup pid

/-- The two maps are inverse to each other. -/
def Inverse (m : PeerMap) : Prop := ∀ vid pid, m.route vid = some pid ↔ m.origin pid = some vid

lemma inverse_new : new.Inverse := by
  intro vid pid
  constructor <;> intro h <;> cases h

/-- The peers once the route of a validator is taken back. -/
def unlinked (m : PeerMap) (vid : ℕ) : AList fun _ : PeerId => ℕ :=
  match m.validatorToPeer.lookup vid with
  | some oldPid => m.peerToValidator.erase oldPid
  | none => m.peerToValidator

lemma lookup_unlinked {m : PeerMap} (h : m.Inverse) (vid : ℕ) (p : PeerId) :
    (m.unlinked vid).lookup p = if m.origin p = some vid then none else m.origin p := by
  have hroute := h vid
  unfold unlinked
  unfold route at hroute
  cases hold : m.validatorToPeer.lookup vid with
  | none =>
    have hnot : m.origin p ≠ some vid := fun hp => by
      rw [← hroute p, hold] at hp
      cases hp
    rw [if_neg hnot]
    rfl
  | some oldPid =>
    have hiff : m.origin p = some vid ↔ p = oldPid := by
      rw [← hroute p, hold, Option.some.injEq, eq_comm]
    simp only [AList.lookup_erase_ite, hiff]
    rfl

section

variable {m : PeerMap} (h : m.Inverse) (vid : ℕ) (pid : PeerId)

include h

/-- `insert`, with the validator that was routed to the peer before. -/
lemma insert_eq : (∃ oldVid, m.origin pid = some oldVid ∧ oldVid ≠ vid ∧ m.insert vid pid
        = ⟨(m.validatorToPeer.insert vid pid).erase oldVid, (m.unlinked vid).insert pid vid⟩)
      ∨ ((∀ oldVid, m.origin pid = some oldVid → oldVid = vid) ∧ m.insert vid pid
        = ⟨m.validatorToPeer.insert vid pid, (m.unlinked vid).insert pid vid⟩) := by
  have hlookup := lookup_unlinked h vid pid
  have hinsert : m.insert vid pid =
      match (m.unlinked vid).lookup pid with
      | some oldVid =>
        if oldVid ≠ vid then
          ⟨(m.validatorToPeer.insert vid pid).erase oldVid, (m.unlinked vid).insert pid vid⟩
        else ⟨m.validatorToPeer.insert vid pid, (m.unlinked vid).insert pid vid⟩
      | none => ⟨m.validatorToPeer.insert vid pid, (m.unlinked vid).insert pid vid⟩ := rfl
  rw [hinsert]
  cases hold : (m.unlinked vid).lookup pid with
  | none =>
    refine .inr ⟨fun oldVid horigin => ?_, rfl⟩
    rw [hold, horigin] at hlookup
    by_contra hne
    rw [if_neg (fun heq => hne (Option.some.inj heq))] at hlookup
    cases hlookup
  | some oldVid =>
    rw [hold] at hlookup
    split_ifs at hlookup with hvid
    have hne : oldVid ≠ vid := fun heq => hvid (hlookup.symm.trans (congrArg some heq))
    exact .inl ⟨oldVid, hlookup.symm, hne, if_pos hne⟩

/-- **What `insert` makes of the routes**: the validator is routed to the peer, and who was routed
there before is not routed any more. -/
lemma route_insert (v : ℕ) : (m.insert vid pid).route v
      = if v = vid then some pid else if m.route v = some pid then none else m.route v := by
  have hinverse := h v pid
  unfold route at hinverse ⊢
  rcases insert_eq h vid pid with ⟨oldVid, hold, hne, heq⟩ | ⟨hnone, heq⟩
  · rw [heq, AList.lookup_erase_ite, AList.lookup_insert_ite]
    rw [hold] at hinverse
    grind
  · rw [heq, AList.lookup_insert_ite]
    grind

lemma origin_insert (p : PeerId) : (m.insert vid pid).origin p
      = if p = pid then some vid else if m.origin p = some vid then none else m.origin p := by
  have hpeers : (m.insert vid pid).peerToValidator = (m.unlinked vid).insert pid vid := by
    rcases insert_eq h vid pid with ⟨_, _, _, heq⟩ | ⟨_, heq⟩ <;> rw [heq]
  rw [origin, hpeers, AList.lookup_insert_ite, lookup_unlinked h]

lemma Inverse.insert : (m.insert vid pid).Inverse := by
  intro v p
  rw [route_insert h, origin_insert h]
  have hv := h v p
  have hvid := h vid p
  have hpid := h v pid
  grind

end

/-- **What `remove` makes of the routes.** -/
lemma route_remove (m : PeerMap) (vid v : ℕ) :
    (m.remove vid).1.route v = if v = vid then none else m.route v := by
  unfold remove
  cases hold : m.validatorToPeer.lookup vid with
  | none =>
    split_ifs with hv
    · rw [hv]
      exact hold
    · rfl
  | some pid => exact m.validatorToPeer.lookup_erase_ite vid v

lemma Inverse.remove {m : PeerMap} (h : m.Inverse) (vid : ℕ) : (m.remove vid).1.Inverse := by
  intro v p
  rw [route_remove]
  have horigin : (m.remove vid).1.origin p = (m.unlinked vid).lookup p := by
    unfold PeerMap.remove unlinked
    cases m.validatorToPeer.lookup vid with
    | none => rfl
    | some pid => rfl
  rw [horigin, lookup_unlinked h]
  have hvid := h vid p
  have hp := h v p
  grind

end PeerMap

/-- The routing state of the service. -/
structure Router where
  peerMap : PeerMap
  validatorKeys : AList fun _ : ℕ => PublicKey
  validatorIdsOrdered : List ℕ
  currentValidatorSet : ValidatorSet
  persistentPeers : AList fun _ : ℕ => PeerId

namespace Router

variable (peerIdOf : PublicKey → Option PeerId)

/-- Validators with their keys. -/
def keysOf (validators : List (ℕ × PublicKey)) : AList fun _ : ℕ => PublicKey :=
  validators.foldl (fun keys v => keys.insert v.1 v.2) ∅

/-- The validators of a set, with their keys. -/
def members (vs : ValidatorSet) : List (ℕ × PublicKey) :=
  vs.validators.map fun v => (v.id, v.publicKey)

/-- The service at its start, without routes. -/
def new (vs : ValidatorSet) : Router where
  peerMap := .new
  validatorKeys := keysOf (members vs)
  validatorIdsOrdered := (members vs).map Prod.fst
  currentValidatorSet := vs
  persistentPeers := ∅

/-- One round of the loop over the new validators; a key that is no key of Ed25519 gives no peer. -/
def routeOne (keys : AList fun _ : ℕ => PublicKey) (m : PeerMap) (v : ℕ × PublicKey) : PeerMap :=
  if (m.validatorToPeer.lookup v.1).isSome ∧ keys.lookup v.1 = some v.2 then m
  else
    match peerIdOf v.2 with
    | some pid => m.insert v.1 pid
    | none => m

/-- The loop that removes the routes of others. -/
def removeOthers (newIds : List ℕ) (m : PeerMap) : PeerMap :=
  (m.validatorToPeer.keys.filter (· ∉ newIds)).foldl (fun m vid => (m.remove vid).1) m

/-- `handle_epoch_change`. -/
def handleEpochChange (r : Router) (newSet : ValidatorSet) : Router :=
  let validators := members newSet
  let newIds := validators.map Prod.fst
  let peerMap := validators.foldl (routeOne peerIdOf r.validatorKeys) r.peerMap
  let peerMap := removeOthers newIds peerMap
  { peerMap
    validatorKeys := keysOf validators
    validatorIdsOrdered := newIds
    currentValidatorSet := newSet
    persistentPeers := peerMap.validatorToPeer }

/-- What changes the routes. -/
inductive Call
  | insert (vid : ℕ) (pid : PeerId)
  | remove (vid : ℕ)
  | epochChange (newSet : ValidatorSet)

def perform (r : Router) : Call → Router
  | .insert vid pid => { r with peerMap := r.peerMap.insert vid pid }
  | .remove vid => { r with peerMap := (r.peerMap.remove vid).1 }
  | .epochChange newSet => r.handleEpochChange peerIdOf newSet

/-- A run of the service. -/
def performAll (initial : ValidatorSet) (calls : List Call) : Router :=
  calls.foldl (perform peerIdOf) (new initial)

variable {peerIdOf} {keys : AList fun _ : ℕ => PublicKey} {m : PeerMap}

/-! ### Inverse maps -/

lemma inverse_routeOne (h : m.Inverse)
    (v : ℕ × PublicKey) : (routeOne peerIdOf keys m v).Inverse := by
  unfold routeOne
  split_ifs
  · exact h
  · split
    · exact h.insert _ _
    · exact h

/-- Routes removed one after another. -/
lemma removeAll_spec (h : m.Inverse) (vids : List ℕ) :
    (vids.foldl (fun m vid => (m.remove vid).1) m).Inverse
      ∧ ∀ v, (vids.foldl (fun m vid => (m.remove vid).1) m).route v
        = if v ∈ vids then none else m.route v := by
  induction vids generalizing m with
  | nil => exact ⟨h, fun v => (if_neg not_mem_nil).symm⟩
  | cons vid vids ih =>
    obtain ⟨hinverse, hroute⟩ := ih (h.remove vid)
    refine ⟨hinverse, fun v => ?_⟩
    rw [foldl_cons, hroute, PeerMap.route_remove]
    by_cases hv : v = vid
    · rw [if_pos hv, ite_self, if_pos (mem_cons.mpr (.inl hv))]
    · rw [if_neg hv]
      exact if_congr (by rw [mem_cons, or_iff_right hv]) rfl rfl

/-- **Exactly the routes of others are removed.** -/
lemma removeOthers_spec (h : m.Inverse) (newIds : List ℕ) :
    (removeOthers newIds m).Inverse
      ∧ ∀ v, (removeOthers newIds m).route v = if v ∈ newIds then m.route v else none := by
  obtain ⟨hinverse, hroute⟩ := removeAll_spec h (m.validatorToPeer.keys.filter (· ∉ newIds))
  refine ⟨hinverse, fun v => (hroute v).trans ?_⟩
  by_cases hnew : v ∈ newIds
  · rw [if_pos hnew, if_neg fun hmem => ?_]
    exact absurd hnew (of_decide_eq_true (mem_filter.mp hmem).2)
  · rw [if_neg hnew]
    split_ifs with hmem
    · rfl
    · refine AList.lookup_eq_none.mpr fun hkey => hmem ?_
      exact mem_filter.mpr ⟨hkey, decide_eq_true hnew⟩

lemma inverse_handleEpochChange {r : Router} (h : r.peerMap.Inverse) (newSet : ValidatorSet) :
    (r.handleEpochChange peerIdOf newSet).peerMap.Inverse := by
  refine (removeOthers_spec ?_ _).1
  generalize members newSet = validators
  induction validators using reverseRecOn with
  | nil => exact h
  | append_singleton validators v ih =>
    rw [foldl_append]
    exact inverse_routeOne ih v

/-- **Every call keeps the maps inverse.** -/
lemma inverse_perform {r : Router} (h : r.peerMap.Inverse) (call : Call) :
    (r.perform peerIdOf call).peerMap.Inverse := by
  cases call with
  | insert vid pid => exact h.insert vid pid
  | remove vid => exact h.remove vid
  | epochChange newSet => exact inverse_handleEpochChange h newSet

lemma inverse_performAll (initial : ValidatorSet) (calls : List Call) :
    (performAll peerIdOf initial calls).peerMap.Inverse := by
  induction calls using reverseRecOn with
  | nil => exact PeerMap.inverse_new
  | append_singleton calls call ih =>
    unfold performAll
    rw [foldl_append]
    exact inverse_perform ih call

/-! ### New routes -/

/-- The validator is routed to the peer of the key. -/
def RoutedBy (peerIdOf : PublicKey → Option PeerId) (m : PeerMap) (vid : ℕ) (key : PublicKey) :
    Prop :=
  ∃ pid, peerIdOf key = some pid ∧ m.route vid = some pid

/-- The loop after some of the validators: those are routed to the peers of their new keys, and of
the others those that would be passed over are. -/
structure Settled (peerIdOf : PublicKey → Option PeerId) (keys : AList fun _ : ℕ => PublicKey)
    (done todo : List (ℕ × PublicKey)) (m : PeerMap) : Prop where
  inverse : m.Inverse
  done : ∀ v ∈ done, RoutedBy peerIdOf m v.1 v.2
  todo : ∀ v ∈ todo, (m.route v.1).isSome → keys.lookup v.1 = some v.2 → RoutedBy peerIdOf m v.1 v.2

/-- **One round**: a validator that is routed anew takes its peer only from one that is not settled
yet, which then is not passed over. -/
lemma Settled.routeOne {done todo : List (ℕ × PublicKey)} {v : ℕ × PublicKey}
    (hinj : ∀ key key' pid, peerIdOf key = some pid → peerIdOf key' = some pid → key = key')
    (hvalid : (peerIdOf v.2).isSome) (hdone : ∀ u ∈ done, u.1 ≠ v.1 ∧ u.2 ≠ v.2)
    (htodo : ∀ u ∈ todo, u.1 ≠ v.1) (h : Settled peerIdOf keys done (v :: todo) m) :
    Settled peerIdOf keys (done ++ [v]) todo (routeOne peerIdOf keys m v) := by
  unfold Router.routeOne
  split_ifs with hkept
  · refine ⟨h.inverse, fun u hu => ?_, fun u hu => h.todo u (.tail _ hu)⟩
    rcases mem_append.mp hu with hu | hu
    · exact h.done u hu
    · rw [mem_singleton.mp hu]
      exact h.todo v mem_cons_self hkept.1 hkept.2
  · obtain ⟨pid, hpid⟩ := Option.isSome_iff_exists.mp hvalid
    rw [hpid]
    refine ⟨h.inverse.insert _ _, fun u hu => ?_, fun u hu hrouted hkey => ?_⟩
    · rcases mem_append.mp hu with hu | hu
      · obtain ⟨pid', hpid', hroute⟩ := h.done u hu
        obtain ⟨hid, hkey⟩ := hdone u hu
        have hpeer : m.route u.1 ≠ some pid := fun heq => hkey (hinj _ _ pid (by
          rw [hpid', ← hroute, heq]) hpid)
        refine ⟨pid', hpid', ?_⟩
        rw [PeerMap.route_insert h.inverse, if_neg hid, if_neg hpeer, hroute]
      · rw [mem_singleton.mp hu]
        exact ⟨pid, hpid, by rw [PeerMap.route_insert h.inverse, if_pos rfl]⟩
    · unfold RoutedBy
      rw [PeerMap.route_insert h.inverse, if_neg (htodo u hu)] at hrouted ⊢
      split_ifs at hrouted ⊢ with htaken
      · cases hrouted
      · exact h.todo u (.tail _ hu) hrouted hkey

/-- **The loop.** -/
lemma Settled.foldl
    (hinj : ∀ key key' pid, peerIdOf key = some pid → peerIdOf key' = some pid → key = key')
    {done todo : List (ℕ × PublicKey)} (hvalid : ∀ v ∈ todo, (peerIdOf v.2).isSome)
    (hdistinct : (done ++ todo).Pairwise fun u v => u.1 ≠ v.1 ∧ u.2 ≠ v.2)
    (h : Settled peerIdOf keys done todo m) :
    Settled peerIdOf keys (done ++ todo) [] (todo.foldl (Router.routeOne peerIdOf keys) m) := by
  induction todo generalizing done m with
  | nil =>
    rw [append_nil]
    exact h
  | cons v todo ih =>
    obtain ⟨-, htail, hcross⟩ := pairwise_append.mp hdistinct
    have hround := h.routeOne hinj (hvalid v mem_cons_self)
      (fun u hu => hcross u hu v mem_cons_self)
      (fun u hu => ((pairwise_cons.mp htail).1 u hu).1.symm)
    have hsplit : done ++ v :: todo = done ++ [v] ++ todo := by simp
    rw [hsplit] at hdistinct ⊢
    exact ih (fun u hu => hvalid u (.tail _ hu)) hdistinct hround

/-- The members of a set have distinct ids and distinct keys. -/
lemma members_distinct (vs : ValidatorSet) :
    (members vs).Pairwise fun u v => u.1 ≠ v.1 ∧ u.2 ≠ v.2 :=
  pairwise_map.mpr ((pairwise_map.mp vs.nodup_id).and (pairwise_map.mp vs.nodup_key))

end Router

/-- **Routes follow keys.**  The two maps are inverse to each other in every run.  After an epoch
change from routes in which every validator is routed to the peer of its own key, exactly the
validators of the new set are routed, each to the peer of its new key. -/
theorem routes_follow_keys (peerIdOf : PublicKey → Option PeerId)
    (hinj : ∀ key key' pid, peerIdOf key = some pid → peerIdOf key' = some pid → key = key') :
    (∀ initial calls vid pid,
      (Router.performAll peerIdOf initial calls).peerMap.validatorToPeer.lookup vid = some pid
        ↔ (Router.performAll peerIdOf initial calls).peerMap.peerToValidator.lookup pid = some vid)
    ∧ ∀ (r : Router) (newSet : ValidatorSet), r.peerMap.Inverse →
      (∀ vid key, r.validatorKeys.lookup vid = some key →
        ∃ pid, peerIdOf key = some pid ∧ r.peerMap.validatorToPeer.lookup vid = some pid) →
      (∀ v ∈ newSet.validators, (peerIdOf v.publicKey).isSome) →
      (∀ v ∈ newSet.validators, ∃ pid, peerIdOf v.publicKey = some pid
        ∧ (r.handleEpochChange peerIdOf newSet).peerMap.validatorToPeer.lookup v.id = some pid)
      ∧ ∀ vid, vid ∉ newSet.validators.map (·.id) →
        (r.handleEpochChange peerIdOf newSet).peerMap.validatorToPeer.lookup vid = none := by
  refine ⟨Router.inverse_performAll, fun r newSet hinverse hrouted hvalid => ?_⟩
  have hstart : Router.Settled peerIdOf r.validatorKeys [] (Router.members newSet) r.peerMap :=
    ⟨hinverse, fun _ h => absurd h not_mem_nil, fun v _ _ hkey => hrouted v.1 v.2 hkey⟩
  have hmembers : ∀ v ∈ Router.members newSet, (peerIdOf v.2).isSome := by
    intro v hv
    obtain ⟨info, hinfo, rfl⟩ := mem_map.mp hv
    exact hvalid info hinfo
  have hend := hstart.foldl hinj hmembers (Router.members_distinct newSet)
  have hroute := (Router.removeOthers_spec hend.inverse
    ((Router.members newSet).map Prod.fst)).2
  have hids : (Router.members newSet).map Prod.fst = newSet.validators.map (·.id) := by
    unfold Router.members
    rw [map_map]
    rfl
  refine ⟨fun v hv => ?_, fun vid hout => (hroute vid).trans (if_neg (hids ▸ hout))⟩
  obtain ⟨pid, hpid, hpeer⟩ := hend.done (v.id, v.publicKey) (mem_map.mpr ⟨v, hv, rfl⟩)
  refine ⟨pid, hpid, ((hroute v.id).trans (if_pos ?_)).trans hpeer⟩
  rw [hids]
  exact mem_map.mpr ⟨v, hv, rfl⟩

/-- The keys of the sample sets. -/
def keyOf (byte : UInt8) : PublicKey := ⟨replicate 32 byte⟩

/-- Two validators with keys 1 and 2. -/
def firstSet : ValidatorSet :=
  ⟨[⟨0, keyOf 1, 1⟩, ⟨1, keyOf 2, 1⟩], by decide, by decide, by decide, by decide, by decide⟩

/-- The same validators with their keys swapped. -/
def swappedSet : ValidatorSet :=
  ⟨[⟨0, keyOf 2, 1⟩, ⟨1, keyOf 1, 1⟩], by decide, by decide, by decide, by decide, by decide⟩

/-- The peers of the two keys. -/
def peerOf (key : PublicKey) : Option PeerId :=
  if key = keyOf 1 then some "one" else if key = keyOf 2 then some "two" else none

/-- The service with routes to both validators. -/
def routed : Router :=
  Router.performAll peerOf firstSet [.insert 0 "one", .insert 1 "two"]

/-- Two validators swap their keys. -/
theorem routes_follow_keys_swapped :
    (routed.handleEpochChange peerOf swappedSet).peerMap.validatorToPeer.lookup 0 = some "two"
      ∧ (routed.handleEpochChange peerOf swappedSet).peerMap.validatorToPeer.lookup 1
        = some "one" := by
  have hinj : ∀ key key' pid, peerOf key = some pid → peerOf key' = some pid → key = key' := by
    intro key key' pid h h'
    unfold peerOf at h h'
    split_ifs at h h' with hone hone' htwo' htwo
    · rw [hone, hone']
    · exact absurd (h.trans h'.symm) (by decide)
    · exact absurd (h.trans h'.symm) (by decide)
    · rename_i htwo'
      rw [htwo, htwo']
  have hrouted : ∀ vid key, routed.validatorKeys.lookup vid = some key →
      ∃ pid, peerOf key = some pid ∧ routed.peerMap.validatorToPeer.lookup vid = some pid := by
    intro vid key hkey
    have hentries : ∀ entry ∈ routed.validatorKeys.entries, (peerOf entry.2).isSome
        ∧ routed.peerMap.validatorToPeer.lookup entry.1 = peerOf entry.2 := by decide
    obtain ⟨hsome, heq⟩ := hentries ⟨vid, key⟩ (AList.mem_lookup_iff.mp hkey)
    obtain ⟨pid, hpid⟩ := Option.isSome_iff_exists.mp hsome
    exact ⟨pid, hpid, heq.trans hpid⟩
  obtain ⟨hnew, -⟩ := (routes_follow_keys peerOf hinj).2 routed swappedSet
    (Router.inverse_performAll _ _) hrouted (by decide)
  refine ⟨?_, ?_⟩
  · obtain ⟨pid, hpid, hroute⟩ := hnew ⟨0, keyOf 2, 1⟩ mem_cons_self
    exact hroute.trans (hpid.symm.trans (by decide))
  · obtain ⟨pid, hpid, hroute⟩ := hnew ⟨1, keyOf 1, 1⟩ (.tail _ mem_cons_self)
    exact hroute.trans (hpid.symm.trans (by decide))

end Hotmint.Network
