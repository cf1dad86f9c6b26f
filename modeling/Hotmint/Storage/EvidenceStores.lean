/-
The two evidence stores (`hotmint-storage/src/evidence_store.rs`).

* `EvidenceStore` of the engine model is `MemoryEvidenceStore`: a list and a set of pairs;
* `PersistentEvidenceStore`: proofs under ascending numbers, and the committed pairs under their
  16 bytes;
* `getPending_putEvidence`, `getPending_markCommitted`: what a call does to the pending proofs,
  for each of the stores;
* `SameEvidence`: the stores answer alike, kept by every call (`SameEvidence.perform`);
* `evidence_stores_agree`: **so they do after every sequence of calls, and what is committed stays
  committed**.

The stores prune differently: a proof that is filed after its pair was committed is dropped from
memory by the next commit, and stays on disk.
-/
import Hotmint.Consensus.Store
import Hotmint.Library.Firsts
import Hotmint.Library.OrderedMap
import Hotmint.Types.Encoding

namespace Hotmint

open List

/-- What proofs are deduplicated and committed by. -/
def EquivocationProof.pair (proof : EquivocationProof) : ℕ × ℕ := (proof.view, proof.validator)

/-- A call of an evidence store.  `reopen` stands for `flush`, the end of the process, and `open`
on the same directory. -/
inductive EvidenceCall
  | putEvidence (proof : EquivocationProof)
  | markCommitted (view validator : ℕ)
  | reopen
deriving DecidableEq

/-- Views and validators are `u64`s. -/
def EvidenceCall.Fits : EvidenceCall → Prop
  | .putEvidence proof => proof.view < 2 ^ 64 ∧ proof.validator < 2 ^ 64
  | .markCommitted view validator => view < 2 ^ 64 ∧ validator < 2 ^ 64
  | .reopen => True

instance : ∀ call : EvidenceCall, Decidable call.Fits
  | .putEvidence proof =>
    inferInstanceAs (Decidable (proof.view < 2 ^ 64 ∧ proof.validator < 2 ^ 64))
  | .markCommitted view validator =>
    inferInstanceAs (Decidable (view < 2 ^ 64 ∧ validator < 2 ^ 64))
  | .reopen => inferInstanceAs (Decidable True)

/-! ### In memory -/

namespace EvidenceStore

/-- A call; nothing is reopened. -/
def perform (s : EvidenceStore) : EvidenceCall → EvidenceStore
  | .putEvidence proof => s.putEvidence proof
  | .markCommitted view validator => s.markCommitted view validator
  | .reopen => s

lemma proofs_putEvidence (s : EvidenceStore) (proof : EquivocationProof) :
    (s.putEvidence proof).proofs = Firsts.push EquivocationProof.pair s.proofs proof := by
  unfold putEvidence Firsts.push
  simp only [EquivocationProof.pair, Prod.mk.injEq]
  split_ifs <;> rfl

/-- A proof of a committed pair changes nothing that is pending, another one is appended unless
its pair is there. -/
lemma getPending_putEvidence (s : EvidenceStore) (proof : EquivocationProof) :
    (s.putEvidence proof).getPending = if proof.pair ∉ s.committed
      then Firsts.push EquivocationProof.pair s.getPending proof else s.getPending := by
  rw [getPending, committed_putEvidence, proofs_putEvidence]
  exact (Firsts.filter_push _ (fun pair => decide (pair ∉ s.committed)) s.proofs proof).trans
    (by simp only [decide_eq_true_eq]; rfl)

/-- A commit takes the proofs of its pair away. -/
lemma getPending_markCommitted (s : EvidenceStore) (view validator : ℕ) :
    (s.markCommitted view validator).getPending
      = s.getPending.filter (·.pair ≠ (view, validator)) := by
  unfold markCommitted getPending
  dsimp only
  rw [filter_filter, filter_filter]
  refine filter_congr fun p _ => ?_
  simp [EquivocationProof.pair, mem_insert_iff]

end EvidenceStore

/-! ### On disk -/

/-- `PersistentEvidenceStore`.  The order of the committed keys plays no role. -/
structure PersistentEvidenceStore where
  proofs : OrderedMap ℕ EquivocationProof
  committed : AList fun _ : Bytes => ℕ
  nextId : ℕ

namespace PersistentEvidenceStore

/-- `open` in an empty directory. -/
def new : PersistentEvidenceStore := ⟨.empty, ∅, 0⟩

/-- `next_id_from_proofs`. -/
def nextIdFromProofs (proofs : OrderedMap ℕ EquivocationProof) : ℕ :=
  (proofs.last.map fun e => min (e.1 + 1) (2 ^ 64 - 1)).getD 0

/-- `open` on what a store has flushed: the counter is derived from the proofs. -/
def reopen (s : PersistentEvidenceStore) : PersistentEvidenceStore :=
  { s with nextId := nextIdFromProofs s.proofs }

/-- `committed_key`. -/
def committedKey (view validator : ℕ) : Bytes := u64Bytes view ++ u64Bytes validator

/-- `is_duplicate`. -/
def isDuplicate (s : PersistentEvidenceStore) (proof : EquivocationProof) : Bool :=
  s.proofs.entries.any fun e => e.2.view = proof.view ∧ e.2.validator = proof.validator

/-- `put_evidence`; `none` where `next_id += 1` overflows. -/
def putEvidence (s : PersistentEvidenceStore) (proof : EquivocationProof) :
    Option PersistentEvidenceStore :=
  if s.isDuplicate proof then some s
  else if s.nextId + 1 < 2 ^ 64 then
    some { s with proofs := s.proofs.insert s.nextId proof, nextId := s.nextId + 1 }
  else none

/-- `get_pending`. -/
def getPending (s : PersistentEvidenceStore) : List EquivocationProof :=
  s.proofs.entries.filterMap fun e =>
    if (s.committed.lookup (committedKey e.2.view e.2.validator)).isSome then none else some e.2

/-- `mark_committed`: only the proofs of this pair are removed. -/
def markCommitted (s : PersistentEvidenceStore) (view validator : ℕ) : PersistentEvidenceStore :=
  let committed := s.committed.insert (committedKey view validator) 1
  let toRemove := (s.proofs.entries.filter fun e =>
    e.2.view = view ∧ e.2.validator = validator).map (·.1)
  { s with proofs := toRemove.foldl .remove s.proofs, committed }

/-- A call. -/
def perform (s : PersistentEvidenceStore) : EvidenceCall → Option PersistentEvidenceStore
  | .putEvidence proof => s.putEvidence proof
  | .markCommitted view validator => some (s.markCommitted view validator)
  | .reopen => some s.reopen

/-- The pair is in the committed set. -/
def Marked (s : PersistentEvidenceStore) (pair : ℕ × ℕ) : Prop :=
  (s.committed.lookup (committedKey pair.1 pair.2)).isSome = true

instance (s : PersistentEvidenceStore) (pair : ℕ × ℕ) : Decidable (s.Marked pair) :=
  inferInstanceAs (Decidable (_ = true))

/-- The proofs in the order of their numbers. -/
def all (s : PersistentEvidenceStore) : List EquivocationProof := s.proofs.entries.map (·.2)

lemma getPending_eq (s : PersistentEvidenceStore) :
    s.getPending = s.all.filter (¬ s.Marked ·.pair) := by
  rw [getPending, all]
  induction s.proofs.entries with
  | nil => rfl
  | cons e entries ih =>
    have hmarked : s.Marked e.2.pair
        ↔ (s.committed.lookup (committedKey e.2.view e.2.validator)).isSome = true := Iff.rfl
    rw [filterMap_cons, map_cons, filter_cons, ih]
    by_cases h : s.Marked e.2.pair
    · rw [if_pos (hmarked.mp h), if_neg (by simpa using h)]
    · rw [if_neg fun hsome => h (hmarked.mpr hsome), if_pos (by simpa using h)]

variable {pair : ℕ × ℕ}

/-- Two pairs of `u64`s have two keys. -/
lemma committedKey_inj {pair' : ℕ × ℕ} (h : pair.1 < 2 ^ 64 ∧ pair.2 < 2 ^ 64)
    (h' : pair'.1 < 2 ^ 64 ∧ pair'.2 < 2 ^ 64)
    (heq : committedKey pair.1 pair.2 = committedKey pair'.1 pair'.2) : pair = pair' := by
  obtain ⟨hview, hrest⟩ := readable_u64Bytes h.1 h'.1 heq
  rw [← append_nil (u64Bytes pair.2), ← append_nil (u64Bytes pair'.2)] at hrest
  exact Prod.ext hview (readable_u64Bytes h.2 h'.2 hrest).1

/-- The number of a new proof is above all others, and numbers and pairs are of `u64`s. -/
structure Numbered (s : PersistentEvidenceStore) : Prop where
  above : ∀ e ∈ s.proofs.entries, e.1 < s.nextId
  room : s.nextId < 2 ^ 64
  fits : ∀ proof ∈ s.all, proof.pair.1 < 2 ^ 64 ∧ proof.pair.2 < 2 ^ 64

section

variable {s s' : PersistentEvidenceStore} {proof : EquivocationProof}

lemma all_putEvidence (hs : s.Numbered) (h : s.putEvidence proof = some s') :
    s'.all = Firsts.push EquivocationProof.pair s.all proof := by
  have hany : s.isDuplicate proof = s.all.any (·.pair = proof.pair) := by
    rw [isDuplicate, all, any_map]
    simp only [EquivocationProof.pair, Prod.mk.injEq]
    rfl
  unfold putEvidence at h
  split_ifs at h with hthere hroom
  · cases h
    rw [Firsts.push_of_any _ (hany ▸ hthere)]
  · cases h
    rw [Firsts.push_of_not_any _ (hany ▸ hthere), all, s.proofs.entries_insert_above proof hs.above,
      map_append]
    rfl

lemma committed_putEvidence (h : s.putEvidence proof = some s') : s'.committed = s.committed := by
  unfold putEvidence at h
  split_ifs at h <;> obtain rfl := Option.some.inj h <;> rfl

/-- A proof of a committed pair changes nothing that is pending, another one is appended unless
its pair is there. -/
lemma getPending_putEvidence (hs : s.Numbered) (h : s.putEvidence proof = some s') :
    s'.getPending = if ¬ s.Marked proof.pair
      then Firsts.push EquivocationProof.pair s.getPending proof else s.getPending := by
  have hmarked : ∀ pair, s'.Marked pair ↔ s.Marked pair := by
    intro pair
    rw [Marked, committed_putEvidence h, Marked]
  rw [getPending_eq, getPending_eq, all_putEvidence hs h]
  simp only [hmarked]
  exact (Firsts.filter_push _ (fun pair => decide (¬ s.Marked pair)) s.all proof).trans
    (by simp only [decide_eq_true_eq])

lemma Numbered.putEvidence (hs : s.Numbered) (hfits : proof.pair.1 < 2 ^ 64 ∧ proof.pair.2 < 2 ^ 64)
    (h : s.putEvidence proof = some s') : s'.Numbered := by
  suffices hnumbers : (∀ e ∈ s'.proofs.entries, e.1 < s'.nextId) ∧ s'.nextId < 2 ^ 64 by
    refine ⟨hnumbers.1, hnumbers.2, fun p hp => ?_⟩
    rw [all_putEvidence hs h, Firsts.push] at hp
    split_ifs at hp
    · exact hs.fits p hp
    · rcases mem_append.mp hp with hp | hp
      · exact hs.fits p hp
      · rwa [mem_singleton.mp hp]
  unfold PersistentEvidenceStore.putEvidence at h
  split_ifs at h with hthere hroom
  · cases h
    exact ⟨hs.above, hs.room⟩
  · cases h
    refine ⟨fun e he => ?_, hroom⟩
    rw [s.proofs.entries_insert_above proof hs.above] at he
    rcases mem_append.mp he with he | he
    · exact (hs.above e he).trans (Nat.lt_succ_self _)
    · rw [mem_singleton.mp he]
      exact Nat.lt_succ_self _

end

/-- The proofs of a pair are removed. -/
lemma entries_markCommitted (s : PersistentEvidenceStore) (view validator : ℕ) :
    (s.markCommitted view validator).proofs.entries
      = s.proofs.entries.filter (·.2.pair ≠ (view, validator)) := by
  refine (s.proofs.entries_removeAll _).trans (filter_congr fun e he => ?_)
  rw [decide_eq_decide, not_iff_not, mem_map]
  constructor
  · rintro ⟨e', he', hid⟩
    obtain ⟨hmem, hpair⟩ := mem_filter.mp he'
    obtain rfl := s.proofs.eq_of_key_eq hmem he hid
    obtain ⟨hview, hvalidator⟩ := of_decide_eq_true hpair
    exact Prod.ext hview hvalidator
  · intro hpair
    obtain ⟨hview, hvalidator⟩ := Prod.mk.inj hpair
    exact ⟨e, mem_filter.mpr ⟨he, decide_eq_true ⟨hview, hvalidator⟩⟩, rfl⟩

lemma marked_markCommitted (s : PersistentEvidenceStore) {view validator : ℕ}
    (h : view < 2 ^ 64 ∧ validator < 2 ^ 64) (hpair : pair.1 < 2 ^ 64 ∧ pair.2 < 2 ^ 64) :
    (s.markCommitted view validator).Marked pair ↔ pair = (view, validator) ∨ s.Marked pair := by
  unfold Marked markCommitted
  dsimp only
  rw [AList.lookup_insert_ite]
  split_ifs with hkey
  · exact ⟨fun _ => .inl (committedKey_inj hpair h hkey), fun _ => rfl⟩
  · refine ⟨.inr, fun hor => hor.resolve_left ?_⟩
    rintro rfl
    exact hkey rfl

variable {s : PersistentEvidenceStore}

/-- A commit takes the proofs of its pair away. -/
lemma getPending_markCommitted (hs : s.Numbered) {view validator : ℕ}
    (h : view < 2 ^ 64 ∧ validator < 2 ^ 64) : (s.markCommitted view validator).getPending
      = s.getPending.filter (·.pair ≠ (view, validator)) := by
  have hall : (s.markCommitted view validator).all = s.all.filter (·.pair ≠ (view, validator)) := by
    rw [all, entries_markCommitted, all, filter_map]
    rfl
  rw [getPending_eq, getPending_eq, hall, filter_filter, filter_filter]
  refine filter_congr fun p hp => ?_
  have hmarked := s.marked_markCommitted h (hs.fits p hp)
  by_cases hpair : p.pair = (view, validator)
  · simp [hpair]
  · have hiff : (s.markCommitted view validator).Marked p.pair ↔ s.Marked p.pair :=
      hmarked.trans ⟨fun hor => hor.resolve_left hpair, .inr⟩
    simp [hpair, hiff]

lemma Numbered.markCommitted (hs : s.Numbered) (view validator : ℕ) :
    (s.markCommitted view validator).Numbered := by
  have hsub : (s.markCommitted view validator).proofs.entries ⊆ s.proofs.entries := by
    rw [entries_markCommitted]
    exact filter_sublist.subset
  refine ⟨fun e he => hs.above e (hsub he), hs.room, fun p hp => ?_⟩
  obtain ⟨e, he, rfl⟩ := mem_map.mp hp
  exact hs.fits _ (mem_map_of_mem (hsub he))

/-- **The derived counter is above all numbers as well**, and not above the one it replaces. -/
lemma Numbered.reopen (hs : s.Numbered) :
    s.reopen.Numbered ∧ s.reopen.nextId ≤ s.nextId := by
  have hroom := hs.room
  cases hlast : s.proofs.last with
  | none =>
    have hid : s.reopen.nextId = 0 := by
      change nextIdFromProofs s.proofs = 0
      rw [nextIdFromProofs, hlast]
      rfl
    have hnil : s.proofs.entries = [] := getLast?_eq_none_iff.mp hlast
    refine ⟨⟨fun e he => ?_, by omega, hs.fits⟩, by omega⟩
    have he : e ∈ s.proofs.entries := he
    rw [hnil] at he
    cases he
  | some last =>
    have hbelow := hs.above last (mem_of_getLast? hlast)
    have hid : s.reopen.nextId = last.1 + 1 := by
      change nextIdFromProofs s.proofs = _
      rw [nextIdFromProofs, hlast]
      exact min_eq_left (by omega)
    refine ⟨⟨fun e he => ?_, by omega, hs.fits⟩, by omega⟩
    have hle : e.1 ≤ last.1 := by
      obtain ⟨front, hfront⟩ := getLast?_eq_some_iff.mp hlast
      have hsorted := s.proofs.sorted
      rw [hfront] at hsorted
      rcases mem_append.mp (hfront ▸ he : e ∈ front ++ [last]) with he | he
      · exact ((pairwise_append.mp hsorted).2.2 e he last (mem_singleton_self _)).le
      · rw [mem_singleton.mp he]
    omega

end PersistentEvidenceStore

/-! ### Both -/

/-- The stores answer alike. -/
structure SameEvidence (m : EvidenceStore) (s : PersistentEvidenceStore) : Prop where
  numbered : s.Numbered
  committed : ∀ pair : ℕ × ℕ, pair.1 < 2 ^ 64 ∧ pair.2 < 2 ^ 64 →
    (pair ∈ m.committed ↔ s.Marked pair)
  pending : s.getPending = m.getPending

lemma sameEvidence_new : SameEvidence .empty .new where
  numbered := ⟨fun _ he => absurd he not_mem_nil, by decide, fun _ he =>
    absurd he not_mem_nil⟩
  committed _ _ := ⟨fun h => absurd h not_mem_nil, fun h => absurd h (by simp [
    PersistentEvidenceStore.Marked, PersistentEvidenceStore.new])⟩
  pending := rfl

/-- **Every call keeps the stores alike.** -/
lemma SameEvidence.perform {m : EvidenceStore} {s s' : PersistentEvidenceStore}
    (h : SameEvidence m s)
    {call : EvidenceCall} (hfits : call.Fits) (hcall : s.perform call = some s') :
    SameEvidence (m.perform call) s' := by
  cases call with
  | putEvidence proof =>
    refine ⟨h.numbered.putEvidence hfits hcall, fun pair hpair => ?_, ?_⟩
    · rw [EvidenceStore.perform, EvidenceStore.committed_putEvidence,
        PersistentEvidenceStore.Marked, PersistentEvidenceStore.committed_putEvidence hcall]
      exact h.committed pair hpair
    · rw [EvidenceStore.perform, EvidenceStore.getPending_putEvidence,
        PersistentEvidenceStore.getPending_putEvidence h.numbered hcall, h.pending]
      simp only [h.committed proof.pair hfits]
  | markCommitted view validator =>
    cases hcall
    refine ⟨h.numbered.markCommitted view validator, fun pair hpair => ?_, ?_⟩
    · rw [s.marked_markCommitted hfits hpair, ← h.committed pair hpair]
      exact mem_insert_iff
    · rw [EvidenceStore.perform, EvidenceStore.getPending_markCommitted,
        PersistentEvidenceStore.getPending_markCommitted h.numbered hfits, h.pending]
  | reopen =>
    cases hcall
    exact ⟨h.numbered.reopen.1, h.committed, h.pending⟩

/-- What is committed is never taken back. -/
lemma EvidenceStore.committed_perform (s : EvidenceStore) (call : EvidenceCall)
    (h : pair ∈ s.committed ∨ call = .markCommitted pair.1 pair.2) :
    pair ∈ (s.perform call).committed := by
  cases call with
  | putEvidence proof =>
    rw [perform, committed_putEvidence]
    exact h.resolve_right nofun
  | markCommitted view validator =>
    refine mem_insert_iff.mpr (h.symm.imp (fun heq => ?_) id)
    obtain ⟨rfl, rfl⟩ := EvidenceCall.markCommitted.inj heq
    rfl
  | reopen => exact h.resolve_right nofun

/-- The store on disk after a sequence of calls. -/
def PersistentEvidenceStore.performAll (calls : List EvidenceCall) :
    Option PersistentEvidenceStore :=
  calls.foldlM perform new

/-- The store in memory after a sequence of calls. -/
def EvidenceStore.performAll (calls : List EvidenceCall) :
    EvidenceStore := calls.foldl perform empty

/-- Numbers are used up one by one. -/
lemma PersistentEvidenceStore.Numbered.perform {s : PersistentEvidenceStore} (hs : s.Numbered)
    (call : EvidenceCall) : (s.perform call = none ∧ 2 ^ 64 ≤ s.nextId + 1)
      ∨ ∃ s', s.perform call = some s' ∧ s'.nextId ≤ s.nextId + 1 := by
  cases call with
  | putEvidence proof =>
    change (s.putEvidence proof = none ∧ _) ∨ ∃ s', s.putEvidence proof = some s' ∧ _
    unfold PersistentEvidenceStore.putEvidence
    split_ifs with hthere hroom
    · exact .inr ⟨s, rfl, Nat.le_succ _⟩
    · exact .inr ⟨_, rfl, le_rfl⟩
    · exact .inl ⟨rfl, Nat.le_of_not_lt hroom⟩
  | markCommitted view validator => exact .inr ⟨_, rfl, Nat.le_succ _⟩
  | reopen => exact .inr ⟨_, rfl, hs.reopen.2.trans (Nat.le_succ _)⟩

/-- **The stores after a run.** -/
lemma sameEvidence_performAll {calls : List EvidenceCall} (hfits : ∀ call ∈ calls, call.Fits) :
    (PersistentEvidenceStore.performAll calls = none ∧ 2 ^ 64 ≤ calls.length)
      ∨ ∃ s, PersistentEvidenceStore.performAll calls = some s
        ∧ SameEvidence (EvidenceStore.performAll calls) s ∧ s.nextId ≤ calls.length := by
  induction calls using reverseRecOn with
  | nil => exact .inr ⟨.new, rfl, sameEvidence_new, le_rfl⟩
  | append_singleton calls call ih =>
    have hlast : ∀ s, PersistentEvidenceStore.performAll calls = s →
        PersistentEvidenceStore.performAll (calls ++ [call]) = s.bind fun s => s.perform call := by
      rintro s rfl
      simp [PersistentEvidenceStore.performAll, foldlM_append]
    have hmemory : EvidenceStore.performAll (calls ++ [call])
        = (EvidenceStore.performAll calls).perform call := foldl_concat _ _ _ _
    rw [length_append, length_singleton]
    rcases ih fun call hcall => hfits call (mem_append_left _ hcall) with
      ⟨hnone, hlong⟩ | ⟨s, hs, hsame, hle⟩
    · exact .inl ⟨hlast _ hnone, by omega⟩
    · rcases hsame.numbered.perform call with ⟨hnone, hlong⟩ | ⟨s', hs', hle'⟩
      · exact .inl ⟨(hlast _ hs).trans hnone, by omega⟩
      · refine .inr ⟨s', (hlast _ hs).trans hs', ?_, by omega⟩
        rw [hmemory]
        exact hsame.perform (hfits call (by simp)) hs'

/-- A pair that was committed in a run is committed after it. -/
lemma EvidenceStore.committed_performAll {calls : List EvidenceCall}
    (h : .markCommitted pair.1 pair.2 ∈ calls) : pair ∈ (performAll calls).committed := by
  induction calls using reverseRecOn with
  | nil => cases h
  | append_singleton calls call ih =>
    rw [performAll, foldl_concat]
    refine committed_perform _ call ?_
    rcases mem_append.mp h with hold | hnew
    · exact .inl (ih hold)
    · exact .inr (mem_singleton.mp hnew).symm

/-- **Evidence stores agree.**  After every sequence of calls, also with the store on disk reopened
in between, both stores have the same pending proofs in the same order, and none of a pair that
was committed.  The counter of the store on disk overflows in no sequence of fewer than `2 ^ 64`
calls. -/
theorem evidence_stores_agree {calls : List EvidenceCall} (hfits : ∀ call ∈ calls, call.Fits) :
    (PersistentEvidenceStore.performAll calls = none → 2 ^ 64 ≤ calls.length)
    ∧ ∀ s, PersistentEvidenceStore.performAll calls = some s →
      s.getPending = (EvidenceStore.performAll calls).getPending
      ∧ ∀ view validator, .markCommitted view validator ∈ calls →
        ∀ proof ∈ s.getPending, ¬ (proof.view = view ∧ proof.validator = validator) := by
  rcases sameEvidence_performAll hfits with ⟨hnone, hlong⟩ | ⟨s, hs, hsame, -⟩
  · refine ⟨fun _ => hlong, fun s hs => ?_⟩
    rw [hnone] at hs
    cases hs
  · refine ⟨fun hnone => ?_, fun s' hs' => ?_⟩
    · rw [hs] at hnone
      cases hnone
    · obtain rfl := Option.some.inj (hs.symm.trans hs')
      refine ⟨hsame.pending, fun view validator hmark proof hproof hpair => ?_⟩
      obtain ⟨rfl, rfl⟩ := hpair
      rw [hsame.pending] at hproof
      have hopen := of_decide_eq_true (mem_filter.mp hproof).2
      exact hopen (EvidenceStore.committed_performAll hmark)

/-- A proof against a validator, for a view. -/
def sampleProof (view validator : ℕ) : EquivocationProof :=
  ⟨validator, view, .vote, 0, BlockHash.genesis, ⟨[1]⟩, none, BlockHash.genesis, ⟨[2]⟩, none⟩

/-- A proof is filed again after its pair was committed, and the store is reopened when its last
proof is gone. -/
def evidenceCalls : List EvidenceCall :=
  [.putEvidence (sampleProof 1 0), .putEvidence (sampleProof 2 1), .markCommitted 2 1, .reopen,
    .putEvidence (sampleProof 2 1), .putEvidence (sampleProof 3 0), .markCommitted 1 0]

theorem evidence_stores_agree_reopened : ∃ s,
    PersistentEvidenceStore.performAll evidenceCalls = some s
      ∧ s.getPending = (EvidenceStore.performAll evidenceCalls).getPending
      ∧ (EvidenceStore.performAll evidenceCalls).getPending = [sampleProof 3 0]
      ∧ s.all = [sampleProof 2 1, sampleProof 3 0] := by
  have hfits : ∀ call ∈ evidenceCalls, call.Fits := by decide
  have hagree := evidence_stores_agree hfits
  cases hs : PersistentEvidenceStore.performAll evidenceCalls with
  | none => exact absurd (hagree.1 hs) (by decide)
  | some s =>
    refine ⟨s, rfl, (hagree.2 s hs).1, by decide, ?_⟩
    have hall : (PersistentEvidenceStore.performAll evidenceCalls).map (·.all)
        = some [sampleProof 2 1, sampleProof 3 0] := by decide +kernel
    rw [hs] at hall
    exact Option.some.inj hall

end Hotmint
