/-
The mempool keeps the best transactions.

* `Submission`, `Pool.submitAll`: a history of admissions;
* `submitted`: the priorities that a transaction was submitted with;
* `Best`: **every entry has the highest priority of its transaction, and a transaction that
  is not there was never above the lowest entry of a full pool**;
* `Best.submit`: an admission keeps this;
* `mempool_keeps_best`: so it holds after every history, and the pool is as full as it can
  be.
-/
import Hotmint.Mempool.Pool
import Mathlib.Data.List.Dedup
import Mathlib.Data.List.Induction
import Mathlib.Order.Bounds.Basic

namespace Hotmint.Mempool

open List

/-- A call of `add_tx_with_gas`. -/
structure Submission where
  tx : Bytes
  priority : ℕ
  gasWanted : ℕ
deriving DecidableEq, Repr

namespace Pool

/-- A transaction is submitted. -/
def submit (hashTx : Bytes → TxHash) (p : Pool) (s : Submission) : Pool :=
  (p.addTxWithGas hashTx s.tx s.priority s.gasWanted).2

/-- Some transactions are submitted, in order. -/
def submitAll (hashTx : Bytes → TxHash) (p : Pool) (subs : List Submission) : Pool :=
  subs.foldl (submit hashTx) p

end Pool

/-- The priorities that a transaction was submitted with. -/
def submitted (subs : List Submission) (tx : Bytes) : Set ℕ :=
  { q | ∃ s ∈ subs, s.tx = tx ∧ s.priority = q }

lemma submitted_append (subs : List Submission) (s : Submission) (tx : Bytes) (q : ℕ) :
    q ∈ submitted (subs ++ [s]) tx ↔ q ∈ submitted subs tx ∨ (s.tx = tx ∧ s.priority = q) := by
  constructor
  · rintro ⟨s', hs', hs⟩
    rcases mem_append.mp hs' with hs' | hs'
    · exact .inl ⟨s', hs', hs⟩
    · exact .inr (mem_singleton.mp hs' ▸ hs)
  · rintro (⟨s', hs', hs⟩ | hs)
    · exact ⟨s', mem_append_left _ hs', hs⟩
    · exact ⟨s, mem_concat_self, hs⟩

open Pool

/-- **The pool has the best of what was submitted.** -/
structure Best (hashTx : Bytes → TxHash) (subs : List Submission) (p : Pool) : Prop where
  indexed : p.Indexed hashTx
  /-- An entry has the highest priority that its transaction was submitted with. -/
  greatest : ∀ e ∈ p.entries.toList, IsGreatest (submitted subs e.tx) e.priority
  /-- A transaction that is not there was never above an entry, and the pool is full. -/
  absent : ∀ tx, tx.length ≤ p.maxTxBytes → (∀ e ∈ p.entries.toList, e.tx ≠ tx) →
    ∀ q ∈ submitted subs tx, p.size = p.maxSize ∧ ∀ e ∈ p.entries.toList, q ≤ e.priority

variable {hashTx : Bytes → TxHash} {s : Submission} {p : Pool}

lemma best_new (maxSize maxTxBytes : ℕ) : Best hashTx [] (Pool.new maxSize maxTxBytes) where
  indexed :=
    { hashed := fun _ he => (not_mem_nil he).elim
      fits := fun _ he => (not_mem_nil he).elim
      seen := fun hash q => ⟨fun hq => (by cases hq), fun ⟨_, he, _⟩ => (not_mem_nil he).elim⟩
      unique := fun _ he => (not_mem_nil he).elim
      size_le := Nat.zero_le _ }
  greatest _ he := (not_mem_nil he).elim
  absent _ _ _ _ hq := by
    obtain ⟨_, hs, -⟩ := hq
    exact (not_mem_nil hs).elim

/-- A submission that is turned away changes nothing: its priority was not the highest of an
entry, and not above any. -/
lemma Best.refused {subs : List Submission} (h : Best hashTx subs p)
    (hinj : ∀ e ∈ p.entries.toList, hashTx e.tx = hashTx s.tx → e.tx = s.tx)
    (href : Refused p (hashTx s.tx) s.tx s.priority) : Best hashTx (subs ++ [s]) p := by
  refine ⟨h.indexed, fun e he => ?_, fun tx hfits hnone q hq => ?_⟩
  · obtain ⟨hmem, hupper⟩ := h.greatest e he
    refine ⟨(submitted_append _ _ _ _).mpr (.inl hmem), fun q hq => ?_⟩
    rcases (submitted_append _ _ _ _).mp hq with hq | ⟨htx, rfl⟩
    · exact hupper hq
    · cases href with
      | large hlarge => exact absurd (h.indexed.fits e he) (Nat.not_le_of_lt (htx ▸ hlarge))
      | @known e' he' hhash hle =>
        have hsame : e'.tx = s.tx := hinj e' he' ((h.indexed.hashed e' he').symm.trans hhash)
        have heq : e = e' := h.indexed.unique e he e' he' (by
          rw [h.indexed.hashed e he, h.indexed.hashed e' he', hsame, htx])
        exact heq ▸ hle
      | low hfull hle => exact hle e he
  · rcases (submitted_append _ _ _ _).mp hq with hq | ⟨rfl, rfl⟩
    · exact h.absent tx hfits hnone q hq
    · cases href with
      | large hlarge => exact absurd hfits (Nat.not_le_of_lt hlarge)
      | @known e he hhash hle =>
        exact (hnone e he (hinj e he ((h.indexed.hashed e he).symm.trans hhash))).elim
      | low hfull hle => exact ⟨hfull, hle⟩

/-- A transaction that comes in has a higher priority than it ever was submitted with. -/
lemma Best.lt_of_room {subs : List Submission} (h : Best hashTx subs p) {rest : List TxEntry}
    (hinj : ∀ e ∈ p.entries.toList, hashTx e.tx = hashTx s.tx → e.tx = s.tx)
    (hroom : Room p ⟨s.tx, s.priority, s.gasWanted, hashTx s.tx⟩ rest)
    (hfits : s.tx.length ≤ p.maxTxBytes) (hrest : ∀ e ∈ rest, e.tx ≠ s.tx) :
    ∀ q ∈ submitted subs s.tx, q < s.priority := by
  intro q hq
  cases hroom with
  | @replaced old hsame hlt hentries =>
    have hold := hentries.mem_iff.mpr mem_cons_self
    have htx : old.tx = s.tx := hinj old hold ((h.indexed.hashed old hold).symm.trans hsame)
    have hle := (h.greatest old hold).2 (htx.symm ▸ hq)
    exact Nat.lt_of_le_of_lt hle hlt
  | @evicted lowest hfull hlowest hlt hne hentries =>
    have hmem := hentries.mem_iff.mpr mem_cons_self
    have hnone : ∀ e ∈ p.entries.toList, e.tx ≠ s.tx := by
      intro e he
      rcases mem_cons.mp (hentries.mem_iff.mp he) with rfl | he
      · intro htx
        exact hne ((h.indexed.hashed e hmem).trans (congrArg hashTx htx))
      · exact hrest e he
    exact Nat.lt_of_le_of_lt ((h.absent s.tx hfits hnone q hq).2 lowest hmem) hlt
  | free hlt hentries =>
    have hfull := (h.absent s.tx hfits (fun e he => hrest e (hentries.mem_iff.mp he)) q hq).1
    omega

/-- A submission that comes in. -/
lemma Best.admitted {subs : List Submission} {p' : Pool} (h : Best hashTx subs p)
    {rest : List TxEntry}
    (hinj : ∀ e ∈ p.entries.toList, hashTx e.tx = hashTx s.tx → e.tx = s.tx)
    (hfits : s.tx.length ≤ p.maxTxBytes)
    (hroom : Room p ⟨s.tx, s.priority, s.gasWanted, hashTx s.tx⟩ rest)
    (hentries : p'.entries.toList.Perm (⟨s.tx, s.priority, s.gasWanted, hashTx s.tx⟩ :: rest))
    (hsize : p'.maxSize = p.maxSize) (hbytes : p'.maxTxBytes = p.maxTxBytes)
    (hindexed : p'.Indexed hashTx) : Best hashTx (subs ++ [s]) p' := by
  have hothers : ∀ e ∈ rest, e.tx ≠ s.tx := by
    intro e he htx
    refine hindexed.hash_ne hentries e he ?_
    rw [hindexed.hashed e (hentries.mem_iff.mpr (.tail _ he)), htx]
  have hlower := h.lt_of_room hinj hroom hfits hothers
  refine ⟨hindexed, fun e he => ?_, fun tx htx hnone q hq => ?_⟩
  · rcases mem_cons.mp (hentries.mem_iff.mp he) with rfl | he
    · refine ⟨(submitted_append _ _ _ _).mpr (.inr ⟨rfl, rfl⟩), fun q hq => ?_⟩
      rcases (submitted_append _ _ _ _).mp hq with hq | ⟨-, rfl⟩
      · exact Nat.le_of_lt (hlower q hq)
      · exact le_rfl
    · have hold : e ∈ p.entries.toList := by
        cases hroom with
        | replaced _ _ hperm | evicted _ _ _ _ hperm => exact hperm.mem_iff.mpr (.tail _ he)
        | free _ hperm => exact hperm.mem_iff.mpr he
      obtain ⟨hmem, hupper⟩ := h.greatest e hold
      refine ⟨(submitted_append _ _ _ _).mpr (.inl hmem), fun q hq => ?_⟩
      rcases (submitted_append _ _ _ _).mp hq with hq | ⟨htx, -⟩
      · exact hupper hq
      · exact (hothers e he htx.symm).elim
  · obtain ⟨hnew, hrest⟩ := forall_mem_cons.mp fun e he => hnone e (hentries.mem_iff.mpr he)
    have hq : q ∈ submitted subs tx :=
      ((submitted_append _ _ _ _).mp hq).resolve_right fun hand => hnew hand.1
    rw [hbytes] at htx
    have hlength : p'.size = rest.length + 1 := by
      rw [Pool.size, hentries.length_eq, length_cons]
    -- it is enough that the pool was full, and that the entries left are as high
    have hdone : p.size = rest.length + 1 → p.size = p.maxSize → q ≤ s.priority →
        (∀ e ∈ rest, q ≤ e.priority) →
        p'.size = p'.maxSize ∧ ∀ e ∈ p'.entries.toList, q ≤ e.priority := by
      intro hsame hfull hle hall
      refine ⟨by omega, fun e he => ?_⟩
      rcases mem_cons.mp (hentries.mem_iff.mp he) with rfl | he
      · exact hle
      · exact hall e he
    cases hroom with
    | @replaced old hsame hlt hperm =>
      have hold := hperm.mem_iff.mpr mem_cons_self
      have htxOld : old.tx = s.tx := hinj old hold ((h.indexed.hashed old hold).symm.trans hsame)
      obtain ⟨hfull, hle⟩ := h.absent tx htx (fun e he => by
        rcases mem_cons.mp (hperm.mem_iff.mp he) with rfl | he
        · exact htxOld ▸ hnew
        · exact hrest e he) q hq
      exact hdone hperm.length_eq hfull (Nat.le_of_lt (Nat.lt_of_le_of_lt (hle old hold) hlt))
        fun e he => hle e (hperm.mem_iff.mpr (.tail _ he))
    | @evicted lowest hfull hlowest hlt hne hperm =>
      have hmem := hperm.mem_iff.mpr mem_cons_self
      have hle : q ≤ lowest.priority := by
        by_cases heq : lowest.tx = tx
        · exact (h.greatest lowest hmem).2 (heq.symm ▸ hq)
        · refine (h.absent tx htx (fun e he => ?_) q hq).2 lowest hmem
          rcases mem_cons.mp (hperm.mem_iff.mp he) with rfl | he
          · exact heq
          · exact hrest e he
      exact hdone hperm.length_eq hfull (Nat.le_of_lt (Nat.lt_of_le_of_lt hle hlt)) fun e he =>
        Nat.le_trans hle (hlowest e (hperm.mem_iff.mpr (.tail _ he)))
    | free hlt hperm =>
      have hfull := (h.absent tx htx (fun e he => hrest e (hperm.mem_iff.mp he)) q hq).1
      omega

/-- **A submission keeps the best.** -/
lemma Best.submit {subs : List Submission} (h : Best hashTx subs p)
    (hinj : ∀ s' ∈ subs, hashTx s'.tx = hashTx s.tx → s'.tx = s.tx) :
    Best hashTx (subs ++ [s]) (p.submit hashTx s)
      ∧ (p.submit hashTx s).maxSize = p.maxSize ∧ (p.submit hashTx s).maxTxBytes = p.maxTxBytes :=
      by
  have hinj' : ∀ e ∈ p.entries.toList, hashTx e.tx = hashTx s.tx → e.tx = s.tx := by
    intro e he heq
    obtain ⟨s', hs', htx, -⟩ := (h.greatest e he).1
    exact htx ▸ hinj s' hs' (htx.symm ▸ heq)
  unfold Pool.submit
  generalize hr : p.addTxWithGas hashTx s.tx s.priority s.gasWanted = r
  have hadmission := addTxWithGas_admission h.indexed s.tx s.priority s.gasWanted
  rw [hr] at hadmission
  cases hadmission with
  | refused href => exact ⟨h.refused hinj' href, rfl, rfl⟩
  | admitted hfits hroom hentries hsize hbytes hindexed =>
    exact ⟨h.admitted hinj' hfits hroom hentries hsize hbytes hindexed, hsize, hbytes⟩

/-- No two submitted transactions have one hash. -/
def CollisionFree (hashTx : Bytes → TxHash) (subs : List Submission) : Prop :=
  ∀ s ∈ subs, ∀ s' ∈ subs, hashTx s.tx = hashTx s'.tx → s.tx = s'.tx

instance (hashTx : Bytes → TxHash) (subs : List Submission) :
    Decidable (CollisionFree hashTx subs) :=
  inferInstanceAs (Decidable (∀ s ∈ subs, ∀ s' ∈ subs, hashTx s.tx = hashTx s'.tx → s.tx = s'.tx))

/-- **Every history keeps the best.** -/
lemma best_submitAll {subs : List Submission} (h : CollisionFree hashTx subs)
    (maxSize maxTxBytes : ℕ) :
    Best hashTx subs ((Pool.new maxSize maxTxBytes).submitAll hashTx subs)
      ∧ ((Pool.new maxSize maxTxBytes).submitAll hashTx subs).maxSize = maxSize
      ∧ ((Pool.new maxSize maxTxBytes).submitAll hashTx subs).maxTxBytes = maxTxBytes := by
  induction subs using reverseRecOn with
  | nil => exact ⟨best_new maxSize maxTxBytes, rfl, rfl⟩
  | append_singleton subs s ih =>
    have hlast : (Pool.new maxSize maxTxBytes).submitAll hashTx (subs ++ [s])
        = ((Pool.new maxSize maxTxBytes).submitAll hashTx subs).submit hashTx s := by
      unfold Pool.submitAll
      rw [foldl_append, foldl_cons, foldl_nil]
    have hmem : s ∈ subs ++ [s] := mem_concat_self
    obtain ⟨hbest, hsize, hbytes⟩ := ih fun s hs s' hs' =>
      h s (mem_append_left _ hs) s' (mem_append_left _ hs')
    obtain ⟨hbest', hsize', hbytes'⟩ := hbest.submit (s := s) fun s' hs' =>
      h s' (mem_append_left _ hs') s hmem
    rw [hlast]
    exact ⟨hbest', hsize'.trans hsize, hbytes'.trans hbytes⟩

/-- The distinct transactions that were submitted and are not too large. -/
def admissible (maxTxBytes : ℕ) (subs : List Submission) : List Bytes :=
  ((subs.map (·.tx)).filter fun tx => tx.length ≤ maxTxBytes).dedup

lemma mem_admissible {maxTxBytes : ℕ} {subs : List Submission} {tx : Bytes} :
    tx ∈ admissible maxTxBytes subs ↔ tx.length ≤ maxTxBytes ∧ (submitted subs tx).Nonempty := by
  rw [admissible, mem_dedup, mem_filter, decide_eq_true_iff, mem_map, and_comm]
  refine and_congr_right fun _ => ⟨?_, ?_⟩
  · rintro ⟨s, hs, rfl⟩
    exact ⟨s.priority, s, hs, rfl, rfl⟩
  · rintro ⟨q, s, hs, rfl, -⟩
    exact ⟨s, hs, rfl⟩

/-- **The pool is as full as it can be.** -/
lemma Best.size_eq {subs : List Submission} (h : Best hashTx subs p) :
    p.size = min p.maxSize (admissible p.maxTxBytes subs).length := by
  have hnodup : (p.entries.toList.map (·.tx)).Nodup := by
    refine p.entries.nodup.map_on fun e he e' he' htx => h.indexed.unique e he e' he' ?_
    rw [h.indexed.hashed e he, h.indexed.hashed e' he', htx]
  have hsub : p.entries.toList.map (·.tx) ⊆ admissible p.maxTxBytes subs := by
    intro tx htx
    obtain ⟨e, he, rfl⟩ := mem_map.mp htx
    exact mem_admissible.mpr ⟨h.indexed.fits e he, _, (h.greatest e he).1⟩
  have hlength : (p.entries.toList.map (·.tx)).length = p.size := length_map _
  have hle := (subperm_of_subset hnodup hsub).length_le
  have hsize := h.indexed.size_le
  by_cases hfull : p.size = p.maxSize
  · omega
  · -- a transaction that is not there would need a full pool
    have hall : admissible p.maxTxBytes subs ⊆ p.entries.toList.map (·.tx) := by
      intro tx htx
      obtain ⟨hfits, q, hq⟩ := mem_admissible.mp htx
      by_contra hnone
      refine hfull (h.absent tx hfits (fun e he heq => hnone ?_) q hq).1
      exact mem_map.mpr ⟨e, he, heq⟩
    have hge := (subperm_of_subset (nodup_dedup _) hall).length_le
    change (admissible p.maxTxBytes subs).length ≤ _ at hge
    omega

/-- **The mempool keeps the best transactions.**  After every sequence of admissions to a
new pool, with transaction hashes that do not collide: a transaction that is not
too large, and whose highest submitted priority is above the lowest priority in the pool, is
there with that priority; and the pool has as many entries as there are distinct such
transactions, up to its size. -/
theorem mempool_keeps_best (hashTx : Bytes → TxHash) (maxSize maxTxBytes : ℕ)
    (subs : List Submission) (hfree : CollisionFree hashTx subs) :
    let p := (Pool.new maxSize maxTxBytes).submitAll hashTx subs
    (∀ tx q lowest, tx.length ≤ maxTxBytes → IsGreatest (submitted subs tx) q →
        p.entries.first = some lowest → lowest.priority < q →
        ∃ e ∈ p.entries.toList, e.tx = tx ∧ e.priority = q)
      ∧ p.size = min maxSize (admissible maxTxBytes subs).length := by
  intro p
  obtain ⟨hbest, hsize, hbytes⟩ := best_submitAll hfree maxSize maxTxBytes
  constructor
  · intro tx q lowest hfits hq hfirst hlt
    have hpresent : ∃ e ∈ p.entries.toList, e.tx = tx := by
      by_contra hnone
      have hle := (hbest.absent tx (hbytes.symm ▸ hfits)
        (fun e he heq => hnone ⟨e, he, heq⟩) q hq.1).2 lowest (OrderedSet.first_mem hfirst)
      omega
    obtain ⟨e, he, rfl⟩ := hpresent
    exact ⟨e, he, rfl, (hbest.greatest e he).unique hq⟩
  · have heq := hbest.size_eq
    rwa [hsize, hbytes] at heq

/-- Three transactions in a pool of two: one is turned away, one is evicted, one has its fee
raised. -/
theorem mempool_keeps_best_two :
    let hashTx : Bytes → TxHash := fun tx => BitVec.ofNat 256 (tx.map (·.toNat)).sum
    let subs : List Submission := [⟨[1], 5, 0⟩, ⟨[2], 3, 0⟩, ⟨[3], 3, 0⟩, ⟨[3], 4, 0⟩, ⟨[1], 6, 0⟩]
    ((Pool.new 2 10).submitAll hashTx subs).entries.toList.map (fun e => (e.tx, e.priority))
        = [([3], 4), ([1], 6)]
      ∧ ((Pool.new 2 10).submitAll hashTx subs).size = min 2 (admissible 10 subs).length
      ∧ ∃ e ∈ ((Pool.new 2 10).submitAll hashTx subs).entries.toList,
        e.tx = [1] ∧ e.priority = 6 := by
  intro hashTx subs
  obtain ⟨hpresent, hsize⟩ := mempool_keeps_best hashTx 2 10 subs (by decide +kernel)
  refine ⟨by decide +kernel, hsize, ?_⟩
  have hgreatest : IsGreatest (submitted subs [1]) 6 := by
    refine ⟨⟨⟨[1], 6, 0⟩, by decide, rfl, rfl⟩, ?_⟩
    rintro q ⟨s, hs, htx, rfl⟩
    revert s
    decide
  have hfirst : ((Pool.new 2 10).submitAll hashTx subs).entries.first
      = some ⟨[3], 4, 0, hashTx [3]⟩ := by decide +kernel
  exact hpresent [1] 6 _ (by decide) hgreatest hfirst (by decide)

end Hotmint.Mempool
