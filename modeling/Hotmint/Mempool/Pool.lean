/-
`hotmint-mempool`: the priority mempool.

* `TxEntry`, `TxEntry.key`: an entry, and what entries are ordered by;
* `Mempool`: the entries and the index `seen`.  The two locks are taken together, so an
  operation is one step;
* `Mempool.addTxWithGas`: admission, with replacement by a higher fee and eviction;
* `Mempool.recheck`: the re-validation after a commit;
* `addTxWithGas_admission`: **what an admission does**;
* `Indexed.recheck`, `mempool_index`: **the index is that of the entries after every sequence of
  calls**, and the pool is never larger than it may be.

The hash of a transaction is a parameter.
-/
import Hotmint.Library.OrderedSet
import Hotmint.Types.Basic
import Mathlib.Algebra.Order.Ring.Nat
import Mathlib.Data.List.AList
import Mathlib.Data.List.Induction
import Mathlib.Data.Prod.Lex

namespace Hotmint.Mempool

open List
variable {tx : Bytes} {gasWanted priority : ℕ} {rest : List TxEntry} {old : TxEntry}

/-- `TxHash`. -/
abbrev TxHash := Digest

/-- `TxEntry`. -/
structure TxEntry where
  tx : Bytes
  priority : ℕ
  gasWanted : ℕ
  hash : TxHash
deriving DecidableEq, Repr

/-- What entries are compared by: the priority first, then the hash. -/
def TxEntry.key (e : TxEntry) : ℕ ×ₗ ℕ := toLex (e.priority, e.hash.toNat)

/-- `Mempool`. -/
structure Pool where
  entries : OrderedSet TxEntry.key
  seen : AList fun _ : TxHash => ℕ
  maxSize : ℕ
  maxTxBytes : ℕ

namespace Pool

/-- `Mempool::new`. -/
def new (maxSize maxTxBytes : ℕ) : Pool := ⟨.empty, ∅, maxSize, maxTxBytes⟩

/-- `Mempool::size`. -/
def size (p : Pool) : ℕ := p.entries.toList.length

/-- `add_tx_with_gas`. -/
def addTxWithGas (hashTx : Bytes → TxHash) (p : Pool) (tx : Bytes) (priority gasWanted : ℕ) :
    Bool × Pool :=
  if p.maxSize = 0 then (false, p)
  else if p.maxTxBytes < tx.length then (false, p)
  else
    let hash := hashTx tx
    match p.seen.lookup hash with
    | some existingPriority =>
      if priority ≤ existingPriority then (false, p)
      else
        let old : TxEntry := ⟨tx, existingPriority, 0, hash⟩
        (true, { p with
          entries := (p.entries.remove old.key).insert ⟨tx, priority, gasWanted, hash⟩
          seen := p.seen.insert hash priority })
    | none =>
      if p.maxSize ≤ p.size then
        match p.entries.first with
        | some lowest =>
          if priority ≤ lowest.priority then (false, p)
          else
            (true, { p with
              entries := p.entries.popFirst.insert ⟨tx, priority, gasWanted, hash⟩
              seen := (p.seen.erase lowest.hash).insert hash priority })
        | none =>
          (true, { p with
            entries := p.entries.insert ⟨tx, priority, gasWanted, hash⟩
            seen := p.seen.insert hash priority })
      else
        (true, { p with
          entries := p.entries.insert ⟨tx, priority, gasWanted, hash⟩
          seen := p.seen.insert hash priority })

/-- `recheck`: every entry is asked for again, in ascending order. -/
def recheck (validator : Bytes → Option (ℕ × ℕ)) (p : Pool) : Pool :=
  p.entries.toList.foldl (fun p entry =>
    match validator entry.tx with
    | some (newPriority, newGas) =>
      { p with
        seen := p.seen.insert entry.hash newPriority
        entries := p.entries.insert ⟨entry.tx, newPriority, newGas, entry.hash⟩ }
    | none => p) { p with entries := .empty, seen := ∅ }

/-- **The index is that of the entries**: it has their hashes with their priorities, and no
two of them have one hash. -/
structure Indexed (hashTx : Bytes → TxHash) (p : Pool) : Prop where
  hashed : ∀ e ∈ p.entries.toList, e.hash = hashTx e.tx
  fits : ∀ e ∈ p.entries.toList, e.tx.length ≤ p.maxTxBytes
  seen : ∀ hash q, p.seen.lookup hash = some q ↔
    ∃ e ∈ p.entries.toList, e.hash = hash ∧ e.priority = q
  unique : ∀ e ∈ p.entries.toList, ∀ e' ∈ p.entries.toList, e.hash = e'.hash → e = e'
  size_le : p.size ≤ p.maxSize

/-- How a transaction comes in: for an entry of its own with a lower priority, for the
lowest entry of a full pool, or beside the others. -/
inductive Room (p : Pool) (new : TxEntry) (rest : List TxEntry) : Prop
  | replaced {old : TxEntry} (hsame : old.hash = new.hash) (hlt : old.priority < new.priority)
      (hentries : p.entries.toList.Perm (old :: rest))
  | evicted {lowest : TxEntry} (hfull : p.size = p.maxSize)
      (hlowest : ∀ e ∈ p.entries.toList, lowest.priority ≤ e.priority)
      (hlt : lowest.priority < new.priority) (hne : lowest.hash ≠ new.hash)
      (hentries : p.entries.toList.Perm (lowest :: rest))
  | free (hroom : p.size < p.maxSize) (hentries : p.entries.toList.Perm rest)

/-- Why a transaction is turned away: it is too large, or it is there with a priority that
is as high, or the pool is full of entries that are as high. -/
inductive Refused (p : Pool) (hash : TxHash) (tx : Bytes) (priority : ℕ) : Prop
  | large (h : p.maxTxBytes < tx.length)
  | known {e : TxEntry} (he : e ∈ p.entries.toList) (hhash : e.hash = hash)
      (hle : priority ≤ e.priority)
  | low (hfull : p.size = p.maxSize) (hle : ∀ e ∈ p.entries.toList, priority ≤ e.priority)

/-- What an admission can do. -/
inductive Admission (hashTx : Bytes → TxHash) (p : Pool) (tx : Bytes) (priority gasWanted : ℕ) :
    Bool × Pool → Prop
  | refused (h : Refused p (hashTx tx) tx priority) :
      Admission hashTx p tx priority gasWanted (false, p)
  | admitted {p' : Pool} {rest : List TxEntry} (hfits : tx.length ≤ p.maxTxBytes)
      (hroom : Room p ⟨tx, priority, gasWanted, hashTx tx⟩ rest)
      (hentries : p'.entries.toList.Perm (⟨tx, priority, gasWanted, hashTx tx⟩ :: rest))
      (hsize : p'.maxSize = p.maxSize) (hbytes : p'.maxTxBytes = p.maxTxBytes)
      (hindexed : p'.Indexed hashTx) : Admission hashTx p tx priority gasWanted (true, p')

/-- Entries of one key have one hash. -/
lemma hash_eq_of_key_eq {e e' : TxEntry} (h : e.key = e'.key) : e.hash = e'.hash :=
  BitVec.eq_of_toNat_eq (Prod.mk.inj (toLex.injective h)).2

/-- An entry of a hash that is not there yet, put beside the rest. -/
lemma Indexed.admitEntry {hashTx : Bytes → TxHash} {p p' : Pool} {new : TxEntry}
    (h : p.Indexed hashTx) (hrest : rest ⊆ p.entries.toList)
    (hentries : p'.entries.toList.Perm (new :: rest)) (hhash : new.hash = hashTx new.tx)
    (hfits : new.tx.length ≤ p.maxTxBytes) (hnew : ∀ e ∈ rest, e.hash ≠ new.hash)
    (hseen : ∀ hash q, p'.seen.lookup hash = some q ↔
      (hash = new.hash ∧ q = new.priority) ∨ ∃ e ∈ rest, e.hash = hash ∧ e.priority = q)
    (hsize : p'.maxSize = p.maxSize) (hbytes : p'.maxTxBytes = p.maxTxBytes)
    (hlength : rest.length < p.maxSize) : p'.Indexed hashTx := by
  have hmem : ∀ e, e ∈ p'.entries.toList ↔ e = new ∨ e ∈ rest := fun e => by
    rw [hentries.mem_iff, mem_cons]
  refine ⟨fun e he => ?_, fun e he => ?_, fun hash q => ?_, fun e he e' he' heq => ?_, ?_⟩
  · rcases (hmem e).mp he with rfl | he
    · exact hhash
    · exact h.hashed e (hrest he)
  · rw [hbytes]
    rcases (hmem e).mp he with rfl | he
    · exact hfits
    · exact h.fits e (hrest he)
  · rw [hseen]
    constructor
    · rintro (⟨rfl, rfl⟩ | ⟨e, he, heq⟩)
      · exact ⟨new, (hmem new).mpr (.inl rfl), rfl, rfl⟩
      · exact ⟨e, (hmem e).mpr (.inr he), heq⟩
    · rintro ⟨e, he, rfl, rfl⟩
      rcases (hmem e).mp he with rfl | he
      · exact .inl ⟨rfl, rfl⟩
      · exact .inr ⟨e, he, rfl, rfl⟩
  · rcases (hmem e).mp he with rfl | he <;> rcases (hmem e').mp he' with rfl | he'
    · rfl
    · exact (hnew e' he' heq.symm).elim
    · exact (hnew e he heq).elim
    · exact h.unique e (hrest he) e' (hrest he') heq
  · rw [size, hentries.length_eq, hsize]
    exact hlength

lemma priority_le_of_key_le {e e' : TxEntry} (h : e.key ≤ e'.key) : e.priority ≤ e'.priority := by
  rcases Prod.Lex.toLex_le_toLex.mp h with hlt | ⟨heq, -⟩
  · exact Nat.le_of_lt hlt
  · exact Nat.le_of_eq heq

/-- The index after a priority is written. -/
lemma seen_insert {seen : AList fun _ : TxHash => ℕ} {new : TxEntry}
    (hnew : ∀ e ∈ rest, e.hash ≠ new.hash) (hseen : ∀ hash q, hash ≠ new.hash →
      (seen.lookup hash = some q ↔ ∃ e ∈ rest, e.hash = hash ∧ e.priority = q)) (hash : TxHash)
    (q : ℕ) : (seen.insert new.hash new.priority).lookup hash = some q ↔
      (hash = new.hash ∧ q = new.priority) ∨ ∃ e ∈ rest, e.hash = hash ∧ e.priority = q := by
  by_cases heq : hash = new.hash
  · subst heq
    rw [AList.lookup_insert, Option.some.injEq]
    constructor
    · exact fun hq => .inl ⟨rfl, hq.symm⟩
    · rintro (⟨-, hq⟩ | ⟨e, he, hhash, -⟩)
      · exact hq.symm
      · exact (hnew e he hhash).elim
  · rw [AList.lookup_insert_ne heq, hseen hash q heq]
    exact ⟨.inr, fun hor => hor.resolve_left fun hand => heq hand.1⟩

section Admission

variable {hashTx : Bytes → TxHash} {p : Pool} (h : p.Indexed hashTx)

include h

/-- The rest of the entries, when one is taken away, does not have its hash. -/
lemma Indexed.hash_ne
    (hentries : p.entries.toList.Perm (old :: rest)) : ∀ e ∈ rest, e.hash ≠ old.hash := by
  intro e he heq
  have hnodup := hentries.nodup_iff.mp p.entries.nodup
  have hsame := h.unique e (hentries.mem_iff.mpr (.tail _ he)) old
    (hentries.mem_iff.mpr mem_cons_self) heq
  exact (nodup_cons.mp hnodup).1 (hsame ▸ he)

/-- What the index says when one entry is taken away. -/
lemma Indexed.seen_rest
    (hentries : p.entries.toList.Perm (old :: rest)) {hash : TxHash} (hne : hash ≠ old.hash)
    (q : ℕ) : p.seen.lookup hash = some q ↔ ∃ e ∈ rest, e.hash = hash ∧ e.priority = q := by
  rw [h.seen]
  constructor
  · rintro ⟨e, he, rfl, rfl⟩
    rcases mem_cons.mp (hentries.mem_iff.mp he) with rfl | he
    · exact (hne rfl).elim
    · exact ⟨e, he, rfl, rfl⟩
  · rintro ⟨e, he, heq⟩
    exact ⟨e, hentries.mem_iff.mpr (.tail _ he), heq⟩

/-- The entry of a transaction is replaced. -/
lemma Indexed.replaced
    (hfits : tx.length ≤ p.maxTxBytes) (hold : old ∈ p.entries.toList)
    (hhash : old.hash = hashTx tx) (hlt : old.priority < priority) :
    Admission hashTx p tx priority gasWanted (true, { p with
      entries := (p.entries.remove old.key).insert ⟨tx, priority, gasWanted, hashTx tx⟩
      seen := p.seen.insert (hashTx tx) priority }) := by
  set new : TxEntry := ⟨tx, priority, gasWanted, hashTx tx⟩
  have hentries := p.entries.remove_perm hold
  set rest := p.entries.remove old.key
  have hothers : ∀ e ∈ rest.toList, e.hash ≠ new.hash := by
    have hne := h.hash_ne hentries
    rwa [hhash] at hne
  have hinsert := rest.insert_perm (a := new) fun e he hkey =>
    hothers e he (hash_eq_of_key_eq hkey)
  refine .admitted hfits (.replaced hhash hlt hentries) hinsert rfl rfl ?_
  refine h.admitEntry (fun e he => hentries.mem_iff.mpr (.tail _ he)) hinsert rfl hfits
    hothers (seen_insert hothers fun hash q hne => ?_) rfl rfl ?_
  · exact h.seen_rest hentries (hhash ▸ hne) q
  · have hlength := hentries.length_eq
    have hle := h.size_le
    unfold size at hle
    rw [length_cons] at hlength
    omega

/-- The lowest entry of a full pool makes room. -/
lemma Indexed.evicted {lowest : TxEntry}
    (hfits : tx.length ≤ p.maxTxBytes) (hfresh : ∀ e ∈ p.entries.toList, e.hash ≠ hashTx tx)
    (hsize : p.size = p.maxSize) (hfirst : p.entries.first = some lowest)
    (hlt : lowest.priority < priority) : Admission hashTx p tx priority gasWanted (true, { p with
      entries := p.entries.popFirst.insert ⟨tx, priority, gasWanted, hashTx tx⟩
      seen := (p.seen.erase lowest.hash).insert (hashTx tx) priority }) := by
  set new : TxEntry := ⟨tx, priority, gasWanted, hashTx tx⟩
  have hcons := OrderedSet.toList_eq_cons hfirst
  have hentries : p.entries.toList.Perm (lowest :: p.entries.popFirst.toList) := hcons ▸ .refl _
  set rest := p.entries.popFirst
  have hsub : rest.toList ⊆ p.entries.toList :=
    fun e he => hentries.mem_iff.mpr (.tail _ he)
  have hothers : ∀ e ∈ rest.toList, e.hash ≠ new.hash := fun e he => hfresh e (hsub he)
  have hinsert := rest.insert_perm (a := new) fun e he hkey =>
    hothers e he (hash_eq_of_key_eq hkey)
  refine .admitted hfits (.evicted hsize
    (fun e he => priority_le_of_key_le (OrderedSet.first_le hfirst e he)) hlt
    (hfresh lowest (OrderedSet.first_mem hfirst)) hentries) hinsert rfl rfl ?_
  refine h.admitEntry hsub hinsert rfl hfits hothers (seen_insert hothers fun hash q hne => ?_) rfl
    rfl ?_
  · by_cases heq : hash = lowest.hash
    · subst heq
      rw [AList.lookup_erase]
      constructor
      · exact fun hq => (by cases hq)
      · rintro ⟨e, he, hhash, -⟩
        exact (h.hash_ne hentries e he hhash).elim
    · rw [AList.lookup_erase_ne heq]
      exact h.seen_rest hentries heq q
  · have hlength := hentries.length_eq
    rw [length_cons] at hlength
    unfold size at hsize
    omega

/-- There is room. -/
lemma Indexed.free (hfits : tx.length ≤ p.maxTxBytes)
    (hfresh : ∀ e ∈ p.entries.toList, e.hash ≠ hashTx tx) (hroom : p.size < p.maxSize) :
    Admission hashTx p tx priority gasWanted (true, { p with
      entries := p.entries.insert ⟨tx, priority, gasWanted, hashTx tx⟩
      seen := p.seen.insert (hashTx tx) priority }) := by
  set new : TxEntry := ⟨tx, priority, gasWanted, hashTx tx⟩
  have hothers : ∀ e ∈ p.entries.toList, e.hash ≠ new.hash := hfresh
  have hinsert := p.entries.insert_perm (a := new) fun e he hkey =>
    hothers e he (hash_eq_of_key_eq hkey)
  refine .admitted hfits (.free hroom (.refl _)) hinsert rfl rfl ?_
  exact h.admitEntry (fun e he => he) hinsert rfl hfits hothers
    (seen_insert hothers fun hash q _ => h.seen hash q) rfl rfl hroom

/-- **What an admission does.** -/
lemma addTxWithGas_admission (tx : Bytes) (priority gasWanted : ℕ) :
    Admission hashTx p tx priority gasWanted (p.addTxWithGas hashTx tx priority gasWanted) := by
  have hle := h.size_le
  unfold addTxWithGas
  dsimp only
  by_cases hzero : p.maxSize = 0
  · rw [if_pos hzero]
    refine .refused (.low (by omega) fun e he => ?_)
    have hpos : 0 < p.size := length_pos_of_mem he
    omega
  rw [if_neg hzero]
  by_cases hlarge : p.maxTxBytes < tx.length
  · rw [if_pos hlarge]
    exact .refused (.large hlarge)
  rw [if_neg hlarge]
  have hfits := Nat.le_of_not_lt hlarge
  cases hlookup : p.seen.lookup (hashTx tx) with
  | some q =>
    obtain ⟨old, hold, hhash, rfl⟩ := (h.seen _ _).mp hlookup
    dsimp only
    split_ifs with hpriority
    · exact .refused (.known hold hhash hpriority)
    · -- the entry that is removed has the key of the one that is there
      have hkey : TxEntry.key ⟨tx, old.priority, 0, hashTx tx⟩ = old.key := by
        rw [TxEntry.key, ← hhash]
        rfl
      rw [hkey]
      exact h.replaced hfits hold hhash (Nat.lt_of_not_le hpriority)
  | none =>
    have hfresh : ∀ e ∈ p.entries.toList, e.hash ≠ hashTx tx := by
      intro e he heq
      have hsome := (h.seen e.hash e.priority).mpr ⟨e, he, rfl, rfl⟩
      rw [heq, hlookup] at hsome
      cases hsome
    dsimp only
    by_cases hfull : p.maxSize ≤ p.size
    · rw [if_pos hfull]
      cases hfirst : p.entries.first with
      | none =>
        have hnil : p.entries.toList = [] := head?_eq_none_iff.mp hfirst
        have hsize : p.size = 0 := by rw [size, hnil, length_nil]
        omega
      | some lowest =>
        dsimp only
        split_ifs with hpriority
        · refine .refused (.low (by omega) fun e he => Nat.le_trans hpriority ?_)
          exact priority_le_of_key_le (OrderedSet.first_le hfirst e he)
        · exact h.evicted hfits hfresh (by omega) hfirst (Nat.lt_of_not_le hpriority)
    · rw [if_neg hfull]
      exact h.free hfits hfresh (by omega)

end Admission

/-! ### Rechecks -/

/-- An entry that is validated again, unless it is refused. -/
def revalidate (validator : Bytes → Option (ℕ × ℕ)) (p : Pool) (entry : TxEntry) : Pool :=
  match validator entry.tx with
  | some (newPriority, newGas) =>
    { p with
      seen := p.seen.insert entry.hash newPriority
      entries := p.entries.insert ⟨entry.tx, newPriority, newGas, entry.hash⟩ }
  | none => p

lemma indexed_empty (hashTx : Bytes → TxHash) (maxSize maxTxBytes : ℕ) :
    Indexed hashTx ⟨.empty, ∅, maxSize, maxTxBytes⟩ where
  hashed _ he := absurd he not_mem_nil
  fits _ he := absurd he not_mem_nil
  seen _ _ := ⟨fun h => absurd h (by simp), fun ⟨_, he, _⟩ => absurd he not_mem_nil⟩
  unique _ he := absurd he not_mem_nil
  size_le := Nat.zero_le _

/-- What a recheck has built from the entries that it has seen. -/
structure Rechecked (hashTx : Bytes → TxHash) (p : Pool) (done : List TxEntry) (q : Pool) :
    Prop where
  indexed : q.Indexed hashTx
  maxSize : q.maxSize = p.maxSize
  maxTxBytes : q.maxTxBytes = p.maxTxBytes
  hash : ∀ e ∈ q.entries.toList, ∃ e' ∈ done, e'.hash = e.hash
  length : q.entries.toList.length ≤ done.length

/-- **One round of a recheck**: the hash of the entry is not there yet. -/
lemma Rechecked.revalidate {hashTx : Bytes → TxHash} {p q : Pool} {done later : List TxEntry}
    {entry : TxEntry} (validator : Bytes → Option (ℕ × ℕ)) (hp : p.Indexed hashTx)
    (hsplit : p.entries.toList = done ++ entry :: later) (h : Rechecked hashTx p done q) :
    Rechecked hashTx p (done ++ [entry]) (q.revalidate validator entry) := by
  have hmem : entry ∈ p.entries.toList := by simp [hsplit]
  have hwider : ∀ e ∈ q.entries.toList, ∃ e' ∈ done ++ [entry], e'.hash = e.hash := fun e he =>
    (h.hash e he).imp fun _ he' => ⟨mem_append_left _ he'.1, he'.2⟩
  have hlength := h.length
  unfold Pool.revalidate
  split
  · next newPriority newGas _ =>
      have hfresh : ∀ e ∈ q.entries.toList, e.hash ≠ entry.hash := by
        intro e he heq
        obtain ⟨e', he', hhash⟩ := h.hash e he
        have hsame : e' = entry := hp.unique e' (by simp [hsplit, he']) entry hmem (hhash.trans heq)
        have hnodup := p.entries.nodup
        rw [hsplit] at hnodup
        exact (nodup_append.mp hnodup).2.2 e' he' entry mem_cons_self hsame
      set new : TxEntry := ⟨entry.tx, newPriority, newGas, entry.hash⟩
      have hothers : ∀ e ∈ q.entries.toList, e.hash ≠ new.hash := hfresh
      have hinsert := q.entries.insert_perm (a := new) fun e he hkey =>
        hothers e he (hash_eq_of_key_eq hkey)
      refine ⟨h.indexed.admitEntry (fun e he => he) hinsert (hp.hashed entry hmem) ?_ hothers
        (seen_insert hothers fun hash q' _ => h.indexed.seen hash q') rfl rfl ?_, h.maxSize,
        h.maxTxBytes, fun e he => ?_, ?_⟩
      · rw [h.maxTxBytes]
        exact hp.fits entry hmem
      · have hle := hp.size_le
        rw [size, hsplit, length_append, length_cons, ← h.maxSize] at hle
        omega
      · rcases mem_cons.mp (hinsert.mem_iff.mp he) with rfl | he
        · exact ⟨entry, by simp, rfl⟩
        · exact hwider e he
      · rw [hinsert.length_eq, length_cons, length_append, length_singleton]
        omega
  · refine ⟨h.indexed, h.maxSize, h.maxTxBytes, hwider, ?_⟩
    rw [length_append]
    omega

/-- **A recheck rebuilds the index with the entries.** -/
lemma Indexed.recheck {hashTx : Bytes → TxHash} {p : Pool} (hp : p.Indexed hashTx)
    (validator : Bytes → Option (ℕ × ℕ)) :
    Rechecked hashTx p p.entries.toList (p.recheck validator) := by
  suffices hrun : ∀ done later q, p.entries.toList = done ++ later → Rechecked hashTx p done q →
      Rechecked hashTx p p.entries.toList (later.foldl (Pool.revalidate validator) q) by
    exact hrun [] _ _ rfl ⟨indexed_empty hashTx _ _, rfl, rfl, fun _ he =>
      absurd he not_mem_nil, le_rfl⟩
  intro done later
  induction later generalizing done with
  | nil =>
    intro q hsplit h
    rwa [hsplit, append_nil]
  | cons entry later ih =>
    intro q hsplit h
    rw [foldl_cons]
    exact ih (done ++ [entry]) _ (by simp [hsplit]) (h.revalidate validator hp hsplit)

/-! ### Runs -/

/-- A call that changes the pool. -/
inductive Call
  | addTxWithGas (tx : Bytes) (priority gasWanted : ℕ)
  | recheck (validator : Bytes → Option (ℕ × ℕ))

/-- A call. -/
def perform (hashTx : Bytes → TxHash) (p : Pool) : Call → Pool
  | .addTxWithGas tx priority gasWanted => (p.addTxWithGas hashTx tx priority gasWanted).2
  | .recheck validator => p.recheck validator

/-- **Every call keeps the index.** -/
lemma Indexed.perform {hashTx : Bytes → TxHash} {p : Pool} (h : p.Indexed hashTx) (call : Call) :
    (p.perform hashTx call).Indexed hashTx ∧ (p.perform hashTx call).maxSize = p.maxSize := by
  cases call with
  | addTxWithGas tx priority gasWanted =>
    have hadmission := addTxWithGas_admission h tx priority gasWanted
    change ((p.addTxWithGas hashTx tx priority gasWanted).2).Indexed hashTx
      ∧ ((p.addTxWithGas hashTx tx priority gasWanted).2).maxSize = p.maxSize
    generalize p.addTxWithGas hashTx tx priority gasWanted = r at hadmission
    cases hadmission with
    | refused => exact ⟨h, rfl⟩
    | admitted _ _ _ hsize _ hindexed => exact ⟨hindexed, hsize⟩
  | recheck validator =>
    have hrechecked := h.recheck validator
    exact ⟨hrechecked.indexed, hrechecked.maxSize⟩

/-- A new pool after a sequence of calls. -/
def performAll (hashTx : Bytes → TxHash) (maxSize maxTxBytes : ℕ) (calls : List Call) : Pool :=
  calls.foldl (perform hashTx) (new maxSize maxTxBytes)

lemma indexed_performAll (hashTx : Bytes → TxHash) (maxSize maxTxBytes : ℕ) (calls : List Call) :
    (performAll hashTx maxSize maxTxBytes calls).Indexed hashTx
      ∧ (performAll hashTx maxSize maxTxBytes calls).maxSize = maxSize := by
  induction calls using reverseRecOn with
  | nil => exact ⟨indexed_empty hashTx _ _, rfl⟩
  | append_singleton calls call ih =>
    rw [performAll, foldl_concat]
    obtain ⟨hindexed, hsize⟩ := ih.1.perform call
    exact ⟨hindexed, hsize.trans ih.2⟩

/-- **Mempool index.**  After every sequence of admissions and rechecks, whatever they replace,
evict, drop or give another priority, the index holds exactly the hashes of the entries, each with
the priority of its entry; no transaction is there twice; and there are at most `maxSize` entries.
Collisions of hashes need not be excluded: a transaction whose hash is there takes its place. -/
theorem mempool_index (hashTx : Bytes → TxHash) (maxSize maxTxBytes : ℕ) (calls : List Call) :
    let p := performAll hashTx maxSize maxTxBytes calls
    (∀ hash priority, p.seen.lookup hash = some priority ↔
        ∃ e ∈ p.entries.toList, e.hash = hash ∧ e.priority = priority)
      ∧ (∀ e ∈ p.entries.toList, e.hash = hashTx e.tx)
      ∧ (p.entries.toList.map (·.tx)).Nodup ∧ p.size ≤ maxSize := by
  intro p
  obtain ⟨h, hsize⟩ := indexed_performAll hashTx maxSize maxTxBytes calls
  refine ⟨h.seen, h.hashed, ?_, hsize ▸ h.size_le⟩
  refine p.entries.nodup.map_on fun e he e' he' htx => h.unique e he e' he' ?_
  rw [h.hashed e he, h.hashed e' he', htx]

end Pool

end Hotmint.Mempool
