/-
Sets ordered by a key (a B-tree set, whose elements are compared by a key):

* `OrderedSet`: the elements in ascending order of distinct keys;
* `OrderedSet.insert`, `remove`, `first`, `popFirst`;
* `insert_perm`, `remove_perm`, `toList_eq_cons`: the elements afterwards;
* `first_le`: the first element has the least key.
-/
import Mathlib.Data.List.Nodup
import Mathlib.Data.List.Perm.Basic
import Mathlib.Order.Lattice

variable {α κ : Type*} [LinearOrder κ]

/-- The elements of a set, in ascending order of their keys. -/
structure OrderedSet (key : α → κ) where
  toList : List α
  sorted : toList.Pairwise fun a b => key a < key b

namespace OrderedSet

open List
variable {key : α → κ}
variable {l : List α} {a b : α}

/-- The empty set. -/
def empty : OrderedSet key := ⟨[], .nil⟩

/-- An element put in its place; the set stays as it is when it has one of the same key. -/
def insertList (key : α → κ) (a : α) : List α → List α
  | [] => [a]
  | b :: l =>
    if key a < key b then a :: b :: l
    else if key a = key b then b :: l
    else b :: insertList key a l

lemma mem_of_mem_insertList (h : b ∈ insertList key a l) : b = a ∨ b ∈ l := by
  induction l with
  | nil => exact .inl (mem_singleton.mp h)
  | cons c l ih =>
    unfold insertList at h
    split_ifs at h
    · exact mem_cons.mp h
    · exact .inr h
    · rcases mem_cons.mp h with rfl | h
      · exact .inr mem_cons_self
      · exact (ih h).imp_right (mem_cons_of_mem _)

lemma sorted_insertList (a : α) (h : l.Pairwise fun a b => key a < key b) :
    (insertList key a l).Pairwise fun a b => key a < key b := by
  induction l with
  | nil => exact pairwise_singleton _ _
  | cons b l ih =>
    obtain ⟨hb, hl⟩ := pairwise_cons.mp h
    unfold insertList
    split_ifs with hlt heq
    · refine pairwise_cons.mpr ⟨fun c hc => ?_, h⟩
      rcases mem_cons.mp hc with rfl | hc
      · exact hlt
      · exact lt_trans hlt (hb c hc)
    · exact h
    · refine pairwise_cons.mpr ⟨fun c hc => ?_, ih hl⟩
      rcases mem_of_mem_insertList hc with rfl | hc
      · exact lt_of_le_of_ne (le_of_not_gt hlt) fun hkey => heq hkey.symm
      · exact hb c hc

/-- `insert`. -/
def insert (s : OrderedSet key) (a : α) : OrderedSet key :=
  ⟨insertList key a s.toList, sorted_insertList a s.sorted⟩

/-- `remove`: the element of a key. -/
def remove (s : OrderedSet key) (k : κ) : OrderedSet key :=
  ⟨s.toList.filter (key · ≠ k), s.sorted.filter _⟩

/-- `first`. -/
def first (s : OrderedSet key) : Option α := s.toList.head?

/-- `pop_first`. -/
def popFirst (s : OrderedSet key) : OrderedSet key := ⟨s.toList.tail, s.sorted.tail⟩

/-- A new key adds the element. -/
lemma insert_perm (s : OrderedSet key) (h : ∀ b ∈ s.toList, key b ≠ key a) :
    (s.insert a).toList.Perm (a :: s.toList) := by
  change (insertList key a s.toList).Perm _
  generalize s.toList = l at h
  induction l with
  | nil => exact .refl _
  | cons b l ih =>
    obtain ⟨hb, hl⟩ := forall_mem_cons.mp h
    unfold insertList
    split_ifs with hlt heq
    · exact .refl _
    · exact (hb heq.symm).elim
    · exact ((ih hl).cons b).trans (.swap a b l)

lemma nodup_keys (s : OrderedSet key) : (s.toList.map key).Nodup :=
  pairwise_map.mpr (s.sorted.imp fun hlt => ne_of_lt hlt)

lemma nodup (s : OrderedSet key) : s.toList.Nodup := .of_map _ s.nodup_keys

/-- Elements of one key are one element. -/
lemma eq_of_key_eq (s : OrderedSet key) (ha : a ∈ s.toList) (hb : b ∈ s.toList)
    (h : key a = key b) : a = b :=
  inj_on_of_nodup_map s.nodup_keys ha hb h

/-- Removing takes the element of the key. -/
lemma remove_perm (s : OrderedSet key) (ha : a ∈ s.toList) :
    s.toList.Perm (a :: (s.remove (key a)).toList) := by
  have hnodup : (a :: (s.remove (key a)).toList).Nodup := by
    refine nodup_cons.mpr ⟨fun hmem => ?_, s.nodup.filter _⟩
    exact of_decide_eq_true (mem_filter.mp hmem).2 rfl
  refine (perm_ext_iff_of_nodup s.nodup hnodup).mpr fun b => ?_
  rw [mem_cons, remove, mem_filter, decide_eq_true_iff]
  constructor
  · intro hb
    by_cases hkey : key b = key a
    · exact .inl (s.eq_of_key_eq hb ha hkey)
    · exact .inr ⟨hb, hkey⟩
  · rintro (rfl | hb)
    · exact ha
    · exact hb.1

/-- The first element, and the rest. -/
lemma toList_eq_cons {s : OrderedSet key} (h : s.first = some a) :
    s.toList = a :: s.popFirst.toList := by
  change s.toList = a :: s.toList.tail
  exact eq_cons_of_mem_head? h

/-- **The first element has the least key.** -/
lemma first_le {s : OrderedSet key} (h : s.first = some a) : ∀ b ∈ s.toList, key a ≤ key b := by
  have hsorted := s.sorted
  rw [toList_eq_cons h] at hsorted ⊢
  intro b hb
  rcases mem_cons.mp hb with rfl | hb
  · exact le_refl _
  · exact le_of_lt (rel_of_pairwise_cons hsorted hb)

lemma first_mem {s : OrderedSet key} (h : s.first = some a) : a ∈ s.toList :=
  mem_of_mem_head? h

end OrderedSet
