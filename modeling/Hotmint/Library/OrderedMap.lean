/-
Maps ordered by their keys (a B-tree map):

* `OrderedMap`: the entries in ascending order of distinct keys;
* `OrderedMap.insert`, `remove`, `lookup`, `range`, `last`;
* `lookup_insert`: looking up after an insertion;
* `entries_insert_above`: a key above all others comes last;
* `entries_removeAll`: what several removals leave;
* `mapValues`: the same keys with other values, and that it commutes with `insert`.
-/
import Mathlib.Data.List.Nodup
import Mathlib.Order.Lattice

variable {κ ν μ : Type*} [LinearOrder κ]

/-- The entries of a map, in ascending order of their keys. -/
structure OrderedMap (κ ν : Type*) [LinearOrder κ] where
  entries : List (κ × ν)
  sorted : entries.Pairwise fun a b => a.1 < b.1

namespace OrderedMap

open List

/-- The empty map. -/
def empty : OrderedMap κ ν := ⟨[], .nil⟩

/-- An entry put in its place, instead of one of the same key. -/
def insertList (k : κ) (v : ν) : List (κ × ν) → List (κ × ν)
  | [] => [(k, v)]
  | e :: l =>
    if k < e.1 then (k, v) :: e :: l
    else if k = e.1 then (k, v) :: l
    else e :: insertList k v l

lemma mem_of_mem_insertList {k : κ} {v : ν} {e : κ × ν} {l : List (κ × ν)}
    (h : e ∈ insertList k v l) : e = (k, v) ∨ e ∈ l := by
  induction l with
  | nil => exact .inl (mem_singleton.mp h)
  | cons e' l ih =>
    unfold insertList at h
    split_ifs at h
    · exact mem_cons.mp h
    · exact (mem_cons.mp h).imp_right (mem_cons_of_mem _)
    · rcases mem_cons.mp h with rfl | h
      · exact .inr mem_cons_self
      · exact (ih h).imp_right (mem_cons_of_mem _)

lemma sorted_insertList (k : κ) (v : ν) {l : List (κ × ν)} (h : l.Pairwise fun a b => a.1 < b.1) :
    (insertList k v l).Pairwise fun a b => a.1 < b.1 := by
  induction l with
  | nil => exact pairwise_singleton _ _
  | cons e l ih =>
    obtain ⟨he, hl⟩ := pairwise_cons.mp h
    unfold insertList
    split_ifs with hlt heq
    · refine pairwise_cons.mpr ⟨fun e' he' => ?_, h⟩
      rcases mem_cons.mp he' with rfl | he'
      · exact hlt
      · exact lt_trans hlt (he e' he')
    · refine pairwise_cons.mpr ⟨fun e' he' => ?_, hl⟩
      exact lt_of_eq_of_lt heq (he e' he')
    · refine pairwise_cons.mpr ⟨fun e' he' => ?_, ih hl⟩
      rcases mem_of_mem_insertList he' with rfl | he'
      · exact lt_of_le_of_ne (le_of_not_gt hlt) fun hkey => heq hkey.symm
      · exact he e' he'

/-- `insert`. -/
def insert (m : OrderedMap κ ν) (k : κ) (v : ν) : OrderedMap κ ν :=
  ⟨insertList k v m.entries, sorted_insertList k v m.sorted⟩

/-- `get`. -/
def lookup (m : OrderedMap κ ν) (k : κ) : Option ν := (m.entries.find? (·.1 = k)).map (·.2)

/-- `range(lo..=hi)`. -/
def range (m : OrderedMap κ ν) (lo hi : κ) : List (κ × ν) :=
  m.entries.filter fun e => lo ≤ e.1 ∧ e.1 ≤ hi

/-- The entry of the greatest key. -/
def last (m : OrderedMap κ ν) : Option (κ × ν) := m.entries.getLast?

lemma find?_insertList_self (k : κ) (v : ν) (l : List (κ × ν)) :
    (insertList k v l).find? (·.1 = k) = some (k, v) := by
  induction l with
  | nil => simp [insertList]
  | cons e l ih =>
    unfold insertList
    split_ifs with hlt heq
    · simp
    · simp
    · rw [find?_cons_of_neg (by simpa using fun h => heq h.symm), ih]

lemma find?_insertList_ne {k k' : κ} (hk : k' ≠ k) (v : ν) (l : List (κ × ν)) :
    (insertList k v l).find? (·.1 = k') = l.find? (·.1 = k') := by
  have hnew : ∀ l : List (κ × ν), ((k, v) :: l).find? (·.1 = k') = l.find? (·.1 = k') := fun l =>
    find?_cons_of_neg (by simpa using hk.symm)
  induction l with
  | nil => exact hnew []
  | cons e l ih =>
    unfold insertList
    split_ifs with hlt heq
    · rw [hnew]
    · -- the entry that is replaced is not the one looked for
      rw [hnew, find?_cons_of_neg (by simpa [← heq] using hk.symm)]
    · rw [find?_cons, find?_cons, ih]

/-- The inserted key has the new value, the others have what they had. -/
lemma lookup_insert (m : OrderedMap κ ν) (k k' : κ) (v : ν) :
    (m.insert k v).lookup k' = if k' = k then some v else m.lookup k' := by
  unfold lookup insert
  split_ifs with hk
  · rw [hk, find?_insertList_self]
    rfl
  · rw [find?_insertList_ne hk]

/-- An entry above all others comes last. -/
lemma entries_insert_above (m : OrderedMap κ ν) {k : κ} (v : ν) (h : ∀ e ∈ m.entries, e.1 < k) :
    (m.insert k v).entries = m.entries ++ [(k, v)] := by
  obtain ⟨l, hl⟩ := m
  change insertList k v l = l ++ [(k, v)]
  change ∀ e ∈ l, e.1 < k at h
  clear hl
  induction l with
  | nil => rfl
  | cons e l ih =>
    have he := h e mem_cons_self
    rw [insertList, if_neg he.not_gt, if_neg he.ne', ih fun e' he' => h e' (.tail _ he'),
      cons_append]

/-- `remove`. -/
def remove (m : OrderedMap κ ν) (k : κ) : OrderedMap κ ν :=
  ⟨m.entries.filter (·.1 ≠ k), m.sorted.filter _⟩

/-- Several removals leave the entries of the other keys. -/
lemma entries_removeAll (m : OrderedMap κ ν) (ks : List κ) :
    (ks.foldl remove m).entries = m.entries.filter (·.1 ∉ ks) := by
  induction ks generalizing m with
  | nil => simp
  | cons k ks ih =>
    rw [foldl_cons, ih, remove, filter_filter]
    refine filter_congr fun e _ => ?_
    simp [Bool.and_comm]

lemma nodup_keys (m : OrderedMap κ ν) : (m.entries.map (·.1)).Nodup :=
  pairwise_map.mpr (m.sorted.imp fun hlt => ne_of_lt hlt)

/-- Entries of one key are one entry. -/
lemma eq_of_key_eq (m : OrderedMap κ ν) {e e' : κ × ν} (he : e ∈ m.entries) (he' : e' ∈ m.entries)
    (h : e.1 = e'.1) : e = e' :=
  inj_on_of_nodup_map m.nodup_keys he he' h

/-- The same keys with other values. -/
def mapValues (f : ν → μ) (m : OrderedMap κ ν) : OrderedMap κ μ :=
  ⟨m.entries.map fun e => (e.1, f e.2), pairwise_map.mpr m.sorted⟩

lemma map_insertList (f : ν → μ) (k : κ) (v : ν) (l : List (κ × ν)) :
    (insertList k v l).map (fun e => (e.1, f e.2))
      = insertList k (f v) (l.map fun e => (e.1, f e.2)) := by
  induction l with
  | nil => rfl
  | cons e l ih =>
    simp only [insertList, map_cons]
    split_ifs
    · rfl
    · rfl
    · rw [map_cons, ih]

section

variable (f : ν → μ) (m : OrderedMap κ ν)

lemma mapValues_insert (k : κ) (v : ν) :
    (m.insert k v).mapValues f = (m.mapValues f).insert k (f v) := by
  simp only [mapValues, insert, map_insertList]

@[simp] lemma lookup_mapValues (k : κ) :
    (m.mapValues f).lookup k = (m.lookup k).map f := by
  simp only [lookup, mapValues, find?_map, Option.map_map]
  rfl

@[simp] lemma range_mapValues (lo hi : κ) :
    (m.mapValues f).range lo hi = (m.range lo hi).map fun e => (e.1, f e.2) := by
  simp only [range, mapValues, filter_map]
  rfl

@[simp] lemma last_mapValues :
    (m.mapValues f).last = m.last.map fun e => (e.1, f e.2) := by
  simp only [last, mapValues, getLast?_map]

end

end OrderedMap
