/-
Writing to a finite map, and filtering it by its keys.  A map is an association
list without repeated keys (`AList`):

* `AList.lookup_insert_ite`, `AList.lookup_erase_ite`: what is found after a key is written or
  erased;
* `AList.retain`: keep the entries whose key satisfies a predicate;
* `AList.lookup_retain`, `AList.mem_retain`: what is found afterwards.
-/
import Mathlib.Data.List.AList

namespace AList

open Option
variable {α : Type*} {β : α → Type*}

/-- Keep the entries whose key satisfies `p`. -/
def retain (p : α → Bool) (m : AList β) : AList β where
  entries := m.entries.filter fun e => p e.1
  nodupKeys := m.nodupKeys.sublist List.filter_sublist

variable [DecidableEq α]

/-- The written key has the new value, the others have what they had. -/
lemma lookup_insert_ite {γ : Type*} (m : AList fun _ : α => γ) (a a' : α) (c : γ) :
    (m.insert a c).lookup a' = if a' = a then some c else m.lookup a' := by
  split_ifs with h
  · rw [h, lookup_insert]
  · rw [lookup_insert_ne h]

/-- The erased key is gone, the others have what they had. -/
lemma lookup_erase_ite {γ : Type*} (m : AList fun _ : α => γ) (a a' : α) :
    (m.erase a).lookup a' = if a' = a then none else m.lookup a' := by
  split_ifs with h
  · rw [h, lookup_erase]
  · rw [lookup_erase_ne h]

/-- An entry of a filtered map is an entry of the map. -/
lemma mem_of_lookup_retain {p : α → Bool} {m : AList β} {a : α} {b : β a}
    (h : lookup a (retain p m) = some b) : lookup a m = some b := by
  have hmem : Sigma.mk a b ∈ (retain p m).entries := mem_lookup_iff.mp (mem_def.mpr h)
  exact mem_def.mp (mem_lookup_iff.mpr (List.mem_of_mem_filter hmem))

/-- A key that passes the filter keeps its value, any other is gone. -/
lemma lookup_retain (p : α → Bool) (m : AList β) (a : α) :
    lookup a (retain p m) = if p a then lookup a m else none := by
  split_ifs with hp
  · cases hm : lookup a m with
    | none =>
      refine lookup_eq_none.mpr fun hmem => ?_
      obtain ⟨b, hb⟩ := isSome_iff_exists.mp (lookup_isSome.mpr hmem)
      rw [mem_of_lookup_retain hb] at hm
      cases hm
    | some b =>
      have hmem : Sigma.mk a b ∈ m.entries := mem_lookup_iff.mp (mem_def.mpr hm)
      refine mem_def.mp (mem_lookup_iff.mpr ?_)
      exact List.mem_filter.mpr ⟨hmem, hp⟩
  · cases hm : lookup a (retain p m) with
    | none => rfl
    | some b =>
      have hmem : Sigma.mk a b ∈ (retain p m).entries :=
        mem_lookup_iff.mp (mem_def.mpr hm)
      exact absurd (List.mem_filter.mp hmem).2 hp

lemma mem_retain {p : α → Bool} {m : AList β} {a : α} : a ∈ retain p m ↔ p a = true ∧ a ∈ m := by
  rw [← lookup_isSome, lookup_retain, ← lookup_isSome]
  split_ifs with hp
  · exact (and_iff_right hp).symm
  · exact ⟨fun h => (Bool.false_ne_true h).elim, fun h => absurd h.1 hp⟩

end AList
