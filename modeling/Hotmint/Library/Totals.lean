/-
Sums over a finite map.  A map is an association list without repeated keys
(`AList`):

* `AList.total`: the sum of a weight over all entries;
* `AList.total_insert`, `AList.total_erase`: writing or erasing a key exchanges its
  weight.
-/
import Mathlib.Algebra.BigOperators.Group.List.Basic
import Mathlib.Algebra.Ring.Nat
import Mathlib.Data.List.AList

namespace AList

open List
variable {α : Type*} {β : α → Type*}

/-- The sum of a weight over the entries. -/
def total (f : (a : α) → β a → ℕ) (m : AList β) : ℕ := (m.entries.map fun e => f e.1 e.2).sum

variable [DecidableEq α]

/-- The weight of a key, nothing when it is absent. -/
def weightAt (f : (a : α) → β a → ℕ) (m : AList β) (a : α) : ℕ := (m.lookup a).elim 0 (f a)

section

variable (f : (a : α) → β a → ℕ) (m : AList β) (a : α)

/-- The weight of one key and the rest. -/
lemma total_erase : total f (m.erase a) + m.weightAt f a = total f m := by
  suffices h : ∀ l : List (Sigma β), ((l.kerase a).map fun e => f e.1 e.2).sum
      + (l.dlookup a).elim 0 (f a) = (l.map fun e => f e.1 e.2).sum from h m.entries
  intro l
  induction l with
  | nil => rfl
  | cons e l ih =>
    obtain ⟨a', b⟩ := e
    by_cases h : a = a'
    · subst h
      rw [kerase_cons_eq (s := ⟨a, b⟩) rfl, dlookup_cons_eq, map_cons, sum_cons,
        Option.elim_some, Nat.add_comm]
    · rw [kerase_cons_ne h, dlookup_cons_ne _ _ h, map_cons, map_cons,
        sum_cons, sum_cons, Nat.add_assoc, ih]

/-- Writing a key exchanges its weight. -/
lemma total_insert (b : β a) : total f (m.insert a b) + m.weightAt f a = total f m + f a b := by
  have hwritten : total f (m.insert a b) = f a b + total f (m.erase a) := rfl
  have herased := total_erase f m a
  omega

lemma weightAt_le_total : m.weightAt f a ≤ total f m := by
  have herased := total_erase f m a
  omega

end

end AList
