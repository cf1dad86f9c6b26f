/-
Keeping the first element of each key.

* `Firsts.push`: an element is appended unless one of its key is there;
* `Firsts.firsts`: a list pushed element by element;
* `find?_firsts`: **the element kept for a key is the first of that key**;
* `nodup_firsts`: there is one for each key.
-/
import Mathlib.Data.List.Induction
import Mathlib.Data.List.Nodup

namespace Firsts

open List
variable {α κ : Type*} [DecidableEq κ] (key : α → κ)

/-- Append an element unless there is one of its key. -/
def push (l : List α) (a : α) : List α := if l.any (key · = key a) then l else l ++ [a]

/-- The first element of each key. -/
def firsts (l : List α) : List α := l.foldl (push key) []

lemma firsts_concat (l : List α) (a : α) : firsts key (l ++ [a]) = push key (firsts key l) a := by
  rw [firsts, foldl_append]
  rfl

lemma push_of_any {l : List α} {a : α} (h : l.any (key · = key a) = true) : push key l a = l :=
  if_pos h

lemma push_of_not_any {l : List α} {a : α} (h : ¬ l.any (key · = key a) = true) :
    push key l a = l ++ [a] :=
  if_neg h

/-- Elements selected by their keys, after one more. -/
lemma filter_push (p : κ → Bool) (l : List α) (a : α) : (push key l a).filter (fun b => p (key b))
      = if p (key a) then push key (l.filter fun b => p (key b)) a
        else l.filter fun b => p (key b) := by
  have hany : p (key a) = true → (l.filter fun b => p (key b)).any (key · = key a)
      = l.any (key · = key a) := by
    intro hp
    rw [any_filter]
    refine any_congr rfl fun b => ?_
    by_cases hkey : key b = key a
    · simp [hkey, hp]
    · simp [hkey]
  by_cases hthere : l.any (key · = key a) = true
  · rw [push_of_any key hthere]
    split_ifs with hp
    · rw [push_of_any key ((hany hp).trans hthere)]
    · rfl
  · rw [push_of_not_any key hthere, filter_append]
    split_ifs with hp
    · rw [push_of_not_any key fun h => hthere ((hany hp).symm.trans h), filter_singleton, hp,
        cond_true]
    · rw [filter_singleton, Bool.not_eq_true _ |>.mp hp, cond_false, append_nil]

lemma any_eq_isSome_find? (l : List α) (k : κ) :
    l.any (key · = k) = (l.find? (key · = k)).isSome := by
  rw [Bool.eq_iff_iff, any_eq_true, find?_isSome]

/-- **The element kept for a key is the first of that key.** -/
lemma find?_firsts (l : List α) (k : κ) :
    (firsts key l).find? (key · = k) = l.find? (key · = k) := by
  induction l using reverseRecOn with
  | nil => rfl
  | append_singleton l a ih =>
    rw [firsts_concat, push, find?_append]
    split_ifs with hany
    · -- an element of the key was there, so the new one is never found
      rw [ih]
      by_cases hk : key a = k
      · rw [any_eq_isSome_find?, hk, ih] at hany
        rw [Option.or_of_isSome hany]
      · rw [find?_singleton, if_neg (by simpa using hk), Option.or_none]
    · rw [find?_append, ih]

lemma any_firsts (l : List α) (k : κ) : (firsts key l).any (key · = k) = l.any (key · = k) := by
  rw [any_eq_isSome_find?, any_eq_isSome_find?, find?_firsts]

lemma mem_of_mem_firsts {l : List α} {a : α} (h : a ∈ firsts key l) : a ∈ l := by
  induction l using reverseRecOn with
  | nil => exact h
  | append_singleton l b ih =>
    rw [firsts_concat, push] at h
    split_ifs at h
    · exact mem_append_left _ (ih h)
    · exact (mem_append.mp h).elim (fun h => mem_append_left _ (ih h))
        (fun h => mem_append_right _ h)

lemma nodup_firsts (l : List α) : ((firsts key l).map key).Nodup := by
  induction l using reverseRecOn with
  | nil => exact nodup_nil
  | append_singleton l a ih =>
    rw [firsts_concat, push]
    split_ifs with hany
    · exact ih
    · rw [map_append, map_singleton]
      refine ih.append (nodup_singleton _) fun k hk hk' => hany ?_
      obtain ⟨b, hb, rfl⟩ := mem_map.mp hk
      exact any_eq_true.mpr ⟨b, hb, decide_eq_true (mem_singleton.mp hk')⟩

end Firsts
