/-
Properties of every prefix of a growing list, for processes that may stop
between any two of their effects.

* `EveryPrefix`: a property holds of every prefix;
* `EveryPrefix.append`: **it is kept by elements that keep it**;
* `EveryPrefix.append_of_strong`: and by elements that keep a stronger property,
  which only has to hold where the list ends.
-/
import Mathlib.Data.List.Infix

variable {α : Type*} {Q G : List α → Prop} {t l : List α}

/-- The property holds of every prefix. -/
def EveryPrefix (Q : List α → Prop) (t : List α) : Prop := ∀ p, p <+: t → Q p

namespace EveryPrefix

lemma self (h : EveryPrefix Q t) : Q t := h t List.prefix_rfl

lemma of_le {p : List α} (h : EveryPrefix Q t) (hp : p <+: t) : EveryPrefix Q p :=
  fun q hq => h q (hq.trans hp)

lemma nil (h : Q []) : EveryPrefix Q [] := by
  intro p hp
  rw [List.prefix_nil.mp hp]
  exact h

lemma concat {x : α} (h : EveryPrefix Q t) (hx : Q (t ++ [x])) : EveryPrefix Q (t ++ [x]) := by
  intro p hp
  rcases List.prefix_concat_iff.mp hp with rfl | hold
  · exact hx
  · exact h p hold

/-- **Elements that keep a stronger property** keep the weaker one on the way. -/
lemma append_of_strong (free : α → Prop) (hstrong : ∀ p x, free x → G p → G (p ++ [x]))
    (himp : ∀ p, G p → Q p) (h : EveryPrefix Q t) (hG : G t) (hfree : ∀ x ∈ l, free x) :
    EveryPrefix Q (t ++ l) ∧ G (t ++ l) := by
  induction l generalizing t with
  | nil => simpa using ⟨h, hG⟩
  | cons x l ih =>
    have hx : G (t ++ [x]) := hstrong t x (hfree x List.mem_cons_self) hG
    have hrest := ih (h.concat (himp _ hx)) hx fun y hy => hfree y (.tail _ hy)
    simpa using hrest

/-- **Elements that keep the property.** -/
lemma append (free : α → Prop) (hstable : ∀ p x, free x → Q p → Q (p ++ [x]))
    (h : EveryPrefix Q t) (hfree : ∀ x ∈ l, free x) : EveryPrefix Q (t ++ l) :=
  (append_of_strong free hstable (fun _ hq => hq) h h.self hfree).1

end EveryPrefix
