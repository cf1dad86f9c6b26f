/-
Weighted quorums over a list of voters.

* `weight`: the weight of the voters with a property;
* `weight_add_weight_le`: **inclusion and exclusion** for two properties;
* `exists_common_voter`: two quorums share a voter outside of any light set.
-/
import Mathlib.Algebra.GroupWithZero.Nat
import Mathlib.Algebra.Order.BigOperators.Group.List

namespace Quorum

variable {α : Type*} (w : α → ℕ)

/-- The weight of the voters with a property. -/
def weight (p : α → Prop) [DecidablePred p] (voters : List α) : ℕ :=
  ((voters.filter p).map w).sum

variable (p q r : α → Prop) [DecidablePred p] [DecidablePred q] [DecidablePred r]

lemma weight_cons (a : α) (voters : List α) :
    weight w p (a :: voters) = (if p a then w a else 0) + weight w p voters := by
  unfold weight
  by_cases h : p a
  · simp [h]
  · simp [h]

/-- A stronger property has less weight. -/
lemma weight_mono {voters : List α} (h : ∀ a ∈ voters, p a → q a) :
    weight w p voters ≤ weight w q voters := by
  induction voters with
  | nil => exact le_rfl
  | cons a voters ih =>
    have hrest := ih fun b hb => h b (.tail _ hb)
    have hhead := h a List.mem_cons_self
    rw [weight_cons, weight_cons]
    by_cases hp : p a
    · rw [if_pos hp, if_pos (hhead hp)]
      omega
    · rw [if_neg hp]
      omega

/-- Inclusion and exclusion: what two properties weigh together is at most the
total and their common part. -/
lemma weight_add_weight_le (voters : List α) : weight w p voters + weight w q voters
      ≤ (voters.map w).sum + weight w (fun a => p a ∧ q a) voters := by
  induction voters with
  | nil => exact le_rfl
  | cons a voters ih =>
    rw [weight_cons, weight_cons, weight_cons, List.map_cons, List.sum_cons]
    by_cases hp : p a <;> by_cases hq : q a <;> simp only [hp, hq, if_true, if_false, and_self,
      and_true, and_false] <;> omega

/-- **Quorum intersection**: when twice the threshold exceeds the total and the
weight of `r`, two quorums share a voter without `r`. -/
theorem exists_common_voter {voters : List α} {threshold : ℕ}
    (hp : threshold ≤ weight w p voters) (hq : threshold ≤ weight w q voters)
    (hr : (voters.map w).sum + weight w r voters < 2 * threshold) :
    ∃ a ∈ voters, p a ∧ q a ∧ ¬ r a := by
  by_contra hnone
  push Not at hnone
  have hcommon : weight w (fun a => p a ∧ q a) voters ≤ weight w r voters :=
    weight_mono w _ _ fun a ha hpq => hnone a ha hpq.1 hpq.2
  have hsum := weight_add_weight_le w p q voters
  omega

end Quorum
