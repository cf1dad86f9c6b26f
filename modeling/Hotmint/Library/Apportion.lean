/-
Splitting an amount in proportion to given parts, without losing the rounding.

The share of a part is the difference of two cumulative floors, `⌊(c + a) D / T⌋` minus
`⌊c D / T⌋`, where `c` is the sum of the parts before it:

* `sum_shares`: **the shares add up to what is split**.
-/
import Mathlib.Algebra.BigOperators.Group.List.Basic
import Mathlib.Algebra.Order.Ring.Nat

namespace Apportion

/-- What the parts up to a cumulative sum are charged, of an amount split over a whole. -/
def upTo (amount whole cumulative : ℕ) : ℕ := cumulative * amount / whole

/-- The shares of the parts, after parts of the given sum. -/
def shares (amount whole : ℕ) : ℕ → List ℕ → List ℕ
  | _, [] => []
  | cumulative, part :: parts =>
    (upTo amount whole (cumulative + part) - upTo amount whole cumulative)
      :: shares amount whole (cumulative + part) parts

lemma upTo_mono (amount whole : ℕ) {c c' : ℕ} (h : c ≤ c') :
    upTo amount whole c ≤ upTo amount whole c' :=
  Nat.div_le_div_right (Nat.mul_le_mul_right amount h)

/-- One more part is charged at most itself. -/
lemma upTo_add_le {amount whole : ℕ} (h : amount ≤ whole) (cumulative part : ℕ) :
    upTo amount whole (cumulative + part) ≤ upTo amount whole cumulative + part := by
  rcases Nat.eq_zero_or_pos whole with rfl | hpos
  · simp [upTo]
  have hle : (cumulative + part) * amount ≤ cumulative * amount + part * whole := by
    rw [Nat.add_mul]
    exact Nat.add_le_add_left (Nat.mul_le_mul_left part h) _
  calc upTo amount whole (cumulative + part)
      ≤ (cumulative * amount + part * whole) / whole := Nat.div_le_div_right hle
    _ = upTo amount whole cumulative + part := Nat.add_mul_div_right _ _ hpos

/-- Everything together is charged the amount. -/
lemma upTo_whole {amount whole : ℕ} (h : 0 < whole) : upTo amount whole whole = amount :=
  Nat.mul_div_cancel_left amount h

/-- **The shares add up** to what the parts are charged together. -/
lemma sum_shares (amount whole cumulative : ℕ) (parts : List ℕ) :
    upTo amount whole cumulative + (shares amount whole cumulative parts).sum
      = upTo amount whole (cumulative + parts.sum) := by
  induction parts generalizing cumulative with
  | nil => rfl
  | cons part parts ih =>
    have hmono := upTo_mono amount whole (Nat.le_add_right cumulative part)
    have hrest := ih (cumulative + part)
    rw [shares, List.sum_cons, List.sum_cons, ← Nat.add_assoc cumulative, ← hrest]
    omega

end Apportion
