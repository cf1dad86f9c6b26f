/-
Weighted round robin.  Each entry of a list owns as many consecutive slots as its weight:

* `Slots.owner`: the search for the entry whose cumulative weight exceeds a slot;
* `owner_isSome`: **every slot below the total weight has an owner**;
* `count_owner`: **an entry owns as many slots as its weight**;
* `card_window`: so it does in every window of consecutive positions, when the positions
  are taken modulo the total weight.
-/
import Mathlib.Data.Nat.Periodic

namespace Slots

open List
variable {α : Type*} (w : α → ℕ)
variable {l : List α} {a : α}

/-- The first entry whose cumulative weight exceeds a slot, after entries of the given
cumulative weight. -/
def owner : List α → ℕ → ℕ → Option α
  | [], _, _ => none
  | a :: l, cumulative, slot =>
    if slot < cumulative + w a then some a else owner l (cumulative + w a) slot

lemma mem_of_owner {cumulative slot : ℕ} (h : owner w l cumulative slot = some a) : a ∈ l := by
  induction l generalizing cumulative with
  | nil => cases h
  | cons b l ih =>
    unfold owner at h
    split_ifs at h
    · exact Option.some.inj h ▸ .head _
    · exact .tail _ (ih h)

/-- Below the total weight every slot has an owner. -/
lemma owner_isSome {cumulative slot : ℕ} (h : slot < cumulative + (l.map w).sum) (hne : l ≠ []) :
    (owner w l cumulative slot).isSome = true := by
  induction l generalizing cumulative with
  | nil => exact (hne rfl).elim
  | cons a l ih =>
    unfold owner
    split_ifs with hlt
    · rfl
    · rw [map_cons, sum_cons, ← Nat.add_assoc] at h
      -- the slot is not in the first block, so there is another entry
      have hrest : l ≠ [] := by
        rintro rfl
        exact hlt h
      exact ih h hrest

/-- An owner has weight, as soon as the slot is past the cumulative weight. -/
lemma weight_pos_of_owner {cumulative slot : ℕ}
    (h : owner w l cumulative slot = some a) (hslot : cumulative ≤ slot) : 0 < w a := by
  induction l generalizing cumulative with
  | nil => cases h
  | cons b l ih =>
    unfold owner at h
    split_ifs at h with hlt
    · cases h
      omega
    · exact ih h (Nat.le_of_not_lt hlt)

variable [DecidableEq α]

/-- **An entry owns as many slots as its weight.** -/
theorem count_owner (hnodup : l.Nodup) (cumulative : ℕ) (ha : a ∈ l) :
    Nat.count (fun slot => owner w l cumulative (cumulative + slot) = some a) (l.map w).sum
      = w a := by
  induction l generalizing cumulative with
  | nil => cases ha
  | cons b l ih =>
    obtain ⟨hb, hl⟩ := nodup_cons.mp hnodup
    -- the slots of the first entry come first, and the others are searched in the rest
    have hfirst : ∀ slot < w b, owner w (b :: l) cumulative (cumulative + slot) = some b :=
      fun slot hslot => if_pos (Nat.add_lt_add_left hslot cumulative)
    have hrest : ∀ slot, owner w (b :: l) cumulative (cumulative + (w b + slot))
        = owner w l (cumulative + w b) (cumulative + w b + slot) := by
      intro slot
      rw [← Nat.add_assoc]
      exact if_neg (Nat.not_lt.mpr (Nat.le_add_right _ _))
    rw [map_cons, sum_cons, Nat.count_add]
    simp only [hrest]
    rcases mem_cons.mp ha with rfl | ha
    · have hall : Nat.count (fun slot => owner w (a :: l) cumulative (cumulative + slot) = some a)
          (w a) = w a := Nat.count_iff_forall.mpr hfirst
      have hnone : Nat.count (fun slot => owner w l (cumulative + w a) (cumulative + w a + slot)
          = some a) (l.map w).sum = 0 :=
        Nat.count_iff_forall_not.mpr fun _ _ h => hb (mem_of_owner w h)
      rw [hall, hnone, Nat.add_zero]
    · have hnone : Nat.count (fun slot => owner w (b :: l) cumulative (cumulative + slot)
          = some a) (w b) = 0 := by
        refine Nat.count_iff_forall_not.mpr fun slot hslot h => hb ?_
        rw [hfirst slot hslot] at h
        exact Option.some.inj h ▸ ha
      rw [hnone, ih hl _ ha, Nat.zero_add]

/-- **Every window of as many positions as the total weight** has, of each entry, as many
positions as its weight. -/
theorem card_window (hnodup : l.Nodup) (ha : a ∈ l) (start : ℕ) :
    ((Finset.Ico start (start + (l.map w).sum)).filter
      fun position => owner w l 0 (position % (l.map w).sum) = some a).card = w a := by
  have hperiodic : Function.Periodic
      (fun position => owner w l 0 (position % (l.map w).sum) = some a) (l.map w).sum := by
    intro position
    simp only [Nat.add_mod_right]
  rw [Nat.filter_Ico_card_eq_of_periodic _ _ _ hperiodic, ← count_owner w hnodup 0 ha,
    Nat.count_eq_card_filter_range, Nat.count_eq_card_filter_range]
  refine congrArg Finset.card (Finset.filter_congr fun slot hslot => ?_)
  rw [Nat.mod_eq_of_lt (Finset.mem_range.mp hslot), Nat.zero_add]

end Slots
