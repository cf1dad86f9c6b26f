/-
Sets of two generations, for remembering what was seen lately in bounded space: new elements go to
the active set, and when it exceeds a limit it becomes the backup set and the old backup is dropped.

* `Generations.record`: one more element;
* `recordAll_cut`: the two sets are what was recorded since two rotations;
* `lt_card_of_forgotten`: **an element is forgotten only after more than `limit` others**;
* `card_recordAll_le`: the sets stay small.
-/
import Mathlib.Data.Finset.Card

/-- An active set and a backup set. -/
structure Generations (α : Type*) where
  active : Finset α
  backup : Finset α

namespace Generations

open List
variable {α : Type*} [DecidableEq α]

/-- Nothing seen. -/
def empty : Generations α := ⟨∅, ∅⟩

/-- The element is in one of the sets. -/
def Contains (g : Generations α) (a : α) : Prop := a ∈ g.active ∨ a ∈ g.backup

instance (g : Generations α) (a : α) : Decidable (g.Contains a) :=
  inferInstanceAs (Decidable (_ ∨ _))

/-- An element added to the active set. -/
def insert (g : Generations α) (a : α) : Generations α :=
  { g with active := Insert.insert a g.active }

/-- The active set becomes the backup when it exceeds the limit. -/
def rotate (limit : ℕ) (g : Generations α) : Generations α :=
  if limit < g.active.card then ⟨∅, g.active⟩ else g

/-- An element added, and the sets rotated if need be. -/
def record (limit : ℕ) (g : Generations α) (a : α) : Generations α := (g.insert a).rotate limit

/-- Elements recorded one after another. -/
def recordAll (limit : ℕ) (l : List α) : Generations α := l.foldl (record limit) empty

/-- What was recorded, cut where the sets were rotated: the newest elements are the active set,
  those
before them the backup set, which is full if there is anything older. -/
structure Cut (limit : ℕ) (older middle newer : List α) (g : Generations α) : Prop where
  active : g.active = newer.toFinset
  backup : g.backup = middle.toFinset
  active_le : g.active.card ≤ limit
  backup_le : g.backup.card ≤ limit + 1
  full : older ≠ [] → limit < g.backup.card

lemma Cut.record {limit : ℕ} {older middle newer : List α} {g : Generations α}
    (h : Cut limit older middle newer g) (a : α) :
    Cut limit older middle (newer ++ [a]) (g.record limit a)
      ∨ Cut limit (older ++ middle) (newer ++ [a]) [] (g.record limit a) := by
  have hactive : Insert.insert a g.active = (newer ++ [a]).toFinset := by
    rw [h.active, toFinset_append, toFinset_cons, toFinset_nil, Finset.union_comm]
    rfl
  have hcard : (Insert.insert a g.active).card ≤ limit + 1 :=
    (Finset.card_insert_le a g.active).trans (Nat.add_le_add_right h.active_le 1)
  unfold Generations.record rotate insert
  dsimp only
  split_ifs with hfull
  · exact .inr ⟨rfl, hactive, Nat.zero_le _, hcard, fun _ => hfull⟩
  · exact .inl ⟨hactive, h.backup, Nat.le_of_not_lt hfull, h.backup_le, h.full⟩

/-- **The sets are what was recorded since two rotations.** -/
lemma recordAll_cut (limit : ℕ) (l : List α) : ∃ older middle newer, l = older ++ middle ++ newer
      ∧ Cut limit older middle newer (recordAll limit l) := by
  induction l using reverseRecOn with
  | nil => exact ⟨[], [], [], rfl, rfl, rfl, Nat.zero_le _, Nat.zero_le _, fun h => absurd rfl h⟩
  | append_singleton l a ih =>
    obtain ⟨older, middle, newer, hl, hcut⟩ := ih
    unfold recordAll
    rw [foldl_append]
    rcases hcut.record a with hcut | hcut
    · exact ⟨older, middle, newer ++ [a], by rw [hl, append_assoc], hcut⟩
    · exact ⟨older ++ middle, newer ++ [a], [], by rw [hl]; simp, hcut⟩

/-- **An element is forgotten only after more than `limit` others were recorded.** -/
lemma lt_card_of_forgotten {limit : ℕ} {l l' : List α} {a : α}
    (hforgotten : ¬ (recordAll limit (l ++ a :: l')).Contains a) :
    limit < (l'.toFinset.erase a).card := by
  obtain ⟨older, middle, newer, hl, hcut⟩ := recordAll_cut limit (l ++ a :: l')
  have hkept : a ∉ middle ++ newer := by
    intro hmem
    rcases mem_append.mp hmem with hmem | hmem
    · exact hforgotten (.inr (by rw [hcut.backup]; exact mem_toFinset.mpr hmem))
    · exact hforgotten (.inl (by rw [hcut.active]; exact mem_toFinset.mpr hmem))
  -- the element is in front of the backup set
  obtain ⟨rest, holder, hl'⟩ : ∃ rest, older = l ++ a :: rest ∧ l' = rest ++ (middle ++ newer) := by
    rw [append_assoc] at hl
    rcases append_eq_append_iff.mp hl with ⟨rest, holder, hrest⟩ | ⟨rest, -, hrest⟩
    · cases rest with
      | nil =>
        rw [nil_append] at hrest
        exact absurd (hrest ▸ .head _) hkept
      | cons b rest =>
        obtain ⟨rfl, hl'⟩ := cons.inj hrest
        exact ⟨rest, holder, hl'⟩
    · exact absurd (hrest ▸ mem_append_right rest mem_cons_self) hkept
  have hfull := hcut.full (by simp [holder])
  refine hfull.trans_le (Finset.card_le_card fun x hx => ?_)
  rw [hcut.backup, mem_toFinset] at hx
  refine Finset.mem_erase.mpr ⟨fun heq => hkept (heq ▸ mem_append_left _ hx), ?_⟩
  rw [hl', mem_toFinset]
  exact mem_append_right _ (mem_append_left _ hx)

/-- The sets stay small. -/
lemma card_recordAll_le (limit : ℕ) (l : List α) :
    (recordAll limit l).active.card ≤ limit ∧ (recordAll limit l).backup.card ≤ limit + 1 := by
  obtain ⟨_, _, _, _, hcut⟩ := recordAll_cut limit l
  exact ⟨hcut.active_le, hcut.backup_le⟩

end Generations
