/-
Histories of two-phase votes, and why certified proposals do not fork.

A voter votes for an item first, on the strength of a certificate for the item's
parent, and a second time once the item itself is certified.  A history lists
these votes, newest first.  Voters that keep no rules do not appear: `Q` says
which sets of rule-keeping voters are completed to a quorum by the others.

* `Vote`, `Certified`, `Finalized`: votes and what quorums of them prove;
* `Valid`: histories in which every voter kept the rules;
* `Valid.certified_unique`: one certified item a view;
* `Valid.certified_parent`: a certified item rests on a certificate of an earlier view;
* `Valid.certified_descends`: **an item certified at or after the view in which
  another was finalized descends from it**.
-/
import Mathlib.Logic.Relation
import Mathlib.Data.Set.Basic
import Mathlib.Data.List.Basic

namespace VoteHistory

open List
variable {V X : Type*}
variable {i : V} {p x y : X} {pv v view w : ℕ}

/-- A vote of either phase. -/
inductive Vote (V X : Type*)
  /-- For `item` in `view`, on a certificate for its `parent` in `parentView`. -/
  | first (voter : V) (view : ℕ) (item : X) (parentView : ℕ) (parent : X)
  /-- For the certified `item` in `view`. -/
  | second (voter : V) (view : ℕ) (item : X)

/-- Who cast the vote. -/
def Vote.voter : Vote V X → V
  | .first voter _ _ _ _ => voter
  | .second voter _ _ => voter

variable (Q : Set V → Prop)

/-- A quorum voted for the item in the view. -/
def Certified (H : List (Vote V X)) (view : ℕ) (item : X) : Prop :=
  ∃ S, Q S ∧ ∀ i ∈ S, ∃ parentView parent, Vote.first i view item parentView parent ∈ H

/-- A quorum voted a second time. -/
def Finalized (H : List (Vote V X)) (view : ℕ) (item : X) : Prop :=
  ∃ S, Q S ∧ ∀ i ∈ S, Vote.second i view item ∈ H

/-- A history in which every voter kept the rules; `root` needs no certificate. -/
inductive Valid (root : X) : List (Vote V X) → Prop
  | nil : Valid root []
  /-- A first vote is the only one of its view, not below the voter's earlier
  votes, on a certificate as high as every second vote of the voter. -/
  | first {H : List (Vote V X)} {i : V} {view : ℕ} {item : X} {parentView : ℕ} {parent : X}
      (h : Valid root H)
      (hone : ∀ v x pv p, Vote.first i v x pv p ∈ H → v < view ∨ (v = view ∧ x = item))
      (hlock : ∀ v x, Vote.second i v x ∈ H → v ≤ parentView)
      (hparent : parentView = 0 ∧ parent = root ∨ Certified Q H parentView parent) :
      Valid root (Vote.first i view item parentView parent :: H)
  /-- A second vote is for a certified item, not below the voter's first votes. -/
  | second {H : List (Vote V X)} {i : V} {view : ℕ} {item : X} (h : Valid root H)
      (hview : ∀ v x pv p, Vote.first i v x pv p ∈ H → v ≤ view) (hpos : 0 < view)
      (hitem : Certified Q H view item) : Valid root (Vote.second i view item :: H)

/-- The parent named in some vote for the item. -/
def Link (H : List (Vote V X)) (item parent : X) : Prop :=
  ∃ i view parentView, Vote.first i view item parentView parent ∈ H

/-- The item is the other one or descends from it. -/
def Descends (H : List (Vote V X)) : X → X → Prop := Relation.ReflTransGen (Link H)

variable {Q} {root : X} {H H' H₁ : List (Vote V X)}

lemma Certified.mono (hsub : H ⊆ H') {item : X} (h : Certified Q H view item) :
    Certified Q H' view item := by
  obtain ⟨S, hS, hvotes⟩ := h
  refine ⟨S, hS, fun i hi => ?_⟩
  obtain ⟨pv, p, hmem⟩ := hvotes i hi
  exact ⟨pv, p, hsub hmem⟩

/-- The last element of a list with a property, in a list of what came newest first. -/
lemma exists_earliest {α : Type*} {P : α → Prop} {l : List α} (h : ∃ x ∈ l, P x) :
    ∃ x l', x :: l' <:+ l ∧ P x ∧ ∀ y ∈ l', ¬ P y := by
  induction l with
  | nil =>
    obtain ⟨_, hmem, -⟩ := h
    cases hmem
  | cons a l ih =>
    by_cases htail : ∃ x ∈ l, P x
    · obtain ⟨x, l', hsuf, hx, hnone⟩ := ih htail
      exact ⟨x, l', hsuf.trans (suffix_cons a l), hx, hnone⟩
    · obtain ⟨x, hmem, hx⟩ := h
      rcases mem_cons.mp hmem with rfl | hmem
      · exact ⟨x, l, suffix_rfl, hx, fun y hy hPy => htail ⟨y, hy, hPy⟩⟩
      · exact absurd ⟨x, hmem, hx⟩ htail

namespace Valid

/-- What a voter did before a vote was itself a valid history. -/
lemma suffix (h : Valid Q root H) (hsuf : H' <:+ H) : Valid Q root H' := by
  induction h with
  | nil => exact suffix_nil.mp hsuf ▸ .nil
  | first h hone hlock hparent ih =>
    rcases suffix_cons_iff.mp hsuf with rfl | hsuf
    · exact .first h hone hlock hparent
    · exact ih hsuf
  | second h hview hpos hitem ih =>
    rcases suffix_cons_iff.mp hsuf with rfl | hsuf
    · exact .second h hview hpos hitem
    · exact ih hsuf

/-- The history up to one of its votes. -/
lemma before {vote : Vote V X} (h : Valid Q root H) (hmem : vote ∈ H) :
    ∃ H', vote :: H' <:+ H ∧ Valid Q root (vote :: H') := by
  obtain ⟨l, H', rfl⟩ := append_of_mem hmem
  have hsuf : vote :: H' <:+ l ++ vote :: H' := suffix_append l _
  exact ⟨H', hsuf, h.suffix hsuf⟩

/-- A voter votes once in a view. -/
lemma first_unique (h : Valid Q root H) {pw : ℕ} {q : X}
    (hx : Vote.first i view x pv p ∈ H) (hy : Vote.first i view y pw q ∈ H) : x = y := by
  induction h with
  | nil => cases hx
  | first h hone _ _ ih =>
    rcases mem_cons.mp hx with heq | hx' <;> rcases mem_cons.mp hy with heq' | hy'
    · cases heq
      cases heq'
      rfl
    · cases heq
      rcases hone _ _ _ _ hy' with hlt | ⟨-, rfl⟩
      · exact absurd hlt (lt_irrefl _)
      · rfl
    · cases heq'
      rcases hone _ _ _ _ hx' with hlt | ⟨-, rfl⟩
      · exact absurd hlt (lt_irrefl _)
      · rfl
    · exact ih hx' hy'
  | second h _ _ _ ih =>
    rcases mem_cons.mp hx with heq | hx'
    · cases heq
    rcases mem_cons.mp hy with heq | hy'
    · cases heq
    exact ih hx' hy'

/-- A second vote in an earlier view was cast before a first vote in a later
one, so that vote's certificate is at least as high. -/
lemma le_parentView (h : Valid Q root H) (hsecond : Vote.second i v x ∈ H)
    (hsuf : Vote.first i w y pv p :: H₁ <:+ H) (hlt : v < w) : v ≤ pv := by
  have hfirst := h.suffix hsuf
  cases hfirst with
  | first _ _ hlock _ =>
    by_cases hmem : Vote.second i v x ∈ H₁
    · exact hlock v x hmem
    · -- otherwise the second vote came later, in a view below an earlier first vote
      obtain ⟨l, rfl⟩ := hsuf
      have hl : Vote.second i v x ∈ l := by
        rcases mem_append.mp hsecond with hl | hr
        · exact hl
        · rcases mem_cons.mp hr with heq | hr
          · cases heq
          · exact absurd hr hmem
      obtain ⟨l₁, l₂, rfl⟩ := append_of_mem hl
      have hlater := h.suffix (show Vote.second i v x :: (l₂ ++ Vote.first i w y pv p :: H₁)
        <:+ _ from ⟨l₁, by simp⟩)
      cases hlater with
      | second _ hview _ _ =>
        exact absurd (hview w y pv p (by simp)) (not_le.mpr hlt)

/-- The votes of a voter before one of its first votes are below it. -/
lemma le_of_before (h : Valid Q root H) (hmem : Vote.first i w y pv p ∈ H) (hsuf : H₁ <:+ H)
    (hlater : Vote.first i w y pv p ∉ H₁) {qv : ℕ} {q : X}
    (hearlier : Vote.first i v x qv q ∈ H₁) : v < w ∨ (v = w ∧ x = y) := by
  obtain ⟨l, rfl⟩ := hsuf
  have hl := (mem_append.mp hmem).resolve_right hlater
  obtain ⟨l₁, l₂, rfl⟩ := append_of_mem hl
  have hvote := h.suffix (show Vote.first i w y pv p :: (l₂ ++ H₁) <:+ _ from ⟨l₁, by simp⟩)
  cases hvote with
  | first _ hone _ _ => exact hone v x qv q (mem_append_right _ hearlier)

/-- A second vote is for what is certified in its view. -/
lemma certified_of_second (h : Valid Q root H) (hx : Vote.second i view x ∈ H) :
    Certified Q H view x := by
  obtain ⟨H', hsuf, hvalid⟩ := h.before hx
  cases hvalid with
  | second _ _ _ hitem => exact hitem.mono ((suffix_cons _ _).trans hsuf).subset

section Intersection

variable (hQ : ∀ S T, Q S → Q T → ∃ i, i ∈ S ∧ i ∈ T)
include hQ

/-- **One certified item a view.** -/
lemma certified_unique (h : Valid Q root H) (hx : Certified Q H view x)
    (hy : Certified Q H view y) : x = y := by
  obtain ⟨S, hS, hvx⟩ := hx
  obtain ⟨T, hT, hvy⟩ := hy
  obtain ⟨i, hi, hi'⟩ := hQ S T hS hT
  obtain ⟨_, _, hmx⟩ := hvx i hi
  obtain ⟨_, _, hmy⟩ := hvy i hi'
  exact h.first_unique hmx hmy

/-- A finalized item is certified, in a positive view. -/
lemma certified_of_finalized (h : Valid Q root H)
    (hx : Finalized Q H view x) : 0 < view ∧ Certified Q H view x := by
  obtain ⟨S, hS, hvotes⟩ := hx
  obtain ⟨i, hi, -⟩ := hQ S S hS hS
  obtain ⟨H', hsuf, hvalid⟩ := h.before (hvotes i hi)
  cases hvalid with
  | second _ _ hpos hitem =>
    exact ⟨hpos, hitem.mono ((suffix_cons _ _).trans hsuf).subset⟩

/-- An item that is its own only parent never gets a vote: its first vote would
rest on an earlier one. -/
lemma not_first_of_self_parent (h : Valid Q root H) {item : X} (hne : item ≠ root)
    (hself : ∀ p, Link H item p → p = item) : Vote.first i v item pv p ∉ H := by
  induction h generalizing i v pv p with
  | nil => exact not_mem_nil
  | @first H j w y qv q h hone hlock hparent ih =>
    have ih' : ∀ {i : V} {v pv : ℕ} {p : X}, Vote.first i v item pv p ∉ H :=
      ih fun p ⟨i, v, pv, hmem⟩ => hself p ⟨i, v, pv, .tail _ hmem⟩
    intro hmem
    rcases mem_cons.mp hmem with heq | hmem'
    · cases heq
      obtain rfl : q = item := hself q ⟨j, w, qv, .head _⟩
      rcases hparent with ⟨-, rfl⟩ | ⟨S, hS, hvotes⟩
      · exact hne rfl
      · obtain ⟨k, hk, -⟩ := hQ S S hS hS
        obtain ⟨_, _, hfirst⟩ := hvotes k hk
        exact ih' hfirst
    · exact ih' hmem'
  | @second H j w y h hview hpos hitem ih =>
    intro hmem
    rcases mem_cons.mp hmem with heq | hmem'
    · cases heq
    · exact ih (fun p ⟨i, v, pv, hm⟩ => hself p ⟨i, v, pv, .tail _ hm⟩) hmem'

/-- **A certified item rests on an earlier certificate**: some vote for it names the
root, or a parent that was certified in an earlier view.  That vote is the first one
for the item, so a voter for both the item and its parent voted for the parent
before. -/
lemma certified_parent (h : Valid Q root H) (hy : Certified Q H w y) :
    ∃ i pv p, Vote.first i w y pv p ∈ H ∧ ((pv = 0 ∧ p = root)
      ∨ (Certified Q H pv p ∧ (pv < w ∨ (pv = w ∧ p = y)))) := by
  obtain ⟨S, hS, hvotes⟩ := hy
  have hsome : ∃ vote ∈ H, ∃ i pv p, vote = Vote.first i w y pv p := by
    obtain ⟨i, hi, -⟩ := hQ S S hS hS
    obtain ⟨pv, p, hmem⟩ := hvotes i hi
    exact ⟨_, hmem, i, pv, p, rfl⟩
  obtain ⟨_, H₁, hsuf, ⟨i, pv, p, rfl⟩, hnone⟩ := exists_earliest hsome
  have hsuf₁ : H₁ <:+ H := (suffix_cons _ _).trans hsuf
  refine ⟨i, pv, p, hsuf.subset mem_cons_self, ?_⟩
  cases h.suffix hsuf with
  | first _ _ _ hparent =>
    refine hparent.imp id fun hcert => ⟨hcert.mono hsuf₁.subset, ?_⟩
    obtain ⟨T, hT, hbefore⟩ := hcert
    obtain ⟨j, hj, hj'⟩ := hQ S T hS hT
    obtain ⟨rv, r, hmem⟩ := hvotes j hj
    obtain ⟨qv, q, hearlier⟩ := hbefore j hj'
    exact h.le_of_before hmem hsuf₁ (fun hm => hnone _ hm ⟨j, rv, r, rfl⟩) hearlier

/-- **Certified items do not fork**: an item certified in or after the view in
which `x` was finalized descends from `x`.  The induction is on the history
before the certificate, since a certificate may rest on one of a higher view. -/
theorem certified_descends (h : Valid Q root H) (hx : Finalized Q H v x) (hsuf : H₁ <:+ H)
    (hy : Certified Q H₁ w y)
    (hvw : v ≤ w) : Descends H y x := by
  obtain ⟨hpos, hcx⟩ := h.certified_of_finalized hQ hx
  induction hn : H₁.length using Nat.strong_induction_on generalizing H₁ w y with
  | _ n ih =>
    subst hn
    rcases hvw.eq_or_lt with rfl | hlt
    · -- in the same view there is only one certified item
      rw [h.certified_unique hQ (hy.mono hsuf.subset) hcx]
      exact .refl
    · obtain ⟨S, hS, hfirst⟩ := hy
      obtain ⟨T, hT, hsecond⟩ := hx
      obtain ⟨i, hi, hi'⟩ := hQ S T hS hT
      obtain ⟨pv, p, hmem⟩ := hfirst i hi
      obtain ⟨H₂, hsuf₂, hvalid₂⟩ := (h.suffix hsuf).before hmem
      have hle : v ≤ pv := h.le_parentView (hsecond i hi') (hsuf₂.trans hsuf) hlt
      cases hvalid₂ with
      | first _ _ _ hparent =>
        have hcert : Certified Q H₂ pv p := by
          rcases hparent with ⟨rfl, -⟩ | hcert
          · exact absurd hle (not_le.mpr hpos)
          · exact hcert
        have hshort : H₂.length < H₁.length :=
          lt_of_lt_of_le (Nat.lt_succ_self _) hsuf₂.length_le
        have hdesc := ih H₂.length hshort (((suffix_cons _ _).trans hsuf₂).trans hsuf) hcert hle rfl
        exact .head ⟨i, w, pv, hsuf.subset hmem⟩ hdesc

end Intersection

end Valid

end VoteHistory
