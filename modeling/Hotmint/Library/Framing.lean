/-
Logs of framed items, and their torn tails:

* `Parsed`: what a parser makes of the front of a buffer: an item, the beginning of one, or
  neither;
* `Framing`: an encoding whose parser recognises every item and every proper beginning of
  one;
* `Framing.encodeAll`, `take_encodeAll`: every prefix of a log is a log and the beginning of
  an item;
* `scan`, `scan_log`: **a scan of such a prefix finds the last whole item**, and where the
  torn tail begins.
-/
import Mathlib.Data.List.Infix

variable {α β : Type*}

/-- What is at the front of a buffer. -/
inductive Parsed (α : Type*)
  | item (a : α) (consumed : ℕ)
  | truncated
  | invalid
deriving DecidableEq

/-- An encoding of the valid items, and a parser for it. -/
structure Framing (α β : Type*) where
  valid : α → Prop
  encode : α → List β
  parse : List β → Parsed α
  encode_ne_nil : ∀ a, valid a → encode a ≠ []
  parse_encode : ∀ a, valid a → ∀ rest, parse (encode a ++ rest) = .item a (encode a).length
  parse_torn : ∀ a, valid a → ∀ tail, tail ≠ [] → tail <+: encode a → tail ≠ encode a →
    parse tail = .truncated

/-- How a scan ends: at the end of the buffer, at the beginning of an item that is not
whole, or at something that is no item; with the last item seen, and the offset. -/
inductive Scanned (α : Type*)
  | complete (last : Option α)
  | torn (last : Option α) (offset : ℕ)
  | corrupt (offset : ℕ)
deriving DecidableEq

/-- Parse item after item, from an offset of the buffer.  Every item consumes something, so
a number of rounds as large as what is left of the buffer is enough. -/
def scan (parse : List β → Parsed α) (buf : List β) : ℕ → ℕ → Option α → Scanned α
  | 0, _, last => .complete last
  | rounds + 1, offset, last =>
    if offset < buf.length then
      match parse (buf.drop offset) with
      | .item a consumed => scan parse buf rounds (offset + consumed) (some a)
      | .truncated => .torn last offset
      | .invalid => .corrupt offset
    else .complete last

namespace Framing

open List
variable (F : Framing α β)

/-- A log. -/
def encodeAll (items : List α) : List β := items.flatMap F.encode

@[simp] lemma encodeAll_nil : F.encodeAll [] = [] := rfl

@[simp] lemma encodeAll_cons (a : α) (items : List α) :
    F.encodeAll (a :: items) = F.encode a ++ F.encodeAll items :=
  flatMap_cons

lemma encodeAll_append (items items' : List α) :
    F.encodeAll (items ++ items') = F.encodeAll items ++ F.encodeAll items' :=
  flatMap_append

/-- Nothing, or the beginning of a valid item. -/
def Torn (tail : List β) : Prop :=
  tail = [] ∨ ∃ a, F.valid a ∧ tail <+: F.encode a ∧ tail ≠ F.encode a

/-- **Every prefix of a log** is a log and a torn tail. -/
lemma take_encodeAll {items : List α} (h : ∀ a ∈ items, F.valid a) (n : ℕ) :
    ∃ front tail, front <+: items ∧ F.Torn tail
      ∧ (F.encodeAll items).take n = F.encodeAll front ++ tail := by
  induction items generalizing n with
  | nil => exact ⟨[], [], prefix_rfl, .inl rfl, take_nil⟩
  | cons a items ih =>
    obtain ⟨ha, hitems⟩ := forall_mem_cons.mp h
    rw [encodeAll_cons, take_append]
    by_cases hshort : n < (F.encode a).length
    · refine ⟨[], (F.encode a).take n, nil_prefix, .inr ⟨a, ha, take_prefix _ _, ?_⟩, ?_⟩
      · intro heq
        have hlength := congrArg length heq
        rw [length_take] at hlength
        omega
      · rw [Nat.sub_eq_zero_of_le (Nat.le_of_lt hshort), take_zero, append_nil]
        rfl
    · obtain ⟨front, tail, hfront, htail, heq⟩ := ih hitems (n - (F.encode a).length)
      refine ⟨a :: front, tail, (cons_prefix_cons).mpr ⟨rfl, hfront⟩, htail, ?_⟩
      rw [take_of_length_le (Nat.le_of_not_lt hshort), heq, encodeAll_cons, append_assoc]

/-- **The scan of a log with a torn tail.** -/
lemma scan_log {items : List α} (h : ∀ a ∈ items, F.valid a) {tail : List β} (htail : F.Torn tail)
    (done : List β) (last : Option α) {rounds : ℕ}
    (hrounds : (F.encodeAll items ++ tail).length ≤ rounds) :
    scan F.parse (done ++ (F.encodeAll items ++ tail)) rounds done.length last
      = if tail = [] then .complete (items.getLast?.or last)
        else .torn (items.getLast?.or last) (done.length + (F.encodeAll items).length) := by
  induction items generalizing done last rounds with
  | nil =>
    rw [encodeAll_nil, nil_append] at hrounds ⊢
    rw [getLast?_nil, Option.none_or, length_nil, Nat.add_zero]
    by_cases hnil : tail = []
    · rw [if_pos hnil, hnil, append_nil]
      cases rounds with
      | zero => rfl
      | succ rounds => rw [scan, if_neg (Nat.lt_irrefl _)]
    · obtain ⟨a, ha, hpre, hne⟩ := htail.resolve_left hnil
      have hpos := length_pos_of_ne_nil hnil
      obtain ⟨rounds, rfl⟩ := Nat.exists_eq_succ_of_ne_zero (show rounds ≠ 0 by omega)
      rw [if_neg hnil, scan, if_pos (by rw [length_append]; omega), drop_left,
        F.parse_torn a ha tail hnil hpre hne]
  | cons a items ih =>
    obtain ⟨ha, hitems⟩ := forall_mem_cons.mp h
    have hpos := length_pos_of_ne_nil (F.encode_ne_nil a ha)
    rw [encodeAll_cons, append_assoc] at hrounds ⊢
    rw [length_append] at hrounds
    obtain ⟨rounds, rfl⟩ := Nat.exists_eq_succ_of_ne_zero (show rounds ≠ 0 by omega)
    rw [scan, if_pos (by rw [length_append, length_append]; omega), drop_left, F.parse_encode a ha]
    -- what was parsed belongs to what is done
    have hleft : (F.encodeAll items ++ tail).length ≤ rounds := by omega
    have hrest := ih hitems (done ++ F.encode a) (some a) hleft
    rw [append_assoc, length_append] at hrest
    dsimp only
    rw [hrest, length_append, Nat.add_assoc]
    cases items with
    | nil => rfl
    | cons b items => rw [getLast?_cons_cons, getLast?_cons]; rfl

end Framing
