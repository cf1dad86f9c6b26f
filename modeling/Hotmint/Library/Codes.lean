/-
Self-delimiting codes.  An encoding is readable when a text that starts with an encoded value
determines the value and the rest of the text:

* `Codes.Readable`, `Readable.injOn`: the property, and that it makes the encoding injective;
* `readable_of_length`: encodings of one length;
* `leBytes`, `readable_leBytes`: numbers of a fixed width, least significant byte first, and
  `ofLeBytes`, which reads them;
* `prefixed`, `readable_prefixed`: byte strings behind their length;
* `optional`, `readable_optional`: a value behind a marker byte, or its absence;
* `counted`, `readable_counted`: a list behind its length;
* `Recovers`: a checked conversion that undoes another one, also element by element.
-/
import Mathlib.Algebra.Order.Ring.Nat
import Mathlib.Data.List.Basic

namespace Codes

open List
variable {α β : Type*}
variable {P : α → Prop}

/-- A text that starts with the encoding of a value determines the value and the rest. -/
def Readable (P : α → Prop) (enc : α → List β) : Prop :=
  ∀ ⦃a b⦄, P a → P b → ∀ ⦃s t⦄, enc a ++ s = enc b ++ t → a = b ∧ s = t

lemma Readable.injOn {enc : α → List β} (h : Readable P enc) {a b : α} (ha : P a)
    (hb : P b) (heq : enc a = enc b) : a = b :=
  (h ha hb (s := []) (t := []) (by rw [heq])).1

/-- Encodings of one length are readable as soon as they are injective. -/
lemma readable_of_length {enc : α → List β} {n : ℕ} (hlength : ∀ a, (enc a).length = n)
    (hinj : ∀ ⦃a b⦄, P a → P b → enc a = enc b → a = b) : Readable P enc := by
  intro a b ha hb s t h
  obtain ⟨henc, hrest⟩ := append_inj h ((hlength a).trans (hlength b).symm)
  exact ⟨hinj ha hb henc, hrest⟩

/-! ### Numbers -/

/-- The lowest `width` bytes of a number, least significant first. -/
def leBytes : ℕ → ℕ → List UInt8
  | 0, _ => []
  | width + 1, n => UInt8.ofNat n :: leBytes width (n / 256)

@[simp] lemma length_leBytes (width n : ℕ) : (leBytes width n).length = width := by
  induction width generalizing n with
  | zero => rfl
  | succ width ih => rw [leBytes, length_cons, ih]

/-- Numbers below the width are determined by their bytes. -/
lemma leBytes_inj {width m n : ℕ} (hm : m < 256 ^ width) (hn : n < 256 ^ width)
    (h : leBytes width m = leBytes width n) : m = n := by
  induction width generalizing m n with
  | zero => omega
  | succ width ih =>
    obtain ⟨hlow, hhigh⟩ := cons.inj h
    have hlow : m % 256 = n % 256 := by simpa using congrArg UInt8.toNat hlow
    have hhigh : m / 256 = n / 256 := by
      rw [Nat.pow_succ] at hm hn
      exact ih (Nat.div_lt_of_lt_mul (by omega)) (Nat.div_lt_of_lt_mul (by omega)) hhigh
    omega

/-- The number that bytes stand for, least significant first. -/
def ofLeBytes (bytes : List UInt8) : ℕ := bytes.foldr (fun b n => b.toNat + 256 * n) 0

lemma ofLeBytes_leBytes (width n : ℕ) : ofLeBytes (leBytes width n) = n % 256 ^ width := by
  induction width generalizing n with
  | zero => rw [Nat.pow_zero, Nat.mod_one]; rfl
  | succ width ih =>
    have hlow : (UInt8.ofNat n).toNat = n % 256 := UInt8.toNat_ofNat'
    rw [leBytes, ofLeBytes, foldr_cons, ← ofLeBytes, ih, hlow, Nat.pow_succ,
      Nat.mul_comm (256 ^ width), Nat.mod_mul]

lemma ofLeBytes_lt (bytes : List UInt8) : ofLeBytes bytes < 256 ^ bytes.length := by
  induction bytes with
  | nil => exact Nat.one_pos
  | cons b bytes ih =>
    have hb : b.toNat < 256 := b.toNat_lt
    rw [ofLeBytes, foldr_cons, ← ofLeBytes, length_cons, Nat.pow_succ]
    omega

/-- Bytes come back from the number they stand for. -/
lemma leBytes_ofLeBytes (bytes : List UInt8) : leBytes bytes.length (ofLeBytes bytes) = bytes := by
  induction bytes with
  | nil => rfl
  | cons b bytes ih =>
    have hb : b.toNat < 256 := b.toNat_lt
    have hlow : UInt8.ofNat (b.toNat + 256 * ofLeBytes bytes) = b := by
      apply UInt8.toNat_inj.mp
      rw [UInt8.toNat_ofNat', Nat.add_mul_mod_self_left, Nat.mod_eq_of_lt hb]
    have hhigh : (b.toNat + 256 * ofLeBytes bytes) / 256 = ofLeBytes bytes := by omega
    rw [ofLeBytes, foldr_cons, ← ofLeBytes, length_cons, leBytes, hlow, hhigh, ih]

lemma readable_leBytes (width : ℕ) : Readable (· < 256 ^ width) (leBytes width) :=
  readable_of_length (length_leBytes width) fun _ _ hm hn => leBytes_inj hm hn

/-! ### Byte strings, options and lists -/

/-- A byte string behind its length in eight bytes. -/
def prefixed (bytes : List UInt8) : List UInt8 := leBytes 8 bytes.length ++ bytes

lemma readable_prefixed : Readable (·.length < 256 ^ 8) prefixed := by
  intro a b ha hb s t h
  simp only [prefixed, append_assoc] at h
  obtain ⟨hlength, h⟩ := readable_leBytes 8 ha hb h
  exact append_inj h hlength

/-- A value behind the marker `1`, or the marker `0` alone. -/
def optional (enc : α → List UInt8) : Option α → List UInt8
  | none => [0]
  | some a => 1 :: enc a

lemma readable_optional {enc : α → List UInt8} (henc : Readable P enc) :
    Readable (fun o => ∀ a ∈ o, P a) (optional enc) := by
  intro o o' ho ho' s t h
  cases o with
  | none =>
    cases o' with
    | none => exact ⟨rfl, cons_inj_right 0 |>.mp h⟩
    | some b => exact absurd (cons.inj h).1 (by decide)
  | some a =>
    cases o' with
    | none => exact absurd (cons.inj h).1 (by decide)
    | some b =>
      obtain ⟨rfl, hrest⟩ := henc (ho a rfl) (ho' b rfl) (cons.inj h).2
      exact ⟨rfl, hrest⟩

/-- Lists of one length are read entry by entry. -/
lemma readable_flatMap {enc : α → List β} (henc : Readable P enc) {as bs : List α}
    (has : ∀ a ∈ as, P a) (hbs : ∀ b ∈ bs, P b) (hlength : as.length = bs.length) {s t : List β}
    (h : as.flatMap enc ++ s = bs.flatMap enc ++ t) : as = bs ∧ s = t := by
  induction as generalizing bs with
  | nil =>
    obtain rfl := length_eq_zero_iff.mp hlength.symm
    exact ⟨rfl, h⟩
  | cons a as ih =>
    cases bs with
    | nil => cases hlength
    | cons b bs =>
      simp only [flatMap_cons, append_assoc] at h
      obtain ⟨ha, has⟩ := forall_mem_cons.mp has
      obtain ⟨hb, hbs⟩ := forall_mem_cons.mp hbs
      obtain ⟨hhead, h⟩ := henc ha hb h
      obtain ⟨htail, hrest⟩ := ih has hbs (Nat.add_right_cancel hlength) h
      exact ⟨by rw [hhead, htail], hrest⟩

/-- The entries of a list behind their number in eight bytes. -/
def counted (enc : α → List UInt8) (as : List α) : List UInt8 :=
  leBytes 8 as.length ++ as.flatMap enc

lemma readable_counted {enc : α → List UInt8} (henc : Readable P enc) :
    Readable (fun as => as.length < 256 ^ 8 ∧ ∀ a ∈ as, P a) (counted enc) := by
  intro as bs has hbs s t h
  simp only [counted, append_assoc] at h
  obtain ⟨hlength, h⟩ := readable_leBytes 8 has.1 hbs.1 h
  exact readable_flatMap henc has.2 hbs.2 hlength h

/-! ### Checked conversions -/

/-- The checked conversion gives back what was converted. -/
def Recovers {ε : Type*} (P : α → Prop) (conv : α → β) (back : β → Except ε α) : Prop :=
  ∀ a, P a → back (conv a) = .ok a

/-- Lists are converted element by element. -/
lemma Recovers.list {ε : Type*} {conv : α → β} {back : β → Except ε α}
    (h : Recovers P conv back) : Recovers (∀ a ∈ ·, P a) (map conv) (mapM back) := by
  intro as has
  induction as with
  | nil => rfl
  | cons a as ih =>
    rw [map_cons, mapM_cons, h a (has a mem_cons_self), ih fun b hb => has b (.tail _ hb)]
    rfl

end Codes
