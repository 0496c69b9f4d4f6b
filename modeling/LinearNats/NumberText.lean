import Mathlib

/-! Decimal texts of natural numbers. -/
namespace LinearNats.NumberText
open List

def natural (text : List Char) : Option ℕ :=
  if text ≠ [] ∧ text.all Char.isDigit then some (Nat.ofDigitChars 10 text 0) else none

def splitSign : List Char → Bool × List Char
  | '+' :: text => (false, text)
  | '-' :: text => (true, text)
  | text => (false, text)

theorem toNat_of_isDigit {c : Char} (digit : c.isDigit = true) :
    48 ≤ c.toNat ∧ c.toNat ≤ 57 := by
  rw [Char.isDigit, Bool.and_eq_true, decide_eq_true_eq, decide_eq_true_eq, ge_iff_le,
    UInt32.le_iff_toNat_le, UInt32.le_iff_toNat_le] at digit
  exact digit

theorem all_digits (n : ℕ) : (Nat.toDigits 10 n).all Char.isDigit = true := by
  rw [all_eq_true]
  intro c member
  exact Nat.isDigit_of_mem_toDigits (by decide) (by decide) member

theorem natural_toDigits (n : ℕ) : natural (Nat.toDigits 10 n) = some n := by
  rw [natural, if_pos ⟨Nat.toDigits_ne_nil, all_digits n⟩,
    Nat.ofDigitChars_toDigits (by decide) (by decide)]

theorem toDigits_cons (n : ℕ) :
    ∃ c rest, Nat.toDigits 10 n = c :: rest ∧ c.isDigit = true := by
  obtain ⟨c, rest, text⟩ := exists_cons_of_ne_nil (Nat.toDigits_ne_nil (n := n) (b := 10))
  refine ⟨c, rest, text, all_eq_true.mp (all_digits n) c ?_⟩
  rw [text]
  exact mem_cons_self

theorem splitSign_digits (n : ℕ) :
    splitSign (Nat.toDigits 10 n) = (false, Nat.toDigits 10 n) := by
  obtain ⟨c, rest, text, digit⟩ := toDigits_cons n
  rw [text, splitSign.eq_def]
  split
  next same =>
    obtain ⟨rfl, -⟩ := List.cons.inj same
    exact absurd digit (by decide)
  next same =>
    obtain ⟨rfl, -⟩ := List.cons.inj same
    exact absurd digit (by decide)
  · rfl

end LinearNats.NumberText
