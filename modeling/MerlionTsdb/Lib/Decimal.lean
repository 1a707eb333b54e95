import Mathlib.Data.Nat.Digits.Defs

/-!
# Decimal names

Numbers printed with leading zeros, and names of a fixed number of digits read back.
-/

namespace MerlionTsdb.Decimal

/-- `n` in decimal, padded with zeros to at least `width` digits. -/
def padded (width n : Nat) : List Char :=
  let digits := Nat.toDigits 10 n
  List.replicate (width - digits.length) '0' ++ digits

/-- The number, when `name` is exactly `width` digits. -/
def parse (width : Nat) (name : List Char) : Option Nat :=
  if name.length = width ∧ name.all Char.isDigit then some (Nat.ofDigitChars 10 name 0) else none

theorem length_padded {width n : Nat} (hwidth : 0 < width) :
    (padded width n).length = width ↔ n < 10 ^ width := by
  rw [← Nat.length_toDigits_le_iff (by decide) hwidth]
  simp only [padded, List.length_append, List.length_replicate]
  omega

theorem all_isDigit_padded (width n : Nat) : (padded width n).all Char.isDigit = true := by
  rw [List.all_eq_true]
  intro c hc
  simp only [padded, List.mem_append, List.mem_replicate] at hc
  rcases hc with ⟨-, rfl⟩ | hc
  · decide
  · exact Nat.isDigit_of_mem_toDigits (by decide) (by decide) hc

/-- Zeros in front do not change the number. -/
theorem ofDigitChars_padded (width n : Nat) : Nat.ofDigitChars 10 (padded width n) 0 = n := by
  rw [padded, Nat.ofDigitChars_append, Nat.ofDigitChars_replicate_zero, Nat.mul_zero,
    Nat.ofDigitChars_ten_toDigits]

/-- Different numbers have different names, whatever their lengths. -/
theorem padded_injective (width : Nat) : Function.Injective (padded width) := by
  intro m n h
  rw [← ofDigitChars_padded width m, h, ofDigitChars_padded]

/-- A number that fits is read back; a longer one is no name of that width. -/
theorem parse_padded {width : Nat} (hwidth : 0 < width) (n : Nat) :
    parse width (padded width n) = if n < 10 ^ width then some n else none := by
  unfold parse
  by_cases hn : n < 10 ^ width
  · have hlen : (padded width n).length = width := (length_padded hwidth).mpr hn
    rw [if_pos ⟨hlen, all_isDigit_padded width n⟩, if_pos hn, ofDigitChars_padded]
  · rw [if_neg fun h ↦ hn ((length_padded hwidth).mp h.1), if_neg hn]

end MerlionTsdb.Decimal
