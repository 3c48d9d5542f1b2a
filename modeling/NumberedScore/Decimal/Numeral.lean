/-
Whole numbers as runs of decimal digits.

A numeral is written without leading zeros and read with or without them, so reading
undoes writing (`natural?_numeral`) and is the more lenient of the two.  Only the ASCII
digits count.  `word?` reads the numbers that a score may hold: it refuses anything that
does not fit 32 bits instead of cutting it down.
-/

namespace NumberedScore.Decimal

/-- The digits of a number, with no leading zero. -/
def numeral (n : Nat) : List Char := Nat.toDigits 10 n

/-- The number a non-empty run of ASCII digits stands for. -/
def natural? (t : List Char) : Option Nat :=
  if t ≠ [] ∧ t.all Char.isDigit then some (Nat.ofDigitChars 10 t 0) else none

/-- The number a run of digits stands for, if it fits 32 bits. -/
def word? (t : List Char) : Option UInt32 :=
  (natural? t).bind fun n => if n < UInt32.size then some (UInt32.ofNat n) else none

/-- A numeral is never empty. -/
theorem numeral_ne_nil (n : Nat) : numeral n ≠ [] := Nat.toDigits_ne_nil

/-- A numeral holds digits only. -/
theorem all_isDigit_numeral (n : Nat) : (numeral n).all Char.isDigit = true :=
  List.all_eq_true.2 fun _ hc => Nat.isDigit_of_mem_toDigits (by decide) (by decide) hc

/-- Reading a written number gives it back. -/
theorem natural?_numeral (n : Nat) : natural? (numeral n) = some n := by
  rw [natural?, if_pos ⟨numeral_ne_nil n, all_isDigit_numeral n⟩, numeral,
    Nat.ofDigitChars_toDigits (by decide) (by decide)]

/-- Reading a written 32-bit number gives it back. -/
theorem word?_numeral (n : UInt32) : word? (numeral n.toNat) = some n := by
  have hlt := n.toNat_lt_size
  simp [word?, natural?_numeral, hlt]

end NumberedScore.Decimal
