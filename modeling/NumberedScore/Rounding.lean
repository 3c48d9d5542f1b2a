/-
Rounding an exact quotient to a whole number.

Every number this library writes or stores with limited precision is first an exact
quotient of naturals: a decimal with four places, a significand of 53 bits.  All of
them are rounded by the one function here, so there is one place where a tie is
decided.
-/

namespace NumberedScore

/-- The whole number nearest to `num / den`; a quotient halfway between two goes to the even one. -/
def roundDiv (num den : Nat) : Nat :=
  let low := num / den
  let twice := 2 * (num % den)
  if twice < den then low
  else if den < twice then low + 1
  else if low % 2 = 0 then low
  else low + 1

/-- The rounded quotient is within half a unit of the exact one. -/
theorem roundDiv_within_half (num : Nat) {den : Nat} (h : 0 < den) :
    2 * (roundDiv num den * den) ≤ 2 * num + den ∧
      2 * num ≤ 2 * (roundDiv num den * den) + den := by
  have hsplit := Nat.div_add_mod num den
  have hlt := Nat.mod_lt num h
  have hcomm : num / den * den = den * (num / den) := Nat.mul_comm ..
  have hsucc : (num / den + 1) * den = den * (num / den) + den := by
    rw [Nat.add_mul, Nat.one_mul, hcomm]
  unfold roundDiv
  simp only
  split
  · omega
  · split
    · omega
    · split <;> omega

/-- A quotient that is exact already is not changed. -/
theorem roundDiv_mul_right (n : Nat) {den : Nat} (h : 0 < den) : roundDiv (n * den) den = n := by
  simp [roundDiv, Nat.mul_div_cancel n h, h]

end NumberedScore
