/-
Numbers with a fixed count of decimal places.

What is rounded is the exact value that the bits stand for, not a shorter decimal that
reads back to them; an exact tie goes to the even digit.
-/
import NumberedScore.Binary64.Value
import NumberedScore.Decimal.Layout

namespace NumberedScore.Decimal

open Binary64

/-- `10 ^ places` times the exact value, rounded to a whole number. -/
def scaledTo (places : Nat) (v : Value) : Nat :=
  roundDiv ((v.significand * Nat.pow 10 places) <<< v.exponent.toNat) (1 <<< (-v.exponent).toNat)

/-- A number with exactly this many places after the point. -/
def fixed (places : Nat) (x : Float) : List Char :=
  (special? x).getD
    (let v := Value.ofFloat x
     signed v.negative (pointed (scaledTo places v) places))

end NumberedScore.Decimal
