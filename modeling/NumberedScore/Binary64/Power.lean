/-
Powers of two.

`powerOfTwo` has a whole exponent.  A negative one is taken by multiplying out and
dividing once at the end, so the smallest power it reaches is `2 ^ -1023`: below that the
product has already run to infinity and its reciprocal is zero.

`exp2` has any exponent.  Its whole part only moves the binary point.  What remains is
`2 ^ 0.b₁b₂…bₖ` for the binary digits of the fraction, and peeling off one digit is one
square root: `2 ^ 0.b₁b₂… = √(2 ^ b₁ · 2 ^ 0.b₂…)`.  The roots are taken on whole numbers
with 192 bits after the point.  Each step adds an error below one unit and halves the
errors before it, so the result is off by less than two units of the last of these bits,
far less than it takes to round to the wrong number of 53 bits: a power of two with a
fractional exponent is irrational, hence never on the boundary itself.
-/
import NumberedScore.Binary64.Value

namespace NumberedScore.Binary64

/-- Two to a whole power, a negative one as the reciprocal of the positive one. -/
def powerOfTwo (e : Int) : Float :=
  if e < 0 then 1 / nearest 1 (-e) else nearest 1 e

/-- Bits kept after the point while roots are taken. -/
def workingBits : Nat := 192

/-- The binary digits of `n` below place `k`, the highest first. -/
def digitsBelow : Nat → Nat → List Bool
  | 0, _ => []
  | k + 1, n => n.testBit k :: digitsBelow k n

/-- `2 ^ 0.b₁b₂…` for the digits given, scaled by `2 ^ workingBits` and rounded down. -/
def fractionPower : List Bool → Nat
  | [] => 1 <<< workingBits
  | bit :: rest => (fractionPower rest <<< (workingBits + bit.toNat)).sqrt

/-- Two to the power `numerator / 2 ^ places`, rounded to the nearest binary64 number. -/
def exp2Ratio (numerator : Int) (places : Nat) : Float :=
  let denominator : Int := (1 <<< places : Nat)
  let fraction := (numerator % denominator).toNat
  nearest (fractionPower (digitsBelow places fraction)) (numerator / denominator - workingBits)

/--
Two to the power `x`, rounded to the nearest binary64 number.

Exponents beyond 2048 either way need no digits, since every such power is infinite or
zero.  Exponents within `2 ^ -54` of zero need none either: the nearest number is one.
-/
def exp2 (x : Float) : Float :=
  if x.isNaN then x
  else if 2048 ≤ x then infinity
  else if x ≤ -2048 then 0
  else
    let v := Value.ofFloat x
    if (v.significand.log2 : Int) + v.exponent < -54 then 1
    else if 0 ≤ v.exponent then exp2Ratio (v.toInt * (1 <<< v.exponent.toNat : Nat)) 0
    else exp2Ratio v.toInt (-v.exponent).toNat

end NumberedScore.Binary64
