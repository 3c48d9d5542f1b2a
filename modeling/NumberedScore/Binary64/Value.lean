/-
Binary64 numbers as exact values.

A finite number is a sign and a whole number scaled by a power of two.  `Value.ofFloat`
reads that form off the bits, and `nearest` goes the other way: it takes any whole
number scaled by any power of two to the closest binary64 number.  Between the two lies
exact integer arithmetic, which is how the rest of the library does everything that the
four basic operations do not already round correctly.
-/
import NumberedScore.Rounding

namespace NumberedScore.Binary64

/-- The exact value of a finite number: `± significand · 2 ^ exponent`. -/
structure Value where
  /-- The sign bit, which zero has too. -/
  negative : Bool
  significand : Nat
  exponent : Int
  deriving DecidableEq, Repr

/-- Read the value off the bits.  Infinities and NaN have none and must be told apart before. -/
def Value.ofFloat (x : Float) : Value :=
  let bits := x.toBits
  let field := ((bits >>> 52) &&& 0x7FF).toNat
  let fraction := (bits &&& 0xFFFFFFFFFFFFF).toNat
  let negative := bits >>> 63 != 0
  if field = 0 then ⟨negative, fraction, -1074⟩
  else ⟨negative, 1 <<< 52 + fraction, (field : Int) - 1075⟩

/-- The value without its scale, as a signed whole number. -/
def Value.toInt (v : Value) : Int :=
  if v.negative then -(v.significand : Int) else v.significand

/-- Positive infinity. -/
def infinity : Float := Float.ofBits 0x7FF0000000000000

/--
The binary64 number nearest to `n · 2 ^ e`, a tie going to the even significand.

The last place kept is 52 below the leading bit, but never below `2 ^ -1074`.  A
significand that rounds up to the next power of two carries into the exponent field by
itself, and out of the largest exponent into infinity.
-/
def nearest (n : Nat) (e : Int) : Float :=
  if n = 0 then 0
  else
    let top : Int := n.log2 + e
    if 1023 < top then infinity
    else if top < -1075 then 0
    else
      let last : Int := max (top - 52) (-1074)
      let significand :=
        if last ≤ e then n <<< (e - last).toNat else roundDiv n (1 <<< (last - e).toNat)
      let field := if top < -1022 then 0 else (top + 1022).toNat
      Float.ofBits (UInt64.ofNat (field <<< 52 + significand))

end NumberedScore.Binary64
