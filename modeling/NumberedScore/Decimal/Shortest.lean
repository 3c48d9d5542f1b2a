/-
The fewest decimal digits that identify a number.

A binary64 number stands for all the reals that round to it.  They form an interval: from
halfway to the neighbour below to halfway to the neighbour above, the two ends belonging
to it exactly when the significand is even.  A decimal identifies the number if it lies
in that interval, and the shortest one is found by trying ever finer grids `10 ^ e`: on
each, only the two grid points next to the number can lie in the interval if any does.
Where both do, the nearer wins, and the upper one if they are equally near.

All comparisons are between naturals; nothing is computed in floating point.
-/
import NumberedScore.Binary64.Value
import NumberedScore.Decimal.Layout

namespace NumberedScore.Decimal

open Binary64

/-- The interval of reals that round to a number, over a common denominator. -/
structure Interval where
  low : Nat
  value : Nat
  high : Nat
  den : Nat
  /-- Whether the two ends round to the number as well. -/
  closed : Bool

/--
The interval around a positive value, in quarters of its last place.

Below a power of two the neighbour is only half as far away, except where the
significand cannot grow shorter any more.
-/
def Interval.around (v : Value) : Interval :=
  let narrow := v.significand = 1 <<< 52 ∧ -1074 < v.exponent
  let scale := 1 <<< (v.exponent - 2).toNat
  { low := (4 * v.significand - if narrow then 1 else 2) * scale
    value := 4 * v.significand * scale
    high := (4 * v.significand + 2) * scale
    den := 1 <<< (2 - v.exponent).toNat
    closed := v.significand % 2 = 0 }

/-- A decimal `digits · 10 ^ exponent`. -/
structure Digits where
  digits : Nat
  exponent : Int
  deriving DecidableEq, Repr

/-- The better of the two points of the grid `10 ^ e` around the value, if one identifies it. -/
def Interval.onGrid (i : Interval) (e : Int) : Option Digits :=
  let unit := Nat.pow 10 e.toNat * i.den
  let down := Nat.pow 10 (-e).toNat
  let within (d : Nat) : Bool :=
    let low := i.low * down
    let high := i.high * down
    low < d * unit && d * unit < high || i.closed && (d * unit == low || d * unit == high)
  let below := i.value * down / unit
  let nearerBelow := 2 * (i.value * down) < (2 * below + 1) * unit
  if within below && (nearerBelow || !within (below + 1)) then some ⟨below, e⟩
  else if within (below + 1) then some ⟨below + 1, e⟩
  else none

/-- The exact decimal expansion, which every finite value has. -/
def exactDigits (v : Value) : Digits :=
  if 0 ≤ v.exponent then ⟨v.significand <<< v.exponent.toNat, 0⟩
  else ⟨v.significand * Nat.pow 5 (-v.exponent).toNat, v.exponent⟩

/--
The shortest decimal that identifies a value.

The first grid tried is coarser than the value itself, so nothing shorter is missed;
seventeen significant digits always suffice.
-/
def shortestDigits (v : Value) : Digits :=
  if v.significand = 0 then ⟨0, 0⟩
  else
    let magnitude : Int := v.significand.log2 + v.exponent
    let coarsest : Int := magnitude * 30103 / 100000 + 2
    ((List.range 21).findSome? fun k : Nat => (Interval.around v).onGrid (coarsest - k)).getD
      (exactDigits v)

/-- A number in its shortest form, never in scientific notation. -/
def shortest (x : Float) : List Char :=
  (special? x).getD
    (let v := Value.ofFloat x
     let d := shortestDigits v
     signed v.negative (pointed (d.digits * Nat.pow 10 d.exponent.toNat) (-d.exponent).toNat))

end NumberedScore.Decimal
