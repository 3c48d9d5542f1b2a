/-
Digits with a point in them.

Both ways in which this library writes a fractional number, with a fixed number of
places and with as few digits as will do, end in the same step: a whole number is
written out and a point is set some places from its end.
-/
import NumberedScore.Decimal.Numeral

namespace NumberedScore.Decimal

/-- The text in a field of the given width, pushed to its right end. -/
def padLeft (width : Nat) (fill : Char) (t : List Char) : List Char :=
  List.replicate (width - t.length) fill ++ t

/-- The number `n / 10 ^ places` with all its places, and at least one digit before the point. -/
def pointed (n places : Nat) : List Char :=
  if places = 0 then numeral n
  else
    let digits := padLeft (places + 1) '0' (numeral n)
    digits.take (digits.length - places) ++ '.' :: digits.drop (digits.length - places)

/-- A sign in front of negative numbers only. -/
def signed (negative : Bool) (t : List Char) : List Char :=
  if negative then '-' :: t else t

/-- What stands for a number that has no digits, if this is one. -/
def special? (x : Float) : Option (List Char) :=
  if x.isNaN then some "NaN".toList
  else if x.isInf then some (signed (x < 0) "inf".toList)
  else none

end NumberedScore.Decimal
