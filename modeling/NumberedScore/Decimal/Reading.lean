/-
Reading a fractional number from text.

The form is an optional sign, then one of the names of infinity and NaN in any case of
letters, or digits with at most one point and at least one digit on either side of it,
and after them an optional exponent.  The value is the binary64 number nearest to the
decimal written.
-/
import NumberedScore.Binary64.Value
import NumberedScore.Decimal.Numeral

namespace NumberedScore.Decimal

/--
The number nearest to `digits · 10 ^ exponent`.

A decimal that is certainly too large or too small to be told from infinity or zero is
decided by its size alone, so the cost never depends on how large an exponent is written.
-/
def nearest (digits : Nat) (exponent : Int) : Float :=
  let size : Int := (numeral digits).length + exponent
  if digits = 0 ∨ size < -400 then 0
  else if 400 < size then Binary64.infinity
  else Float.ofScientific digits (exponent < 0) exponent.natAbs

/-- Split a sign off the front: whether it is a minus, and what follows. -/
def splitSign : List Char → Bool × List Char
  | '-' :: t => (true, t)
  | '+' :: t => (false, t)
  | t => (false, t)

/-- The exponent that a text after the digits gives, zero for the empty one. -/
def exponent? : List Char → Option Int
  | [] => some 0
  | c :: t =>
    if c = 'e' ∨ c = 'E' then
      let (negative, digits) := splitSign t
      (natural? digits).map fun n => if negative then -(n : Int) else n
    else none

/-- A decimal without its sign. -/
def magnitude? (t : List Char) : Option Float :=
  let before := t.takeWhile Char.isDigit
  let rest := t.dropWhile Char.isDigit
  let (after, rest) :=
    match rest with
    | '.' :: r => (r.takeWhile Char.isDigit, r.dropWhile Char.isDigit)
    | _ => ([], rest)
  if before = [] ∧ after = [] then none
  else
    (exponent? rest).map fun e =>
      nearest (Nat.ofDigitChars 10 (before ++ after) 0) (e - after.length)

/-- A number as it may be written on the command line. -/
def float? (t : List Char) : Option Float :=
  let (negative, body) := splitSign t
  let name := body.map Char.toLower
  let read :=
    if name = "inf".toList ∨ name = "infinity".toList then some Binary64.infinity
    else if name = "nan".toList then some (0 / 0)
    else magnitude? body
  read.map fun x => if negative then -x else x

end NumberedScore.Decimal
