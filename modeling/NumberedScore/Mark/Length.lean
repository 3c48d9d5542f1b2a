/-
The length of a note in note values.

Each underscore halves the length and each dot adds half of what is left, so `h`
underscores and `d` dots make `2 ^ -h · (2 - 2 ^ -d)`.  The exponents are taken as signed
words: a count in the upper half of its range stands for a negative number, which makes
the note longer instead.
-/
import NumberedScore.Binary64.Power
import NumberedScore.Mark.Basic

namespace NumberedScore

/-- A 32-bit word read as a signed number and negated; the least such number is its own negative. -/
def negated (n : UInt32) : Int := (-n.toInt32).toInt

/-- The length that so many halvings and dots make. -/
def lengthOf (halvings dots : UInt32) : Float :=
  Binary64.powerOfTwo (negated halvings) * (2 - Binary64.powerOfTwo (negated dots))

/-- The length of a note in note values. -/
def Note.length (n : Note) : Float := lengthOf n.halvings n.dots

end NumberedScore
