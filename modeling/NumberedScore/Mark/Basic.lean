/-
Marks: what the tokens of a score mean.

A mark is a header (tempo, key, time signature), something that sounds or holds (notes
and dashes), or something that directs the order in which the score is played (bar lines
with repeat signs, alternate endings).  A token that is none of these is kept as it is.
Counts are 32-bit words, which is what a score may write and what wraps where a count is
read as signed.
-/
import NumberedScore.Pitch

namespace NumberedScore

/-- Where a bar line sends the player. -/
inductive Repeat where
  /-- The section to be repeated starts here. -/
  | start
  /-- Straight on. -/
  | none
  /-- Back to the last start. -/
  | stop
  deriving DecidableEq, Repr, Inhabited

/-- A note or a rest. -/
structure Note where
  /-- Continues the sound before it instead of starting a new one. -/
  tied : Bool := false
  accidental : Accidental := .natural
  /-- The degree of the scale from one, zero for a rest. -/
  degree : UInt8
  /-- Octaves above the octave of the tonic. -/
  octave : Int := 0
  /-- How often half of what is left is added to the length. -/
  dots : UInt32 := 0
  /-- How often the length is halved. -/
  halvings : UInt32 := 0
  /-- A grace note takes no time of its own; it borrows from the next note. -/
  grace : Bool := false
  deriving DecidableEq, Repr, Inhabited

/-- The meaning of one token. -/
inductive Mark where
  /-- Beats per minute from here on. -/
  | tempo (beats : UInt32)
  /-- The scale degree `tonic` is the given pitch from here on. -/
  | key (tonic : UInt8) (accidental : Accidental) (letter : Letter)
  /-- Beats to a bar, and the note value of one beat, from here on. -/
  | time (beats unit : UInt32)
  | note (note : Note)
  /-- Holds the sound before it for one more note value. -/
  | dash
  | bar (final : Bool) (turn : Repeat)
  /-- What follows belongs to one pass through the repeated section only. -/
  | ending (pass : UInt32)
  /-- A token that no rule accepts. -/
  | unknown (raw : List Char)
  deriving DecidableEq, Repr, Inhabited

/-- Whether a mark stands for a token that no rule accepts. -/
def Mark.isUnknown : Mark → Bool
  | unknown _ => true
  | _ => false

end NumberedScore
