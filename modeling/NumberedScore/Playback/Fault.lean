/-
Why a score cannot be performed.

A tempo or time signature of zero is a fault wherever it stands, played or not, and is
found before anything is played.  Leaving the range of the numbers that time and pitch
are computed with is only found on the way.  Each fault but that of the settings points
at a node.
-/
import NumberedScore.Playback.Settings
import NumberedScore.Score

namespace NumberedScore

/-- A reason to refuse a performance. -/
inductive Fault where
  /-- A tempo of no beats per minute. -/
  | zeroTempo (span : Span)
  /-- A time signature whose beat has no note value. -/
  | zeroUnit (span : Span)
  | settings (reason : SettingsFault)
  /-- A time or frequency that is infinite or no number. -/
  | outOfRange (span : Span)
  deriving DecidableEq, Repr

namespace Fault

/-- The node at fault, if there is one. -/
def span? : Fault → Option Span
  | zeroTempo span | zeroUnit span | outOfRange span => some span
  | settings _ => none

/-- What is wrong, in words. -/
def message : Fault → String
  | zeroTempo span => s!"Tempo at {span.start}..{span.stop} has zero beats per minute"
  | zeroUnit span => s!"Time signature at {span.start}..{span.stop} has a zero beat unit"
  | settings reason => s!"Invalid digitizer configuration: {reason.message}"
  | outOfRange span =>
    s!"Token at {span.start}..{span.stop} leaves the representable range of pitch or time"

end Fault

/-- What is wrong with a node by itself. -/
def Node.fault? (node : Node) : Option Fault :=
  match node.mark with
  | .tempo beats => if beats = 0 then some (.zeroTempo node.span) else none
  | .time _ unit => if unit = 0 then some (.zeroUnit node.span) else none
  | _ => none

/-- The first fault of a score that does not depend on how it is played. -/
def Score.fault? (score : Score) : Option Fault := score.findSome? Node.fault?

end NumberedScore
