/-
Listings: a performance or a score, one thing a line.

Times have four places and stand in a field of ten; frequencies have three.  A mark is
listed with the names and values of all its parts.
-/
import NumberedScore.Playback.Performance
import NumberedScore.Decimal.Fixed
import NumberedScore.Text.Quoted

namespace NumberedScore

open Text Decimal

namespace Event

/-- A time in seconds. -/
def seconds (t : Float) : String := String.ofList (fixed 4 t)

/-- A time in the column in front of an event. -/
def timeColumn (t : Float) : String := String.ofList (padLeft 10 ' ' (fixed 4 t))

/-- The line of an event. -/
def listed : Event → String
  | pitch frequency time =>
    s!"{timeColumn time}s  freq   {String.ofList (fixed 3 frequency)} Hz"
  | boundary beat held time =>
    s!"{timeColumn time}s  break  base {seconds beat}s, before {seconds held}s"

end Event

/-- The lines of a performance: its events and its length. -/
def Performance.listed (p : Performance) : List String :=
  p.events.map Event.listed ++ [s!"duration {Event.seconds p.duration}s"]

/-- The name of an accidental. -/
def Accidental.listed : Accidental → String
  | flat => "Flat"
  | natural => "Natural"
  | sharp => "Sharp"

/-- The name of a repeat sign. -/
def Repeat.listed : Repeat → String
  | start => "Start"
  | none => "None"
  | stop => "End"

/-- A name in front of the parts of a mark. -/
def listedWith (name : String) (parts : List (String × String)) : String :=
  let parts := parts.map fun (label, value) => label ++ ": " ++ value
  name ++ " \x7b " ++ String.intercalate ", " parts ++ " \x7d"

/-- A note with all its parts. -/
def Note.listed (n : Note) : String :=
  listedWith "Note"
    [("continuation", toString n.tied), ("accidental", n.accidental.listed),
     ("notation", toString n.degree), ("octave", toString n.octave), ("dot", toString n.dots),
     ("half", toString n.halvings), ("leaning", toString n.grace)]

/-- A mark with all its parts. -/
def Mark.listed : Mark → String
  | tempo beats => listedWith "Tempo" [("beat", toString beats)]
  | key tonic accidental letter =>
    listedWith "KeySignature"
      [("tonic", toString tonic), ("accidental", accidental.listed),
       ("pitch", String.singleton letter.toChar)]
  | time beats unit =>
    listedWith "TimeSignature" [("beat", toString beats), ("unit", toString unit)]
  | note n => n.listed
  | dash => "Dash"
  | bar final turn => listedWith "BarLine" [("end", toString final), ("repeat", turn.listed)]
  | ending pass => listedWith "Fine" [("except", toString pass)]
  | unknown raw => listedWith "Unknown" [("raw", String.ofList (quoted raw))]

/-- The line of a node: where it stands, in a field of eight, and its mark. -/
def Node.listed (node : Node) : String :=
  let position := (node.position.map Position.written).getD ['-']
  String.ofList (padLeft 8 ' ' position) ++ " " ++ node.mark.listed

end NumberedScore
