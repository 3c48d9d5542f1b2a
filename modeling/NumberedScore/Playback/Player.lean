/-
The player: from marks to events.

The player keeps a clock, the headers in force, the length of the sound it is holding and
the number of grace notes it has played since the last full note.  Grace notes do not
move the clock.  Each puts off the note after it by a quarter of a beat, which that note
loses from its own sound.  A long run of them can borrow more than the next notes have,
so an event never happens before the one that was played last: it is put off instead.
-/
import NumberedScore.Mark.Length
import NumberedScore.Playback.Event
import NumberedScore.Tuning

namespace NumberedScore

/-- What the player knows between two nodes. -/
structure Player where
  /-- Seconds played so far. -/
  clock : Float := 0
  /-- Seconds to a beat. -/
  beat : Float
  /-- The key of scale degree one. -/
  tonic : PianoKey
  /-- The note value of one beat. -/
  unit : UInt32
  /-- Grace notes waiting for their main note. -/
  graces : UInt32 := 0
  /-- How long the present sound has been held, ties and dashes included. -/
  held : Float := 0
  /-- The events so far, the latest first. -/
  events : List Event := []

namespace Player

/-- Seconds taken by a note of length one. -/
def noteValue (p : Player) : Float := p.beat * 4 / p.unit.toFloat

/-- Add an event, not before the one added last. -/
def emit (p : Player) (event : Event) : Player :=
  let event :=
    match p.events with
    | [] => event
    | last :: _ => event.notBefore last.time
  { p with events := event :: p.events }

/-- The boundary that ends the present sound. -/
def boundary (p : Player) : Event := .boundary p.beat p.held p.clock

/-- The frequency of a note in the key in force; rests and degrees beyond the scale are silent. -/
def frequencyOf (tuning : Tuning) (p : Player) (n : Note) : Float :=
  match scaleKey? p.tonic n.accidental n.degree.toNat n.octave with
  | some key => tuning.frequency key
  | none => 0

/-- Whether a note is struck: it is no rest, is not tied, and no grace note leads up to it. -/
def strikes (p : Player) (n : Note) : Bool := !n.tied && p.graces == 0 && n.degree != 0

/-- Play a note. -/
def playNote (tuning : Tuning) (p : Player) (n : Note) : Player :=
  let length := n.length * p.noteValue
  let borrowed := p.graces.toFloat * p.beat / 4
  let struck := if p.strikes n then p.emit p.boundary else p
  let sounding := struck.emit (.pitch (p.frequencyOf tuning n) (p.clock + borrowed))
  { sounding with
    held := if n.tied then p.held + length else length
    graces := if n.grace then p.graces + 1 else 0
    clock := if n.grace then p.clock else p.clock + length }

/-- Hold the present sound for one more note value. -/
def hold (p : Player) : Player :=
  { p with held := p.held + p.noteValue, clock := p.clock + p.noteValue }

/-- Play a mark.  Bar lines, endings and unknown tokens make no sound of their own. -/
def play (tuning : Tuning) (p : Player) : Mark → Player
  | .tempo beats => { p with beat := 60 / beats.toFloat }
  | .key _ accidental letter => { p with tonic := letter.key accidental }
  | .time _ unit => { p with unit }
  | .note n => p.playNote tuning n
  | .dash => p.hold
  | .bar .. | .ending _ | .unknown _ => p

/-- Whether the clock, the sound held and the latest event are finite. -/
def inRange (p : Player) : Bool :=
  p.clock.isFinite && p.held.isFinite && p.events.head?.all Event.isFinite

/-- The performance so far, closed by a last boundary. -/
def finish (p : Player) : Performance where
  events := (p.emit p.boundary).events.reverse
  duration := p.clock

end Player

end NumberedScore
