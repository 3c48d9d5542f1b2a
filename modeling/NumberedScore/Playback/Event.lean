/-
Events: what a performance consists of.

There is one voice.  An event either sets its frequency from a time on, zero hertz for
silence, or marks a boundary, where one sound ends and the next is struck.  Times are in
seconds from the start.
-/

namespace NumberedScore

/-- Something that happens at a time. -/
inductive Event where
  /-- The voice sounds at this frequency from now on. -/
  | pitch (frequency time : Float)
  /-- The sound before ends, having lasted `held`, at a time when a beat takes `beat`. -/
  | boundary (beat held time : Float)

namespace Event

/-- When the event happens. -/
def time : Event → Float
  | pitch _ time | boundary _ _ time => time

/-- The later of two times; one that is no number counts for nothing. -/
def later (t last : Float) : Float := if last ≤ t || last.isNaN then t else last

/-- The event put off until a time, if it would come before it. -/
def notBefore (last : Float) : Event → Event
  | pitch frequency time => pitch frequency (later time last)
  | boundary beat held time => boundary beat held (later time last)

/-- Whether every number in the event is finite. -/
def isFinite : Event → Bool
  | pitch frequency time => frequency.isFinite && time.isFinite
  | boundary beat held time => beat.isFinite && held.isFinite && time.isFinite

end Event

/-- The finished result: events in order of time, and the length in seconds. -/
structure Performance where
  events : List Event
  duration : Float

namespace Performance

/-- The times and frequencies of all changes of pitch. -/
def pitches (p : Performance) : List (Float × Float) :=
  p.events.filterMap fun
    | .pitch frequency time => some (time, frequency)
    | .boundary .. => none

/-- The times of all boundaries. -/
def boundaries (p : Performance) : List Float :=
  p.events.filterMap fun
    | .pitch .. => none
    | .boundary _ _ time => some time

end Performance

end NumberedScore
