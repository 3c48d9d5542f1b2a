/-
Log lines.

A line names its level, in a field of five, and who speaks: the program itself, or the part
of it that performs scores.  How much is said is up to the verbosity of the run.
-/
import NumberedScore.Playback.Remark
import NumberedScore.Decimal.Shortest
import NumberedScore.Text.Quoted

namespace NumberedScore

open Text

namespace CommandLine

/-- How much a log line matters. -/
inductive Level where
  | error | warn | info | debug | trace
  deriving DecidableEq, Repr

namespace Level

/-- The level's name, as wide as the longest. -/
def name : Level → String
  | error => "ERROR"
  | warn => "WARN "
  | info => "INFO "
  | debug => "DEBUG"
  | trace => "TRACE"

/-- The verbosity from which on lines of this level are shown. -/
def verbosity : Level → Nat
  | error | warn | info => 0
  | debug => 1
  | trace => 2

end Level

/-- Who speaks in a log line. -/
inductive Speaker where
  /-- The program itself. -/
  | program
  /-- The part of it that performs scores. -/
  | digitizer
  deriving DecidableEq, Repr

/-- The speaker's name. -/
def Speaker.name : Speaker → String
  | program => "jianpu"
  | digitizer => "jianpu::digitizer"

/-- One line of the log, which may itself run over several lines. -/
structure LogLine where
  level : Level
  speaker : Speaker := .program
  message : String

/-- The line as it is shown. -/
def LogLine.shown (l : LogLine) : String := s!"{l.level.name} [{l.speaker.name}] {l.message}"

/-- A text in quotes, as a string. -/
def quote (t : List Char) : String := String.ofList (quoted t)

end CommandLine

namespace Remark

open CommandLine

/-- How much a remark matters. -/
def level : Remark → Level
  | skipping .. | strayStop | goingBack .. => .trace
  | ignoring _ | finished .. => .debug

/-- A remark in words. -/
def message : Remark → String
  | skipping pass raw => s!"pass {pass}: skipping {quote raw}"
  | strayStop => "repeat end without a start, ignored"
  | goingBack node pass => s!"jumping back to node {node} for pass {pass}"
  | ignoring raw => s!"ignoring unknown token {quote raw}"
  | finished events duration =>
    s!"digitized {events} events over {String.ofList (Decimal.shortest duration)} seconds"

/-- The log line that a remark makes. -/
def logLine (r : Remark) : LogLine :=
  { level := r.level, speaker := .digitizer, message := r.message }

end Remark

end NumberedScore
