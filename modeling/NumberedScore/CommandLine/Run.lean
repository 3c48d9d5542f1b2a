/-
A run: from options and a file's contents to what is printed.

Log lines and the listing asked for share the standard output.  Tokens without meaning are
shown in the log, and make a strict run fail.  If a score cannot be performed, the standard
error shows the node at fault, and the log says what is wrong with it.

An excerpt needs its span to be found in the text.  A run that misses one is broken off.
-/
import NumberedScore.CommandLine.Listing
import NumberedScore.CommandLine.Log
import NumberedScore.CommandLine.Options
import NumberedScore.Text.Excerpt

namespace NumberedScore.CommandLine

open Text

/-- Why a file cannot be read. -/
inductive ReadFault where
  | notFound
  /-- Its bytes are no text. -/
  | notText
  /-- What else the system says. -/
  | other (reason : String)

/-- What is wrong, in words. -/
def ReadFault.message : ReadFault → String
  | notFound => "No such file or directory (os error 2)"
  | notText => "stream did not contain valid UTF-8"
  | other reason => reason

/-- What a run leaves behind. -/
structure Outcome where
  /-- Zero unless the run failed. -/
  code : UInt8 := 0
  stdout : String := ""
  stderr : String := ""

/-- The settings that the options ask for. -/
def Options.settings (o : Options) : Settings where
  tempo := o.tempo
  unit := o.unit
  passes := o.passes
  tuning := { referenceFrequency := o.reference }

/-- The lines of the log that a run shows, in order. -/
def Options.log (o : Options) (lines : List LogLine) : List String :=
  (lines.filter (·.level.verbosity ≤ o.verbosity)).map LogLine.shown

/-- Lines as they are printed. -/
def printed (lines : List String) : String := String.join (lines.map (· ++ "\n"))

/-- The outcome of a run that fails with a message after some lines. -/
def failure (lines : List String) (message : String) (stderr : String) : Outcome where
  code := 1
  stdout := printed (lines ++ [LogLine.shown { level := .error, message }])
  stderr := stderr

/-- The coloured excerpt for a span of a text, if it is found there. -/
def shownIn? (table : LineTable) (span : Span) : Option String :=
  (table.excerpt? span true).map String.ofList

/-- The warning about a token without meaning. -/
def warning? (table : LineTable) (node : Node) : Option LogLine := do
  let excerpt ← shownIn? table node.span
  some { level := .warn, message := s!"unknown token {quote node.raw}\n{excerpt}" }

/-- What the standard error shows of a fault. -/
def faultShown? (table : LineTable) (fault : Fault) : Option String :=
  match fault.span? with
  | some span => shownIn? table span
  | none => some ""

/-- What a run on a text leaves behind, unless it is broken off. -/
def Options.runOn? (o : Options) (text : List Char) : Option Outcome := do
  let table := LineTable.ofText text
  let score := Score.ofText text
  let unknown := score.unknown
  let warnings ← unknown.mapM (warning? table)
  let opening : LogLine :=
    { level := .info
      message := s!"parsed {score.length} tokens from {String.ofList o.source}" }
  let head := o.log (opening :: warnings)
  if o.strict && unknown ≠ [] then
    some (failure head s!"Found {unknown.length} unknown token(s)" "")
  else
    match o.dump with
    | .nodes => some { stdout := printed (head ++ score.map Node.listed) }
    | .text => some { stdout := printed (head ++ [String.ofList score.text]) }
    | .events =>
      let head := head ++ o.log ((score.remarks o.settings).map Remark.logLine)
      match score.perform o.settings with
      | .ok performance => some { stdout := printed (head ++ performance.listed) }
      | .error fault => (faultShown? table fault).map (failure head fault.message)

/-- What a run on the contents of its file leaves behind, unless it is broken off. -/
def Options.run? (o : Options) (contents : Except ReadFault (List Char)) : Option Outcome :=
  match contents with
  | .ok text => o.runOn? text
  | .error fault =>
    some (failure [] s!"Could not read {String.ofList o.source}: {fault.message}" "")

/-- What a run that is broken off leaves behind. -/
def brokenOff : Outcome := { code := 101 }

/-- What a run on the contents of its file leaves behind. -/
def Options.run (o : Options) (contents : Except ReadFault (List Char)) : Outcome :=
  (o.run? contents).getD brokenOff

/-- The text that some bytes are, if they are UTF-8. -/
def decoded (bytes : ByteArray) : Except ReadFault (List Char) :=
  match String.fromUTF8? bytes with
  | some text => .ok text.toList
  | none => .error .notText

end NumberedScore.CommandLine
