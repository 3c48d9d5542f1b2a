/-
The program: read a score from a file and print what was asked for.

All it does beyond `Options.run` is to read the file and to write the outcome.
-/
import NumberedScore.CommandLine.Run

open NumberedScore NumberedScore.CommandLine

/-- The contents of a file, or why there are none. -/
def contentsOf (path : String) : IO (Except ReadFault (List Char)) := do
  try
    let bytes ← IO.FS.readBinFile path
    return decoded bytes
  catch e =>
    match e with
    | .noFileOrDirectory .. => return .error .notFound
    | e => return .error (.other (toString e))

/-- How the program is called. -/
def usage : String :=
  "usage: jianpu [-v] [--strict] [-d events|nodes|text] [--tempo N] [--unit N] " ++
    "[--repeat-passes N] [--reference HZ] FILE"

/-- Run the program on its arguments. -/
def main (arguments : List String) : IO UInt32 := do
  match Options.ofArguments? (arguments.map String.toList) with
  | none =>
    IO.eprintln usage
    return 1
  | some options =>
    let outcome := options.run (← contentsOf (String.ofList options.source))
    IO.print outcome.stdout
    IO.eprint outcome.stderr
    return outcome.code.toUInt32
