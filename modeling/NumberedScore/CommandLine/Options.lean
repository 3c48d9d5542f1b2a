/-
The options of a run, read from its arguments.

Arguments are read in two steps.  The first turns them into items: an option with or
without its value, a switch, or an operand.  A long option has its value behind an equals
sign or in the next argument; a short one may also have it right behind its letter, at the
end of a cluster of switches.  An argument that starts with a hyphen is never taken for a
value unless it is nothing but the hyphen, and behind the first double hyphen there are
only operands, another double hyphen among them.

The second step assembles the items.  There is exactly one operand, and no option or
switch may be repeated except the one that makes a run more verbose.  An option left
without a value has the value it would have without being given.
-/
import NumberedScore.Decimal.Reading

namespace NumberedScore.CommandLine

open Decimal

/-- What a run prints. -/
inductive Dump where
  /-- The events of the performance. -/
  | events
  /-- The nodes of the score and where they stand. -/
  | nodes
  /-- The score in canonical tokens. -/
  | text
  deriving DecidableEq, Repr

/-- The options that have a value. -/
inductive OptionName where
  | dump | tempo | unit | passes | reference
  deriving DecidableEq, Repr

/-- The options that have none. -/
inductive Switch where
  /-- Fail if a token has no meaning. -/
  | strict
  /-- Make more remarks. -/
  | verbose
  deriving DecidableEq, Repr

/-- One thing that the arguments of a run say. -/
inductive Item where
  | switch (s : Switch)
  | option (name : OptionName) (value : Option (List Char))
  | operand (text : List Char)

/-- A run as asked for. -/
structure Options where
  /-- The file that holds the score. -/
  source : List Char
  dump : Dump := .events
  /-- Whether a token without meaning is an error. -/
  strict : Bool := false
  /-- How often more remarks are asked for. -/
  verbosity : Nat := 0
  /-- Beats per minute before the first tempo mark. -/
  tempo : UInt32 := 60
  /-- The note value of a beat before the first time signature. -/
  unit : UInt32 := 4
  /-- How often a repeated section is played. -/
  passes : UInt32 := 2
  /-- The frequency of concert A in hertz. -/
  reference : Float := 440

/-! ### From arguments to items -/

/-- The options and switches by their long names. -/
def longName? (name : List Char) : Option (Switch ⊕ OptionName) :=
  match String.ofList name with
  | "strict" => some (.inl .strict)
  | "verbose" => some (.inl .verbose)
  | "dump" => some (.inr .dump)
  | "tempo" => some (.inr .tempo)
  | "unit" => some (.inr .unit)
  | "repeat-passes" => some (.inr .passes)
  | "reference" => some (.inr .reference)
  | _ => none

/-- The value behind an equals sign; further equals signs in front of it do not belong to it. -/
def attachedValue (t : List Char) : List Char := t.dropWhile (· == '=')

/-- What one argument says, and the option that still waits for its value. -/
structure Reading where
  items : List Item := []
  waiting : Option OptionName := none

/-- Read an argument with a long name. -/
def longArgument? (arg : List Char) : Option Reading :=
  let body := arg.dropWhile (· == '-')
  let name := body.takeWhile (· != '=')
  let value := body.dropWhile (· != '=')
  (longName? name).map fun
    | .inl s => { items := [.switch s] }
    | .inr o =>
      if value = [] then { waiting := some o }
      else { items := [.option o (some (attachedValue value))] }

/-- Read a cluster of short names. -/
def cluster? : List Char → Option Reading
  | [] => some {}
  | 'v' :: rest => (cluster? rest).map fun r => { r with items := .switch .verbose :: r.items }
  | 'd' :: rest =>
    if rest = [] then some { waiting := some .dump }
    else some { items := [.option .dump (some (attachedValue rest))] }
  | _ => none

/-- Whether an argument is meant as an option or switch. -/
def isOption : List Char → Bool
  | '-' :: _ :: _ => true
  | _ => false

/-- An option that goes without its value. -/
def withoutValue (waiting : Option OptionName) : List Item :=
  (waiting.map (Item.option · none)).toList

/-- The items of some arguments, the option read last waiting for its value or not. -/
def items? : Option OptionName → List (List Char) → Option (List Item)
  | waiting, [] => some (withoutValue waiting)
  | waiting, arg :: rest =>
    if arg = ['-', '-'] then
      some (withoutValue waiting ++ rest.map .operand)
    else if isOption arg then do
      let reading ← if arg.take 2 = ['-', '-'] then longArgument? arg else cluster? (arg.drop 1)
      let later ← items? reading.waiting rest
      some (withoutValue waiting ++ reading.items ++ later)
    else
      let item :=
        match waiting with
        | some name => .option name (some arg)
        | none => .operand arg
      (items? none rest).map (item :: ·)

/-! ### From items to options -/

/-- The values given for an option, one for each time that it occurs. -/
def valuesOf (name : OptionName) (items : List Item) : List (Option (List Char)) :=
  items.filterMap fun
    | .option n value => if n = name then some value else none
    | _ => none

/-- The value of an option, by default the one given. -/
def valueOf? {α : Type} (items : List Item) (name : OptionName) (byDefault : α)
    (read : List Char → Option α) : Option α :=
  match valuesOf name items with
  | [] | [none] => some byDefault
  | [some t] => read t
  | _ => none

/-- How often a switch is given. -/
def occurrences (s : Switch) (items : List Item) : Nat :=
  items.countP fun
    | .switch s' => s' = s
    | _ => false

/-- The operands in order. -/
def operands (items : List Item) : List (List Char) :=
  items.filterMap fun
    | .operand t => some t
    | _ => none

/-- What to print, by its name. -/
def Dump.named? (t : List Char) : Option Dump :=
  match String.ofList t with
  | "events" => some .events
  | "nodes" => some .nodes
  | "text" => some .text
  | _ => none

/-- A count as it may be given for an option, with or without a plus sign. -/
def count? : List Char → Option UInt32
  | '+' :: t => word? t
  | t => word? t

/-- The options that some items make up, unless they contradict each other. -/
def Options.ofItems? (items : List Item) : Option Options := do
  let source ←
    match operands items with
    | [source] => some source
    | _ => none
  let defaults : Options := { source }
  let dump ← valueOf? items .dump defaults.dump Dump.named?
  let tempo ← valueOf? items .tempo defaults.tempo count?
  let unit ← valueOf? items .unit defaults.unit count?
  let passes ← valueOf? items .passes defaults.passes count?
  let reference ← valueOf? items .reference defaults.reference float?
  let strict := occurrences .strict items
  if 1 < strict then none
  else
    some
      { source, dump, tempo, unit, passes, reference
        strict := strict = 1
        verbosity := occurrences .verbose items }

/-- The options that some arguments ask for, if they can be understood. -/
def Options.ofArguments? (arguments : List (List Char)) : Option Options :=
  (items? none arguments).bind Options.ofItems?

end NumberedScore.CommandLine
