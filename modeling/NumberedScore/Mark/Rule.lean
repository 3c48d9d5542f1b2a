/-
Rules: how a token is read as a mark.

There are seven rules, tried in the order of `Rule.all`; the first that accepts a token
decides its mark.  A rule reads whole tokens.  The one for notes is the only one with
choices: a leading `b` is a flat if a note can be read behind it, and otherwise the first
letter of a name; a name that is no syllable of the scale is a rest.
-/
import NumberedScore.Decimal.Numeral
import NumberedScore.Mark.Basic

namespace NumberedScore

open Decimal

/-- The kinds of token that a score may hold. -/
inductive Rule where
  | tempo | key | time | note | dash | bar | ending
  deriving DecidableEq, Repr, Inhabited

/-- All rules, in the order in which they are tried. -/
def Rule.all : List Rule := [.tempo, .key, .time, .note, .dash, .bar, .ending]

theorem Rule.mem_all (r : Rule) : r ∈ Rule.all := by
  cases r <;> decide

namespace Rule

/-! ### Headers, bars and endings -/

/-- An exclamation mark and the beats per minute. -/
def tempo? : List Char → Option Mark
  | '!' :: digits => (word? digits).map .tempo
  | _ => none

/-- A pitch in letter notation behind its sign. -/
def signedLetter? : List Char → Option (Accidental × Letter)
  | [l] => (Letter.ofChar? l).map fun letter => (.natural, letter)
  | [s, l] => do
    let accidental ← Accidental.ofChar? s
    let letter ← Letter.ofChar? l
    some (accidental, letter)
  | _ => none

/-- The value of one of the digits up to seven. -/
def degreeDigit? (c : Char) : Option UInt8 :=
  if '0' ≤ c ∧ c ≤ '7' then some (c.toNat - '0'.toNat).toUInt8 else none

/-- A degree from one to seven, an equals sign and the pitch of that degree. -/
def key? : List Char → Option Mark
  | d :: '=' :: pitch =>
    if d = '0' then none
    else do
      let tonic ← degreeDigit? d
      let (accidental, letter) ← signedLetter? pitch
      some (.key tonic accidental letter)
  | _ => none

/-- Two numbers with a slash between them. -/
def time? (t : List Char) : Option Mark :=
  match t.dropWhile (· != '/') with
  | '/' :: unit => do
    let beats ← word? (t.takeWhile (· != '/'))
    let unit ← word? unit
    some (.time beats unit)
  | _ => none

/-- A single hyphen. -/
def dash? : List Char → Option Mark
  | ['-'] => some .dash
  | _ => none

/-- One of the four bar lines. -/
def bar? : List Char → Option Mark
  | ['|'] => some (.bar false .none)
  | ['|', '|'] => some (.bar true .none)
  | ['|', '|', ':'] => some (.bar false .start)
  | [':', '|', '|'] => some (.bar false .stop)
  | _ => none

/-- An opening bracket, the number of a pass and a full stop. -/
def ending? : List Char → Option Mark
  | '[' :: rest =>
    if rest.getLast? = some '.' then (word? rest.dropLast).map .ending else none
  | _ => none

/-! ### Notes -/

/-- Count a character at the front of a text, and what follows its last repetition. -/
def leading (c : Char) (t : List Char) : Nat × List Char :=
  ((t.takeWhile (· == c)).length, t.dropWhile (· == c))

theorem leading_count_le (c : Char) (t : List Char) : (leading c t).1 ≤ t.length :=
  (List.takeWhile_sublist _).length_le

/-- The degree that a syllable names, in any case of letters. -/
def syllableDegree? (name : List Char) : Option UInt8 :=
  match name.map Char.toLower with
  | ['d', 'o'] => some 1
  | ['r', 'e'] => some 2
  | ['m', 'i'] => some 3
  | ['f', 'a'] => some 4
  | ['s', 'o'] | ['s', 'o', 'l'] => some 5
  | ['l', 'a'] => some 6
  | ['t', 'i'] | ['s', 'i'] => some 7
  | _ => none

/-- A degree at the front of a text: a digit up to seven, or a name as long as letters go on. -/
def degree? : List Char → Option (UInt8 × List Char)
  | [] => none
  | c :: t =>
    match degreeDigit? c with
    | some d => some (d, t)
    | none =>
      if c.isAlpha then
        some ((syllableDegree? (c :: t.takeWhile Char.isAlpha)).getD 0, t.dropWhile Char.isAlpha)
      else none

/-- What follows the degree: octave signs of one kind, halvings, dots, and at last a grace sign. -/
def noteMarks? (tied : Bool) (accidental : Accidental) (degree : UInt8) (t : List Char) :
    Option Note :=
  let (raised, t) := leading '+' t
  let (lowered, t) := if raised = 0 then leading '-' t else (0, t)
  let (halvings, t) := leading '_' t
  let (dots, t) := leading '.' t
  let note (grace : Bool) : Note :=
    { tied, accidental, degree, grace
      octave := (raised : Int) - lowered
      dots := dots.toUInt32
      halvings := halvings.toUInt32 }
  match t with
  | [] => some (note false)
  | ['&'] => some (note true)
  | _ => none

/-- A note from its degree on. -/
def noteBody? (tied : Bool) (accidental : Accidental) (t : List Char) : Option Note :=
  (degree? t).bind fun (degree, rest) => noteMarks? tied accidental degree rest

/-- A note behind its tie sign; a sign of pitch comes first if a note can be read behind it. -/
def signedNote? (tied : Bool) (t : List Char) : Option Note :=
  let marked :=
    match t with
    | [] => none
    | c :: rest => (Accidental.ofChar? c).bind fun accidental => noteBody? tied accidental rest
  marked.or (noteBody? tied .natural t)

/-- A note, behind a caret if it is tied to the one before. -/
def note? : List Char → Option Mark
  | '^' :: rest => (signedNote? true rest).map .note
  | t => (signedNote? false t).map .note

/-! ### Choosing a rule -/

/-- Read a whole token by one rule. -/
def read? : Rule → List Char → Option Mark
  | tempo => tempo?
  | key => key?
  | time => time?
  | note => note?
  | dash => dash?
  | bar => bar?
  | ending => ending?

/-- The first rule that accepts a token. -/
def of? (t : List Char) : Option Rule := all.find? fun r => (r.read? t).isSome

end Rule

/-- The mark of a token: that of the first rule that accepts it. -/
def Mark.ofToken (t : List Char) : Mark := (Rule.all.findSome? (·.read? t)).getD (.unknown t)

end NumberedScore
