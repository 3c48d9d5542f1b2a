/-
Reading tokens by offsets.

The rules take a token apart character by character.  A text that is kept as its bytes is cut
at offsets instead, and a number of characters is taken for a number of bytes on the way.
Such a reading can break off: at an offset that misses, or at an octave that leaves the signed
word it is kept in.  The readers here take these steps one by one and give nothing where one
breaks off, so an answer means that every step went through.  As an answer, `none` is a token
that the rule does not accept.
-/
import NumberedScore.Mark.Rule
import NumberedScore.Text.Slice

namespace NumberedScore

open Text

/-- What is left of a text behind a number of bytes. -/
def Text.behind? (size : Nat) (t : List Char) : Option (List Char) := (cut? size t).map Prod.snd

namespace Rule

/-- The difference of two counts as signed words, if it is a signed word again. -/
def signedSub? (a b : Nat) : Option Int :=
  let difference := a.toInt32.toInt - b.toInt32.toInt
  if Int32.minValue.toInt ≤ difference ∧ difference ≤ Int32.maxValue.toInt then some difference
  else none

/-- What follows the degree, cut off sign by sign. -/
def scanMarks? (tied : Bool) (accidental : Accidental) (degree : UInt8) (t : List Char) :
    Option (Option Note) := do
  let raised := (leading '+' t).1
  let lowered := if raised = 0 then (leading '-' t).1 else 0
  let t ← behind? (raised + lowered) t
  let halvings := (leading '_' t).1
  let t ← behind? halvings t
  let dots := (leading '.' t).1
  let t ← behind? dots t
  let note (grace : Bool) : Option (Option Note) :=
    (signedSub? raised lowered).map fun octave =>
      some { tied, accidental, degree, octave, grace
             dots := dots.toUInt32
             halvings := halvings.toUInt32 }
  match t with
  | [] => note false
  | ['&'] => note true
  | _ => some none

/-- A note from its degree on: a digit is one byte, a name ends before the first other letter. -/
def scanBody? (tied : Bool) (accidental : Accidental) : List Char → Option (Option Note)
  | [] => some none
  | c :: t =>
    match degreeDigit? c with
    | some degree => (behind? 1 (c :: t)).bind (scanMarks? tied accidental degree)
    | none =>
      let size := byteSize ((c :: t).takeWhile Char.isAlpha)
      if size = 0 then some none
      else (cut? size (c :: t)).bind fun (name, rest) =>
        scanMarks? tied accidental ((syllableDegree? name).getD 0) rest

/-- A note behind its tie sign; one behind a sign of pitch is looked for first. -/
def scanSigned? (tied : Bool) (t : List Char) : Option (Option Note) := do
  let marked ←
    match t.head?.bind Accidental.ofChar? with
    | some accidental => (behind? 1 t).bind (scanBody? tied accidental)
    | none => some none
  match marked with
  | some n => some (some n)
  | none => scanBody? tied .natural t

/-- A note, behind a caret if it is tied to the one before. -/
def scanNote? : List Char → Option (Option Mark)
  | '^' :: rest => (scanSigned? true rest).map (·.map .note)
  | t => (scanSigned? false t).map (·.map .note)

/-- Read a whole token by one rule; only notes are cut at offsets. -/
def scan? : Rule → List Char → Option (Option Mark)
  | note, t => scanNote? t
  | r, t => some (r.read? t)

/-- The first answer of some rules, asked in order as long as none accepts. -/
def scanFirst? (t : List Char) : List Rule → Option (Option Mark)
  | [] => some none
  | r :: rules => do
    match ← r.scan? t with
    | some m => some (some m)
    | none => scanFirst? t rules

end Rule

/-- The mark of a token, if every step of reading it goes through. -/
def Mark.scan? (t : List Char) : Option Mark :=
  (Rule.scanFirst? t Rule.all).map (·.getD (.unknown t))

end NumberedScore
