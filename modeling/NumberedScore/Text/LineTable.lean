/-
Lines and columns of a text.

Lines end at line feeds and nowhere else.  The table records where those are, which
makes a line's extent a matter of looking up two neighbouring breaks; an offset's line is
found by counting the breaks before it.  A break belongs to the line it ends.  Columns
count characters, not bytes.  Both counts start at one.
-/
import NumberedScore.Text.Slice
import NumberedScore.Decimal.Numeral

namespace NumberedScore.Text

/-- A place in a text as a reader would give it. -/
structure Position where
  line : Nat
  column : Nat
  deriving DecidableEq, Repr, Inhabited

/-- The position as `line:column`. -/
def Position.written (p : Position) : List Char :=
  Decimal.numeral p.line ++ ':' :: Decimal.numeral p.column

/-- The offsets of the line breaks in a text that starts at the given offset. -/
def breaksFrom (offset : Nat) : List Char → List Nat
  | [] => []
  | c :: t =>
    let later := breaksFrom (offset + c.utf8Size) t
    if c = '\n' then offset :: later else later

/-- A text together with the offsets of its line breaks. -/
structure LineTable where
  text : List Char
  breaks : List Nat := breaksFrom 0 text

namespace LineTable

/-- The table of a text. -/
def ofText (text : List Char) : LineTable := { text }

/-- Where a line begins, counted from one; lines that do not exist begin at the end of the text. -/
def lineStart (m : LineTable) : Nat → Nat
  | 0 | 1 => 0
  | k + 2 =>
    match m.breaks[k]? with
    | some b => b + 1
    | none => byteSize m.text

/-- The extent of a line without its line break. -/
def lineSpan (m : LineTable) (line : Nat) : Span where
  start := m.lineStart line
  stop :=
    match line with
    | 0 => byteSize m.text
    | k + 1 => m.breaks[k]?.getD (byteSize m.text)

/-- The line an offset lies on, one more than there are breaks before it. -/
def lineAt (m : LineTable) (offset : Nat) : Nat :=
  m.breaks.countP (· < offset) + 1

/-- The position of an offset, if it lies in the text and between two characters. -/
def position? (m : LineTable) (offset : Nat) : Option Position :=
  let line := m.lineAt offset
  (slice? m.text ⟨m.lineStart line, offset⟩).map fun before => ⟨line, before.length + 1⟩

end LineTable

end NumberedScore.Text
