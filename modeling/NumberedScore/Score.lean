/-
Scores: a text read token by token, and written back.

Reading never fails.  Each token becomes one node, which keeps the token as it was
written, its span and its position beside its mark.  Writing uses canonical tokens; it
keeps the lines of a score, in so far as positions are known, but not the blanks between
its tokens.
-/
import NumberedScore.Mark.Rule
import NumberedScore.Mark.Written
import NumberedScore.Text.LineTable
import NumberedScore.Token

namespace NumberedScore

open Text

/-- One token of a score and its meaning. -/
structure Node where
  /-- The bytes of the token in the text. -/
  span : Span
  /-- Where the token starts, if its text is known. -/
  position : Option Position := none
  /-- The token as it was written. -/
  raw : List Char := []
  mark : Mark
  deriving DecidableEq, Repr, Inhabited

/-- The node of a token, placed by the table of the text it stands in. -/
def Node.ofToken (table : Option LineTable) (t : Token) : Node where
  span := t.span
  position := table.bind fun table => table.position? t.start
  raw := t.text
  mark := Mark.ofToken t.text

/-- Whether two nodes are known to stand on different lines, the second below the first. -/
def Node.isAbove (upper lower : Node) : Bool :=
  match upper.position, lower.position with
  | some p, some q => p.line < q.line
  | _, _ => false

/-- A score is its nodes in order. -/
abbrev Score := List Node

namespace Score

/-- Read a text. -/
def ofText (text : List Char) : Score :=
  let table := LineTable.ofText text
  (tokens text).map (Node.ofToken (some table))

/-- The marks of a score, without the places they stand at. -/
def marks (score : Score) : List Mark := score.map (·.mark)

/-- The nodes whose tokens no rule accepts. -/
def unknown (score : Score) : Score := score.filter (·.mark.isUnknown)

/-- The text of a score in canonical tokens, with a line break where the next node is below. -/
def text : Score → List Char
  | [] => []
  | [node] => node.mark.written
  | node :: next :: rest =>
    node.mark.written ++ (if node.isAbove next then '\n' else ' ') :: text (next :: rest)

end Score

end NumberedScore
