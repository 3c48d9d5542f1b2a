/-
Reading a text by way of a lexer.

The lexer is a parameter here.  What is relied on is the way in which it goes through a text
(`Lexes`): the longest match of two patterns is taken off the front, over and over, and where
nothing matches a character is given up.  One pattern is for the words between blanks, the
other for the blanks, whose matches are dropped.

A lexer finds byte ranges.  The words are cut out of the text at these, and each gets the
position of its start, so both steps can miss.
-/
import NumberedScore.Score

namespace NumberedScore

open Text

/-! ### The lexer -/

/-- What a lexer reports: a word, or a character that no pattern matches. -/
inductive Lexeme where
  | word | error
  deriving DecidableEq, Repr, Inhabited

/-- The patterns of the lexer. -/
inductive Pattern where
  /-- Characters that are not blank. -/
  | word
  /-- Blanks. -/
  | blanks
  deriving DecidableEq, Repr, Inhabited

/-- Whether a character can stand in a match. -/
def Pattern.admits : Pattern → Char → Bool
  | word, c => !isBlank c
  | blanks, c => isBlank c

@[simp] theorem Pattern.admits_word (c : Char) : word.admits c = !isBlank c := rfl

@[simp] theorem Pattern.admits_blanks (c : Char) : blanks.admits c = isBlank c := rfl

/-- A pattern matches one such character or more. -/
def Pattern.Matches (p : Pattern) (t : List Char) : Prop := t ≠ [] ∧ ∀ c ∈ t, p.admits c = true

/-- A match at the front of a text that is as long as any, by whichever pattern. -/
structure Pattern.Longest (p : Pattern) (part rest : List Char) : Prop where
  matched : p.Matches part
  longest : ∀ (q : Pattern) (part' rest' : List Char),
    part ++ rest = part' ++ rest' → q.Matches part' → part'.length ≤ part.length

/-- What a lexer reports for a text that starts at an offset. -/
inductive Lexes : Nat → List Char → List (Lexeme × Span) → Prop where
  | done (offset : Nat) : Lexes offset [] []
  | word {offset : Nat} {part rest : List Char} {found : List (Lexeme × Span)}
      (h : Pattern.word.Longest part rest) (hrest : Lexes (offset + byteSize part) rest found) :
      Lexes offset (part ++ rest) ((.word, ⟨offset, offset + byteSize part⟩) :: found)
  | skip {offset : Nat} {part rest : List Char} {found : List (Lexeme × Span)}
      (h : Pattern.blanks.Longest part rest) (hrest : Lexes (offset + byteSize part) rest found) :
      Lexes offset (part ++ rest) found
  | error {offset : Nat} {c : Char} {rest : List Char} {found : List (Lexeme × Span)}
      (h : ∀ (p : Pattern) (part rest' : List Char), c :: rest = part ++ rest' → ¬ p.Matches part)
      (hrest : Lexes (offset + c.utf8Size) rest found) :
      Lexes offset (c :: rest) ((.error, ⟨offset, offset + c.utf8Size⟩) :: found)

/-! ### Reading -/

/-- Whether a report is of a word, and not of an empty one. -/
def reportsWord (report : Lexeme × Span) : Bool :=
  report.1 == .word && decide (report.2.start < report.2.stop)

variable (lexer : List Char → List (Lexeme × Span))

/-- The words that a lexer finds, cut out of the text, if none of the cuts misses. -/
def tokenize? (source : List Char) : Option (List (List Char × Span)) :=
  ((lexer source).filter reportsWord).mapM fun report =>
    (slice? source report.2).map fun text => (text, report.2)

/-- The node of a token found at an offset, if that offset has a position. -/
def Node.classify? (table : LineTable) (text : List Char) (offset : Nat) : Option Node :=
  (table.position? offset).map fun position =>
    { span := ⟨offset, offset + byteSize text⟩
      position := some position
      raw := text
      mark := Mark.ofToken text }

/-- Read a text with a lexer, if neither a cut nor a position is missed. -/
def Score.parse? (source : List Char) : Option Score := do
  let found ← tokenize? lexer source
  found.mapM fun (text, span) => Node.classify? (LineTable.ofText source) text span.start

end NumberedScore
