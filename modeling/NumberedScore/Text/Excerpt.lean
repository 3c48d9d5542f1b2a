/-
Excerpts: a piece of a text shown in its surroundings.

An excerpt shows the line on which a span starts, the line before it if there is one, and
under them as many carets as the span has characters on that line, at least one.  Each
line stands behind its number in a gutter of four places.  A span that runs past its line
is cut off at the line's end.  With colours, the number and the spanned text are set
apart by terminal escapes; nothing else differs.
-/
import NumberedScore.Text.LineTable
import NumberedScore.Decimal.Layout

namespace NumberedScore.Text

/-- The terminal escape that starts bold red text. -/
def red : List Char := "\x1b[31;1m".toList

/-- The terminal escape that returns to plain text. -/
def plain : List Char := "\x1b[0m".toList

/-- A line's number, in the gutter before its text. -/
def gutter (line : Nat) : List Char :=
  Decimal.padLeft 4 ' ' (Decimal.numeral line) ++ ['|']

namespace LineTable

/-- A line behind its number. -/
def numbered? (m : LineTable) (line : Nat) : Option (List Char) :=
  (slice? m.text (m.lineSpan line)).map (gutter line ++ ·)

/-- A line behind its number, with a part of it set apart by colour. -/
def coloured? (m : LineTable) (line : Nat) (part : Span) : Option (List Char) := do
  let extent := m.lineSpan line
  let before ← slice? m.text ⟨extent.start, part.start⟩
  let marked ← slice? m.text part
  let after ← slice? m.text ⟨part.stop, extent.stop⟩
  some (red ++ gutter line ++ plain ++ before ++ red ++ marked ++ plain ++ after)

/-- Carets below a line, from a column up to another, at least one of them. -/
def underline (start stop : Nat) : List Char :=
  List.replicate (5 + (start - 1)) ' ' ++ List.replicate (max stop (start + 1) - start) '^'

/--
The excerpt for a span, if its start, and its end on that line, lie between characters.

Where a span ends before it starts, a plain excerpt is still drawn as far as its end has a
position; a coloured one has no text to mark.
-/
def excerpt? (m : LineTable) (span : Span) (colour : Bool) : Option (List Char) := do
  let start ← m.position? span.start
  let part : Span := ⟨span.start, min span.stop (m.lineSpan start.line).stop⟩
  let previous ←
    if start.line ≤ 1 then some [] else (m.numbered? (start.line - 1)).map (· ++ ['\n'])
  let target ← if colour then m.coloured? start.line part else m.numbered? start.line
  let stop ← m.position? part.stop
  some (previous ++ target ++ ['\n'] ++ underline start.column stop.column ++ ['\n'])

end LineTable

end NumberedScore.Text
