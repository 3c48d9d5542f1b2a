/-
Texts in quotes, as log lines and listings show them.

A quote and a backslash stand behind a backslash.  Tab, line feed, carriage return and
NUL have a letter of their own.  All other characters that would not be recognised between
quotes, because they have no glyph or attach to the character before them, appear as their
code point in hexadecimal.  The rest, ASCII or not, stand for themselves.
-/
import NumberedScore.Text.Attached
import NumberedScore.Text.Glyphless

namespace NumberedScore.Text

/-- The letter behind a backslash that stands for a character, if it has one. -/
def escapeLetter? : Char → Option Char
  | '"' => some '"'
  | '\\' => some '\\'
  | '\x00' => some '0'
  | '\t' => some 't'
  | '\n' => some 'n'
  | '\r' => some 'r'
  | _ => none

/-- A character as it appears between quotes. -/
def quotedChar (c : Char) : List Char :=
  match escapeLetter? c with
  | some letter => ['\\', letter]
  | none =>
    if isGlyphless c || isAttached c then
      ['\\', 'u', '\x7b'] ++ Nat.toDigits 16 c.toNat ++ ['\x7d']
    else [c]

/-- A text in quotes. -/
def quoted (t : List Char) : List Char := '"' :: t.flatMap quotedChar ++ ['"']

end NumberedScore.Text
