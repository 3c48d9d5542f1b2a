/-
Tokens: the runs of characters between blanks.

`tokensFrom` reads a text from its end.  A character that is not blank is put in front of
the first token behind it if that token begins right after it, and is a token of its own
otherwise.  So tokens are maximal, and each knows the byte offset at which it starts.
-/
import NumberedScore.Text.Blank
import NumberedScore.Text.Slice

namespace NumberedScore

open Text

/-- A run of characters found at a byte offset of a text. -/
structure Token where
  text : List Char
  start : Nat
  deriving DecidableEq, Repr, Inhabited

/-- The bytes that a token takes up in its text. -/
def Token.span (t : Token) : Span := ⟨t.start, t.start + byteSize t.text⟩

/-- Put a character found at an offset in front of the tokens behind it. -/
def Token.attach (offset : Nat) (c : Char) : List Token → List Token
  | [] => [⟨[c], offset⟩]
  | t :: later =>
    if t.start = offset + c.utf8Size then ⟨c :: t.text, offset⟩ :: later
    else ⟨[c], offset⟩ :: t :: later

/-- The tokens of a text that starts at the given offset. -/
def tokensFrom (offset : Nat) : List Char → List Token
  | [] => []
  | c :: t =>
    let later := tokensFrom (offset + c.utf8Size) t
    if isBlank c then later else Token.attach offset c later

/-- The tokens of a text, in order. -/
def tokens (t : List Char) : List Token := tokensFrom 0 t

end NumberedScore
