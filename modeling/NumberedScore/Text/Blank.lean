/-
Blank characters: the Unicode property White_Space, 25 characters in ten ranges.

Core's own whitespace test knows four characters only.  The table extends it
(`isBlank_of_isWhitespace`) and has held these characters since Unicode 6.3.
-/

namespace NumberedScore.Text

/-- Whether a code point lies in one of the closed ranges. -/
def inRanges (ranges : List (Nat × Nat)) (n : Nat) : Bool :=
  ranges.any fun r => r.1 ≤ n && n ≤ r.2

/-- The ranges of White_Space, ascending and apart. -/
def blankRanges : List (Nat × Nat) :=
  [(0x09, 0x0D), (0x20, 0x20), (0x85, 0x85), (0xA0, 0xA0), (0x1680, 0x1680),
   (0x2000, 0x200A), (0x2028, 0x2029), (0x202F, 0x202F), (0x205F, 0x205F), (0x3000, 0x3000)]

/-- Whether a character only separates tokens. -/
def isBlank (c : Char) : Bool := inRanges blankRanges c.toNat

/-- What core calls whitespace is blank. -/
theorem isBlank_of_isWhitespace {c : Char} (h : c.isWhitespace = true) : isBlank c = true := by
  simp only [Char.isWhitespace, Bool.or_eq_true, decide_eq_true_eq] at h
  rcases h with ((rfl | rfl) | rfl) | rfl <;> decide

end NumberedScore.Text
