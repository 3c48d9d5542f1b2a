/-
Where carets stand.

The carets of an excerpt begin behind five blanks, and one more for each character in front of
what they mark (`indentation_drawn`).  The line above them stands behind its number, in a gutter
of just this width as long as the number has at most four digits (`length_gutter`).  So the
carets for a token are below the token on the lines up to 9999.  From there on the gutter grows
with the number and the blanks do not, and the carets begin too far to the left.
-/
import NumberedScore.Proofs.CommandLine.Run

namespace NumberedScore

open Text

/-! ### Gutters and carets -/

namespace Text

/-- The number of characters in front of the carets, which are the last line of an excerpt. -/
def indentation (excerpt : List Char) : Nat :=
  ((lastLine excerpt.dropLast).takeWhile (· ≠ '^')).length

/-- A gutter has four places for a number, and more only for a number that needs them. -/
theorem length_gutter (line : Nat) :
    (gutter line).length = 5 + ((Decimal.numeral line).length - 4) := by
  simp only [gutter, Decimal.padLeft, List.length_append, List.length_replicate,
    List.length_singleton]
  omega

theorem length_gutter_eq_iff {line : Nat} : (gutter line).length = 5 ↔ line ≤ 9999 := by
  have hdigits : (Decimal.numeral line).length ≤ 4 ↔ line < 10 ^ 4 :=
    Nat.length_toDigits_le_iff (by decide) (by decide)
  rw [length_gutter]
  omega

namespace Cutout

variable (c : Cutout)

theorem notMem_carets : '\n' ∉ c.carets := by
  simp [carets]

theorem indentation_drawn (colour : Bool) : indentation (c.drawn colour) = 5 + c.left.length := by
  have hlast : lastLine (c.drawn colour).dropLast = c.carets := by
    rw [drawn, List.dropLast_concat, lastLine_append, if_neg c.notMem_carets, lastLine_concat,
      List.nil_append]
  have hfirst : (List.replicate (max 1 c.part.length) '^').takeWhile (· ≠ '^') = [] := by
    simp
  rw [indentation, hlast, carets, List.takeWhile_append_of_pos (by simp), hfirst, List.append_nil,
    List.length_replicate]

end Cutout

end Text

/-! ### Carets below tokens -/

namespace Score

variable {source : List Char} {node : Node}

/--
**The carets for a token are below it on the lines up to 9999, and on no others.**

An excerpt ends with the line of the token, behind its number, and the line of its carets.  They
are short of the token by the digits of the number beyond the fourth.
-/
theorem carets_aligned_iff (h : node ∈ ofText source) :
    ∃ (p : Position) (previous before after excerpt : List Char),
      (LineTable.ofText source).locate? node.span.start = some p ∧
      slice? source ⟨((LineTable.ofText source).lineSpan p.line).start, node.span.start⟩
        = some before ∧
      slice? source ((LineTable.ofText source).lineSpan p.line)
        = some (before ++ node.raw ++ after) ∧
      (LineTable.ofText source).excerpt? node.span false = some excerpt ∧
      excerpt = previous ++ (gutter p.line ++ before ++ node.raw ++ after ++ ['\n']) ++
        (List.replicate (5 + before.length) ' ' ++ List.replicate node.raw.length '^' ++ ['\n']) ∧
      (previous = [] ∨ ∃ shown, previous = shown ++ ['\n']) ∧ 0 < node.raw.length ∧
      indentation excerpt + ((Decimal.numeral p.line).length - 4)
        = (gutter p.line ++ before).length ∧
      (indentation excerpt = (gutter p.line ++ before).length ↔ p.line ≤ 9999) := by
  obtain ⟨c, rfl, hraw, hspan, hpos, hdrawn⟩ := excerpt?_of_mem h
  have hline := c.lineSpan_number
  have hgutter := length_gutter c.number
  have haligned : (gutter c.number).length = 5 ↔ c.number ≤ 9999 := length_gutter_eq_iff
  rw [← hspan]
  refine ⟨⟨c.number, c.left.length + 1⟩, c.shownAbove, c.left, c.right, c.drawn false,
    ?_, ?_, ?_, hspan ▸ hdrawn false, ?_, ?_, hpos, ?_, ?_⟩
  · rw [LineTable.locate?_eq]
    exact c.position?_start
  · rw [hline]
    exact c.slice?_left
  · rw [c.slice?_line, Cutout.line, hraw, List.append_assoc]
  · rw [Cutout.drawn, Cutout.carets, hraw, Nat.max_eq_right hpos]
    simp [Cutout.shown, Cutout.line, hraw]
  · rcases c.shownAbove_cases with ⟨-, hnone⟩ | ⟨-, line, -, hshown⟩
    · exact .inl hnone
    · exact .inr ⟨_, hshown⟩
  · rw [c.indentation_drawn, List.length_append, hgutter]
    exact Nat.add_right_comm ..
  · rw [c.indentation_drawn, List.length_append, ← haligned]
    show 5 + _ = (gutter c.number).length + _ ↔ _
    omega

/-- The token begins behind three characters of the third line, and its carets behind eight. -/
theorem carets_aligned_iff_accented :
    ∃ node ∈ ofText LineTable.accented, node.raw = "ï6".toList ∧ ∃ before excerpt,
      slice? LineTable.accented ⟨5, 8⟩ = some before ∧ before.length = 3 ∧
      (LineTable.ofText LineTable.accented).excerpt? node.span false = some excerpt ∧
      3 ≤ 9999 ∧ indentation excerpt = (gutter 3 ++ before).length := by
  have hnode : ∃ node ∈ ofText LineTable.accented,
      node.raw = "ï6".toList ∧ node.span = ⟨8, 11⟩ := by decide +kernel
  obtain ⟨node, hmem, hraw, hspan⟩ := hnode
  obtain ⟨p, -, before, -, excerpt, hp, hbefore, -, hexcerpt, -, -, -, -, haligned⟩ :=
    carets_aligned_iff hmem
  rw [hspan] at hp hbefore
  obtain rfl : p = ⟨3, 4⟩ := by
    rw [LineTable.locate?_eq] at hp
    exact Option.some.inj (hp.symm.trans (by decide))
  obtain rfl : before = "#5 ".toList := Option.some.inj (hbefore.symm.trans (by decide))
  exact ⟨node, hmem, hraw, _, excerpt, hbefore, rfl, hexcerpt, by decide,
    haligned.2 (by decide)⟩

/-! ### A note far down -/

/-- A note on a line of its own, below a number of empty lines. -/
def noteBelow (n : Nat) : List Char := List.replicate n '\n' ++ ['1']

theorem byteSize_breaks (n : Nat) : byteSize (List.replicate n '\n') = n := by
  rw [byteSize_eq_length fun c hmem => ?_, List.length_replicate]
  rw [List.eq_of_mem_replicate hmem]
  decide

theorem tokens_noteBelow (n : Nat) : tokens (noteBelow n) = [⟨['1'], n⟩] := by
  have hblank : ∀ c ∈ List.replicate n '\n', isBlank c = true := by
    intro c hmem
    rw [List.eq_of_mem_replicate hmem]
    decide
  rw [tokens, noteBelow, tokensFrom_append_blanks hblank, byteSize_breaks, Nat.zero_add]
  rfl

/-- The note, cut out of its text. -/
def noteCutout (n : Nat) : Cutout where
  above := List.replicate n '\n'
  left := []
  part := ['1']
  right := []
  below := []
  unbroken := by decide
  begins := by
    cases n with
    | zero => exact .inl rfl
    | succ n => exact .inr ⟨List.replicate n '\n', List.replicate_succ'⟩
  ends := .inl rfl

theorem span_noteCutout (n : Nat) : (noteCutout n).span = ⟨n, n + 1⟩ := by
  show Span.mk (byteSize (List.replicate n '\n' ++ []))
    (byteSize (List.replicate n '\n' ++ []) + 1) = _
  rw [List.append_nil, byteSize_breaks]

theorem number_noteCutout (n : Nat) : (noteCutout n).number = n + 1 := by
  show (List.replicate n '\n').count '\n' + 1 = _
  rw [List.count_replicate_self]

/-- The line above the note is empty. -/
theorem shownAbove_noteCutout (n : Nat) :
    (noteCutout (n + 1)).shownAbove = gutter (n + 1) ++ ['\n'] := by
  have hempty : lastLine (List.replicate n '\n') = [] := by
    cases n with
    | zero => rfl
    | succ n => rw [List.replicate_succ', lastLine_concat]
  show (if List.replicate (n + 1) '\n' = [] then []
    else gutter ((List.replicate (n + 1) '\n').count '\n') ++
      lastLine (List.replicate (n + 1) '\n').dropLast ++ ['\n']) = _
  rw [if_neg (by simp), List.count_replicate_self, List.dropLast_replicate, Nat.add_sub_cancel,
    hempty, List.append_nil]

theorem excerpt?_noteBelow (n : Nat) :
    (LineTable.ofText (noteBelow (n + 1))).excerpt? ⟨n + 1, n + 2⟩ false
      = some (gutter (n + 1) ++ ['\n'] ++ (gutter (n + 2) ++ "1\n     ^\n".toList)) := by
  have hdrawn := (noteCutout (n + 1)).excerpt?_place false
  rw [span_noteCutout, Cutout.drawn, shownAbove_noteCutout] at hdrawn
  refine hdrawn.trans (congrArg some ?_)
  show _ ++ (gutter (noteCutout (n + 1)).number ++ ['1']) ++ ['\n'] ++ "     ^".toList ++ ['\n'] = _
  rw [number_noteCutout]
  simp

/-- On line ten thousand the caret for a note is in front of it, below the end of the gutter. -/
theorem carets_misaligned :
    ∃ node ∈ ofText (noteBelow 9999), node.raw = ['1'] ∧
      (LineTable.ofText (noteBelow 9999)).locate? node.span.start = some ⟨10000, 1⟩ ∧
      (LineTable.ofText (noteBelow 9999)).excerpt? node.span false
        = some "9999|\n10000|1\n     ^\n".toList ∧
      "10000|1".toList = gutter 10000 ++ node.raw ∧
      indentation "9999|\n10000|1\n     ^\n".toList ≠ (gutter 10000).length := by
  have hnode : Node.ofToken (some (LineTable.ofText (noteBelow 9999))) ⟨['1'], 9999⟩
      ∈ ofText (noteBelow 9999) := by
    refine List.mem_map_of_mem ?_
    rw [tokens_noteBelow]
    exact List.mem_singleton_self _
  have hposition := (noteCutout 9999).position?_start
  rw [span_noteCutout, number_noteCutout, ← LineTable.locate?_eq] at hposition
  refine ⟨_, hnode, rfl, hposition, (excerpt?_noteBelow 9998).trans ?_, by decide, by decide⟩
  decide

end Score

end NumberedScore
