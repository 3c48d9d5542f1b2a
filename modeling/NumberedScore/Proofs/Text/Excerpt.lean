/-
What an excerpt shows.

A place on one line cuts a text into five: the lines above, the line up to the place, the
place itself, the rest of the line, and the lines below.  All that an excerpt needs lies
at the ends of these parts: the extent of the line is looked up there (`lineSpan_number`),
and so is that of the line above, which is the last of the lines above.  So nothing is cut
inside a character, and an excerpt that starts at the place is drawn (`excerpt?_cutout`).

How far the span reaches behind its line plays no part, since it is cut off at its end.  So a
span has an excerpt if the text can be cut at its start, and at its end if this is on the same
line (`LineTable.excerpt?_of_span`).
-/
import NumberedScore.Proofs.Text.LineTable
import NumberedScore.Proofs.Text.Position
import NumberedScore.Text.Excerpt

namespace NumberedScore.Text

theorem LineTable.numbered?_of_slice? {text part : List Char} {line : Nat}
    (h : slice? text ((ofText text).lineSpan line) = some part) :
    (ofText text).numbered? line = some (gutter line ++ part) := by
  rw [numbered?]
  show Option.map _ (slice? text _) = _
  rw [h]
  rfl

/-- A text, cut up around a place on one of its lines. -/
structure Cutout where
  /-- The lines above, with the line break behind each of them. -/
  above : List Char
  left : List Char
  part : List Char
  right : List Char
  /-- The line break behind the line, and the lines below. -/
  below : List Char
  unbroken : '\n' ∉ left ++ (part ++ right)
  begins : above = [] ∨ ∃ s, above = s ++ ['\n']
  ends : below = [] ∨ ∃ s, below = '\n' :: s

namespace Cutout

/-- The line that the place is on. -/
def line (c : Cutout) : List Char := c.left ++ (c.part ++ c.right)

/-- The text that was cut up. -/
def text (c : Cutout) : List Char := c.above ++ (c.line ++ c.below)

/-- The number of the line. -/
def number (c : Cutout) : Nat := c.above.count '\n' + 1

/-- The bytes of the place. -/
def span (c : Cutout) : Span where
  start := byteSize (c.above ++ c.left)
  stop := byteSize (c.above ++ c.left) + byteSize c.part

/-- The line before, as it is shown. -/
def shownAbove (c : Cutout) : List Char :=
  if c.above = [] then []
  else gutter (c.above.count '\n') ++ lastLine c.above.dropLast ++ ['\n']

/-- The line, as it is shown. -/
def shown (c : Cutout) (colour : Bool) : List Char :=
  if colour then
    red ++ gutter c.number ++ plain ++ c.left ++ red ++ c.part ++ plain ++ c.right
  else gutter c.number ++ c.line

/-- The carets below the line, as far as the place reaches. -/
def carets (c : Cutout) : List Char :=
  List.replicate (5 + c.left.length) ' ' ++ List.replicate (max 1 c.part.length) '^'

/-- The excerpt. -/
def drawn (c : Cutout) (colour : Bool) : List Char :=
  c.shownAbove ++ c.shown colour ++ ['\n'] ++ c.carets ++ ['\n']

/-! ### Cutting up a text -/

/-- A place with no line break in it can be cut out. -/
theorem exists_cutout {part : List Char} (h : '\n' ∉ part) (before after : List Char) :
    ∃ c : Cutout, c.text = before ++ (part ++ after) ∧ c.part = part ∧
      c.above ++ c.left = before := by
  obtain ⟨above, hbefore, habove⟩ := exists_above before
  have hright : '\n' ∉ after.takeWhile (· ≠ '\n') := by
    intro hmem
    simpa using List.mem_takeWhile_imp hmem
  have hafter := List.takeWhile_append_dropWhile (p := (· ≠ '\n')) (l := after)
  have hends : after.dropWhile (· ≠ '\n') = [] ∨ ∃ s, after.dropWhile (· ≠ '\n') = '\n' :: s := by
    cases hbelow : after.dropWhile (· ≠ '\n') with
    | nil => exact .inl rfl
    | cons c s =>
        have hstop := List.head?_dropWhile_not (· ≠ '\n') after
        rw [hbelow] at hstop
        obtain rfl : c = '\n' := by simpa using hstop
        exact .inr ⟨s, rfl⟩
  let c : Cutout :=
    { above
      left := lastLine before
      part
      right := after.takeWhile (· ≠ '\n')
      below := after.dropWhile (· ≠ '\n')
      unbroken := by simp only [List.mem_append, notMem_lastLine, h, hright, or_self, not_false_iff]
      begins := habove
      ends := hends }
  refine ⟨c, ?_, rfl, hbefore.symm⟩
  show above ++ (lastLine before ++ (part ++ after.takeWhile _) ++ after.dropWhile _) = _
  conv_rhs => rw [hbefore, ← hafter]
  simp only [List.append_assoc]

variable (c : Cutout)

/-! ### The line -/

/-- The line lies where its text does. -/
theorem lineSpan_number : (LineTable.ofText c.text).lineSpan c.number
    = ⟨byteSize c.above, byteSize c.above + byteSize c.line⟩ := by
  have hline : c.line.count '\n' = 0 := List.count_eq_zero.2 c.unbroken
  have hcount : c.above.count '\n' = (c.above ++ c.line).count '\n' := by
    rw [List.count_append, hline, Nat.add_zero]
  have hbreak : (LineTable.ofText c.text).breaks[c.above.count '\n']?.getD (byteSize c.text)
      = byteSize c.above + byteSize c.line := by
    rw [text, hcount, ← List.append_assoc, ← byteSize_append]
    rcases c.ends with hnil | ⟨s, hbelow⟩
    · have hlast : (LineTable.ofText (c.above ++ c.line)).breaks[(c.above ++ c.line).count '\n']?
          = none := by
        refine List.getElem?_eq_none ?_
        show (breaksFrom 0 (c.above ++ c.line)).length ≤ _
        rw [length_breaksFrom]
      rw [hnil, List.append_nil, hlast]
      rfl
    · rw [hbelow, LineTable.breaks_getElem?]
      rfl
  rw [number, LineTable.lineSpan]
  exact congrArg₂ Span.mk (LineTable.lineStart_of_lastLine _ c.begins) hbreak

theorem slice?_line :
    slice? c.text ((LineTable.ofText c.text).lineSpan c.number) = some c.line := by
  rw [lineSpan_number]
  exact slice?_byteSize c.above c.line c.below

/-- The line above is the last of the lines above. -/
theorem slice?_above {s : List Char} (h : c.above = s ++ ['\n']) :
    slice? c.text ((LineTable.ofText c.text).lineSpan (c.number - 1)) = some (lastLine s) := by
  obtain ⟨upper, hs, hupper⟩ := exists_above s
  have hcount : upper.count '\n' + 1 = c.above.count '\n' := by
    rw [h, hs]
    simp [List.count_eq_zero.2 (notMem_lastLine s)]
  let higher : Cutout :=
    { above := upper
      left := lastLine s
      part := []
      right := []
      below := '\n' :: (c.line ++ c.below)
      unbroken := by simpa using notMem_lastLine s
      begins := hupper
      ends := .inr ⟨_, rfl⟩ }
  have hline : higher.line = lastLine s := List.append_nil _
  have htext : higher.text = c.text := by
    show upper ++ (higher.line ++ _) = c.above ++ _
    rw [hline, h, List.append_assoc, List.singleton_append, ← List.append_assoc, ← hs]
  have hslice := higher.slice?_line
  rw [htext, hline] at hslice
  rw [number, Nat.add_sub_cancel, ← hcount]
  exact hslice

/-- The line before is shown if there is one. -/
theorem shownAbove_cases :
    c.number = 1 ∧ c.shownAbove = [] ∨
      1 < c.number ∧ ∃ line,
        slice? c.text ((LineTable.ofText c.text).lineSpan (c.number - 1)) = some line ∧
        c.shownAbove = gutter (c.number - 1) ++ line ++ ['\n'] := by
  rcases c.begins with hnil | ⟨s, habove⟩
  · exact .inl ⟨by simp [number, hnil], if_pos hnil⟩
  · refine .inr ⟨by simp [number, habove], lastLine s, slice?_above c habove, ?_⟩
    rw [shownAbove, if_neg (by simp [habove]), number, Nat.add_sub_cancel, habove,
      List.dropLast_concat]

/-! ### The place -/

theorem slice?_left :
    slice? c.text ⟨byteSize c.above, byteSize (c.above ++ c.left)⟩ = some c.left := by
  have hslice := slice?_byteSize c.above c.left (c.part ++ c.right ++ c.below)
  have htext : c.above ++ (c.left ++ (c.part ++ c.right ++ c.below)) = c.text := by
    simp only [text, line, List.append_assoc]
  rwa [htext, ← byteSize_append] at hslice

theorem slice?_part : slice? c.text c.span = some c.part := by
  have hslice := slice?_byteSize (c.above ++ c.left) c.part (c.right ++ c.below)
  have htext : c.above ++ c.left ++ (c.part ++ (c.right ++ c.below)) = c.text := by
    simp only [text, line, List.append_assoc]
  rwa [htext] at hslice

theorem slice?_right :
    slice? c.text ⟨c.span.stop, byteSize c.above + byteSize c.line⟩ = some c.right := by
  have hslice := slice?_byteSize (c.above ++ c.left ++ c.part) c.right c.below
  have htext : c.above ++ c.left ++ c.part ++ (c.right ++ c.below) = c.text := by
    simp only [text, line, List.append_assoc]
  have hstop : byteSize (c.above ++ c.left ++ c.part) = c.span.stop := byteSize_append ..
  have hend : c.span.stop + byteSize c.right = byteSize c.above + byteSize c.line := by
    simp only [span, line, byteSize_append, Nat.add_assoc]
  rwa [htext, hstop, hend] at hslice

theorem coloured?_number :
    (LineTable.ofText c.text).coloured? c.number c.span = some (c.shown true) := by
  unfold LineTable.coloured?
  rw [lineSpan_number]
  show (do
    let before ← slice? c.text ⟨byteSize c.above, byteSize (c.above ++ c.left)⟩
    let marked ← slice? c.text c.span
    let after ← slice? c.text ⟨c.span.stop, byteSize c.above + byteSize c.line⟩
    some (red ++ gutter c.number ++ plain ++ before ++ red ++ marked ++ plain ++ after)) = _
  rw [slice?_left, slice?_part, slice?_right]
  rfl

/-- The position of something on the line. -/
theorem endPosition_onLine {s : List Char} (h : '\n' ∉ s) :
    endPosition (c.above ++ s) = ⟨c.number, s.length + 1⟩ := by
  have hlast : lastLine c.above = [] := by
    rcases c.begins with hnil | ⟨above, habove⟩
    · rw [hnil]
      rfl
    · rw [habove]
      exact lastLine_concat above
  rw [endPosition, List.count_append, List.count_eq_zero.2 h, lastLine_append, if_neg h, hlast]
  rfl

theorem notMem_left : '\n' ∉ c.left := fun hmem => c.unbroken (List.mem_append_left _ hmem)

theorem text_eq_before : c.above ++ c.left ++ (c.part ++ c.right ++ c.below) = c.text := by
  simp only [text, line, List.append_assoc]

theorem position?_start : (LineTable.ofText c.text).position? c.span.start
    = some ⟨c.number, c.left.length + 1⟩ := by
  have hposition := LineTable.position?_byteSize (c.above ++ c.left) (c.part ++ c.right ++ c.below)
  rwa [text_eq_before, endPosition_onLine c c.notMem_left] at hposition

theorem position?_stop : (LineTable.ofText c.text).position? c.span.stop
    = some ⟨c.number, c.left.length + c.part.length + 1⟩ := by
  have hbreak : '\n' ∉ c.left ++ c.part := by
    intro hmem
    refine c.unbroken ?_
    rw [← List.append_assoc]
    exact List.mem_append_left _ hmem
  have hposition :=
    LineTable.position?_byteSize (c.above ++ (c.left ++ c.part)) (c.right ++ c.below)
  have htext : c.above ++ (c.left ++ c.part) ++ (c.right ++ c.below) = c.text := by
    simp only [text, line, List.append_assoc]
  have hstop : byteSize (c.above ++ (c.left ++ c.part)) = c.span.stop := by
    rw [← List.append_assoc, byteSize_append]
    rfl
  rwa [htext, hstop, endPosition_onLine c hbreak, List.length_append] at hposition

/-- **An excerpt from a place is drawn, and shows the place.** -/
theorem excerpt?_cutout {stop : Nat}
    (h : min stop (byteSize c.above + byteSize c.line) = c.span.stop) (colour : Bool) :
    (LineTable.ofText c.text).excerpt? ⟨c.span.start, stop⟩ colour = some (c.drawn colour) := by
  have hcoloured : (LineTable.ofText c.text).coloured? c.number ⟨c.span.start, c.span.stop⟩
      = some (c.shown true) := coloured?_number c
  have hcarets : LineTable.underline (c.left.length + 1) (c.left.length + c.part.length + 1)
      = c.carets := by
    unfold LineTable.underline carets
    congr 2
    omega
  unfold LineTable.excerpt?
  simp only [position?_start, lineSpan_number, h, position?_stop, hcarets, hcoloured,
    LineTable.numbered?_of_slice? c.slice?_line, Option.bind_eq_bind, Option.bind_some]
  rcases c.shownAbove_cases with ⟨hfirst, hshown⟩ | ⟨hlater, line, hline, hshown⟩
  · rw [if_pos hfirst.le, drawn, hshown]
    cases colour <;> rfl
  · rw [if_neg hlater.not_ge, LineTable.numbered?_of_slice? hline, drawn, hshown]
    cases colour <;> rfl

/-- The span of a place does not go on behind its line. -/
theorem excerpt?_place (colour : Bool) :
    (LineTable.ofText c.text).excerpt? c.span colour = some (c.drawn colour) := by
  have hwithin : c.span.stop ≤ byteSize c.above + byteSize c.line := by
    simp only [span, line, byteSize_append]
    omega
  exact excerpt?_cutout c (Nat.min_eq_left hwithin) colour

/-! ### Spans -/

theorem count_before : (c.above ++ c.left).count '\n' + 1 = c.number := by
  rw [List.count_append, List.count_eq_zero.2 c.notMem_left]
  rfl

/-- An offset lies on the line of its place. -/
theorem lineAt_start : (LineTable.ofText c.text).lineAt c.span.start = c.number := by
  have hline := LineTable.lineAt_byteSize (c.above ++ c.left) (c.part ++ c.right ++ c.below)
  rwa [text_eq_before, count_before] at hline

/-- From a place with nothing in it, a part of its line can be cut out instead. -/
theorem exists_widened {stop : Nat} (hpart : c.part = []) (hstart : c.span.start ≤ stop)
    (hstop : stop ≤ byteSize c.above + byteSize c.line) (hcut : ¬ Misses c.text stop) :
    ∃ d : Cutout, d.text = c.text ∧ d.above = c.above ∧ d.line = c.line ∧
      d.span = ⟨c.span.start, stop⟩ := by
  obtain ⟨front, back, hfront, rfl⟩ := exists_append_of_not_misses hcut
  have htext : c.above ++ c.left ++ (c.right ++ c.below) = front ++ back := by
    rw [← hfront, text, line, hpart, List.nil_append, List.append_assoc, List.append_assoc]
  obtain ⟨part, rfl, hafter⟩ := exists_append_of_byteSize_le htext hstart
  have hwithin : byteSize part ≤ byteSize c.right := by
    simp only [line, hpart, byteSize_append, byteSize_nil] at hstop
    omega
  obtain ⟨right, hright, -⟩ := exists_append_of_byteSize_le hafter.symm hwithin
  have hline : c.left ++ (part ++ right) = c.line := by rw [line, hpart, hright, List.nil_append]
  let d : Cutout := { c with part, right, unbroken := hline ▸ c.unbroken }
  refine ⟨d, ?_, rfl, hline, ?_⟩
  · show c.above ++ (c.left ++ (part ++ right) ++ c.below) = c.text
    rw [hline, text]
  · show Span.mk _ _ = _
    rw [byteSize_append _ part]
    rfl

/-- A span that is in order can be cut out as far as its line goes. -/
theorem exists_cutout_of_span {text : List Char} {span : Span} (hspan : span.start ≤ span.stop)
    (hstart : ¬ Misses text span.start)
    (hstop : ¬ Misses text (min span.stop ((LineTable.ofText text).lineSpan
      ((LineTable.ofText text).lineAt span.start)).stop)) :
    ∃ c : Cutout, c.text = text ∧ c.span.start = span.start ∧
      min span.stop (byteSize c.above + byteSize c.line) = c.span.stop := by
  obtain ⟨before, after, hbefore, hsize⟩ := exists_append_of_not_misses hstart
  obtain ⟨c, htext, hpart, hleft⟩ := exists_cutout List.not_mem_nil before after
  rw [List.nil_append, ← hbefore] at htext
  have hoffset : c.span.start = span.start := by rw [Cutout.span, hleft, hsize]
  subst htext
  rw [← hoffset, lineAt_start, lineSpan_number] at hstop
  have hwithin : c.span.start ≤ byteSize c.above + byteSize c.line := by
    simp only [Cutout.span, line, byteSize_append]
    omega
  obtain ⟨d, htext, habove, hline, hd⟩ :=
    exists_widened c hpart (Nat.le_min.2 ⟨hoffset ▸ hspan, hwithin⟩) (Nat.min_le_right ..) hstop
  refine ⟨d, htext, ?_, ?_⟩
  · rw [hd, hoffset]
  · rw [hd, habove, hline]

end Cutout

namespace LineTable

variable {text : List Char} {span : Span}

/--
**An excerpt shows where a span is.**

The span may end anywhere behind its start, on a later line or behind the text, if it does not
end inside a character of its own line: it is cut off where this line ends.  The line before,
if there is one, and the line stand behind their numbers, and there are as many carets as
characters in what is left of the span, but at least one.  Colour adds four escapes and
changes nothing else.
-/
theorem excerpt?_of_span (hspan : span.start ≤ span.stop) (hstart : ¬ Misses text span.start)
    (hstop : ¬ Misses text
      (min span.stop ((ofText text).lineSpan ((ofText text).lineAt span.start)).stop)) :
    ∃ (p : Position) (previous before part after : List Char),
      (ofText text).locate? span.start = some p ∧
      (p.line = 1 ∧ previous = [] ∨
        1 < p.line ∧ ∃ line, slice? text ((ofText text).lineSpan (p.line - 1)) = some line ∧
          previous = gutter (p.line - 1) ++ line ++ ['\n']) ∧
      slice? text ⟨((ofText text).lineSpan p.line).start, span.start⟩ = some before ∧
      slice? text ⟨span.start, min span.stop ((ofText text).lineSpan p.line).stop⟩ = some part ∧
      slice? text ((ofText text).lineSpan p.line) = some (before ++ part ++ after) ∧
      (ofText text).excerpt? span false = some (previous ++
        (gutter p.line ++ (before ++ part ++ after) ++ ['\n']) ++
        (List.replicate (5 + (p.column - 1)) ' ' ++
          List.replicate (max 1 part.length) '^' ++ ['\n'])) ∧
      (ofText text).excerpt? span true = some (previous ++
        (red ++ gutter p.line ++ plain ++ (before ++ (red ++ part ++ plain) ++ after) ++ ['\n']) ++
        (List.replicate (5 + (p.column - 1)) ' ' ++
          List.replicate (max 1 part.length) '^' ++ ['\n'])) := by
  obtain ⟨start, stop⟩ := span
  obtain ⟨c, rfl, rfl, hend⟩ := Cutout.exists_cutout_of_span hspan hstart hstop
  have hline := c.lineSpan_number
  refine ⟨⟨c.number, c.left.length + 1⟩, c.shownAbove, c.left, c.part, c.right, ?_,
    c.shownAbove_cases, ?_, ?_, ?_, ?_, ?_⟩
  · rw [locate?_eq]
    exact c.position?_start
  · rw [hline]
    exact c.slice?_left
  · rw [hline, hend]
    exact c.slice?_part
  · rw [c.slice?_line, Cutout.line, List.append_assoc]
  · rw [c.excerpt?_cutout hend]
    simp [Cutout.drawn, Cutout.shown, Cutout.carets, Cutout.line]
  · rw [c.excerpt?_cutout hend]
    simp [Cutout.drawn, Cutout.shown, Cutout.carets]

/-- From a character of two bytes on the third line to behind the text. -/
theorem excerpt?_of_span_accented :
    8 ≤ 40 ∧ ¬ Misses accented 8 ∧
      ¬ Misses accented (min 40 ((ofText accented).lineSpan ((ofText accented).lineAt 8)).stop) ∧
      (ofText accented).locate? 8 = some ⟨3, 4⟩ ∧
      (ofText accented).excerpt? ⟨8, 40⟩ false
        = some "   2|\n   3|#5 ï6\n        ^^\n".toList ∧
      (ofText accented).excerpt? ⟨8, 40⟩ true = some
        "   2|\n\x1b[31;1m   3|\x1b[0m#5 \x1b[31;1mï6\x1b[0m\n        ^^\n".toList := by
  have hstart : ¬ Misses accented 8 := not_misses_byteSize "1 2\n\n#5 ".toList "ï6\n".toList
  have hstop : ¬ Misses accented
      (min 40 ((ofText accented).lineSpan ((ofText accented).lineAt 8)).stop) :=
    not_misses_byteSize "1 2\n\n#5 ï6".toList "\n".toList
  obtain ⟨p, previous, before, part, after, hp, hprevious, hbefore, hpart, hline, hplain, hred⟩ :=
    excerpt?_of_span (show Span.start ⟨8, 40⟩ ≤ Span.stop ⟨8, 40⟩ by decide) hstart hstop
  obtain rfl : p = ⟨3, 4⟩ := by
    rw [locate?_eq] at hp
    exact Option.some.inj (hp.symm.trans (by decide))
  obtain rfl : before = "#5 ".toList := Option.some.inj (hbefore.symm.trans (by decide))
  obtain rfl : part = "ï6".toList := Option.some.inj (hpart.symm.trans (by decide))
  obtain rfl : after = [] := by
    have hafter := Option.some.inj (hline.symm.trans (show _ = some "#5 ï6".toList by decide))
    simpa using hafter
  obtain rfl : previous = "   2|\n".toList := by
    rcases hprevious with ⟨hfirst, -⟩ | ⟨-, line, habove, rfl⟩
    · exact absurd hfirst (by decide)
    · obtain rfl : line = [] := Option.some.inj (habove.symm.trans (by decide))
      decide
  exact ⟨by decide, hstart, hstop, hp, hplain.trans (by decide), hred.trans (by decide)⟩

end LineTable

end NumberedScore.Text
