/-
The lines of a text.

The line breaks cut a text into lines, one more than there are breaks.  The span of a line is
looked up at the breaks on either side of it, so between the spans of two lines that follow
each other lies one break and nothing else, and what the spans hold are the pieces that the
text falls into when it is split at its breaks (`slice?_lineSpan`).

An offset is put on a line by the number of breaks before it, without a look at any span.  It
lies in the span of that line all the same (`exists_position`), and in no other, since the
spans are apart (`lineSpan_apart`).
-/
import NumberedScore.Proofs.Text.Excerpt
import NumberedScore.Proofs.Text.Position

namespace NumberedScore.Text

variable {text : List Char}

/-! ### Splitting at the breaks -/

theorem length_splitOn (t : List Char) : (t.splitOn '\n').length = t.count '\n' + 1 := by
  induction t with
  | nil => rfl
  | cons c t ih =>
      rw [List.splitOn_cons_eq_if_modifyHead, List.count_cons]
      split
      · rw [List.length_cons, ih]
      · rw [List.length_modifyHead, ih, Nat.add_zero]

/-- A text has a beginning with any number of its line breaks. -/
theorem exists_beginning {k : Nat} (h : k ≤ text.count '\n') :
    ∃ before after, text = before ++ after ∧ before.count '\n' = k := by
  induction text generalizing k with
  | nil => exact ⟨[], [], rfl, (Nat.le_zero.1 h).symm⟩
  | cons c t ih =>
      cases k with
      | zero => exact ⟨[], c :: t, rfl, rfl⟩
      | succ k =>
          by_cases hbreak : c = '\n'
          · rw [hbreak, List.count_cons_self] at h
            obtain ⟨before, after, rfl, hcount⟩ := ih (Nat.le_of_succ_le_succ h)
            exact ⟨c :: before, after, rfl, by rw [hbreak, List.count_cons_self, hcount]⟩
          · rw [List.count_cons_of_ne hbreak] at h
            obtain ⟨before, after, rfl, hcount⟩ := ih h
            exact ⟨c :: before, after, rfl, by rw [List.count_cons_of_ne hbreak, hcount]⟩

namespace Cutout

variable (c : Cutout)

theorem number_le : c.number ≤ c.text.count '\n' + 1 := by
  rw [text, List.count_append]
  exact Nat.succ_le_succ (Nat.le_add_right ..)

/-- The lines are the pieces that a text is split into at its breaks. -/
theorem splitOn_text : (c.text.splitOn '\n')[c.above.count '\n']? = some c.line := by
  have hline : ∃ later, (c.line ++ c.below).splitOn '\n' = c.line :: later := by
    rcases c.ends with hnil | ⟨s, hbelow⟩
    · rw [hnil, List.append_nil]
      exact ⟨[], List.splitOn_eq_singleton c.unbroken⟩
    · rw [hbelow]
      exact ⟨s.splitOn '\n', List.splitOn_append_cons_self_of_not_mem c.unbroken s⟩
  obtain ⟨later, hlater⟩ := hline
  rcases c.begins with hnil | ⟨s, habove⟩
  · rw [text, hnil, List.nil_append, hlater]
    rfl
  · have hcount : c.above.count '\n' = (s.splitOn '\n').length := by
      rw [length_splitOn, habove, List.count_append]
      rfl
    rw [hcount, text, habove, List.append_assoc, List.singleton_append,
      List.splitOn_append_cons_self, hlater, List.getElem?_append_right (Nat.le_refl _),
      Nat.sub_self]
    rfl

/-- Every line can be cut out. -/
theorem exists_number {k : Nat} (h : k ≤ text.count '\n') :
    ∃ c : Cutout, c.text = text ∧ c.number = k + 1 := by
  obtain ⟨before, after, rfl, hcount⟩ := exists_beginning h
  obtain ⟨c, htext, -, hbefore⟩ := exists_cutout List.not_mem_nil before after
  refine ⟨c, htext, ?_⟩
  rw [← c.count_before, hbefore, hcount]

end Cutout

/-- No break is left in a piece. -/
theorem notMem_of_mem_splitOn {line : List Char} (h : line ∈ text.splitOn '\n') : '\n' ∉ line := by
  obtain ⟨k, hk, rfl⟩ := List.getElem_of_mem h
  rw [length_splitOn] at hk
  obtain ⟨c, rfl, hnumber⟩ := Cutout.exists_number (Nat.le_of_lt_succ hk)
  obtain rfl : c.above.count '\n' = k := Nat.succ.inj hnumber
  have hline : (c.text.splitOn '\n')[c.above.count '\n'] = c.line :=
    List.getElem_of_getElem? c.splitOn_text |>.2
  rw [hline]
  exact c.unbroken

/-! ### Spans of lines -/

namespace LineTable

theorem length_breaks (text : List Char) : (ofText text).breaks.length = text.count '\n' :=
  length_breaksFrom 0 text

theorem stop_lineSpan {k : Nat} (h : k < (ofText text).breaks.length) :
    ((ofText text).lineSpan (k + 1)).stop = (ofText text).breaks[k] := by
  show (ofText text).breaks[k]?.getD _ = _
  rw [List.getElem?_eq_getElem h, Option.getD_some]

theorem start_lineSpan {k : Nat} (h : k < (ofText text).breaks.length) :
    ((ofText text).lineSpan (k + 2)).start = (ofText text).breaks[k] + 1 := by
  show (ofText text).lineStart (k + 2) = _
  rw [lineStart, List.getElem?_eq_getElem h]

theorem stop_lineSpan_last (text : List Char) :
    ((ofText text).lineSpan (text.count '\n' + 1)).stop = byteSize text := by
  show (ofText text).breaks[text.count '\n']?.getD _ = _
  rw [List.getElem?_eq_none (length_breaks text).le]
  rfl

/-- A line ends before any line below it begins. -/
theorem lineSpan_apart {upper lower : Nat} (hupper : 1 ≤ upper) (hlt : upper < lower)
    (hlower : lower ≤ text.count '\n' + 1) :
    ((ofText text).lineSpan upper).stop < ((ofText text).lineSpan lower).start := by
  obtain ⟨i, rfl⟩ : ∃ i, upper = i + 1 := ⟨upper - 1, by omega⟩
  obtain ⟨j, rfl⟩ : ∃ j, lower = j + 2 := ⟨lower - 2, by omega⟩
  have hj : j < (ofText text).breaks.length := by
    rw [length_breaks]
    omega
  have hi : i < (ofText text).breaks.length := by omega
  rw [stop_lineSpan hi, start_lineSpan hj]
  rcases (show i ≤ j by omega).eq_or_lt with rfl | hij
  · exact Nat.lt_succ_self _
  · have hbreaks := List.pairwise_iff_getElem.1 (pairwise_breaksFrom 0 text) i j hi hj hij
    exact Nat.lt_succ_of_lt hbreaks

/-- The spans hold the pieces that the text is split into. -/
theorem slice?_lineSpan {k : Nat} (h : k ≤ text.count '\n') :
    slice? text ((ofText text).lineSpan (k + 1)) = (text.splitOn '\n')[k]? := by
  obtain ⟨c, rfl, hnumber⟩ := Cutout.exists_number h
  obtain rfl : c.above.count '\n' = k := Nat.succ.inj hnumber
  rw [c.splitOn_text]
  exact c.slice?_line

theorem map_slice?_lineSpan (text : List Char) :
    (List.range (text.count '\n' + 1)).map
        (fun k => slice? text ((ofText text).lineSpan (k + 1)))
      = (text.splitOn '\n').map some := by
  refine List.ext_getElem (by simp [length_splitOn]) fun k hk hk' => ?_
  rw [List.length_map] at hk'
  have hle : k ≤ text.count '\n' := by
    rw [length_splitOn] at hk'
    exact Nat.le_of_lt_succ hk'
  rw [List.getElem_map, List.getElem_map, List.getElem_range, slice?_lineSpan hle,
    List.getElem?_eq_getElem hk']

/-! ### Offsets on lines -/

/-- An offset between two characters lies in the span of the line of its position. -/
theorem exists_position {offset : Nat} (h : ¬ Misses text offset) :
    ∃ p, (ofText text).locate? offset = some p ∧ 1 ≤ p.line ∧ p.line ≤ text.count '\n' + 1 ∧
      ((ofText text).lineSpan p.line).start ≤ offset ∧
      offset ≤ ((ofText text).lineSpan p.line).stop := by
  obtain ⟨before, after, rfl, rfl⟩ := exists_append_of_not_misses h
  obtain ⟨c, htext, hpart, hbefore⟩ := Cutout.exists_cutout List.not_mem_nil before after
  rw [List.nil_append] at htext
  have hspan : c.span.start = byteSize before := by rw [Cutout.span, hbefore]
  have hposition := c.position?_start
  rw [hspan, htext, ← locate?_eq] at hposition
  have hline := c.lineSpan_number
  rw [htext] at hline
  refine ⟨_, hposition, Nat.succ_pos _, htext ▸ c.number_le, ?_⟩
  rw [hline]
  simp only [← hbefore, Cutout.line, byteSize_append]
  omega

/--
**The spans of its lines cut a text up, and say which line an offset is on.**

The first begins with the text and the last ends with it, between two that follow each other
lies one line break, and what they hold, put together with line breaks in between, is the
text.  An offset has its position on a line exactly if it lies in the span of the line.
-/
theorem lineSpan_partition (text : List Char) :
    ((ofText text).lineSpan 1).start = 0 ∧
    ((ofText text).lineSpan (text.count '\n' + 1)).stop = byteSize text ∧
    (∀ line, 1 ≤ line → line ≤ text.count '\n' →
      ((ofText text).lineSpan (line + 1)).start = ((ofText text).lineSpan line).stop + 1) ∧
    (∃ lines : List (List Char),
      (List.range (text.count '\n' + 1)).map
          (fun k => slice? text ((ofText text).lineSpan (k + 1))) = lines.map some ∧
      (∀ line ∈ lines, '\n' ∉ line) ∧ ['\n'].intercalate lines = text) ∧
    ∀ offset, ¬ Misses text offset → ∃ p, (ofText text).locate? offset = some p ∧
      ∀ line, 1 ≤ line → line ≤ text.count '\n' + 1 →
        (p.line = line ↔ ((ofText text).lineSpan line).start ≤ offset ∧
          offset ≤ ((ofText text).lineSpan line).stop) := by
  refine ⟨rfl, stop_lineSpan_last text, ?_, ⟨text.splitOn '\n', map_slice?_lineSpan text,
    fun line => notMem_of_mem_splitOn, List.intercalate_splitOn '\n'⟩, ?_⟩
  · intro line hline hle
    obtain ⟨k, rfl⟩ : ∃ k, line = k + 1 := ⟨line - 1, by omega⟩
    have hk : k < (ofText text).breaks.length := by rwa [length_breaks]
    rw [start_lineSpan hk, stop_lineSpan hk]
  · intro offset hcut
    obtain ⟨p, hp, hfirst, hlast, hstart, hstop⟩ := exists_position hcut
    refine ⟨p, hp, fun line hline hle => ⟨?_, ?_⟩⟩
    · rintro rfl
      exact ⟨hstart, hstop⟩
    · rintro ⟨hstart', hstop'⟩
      -- on two lines the offset would be at once behind the upper one and on it
      rcases lt_trichotomy p.line line with hlt | heq | hlt
      · have hapart := lineSpan_apart hfirst hlt hle
        omega
      · exact heq
      · have hapart := lineSpan_apart hline hlt hlast
        omega

/-- The offset of a line break is on the line that it ends, and an empty line has a span too. -/
theorem lineSpan_partition_accented :
    (1 ≤ 2 ∧ 2 ≤ accented.count '\n' ∧
      ((ofText accented).lineSpan 3).start = ((ofText accented).lineSpan 2).stop + 1) ∧
    (∃ lines : List (List Char),
      (List.range 4).map (fun k => slice? accented ((ofText accented).lineSpan (k + 1)))
        = lines.map some ∧
      "#5 ï6".toList ∈ lines ∧ '\n' ∉ "#5 ï6".toList ∧ ['\n'].intercalate lines = accented) ∧
    ¬ Misses accented 11 ∧ ∃ p, (ofText accented).locate? 11 = some p ∧ 1 ≤ 3 ∧
      3 ≤ accented.count '\n' + 1 ∧ ((ofText accented).lineSpan 3).start ≤ 11 ∧
      11 ≤ ((ofText accented).lineSpan 3).stop ∧ p.line = 3 := by
  obtain ⟨-, -, hnext, ⟨lines, hlines, hbreak, hjoined⟩, hoffsets⟩ := lineSpan_partition accented
  have hcut : ¬ Misses accented 11 := not_misses_byteSize "1 2\n\n#5 ï6".toList "\n".toList
  have hmem : "#5 ï6".toList ∈ lines := by
    have hpieces : some "#5 ï6".toList ∈ lines.map some := by
      rw [← hlines]
      decide
    simpa using hpieces
  obtain ⟨p, hp, hline⟩ := hoffsets 11 hcut
  exact ⟨⟨by decide, by decide, hnext 2 (by decide) (by decide)⟩,
    ⟨lines, hlines, hmem, hbreak _ hmem, hjoined⟩, hcut, p, hp, by decide, by decide, by decide,
    by decide, (hline 3 (by decide) (by decide)).2 (by decide)⟩

end LineTable

end NumberedScore.Text
