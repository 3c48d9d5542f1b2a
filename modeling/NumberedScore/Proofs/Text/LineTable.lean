/-
Where the offsets of a text lie.

An offset between two characters of a text is the size of what comes before it, and what
comes before it says all about its position (`position?_byteSize`): the line is counted by
the line breaks, and the column by the characters behind the last of them, which are the
part of the text on its last line (`lastLine`).  They can be cut out, since a line begins
behind a line break or with the text.

When more text is put in front, positions move on with it (`endPosition_append`).
-/
import Mathlib.Data.List.DropRight
import NumberedScore.Text.LineTable

namespace NumberedScore.Text

variable {offset : Nat} {s t : List Char}

/-! ### Line breaks -/

theorem breaksFrom_append :
    breaksFrom offset (s ++ t) = breaksFrom offset s ++ breaksFrom (offset + byteSize s) t := by
  induction s generalizing offset with
  | nil => rfl
  | cons c s ih =>
      rw [List.cons_append, breaksFrom, breaksFrom, ih, byteSize_cons, Nat.add_assoc]
      by_cases hbreak : c = '\n'
      · rw [if_pos hbreak, if_pos hbreak, List.cons_append]
      · rw [if_neg hbreak, if_neg hbreak]

theorem length_breaksFrom (offset : Nat) (s : List Char) :
    (breaksFrom offset s).length = s.count '\n' := by
  induction s generalizing offset with
  | nil => rfl
  | cons c s ih =>
      rw [breaksFrom, List.count_cons, ← ih (offset + c.utf8Size)]
      by_cases hbreak : c = '\n'
      · rw [if_pos hbreak, if_pos (beq_iff_eq.2 hbreak), List.length_cons]
      · rw [if_neg hbreak, if_neg (fun h => hbreak (beq_iff_eq.1 h)), Nat.add_zero]

theorem breaksFrom_bounds :
    ∀ b ∈ breaksFrom offset s, offset ≤ b ∧ b < offset + byteSize s := by
  induction s generalizing offset with
  | nil => exact fun b hmem => absurd hmem List.not_mem_nil
  | cons c s ih =>
      intro b hmem
      have hpos := c.utf8Size_pos
      rw [breaksFrom] at hmem
      rw [byteSize_cons]
      split at hmem
      · rcases List.mem_cons.1 hmem with rfl | hmem
        · omega
        · have := ih b hmem
          omega
      · have := ih b hmem
        omega

/-! ### The last line -/

/-- The part of a text on its last line. -/
def lastLine (t : List Char) : List Char := t.rtakeWhile (· ≠ '\n')

theorem notMem_lastLine (t : List Char) : '\n' ∉ lastLine t := by
  intro hmem
  simpa using List.mem_rtakeWhile_imp hmem

/-- Above its last line a text ends with a line break, if there is anything above. -/
theorem exists_above (t : List Char) :
    ∃ above, t = above ++ lastLine t ∧ (above = [] ∨ ∃ s, above = s ++ ['\n']) := by
  refine ⟨t.rdropWhile (· ≠ '\n'), List.rdropWhile_append_rtakeWhile.symm, ?_⟩
  by_cases hnil : t.rdropWhile (· ≠ '\n') = []
  · exact .inl hnil
  · have hlast : (t.rdropWhile (· ≠ '\n')).getLast hnil = '\n' := by
      by_contra hother
      exact List.rdropWhile_last_not _ t hnil (decide_eq_true hother)
    refine .inr ⟨(t.rdropWhile (· ≠ '\n')).dropLast, ?_⟩
    exact (hlast ▸ List.dropLast_append_getLast hnil).symm

/-- What is put in front of a text is on its last line if that is the first one. -/
theorem lastLine_append (s t : List Char) :
    lastLine (s ++ t) = if '\n' ∈ t then lastLine t else lastLine s ++ t := by
  induction t using List.reverseRecOn with
  | nil => simp
  | append_singleton t c ih =>
      unfold lastLine at ih ⊢
      rw [← List.append_assoc, List.rtakeWhile_concat, List.rtakeWhile_concat, ih]
      by_cases hbreak : c = '\n'
      · simp [hbreak]
      · by_cases hmem : '\n' ∈ t <;> simp [hbreak, hmem, Ne.symm hbreak]

/-- Behind a line break nothing is on the last line. -/
theorem lastLine_concat (s : List Char) : lastLine (s ++ ['\n']) = [] :=
  (List.rtakeWhile_concat ..).trans (by simp)

/-- The position behind a text. -/
def endPosition (t : List Char) : Position where
  line := t.count '\n' + 1
  column := (lastLine t).length + 1

/-- A position, counted from the beginning of a text that is put in front. -/
def Position.behind (before : List Char) (p : Position) : Position where
  line := p.line + before.count '\n'
  column := if p.line = 1 then p.column + (lastLine before).length else p.column

theorem endPosition_append (s t : List Char) :
    endPosition (s ++ t) = (endPosition t).behind s := by
  by_cases hmem : '\n' ∈ t
  · have hline : t.count '\n' ≠ 0 := Nat.ne_of_gt (List.count_pos_iff.2 hmem)
    simp only [endPosition, Position.behind, List.count_append, lastLine_append, if_pos hmem,
      Position.mk.injEq]
    exact ⟨by omega, (if_neg (by omega)).symm⟩
  · have hline : t.count '\n' = 0 := List.count_eq_zero.2 hmem
    have hwhole : lastLine t = t := by
      refine List.rtakeWhile_eq_self_iff.2 fun c hc => decide_eq_true ?_
      rintro rfl
      exact hmem hc
    simp only [endPosition, Position.behind, List.count_append, lastLine_append, if_neg hmem,
      hline, hwhole, List.length_append, Position.mk.injEq]
    exact ⟨by omega, by simp; omega⟩

/-! ### Lines -/

namespace LineTable

/-- An offset lies on the line that the breaks before it count. -/
theorem lineAt_byteSize (before after : List Char) :
    (ofText (before ++ after)).lineAt (byteSize before) = before.count '\n' + 1 := by
  have hbefore : ∀ b ∈ breaksFrom 0 before, b < byteSize before := by
    intro b hmem
    have := breaksFrom_bounds b hmem
    omega
  have hafter : ∀ b ∈ breaksFrom (0 + byteSize before) after, ¬ b < byteSize before := by
    intro b hmem
    have := breaksFrom_bounds b hmem
    omega
  show (breaksFrom 0 (before ++ after)).countP _ + 1 = _
  rw [breaksFrom_append, List.countP_append,
    List.countP_eq_length.2 fun b hmem => decide_eq_true (hbefore b hmem),
    List.countP_eq_zero.2 fun b hmem => by simpa using hafter b hmem, length_breaksFrom,
    Nat.add_zero]

/-- Further on in a text is not further up. -/
theorem lineAt_mono (m : LineTable) {a b : Nat} (h : a ≤ b) : m.lineAt a ≤ m.lineAt b := by
  refine Nat.succ_le_succ (List.countP_mono_left fun offset _ hlt => ?_)
  exact decide_eq_true (Nat.lt_of_lt_of_le (of_decide_eq_true hlt) h)

/-- A line break is looked up by the number of those before it. -/
theorem breaks_getElem? (s after : List Char) :
    (ofText (s ++ '\n' :: after)).breaks[s.count '\n']? = some (byteSize s) := by
  show (breaksFrom 0 (s ++ '\n' :: after))[s.count '\n']? = _
  rw [breaksFrom_append, ← length_breaksFrom 0, List.getElem?_append_right (Nat.le_refl _),
    Nat.sub_self]
  simp [breaksFrom]

/-- A line begins where the text above it ends. -/
theorem lineStart_of_lastLine {above : List Char} (after : List Char)
    (h : above = [] ∨ ∃ s, above = s ++ ['\n']) :
    (ofText (above ++ after)).lineStart (above.count '\n' + 1) = byteSize above := by
  rcases h with rfl | ⟨s, rfl⟩
  · rfl
  · have hcount : (s ++ ['\n']).count '\n' = s.count '\n' + 1 := by simp
    rw [hcount, lineStart, List.append_assoc, List.singleton_append, breaks_getElem?,
      byteSize_append]
    rfl

/-- **Between two characters of a text there is a position.** -/
theorem position?_byteSize (before after : List Char) :
    (ofText (before ++ after)).position? (byteSize before) = some (endPosition before) := by
  obtain ⟨above, hbefore, habove⟩ := exists_above before
  have hcount : before.count '\n' = above.count '\n' := by
    conv_lhs => rw [hbefore]
    rw [List.count_append, List.count_eq_zero.2 (notMem_lastLine before), Nat.add_zero]
  have hslice : slice? (above ++ (lastLine before ++ after))
      ⟨byteSize above, byteSize above + byteSize (lastLine before)⟩ = some (lastLine before) :=
    slice?_byteSize ..
  have htext : before ++ after = above ++ (lastLine before ++ after) := by
    rw [← List.append_assoc, ← hbefore]
  have hsize : byteSize before = byteSize above + byteSize (lastLine before) := by
    rw [← byteSize_append, ← hbefore]
  rw [position?, lineAt_byteSize, hcount]
  show Option.map _ (slice? (before ++ after) ⟨_, _⟩) = _
  rw [htext, lineStart_of_lastLine (lastLine before ++ after) habove, hsize, hslice, endPosition,
    hcount]
  rfl

end LineTable

end NumberedScore.Text
