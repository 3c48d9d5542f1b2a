/-
Offsets and positions.

An offset has no position exactly if the text cannot be cut there: behind its end, or inside a
character (`Misses`).  Any other offset has before it a beginning of the text, whose line breaks
and last line are its position.  A longer beginning ends further on, so positions stand in the
order of their offsets (`Position.Precedes`).

The line may be counted or searched for.  Every search of an ordered list keeps what is below
the value in front of what it looks at, and the rest behind, so the index it ends with counts
what is below (`index_search`).
-/
import NumberedScore.Proofs.Text.LineTable
import NumberedScore.Text.Search

namespace NumberedScore.Text

/-! ### Searching -/

section

variable {x : Nat} {l : List Nat}

/-- An index with all that is below a value in front of it, and nothing else, counts this. -/
theorem countP_lt_eq {i : Nat} (hi : i ≤ l.length)
    (hbelow : ∀ (j : Nat) (hj : j < l.length), j < i → l[j] < x)
    (habove : ∀ (j : Nat) (hj : j < l.length), i ≤ j → x ≤ l[j]) : l.countP (· < x) = i := by
  have hfront : (l.take i).countP (· < x) = (l.take i).length := by
    refine List.countP_eq_length.2 fun a hmem => ?_
    obtain ⟨j, hj, rfl⟩ := List.mem_take_iff_getElem.1 hmem
    exact decide_eq_true (hbelow j (by omega) (by omega))
  have hback : (l.drop i).countP (· < x) = 0 := by
    refine List.countP_eq_zero.2 fun a hmem => ?_
    obtain ⟨j, hj, rfl⟩ := List.mem_drop_iff_getElem.1 hmem
    simpa using habove (i + j) (Nat.add_comm j i ▸ hj) (Nat.le_add_right i j)
  rw [← List.take_append_drop i l, List.countP_append, hfront, hback, List.length_take]
  omega

/-- What is looked at stays between what is below the value and what is above it. -/
theorem index_searchBetween (hl : l.Pairwise (· < ·)) {low high : Nat} (h : high ≤ l.length)
    (hle : low ≤ high) (hbelow : ∀ (j : Nat) (hj : j < l.length), j < low → l[j] < x)
    (habove : ∀ (j : Nat) (hj : j < l.length), high ≤ j → x < l[j]) :
    (searchBetween x l low high h).index = l.countP (· < x) := by
  have hordered := List.pairwise_iff_getElem.1 hl
  fun_induction searchBetween x l low high h with
  | case1 low high h hlt middle hmiddle hhit =>
      refine (countP_lt_eq hmiddle.le ?_ ?_).symm
      · intro j hj hlow
        exact hhit ▸ hordered j middle hj hmiddle hlow
      · intro j hj hhigh
        rcases hhigh.eq_or_lt with rfl | hhigh
        · exact hhit.ge
        · exact hhit ▸ (hordered middle j hmiddle hj hhigh).le
  | case2 low high h hlt middle hmiddle hmiss hsmall ih =>
      have hbetween : low ≤ middle ∧ middle < high := by omega
      refine ih hbetween.2 ?_ habove
      intro j hj hlow
      rcases (Nat.le_of_lt_succ hlow).eq_or_lt with rfl | hlow
      · exact hsmall
      · exact (hordered j middle hj hmiddle hlow).trans hsmall
  | case3 low high h hlt middle hmiddle hmiss hlarge ih =>
      have hbetween : low ≤ middle ∧ middle < high := by omega
      refine ih hbetween.1 hbelow ?_
      intro j hj hhigh
      have hmore : x < l[middle] := lt_of_le_of_ne (not_lt.1 hlarge) (Ne.symm hmiss)
      rcases hhigh.eq_or_lt with rfl | hhigh
      · exact hmore
      · exact hmore.trans (hordered middle j hmiddle hj hhigh)
  | case4 low high h hdone =>
      obtain rfl : low = high := hle.antisymm (not_lt.1 hdone)
      exact (countP_lt_eq h hbelow fun j hj hhigh => (habove j hj hhigh).le).symm

/-- **A search of an ordered list counts what is below the value, hit or miss.** -/
theorem index_search (hl : l.Pairwise (· < ·)) : (search x l).index = l.countP (· < x) :=
  index_searchBetween hl l.length.le_refl l.length.zero_le
    (fun _ _ hlow => absurd hlow (Nat.not_lt_zero _)) fun _ hj hhigh => absurd hj hhigh.not_gt

end

theorem pairwise_breaksFrom (offset : Nat) (s : List Char) :
    (breaksFrom offset s).Pairwise (· < ·) := by
  induction s generalizing offset with
  | nil => exact List.Pairwise.nil
  | cons c s ih =>
      have hpos := c.utf8Size_pos
      rw [breaksFrom]
      split
      · refine List.pairwise_cons.2 ⟨fun b hmem => ?_, ih _⟩
        have := (breaksFrom_bounds b hmem).1
        omega
      · exact ih _

/-! ### Offsets that miss -/

/-- Whether a text cannot be cut at an offset: it is behind the end or inside a character. -/
def Misses (t : List Char) (offset : Nat) : Prop :=
  byteSize t < offset ∨
    ∃ before c after, t = before ++ c :: after ∧
      byteSize before < offset ∧ offset < byteSize before + c.utf8Size

theorem cut?_eq_none_iff {n : Nat} {t : List Char} : cut? n t = none ↔ Misses t n := by
  constructor
  · intro h
    induction t generalizing n with
    | nil =>
        cases n with
        | zero => exact absurd h (by simp [cut?])
        | succ n => exact .inl (Nat.succ_pos n)
    | cons c t ih =>
        cases n with
        | zero => exact absurd h (by simp [cut?])
        | succ n =>
            by_cases hle : c.utf8Size ≤ n + 1
            · rw [cut?, if_pos hle, Option.map_eq_none_iff] at h
              rcases ih h with hend | ⟨before, d, after, rfl, hlow, hhigh⟩
              · exact .inl (by rw [byteSize_cons]; omega)
              · refine .inr ⟨c :: before, d, after, rfl, ?_, ?_⟩ <;> rw [byteSize_cons] <;> omega
            · exact .inr ⟨[], c, t, rfl, Nat.succ_pos n, by rw [byteSize_nil]; omega⟩
  · intro h
    refine Option.eq_none_iff_forall_ne_some.2 ?_
    rintro ⟨front, back⟩ hcut
    obtain ⟨rfl, rfl⟩ := eq_append_of_cut? hcut
    rcases h with hend | ⟨before, c, after, htext, hlow, hhigh⟩
    · rw [byteSize_append] at hend
      omega
    · -- one of the two beginnings of the text goes on with the other
      rcases List.append_eq_append_iff.1 htext with ⟨s, rfl, -⟩ | ⟨s, rfl, hback⟩
      · rw [byteSize_append] at hlow
        omega
      · cases s with
        | nil => simp at hlow
        | cons d s =>
            obtain ⟨rfl, -⟩ := List.cons.inj hback
            rw [byteSize_append, byteSize_cons] at hhigh
            omega

/-- Where a text can be cut, it has a beginning. -/
theorem exists_append_of_not_misses {t : List Char} {offset : Nat} (h : ¬ Misses t offset) :
    ∃ before after, t = before ++ after ∧ byteSize before = offset := by
  rw [← cut?_eq_none_iff, Option.eq_none_iff_forall_ne_some, not_forall] at h
  obtain ⟨⟨before, after⟩, hcut⟩ := h
  exact ⟨before, after, eq_append_of_cut? (not_ne_iff.1 hcut)⟩

/-- Of two beginnings of a text the longer one goes on with what follows the shorter one. -/
theorem exists_append_of_byteSize_le {s s' t t' : List Char} (h : s ++ s' = t ++ t')
    (hle : byteSize s ≤ byteSize t) : ∃ more, t = s ++ more ∧ s' = more ++ t' := by
  rcases List.append_eq_append_iff.1 h with hmore | ⟨more, rfl, rfl⟩
  · exact hmore
  · rw [byteSize_append] at hle
    obtain rfl : more = [] := eq_nil_of_byteSize_eq_zero (by omega)
    exact ⟨[], by simp, rfl⟩

theorem not_misses_byteSize (before after : List Char) :
    ¬ Misses (before ++ after) (byteSize before) := by
  rw [← cut?_eq_none_iff, cut?_byteSize]
  exact Option.some_ne_none _

/-- What is cut out of a text ends where the text can be cut. -/
theorem not_misses_of_slice? {t part : List Char} {span : Span} (h : slice? t span = some part) :
    ¬ Misses t span.stop := by
  unfold slice? at h
  split at h
  · next hle =>
      obtain ⟨⟨before, rest⟩, hcut, h⟩ := Option.bind_eq_some_iff.1 h
      obtain ⟨⟨part', after⟩, hcut', -⟩ := Option.bind_eq_some_iff.1 h
      obtain ⟨rfl, hbefore⟩ := eq_append_of_cut? hcut
      obtain ⟨rfl, hpart⟩ := eq_append_of_cut? hcut'
      have hstop : byteSize (before ++ part') = span.stop := by
        rw [byteSize_append]
        omega
      rw [← hstop, ← List.append_assoc]
      exact not_misses_byteSize (before ++ part') after
  · exact absurd h (by simp)

/-! ### The order of positions -/

/-- Positions in the order of reading: by lines, and on a line by columns. -/
def Position.Precedes (p q : Position) : Prop :=
  p.line < q.line ∨ p.line = q.line ∧ p.column < q.column

instance (p q : Position) : Decidable (p.Precedes q) :=
  inferInstanceAs (Decidable (p.line < q.line ∨ p.line = q.line ∧ p.column < q.column))

/-- More text ends further on. -/
theorem endPosition_precedes (s : List Char) {t : List Char} (ht : t ≠ []) :
    (endPosition s).Precedes (endPosition (s ++ t)) := by
  rw [endPosition_append]
  by_cases hmem : '\n' ∈ t
  · have hlines := List.count_pos_iff.2 hmem
    refine .inl ?_
    show s.count '\n' + 1 < t.count '\n' + 1 + s.count '\n'
    omega
  · have hlines : t.count '\n' = 0 := List.count_eq_zero.2 hmem
    have hline : (endPosition t).line = 1 := by rw [endPosition, hlines]
    have hcolumn : (endPosition t).column = t.length + 1 := by
      have hlast := lastLine_append [] t
      rw [List.nil_append, if_neg hmem] at hlast
      rw [endPosition, hlast]
      rfl
    have hpos := List.length_pos_of_ne_nil ht
    refine .inr ⟨?_, ?_⟩
    · show s.count '\n' + 1 = (endPosition t).line + s.count '\n'
      omega
    · show (lastLine s).length + 1 < if (endPosition t).line = 1 then _ else _
      rw [if_pos hline, hcolumn]
      omega

/-! ### Positions of offsets -/

namespace LineTable

/-- A line that is searched for is the line that is counted. -/
theorem lineFound_eq (text : List Char) (offset : Nat) :
    (ofText text).lineFound offset = (ofText text).lineAt offset :=
  congrArg (· + 1) (index_search (pairwise_breaksFrom 0 text))

theorem locate?_eq (text : List Char) (offset : Nat) :
    (ofText text).locate? offset = (ofText text).position? offset := by
  rw [locate?, position?, lineFound_eq]

theorem position?_eq_none_iff {text : List Char} {offset : Nat} :
    (ofText text).position? offset = none ↔ Misses text offset := by
  constructor
  · intro h
    by_contra hcut
    obtain ⟨before, after, rfl, rfl⟩ := exists_append_of_not_misses hcut
    rw [position?_byteSize] at h
    exact absurd h (Option.some_ne_none _)
  · intro h
    refine Option.map_eq_none_iff.2 (Option.eq_none_iff_forall_ne_some.2 fun part hpart => ?_)
    exact not_misses_of_slice? hpart h

/-- An offset with a position has the beginning of the text before it. -/
theorem exists_append_of_position? {text : List Char} {offset : Nat} {p : Position}
    (h : (ofText text).position? offset = some p) :
    ∃ before after, text = before ++ after ∧ byteSize before = offset ∧ p = endPosition before := by
  have hcut : ¬ Misses text offset := by
    rw [← position?_eq_none_iff, h]
    exact Option.some_ne_none p
  obtain ⟨before, after, rfl, rfl⟩ := exists_append_of_not_misses hcut
  rw [position?_byteSize] at h
  exact ⟨before, after, rfl, rfl, (Option.some.inj h).symm⟩

theorem position?_precedes {text : List Char} {a b : Nat} {p q : Position} (hab : a < b)
    (hp : (ofText text).position? a = some p) (hq : (ofText text).position? b = some q) :
    p.Precedes q := by
  obtain ⟨s, s', rfl, rfl, rfl⟩ := exists_append_of_position? hp
  obtain ⟨t, t', htext, rfl, rfl⟩ := exists_append_of_position? hq
  rcases List.append_eq_append_iff.1 htext with ⟨more, rfl, -⟩ | ⟨more, rfl, -⟩
  · refine endPosition_precedes s ?_
    rintro rfl
    simp at hab
  · rw [byteSize_append] at hab
    omega

/--
**An offset is located by the beginning of the text before it.**

It has no position behind the end and inside a character.  Anywhere else its line counts the
line breaks in front of it, its column the characters behind the last of them, and offsets
further on have later positions.  Counting the breaks locates it at the same place.
-/
theorem locate?_by_beginning (text : List Char) :
    (∀ offset, (ofText text).locate? offset = none ↔ Misses text offset) ∧
    (∀ offset, ¬ Misses text offset → ∃ before, slice? text ⟨0, offset⟩ = some before ∧
      (ofText text).locate? offset = some
        { line := 1 + before.count '\n'
          column := 1 + (before.rtakeWhile (· ≠ '\n')).length }) ∧
    (∀ a b p q, a < b → (ofText text).locate? a = some p → (ofText text).locate? b = some q →
      p.Precedes q) ∧
    ∀ offset, (ofText text).position? offset = (ofText text).locate? offset := by
  refine ⟨fun offset => ?_, fun offset hcut => ?_, fun a b p q hab hp hq => ?_,
    fun offset => (locate?_eq text offset).symm⟩
  · rw [locate?_eq]
    exact position?_eq_none_iff
  · obtain ⟨before, after, rfl, rfl⟩ := exists_append_of_not_misses hcut
    have hslice := slice?_byteSize [] before after
    rw [byteSize_nil, Nat.zero_add] at hslice
    refine ⟨before, hslice, ?_⟩
    rw [locate?_eq, position?_byteSize, endPosition, Nat.add_comm,
      Nat.add_comm (lastLine before).length]
    rfl
  · rw [locate?_eq] at hp hq
    exact position?_precedes hab hp hq

/-- Four lines, two of them empty, and a character of two bytes. -/
def accented : List Char := "1 2\n\n#5 ï6\n".toList

/-- Of the two bytes of a character only the first has a position, and so has the text's end. -/
theorem locate?_by_beginning_accented :
    Misses accented 9 ∧ Misses accented 13 ∧ ¬ Misses accented 12 ∧
      (ofText accented).locate? 8 = some ⟨3, 4⟩ ∧ (ofText accented).locate? 12 = some ⟨4, 1⟩ ∧
      Position.Precedes ⟨3, 4⟩ ⟨4, 1⟩ := by
  obtain ⟨hmisses, -, hprecedes, hsame⟩ := locate?_by_beginning accented
  have hin : (ofText accented).locate? 8 = some ⟨3, 4⟩ := (hsame 8).symm.trans (by decide)
  have hend : (ofText accented).locate? 12 = some ⟨4, 1⟩ := (hsame 12).symm.trans (by decide)
  have hcut : ¬ Misses accented 12 := by
    rw [← hmisses, hend]
    exact Option.some_ne_none _
  exact ⟨(hmisses 9).1 ((hsame 9).symm.trans (by decide)),
    (hmisses 13).1 ((hsame 13).symm.trans (by decide)), hcut, hin, hend,
    hprecedes 8 12 _ _ (by decide) hin hend⟩

end LineTable

end NumberedScore.Text
