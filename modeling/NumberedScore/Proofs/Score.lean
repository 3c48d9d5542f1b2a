/-
Writing a score and reading it back.

A written score is made of the canonical tokens of its marks, with one blank between two
of them, so reading it finds these tokens and no others, and finds their marks
(`marks_ofText_text`).  What the text of a score depends on beside its marks is which
nodes stand above the next one, and this survives as well: each node of the score that is
read stands on the line that the writer had got to (`lines_ofText_text`), and the writer
begins a line exactly where a node was above the next.

In a text that is read, a node is never below the next one, so what is not above is on
the same line.
-/
import NumberedScore.Proofs.Text.LineTable
import NumberedScore.Proofs.Token
import NumberedScore.Score

namespace NumberedScore

open Text

/-- The line on which a node stands, if its text is known. -/
def Node.line? (node : Node) : Option Nat := node.position.map (·.line)

namespace Score

/-- Marks that can be written: each of them is the meaning of some token. -/
def Readable (score : Score) : Prop := ∀ node ∈ score, node.mark.Readable

variable {score : Score}

/-! ### Marks -/

/-- What the writer puts behind a node that another one follows. -/
def gap (node next : Node) : Char := if node.isAbove next then '\n' else ' '

theorem text_cons_cons (node next : Node) (rest : Score) :
    text (node :: next :: rest) = node.mark.written ++ gap node next :: text (next :: rest) :=
  rfl

theorem isBlank_gap (node next : Node) : isBlank (gap node next) = true := by
  unfold gap
  split <;> rfl

theorem tokensFrom_text_singleton {node : Node} (h : node.mark.Readable) (offset : Nat) :
    tokensFrom offset (text [node]) = [⟨node.mark.written, offset⟩] := by
  have htoken := tokensFrom_append offset (isWord_written h) (t := [])
    fun c hc => absurd hc (by simp)
  rw [List.append_nil] at htoken
  exact htoken

theorem tokensFrom_text_cons {node : Node} (h : node.mark.Readable) (next : Node) (rest : Score)
    (offset : Nat) : tokensFrom offset (text (node :: next :: rest))
      = ⟨node.mark.written, offset⟩ ::
        tokensFrom (offset + byteSize (node.mark.written ++ [gap node next]))
          (text (next :: rest)) := by
  have hgap : ∀ c ∈ (gap node next :: text (next :: rest)).head?, isBlank c = true := by
    intro c hc
    rw [List.head?_cons, Option.mem_some_iff] at hc
    exact hc ▸ isBlank_gap node next
  rw [text_cons_cons, tokensFrom_append offset (isWord_written h) hgap,
    tokensFrom_cons_blank (isBlank_gap node next), byteSize_append, Nat.add_assoc]
  rfl

/-- The tokens of a written score are those of its marks. -/
theorem texts_tokensFrom_text (h : score.Readable) (offset : Nat) :
    (tokensFrom offset score.text).map (·.text) = score.map (·.mark.written) := by
  induction score generalizing offset with
  | nil => rfl
  | cons node rest ih =>
      obtain ⟨hnode, hrest⟩ := List.forall_mem_cons.1 h
      cases rest with
      | nil => rw [tokensFrom_text_singleton hnode, List.map_singleton, List.map_singleton]
      | cons next rest =>
          rw [tokensFrom_text_cons hnode, List.map_cons, ih hrest, List.map_cons (l := _ :: _)]

theorem marks_ofText_text (h : score.Readable) : (ofText score.text).marks = score.marks := by
  have hmarks : (ofText score.text).marks
      = ((tokens score.text).map (·.text)).map Mark.ofToken := by
    simp only [marks, ofText, List.map_map]
    rfl
  rw [hmarks, tokens, texts_tokensFrom_text h, List.map_map]
  refine List.map_congr_left fun node hmem => ?_
  exact ofToken_written (h node hmem)

/-! ### Lines -/

/-- The lines on which the nodes are written, from a given one on. -/
def linesFrom (line : Nat) : Score → List Nat
  | [] => []
  | [_] => [line]
  | node :: next :: rest =>
    line :: linesFrom (if node.isAbove next then line + 1 else line) (next :: rest)

theorem linesFrom_eq_cons (line : Nat) (node : Node) (rest : Score) :
    ∃ later, linesFrom line (node :: rest) = line :: later := by
  cases rest with
  | nil => exact ⟨[], rfl⟩
  | cons next rest => exact ⟨_, rfl⟩

/-- A token moves the writer on by a line if the gap behind it is a line break. -/
theorem count_written_gap {node : Node} (h : node.mark.Readable) (next : Node) :
    (node.mark.written ++ [gap node next]).count '\n' = if node.isAbove next then 1 else 0 := by
  have hword : '\n' ∉ node.mark.written := by
    intro hmem
    exact absurd ((isWord_written h).2 _ hmem) (by decide)
  rw [List.count_append, List.count_eq_zero.2 hword, Nat.zero_add, gap]
  split <;> rfl

/-- Behind what was written before, the writer is on the line that comes next. -/
theorem lines_tokensFrom_text (h : score.Readable) (before : List Char) :
    (tokensFrom (byteSize before) score.text).map (fun token =>
      ((LineTable.ofText (before ++ score.text)).position? token.start).map (·.line))
      = (linesFrom (before.count '\n' + 1) score).map some := by
  induction score generalizing before with
  | nil => rfl
  | cons node rest ih =>
      obtain ⟨hnode, hrest⟩ := List.forall_mem_cons.1 h
      have hposition := LineTable.position?_byteSize before (text (node :: rest))
      cases rest with
      | nil =>
          rw [tokensFrom_text_singleton hnode, List.map_singleton, hposition]
          rfl
      | cons next rest =>
          -- what was written before grows by this token and the gap behind it
          have hlater := ih hrest (before ++ (node.mark.written ++ [gap node next]))
          have htext : before ++ (node.mark.written ++ [gap node next]) ++ text (next :: rest)
              = before ++ text (node :: next :: rest) := by
            rw [text_cons_cons]
            simp only [List.append_assoc, List.cons_append, List.nil_append]
          rw [htext, byteSize_append, List.count_append, count_written_gap hnode] at hlater
          rw [tokensFrom_text_cons hnode, List.map_cons, hposition, hlater, linesFrom]
          split <;> rfl

/-- **What is written on a line is read on that line.** -/
theorem lines_ofText_text (h : score.Readable) :
    (ofText score.text).map (·.line?) = (linesFrom 1 score).map some := by
  have hlines := lines_tokensFrom_text h []
  rw [List.nil_append] at hlines
  show _ = (linesFrom (List.count '\n' [] + 1) score).map some
  rw [← hlines]
  simp only [ofText, List.map_map]
  rfl

/-! ### Line breaks -/

/-- Which nodes are above the next one. -/
def drops (score : Score) : List Bool := score.zipWith Node.isAbove score.tail

/-- Whether one known line is above another. -/
def lineAbove (upper lower : Option Nat) : Bool :=
  match upper, lower with
  | some p, some q => p < q
  | _, _ => false

theorem drops_eq_zipWith_lines (score : Score) :
    score.drops = (score.map (·.line?)).zipWith lineAbove (score.map (·.line?)).tail := by
  have habove : Node.isAbove = fun upper lower => lineAbove upper.line? lower.line? := by
    funext upper lower
    unfold Node.isAbove Node.line?
    cases upper.position <;> cases lower.position <;> rfl
  rw [drops, habove, ← List.map_tail, List.zipWith_map]

theorem drops_linesFrom (line : Nat) (score : Score) :
    ((linesFrom line score).map some).zipWith lineAbove ((linesFrom line score).map some).tail
      = score.drops := by
  induction score generalizing line with
  | nil => rfl
  | cons node rest ih =>
      cases rest with
      | nil => rfl
      | cons next rest =>
          have hdrops : drops (node :: next :: rest) = node.isAbove next :: drops (next :: rest) :=
            rfl
          have hlater := ih (if node.isAbove next then line + 1 else line)
          obtain ⟨later, hline⟩ :=
            linesFrom_eq_cons (if node.isAbove next then line + 1 else line) next rest
          rw [hdrops, ← hlater, linesFrom, hline]
          show lineAbove (some line) (some _) :: _ = _ :: _
          congr 1
          cases node.isAbove next <;> simp [lineAbove]

/-- A score that is written and read has its line breaks where it had them. -/
theorem drops_ofText_text (h : score.Readable) : (ofText score.text).drops = score.drops := by
  rw [drops_eq_zipWith_lines, lines_ofText_text h, drops_linesFrom]

/-- The marks and the line breaks make the text. -/
theorem text_congr {score score' : Score} (hmarks : score.marks = score'.marks)
    (hdrops : score.drops = score'.drops) : score.text = score'.text := by
  induction score generalizing score' with
  | nil =>
      cases score' with
      | nil => rfl
      | cons node' rest' => simp [marks] at hmarks
  | cons node rest ih =>
      cases score' with
      | nil => simp [marks] at hmarks
      | cons node' rest' =>
          obtain ⟨hhead, hrest⟩ := List.cons.inj hmarks
          have hmark : node.mark = node'.mark := hhead
          cases rest with
          | nil =>
              cases rest' with
              | nil => simp only [text, hmark]
              | cons next' rest' => simp at hrest
          | cons next rest =>
              cases rest' with
              | nil => simp at hrest
              | cons next' rest' =>
                  obtain ⟨habove, hlater⟩ := List.cons.inj hdrops
                  rw [text_cons_cons, text_cons_cons, gap, gap, hmark, habove, ih hrest hlater]

/-! ### Reading what was read -/

theorem readable_ofText (x : List Char) : (ofText x).Readable := by
  intro node hmem
  obtain ⟨token, htoken, rfl⟩ := List.mem_map.1 hmem
  exact readable_ofToken (mem_tokensFrom_iff.1 htoken).word

/-- A node of a text has a position, on the line that its token begins on. -/
theorem exists_position {x : List Char} {token : Token} (h : token ∈ tokens x) :
    ∃ p, (LineTable.ofText x).position? token.start = some p ∧
      p.line = (LineTable.ofText x).lineAt token.start := by
  obtain ⟨-, before, after, rfl, hstart, -⟩ := mem_tokensFrom_iff.1 h
  have hposition := LineTable.position?_byteSize before (token.text ++ after)
  rw [Nat.zero_add] at hstart
  exact ⟨_, hstart ▸ hposition, hstart ▸ (LineTable.lineAt_byteSize before _).symm⟩

/-- Of neighbours in a text the second is not above the first. -/
theorem neighbours_ofText {x : List Char} {i : Nat} {node next : Node}
    (h : (ofText x)[i]? = some node) (h' : (ofText x)[i + 1]? = some next) :
    ∃ p q, node.position = some p ∧ next.position = some q ∧ p.line ≤ q.line := by
  rw [ofText, List.getElem?_map] at h h'
  obtain ⟨token, htoken, rfl⟩ := Option.map_eq_some_iff.1 h
  obtain ⟨token', htoken', rfl⟩ := Option.map_eq_some_iff.1 h'
  obtain ⟨hi, hget⟩ := List.getElem?_eq_some_iff.1 htoken
  obtain ⟨hi', hget'⟩ := List.getElem?_eq_some_iff.1 htoken'
  have hstart : token.start ≤ token'.start := by
    have := List.pairwise_iff_getElem.1 (tokensFrom_ordered 0 x) i (i + 1) hi hi'
      (Nat.lt_succ_self i)
    rw [← hget, ← hget']
    exact this
  obtain ⟨p, hp, hpline⟩ := exists_position (List.mem_of_getElem? htoken)
  obtain ⟨q, hq, hqline⟩ := exists_position (List.mem_of_getElem? htoken')
  refine ⟨p, q, hp, hq, ?_⟩
  rw [hpline, hqline]
  exact LineTable.lineAt_mono _ hstart

/-- Neighbours of one text are on one line if neither is above the other. -/
theorem sameLine_iff {node next : Node} {p q : Position} (h : node.position = some p)
    (h' : next.position = some q) (hle : p.line ≤ q.line) :
    p.line = q.line ↔ node.isAbove next = false := by
  simp only [Node.isAbove, h, h', decide_eq_false_iff_not]
  omega

theorem drops_getElem? {i : Nat} {node next : Node} (h : score[i]? = some node)
    (h' : score[i + 1]? = some next) : score.drops[i]? = some (node.isAbove next) := by
  rw [drops, List.getElem?_zipWith, h, List.getElem?_tail, h']

/-- **Reading undoes writing, up to blanks.** -/
theorem ofText_text :
    (∀ score : Score, (∀ node ∈ score, ∃ t, IsWord t ∧ node.mark = Mark.ofToken t) →
      (ofText score.text).marks = score.marks ∧ (ofText score.text).text = score.text) ∧
    ∀ x : List Char,
      (ofText (ofText x).text).marks = (ofText x).marks ∧
      (ofText (ofText x).text).text = (ofText x).text ∧
      ∀ i node next, (ofText x)[i]? = some node → (ofText x)[i + 1]? = some next →
        ∃ node' next', (ofText (ofText x).text)[i]? = some node' ∧
          (ofText (ofText x).text)[i + 1]? = some next' ∧
          ∃ p q p' q', node.position = some p ∧ next.position = some q ∧
            node'.position = some p' ∧ next'.position = some q' ∧
            (p.line = q.line ↔ p'.line = q'.line) := by
  have hround : ∀ score : Score, score.Readable →
      (ofText score.text).marks = score.marks ∧ (ofText score.text).text = score.text :=
    fun score h => ⟨marks_ofText_text h, text_congr (marks_ofText_text h) (drops_ofText_text h)⟩
  refine ⟨fun score h => hround score fun node hmem => ?_, fun x => ?_⟩
  · obtain ⟨t, ht, hmark⟩ := h node hmem
    exact hmark ▸ readable_ofToken ht
  · have hx := readable_ofText x
    refine ⟨(hround _ hx).1, (hround _ hx).2, ?_⟩
    intro i node next hnode hnext
    have hlength : (ofText (ofText x).text).length = (ofText x).length := by
      have hmarks := congrArg List.length (hround _ hx).1
      rwa [marks, marks, List.length_map, List.length_map] at hmarks
    have hi : i + 1 < (ofText (ofText x).text).length :=
      hlength ▸ (List.getElem?_eq_some_iff.1 hnext).1
    have hnode' := List.getElem?_eq_getElem (Nat.lt_of_succ_lt hi)
    have hnext' := List.getElem?_eq_getElem hi
    obtain ⟨p, q, hp, hq, hle⟩ := neighbours_ofText hnode hnext
    obtain ⟨p', q', hp', hq', hle'⟩ := neighbours_ofText hnode' hnext'
    refine ⟨_, _, hnode', hnext', p, q, p', q', hp, hq, hp', hq', ?_⟩
    have hdrop := drops_getElem? hnode hnext
    rw [← drops_ofText_text hx, drops_getElem? hnode' hnext', Option.some_inj] at hdrop
    rw [sameLine_iff hp hq hle, sameLine_iff hp' hq' hle', hdrop]

/-- A tied flat with a syllable for its degree, and a token without meaning. -/
def syllables : List (List Char) :=
  [['^', 'b', 's', 'o', 'l', '-', '-', '_', '&'], ['b', 'u', 'm', '!']]

def syllabic : Score := syllables.map fun t => { span := ⟨0, 0⟩, mark := .ofToken t }

theorem ofText_text_syllabic :
    (∀ node ∈ syllabic, ∃ t, IsWord t ∧ node.mark = Mark.ofToken t) ∧
      (ofText syllabic.text).marks = syllabic.marks ∧
      (ofText syllabic.text).text = syllabic.text := by
  have hwords : ∀ t ∈ syllables, IsWord t := by decide
  have h : ∀ node ∈ syllabic, ∃ t, IsWord t ∧ node.mark = Mark.ofToken t := by
    intro node hmem
    obtain ⟨t, ht, rfl⟩ := List.mem_map.1 hmem
    exact ⟨t, hwords t ht, rfl⟩
  exact ⟨h, ofText_text.1 syllabic h⟩

end Score

end NumberedScore
