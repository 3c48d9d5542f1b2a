/-
Nothing is lost in reading.

The tokens of a text are its runs, so every character that is not blank is in one token, and
in no second one, and put together they are the text without its blanks.

A lexer that matches greedily finds the same runs (`found_of_lexes`).  Their ends are ends of
characters, which is why no cut and no position is missed (`parse?_loses_nothing`).
-/
import Mathlib.Data.List.Pairwise
import NumberedScore.Lexer
import NumberedScore.Proofs.Score

namespace NumberedScore

open Text

/-! ### Characters -/

/-- The bytes of a character, found at a position, lie in the span of a token. -/
def Token.Covers (token : Token) (position : Nat) (c : Char) : Prop :=
  token.span.start ≤ position ∧ position + c.utf8Size ≤ token.span.stop

/-- A character that is not blank is in a token. -/
theorem exists_covers {t before after : List Char} {c : Char} (offset : Nat)
    (h : t = before ++ c :: after) (hc : isBlank c = false) :
    ∃ token ∈ tokensFrom offset t, token.Covers (offset + byteSize before) c := by
  induction t using induction_runs generalizing offset before with
  | nil => simp at h
  | blank d t hd ih =>
      rw [tokensFrom_cons_blank hd]
      cases before with
      | nil =>
          obtain ⟨rfl, -⟩ := List.cons.inj h
          rw [hc] at hd
          exact Bool.noConfusion hd
      | cons e before =>
          obtain ⟨rfl, rfl⟩ := List.cons.inj h
          obtain ⟨token, hmem, hcovers⟩ := ih (offset + d.utf8Size) rfl
          rw [Nat.add_assoc] at hcovers
          exact ⟨token, hmem, hcovers⟩
  | word w t hw ht ih =>
      rw [tokensFrom_append offset hw ht]
      rcases List.append_eq_append_iff.1 h with ⟨gap, rfl, hgap⟩ | ⟨later, rfl, hlater⟩
      · obtain ⟨token, hmem, hcovers⟩ := ih (offset + byteSize w) hgap
        rw [Nat.add_assoc, ← byteSize_append] at hcovers
        exact ⟨token, List.mem_cons_of_mem _ hmem, hcovers⟩
      · cases later with
        | nil =>
            -- the character is the first behind the word, which is blank
            have hblank := ht c (by rw [List.nil_append] at hlater; rw [← hlater]; rfl)
            rw [hc] at hblank
            exact Bool.noConfusion hblank
        | cons d later =>
            obtain ⟨rfl, -⟩ := List.cons.inj hlater
            refine ⟨_, List.mem_cons_self, Nat.le_add_right .., ?_⟩
            simp only [Token.span, byteSize_append, byteSize_cons]
            omega

/-- No two tokens of a text cover one character. -/
theorem eq_of_covers {offset position : Nat} {t : List Char} {c : Char} {a b : Token}
    (ha : a ∈ tokensFrom offset t) (hb : b ∈ tokensFrom offset t) (ha' : a.Covers position c)
    (hb' : b.Covers position c) : a = b := by
  by_contra hne
  have hsymm : Std.Symm fun a b => Token.Apart offset t a b ∨ Token.Apart offset t b a :=
    ⟨fun _ _ => Or.symm⟩
  have hsize := c.utf8Size_pos
  have happart : (tokensFrom offset t).Pairwise fun a b =>
      Token.Apart offset t a b ∨ Token.Apart offset t b a := (tokensFrom_apart offset t).imp Or.inl
  rcases happart.forall ha hb hne with h | h <;>
    · obtain ⟨before, gap, after, -, hfirst, hsecond, -⟩ := h
      simp only [Token.Covers, Token.span] at ha' hb'
      omega

/-- **The tokens of a text make up the text without its blanks.** -/
theorem flatMap_text_tokensFrom (offset : Nat) (t : List Char) :
    (tokensFrom offset t).flatMap Token.text = t.filter (!isBlank ·) := by
  induction t using induction_runs generalizing offset with
  | nil => rfl
  | blank c t hc ih => rw [tokensFrom_cons_blank hc, ih, List.filter_cons_of_neg (by simp [hc])]
  | word w t hw ht ih =>
      have hkept : w.filter (!isBlank ·) = w :=
        List.filter_eq_self.2 fun c hc => by simp [hw.2 c hc]
      rw [tokensFrom_append offset hw ht, List.flatMap_cons, ih, List.filter_append, hkept]

/-! ### What a lexer finds -/

/-- A longest match goes on as far as its pattern does. -/
theorem Pattern.Longest.stop {p : Pattern} {part rest : List Char} (h : p.Longest part rest) :
    ∀ c ∈ rest.head?, p.admits c = false := by
  intro c hc
  obtain ⟨later, rfl⟩ := List.head?_eq_some_iff.1 hc
  by_contra hadmits
  have hmore : p.Matches (part ++ [c]) := by
    refine ⟨by simp, fun a ha => ?_⟩
    rcases List.mem_append.1 ha with ha | ha
    · exact h.matched.2 a ha
    · rw [List.mem_singleton.1 ha]
      exact eq_true_of_ne_false hadmits
  have hlength := h.longest p (part ++ [c]) later (by simp) hmore
  rw [List.length_append, List.length_singleton] at hlength
  omega

/-- **A lexer finds the tokens of a text, and nothing else.** -/
theorem found_of_lexes {offset : Nat} {t : List Char} {found : List (Lexeme × Span)}
    (h : Lexes offset t found) :
    found = (tokensFrom offset t).map fun token => (.word, token.span) := by
  induction h with
  | done => rfl
  | @word offset part rest found h hrest ih =>
      have hword : IsWord part := ⟨h.matched.1, fun c hc => by simpa using h.matched.2 c hc⟩
      have hstop : ∀ c ∈ rest.head?, isBlank c = true := fun c hc => by simpa using h.stop c hc
      rw [tokensFrom_append offset hword hstop, List.map_cons, ih]
      rfl
  | @skip offset part rest found h hrest ih => rw [tokensFrom_append_blanks h.matched.2, ih]
  | @error offset c rest found h hrest ih =>
      -- one of the two patterns matches the character
      have hone : ∀ p : Pattern, p.admits c = true → p.Matches [c] := by
        intro p hp
        exact ⟨List.cons_ne_nil c [], fun a ha => List.mem_singleton.1 ha ▸ hp⟩
      by_cases hc : isBlank c = true
      · exact absurd (hone .blanks hc) (h .blanks [c] rest rfl)
      · exact absurd (hone .word (by simp [Pattern.admits, hc])) (h .word [c] rest rfl)

theorem mapM_map_eq_some {α β γ : Type} {f : α → β} {g : β → Option γ} {k : α → γ} {l : List α}
    (h : ∀ a ∈ l, g (f a) = some (k a)) : (l.map f).mapM g = some (l.map k) := by
  induction l with
  | nil => rfl
  | cons a l ih =>
      obtain ⟨ha, hl⟩ := List.forall_mem_cons.1 h
      simp [ha, ih hl]

/-- A token is not empty, and is what its text has in its span. -/
theorem slice?_span {source : List Char} {token : Token} (h : token ∈ tokens source) :
    token.span.start < token.span.stop ∧ slice? source token.span = some token.text := by
  obtain ⟨hword, before, after, rfl, hstart, -⟩ := mem_tokensFrom_iff.1 h
  have hpos : byteSize token.text ≠ 0 := fun hzero => hword.1 (eq_nil_of_byteSize_eq_zero hzero)
  rw [Nat.zero_add] at hstart
  constructor
  · simp only [Token.span]
    omega
  · rw [Token.span, hstart, slice?_byteSize]

/-- The blank between two tokens is in the slice between their spans. -/
theorem Token.Apart.slice? {source : List Char} {a b : Token} (h : Token.Apart 0 source a b) :
    a.span.stop < b.span.start ∧
      ∃ gap, slice? source ⟨a.span.stop, b.span.start⟩ = some gap ∧
        ∃ c ∈ gap, isBlank c = true := by
  obtain ⟨before, gap, after, rfl, ha, hb, c, hmem, hc⟩ := h
  rw [Nat.zero_add] at ha hb
  have hpos : byteSize gap ≠ 0 := by
    intro hzero
    rw [eq_nil_of_byteSize_eq_zero hzero] at hmem
    exact absurd hmem List.not_mem_nil
  simp only [Token.span, ha, hb]
  refine ⟨by omega, gap, ?_, c, hmem, hc⟩
  rw [← byteSize_append, ← List.append_assoc, slice?_byteSize]

variable {lexer : List Char → List (Lexeme × Span)} {source : List Char}

theorem tokenize?_eq (h : Lexes 0 source (lexer source)) :
    tokenize? lexer source = some ((tokens source).map fun token => (token.text, token.span)) := by
  have hwords : (lexer source).filter reportsWord = lexer source := by
    refine List.filter_eq_self.2 fun report hreport => ?_
    rw [found_of_lexes h] at hreport
    obtain ⟨token, htoken, rfl⟩ := List.mem_map.1 hreport
    simp [reportsWord, (slice?_span htoken).1]
  rw [tokenize?, hwords, found_of_lexes h]
  refine mapM_map_eq_some fun token htoken => ?_
  simp [(slice?_span htoken).2]

theorem parse?_eq (h : Lexes 0 source (lexer source)) :
    Score.parse? lexer source = some (Score.ofText source) := by
  rw [Score.parse?, tokenize?_eq h, Option.bind_eq_bind, Option.bind_some]
  refine mapM_map_eq_some fun token htoken => ?_
  obtain ⟨position, hposition, -⟩ := Score.exists_position htoken
  have hfound : (LineTable.ofText source).position? token.span.start = some position := hposition
  simp only [Node.classify?, Node.ofToken, hfound, Option.map_some, Option.bind_some, hposition]
  rfl

/--
**Reading loses nothing.**

What a lexer leads to are the runs of a text, in order and with blanks between them, and every
other character is in one of them.  Each becomes one node.
-/
theorem Score.parse?_loses_nothing (h : Lexes 0 source (lexer source)) :
    tokenize? lexer source = some ((tokens source).map fun token => (token.text, token.span)) ∧
      (∀ token, token ∈ tokens source ↔ token.IsRun 0 source) ∧
      (tokens source).Pairwise (fun a b => a.span.stop < b.span.start ∧
        ∃ gap, slice? source ⟨a.span.stop, b.span.start⟩ = some gap ∧
          ∃ c ∈ gap, isBlank c = true) ∧
      (∀ token ∈ tokens source,
        token.span.start < token.span.stop ∧ slice? source token.span = some token.text) ∧
      (∀ before c after, source = before ++ c :: after → isBlank c = false →
        ∃ token ∈ tokens source, token.Covers (byteSize before) c ∧
          ∀ other ∈ tokens source, other.Covers (byteSize before) c → other = token) ∧
      Score.parse? lexer source = some (ofText source) ∧
      (ofText source).map Node.span = (tokens source).map Token.span ∧
      (∀ node ∈ ofText source,
        slice? source node.span = some node.raw ∧ node.mark = Mark.ofToken node.raw ∧
          ∃ position, (LineTable.ofText source).position? node.span.start = some position ∧
            node.position = some position) ∧
      (ofText source).flatMap Node.raw = source.filter (!isBlank ·) := by
  refine ⟨tokenize?_eq h, fun token => mem_tokensFrom_iff, ?_, fun token => slice?_span, ?_,
    parse?_eq h, ?_, ?_, ?_⟩
  · exact (tokensFrom_apart 0 source).imp fun happart => happart.slice?
  · intro before c after hsource hc
    obtain ⟨token, hmem, hcovers⟩ := exists_covers 0 hsource hc
    rw [Nat.zero_add] at hcovers
    exact ⟨token, hmem, hcovers, fun other hother h' => eq_of_covers hother hmem h' hcovers⟩
  · rw [ofText, List.map_map]
    rfl
  · intro node hnode
    obtain ⟨token, htoken, rfl⟩ := List.mem_map.1 hnode
    obtain ⟨position, hposition, -⟩ := Score.exists_position htoken
    exact ⟨(slice?_span htoken).2, rfl, position, hposition, hposition⟩
  · rw [ofText, List.flatMap_map, ← flatMap_text_tokensFrom 0 source]
    rfl

/-! ### A lexer -/

/-- Take the longest run of characters that are all blank, or all not, off the front of a text. -/
def munch (offset : Nat) : List Char → List (Lexeme × Span)
  | [] => []
  | c :: t =>
    let part := c :: t.takeWhile fun a => isBlank a == isBlank c
    let found := munch (offset + byteSize part) (t.dropWhile fun a => isBlank a == isBlank c)
    if isBlank c then found else (.word, ⟨offset, offset + byteSize part⟩) :: found
  termination_by t => t.length
  decreasing_by exact Nat.lt_succ_of_le (List.dropWhile_sublist _).length_le

/-- A run that its pattern cannot go on from is a longest match. -/
theorem Pattern.longest_of_stop {p : Pattern} {part rest : List Char} (h : p.Matches part)
    (hstop : ∀ c ∈ rest.head?, p.admits c = false) : p.Longest part rest := by
  refine ⟨h, fun q part' rest' htext hpart' => ?_⟩
  rcases List.append_eq_append_iff.1 htext with ⟨more, rfl, hrest⟩ | ⟨more, rfl, -⟩
  · cases more with
    | nil => simp
    | cons c more =>
        -- the other pattern would have to admit a character of this one
        have hc := hstop c (by rw [hrest]; rfl)
        obtain ⟨a, letters, rfl⟩ := List.exists_cons_of_ne_nil h.1
        have ha := h.2 a List.mem_cons_self
        have ha' := hpart'.2 a (by simp)
        have hc' := hpart'.2 c (by simp)
        cases p <;> cases q <;> simp_all
  · rw [List.length_append]
    exact Nat.le_add_right _ _

/-- The run that a character begins is a longest match of the pattern that admits it. -/
theorem Pattern.longest_takeWhile {p : Pattern} {c : Char} (hc : p.admits c = true)
    (t : List Char) :
    p.Longest (c :: t.takeWhile fun a => isBlank a == isBlank c)
      (t.dropWhile fun a => isBlank a == isBlank c) := by
  have hadmits : ∀ a, p.admits a = (isBlank a == isBlank c) := by
    intro a
    cases p <;> cases hblank : isBlank a <;> simp_all
  refine longest_of_stop ⟨List.cons_ne_nil _ _, List.forall_mem_cons.2 ⟨hc, fun a ha => ?_⟩⟩ ?_
  · rw [hadmits]
    exact List.all_eq_true.1 List.all_takeWhile a ha
  · intro a ha
    rw [hadmits]
    have hnot := List.head?_dropWhile_not (fun a => isBlank a == isBlank c) t
    simp_all

/-- Taking runs off the front is one way to match greedily. -/
theorem lexes_munch (offset : Nat) (t : List Char) : Lexes offset t (munch offset t) := by
  fun_induction munch offset t with
  | case1 offset => exact .done offset
  | case2 offset c t part found hc ih =>
      have hskip := Lexes.skip (Pattern.longest_takeWhile (p := .blanks) hc t) ih
      rwa [List.cons_append, List.takeWhile_append_dropWhile] at hskip
  | case3 offset c t part found hc ih =>
      have hword : Pattern.word.admits c = true := by simp [hc]
      have hfound := Lexes.word (Pattern.longest_takeWhile hword t) ih
      rwa [List.cons_append, List.takeWhile_append_dropWhile] at hfound

/-- Two words with a wide blank between them, and more blanks behind the second. -/
def wideBlanks : List Char := "1\u3000ré\n\u3000".toList

theorem Score.parse?_loses_nothing_wideBlanks :
    Lexes 0 wideBlanks (munch 0 wideBlanks) ∧
      tokenize? (munch 0) wideBlanks = some [(['1'], ⟨0, 1⟩), (['r', 'é'], ⟨4, 7⟩)] ∧
      Score.parse? (munch 0) wideBlanks = some (ofText wideBlanks) := by
  have h := lexes_munch 0 wideBlanks
  obtain ⟨htokens, -, -, -, -, hparse, -⟩ := Score.parse?_loses_nothing h
  refine ⟨h, htokens.trans ?_, hparse⟩
  decide +kernel

end NumberedScore
