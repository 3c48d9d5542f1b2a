/-
Reading is local.

A blank keeps two texts apart, so what is read of the first does not depend on the second
and the other way round.  Each node of the second one has the token and the mark that it
has when this text is read alone.  Only where it stands is counted from the beginning of
the first: spans move on by its bytes, lines by its line breaks, and columns by what is on
its last line, but only on the line that the two have in common.
-/
import NumberedScore.Proofs.Lexer

namespace NumberedScore

open Text

/-- A node, placed in a text that has something put in front. -/
def Node.behind (before : List Char) (node : Node) : Node where
  span := ⟨byteSize before + node.span.start, byteSize before + node.span.stop⟩
  position := node.position.map (Position.behind before)
  raw := node.raw
  mark := node.mark

/-- A token is placed by the text in front of it. -/
theorem ofToken_of_start {token : Token} {before : List Char} (h : token.start = byteSize before)
    (after : List Char) :
    Node.ofToken (some (LineTable.ofText (before ++ after))) token =
      { span := token.span
        position := some (endPosition before)
        raw := token.text
        mark := Mark.ofToken token.text } := by
  have hposition := LineTable.position?_byteSize before after
  rw [Node.ofToken, h, Option.bind_some, hposition]

namespace Score

/-- More text behind does not change how a token is placed. -/
theorem ofToken_append {s : List Char} {token : Token} (h : token ∈ tokens s) (t : List Char) :
    Node.ofToken (some (LineTable.ofText (s ++ t))) token
      = Node.ofToken (some (LineTable.ofText s)) token := by
  obtain ⟨-, before, after, rfl, hstart, -⟩ := mem_tokensFrom_iff.1 h
  rw [Nat.zero_add] at hstart
  rw [List.append_assoc, ofToken_of_start hstart, ofToken_of_start hstart]

/-- More text in front moves a token on. -/
theorem ofToken_behind {t : List Char} {token : Token} (h : token ∈ tokens t) (s : List Char) :
    Node.ofToken (some (LineTable.ofText (s ++ t)))
        { token with start := byteSize s + token.start }
      = (Node.ofToken (some (LineTable.ofText t)) token).behind s := by
  obtain ⟨-, before, after, rfl, hstart, -⟩ := mem_tokensFrom_iff.1 h
  rw [Nat.zero_add] at hstart
  have hmoved : byteSize s + token.start = byteSize (s ++ before) := by
    rw [hstart, byteSize_append]
  rw [ofToken_of_start hstart, ← List.append_assoc, ofToken_of_start hmoved, endPosition_append]
  simp only [Token.span, Node.behind, Option.map_some, Nat.add_assoc]

/-- Two texts with blanks between them are read one after the other. -/
theorem ofText_append (a b : List Char) {w : List Char} (hne : w ≠ [])
    (hw : ∀ c ∈ w, isBlank c = true) :
    ofText (a ++ w ++ b) = ofText a ++ (ofText b).map (Node.behind (a ++ w)) := by
  have hstop : ∀ c ∈ (w ++ b).head?, isBlank c = true := by
    obtain ⟨d, blanks, rfl⟩ := List.exists_cons_of_ne_nil hne
    exact fun c hc => hw c (by simp_all)
  have htokens : tokens (a ++ w ++ b) = tokens a ++
      (tokens b).map fun token => { token with start := byteSize (a ++ w) + token.start } := by
    rw [tokens, List.append_assoc, tokensFrom_append_text 0 a hstop, tokensFrom_append_blanks hw,
      Nat.zero_add, ← byteSize_append, tokens, tokens, ← tokensFrom_add, Nat.add_zero]
  unfold ofText
  rw [htokens, List.map_append, List.map_map, List.map_map]
  congr 1
  · refine List.map_congr_left fun token htoken => ?_
    rw [List.append_assoc, ofToken_append htoken]
  · exact List.map_congr_left fun token htoken => ofToken_behind htoken (a ++ w)

/-- **Reading is local**: of two texts with blanks between, each is read as if it were alone. -/
theorem parse?_local {lexer : List Char → List (Lexeme × Span)}
    (hlexer : ∀ text, Lexes 0 text (lexer text)) (a b : List Char) {w : List Char} (hne : w ≠ [])
    (hw : ∀ c ∈ w, isBlank c = true) :
    ∃ before after, parse? lexer a = some before ∧ parse? lexer b = some after ∧
      parse? lexer (a ++ w ++ b) = some (before ++ after.map (Node.behind (a ++ w))) := by
  refine ⟨ofText a, ofText b, parse?_eq (hlexer a), parse?_eq (hlexer b), ?_⟩
  rw [parse?_eq (hlexer (a ++ w ++ b)), ofText_append a b hne hw]

/-- A header and a note. -/
def upper : List Char := "1=C\n2".toList

/-- A blank, a line break, and a wide blank behind it. -/
def between : List Char := " \n\u3000".toList

/-- Two tokens on the first line and one on the second. -/
def lower : List Char := "ré 3\n  4".toList

theorem parse?_local_wideBlank :
    (∀ text, Lexes 0 text (munch 0 text)) ∧ between ≠ [] ∧ (∀ c ∈ between, isBlank c = true) ∧
      ∃ before after, parse? (munch 0) upper = some before ∧ parse? (munch 0) lower = some after ∧
        parse? (munch 0) (upper ++ between ++ lower)
          = some (before ++ after.map (Node.behind (upper ++ between))) ∧
        (after.map (Node.behind (upper ++ between))).map (fun node => (node.span, node.position))
          = [(⟨10, 13⟩, some ⟨3, 2⟩), (⟨14, 15⟩, some ⟨3, 5⟩), (⟨18, 19⟩, some ⟨4, 3⟩)] := by
  have hlexer := lexes_munch 0
  have hne : between ≠ [] := by decide +kernel
  have hw : ∀ c ∈ between, isBlank c = true := List.all_eq_true.1 (by decide +kernel)
  obtain ⟨before, after, hbefore, hafter, hall⟩ := parse?_local hlexer upper lower hne hw
  obtain rfl : ofText lower = after :=
    Option.some.inj ((parse?_eq (hlexer lower)).symm.trans hafter)
  exact ⟨hlexer, hne, hw, before, _, hbefore, hafter, hall, by decide +kernel⟩

end Score

end NumberedScore
