/-
Where the tokens of a text are.

A text is a sequence of blanks, and of words that reach up to a blank or to the end.  A blank
adds no token and a word adds one (`tokensFrom_append`): everything about reading a text that
was put together from words follows from these two equations.

So does what the tokens of any text are, by an induction over its blanks and words
(`induction_runs`).  They are its runs of other characters, all of them and no others
(`mem_tokensFrom_iff`), in order and with blanks in between (`tokensFrom_apart`).
-/
import NumberedScore.Proofs.Mark.Written
import NumberedScore.Token

namespace NumberedScore

open Text

variable {offset : Nat} {c : Char} {t : List Char} {later : List Token}

/-! ### Putting a character in front -/

theorem mem_attach {token : Token} (h : token ∈ Token.attach offset c later) :
    token ∈ later ∨ token = ⟨[c], offset⟩ ∨
      ∃ next ∈ later, next.start = offset + c.utf8Size ∧ token = ⟨c :: next.text, offset⟩ := by
  cases later with
  | nil => exact .inr (.inl (List.mem_singleton.1 h))
  | cons next rest =>
      rw [Token.attach] at h
      split at h
      · next hstart =>
          rcases List.mem_cons.1 h with rfl | hmem
          · exact .inr (.inr ⟨next, List.mem_cons_self, hstart, rfl⟩)
          · exact .inl (List.mem_cons_of_mem _ hmem)
      · rcases List.mem_cons.1 h with rfl | hmem
        · exact .inr (.inl rfl)
        · exact .inl hmem

/-- A character that no token follows is a token of its own. -/
theorem attach_of_apart (h : ∀ next ∈ later, offset + c.utf8Size < next.start) :
    Token.attach offset c later = ⟨[c], offset⟩ :: later := by
  cases later with
  | nil => rfl
  | cons next rest => exact if_neg (Nat.ne_of_gt (h next List.mem_cons_self))

theorem offset_le_start : ∀ token ∈ tokensFrom offset t, offset ≤ token.start := by
  induction t generalizing offset with
  | nil => exact fun token hmem => absurd hmem List.not_mem_nil
  | cons c t ih =>
      intro token hmem
      rw [tokensFrom] at hmem
      split at hmem
      · exact Nat.le_trans (Nat.le_add_right ..) (ih token hmem)
      · rcases mem_attach hmem with hmem | rfl | ⟨next, -, -, rfl⟩
        · exact Nat.le_trans (Nat.le_add_right ..) (ih token hmem)
        · exact Nat.le_refl _
        · exact Nat.le_refl _

/-! ### What blanks and words become -/

theorem tokensFrom_cons_blank (h : isBlank c = true) (t : List Char) :
    tokensFrom offset (c :: t) = tokensFrom (offset + c.utf8Size) t := by
  rw [tokensFrom, if_pos h]

theorem tokensFrom_append_blanks {blanks : List Char}
    (h : ∀ c ∈ blanks, isBlank c = true) (t : List Char) :
    tokensFrom offset (blanks ++ t) = tokensFrom (offset + byteSize blanks) t := by
  induction blanks generalizing offset with
  | nil => rfl
  | cons c blanks ih =>
      obtain ⟨hc, hmore⟩ := List.forall_mem_cons.1 h
      rw [List.cons_append, tokensFrom_cons_blank hc, ih hmore, byteSize_cons, Nat.add_assoc]

/-- No token begins at a blank or at the end. -/
theorem offset_lt_start (h : ∀ c ∈ t.head?, isBlank c = true) :
    ∀ token ∈ tokensFrom offset t, offset < token.start := by
  cases t with
  | nil => exact fun token hmem => absurd hmem List.not_mem_nil
  | cons c t =>
      intro token hmem
      rw [tokensFrom_cons_blank (h c rfl)] at hmem
      have := c.utf8Size_pos
      have := offset_le_start token hmem
      omega

/-- **A word up to a blank or the end is one token.** -/
theorem tokensFrom_append (offset : Nat) {word : List Char} (h : IsWord word)
    (ht : ∀ c ∈ t.head?, isBlank c = true) :
    tokensFrom offset (word ++ t) = ⟨word, offset⟩ :: tokensFrom (offset + byteSize word) t := by
  obtain ⟨hne, hblank⟩ := h
  induction word generalizing offset with
  | nil => exact absurd rfl hne
  | cons c word ih =>
      have hc : ¬ isBlank c = true := Bool.not_eq_true _ ▸ hblank c List.mem_cons_self
      rw [List.cons_append, tokensFrom, if_neg hc]
      cases word with
      | nil =>
          rw [List.nil_append, attach_of_apart (offset_lt_start ht)]
          rfl
      | cons d word =>
          rw [ih _ (List.cons_ne_nil d word) fun a ha => hblank a (List.mem_cons_of_mem c ha)]
          show Token.attach offset c (_ :: _) = _
          rw [Token.attach, if_pos rfl, byteSize_cons c, Nat.add_assoc]

/-! ### Runs -/

theorem isWord_cons {word : List Char} (hc : isBlank c = false)
    (h : ∀ a ∈ word, isBlank a = false) : IsWord (c :: word) := by
  refine ⟨List.cons_ne_nil c word, fun a hmem => ?_⟩
  rcases List.mem_cons.1 hmem with rfl | hmem
  · exact hc
  · exact h a hmem

/-- What holds of the empty text, and goes on holding behind a blank and behind a word, holds. -/
@[elab_as_elim]
theorem induction_runs {motive : List Char → Prop} (nil : motive [])
    (blank : ∀ c t, isBlank c = true → motive t → motive (c :: t))
    (word : ∀ w t, IsWord w → (∀ c ∈ t.head?, isBlank c = true) → motive t → motive (w ++ t))
    (t : List Char) : motive t := by
  obtain ⟨n, hn⟩ : ∃ n, t.length ≤ n := ⟨_, Nat.le_refl _⟩
  induction n generalizing t with
  | zero =>
      obtain rfl := List.eq_nil_of_length_eq_zero (Nat.le_zero.1 hn)
      exact nil
  | succ n ih =>
      cases t with
      | nil => exact nil
      | cons c t =>
          have hlength : t.length ≤ n := Nat.le_of_succ_le_succ hn
          by_cases hc : isBlank c = true
          · exact blank c t hc (ih t hlength)
          · have hword : IsWord (c :: t.takeWhile (!isBlank ·)) := by
              refine isWord_cons (eq_false_of_ne_true hc) fun a ha => ?_
              exact Bool.not_eq_true' _ ▸ List.all_eq_true.1 List.all_takeWhile a ha
            have hstop : ∀ a ∈ (t.dropWhile (!isBlank ·)).head?, isBlank a = true := by
              intro a ha
              have hnot := List.head?_dropWhile_not (!isBlank ·) t
              simp_all
            have hrest := ih (t.dropWhile (!isBlank ·))
              (Nat.le_trans (List.dropWhile_sublist _).length_le hlength)
            have hall := word _ _ hword hstop hrest
            rwa [List.cons_append, List.takeWhile_append_dropWhile] at hall

/-- **A text that a blank or the end stops has its tokens, whatever comes behind it.** -/
theorem tokensFrom_append_text (offset : Nat) (s : List Char)
    (ht : ∀ c ∈ t.head?, isBlank c = true) :
    tokensFrom offset (s ++ t) = tokensFrom offset s ++ tokensFrom (offset + byteSize s) t := by
  induction s using induction_runs generalizing offset with
  | nil => rfl
  | blank c s hc ih =>
      rw [List.cons_append, tokensFrom_cons_blank hc, tokensFrom_cons_blank hc, ih, byteSize_cons,
        Nat.add_assoc]
  | word w s hw hs ih =>
      have hstop : ∀ c ∈ (s ++ t).head?, isBlank c = true := by
        cases s with
        | nil => exact ht
        | cons c s => exact hs
      rw [List.append_assoc, tokensFrom_append offset hw hstop, ih, tokensFrom_append offset hw hs,
        List.cons_append, byteSize_append, Nat.add_assoc]

/-- Where a text starts decides where its tokens start, and nothing else. -/
theorem tokensFrom_add (n offset : Nat) (t : List Char) :
    tokensFrom (n + offset) t
      = (tokensFrom offset t).map fun token => { token with start := n + token.start } := by
  induction t using induction_runs generalizing offset with
  | nil => rfl
  | blank c t hc ih => rw [tokensFrom_cons_blank hc, tokensFrom_cons_blank hc, Nat.add_assoc, ih]
  | word w t hw ht ih =>
      rw [tokensFrom_append _ hw ht, tokensFrom_append _ hw ht, Nat.add_assoc, ih, List.map_cons]

/-- Words that are stopped by a blank or the end are where they are in one way only. -/
theorem word_unique {w w' t' : List Char} (hw : IsWord w) (hw' : IsWord w')
    (ht : ∀ c ∈ t.head?, isBlank c = true) (ht' : ∀ c ∈ t'.head?, isBlank c = true)
    (h : w ++ t = w' ++ t') : w = w' := by
  have htake : ∀ {w t : List Char}, IsWord w → (∀ c ∈ t.head?, isBlank c = true) →
      (w ++ t).takeWhile (!isBlank ·) = w := by
    intro w t hw ht
    rw [List.takeWhile_append_of_pos fun c hc => by simp [hw.2 c hc]]
    cases t with
    | nil => simp
    | cons c t => simp [ht c rfl]
  rw [← htake hw ht, h, htake hw' ht']

/-- No word begins where a blank or the end stops one. -/
theorem not_isWord_of_head? {w : List Char} (h : ∀ c ∈ (w ++ t).head?, isBlank c = true) :
    ¬ IsWord w := by
  rintro ⟨hne, hw⟩
  obtain ⟨c, letters, rfl⟩ := List.exists_cons_of_ne_nil hne
  have hblank := h c rfl
  rw [hw c List.mem_cons_self] at hblank
  exact Bool.noConfusion hblank

/-- A token is a run of a text: a word with blanks, or nothing, on both sides. -/
structure Token.IsRun (offset : Nat) (t : List Char) (token : Token) : Prop where
  word : IsWord token.text
  found : ∃ before after, t = before ++ (token.text ++ after) ∧
    token.start = offset + byteSize before ∧ (∀ c ∈ before.getLast?, isBlank c = true) ∧
    (∀ c ∈ after.head?, isBlank c = true)

theorem isRun_cons_blank {token : Token} (hc : isBlank c = true) :
    token.IsRun offset (c :: t) ↔ token.IsRun (offset + c.utf8Size) t := by
  constructor
  · rintro ⟨hword, before, after, htext, hstart, hbefore, hafter⟩
    cases before with
    | nil =>
        -- the run would begin with the blank
        refine absurd hword (not_isWord_of_head? (t := after) ?_)
        rw [← List.nil_append (token.text ++ after), ← htext]
        simp [hc]
    | cons d before =>
        obtain ⟨rfl, rfl⟩ := List.cons.inj htext
        refine ⟨hword, before, after, rfl, ?_, ?_, hafter⟩
        · rw [hstart, byteSize_cons, Nat.add_assoc]
        · intro a ha
          refine hbefore a ?_
          rw [List.getLast?_cons, ha]
          rfl
  · rintro ⟨hword, before, after, rfl, hstart, hbefore, hafter⟩
    refine ⟨hword, c :: before, after, rfl, ?_, ?_, hafter⟩
    · rw [hstart, byteSize_cons, Nat.add_assoc]
    · intro a ha
      rw [List.getLast?_cons, Option.mem_some_iff] at ha
      cases hlast : before.getLast? with
      | none => simp_all
      | some d => simp_all

theorem isRun_append_word {w : List Char} {token : Token} (hw : IsWord w)
    (ht : ∀ c ∈ t.head?, isBlank c = true) :
    token.IsRun offset (w ++ t) ↔
      token = ⟨w, offset⟩ ∨ token.IsRun (offset + byteSize w) t := by
  constructor
  · rintro ⟨hword, before, after, htext, hstart, hbefore, hafter⟩
    rcases List.append_eq_append_iff.1 htext with ⟨gap, rfl, rfl⟩ | ⟨later, rfl, hlater⟩
    · refine .inr ⟨hword, gap, after, rfl, ?_, ?_, hafter⟩
      · rw [hstart, byteSize_append, Nat.add_assoc]
      · intro a ha
        refine hbefore a ?_
        rw [List.getLast?_append, ha]
        rfl
    · -- what is before the run would end in the word
      have hnil : before = [] := by
        rcases List.eq_nil_or_concat before with hnil | ⟨front, c, rfl⟩
        · exact hnil
        · have hblank := hbefore c (by simp)
          rw [hw.2 c (by simp)] at hblank
          exact Bool.noConfusion hblank
      subst hnil
      have hsame := word_unique hword hw hafter ht (by rw [hlater]; rfl)
      refine .inl ?_
      cases token
      simp_all
  · rintro (rfl | ⟨hword, before, after, rfl, hstart, hbefore, hafter⟩)
    · exact ⟨hw, [], t, rfl, rfl, by simp, ht⟩
    · refine ⟨hword, w ++ before, after, (List.append_assoc ..).symm, ?_, ?_, hafter⟩
      · rw [hstart, byteSize_append, Nat.add_assoc]
      · cases before with
        | nil => exact absurd hword (not_isWord_of_head? ht)
        | cons c before =>
            intro a ha
            refine hbefore a ?_
            rw [List.getLast?_append] at ha
            simpa using ha

/-- **The tokens of a text are its runs.** -/
theorem mem_tokensFrom_iff {token : Token} :
    token ∈ tokensFrom offset t ↔ token.IsRun offset t := by
  induction t using induction_runs generalizing offset with
  | nil =>
      refine ⟨fun h => absurd h List.not_mem_nil, fun h => ?_⟩
      obtain ⟨hword, before, after, htext, -⟩ := h
      simp_all [IsWord]
  | blank c t hc ih => rw [tokensFrom_cons_blank hc, isRun_cons_blank hc, ih]
  | word w t hw ht ih =>
      rw [tokensFrom_append offset hw ht, List.mem_cons, isRun_append_word hw ht, ih]

/-! ### Order -/

/-- Two tokens of a text in order, with a blank somewhere between them. -/
def Token.Apart (offset : Nat) (t : List Char) (a b : Token) : Prop :=
  ∃ before gap after, t = before ++ (a.text ++ (gap ++ (b.text ++ after))) ∧
    a.start = offset + byteSize before ∧
    b.start = offset + byteSize before + byteSize a.text + byteSize gap ∧
    ∃ c ∈ gap, isBlank c = true

theorem Token.Apart.append {a b : Token} (s : List Char)
    (h : Token.Apart (offset + byteSize s) t a b) : Token.Apart offset (s ++ t) a b := by
  obtain ⟨before, gap, after, rfl, ha, hb, hgap⟩ := h
  refine ⟨s ++ before, gap, after, (List.append_assoc ..).symm, ?_, ?_, hgap⟩
  · rw [ha, byteSize_append, Nat.add_assoc]
  · rw [hb, byteSize_append, Nat.add_assoc offset]

/-- **Tokens come in order, with blanks between them.** -/
theorem tokensFrom_apart (offset : Nat) (t : List Char) :
    (tokensFrom offset t).Pairwise (Token.Apart offset t) := by
  induction t using induction_runs generalizing offset with
  | nil => exact .nil
  | blank c t hc ih =>
      rw [tokensFrom_cons_blank hc]
      exact (ih (offset + c.utf8Size)).imp fun h => h.append [c]
  | word w t hw ht ih =>
      rw [tokensFrom_append offset hw ht]
      refine List.pairwise_cons.2 ⟨fun b hb => ?_, (ih _).imp fun h => h.append w⟩
      obtain ⟨hword, gap, after, rfl, hstart, -⟩ := mem_tokensFrom_iff.1 hb
      refine ⟨[], gap, after, rfl, rfl, hstart, ?_⟩
      cases gap with
      | nil => exact absurd hword (not_isWord_of_head? ht)
      | cons c gap => exact ⟨c, List.mem_cons_self, ht c rfl⟩

/-- Tokens come in the order in which they stand in the text. -/
theorem tokensFrom_ordered (offset : Nat) (t : List Char) :
    (tokensFrom offset t).Pairwise fun a b => a.start ≤ b.start := by
  refine (tokensFrom_apart offset t).imp fun happart => ?_
  obtain ⟨before, gap, after, -, ha, hb, -⟩ := happart
  omega

end NumberedScore
