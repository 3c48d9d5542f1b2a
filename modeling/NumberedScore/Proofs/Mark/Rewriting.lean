/-
The tokens that are rewritten.

Writing a mark that was read from a token gives the canonical token of the mark, and that is
mostly the token itself.  `Rule.Canonical` says rule by rule when it is: where the numbers have
no zeros in front, and where the degree of a note is a digit.  All else that can be written in
more than one way, such as a `b` that is no flat, is a name in the place of a degree.

Whatever is rewritten gets no longer by it: a numeral is no longer than any run of digits for its
number, a digit no longer than a name, and counts that wrap have fewer signs than were counted.
-/
import NumberedScore.Proofs.Decimal
import NumberedScore.Proofs.Mark.Exclusive

namespace NumberedScore

open Decimal Text

variable {r : Rule} {t : List Char} {m m' : Mark}

/--
Whether a token of a rule is the canonical one of its mark.

The runs of digits are what other characters leave between them.  A degree is a digit if a digit
stands behind nothing but signs of tie and pitch.
-/
def Rule.Canonical (t : List Char) : Rule → Prop
  | .tempo | .time | .ending => ∀ digits ∈ t.splitOnP fun c => !c.isDigit, IsPlain digits
  | .note => ∃ before c after, t = before ++ c :: after ∧
      (∀ a ∈ before, a ∈ ['^', '#', 'b']) ∧ c.isDigit = true
  | .key | .dash | .bar => True

/-! ### Numbers -/

theorem Spells.Number.numeral_eq_iff {digits : List Char} {n : UInt32}
    (h : Spells.Number digits n) : numeral n.toNat = digits ↔ IsPlain digits := by
  rw [← h.value]
  exact numeral_eq_iff_isPlain h.nonempty h.digit

theorem Spells.Number.length_numeral_le {digits : List Char} {n : UInt32}
    (h : Spells.Number digits n) : (numeral n.toNat).length ≤ digits.length := by
  rw [← h.value]
  exact Decimal.length_numeral_le h.nonempty h.digit

theorem Spells.Number.not_separates {digits : List Char} {n : UInt32}
    (h : Spells.Number digits n) : ∀ c ∈ digits, (!c.isDigit) = false := by
  intro c hmem
  rw [h.digit c hmem]
  rfl

/-- A number is a run of digits up to the next character that is none. -/
theorem Spells.Number.splitOnP {digits : List Char} {n : UInt32} (h : Spells.Number digits n)
    {c : Char} (hc : c.isDigit = false) (rest : List Char) :
    (digits ++ c :: rest).splitOnP (fun c => !c.isDigit)
      = digits :: rest.splitOnP fun c => !c.isDigit :=
  List.splitOnP_append_cons_of_forall_mem h.not_separates c (by simp [hc]) rest

theorem number_numeral (n : UInt32) : Spells.Number (numeral n.toNat) n :=
  word?_eq_some_iff.1 (word?_numeral n)

/-! ### Degrees -/

theorem isDigit_of_isAlpha {c : Char} (h : c.isAlpha = true) : c.isDigit = false := by
  refine Bool.eq_false_iff.2 fun hdigit => ?_
  have hhi : c.val ≤ '9'.val := of_decide_eq_true (Bool.and_eq_true_iff.1 hdigit).2
  rcases Bool.or_eq_true_iff.1 h with hupper | hlower
  · have hlo : 'A'.val ≤ c.val := (of_decide_eq_true hupper).1
    exact absurd (UInt32.le_trans hlo hhi) (by decide)
  · have hlo : 'a'.val ≤ c.val := of_decide_eq_true (Bool.and_eq_true_iff.1 hlower).1
    exact absurd (UInt32.le_trans hlo hhi) (by decide)

theorem numeral_degree {d : UInt8} (h : d.toNat ≤ 7) :
    numeral d.toNat = [Nat.digitChar d.toNat] := Nat.toDigits_of_lt_base (by omega)

theorem Spells.Degree.le {name : List Char} {d : UInt8} (h : Spells.Degree name d) :
    d.toNat ≤ 7 := by
  have hread : Rule.degree? (name ++ []) = some (d, []) := degree?_append h (by simp)
  exact degree?_le hread

/-- A degree is written with its digit, or without any digit. -/
theorem Spells.Degree.digit_or_letters {name : List Char} {d : UInt8} (h : Spells.Degree name d) :
    name = [Nat.digitChar d.toNat] ∨ ∀ c ∈ name, c.isDigit = false := by
  cases h with
  | digit => exact .inl rfl
  | letters _ hletters => exact .inr fun c hmem => isDigit_of_isAlpha (hletters c hmem)

theorem Spells.Degree.numeral_eq_iff {name : List Char} {d : UInt8} (h : Spells.Degree name d) :
    numeral d.toNat = name ↔ ∃ c ∈ name, c.isDigit = true := by
  have hdigit : ∀ c ∈ numeral d.toNat, c.isDigit = true := fun c => isDigit_of_mem_numeral
  constructor
  · rintro rfl
    obtain ⟨c, rest, hcons⟩ := List.exists_cons_of_ne_nil (numeral_ne_nil d.toNat)
    have hmem : c ∈ numeral d.toNat := hcons ▸ List.mem_cons_self
    exact ⟨c, hmem, hdigit c hmem⟩
  · rintro ⟨c, hmem, hc⟩
    rcases h.digit_or_letters with rfl | hletters
    · exact numeral_degree h.le
    · rw [hletters c hmem] at hc
      exact Bool.noConfusion hc

theorem Spells.Degree.length_numeral_le {name : List Char} {d : UInt8}
    (h : Spells.Degree name d) : (numeral d.toNat).length ≤ name.length := by
  obtain ⟨c, rest, rfl, -⟩ := h.exists_cons
  rw [numeral_degree h.le, List.length_singleton, List.length_cons]
  omega

/-! ### Tokens that are left as they are -/

/-- A note behind its signs of tie and pitch, which are the only ones in front of its degree. -/
theorem Note.written_eq (n : Note) : n.written
    = (if n.tied then ['^'] else []) ++
      (n.accidental.sign ++ (numeral n.degree.toNat ++ n.signs)) := by
  simp only [Note.written, Note.signs, Note.lengthSigns, List.append_assoc]

/-- The only digit of a note is its degree. -/
theorem canonical_note_iff {n : Note} {name : List Char} (hname : Spells.Degree name n.degree) :
    Rule.Canonical ((if n.tied then ['^'] else []) ++ (n.accidental.sign ++ (name ++ n.signs)))
      .note ↔ ∃ c ∈ name, c.isDigit = true := by
  have hsigns : ['^', '#', 'b', '+', '-', '_', '.', '&'].all (!·.isDigit) = true := by decide
  have hnone : ∀ a ∈ ['^', '#', 'b', '+', '-', '_', '.', '&'], ¬ a.isDigit = true := by
    intro a ha
    simpa using List.all_eq_true.1 hsigns a ha
  constructor
  · rintro ⟨before, c, after, htoken, -, hc⟩
    have hmem : c ∈ (if n.tied then ['^'] else []) ++ (n.accidental.sign ++ (name ++ n.signs)) := by
      rw [htoken]
      exact List.mem_append_right before List.mem_cons_self
    refine ⟨c, ?_, hc⟩
    simp only [List.mem_append] at hmem
    rcases hmem with hcaret | haccidental | hletter | hsign
    · split at hcaret <;> simp_all
    · exact absurd hc (hnone c (mem_sign haccidental))
    · exact hletter
    · exact absurd hc (hnone c (List.mem_append_right ['^', '#', 'b'] (mem_signs hsign)))
  · rintro ⟨c, hmem, hc⟩
    rcases hname.digit_or_letters with rfl | hletters
    · refine ⟨(if n.tied then ['^'] else []) ++ n.accidental.sign, Nat.digitChar n.degree.toNat,
        n.signs, by simp, ?_, List.mem_singleton.1 hmem ▸ hc⟩
      intro a ha
      rcases List.mem_append.1 ha with hcaret | haccidental
      · split at hcaret <;> simp_all
      · cases hsign : n.accidental <;> simp_all [Accidental.sign]
    · rw [hletters c hmem] at hc
      exact Bool.noConfusion hc

/-- **A token is the canonical one of the mark that it spells if it is written canonically.** -/
theorem written_eq_iff_of_spells (h : Spells r t m) : m.written = t ↔ r.Canonical t := by
  have hfront : ∀ (c : Char) (rest : List Char), c.isDigit = false →
      (c :: rest).splitOnP (fun c => !c.isDigit) = [] :: rest.splitOnP fun c => !c.isDigit := by
    intro c rest hc
    have hnone : ∀ a ∈ ([] : List Char), (!a.isDigit) = false := by simp
    exact List.splitOnP_append_cons_of_forall_mem hnone c (by simp [hc]) rest
  cases h with
  | @tempo digits beats h =>
      have hruns : ('!' :: digits).splitOnP (fun c => !c.isDigit) = [[], digits] := by
        rw [hfront _ _ (by decide), List.splitOnP_eq_singleton h.not_separates]
      rw [Mark.written, List.cons_inj_right, h.numeral_eq_iff]
      simp [Rule.Canonical, hruns, isPlain_nil]
  | @time digits digits' beats unit h h' =>
      have hruns : ∀ {a b : List Char}, Spells.Number a beats → Spells.Number b unit →
          (a ++ '/' :: b).splitOnP (fun c => !c.isDigit) = [a, b] := by
        intro a b ha hb
        rw [ha.splitOnP (by decide), List.splitOnP_eq_singleton hb.not_separates]
      have hboth : numeral beats.toNat ++ '/' :: numeral unit.toNat = digits ++ '/' :: digits' ↔
          numeral beats.toNat = digits ∧ numeral unit.toNat = digits' := by
        constructor
        · intro heq
          have hsplit := congrArg (List.splitOnP fun c => !c.isDigit) heq
          rw [hruns (number_numeral beats) (number_numeral unit), hruns h h'] at hsplit
          simpa using hsplit
        · rintro ⟨rfl, rfl⟩
          rfl
      rw [Mark.written, hboth, h.numeral_eq_iff, h'.numeral_eq_iff]
      simp [Rule.Canonical, hruns h h']
  | @ending digits pass h =>
      have hruns : ('[' :: (digits ++ ['.'])).splitOnP (fun c => !c.isDigit)
          = [[], digits, []] := by
        rw [hfront _ _ (by decide), h.splitOnP (by decide), List.splitOnP_nil]
      rw [Mark.written, List.cons_append, List.cons_inj_right, List.append_left_inj,
        h.numeral_eq_iff]
      simp [Rule.Canonical, hruns, isPlain_nil]
  | @note t n h =>
      cases h with
      | @intro _ name hname _ =>
          rw [Mark.written, Note.written_eq, List.append_cancel_left_eq,
            List.append_cancel_left_eq, List.append_cancel_right_eq, hname.numeral_eq_iff,
            canonical_note_iff hname]
  | @key tonic accidental letter hlo hhi =>
      refine iff_of_true ?_ trivial
      rw [Mark.written, numeral_degree hhi]
      rfl
  | dash | bar | doubleBar | repeatStart | repeatStop => exact iff_of_true rfl trivial

/-! ### Lengths -/

/-- A note that is read has no more signs than were counted. -/
theorem Note.CountedFrom.length_signs_le {n : Note} {signs : List Char}
    (h : n.CountedFrom signs) : n.signs.length ≤ signs.length := by
  obtain ⟨halvings, dots, hhalvings, hdots, rfl⟩ := h
  have hle : n.halvings.toNat ≤ halvings ∧ n.dots.toNat ≤ dots := by
    rw [hhalvings, hdots]
    exact ⟨Nat.mod_le .., Nat.mod_le ..⟩
  simp only [Note.signs, Note.lengthSigns, List.length_append, List.length_replicate]
  omega

/-- **The canonical token is not longer than the token that was read.** -/
theorem length_written_le_of_read? (h : r.read? t = some m) : m.written.length ≤ t.length := by
  by_cases hr : r = .note
  · subst hr
    obtain ⟨n, name, signs, rfl, hname, hsigns, rfl⟩ := exists_parts_of_note? h
    have hdegree := hname.length_numeral_le
    have hcounts := hsigns.length_signs_le
    rw [Mark.written, Note.written_eq]
    simp only [List.length_append]
    omega
  · have hspelled := (read?_eq_some_iff_of_ne_note hr).1 h
    clear h
    cases hspelled with
    | note => exact absurd rfl hr
    | tempo h =>
        have hnumber := h.length_numeral_le
        simp only [Mark.written, List.length_cons]
        omega
    | time h h' =>
        have hnumber := h.length_numeral_le
        have hnumber' := h'.length_numeral_le
        simp only [Mark.written, List.length_append, List.length_cons]
        omega
    | ending h =>
        have hnumber := h.length_numeral_le
        simp only [Mark.written, List.length_append, List.length_cons]
        omega
    | key accidental letter hlo hhi =>
        rw [Mark.written, numeral_degree hhi]
        exact Nat.le_refl _
    | dash | bar | doubleBar | repeatStart | repeatStop => exact Nat.le_refl _

theorem utf8Size_of_isDigit {c : Char} (h : c.isDigit = true) : c.utf8Size = 1 := by
  simp only [Char.isDigit, Bool.and_eq_true, decide_eq_true_eq] at h
  exact Char.utf8Size_eq_one_iff.2 (UInt32.le_trans h.2 (by decide))

/-- The characters that marks are written with take one byte each. -/
theorem byteSize_written (hm : m.isUnknown = false) : byteSize m.written = m.written.length := by
  have hsigns : markSigns.all (·.utf8Size == 1) = true := by decide
  refine byteSize_eq_length fun c hmem => ?_
  rcases mem_written hmem hm with hdigit | hsign
  · exact utf8Size_of_isDigit hdigit
  · exact beq_iff_eq.1 (List.all_eq_true.1 hsigns c hsign)

theorem byteSize_written_le (t : List Char) :
    byteSize (Mark.ofToken t).written ≤ byteSize t := by
  cases hread : (Rule.fitting t).read? t with
  | none =>
      rw [ofToken_eq_fitting, hread]
      exact Nat.le_refl _
  | some m =>
      rw [ofToken_of_read? hread, byteSize_written (isUnknown_of_read? hread)]
      exact (length_written_le_of_read? hread).trans (length_le_byteSize t)

/-! ### Octaves in signed words -/

/-- A count that wraps is as a signed word not further from zero than before. -/
theorem natAbs_toInt32_le (a : Nat) : a.toInt32.toInt.natAbs ≤ a := by
  have hwrap : a.toInt32.toInt = (a : Int).bmod (2 ^ 32) := Int32.toInt_ofNat'
  rw [hwrap, Int.bmod_def]
  split <;> omega

/-- An octave that has been narrowed is a signed word, and not higher or lower than before. -/
theorem natAbs_octave_of_narrow? {n n' : Note} (h : n.narrow? = some n') :
    n'.octave.natAbs ≤ n.octave.natAbs ∧
      (n'.octave ≠ Int32.minValue.toInt → n'.octave.natAbs < 2 ^ 31) := by
  obtain ⟨octave, hoctave, rfl⟩ := Option.map_eq_some_iff.1 h
  have hraised := natAbs_toInt32_le n.octave.toNat
  have hlowered := natAbs_toInt32_le (-n.octave).toNat
  have hmin : Int32.minValue.toInt = -2 ^ 31 := rfl
  have hmax : Int32.maxValue.toInt = 2 ^ 31 - 1 := rfl
  simp only [Rule.signedSub?, Option.ite_none_right_eq_some, Option.some.injEq, hmin, hmax]
    at hoctave ⊢
  omega

theorem byteSize_written_le_of_narrow? (h : m.narrow? = some m') :
    byteSize m'.written ≤ byteSize m.written := by
  cases m with
  | note n =>
      obtain ⟨n', hn, rfl⟩ := Option.map_eq_some_iff.1 h
      have hle := (natAbs_octave_of_narrow? hn).1
      obtain ⟨octave, -, rfl⟩ := Option.map_eq_some_iff.1 hn
      rw [byteSize_written rfl, byteSize_written rfl, Mark.written, Mark.written,
        Note.written_eq, Note.written_eq]
      simp only [Note.signs, Note.lengthSigns, octaveSigns, List.length_append,
        List.length_replicate]
      simp only at hle
      omega
  | _ =>
      cases h
      exact Nat.le_refl _

/-- A mark that has been narrowed stays as it is, unless its octave has no opposite. -/
theorem narrow?_narrowed (h : m.narrow? = some m') :
    m'.narrow? = some m' ↔ ∀ n, m' = .note n → n.octave ≠ Int32.minValue.toInt := by
  constructor
  · rintro hstays n rfl hmin
    rw [Mark.narrow?, Note.narrow?_minValue hmin, Option.map_none] at hstays
    exact absurd hstays (by simp)
  · intro hoctave
    refine Mark.narrow?_of_lt fun n hn => ?_
    subst hn
    cases m with
    | note n' =>
        obtain ⟨_, hn, hnote⟩ := Option.map_eq_some_iff.1 h
        obtain rfl := Mark.note.inj hnote
        exact (natAbs_octave_of_narrow? hn).2 (hoctave _ rfl)
    | _ => exact Mark.noConfusion (Option.some.inj h)

/--
**A token is rewritten exactly if it is not canonical, and never to a longer one.**

A token that no rule accepts is left as it is.  Writing twice is writing once.  All this holds of
reading by the rules, which goes through for every token, and of reading by offsets where that
goes through.  Reading by offsets goes through for tokens of fewer than `2 ^ 31` bytes, and fails
on a token that has been rewritten only if its octave has no opposite as a signed word.
-/
theorem Mark.written_eq_iff_canonical (t : List Char) :
    (byteSize t < 2 ^ 31 → Mark.scan? t = some (Mark.ofToken t) ∧
      ((Mark.ofToken t).written = t ↔
        Rule.of? t = none ∨ ∃ r, Rule.of? t = some r ∧ r.Canonical t)) ∧
    byteSize (Mark.ofToken t).written ≤ byteSize t ∧
    (Mark.ofToken (Mark.ofToken t).written).written = (Mark.ofToken t).written ∧
    ∀ m, Mark.scan? t = some m →
      byteSize m.written ≤ byteSize t ∧
      (Mark.scan? m.written = some m ↔ ∀ n, m = .note n → n.octave ≠ Int32.minValue.toInt) := by
  refine ⟨fun ht => ⟨?_, ?_⟩, byteSize_written_le t, ?_, fun m hscan => ?_⟩
  · rw [scan?_eq_narrow?, narrow?_ofToken ht]
  · cases hrule : Rule.of? t with
    | none =>
        rw [ofToken_of_of?_eq_none hrule]
        exact iff_of_true rfl (.inl rfl)
    | some r =>
        obtain ⟨m, hread⟩ := of?_eq_some_iff.1 hrule
        have hspells := (read?_eq_some_iff (length_lt_size ht)).1 hread
        rw [ofToken_of_read? hread, written_eq_iff_of_spells hspells]
        simp
  · rw [ofToken_written_of_spellable (spellable_ofToken t)]
  · rw [scan?_eq_narrow?] at hscan
    have hspellable := spellable_of_narrow? hscan (spellable_ofToken t)
    refine ⟨(byteSize_written_le_of_narrow? hscan).trans (byteSize_written_le t), ?_⟩
    rw [scan?_eq_narrow?, ofToken_written_of_spellable hspellable]
    exact narrow?_narrowed hscan

/-- A zero in front is dropped, a degree that is a digit is kept, and a name becomes a digit. -/
theorem Mark.written_eq_iff_canonical_syllable :
    (byteSize "!072".toList < 2 ^ 31 ∧ ¬ Rule.Canonical "!072".toList .tempo) ∧
      (byteSize "^b6+_.&".toList < 2 ^ 31 ∧ Rule.Canonical "^b6+_.&".toList .note) ∧
      ∃ m, Mark.scan? "bsol-".toList = some m ∧ m.written = "b5-".toList ∧
        Mark.scan? "b5-".toList = some m := by
  have htempo : byteSize "!072".toList < 2 ^ 31 := by decide
  have hnote : byteSize "^b6+_.&".toList < 2 ^ 31 := by decide
  refine ⟨⟨htempo, fun hcanonical => ?_⟩, ⟨hnote, ?_⟩, ?_⟩
  · have hkept := ((Mark.written_eq_iff_canonical _).1 htempo).2.2
      (.inr ⟨.tempo, by decide, hcanonical⟩)
    exact absurd hkept (by decide)
  · rcases ((Mark.written_eq_iff_canonical _).1 hnote).2.1 (by decide) with hnone | ⟨r, hrule, h⟩
    · exact absurd hnone (by decide)
    · have hof : Rule.of? "^b6+_.&".toList = some .note := by decide
      obtain rfl : Rule.note = r := Option.some.inj (hof.symm.trans hrule)
      exact h
  · have hscan : Mark.scan? "bsol-".toList
        = some (.note { accidental := .flat, degree := 5, octave := -1 }) := by decide
    have hagain := ((Mark.written_eq_iff_canonical _).2.2.2 _ hscan).2
    refine ⟨_, hscan, by decide, hagain.2 fun n hn => ?_⟩
    obtain rfl := Mark.note.inj hn
    decide

end NumberedScore
