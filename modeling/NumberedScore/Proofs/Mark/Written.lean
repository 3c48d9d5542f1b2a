/-
Writing a mark and reading it back.

Reading is lenient and writing is not, so many tokens have one mark and the mark has one
canonical token.  That token has to be read as the same mark again, which asks two things
of the rules: that the right rule accepts it, and that no earlier one does.  An earlier
rule is kept off by a character that it needs and the token does not have
(`not_mem_written`).

Not every mark is the meaning of some token.  `Mark.Readable` says which are: a degree is
at most seven, only a plain bar line can be final, and what no rule accepts is unknown.
Every mark that is read is of this kind (`readable_ofToken`), and of these, reading undoes
writing (`ofToken_written`).
-/
import NumberedScore.Mark.Rule
import NumberedScore.Mark.Written
import NumberedScore.Text.Blank

namespace NumberedScore

open Text Decimal

/-- A text that may be one token: something, and without blanks. -/
def Text.IsWord (t : List Char) : Prop := t ≠ [] ∧ ∀ c ∈ t, isBlank c = false

instance (t : List Char) : Decidable (IsWord t) :=
  decidable_of_iff (t ≠ [] ∧ t.all (fun c => !isBlank c) = true) (by simp [IsWord])

/-- Whether a mark is the meaning of some token. -/
def Mark.Readable : Mark → Prop
  | key tonic _ _ => 1 ≤ tonic.toNat ∧ tonic.toNat ≤ 7
  | note n => n.degree.toNat ≤ 7
  | bar final turn => final = true → turn = .none
  | unknown raw => IsWord raw ∧ Mark.ofToken raw = .unknown raw
  | _ => True

/-! ### Marks that are read -/

theorem degreeDigit?_le {c : Char} {d : UInt8} (h : Rule.degreeDigit? c = some d) :
    d.toNat = c.toNat - 48 ∧ 48 ≤ c.toNat ∧ c.toNat ≤ 55 := by
  unfold Rule.degreeDigit? at h
  split at h
  · next hc =>
      have hlo : 48 ≤ c.toNat := hc.1
      have hhi : c.toNat ≤ 55 := hc.2
      cases h
      refine ⟨?_, hlo, hhi⟩
      show (c.toNat - 48) % 256 = c.toNat - 48
      omega
  · exact absurd h (by simp)

theorem syllableDegree?_le {name : List Char} {d : UInt8}
    (h : Rule.syllableDegree? name = some d) : d.toNat ≤ 7 := by
  unfold Rule.syllableDegree? at h
  split at h <;> cases h <;> decide

theorem degree?_le {t rest : List Char} {d : UInt8} (h : Rule.degree? t = some (d, rest)) :
    d.toNat ≤ 7 := by
  unfold Rule.degree? at h
  split at h
  · exact absurd h (by simp)
  · split at h
    · next hdigit =>
        cases h
        have := degreeDigit?_le hdigit
        omega
    · split at h
      · cases h
        cases hname : Rule.syllableDegree? _ with
        | none => decide
        | some d => exact syllableDegree?_le hname
      · exact absurd h (by simp)

theorem noteBody?_degree_le {tied : Bool} {accidental : Accidental} {t : List Char} {n : Note}
    (h : Rule.noteBody? tied accidental t = some n) : n.degree.toNat ≤ 7 := by
  obtain ⟨⟨d, rest⟩, hdegree, hmarks⟩ := Option.bind_eq_some_iff.1 h
  have hd := degree?_le hdegree
  simp only [Rule.noteMarks?] at hmarks
  split at hmarks
  · cases hmarks
    exact hd
  · cases hmarks
    exact hd
  · exact absurd hmarks (by simp)

theorem signedNote?_degree_le {tied : Bool} {t : List Char} {n : Note}
    (h : Rule.signedNote? tied t = some n) : n.degree.toNat ≤ 7 := by
  simp only [Rule.signedNote?, Option.or_eq_some_iff] at h
  rcases h with hmarked | ⟨-, hplain⟩
  · split at hmarked
    · exact absurd hmarked (by simp)
    · obtain ⟨accidental, -, hbody⟩ := Option.bind_eq_some_iff.1 hmarked
      exact noteBody?_degree_le hbody
  · exact noteBody?_degree_le hplain

/-- What a rule reads is never unknown, and in the range of its rule. -/
theorem readable_of_read? {r : Rule} {t : List Char} {m : Mark} (h : r.read? t = some m) :
    m.Readable := by
  cases r with
  | tempo =>
      simp only [Rule.read?, Rule.tempo?] at h
      split at h
      · obtain ⟨beats, -, rfl⟩ := Option.map_eq_some_iff.1 h
        trivial
      · exact absurd h (by simp)
  | key =>
      simp only [Rule.read?, Rule.key?] at h
      split at h
      · split at h
        · exact absurd h (by simp)
        · next d pitch hd =>
            obtain ⟨tonic, htonic, h⟩ := Option.bind_eq_some_iff.1 h
            obtain ⟨⟨accidental, letter⟩, -, h⟩ := Option.bind_eq_some_iff.1 h
            cases h
            obtain ⟨hvalue, hlo, hhi⟩ := degreeDigit?_le htonic
            have hzero : d.toNat ≠ 48 := fun hc => hd (Char.toNat_inj.1 hc)
            simp only [Mark.Readable]
            omega
      · exact absurd h (by simp)
  | time =>
      simp only [Rule.read?, Rule.time?] at h
      split at h
      · obtain ⟨beats, -, h⟩ := Option.bind_eq_some_iff.1 h
        obtain ⟨unit, -, h⟩ := Option.bind_eq_some_iff.1 h
        cases h
        trivial
      · exact absurd h (by simp)
  | note =>
      simp only [Rule.read?, Rule.note?] at h
      split at h <;>
        · obtain ⟨n, hn, rfl⟩ := Option.map_eq_some_iff.1 h
          exact signedNote?_degree_le hn
  | dash =>
      simp only [Rule.read?, Rule.dash?] at h
      split at h
      · cases h
        trivial
      · exact absurd h (by simp)
  | bar =>
      simp only [Rule.read?, Rule.bar?] at h
      split at h <;> cases h <;> simp [Mark.Readable]
  | ending =>
      simp only [Rule.read?, Rule.ending?] at h
      split at h
      · split at h
        · obtain ⟨pass, -, rfl⟩ := Option.map_eq_some_iff.1 h
          trivial
        · exact absurd h (by simp)
      · exact absurd h (by simp)

theorem readable_ofToken {t : List Char} (h : IsWord t) : (Mark.ofToken t).Readable := by
  cases hread : Rule.all.findSome? (·.read? t) with
  | none =>
      have hunknown : Mark.ofToken t = .unknown t := by rw [Mark.ofToken, hread]; rfl
      rw [hunknown]
      exact ⟨h, hunknown⟩
  | some m =>
      obtain ⟨r, -, hr⟩ := List.exists_of_findSome?_eq_some hread
      have hm : Mark.ofToken t = m := by rw [Mark.ofToken, hread]; rfl
      rw [hm]
      exact readable_of_read? hr

/-! ### The characters of a written mark -/

theorem isDigit_of_mem_numeral {c : Char} {n : Nat} (h : c ∈ numeral n) : c.isDigit = true :=
  List.all_eq_true.1 (all_isDigit_numeral n) c h

theorem not_mem_numeral {c : Char} (h : c.isDigit = false) (n : Nat) : c ∉ numeral n := by
  intro hmem
  rw [isDigit_of_mem_numeral hmem] at h
  exact Bool.noConfusion h

theorem isBlank_of_isDigit {c : Char} (h : c.isDigit = true) : isBlank c = false := by
  simp only [Char.isDigit, Bool.and_eq_true, decide_eq_true_eq] at h
  have hlo : 48 ≤ c.toNat := h.1
  have hhi : c.toNat ≤ 57 := h.2
  simp only [isBlank, inRanges, blankRanges, List.any_cons, List.any_nil, Bool.or_false,
    Bool.or_eq_false_iff, Bool.and_eq_false_iff, decide_eq_false_iff_not]
  omega

/-- The signs that a note is written with, its digit apart. -/
def noteSigns : List Char := ['^', '#', 'b', '+', '-', '_', '.', '&']

theorem mem_sign {accidental : Accidental} {c : Char} (h : c ∈ accidental.sign) :
    c ∈ noteSigns := by
  cases accidental <;> simp_all [Accidental.sign, noteSigns]

theorem mem_octaveSigns {octave : Int} {c : Char} (h : c ∈ octaveSigns octave) :
    c ∈ noteSigns := by
  have hc := List.eq_of_mem_replicate h
  split at hc <;> simp [hc, noteSigns]

theorem mem_note_written {n : Note} {c : Char} (h : c ∈ n.written) :
    c.isDigit = true ∨ c ∈ noteSigns := by
  simp only [Note.written, List.mem_append, List.mem_replicate] at h
  rcases h with (((((htie | hsign) | hdegree) | hoctave) | hhalving) | hdot) | hgrace
  · split at htie <;> simp_all [noteSigns]
  · exact .inr (mem_sign hsign)
  · exact .inl (isDigit_of_mem_numeral hdegree)
  · exact .inr (mem_octaveSigns hoctave)
  · simp [hhalving.2, noteSigns]
  · simp [hdot.2, noteSigns]
  · split at hgrace <;> simp_all [noteSigns]

theorem not_mem_note_written {c : Char} (hdigit : c.isDigit = false) (hsign : c ∉ noteSigns)
    (n : Note) : c ∉ n.written := by
  intro h
  rcases mem_note_written h with hd | hs
  · rw [hd] at hdigit
    exact Bool.noConfusion hdigit
  · exact hsign hs

/-- The signs that marks are written with, their digits apart. -/
def markSigns : List Char :=
  noteSigns ++ ['!', '=', '/', '|', ':', '[', 'A', 'B', 'C', 'D', 'E', 'F', 'G']

theorem isBlank_of_mem_markSigns {c : Char} (h : c ∈ markSigns) : isBlank c = false := by
  have hsigns : markSigns.all (fun c => !isBlank c) = true := by decide
  exact Bool.not_eq_eq_eq_not.1 (List.all_eq_true.1 hsigns c h)

theorem mem_written {m : Mark} {c : Char} (h : c ∈ m.written) (hm : m.isUnknown = false) :
    c.isDigit = true ∨ c ∈ markSigns := by
  cases m with
  | tempo beats =>
      rcases List.mem_cons.1 h with rfl | hdigit
      · exact .inr (by decide)
      · exact .inl (isDigit_of_mem_numeral hdigit)
  | key tonic accidental letter =>
      simp only [Mark.written, List.append_assoc, List.mem_append, List.cons_append,
        List.mem_cons, List.not_mem_nil, or_false] at h
      rcases h with hdigit | rfl | hsign | rfl
      · exact .inl (isDigit_of_mem_numeral hdigit)
      · exact .inr (by decide)
      · exact .inr (List.mem_append_left _ (mem_sign hsign))
      · exact .inr (by cases letter <;> decide)
  | time beats unit =>
      simp only [Mark.written, List.mem_append, List.mem_cons] at h
      rcases h with hdigit | rfl | hdigit
      · exact .inl (isDigit_of_mem_numeral hdigit)
      · exact .inr (by decide)
      · exact .inl (isDigit_of_mem_numeral hdigit)
  | note n => exact (mem_note_written h).imp id (List.mem_append_left _)
  | dash => exact .inr (List.mem_singleton.1 h ▸ by decide)
  | bar final turn =>
      have hbar : (Mark.bar final turn).written.all (· ∈ markSigns) = true := by
        cases final <;> cases turn <;> decide
      exact .inr (of_decide_eq_true (List.all_eq_true.1 hbar c h))
  | ending pass =>
      simp only [Mark.written, List.cons_append, List.mem_cons, List.mem_append,
        List.not_mem_nil, or_false] at h
      rcases h with rfl | hdigit | rfl
      · exact .inr (by decide)
      · exact .inl (isDigit_of_mem_numeral hdigit)
      · exact .inr (by decide)
  | unknown raw => exact absurd hm (by simp [Mark.isUnknown])

/-- The canonical token of a mark is a token. -/
theorem isWord_written {m : Mark} (h : m.Readable) : IsWord m.written := by
  cases hm : m.isUnknown with
  | true =>
      cases m with
      | unknown raw => exact h.1
      | _ => exact Bool.noConfusion hm
  | false =>
      refine ⟨?_, fun c hc => (mem_written hc hm).elim isBlank_of_isDigit isBlank_of_mem_markSigns⟩
      cases m with
      | note n => simp [Mark.written, Note.written, numeral_ne_nil]
      | bar final turn => cases final <;> cases turn <;> simp [Mark.written]
      | unknown raw => exact Bool.noConfusion hm
      | _ => simp [Mark.written]

/-! ### Reading a written note -/

theorem leading_replicate {c : Char} {t : List Char} (h : c ∉ t) (n : Nat) :
    Rule.leading c (List.replicate n c ++ t) = (n, t) := by
  have hrun : ∀ a ∈ List.replicate n c, (a == c) = true := by
    intro a hmem
    exact beq_iff_eq.2 (List.eq_of_mem_replicate hmem)
  have hhead : t.takeWhile (· == c) = [] ∧ t.dropWhile (· == c) = t := by
    cases t with
    | nil => exact ⟨rfl, rfl⟩
    | cons a t =>
        have hne : ¬ (a == c) = true := fun hc => h (beq_iff_eq.1 hc ▸ List.mem_cons_self)
        exact ⟨List.takeWhile_cons_of_neg hne, List.dropWhile_cons_of_neg hne⟩
  rw [Rule.leading, List.takeWhile_append_of_pos hrun, List.dropWhile_append_of_pos hrun,
    hhead.1, hhead.2, List.append_nil, List.length_replicate]

theorem leading_of_notMem {c : Char} {t : List Char} (h : c ∉ t) : Rule.leading c t = (0, t) :=
  leading_replicate h 0

/-- What a note is written with behind its octave signs. -/
def Note.lengthSigns (n : Note) : List Char :=
  List.replicate n.halvings.toNat '_' ++
    (List.replicate n.dots.toNat '.' ++ (if n.grace then ['&'] else []))

theorem not_mem_lengthSigns {n : Note} {c : Char} (h : c ∉ ['_', '.', '&']) :
    c ∉ n.lengthSigns := by
  intro hmem
  simp only [Note.lengthSigns, List.mem_append, List.mem_replicate] at hmem
  rcases hmem with hhalving | hdot | hgrace
  · simp [hhalving.2] at h
  · simp [hdot.2] at h
  · split at hgrace <;> simp_all

theorem leading_lengthSigns (n : Note) :
    Rule.leading '_' n.lengthSigns
      = (n.halvings.toNat, List.replicate n.dots.toNat '.' ++ if n.grace then ['&'] else []) := by
  refine leading_replicate ?_ _
  intro hmem
  simp only [List.mem_append, List.mem_replicate] at hmem
  rcases hmem with hdot | hgrace
  · exact absurd hdot.2 (by decide)
  · split at hgrace <;> simp at hgrace

/-- Octave signs of one kind are read as the octave that they are written for. -/
theorem leading_octaveSigns (octave : Int) {t : List Char} (hplus : '+' ∉ t) (hminus : '-' ∉ t) :
    ∃ raised lowered t', Rule.leading '+' (octaveSigns octave ++ t) = (raised, t') ∧
      (if raised = 0 then Rule.leading '-' t' else (0, t')) = (lowered, t) ∧
      (raised : Int) - lowered = octave := by
  unfold octaveSigns
  by_cases hneg : octave < 0
  · have hsigns : '+' ∉ List.replicate octave.natAbs '-' ++ t := by simp [hplus]
    rw [if_pos hneg]
    refine ⟨0, octave.natAbs, _, leading_of_notMem hsigns, leading_replicate hminus _, ?_⟩
    omega
  · rw [if_neg hneg]
    refine ⟨octave.natAbs, 0, t, leading_replicate hplus _, ?_, ?_⟩
    · rw [leading_of_notMem hminus, ite_self]
    · omega

theorem noteMarks?_written (n : Note) :
    Rule.noteMarks? n.tied n.accidental n.degree (octaveSigns n.octave ++ n.lengthSigns)
      = some n := by
  obtain ⟨raised, lowered, t, hraised, hlowered, hoctave⟩ := leading_octaveSigns n.octave
    (not_mem_lengthSigns (n := n) (by decide)) (not_mem_lengthSigns (by decide))
  have hdots : Rule.leading '.' (List.replicate n.dots.toNat '.' ++ if n.grace then ['&'] else [])
      = (n.dots.toNat, if n.grace then ['&'] else []) := by
    refine leading_replicate ?_ _
    split <;> decide
  obtain ⟨tied, accidental, degree, octave, dots, halvings, grace⟩ := n
  simp only [Rule.noteMarks?, hraised, hlowered, hoctave, leading_lengthSigns, hdots]
  cases grace <;> simp

/-- A degree is written with one digit. -/
theorem exists_degreeDigit {d : UInt8} (h : d.toNat ≤ 7) :
    ∃ c, numeral d.toNat = [c] ∧ Rule.degreeDigit? c = some d ∧ c.isDigit = true := by
  have hdigits : ∀ k < 8, Rule.degreeDigit? (Nat.digitChar k) = some (UInt8.ofNat k) ∧
      (Nat.digitChar k).isDigit = true := by decide
  obtain ⟨hdigit, hascii⟩ := hdigits d.toNat (by omega)
  rw [UInt8.ofNat_toNat] at hdigit
  exact ⟨_, Nat.toDigits_of_lt_base (by omega), hdigit, hascii⟩

theorem noteBody?_written {n : Note} (h : n.degree.toNat ≤ 7) :
    Rule.noteBody? n.tied n.accidental
      (numeral n.degree.toNat ++ (octaveSigns n.octave ++ n.lengthSigns)) = some n := by
  obtain ⟨c, hc, hdigit, -⟩ := exists_degreeDigit h
  rw [hc, Rule.noteBody?]
  show (Rule.degree? (c :: _)).bind _ = _
  simp only [Rule.degree?, hdigit, Option.bind_some]
  exact noteMarks?_written n

/-- The digit of a note is not taken for a sign of pitch. -/
theorem ofChar?_of_isDigit {c : Char} (h : c.isDigit = true) : Accidental.ofChar? c = none := by
  unfold Accidental.ofChar?
  split
  · exact absurd h (by decide)
  · exact absurd h (by decide)
  · rfl

theorem signedNote?_written {n : Note} (h : n.degree.toNat ≤ 7) :
    Rule.signedNote? n.tied
      (n.accidental.sign ++ (numeral n.degree.toNat ++ (octaveSigns n.octave ++ n.lengthSigns)))
        = some n := by
  have hbody := noteBody?_written h
  unfold Rule.signedNote?
  cases haccidental : n.accidental with
  | natural =>
      obtain ⟨c, hc, -, hascii⟩ := exists_degreeDigit h
      rw [haccidental] at hbody
      simp only [Accidental.sign, List.nil_append, hbody]
      simp [hc, ofChar?_of_isDigit hascii]
  | flat =>
      rw [haccidental] at hbody
      simp [Accidental.sign, Accidental.ofChar?, hbody]
  | sharp =>
      rw [haccidental] at hbody
      simp [Accidental.sign, Accidental.ofChar?, hbody]

theorem note?_written {n : Note} (h : n.degree.toNat ≤ 7) :
    Rule.note? n.written = some (.note n) := by
  have hnote := signedNote?_written h
  have hwritten : n.written = (if n.tied then ['^'] else []) ++ (n.accidental.sign ++
      (numeral n.degree.toNat ++ (octaveSigns n.octave ++ n.lengthSigns))) := by
    simp only [Note.written, Note.lengthSigns, List.append_assoc]
  rw [hwritten]
  cases htied : n.tied with
  | true =>
      rw [htied] at hnote
      simp only [if_true, List.singleton_append, Rule.note?, hnote, Option.map_some]
  | false =>
      rw [htied] at hnote
      have hhead : ∀ rest, n.accidental.sign ++
          (numeral n.degree.toNat ++ (octaveSigns n.octave ++ n.lengthSigns)) ≠ '^' :: rest := by
        intro rest hc
        obtain ⟨c, hdegree, -, hascii⟩ := exists_degreeDigit h
        cases haccidental : n.accidental <;>
          simp [haccidental, Accidental.sign, hdegree] at hc
        rw [hc.1] at hascii
        exact absurd hascii (by decide)
      rw [if_neg (by decide), List.nil_append, Rule.note?, hnote, Option.map_some]
      exact hhead

/-! ### Reading a written mark -/

theorem tempo?_of_notMem {t : List Char} (h : '!' ∉ t) : Rule.tempo? t = none := by
  unfold Rule.tempo?
  split
  · exact absurd List.mem_cons_self h
  · rfl

theorem key?_of_notMem {t : List Char} (h : '=' ∉ t) : Rule.key? t = none := by
  unfold Rule.key?
  split
  · exact absurd (List.mem_cons_of_mem _ List.mem_cons_self) h
  · rfl

theorem time?_of_notMem {t : List Char} (h : '/' ∉ t) : Rule.time? t = none := by
  unfold Rule.time?
  split
  · next hdrop =>
      have hmem : '/' ∈ t.dropWhile (· != '/') := hdrop ▸ List.mem_cons_self
      exact absurd (List.dropWhile_subset _ hmem) h
  · rfl

theorem key?_written {tonic : UInt8} (accidental : Accidental) (letter : Letter)
    (hlo : 1 ≤ tonic.toNat) (hhi : tonic.toNat ≤ 7) :
    Rule.key? (Mark.key tonic accidental letter).written = some (.key tonic accidental letter) := by
  obtain ⟨c, hc, hdigit, -⟩ := exists_degreeDigit hhi
  have hzero : c ≠ '0' := by
    rintro rfl
    have hvalue := (degreeDigit?_le hdigit).1
    have : '0'.toNat = 48 := rfl
    omega
  have hpitch : Rule.signedLetter? (accidental.sign ++ [letter.toChar])
      = some (accidental, letter) := by
    cases accidental <;>
      simp [Accidental.sign, Rule.signedLetter?, Accidental.ofChar?, Letter.ofChar?_toChar]
  rw [Mark.written, hc]
  simp [Rule.key?, hzero, hdigit, hpitch]

theorem time?_written (beats unit : UInt32) :
    Rule.time? (Mark.time beats unit).written = some (.time beats unit) := by
  have hdigits : ∀ c ∈ numeral beats.toNat, (c != '/') = true := by
    intro c hmem
    refine bne_iff_ne.2 fun hc => ?_
    exact not_mem_numeral (by decide) _ (hc ▸ hmem)
  have htake : (Mark.time beats unit).written.takeWhile (· != '/') = numeral beats.toNat := by
    rw [Mark.written, List.takeWhile_append_of_pos hdigits]
    simp
  have hdrop : (Mark.time beats unit).written.dropWhile (· != '/')
      = '/' :: numeral unit.toNat := by
    rw [Mark.written, List.dropWhile_append_of_pos hdigits]
    simp
  simp only [Rule.time?, hdrop, htake, word?_numeral]
  rfl

theorem ending?_written (pass : UInt32) :
    Rule.ending? (Mark.ending pass).written = some (.ending pass) := by
  simp [Mark.written, Rule.ending?, word?_numeral]

/-- **The canonical token of a mark is read as that mark.** -/
theorem ofToken_written {m : Mark} (h : m.Readable) : Mark.ofToken m.written = m := by
  cases m with
  | tempo beats =>
      simp [Mark.ofToken, Rule.all, Rule.read?, Rule.tempo?, Mark.written, word?_numeral]
  | key tonic accidental letter =>
      have htempo : Rule.tempo? (Mark.key tonic accidental letter).written = none := by
        refine tempo?_of_notMem ?_
        cases accidental <;> cases letter <;>
          simp [Mark.written, Accidental.sign, Letter.toChar, not_mem_numeral]
      simp [Mark.ofToken, Rule.all, Rule.read?, htempo, key?_written accidental letter h.1 h.2]
  | time beats unit =>
      have htempo : Rule.tempo? (Mark.time beats unit).written = none := by
        refine tempo?_of_notMem ?_
        simp [Mark.written, not_mem_numeral]
      have hkey : Rule.key? (Mark.time beats unit).written = none := by
        refine key?_of_notMem ?_
        simp [Mark.written, not_mem_numeral]
      simp [Mark.ofToken, Rule.all, Rule.read?, htempo, hkey, time?_written]
  | note n =>
      have htempo : Rule.tempo? n.written = none :=
        tempo?_of_notMem (not_mem_note_written (by decide) (by decide) n)
      have hkey : Rule.key? n.written = none :=
        key?_of_notMem (not_mem_note_written (by decide) (by decide) n)
      have htime : Rule.time? n.written = none :=
        time?_of_notMem (not_mem_note_written (by decide) (by decide) n)
      simp [Mark.ofToken, Rule.all, Rule.read?, Mark.written, htempo, hkey, htime,
        note?_written h]
  | dash => decide
  | bar final turn =>
      cases turn with
      | start => cases final with
        | false => decide
        | true => exact absurd (h rfl) (by decide)
      | none => cases final <;> decide
      | stop => cases final with
        | false => decide
        | true => exact absurd (h rfl) (by decide)
  | ending pass =>
      have hkey : Rule.key? (Mark.ending pass).written = none := by
        refine key?_of_notMem ?_
        simp [Mark.written, not_mem_numeral]
      have htime : Rule.time? (Mark.ending pass).written = none := by
        refine time?_of_notMem ?_
        simp [Mark.written, not_mem_numeral]
      have hearly : Rule.tempo? (Mark.ending pass).written = none ∧
          Rule.note? (Mark.ending pass).written = none ∧
          Rule.dash? (Mark.ending pass).written = none ∧
          Rule.bar? (Mark.ending pass).written = none := ⟨rfl, rfl, rfl, rfl⟩
      simp [Mark.ofToken, Rule.all, Rule.read?, hkey, htime, hearly, ending?_written]
  | unknown raw => exact h.2

end NumberedScore
