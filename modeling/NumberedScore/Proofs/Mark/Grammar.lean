/-
The grammar of tokens.

`Spells` says how the tokens of each rule are put together and what they mean, without saying
how they are read.  The rules accept exactly these tokens (`read?_eq_some_iff`), so a token
has the mark that it spells, and is unknown if it spells none.

Only notes leave a choice.  A `b` in front can be a flat or the first letter of a name.  It is
a flat whenever a degree can begin behind it, and then the name behind it is read as far as
letters go.  So of all ways to take a token apart only one is left, and reading it tries no
other one in vain: what a flat would leave over at the end of the token, a longer name would
leave over as well.

The counts of a note are words.  A token that is shorter than `2 ^ 32` characters cannot make
one of them wrap.
-/
import NumberedScore.Proofs.Mark.Written

namespace NumberedScore

open Decimal

/-! ### Numbers and degrees -/

/-- A run of ASCII digits that stands for a number of 32 bits; leading zeros are allowed. -/
structure Spells.Number (digits : List Char) (n : UInt32) : Prop where
  nonempty : digits ≠ []
  digit : ∀ c ∈ digits, c.isDigit = true
  value : Nat.ofDigitChars 10 digits 0 = n.toNat

/-- The syllables of the scale and their degrees. -/
def solfege : List (List Char × UInt8) :=
  [(['d', 'o'], 1), (['r', 'e'], 2), (['m', 'i'], 3), (['f', 'a'], 4), (['s', 'o'], 5),
   (['s', 'o', 'l'], 5), (['l', 'a'], 6), (['t', 'i'], 7), (['s', 'i'], 7)]

/-- What names a degree of the scale. -/
inductive Spells.Degree : List Char → UInt8 → Prop where
  /-- A digit up to seven names itself. -/
  | digit {d : UInt8} (h : d.toNat ≤ 7) : Degree [Nat.digitChar d.toNat] d
  /-- A run of letters names the degree of a syllable, in any case, and otherwise a rest. -/
  | letters {name : List Char} (hne : name ≠ []) (h : ∀ c ∈ name, c.isAlpha = true) :
      Degree name ((solfege.lookup (name.map Char.toLower)).getD 0)

/-- Whether a degree can begin with a character. -/
def beginsDegree (c : Char) : Prop := c.isAlpha = true ∨ '0' ≤ c ∧ c ≤ '7'

/-! ### Tokens -/

/-- What stands behind the degree of a note: octave signs of one kind, halvings, dots, grace. -/
def Note.signs (n : Note) : List Char := octaveSigns n.octave ++ n.lengthSigns

/-- How a note is written behind the sign of its tie. -/
inductive Spells.Untied : List Char → Note → Prop where
  /--
  sign, degree, octave signs of one kind, `_` for each halving, `.` for each dot, `&`.

  Without a sign, no degree begins behind a `b` in front: that would be a flat.
  -/
  | intro {n : Note} {name : List Char} (hname : Spells.Degree name n.degree)
      (hflat : n.accidental = .natural → ∀ c rest,
        name ++ n.signs = 'b' :: c :: rest → ¬ beginsDegree c) :
      Untied (n.accidental.sign ++ (name ++ n.signs)) n

/-- The tokens of a rule, and their marks. -/
inductive Spells : Rule → List Char → Mark → Prop where
  /-- `!` number -/
  | tempo {digits : List Char} {beats : UInt32} (h : Spells.Number digits beats) :
      Spells .tempo ('!' :: digits) (.tempo beats)
  /-- digit from 1 to 7, `=`, sign, letter from A to G -/
  | key {tonic : UInt8} (accidental : Accidental) (letter : Letter) (hlo : 1 ≤ tonic.toNat)
      (hhi : tonic.toNat ≤ 7) :
      Spells .key (Nat.digitChar tonic.toNat :: '=' :: (accidental.sign ++ [letter.toChar]))
        (.key tonic accidental letter)
  /-- number `/` number -/
  | time {digits digits' : List Char} {beats unit : UInt32} (h : Spells.Number digits beats)
      (h' : Spells.Number digits' unit) :
      Spells .time (digits ++ '/' :: digits') (.time beats unit)
  /-- `^` for a tie, note behind it -/
  | note {t : List Char} {n : Note} (h : Spells.Untied t n) :
      Spells .note ((if n.tied then ['^'] else []) ++ t) (.note n)
  | dash : Spells .dash ['-'] .dash
  | bar : Spells .bar ['|'] (.bar false .none)
  | doubleBar : Spells .bar ['|', '|'] (.bar true .none)
  | repeatStart : Spells .bar ['|', '|', ':'] (.bar false .start)
  | repeatStop : Spells .bar [':', '|', '|'] (.bar false .stop)
  /-- `[` number `.` -/
  | ending {digits : List Char} {pass : UInt32} (h : Spells.Number digits pass) :
      Spells .ending ('[' :: (digits ++ ['.'])) (.ending pass)

/-! ### Reading numbers and degrees -/

theorem word?_eq_some_iff {t : List Char} {n : UInt32} :
    word? t = some n ↔ Spells.Number t n := by
  unfold word? natural?
  by_cases hdigits : t ≠ [] ∧ t.all Char.isDigit = true
  · rw [if_pos hdigits, Option.bind_some]
    by_cases hfits : Nat.ofDigitChars 10 t 0 < UInt32.size
    · rw [if_pos hfits, Option.some_inj, ← UInt32.toNat_inj, UInt32.toNat_ofNat_of_lt' hfits]
      exact ⟨fun h => ⟨hdigits.1, List.all_eq_true.1 hdigits.2, h⟩, fun h => h.value⟩
    · rw [if_neg hfits]
      refine ⟨fun h => absurd h (by simp), fun h => absurd ?_ hfits⟩
      rw [h.value]
      exact n.toNat_lt_size
  · rw [if_neg hdigits, Option.bind_none]
    refine ⟨fun h => absurd h (by simp), fun h => absurd ?_ hdigits⟩
    exact ⟨h.nonempty, List.all_eq_true.2 h.digit⟩

theorem syllableDegree?_eq_lookup (name : List Char) :
    Rule.syllableDegree? name = solfege.lookup (name.map Char.toLower) := by
  fun_cases Rule.syllableDegree? name with
  | case10 =>
      refine (List.lookup_eq_none_iff.2 ?_).symm
      simp_all [solfege]
  | _ => simp_all [solfege, List.lookup_cons]

theorem degreeDigit?_eq_some_iff {c : Char} {d : UInt8} :
    Rule.degreeDigit? c = some d ↔ d.toNat ≤ 7 ∧ c = Nat.digitChar d.toNat := by
  constructor
  · intro h
    obtain ⟨hvalue, hlo, hhi⟩ := degreeDigit?_le h
    refine ⟨by omega, Char.toNat_inj.1 ?_⟩
    have hdigit : ∀ k < 8, (Nat.digitChar k).toNat = 48 + k := by decide
    rw [hdigit _ (by omega)]
    omega
  · rintro ⟨h, rfl⟩
    have hdigits : ∀ k < 8, Rule.degreeDigit? (Nat.digitChar k) = some (UInt8.ofNat k) := by
      decide
    rw [hdigits _ (by omega), UInt8.ofNat_toNat]

/-- A letter is not a digit. -/
theorem degreeDigit?_of_isAlpha {c : Char} (h : c.isAlpha = true) :
    Rule.degreeDigit? c = none := by
  cases hdigit : Rule.degreeDigit? c with
  | none => rfl
  | some d =>
      obtain ⟨hle, rfl⟩ := degreeDigit?_eq_some_iff.1 hdigit
      have hdigits : ∀ k < 8, (Nat.digitChar k).isAlpha = false := by decide
      rw [hdigits _ (by omega)] at h
      exact Bool.noConfusion h

/-- A name is read as far as letters go. -/
theorem degree?_append {name rest : List Char} {d : UInt8} (h : Spells.Degree name d)
    (hrest : ∀ c ∈ rest.head?, c.isAlpha = false) :
    Rule.degree? (name ++ rest) = some (d, rest) := by
  cases h with
  | digit hle =>
      have hdigit := degreeDigit?_eq_some_iff.2 ⟨hle, rfl⟩
      simp only [List.singleton_append, Rule.degree?, hdigit]
  | letters hne hletters =>
      obtain ⟨c, letters, rfl⟩ := List.exists_cons_of_ne_nil hne
      obtain ⟨hc, hmore⟩ := List.forall_mem_cons.1 hletters
      have hstop : rest.takeWhile Char.isAlpha = [] ∧ rest.dropWhile Char.isAlpha = rest := by
        cases rest with
        | nil => exact ⟨rfl, rfl⟩
        | cons a rest =>
            have ha : ¬ a.isAlpha = true := by simp [hrest a rfl]
            exact ⟨List.takeWhile_cons_of_neg ha, List.dropWhile_cons_of_neg ha⟩
      simp only [List.cons_append, Rule.degree?, degreeDigit?_of_isAlpha hc, if_pos hc,
        List.takeWhile_append_of_pos hmore, List.dropWhile_append_of_pos hmore, hstop.1, hstop.2,
        List.append_nil, syllableDegree?_eq_lookup]

theorem exists_name_of_degree? {t rest : List Char} {d : UInt8}
    (h : Rule.degree? t = some (d, rest)) : ∃ name, Spells.Degree name d ∧ t = name ++ rest := by
  unfold Rule.degree? at h
  split at h
  · exact absurd h (by simp)
  · next c t =>
      split at h
      · next hdigit =>
          cases h
          obtain ⟨hle, rfl⟩ := degreeDigit?_eq_some_iff.1 hdigit
          exact ⟨_, .digit hle, rfl⟩
      · by_cases hc : c.isAlpha = true
        · rw [if_pos hc] at h
          cases h
          have hletters : ∀ a ∈ c :: t.takeWhile Char.isAlpha, a.isAlpha = true := by
            intro a hmem
            rcases List.mem_cons.1 hmem with rfl | hmem
            · exact hc
            · exact List.all_eq_true.1 List.all_takeWhile a hmem
          refine ⟨c :: t.takeWhile Char.isAlpha, ?_, ?_⟩
          · rw [syllableDegree?_eq_lookup]
            exact .letters (List.cons_ne_nil _ _) hletters
          · rw [List.cons_append, List.takeWhile_append_dropWhile]
        · rw [if_neg hc] at h
          exact absurd h (by simp)

theorem degree?_eq_none {t : List Char} (h : ∀ c ∈ t.head?, ¬ beginsDegree c) :
    Rule.degree? t = none := by
  cases t with
  | nil => rfl
  | cons c t =>
      obtain ⟨halpha, hdigit⟩ := not_or.1 (h c rfl)
      simp only [Rule.degree?, Rule.degreeDigit?, if_neg hdigit, if_neg halpha]

/-- What names a degree begins like one. -/
theorem Spells.Degree.exists_cons {name : List Char} {d : UInt8} (h : Spells.Degree name d) :
    ∃ c rest, name = c :: rest ∧ beginsDegree c := by
  cases h with
  | digit hle =>
      have hdigits : ∀ k < 8, '0' ≤ Nat.digitChar k ∧ Nat.digitChar k ≤ '7' := by decide
      exact ⟨_, [], rfl, .inr (hdigits _ (by omega))⟩
  | letters hne hletters =>
      obtain ⟨c, rest, rfl⟩ := List.exists_cons_of_ne_nil hne
      exact ⟨c, rest, rfl, .inl (hletters c List.mem_cons_self)⟩

/-! ### Reading notes -/

theorem eq_append_of_leading {c : Char} {t rest : List Char} {n : Nat}
    (h : Rule.leading c t = (n, rest)) : t = List.replicate n c ++ rest := by
  obtain ⟨rfl, rfl⟩ := Prod.mk.inj h
  have hrun : t.takeWhile (· == c) = List.replicate (t.takeWhile (· == c)).length c := by
    refine List.eq_replicate_iff.2 ⟨rfl, fun a hmem => ?_⟩
    exact beq_iff_eq.1 (List.all_eq_true.1 List.all_takeWhile a hmem)
  rw [← hrun, List.takeWhile_append_dropWhile]

theorem octaveSigns_sub {raised lowered : Nat} (h : raised = 0 ∨ lowered = 0) :
    octaveSigns ((raised : Int) - lowered)
      = List.replicate raised '+' ++ List.replicate lowered '-' := by
  unfold octaveSigns
  rcases h with rfl | rfl
  · by_cases hzero : lowered = 0
    · simp [hzero]
    · rw [if_pos (by omega)]
      simp
  · rw [if_neg (by omega)]
    simp

/--
Signs that the counts of a note are read from.

Counts are words, so a run that is longer than any word is counted past its end.
-/
def Note.CountedFrom (n : Note) (signs : List Char) : Prop :=
  ∃ halvings dots : Nat, n.halvings = halvings.toUInt32 ∧ n.dots = dots.toUInt32 ∧
    signs = octaveSigns n.octave ++ (List.replicate halvings '_' ++
      (List.replicate dots '.' ++ if n.grace then ['&'] else []))

theorem countedFrom_signs (n : Note) : n.CountedFrom n.signs :=
  ⟨n.halvings.toNat, n.dots.toNat, UInt32.ofNat_toNat.symm, UInt32.ofNat_toNat.symm, rfl⟩

theorem countedFrom_of_noteMarks? {tied : Bool} {accidental : Accidental} {degree : UInt8}
    {t : List Char} {n : Note} (h : Rule.noteMarks? tied accidental degree t = some n) :
    n.tied = tied ∧ n.accidental = accidental ∧ n.degree = degree ∧ n.CountedFrom t := by
  obtain ⟨raised, t₁, hraised⟩ : ∃ k rest, Rule.leading '+' t = (k, rest) := ⟨_, _, rfl⟩
  obtain ⟨lowered, t₂, hlowered⟩ : ∃ k rest,
      (if raised = 0 then Rule.leading '-' t₁ else (0, t₁)) = (k, rest) := ⟨_, _, rfl⟩
  obtain ⟨halvings, t₃, hhalvings⟩ : ∃ k rest, Rule.leading '_' t₂ = (k, rest) := ⟨_, _, rfl⟩
  obtain ⟨dots, t₄, hdots⟩ : ∃ k rest, Rule.leading '.' t₃ = (k, rest) := ⟨_, _, rfl⟩
  have hoctave : t = octaveSigns ((raised : Int) - lowered) ++ t₂ := by
    by_cases hzero : raised = 0
    · rw [if_pos hzero] at hlowered
      rw [octaveSigns_sub (.inl hzero), List.append_assoc, ← eq_append_of_leading hlowered]
      exact eq_append_of_leading hraised
    · rw [if_neg hzero] at hlowered
      cases hlowered
      rw [octaveSigns_sub (.inr rfl), List.replicate_zero, List.append_nil]
      exact eq_append_of_leading hraised
  have hlength := eq_append_of_leading hhalvings
  rw [eq_append_of_leading hdots] at hlength
  rw [hlength] at hoctave
  simp only [Rule.noteMarks?, hraised, hlowered, hhalvings, hdots] at h
  split at h
  · cases h
    exact ⟨rfl, rfl, rfl, halvings, dots, rfl, rfl, hoctave⟩
  · cases h
    exact ⟨rfl, rfl, rfl, halvings, dots, rfl, rfl, hoctave⟩
  · exact absurd h (by simp)

/-- In a token of fewer than `2 ^ 32` characters no count wraps. -/
theorem Note.CountedFrom.eq_signs {n : Note} {signs : List Char} (h : n.CountedFrom signs)
    (hlength : signs.length < UInt32.size) : signs = n.signs := by
  obtain ⟨halvings, dots, hhalvings, hdots, rfl⟩ := h
  simp only [List.length_append, List.length_replicate] at hlength
  have hcounts : n.halvings.toNat = halvings ∧ n.dots.toNat = dots := by
    rw [hhalvings, hdots]
    exact ⟨UInt32.toNat_ofNat_of_lt' (by omega), UInt32.toNat_ofNat_of_lt' (by omega)⟩
  rw [Note.signs, Note.lengthSigns, hcounts.1, hcounts.2]

theorem Note.CountedFrom.mem {n : Note} {signs : List Char} (h : n.CountedFrom signs) {c : Char}
    (hmem : c ∈ signs) : c ∈ ['+', '-', '_', '.', '&'] := by
  obtain ⟨halvings, dots, -, -, rfl⟩ := h
  simp only [octaveSigns, List.mem_append, List.mem_replicate] at hmem
  rcases hmem with hoctave | hhalving | hdot | hgrace
  · rw [hoctave.2]
    split <;> simp
  · simp [hhalving.2]
  · simp [hdot.2]
  · split at hgrace <;> simp_all

theorem mem_signs {n : Note} {c : Char} (h : c ∈ n.signs) : c ∈ ['+', '-', '_', '.', '&'] :=
  (countedFrom_signs n).mem h

/-- No sign behind a degree can be taken for a part of it. -/
theorem not_beginsDegree_of_mem_signs {n : Note} {c : Char} (h : c ∈ n.signs) :
    ¬ beginsDegree c := by
  have hsign := mem_signs h
  simp only [List.mem_cons, List.not_mem_nil, or_false] at hsign
  unfold beginsDegree
  rcases hsign with rfl | rfl | rfl | rfl | rfl <;> decide

theorem exists_name_of_noteBody? {tied : Bool} {accidental : Accidental} {t : List Char} {n : Note}
    (h : Rule.noteBody? tied accidental t = some n) :
    n.tied = tied ∧ n.accidental = accidental ∧
      ∃ name signs, Spells.Degree name n.degree ∧ n.CountedFrom signs ∧ t = name ++ signs := by
  obtain ⟨⟨d, rest⟩, hdegree, hmarks⟩ := Option.bind_eq_some_iff.1 h
  obtain ⟨name, hname, rfl⟩ := exists_name_of_degree? hdegree
  obtain ⟨rfl, rfl, rfl, hsigns⟩ := countedFrom_of_noteMarks? hmarks
  exact ⟨rfl, rfl, name, rest, hname, hsigns, rfl⟩

/-- In a short token the signs are those of the note. -/
theorem eq_signs_of_noteBody? {tied : Bool} {accidental : Accidental} {t : List Char} {n : Note}
    (ht : t.length < UInt32.size) (h : Rule.noteBody? tied accidental t = some n) :
    n.tied = tied ∧ n.accidental = accidental ∧
      ∃ name, Spells.Degree name n.degree ∧ t = name ++ n.signs := by
  obtain ⟨htied, haccidental, name, signs, hname, hsigns, rfl⟩ := exists_name_of_noteBody? h
  rw [List.length_append] at ht
  obtain rfl := hsigns.eq_signs (by omega)
  exact ⟨htied, haccidental, name, hname, rfl⟩

theorem noteBody?_append {n : Note} {name : List Char} (h : Spells.Degree name n.degree) :
    Rule.noteBody? n.tied n.accidental (name ++ n.signs) = some n := by
  have hstop : ∀ c ∈ n.signs.head?, c.isAlpha = false := by
    intro c hmem
    have hsign := not_beginsDegree_of_mem_signs (List.mem_of_mem_head? hmem)
    exact Bool.not_eq_true _ ▸ (not_or.1 hsign).1
  rw [Rule.noteBody?, degree?_append h hstop, Option.bind_some]
  exact noteMarks?_written n

/-- The sign of an accidental is read as that accidental, and no other is. -/
theorem ofChar?_eq_some_iff {c : Char} {accidental : Accidental} :
    Accidental.ofChar? c = some accidental ↔
      accidental ≠ .natural ∧ accidental.sign = [c] := by
  unfold Accidental.ofChar?
  split <;> cases accidental <;> simp_all [Accidental.sign, eq_comm]

/-- Of the characters that a degree begins with, only a `b` can be a sign as well. -/
theorem ofChar?_of_beginsDegree {c : Char} {accidental : Accidental} (h : beginsDegree c)
    (hsign : Accidental.ofChar? c = some accidental) : c = 'b' ∧ accidental = .flat := by
  obtain ⟨hne, hc⟩ := ofChar?_eq_some_iff.1 hsign
  cases accidental with
  | flat => exact ⟨(List.singleton_inj.1 hc).symm, rfl⟩
  | natural => exact absurd rfl hne
  | sharp =>
      obtain rfl := List.singleton_inj.1 hc
      exact absurd h (by unfold beginsDegree; decide)

/-- Where no degree begins behind a `b`, it is no flat. -/
theorem noteBody?_eq_none {tied : Bool} {accidental : Accidental} {t : List Char}
    (h : ∀ c ∈ t.head?, ¬ beginsDegree c) : Rule.noteBody? tied accidental t = none := by
  rw [Rule.noteBody?, degree?_eq_none h, Option.bind_none]

/-- A name that goes on behind a `b` is a name without it as well. -/
theorem exists_degree_of_cons {c : Char} {name : List Char} {d : UInt8}
    (h : Spells.Degree ('b' :: c :: name) d) : ∃ d', Spells.Degree (c :: name) d' := by
  generalize hwhole : 'b' :: c :: name = whole at h
  cases h with
  | digit => simp at hwhole
  | letters hne hletters =>
      subst hwhole
      exact ⟨_, .letters (List.cons_ne_nil _ _) (List.forall_mem_cons.1 hletters).2⟩

/-- Where no note can be read behind a `b`, no degree begins there. -/
theorem not_beginsDegree_of_noteBody? {n : Note} {name : List Char}
    (hname : Spells.Degree name n.degree) {c : Char} {rest : List Char}
    (hb : name ++ n.signs = 'b' :: c :: rest)
    (hnone : Rule.noteBody? n.tied .flat (c :: rest) = none) : ¬ beginsDegree c := by
  intro hc
  obtain ⟨a, letters, rfl, -⟩ := hname.exists_cons
  obtain ⟨rfl, hrest⟩ := List.cons.inj hb
  cases letters with
  | nil =>
      -- the sign behind the name would begin a degree
      have hrest : n.signs = c :: rest := hrest
      have hmem : c ∈ n.signs := hrest ▸ List.mem_cons_self
      exact not_beginsDegree_of_mem_signs hmem hc
  | cons a letters =>
      -- the rest of the name would be read behind the flat
      obtain ⟨d, hd⟩ := exists_degree_of_cons hname
      have hflat : Rule.noteBody? n.tied .flat (a :: letters ++ n.signs)
          = some { n with accidental := .flat, degree := d } :=
        noteBody?_append (n := { n with accidental := .flat, degree := d }) hd
      have hrest : a :: letters ++ n.signs = c :: rest := hrest
      rw [← hrest, hflat] at hnone
      exact absurd hnone (by simp)

theorem untied_of_signedNote? {tied : Bool} {t : List Char} {n : Note}
    (ht : t.length < UInt32.size) (h : Rule.signedNote? tied t = some n) :
    n.tied = tied ∧ Spells.Untied t n := by
  rcases Option.or_eq_some_iff.1 h with hmarked | ⟨hnone, hplain⟩
  · cases t with
    | nil => exact absurd hmarked (by simp)
    | cons c rest =>
        obtain ⟨accidental, hsign, hbody⟩ := Option.bind_eq_some_iff.1 hmarked
        obtain ⟨hne, hc⟩ := ofChar?_eq_some_iff.1 hsign
        obtain ⟨htied, rfl, name, hname, rfl⟩ :=
          eq_signs_of_noteBody? (Nat.lt_of_succ_lt ht) hbody
        have hspelled := Spells.Untied.intro hname fun hnatural => absurd hnatural hne
        rw [hc] at hspelled
        exact ⟨htied, hspelled⟩
  · obtain ⟨rfl, hnatural, name, hname, rfl⟩ := eq_signs_of_noteBody? ht hplain
    have hflat : ∀ c rest, name ++ n.signs = 'b' :: c :: rest → ¬ beginsDegree c := by
      intro c rest hb
      rw [hb] at hnone
      exact not_beginsDegree_of_noteBody? hname hb hnone
    have hspelled := Spells.Untied.intro hname fun _ => hflat
    rw [hnatural] at hspelled
    exact ⟨rfl, hspelled⟩

theorem signedNote?_of_untied {t : List Char} {n : Note} (h : Spells.Untied t n) :
    Rule.signedNote? n.tied t = some n := by
  cases h with
  | @intro _ name hname hflat =>
      have hbody := noteBody?_append hname
      cases haccidental : n.accidental with
      | natural =>
          rw [haccidental] at hbody
          obtain ⟨c, rest, rfl, hc⟩ := hname.exists_cons
          have hmarked : ((Accidental.ofChar? c).bind fun accidental =>
              Rule.noteBody? n.tied accidental (rest ++ n.signs)) = none := by
            refine Option.bind_eq_none_iff.2 fun accidental hsign => ?_
            obtain ⟨rfl, rfl⟩ := ofChar?_of_beginsDegree hc hsign
            refine noteBody?_eq_none fun a ha => ?_
            obtain ⟨later, hlater⟩ := List.head?_eq_some_iff.1 ha
            exact hflat haccidental a later (congrArg ('b' :: ·) hlater)
          simp only [Accidental.sign, List.nil_append, List.cons_append, Rule.signedNote?,
            hmarked, Option.none_or]
          exact hbody
      | flat | sharp =>
          rw [haccidental] at hbody
          simp [Accidental.sign, Rule.signedNote?, Accidental.ofChar?, hbody]

/-! ### Reading by the rules -/

theorem Spells.Number.not_mem {digits : List Char} {n : UInt32} {c : Char}
    (h : Spells.Number digits n) (hc : c.isDigit = false) : c ∉ digits := by
  intro hmem
  rw [h.digit c hmem] at hc
  exact Bool.noConfusion hc

theorem tempo?_eq_some_iff {t : List Char} {m : Mark} :
    Rule.tempo? t = some m ↔ Spells .tempo t m := by
  constructor
  · intro h
    unfold Rule.tempo? at h
    split at h
    · obtain ⟨beats, hbeats, rfl⟩ := Option.map_eq_some_iff.1 h
      exact .tempo (word?_eq_some_iff.1 hbeats)
    · exact absurd h (by simp)
  · intro h
    cases h with
    | tempo h => rw [Rule.tempo?, word?_eq_some_iff.2 h, Option.map_some]

theorem signedLetter?_eq_some_iff {t : List Char} {accidental : Accidental} {letter : Letter} :
    Rule.signedLetter? t = some (accidental, letter) ↔
      t = accidental.sign ++ [letter.toChar] := by
  constructor
  · intro h
    have hletter : ∀ c, Letter.ofChar? c = some letter → c = letter.toChar := by
      intro c hc
      unfold Letter.ofChar? at hc
      split at hc <;> cases hc <;> rfl
    unfold Rule.signedLetter? at h
    split at h
    · obtain ⟨found, hfound, heq⟩ := Option.map_eq_some_iff.1 h
      cases heq
      rw [hletter _ hfound]
      rfl
    · obtain ⟨sign, hsign, h⟩ := Option.bind_eq_some_iff.1 h
      obtain ⟨found, hfound, heq⟩ := Option.bind_eq_some_iff.1 h
      cases heq
      rw [hletter _ hfound, (ofChar?_eq_some_iff.1 hsign).2]
      rfl
    · exact absurd h (by simp)
  · rintro rfl
    cases accidental <;>
      simp [Accidental.sign, Rule.signedLetter?, Accidental.ofChar?, Letter.ofChar?_toChar]

theorem key?_eq_some_iff {t : List Char} {m : Mark} :
    Rule.key? t = some m ↔ Spells .key t m := by
  constructor
  · intro h
    unfold Rule.key? at h
    split at h
    · next d pitch =>
        by_cases hzero : d = '0'
        · rw [if_pos hzero] at h
          exact absurd h (by simp)
        · rw [if_neg hzero] at h
          obtain ⟨tonic, htonic, h⟩ := Option.bind_eq_some_iff.1 h
          obtain ⟨⟨accidental, letter⟩, hpitch, h⟩ := Option.bind_eq_some_iff.1 h
          cases h
          obtain ⟨hle, rfl⟩ := degreeDigit?_eq_some_iff.1 htonic
          obtain rfl := signedLetter?_eq_some_iff.1 hpitch
          refine .key accidental letter (Nat.one_le_iff_ne_zero.2 fun htonic => ?_) hle
          rw [htonic] at hzero
          exact hzero rfl
    · exact absurd h (by simp)
  · intro h
    cases h with
    | key accidental letter hlo hhi =>
        have hpitch := signedLetter?_eq_some_iff.2 (rfl : accidental.sign ++ [letter.toChar] = _)
        have htonic := degreeDigit?_eq_some_iff.2 ⟨hhi, rfl⟩
        have hzero : ∀ k < 8, 1 ≤ k → Nat.digitChar k ≠ '0' := by decide
        simp [Rule.key?, hzero _ (Nat.lt_succ_of_le hhi) hlo, htonic, hpitch]

theorem time?_eq_some_iff {t : List Char} {m : Mark} :
    Rule.time? t = some m ↔ Spells .time t m := by
  constructor
  · intro h
    unfold Rule.time? at h
    split at h
    · next unit hdrop =>
        obtain ⟨beats, hbeats, h⟩ := Option.bind_eq_some_iff.1 h
        obtain ⟨value, hvalue, h⟩ := Option.bind_eq_some_iff.1 h
        cases h
        rw [← List.takeWhile_append_dropWhile (p := (· != '/')) (l := t), hdrop]
        exact .time (word?_eq_some_iff.1 hbeats) (word?_eq_some_iff.1 hvalue)
    · exact absurd h (by simp)
  · intro h
    cases h with
    | @time digits digits' beats unit h h' =>
        have hdigits : ∀ c ∈ digits, (c != '/') = true := by
          intro c hmem
          refine bne_iff_ne.2 fun hc => ?_
          exact h.not_mem (by decide) (hc ▸ hmem)
        have htake : (digits ++ '/' :: digits').takeWhile (· != '/') = digits := by
          rw [List.takeWhile_append_of_pos hdigits]
          simp
        have hdrop : (digits ++ '/' :: digits').dropWhile (· != '/') = '/' :: digits' := by
          rw [List.dropWhile_append_of_pos hdigits]
          simp
        simp only [Rule.time?, hdrop, htake, word?_eq_some_iff.2 h, word?_eq_some_iff.2 h']
        rfl

theorem dash?_eq_some_iff {t : List Char} {m : Mark} :
    Rule.dash? t = some m ↔ Spells .dash t m := by
  constructor
  · intro h
    unfold Rule.dash? at h
    split at h
    · cases h
      exact .dash
    · exact absurd h (by simp)
  · rintro ⟨⟩
    rfl

theorem bar?_eq_some_iff {t : List Char} {m : Mark} :
    Rule.bar? t = some m ↔ Spells .bar t m := by
  constructor
  · intro h
    unfold Rule.bar? at h
    split at h <;> cases h
    · exact .bar
    · exact .doubleBar
    · exact .repeatStart
    · exact .repeatStop
  · intro h
    cases h <;> rfl

theorem ending?_eq_some_iff {t : List Char} {m : Mark} :
    Rule.ending? t = some m ↔ Spells .ending t m := by
  constructor
  · intro h
    unfold Rule.ending? at h
    split at h
    · next rest =>
        by_cases hstop : rest.getLast? = some '.'
        · rw [if_pos hstop] at h
          obtain ⟨pass, hpass, rfl⟩ := Option.map_eq_some_iff.1 h
          obtain ⟨digits, rfl⟩ := List.getLast?_eq_some_iff.1 hstop
          rw [List.dropLast_concat] at hpass
          exact .ending (word?_eq_some_iff.1 hpass)
        · rw [if_neg hstop] at h
          exact absurd h (by simp)
    · exact absurd h (by simp)
  · intro h
    cases h with
    | ending h => simp [Rule.ending?, word?_eq_some_iff.2 h]

theorem Spells.Untied.ne_caret {t : List Char} {n : Note} (h : Spells.Untied t n)
    (rest : List Char) : t ≠ '^' :: rest := by
  cases h with
  | @intro _ name hname _ =>
      intro hcaret
      cases haccidental : n.accidental with
      | flat | sharp => simp [haccidental, Accidental.sign] at hcaret
      | natural =>
          obtain ⟨c, letters, rfl, hc⟩ := hname.exists_cons
          simp only [haccidental, Accidental.sign, List.nil_append, List.cons_append] at hcaret
          obtain ⟨rfl, -⟩ := List.cons.inj hcaret
          exact absurd hc (by unfold beginsDegree; decide)

theorem note?_eq_some_iff {t : List Char} {m : Mark} (ht : t.length < UInt32.size) :
    Rule.note? t = some m ↔ Spells .note t m := by
  constructor
  · intro h
    have hspelled : ∀ tied rest n, Rule.signedNote? tied rest = some n →
        rest.length < UInt32.size →
        Spells .note ((if tied then ['^'] else []) ++ rest) (.note n) := by
      intro tied rest n hn hrest
      obtain ⟨rfl, huntied⟩ := untied_of_signedNote? hrest hn
      exact .note huntied
    unfold Rule.note? at h
    split at h
    · obtain ⟨n, hn, rfl⟩ := Option.map_eq_some_iff.1 h
      exact hspelled true _ n hn (Nat.lt_of_succ_lt ht)
    · obtain ⟨n, hn, rfl⟩ := Option.map_eq_some_iff.1 h
      exact hspelled false _ n hn ht
  · intro h
    cases h with
    | @note t n h =>
        have hread := signedNote?_of_untied h
        by_cases htied : n.tied = true
        · rw [htied] at hread
          rw [if_pos htied, List.singleton_append, Rule.note?, hread, Option.map_some]
        · rw [eq_false_of_ne_true htied] at hread
          rw [if_neg htied, List.nil_append, Rule.note?, hread, Option.map_some]
          exact h.ne_caret

/-- A rule other than that for notes accepts exactly the tokens that are spelled for it. -/
theorem read?_eq_some_iff_of_ne_note {r : Rule} (hr : r ≠ .note) {t : List Char} {m : Mark} :
    r.read? t = some m ↔ Spells r t m := by
  cases r with
  | tempo => exact tempo?_eq_some_iff
  | key => exact key?_eq_some_iff
  | time => exact time?_eq_some_iff
  | note => exact absurd rfl hr
  | dash => exact dash?_eq_some_iff
  | bar => exact bar?_eq_some_iff
  | ending => exact ending?_eq_some_iff

/-- **A rule accepts exactly the tokens that are spelled for it.** -/
theorem read?_eq_some_iff {r : Rule} {t : List Char} {m : Mark} (ht : t.length < UInt32.size) :
    r.read? t = some m ↔ Spells r t m := by
  by_cases hr : r = .note
  · subst hr
    exact note?_eq_some_iff ht
  · exact read?_eq_some_iff_of_ne_note hr

/-! ### Telling the rules apart

Every rule but the one for notes has a character, or a whole token, that no rule behind it in
the list below uses.
-/

/-- The only rule that can accept a token. -/
def Rule.fitting (t : List Char) : Rule :=
  if '!' ∈ t then .tempo
  else if '=' ∈ t then .key
  else if '/' ∈ t then .time
  else if '[' ∈ t then .ending
  else if '|' ∈ t then .bar
  else if t = ['-'] then .dash
  else .note

theorem Spells.Degree.isAlphanum {name : List Char} {d : UInt8} (h : Spells.Degree name d) :
    ∀ c ∈ name, c.isAlphanum = true := by
  intro c hmem
  cases h with
  | digit hle =>
      obtain rfl := List.mem_singleton.1 hmem
      have hdigits : ∀ k < 8, (Nat.digitChar k).isAlphanum = true := by decide
      exact hdigits _ (by omega)
  | letters _ hletters => simp [Char.isAlphanum, hletters c hmem]

/-- No other rule fits a token that is put together like a note. -/
theorem fitting_of_parts {n : Note} {name signs : List Char} (hname : Spells.Degree name n.degree)
    (hsigns : n.CountedFrom signs) :
    Rule.fitting ((if n.tied then ['^'] else []) ++ (n.accidental.sign ++ (name ++ signs)))
      = .note := by
  have hmem : ∀ c ∈ (if n.tied then ['^'] else []) ++ (n.accidental.sign ++ (name ++ signs)),
      c.isAlphanum = true ∨ c ∈ ['^', '#', '+', '-', '_', '.', '&'] := by
    intro c hmem
    simp only [List.mem_append] at hmem
    rcases hmem with hcaret | haccidental | hletter | hsign
    · split at hcaret <;> simp_all
    · cases hsign : n.accidental <;> simp_all [Accidental.sign]
    · exact .inl (hname.isAlphanum c hletter)
    · exact .inr (List.mem_cons_of_mem _ (List.mem_cons_of_mem _ (hsigns.mem hsign)))
  have hnone : ∀ c ∈ ['!', '=', '/', '[', '|'],
      c ∉ (if n.tied then ['^'] else []) ++ (n.accidental.sign ++ (name ++ signs)) := by
    intro c hc hsign
    have hother := hmem c hsign
    simp only [List.mem_cons, List.not_mem_nil, or_false] at hc
    rcases hc with rfl | rfl | rfl | rfl | rfl <;> exact absurd hother (by decide)
  have hdash : (if n.tied then ['^'] else []) ++ (n.accidental.sign ++ (name ++ signs))
      ≠ ['-'] := by
    intro hdash
    obtain ⟨c, letters, rfl, -⟩ := hname.exists_cons
    have hc := hname.isAlphanum c List.mem_cons_self
    have hletter : c ∈ ['-'] := by
      rw [← hdash]
      simp
    obtain rfl := List.mem_singleton.1 hletter
    exact absurd hc (by decide)
  unfold Rule.fitting
  rw [if_neg (hnone '!' (by simp)), if_neg (hnone '=' (by simp)), if_neg (hnone '/' (by simp)),
    if_neg (hnone '[' (by simp)), if_neg (hnone '|' (by simp)), if_neg hdash]

/-- **No token is spelled for two rules.** -/
theorem Spells.fitting {r : Rule} {t : List Char} {m : Mark} (h : Spells r t m) :
    Rule.fitting t = r := by
  cases h with
  | tempo => rw [Rule.fitting, if_pos List.mem_cons_self]
  | @key tonic accidental letter _ hhi =>
      have hdigits : ∀ k < 8, '!' ≠ Nat.digitChar k := by decide
      have hdigit := hdigits tonic.toNat (by omega)
      have hpitch : '!' ∉ accidental.sign ++ [letter.toChar] := by
        cases accidental <;> cases letter <;> decide
      have hbang : '!' ∉ Nat.digitChar tonic.toNat :: '=' :: (accidental.sign ++ [letter.toChar]) :=
        List.not_mem_cons_of_ne_of_not_mem hdigit
          (List.not_mem_cons_of_ne_of_not_mem (by decide) hpitch)
      rw [Rule.fitting, if_neg hbang, if_pos (by simp)]
  | @time digits digits' _ _ h h' =>
      have hnone : ∀ c : Char, c.isDigit = false → c ≠ '/' → c ∉ digits ++ '/' :: digits' := by
        intro c hc hslash
        simp [h.not_mem hc, h'.not_mem hc, hslash]
      rw [Rule.fitting, if_neg (hnone '!' (by decide) (by decide)),
        if_neg (hnone '=' (by decide) (by decide)), if_pos (by simp)]
  | @ending digits _ h =>
      have hnone : ∀ c : Char, c.isDigit = false → c ≠ '[' → c ≠ '.' →
          c ∉ '[' :: (digits ++ ['.']) := by
        intro c hc hopen hstop
        simp [h.not_mem hc, hopen, hstop]
      rw [Rule.fitting, if_neg (hnone '!' (by decide) (by decide) (by decide)),
        if_neg (hnone '=' (by decide) (by decide) (by decide)),
        if_neg (hnone '/' (by decide) (by decide) (by decide)), if_pos List.mem_cons_self]
  | @note t n h =>
      cases h with
      | intro hname => exact fitting_of_parts hname (countedFrom_signs n)
  | dash | bar | doubleBar | repeatStart | repeatStop => rfl

/-! ### The mark of a token -/

/-- The spelling of a token decides its rule and its mark. -/
theorem Spells.unique {r r' : Rule} {t : List Char} {m m' : Mark} (ht : t.length < UInt32.size)
    (h : Spells r t m) (h' : Spells r' t m') : r = r' ∧ m = m' := by
  obtain rfl : r = r' := h.fitting.symm.trans h'.fitting
  have hread := (read?_eq_some_iff ht).2 h
  rw [(read?_eq_some_iff ht).2 h'] at hread
  exact ⟨rfl, (Option.some.inj hread).symm⟩

/-- A token that is spelled for a rule has the mark that it spells. -/
theorem ofToken_of_spells {r : Rule} {t : List Char} {m : Mark} (ht : t.length < UInt32.size)
    (h : Spells r t m) : Mark.ofToken t = m := by
  have hread := (read?_eq_some_iff ht).2 h
  cases hfirst : Rule.all.findSome? (·.read? t) with
  | none =>
      have hnone := List.findSome?_eq_none_iff.1 hfirst r r.mem_all
      rw [hread] at hnone
      exact absurd hnone (by simp)
  | some m' =>
      obtain ⟨r', -, hread'⟩ := List.exists_of_findSome?_eq_some hfirst
      obtain ⟨-, rfl⟩ := h.unique ht ((read?_eq_some_iff ht).1 hread')
      rw [Mark.ofToken, hfirst, Option.getD_some]

/-- A token that is spelled for no rule is unknown. -/
theorem ofToken_of_not_spells {t : List Char} (ht : t.length < UInt32.size)
    (h : ∀ r m, ¬ Spells r t m) : Mark.ofToken t = .unknown t := by
  have hnone : Rule.all.findSome? (·.read? t) = none := by
    refine List.findSome?_eq_none_iff.2 fun r _ => ?_
    refine Option.eq_none_iff_forall_ne_some.2 fun m hread => ?_
    exact h r m ((read?_eq_some_iff ht).1 hread)
  rw [Mark.ofToken, hnone, Option.getD_none]

/-- **A token has the mark that it spells, and is unknown if it spells none.** -/
theorem ofToken_eq_iff {t : List Char} {m : Mark} (ht : t.length < UInt32.size) :
    Mark.ofToken t = m ↔
      (∃ r, Spells r t m) ∨ (m = .unknown t ∧ ∀ r m', ¬ Spells r t m') := by
  constructor
  · rintro rfl
    by_cases hspelled : ∃ r m, Spells r t m
    · obtain ⟨r, m, h⟩ := hspelled
      rw [ofToken_of_spells ht h]
      exact .inl ⟨r, h⟩
    · have hnone : ∀ r m, ¬ Spells r t m := fun r m h => hspelled ⟨r, m, h⟩
      exact .inr ⟨ofToken_of_not_spells ht hnone, hnone⟩
  · rintro (⟨r, h⟩ | ⟨rfl, hnone⟩)
    · exact ofToken_of_spells ht h
    · exact ofToken_of_not_spells ht hnone

end NumberedScore
