/-
Reading by offsets.

Every offset at which a token is cut is the size of something just read, and each sign is one
byte, so its count is a size.  So no cut ever misses.  What is left to break off is the octave:
reading by offsets is reading by the rules, with the octave of a note narrowed to a signed word
(`scan?_eq_narrow?`).  Octaves of fewer than `2 ^ 31` signs stay as they are, which leaves the
mark that the token spells.
-/
import Mathlib.Algebra.Order.Ring.Nat
import NumberedScore.Mark.Scan
import NumberedScore.Proofs.Mark.Grammar

namespace NumberedScore

open Text

/-! ### Cuts -/

theorem behind?_byteSize (s t : List Char) : behind? (byteSize s) (s ++ t) = some t := by
  rw [behind?, cut?_byteSize, Option.map_some]

/-- A character of one byte is taken off by a cut behind one byte. -/
theorem behind?_one {c : Char} (hc : c.utf8Size = 1) (t : List Char) :
    behind? 1 (c :: t) = some t := by
  have hcut := behind?_byteSize [c] t
  rwa [byteSize_cons, hc, byteSize_nil] at hcut

/-- A count of characters of one byte is the size of their run. -/
theorem byteSize_takeWhile_beq {c : Char} (hc : c.utf8Size = 1) (t : List Char) :
    byteSize (t.takeWhile (· == c)) = (Rule.leading c t).1 := by
  refine byteSize_eq_length fun a ha => ?_
  obtain rfl : a = c := beq_iff_eq.1 (List.all_eq_true.1 List.all_takeWhile a ha)
  exact hc

theorem behind?_leading {c : Char} (hc : c.utf8Size = 1) {t rest : List Char} {n : Nat}
    (h : Rule.leading c t = (n, rest)) : behind? n t = some rest := by
  obtain ⟨rfl, rfl⟩ := Prod.mk.inj h
  have hcut := behind?_byteSize (t.takeWhile (· == c)) (t.dropWhile (· == c))
  rwa [List.takeWhile_append_dropWhile, byteSize_takeWhile_beq hc] at hcut

/-! ### Narrowing -/

/-- A note whose octave has been counted in signed words, if they hold it. -/
def Note.narrow? (n : Note) : Option Note :=
  (Rule.signedSub? n.octave.toNat (-n.octave).toNat).map fun octave => { n with octave }

/-- A mark whose octave, if it has one, has been counted in signed words. -/
def Mark.narrow? : Mark → Option Mark
  | .note n => n.narrow?.map .note
  | m => some m

/-- Counts in the lower half of a word have a difference as signed words. -/
theorem signedSub?_of_lt {a b : Nat} (ha : a < 2 ^ 31) (hb : b < 2 ^ 31) :
    Rule.signedSub? a b = some ((a : Int) - b) := by
  have htoInt : ∀ n : Nat, n < 2 ^ 31 → n.toInt32.toInt = (n : Int) := by
    intro n hn
    exact Int32.toInt_ofNat_of_lt hn
  have hmin : Int32.minValue.toInt = -2 ^ 31 := rfl
  have hmax : Int32.maxValue.toInt = 2 ^ 31 - 1 := rfl
  simp only [Rule.signedSub?, htoInt a ha, htoInt b hb, hmin, hmax]
  rw [if_pos (by omega)]

/-- An octave is not narrowed if both it and its opposite are signed words. -/
theorem Note.narrow?_of_lt {n : Note} (h : n.octave.natAbs < 2 ^ 31) : n.narrow? = some n := by
  have hoctave : (n.octave.toNat : Int) - (-n.octave).toNat = n.octave := by omega
  rw [Note.narrow?, signedSub?_of_lt (by omega) (by omega), hoctave, Option.map_some]

/-! ### Notes -/

theorem scanMarks?_eq (tied : Bool) (accidental : Accidental) (degree : UInt8) (t : List Char) :
    Rule.scanMarks? tied accidental degree t
      = (Rule.noteMarks? tied accidental degree t).mapM Note.narrow? := by
  obtain ⟨raised, t₁, hraised⟩ : ∃ k rest, Rule.leading '+' t = (k, rest) := ⟨_, _, rfl⟩
  obtain ⟨lowered, t₂, hlowered⟩ : ∃ k rest,
      (if raised = 0 then Rule.leading '-' t₁ else (0, t₁)) = (k, rest) := ⟨_, _, rfl⟩
  obtain ⟨halvings, t₃, hhalvings⟩ : ∃ k rest, Rule.leading '_' t₂ = (k, rest) := ⟨_, _, rfl⟩
  obtain ⟨dots, t₄, hdots⟩ : ∃ k rest, Rule.leading '.' t₃ = (k, rest) := ⟨_, _, rfl⟩
  -- the octave signs are of one kind, so one cut takes off both
  obtain ⟨hcount, hcut, honly⟩ :
      (if raised = 0 then (Rule.leading '-' t).1 else 0) = lowered ∧
        behind? (raised + lowered) t = some t₂ ∧ (raised = 0 ∨ lowered = 0) := by
    by_cases hzero : raised = 0
    · rw [if_pos hzero] at hlowered ⊢
      subst hzero
      obtain rfl : t = t₁ := eq_append_of_leading hraised
      rw [hlowered, Nat.zero_add]
      exact ⟨rfl, behind?_leading rfl hlowered, .inl rfl⟩
    · rw [if_neg hzero] at hlowered ⊢
      cases hlowered
      exact ⟨rfl, behind?_leading rfl hraised, .inr rfl⟩
  have hraise : ((raised : Int) - lowered).toNat = raised := by omega
  have hlower : (-((raised : Int) - lowered)).toNat = lowered := by omega
  simp only [Rule.scanMarks?, Rule.noteMarks?, hraised, hlowered, hhalvings, hdots, hcount, hcut,
    behind?_leading rfl hhalvings, behind?_leading rfl hdots, Option.bind_eq_bind,
    Option.bind_some]
  have hnarrow : ∀ grace : Bool,
      (Rule.signedSub? raised lowered).map (fun octave =>
        some { tied, accidental, degree, octave, grace, dots := dots.toUInt32
               halvings := halvings.toUInt32 })
        = (some { tied, accidental, degree, octave := (raised : Int) - lowered, grace
                  dots := dots.toUInt32, halvings := halvings.toUInt32 }).mapM Note.narrow? := by
    intro grace
    simp only [Option.mapM_some, Note.narrow?, hraise, hlower, Option.map_eq_map, Option.map_map,
      Function.comp_def]
  split
  · exact hnarrow false
  · exact hnarrow true
  · simp_all

theorem scanBody?_eq (tied : Bool) (accidental : Accidental) (t : List Char) :
    Rule.scanBody? tied accidental t
      = (Rule.noteBody? tied accidental t).mapM Note.narrow? := by
  cases t with
  | nil => rfl
  | cons c t =>
      cases hdigit : Rule.degreeDigit? c with
      | some degree =>
          have hsize : c.utf8Size = 1 := by
            obtain ⟨hle, rfl⟩ := degreeDigit?_eq_some_iff.1 hdigit
            have hdigits : ∀ k < 8, (Nat.digitChar k).utf8Size = 1 := by decide
            exact hdigits _ (by omega)
          simp only [Rule.scanBody?, hdigit, behind?_one hsize, Option.bind_some, Rule.noteBody?,
            Rule.degree?]
          exact scanMarks?_eq tied accidental degree t
      | none =>
          by_cases hletter : c.isAlpha = true
          · have htake : (c :: t).takeWhile Char.isAlpha = c :: t.takeWhile Char.isAlpha :=
              List.takeWhile_cons_of_pos hletter
            have hcut := cut?_byteSize (c :: t.takeWhile Char.isAlpha) (t.dropWhile Char.isAlpha)
            rw [List.cons_append, List.takeWhile_append_dropWhile] at hcut
            have hpos : byteSize (c :: t.takeWhile Char.isAlpha) ≠ 0 := by
              have hsize := c.utf8Size_pos
              rw [byteSize_cons]
              omega
            simp only [Rule.scanBody?, hdigit, htake, if_neg hpos, hcut, Option.bind_some,
              Rule.noteBody?, Rule.degree?, if_pos hletter]
            exact scanMarks?_eq tied accidental _ _
          · simp [Rule.scanBody?, hdigit, hletter, Rule.noteBody?, Rule.degree?]

/-- A sign of pitch is one byte. -/
theorem utf8Size_of_ofChar? {c : Char} {accidental : Accidental}
    (h : Accidental.ofChar? c = some accidental) : c.utf8Size = 1 := by
  unfold Accidental.ofChar? at h
  split at h
  · rfl
  · rfl
  · exact absurd h (by simp)

theorem scanSigned?_eq (tied : Bool) (t : List Char) :
    Rule.scanSigned? tied t = (Rule.signedNote? tied t).mapM Note.narrow? := by
  cases t with
  | nil => rfl
  | cons c t =>
      cases hsign : Accidental.ofChar? c with
      | none => simp [Rule.scanSigned?, Rule.signedNote?, hsign, scanBody?_eq]
      | some accidental =>
          have hcut := behind?_one (utf8Size_of_ofChar? hsign) t
          cases hbody : Rule.noteBody? tied accidental t with
          | none => simp [Rule.scanSigned?, Rule.signedNote?, hsign, hcut, scanBody?_eq, hbody]
          | some n =>
              cases hnarrow : n.narrow? <;>
                simp [Rule.scanSigned?, Rule.signedNote?, hsign, hcut, scanBody?_eq, hbody, hnarrow]

/-! ### Rules -/

theorem scanNote?_eq (t : List Char) :
    Rule.scanNote? t = (Rule.note? t).mapM Mark.narrow? := by
  have hmark : ∀ read : Option Note,
      (read.mapM Note.narrow?).map (·.map Mark.note) = (read.map Mark.note).mapM Mark.narrow? := by
    intro read
    cases read with
    | none => rfl
    | some n => simp [Mark.narrow?, Function.comp_def]
  fun_cases Rule.scanNote? t with
  | case1 rest => rw [Rule.note?, scanSigned?_eq, hmark]
  | case2 t htied => rw [Rule.note?, scanSigned?_eq, hmark]; exact htied

/-- Only notes are narrowed. -/
theorem narrow?_of_spells {r : Rule} (hr : r ≠ .note) {t : List Char} {m : Mark}
    (h : Spells r t m) : m.narrow? = some m := by
  cases h with
  | note => exact absurd rfl hr
  | _ => rfl

theorem scan?_rule_eq (r : Rule) (t : List Char) : r.scan? t = (r.read? t).mapM Mark.narrow? := by
  by_cases hr : r = .note
  · subst hr
    exact scanNote?_eq t
  · have hscan : r.scan? t = some (r.read? t) := by
      cases r <;> first | rfl | exact absurd rfl hr
    rw [hscan]
    cases hread : r.read? t with
    | none => rfl
    | some m =>
        have hnarrow := narrow?_of_spells hr ((read?_eq_some_iff_of_ne_note hr).1 hread)
        rw [Option.mapM_some, hnarrow]
        rfl

theorem scanFirst?_eq (t : List Char) (rules : List Rule) :
    Rule.scanFirst? t rules = (rules.findSome? (·.read? t)).mapM Mark.narrow? := by
  induction rules with
  | nil => rfl
  | cons r rules ih =>
      rw [Rule.scanFirst?, scan?_rule_eq, List.findSome?_cons]
      cases hread : r.read? t with
      | none => exact ih
      | some m => cases hnarrow : m.narrow? <;> simp [hnarrow]

/-- **Reading by offsets is reading by the rules, up to an octave that leaves its word.** -/
theorem scan?_eq_narrow? (t : List Char) : Mark.scan? t = (Mark.ofToken t).narrow? := by
  rw [Mark.scan?, scanFirst?_eq, Mark.ofToken]
  cases Rule.all.findSome? (·.read? t) with
  | none => rfl
  | some m => cases hnarrow : m.narrow? <;> simp [hnarrow]

/-! ### The mark of a short token -/

/-- Each octave of a note is a character of its token. -/
theorem natAbs_octave_le {r : Rule} {t : List Char} {n : Note} (h : Spells r t (.note n)) :
    n.octave.natAbs ≤ t.length := by
  cases h with
  | note h =>
      cases h with
      | intro =>
          simp only [Note.signs, octaveSigns, List.length_append, List.length_replicate]
          omega

theorem length_lt_size {t : List Char} (ht : byteSize t < 2 ^ 31) : t.length < UInt32.size := by
  have hlength := length_le_byteSize t
  have hsize : UInt32.size = 2 ^ 32 := rfl
  omega

theorem narrow?_ofToken {t : List Char} (ht : byteSize t < 2 ^ 31) :
    (Mark.ofToken t).narrow? = some (Mark.ofToken t) := by
  have hlength := length_le_byteSize t
  cases hmark : Mark.ofToken t with
  | note n =>
      rcases (ofToken_eq_iff (length_lt_size ht)).1 hmark with ⟨r, h⟩ | ⟨h, -⟩
      · have hoctave := natAbs_octave_le h
        rw [Mark.narrow?, Note.narrow?_of_lt (by omega), Option.map_some]
      · exact Mark.noConfusion h
  | _ => rfl

/--
**Reading a token goes through, and finds the mark that the token spells.**

No cut misses and no octave leaves its word in a token of fewer than `2 ^ 31` bytes.  What it
spells is its mark, by whichever rule, and only a token that spells nothing is unknown.
-/
theorem Mark.ofToken_iff_spells {t : List Char} (ht : byteSize t < 2 ^ 31) :
    Mark.scan? t = some (Mark.ofToken t) ∧
      ∀ m, Mark.ofToken t = m ↔
        (∃ r, Spells r t m) ∨ (m = .unknown t ∧ ∀ r m', ¬ Spells r t m') := by
  constructor
  · rw [scan?_eq_narrow?, narrow?_ofToken ht]
  · intro m
    exact ofToken_eq_iff (length_lt_size ht)

/-- A tied grace note on a flat sixth degree, two octaves down, dotted and half as long. -/
theorem Mark.ofToken_iff_spells_flat :
    byteSize "^bla--_.&".toList < 2 ^ 31 ∧
      Spells .note "^bla--_.&".toList
        (.note { tied := true, accidental := .flat, degree := 6, octave := -2, dots := 1
                 halvings := 1, grace := true }) := by
  have hsize : byteSize "^bla--_.&".toList < 2 ^ 31 := by decide
  obtain ⟨-, hspells⟩ := Mark.ofToken_iff_spells hsize
  refine ⟨hsize, ?_⟩
  rcases (hspells _).1 rfl with ⟨r, h⟩ | ⟨hunknown, -⟩
  · obtain rfl : Rule.note = r := h.fitting
    exact h
  · exact absurd hunknown (by decide)

end NumberedScore
