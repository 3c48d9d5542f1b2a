/-
The marks that have a token.

Reading and writing are defined apart from each other, and a mark can be built that no token
has: a key on an eighth degree, a final bar line with a repeat sign, an unknown mark whose text
is a note.  Writing such a mark gives the token of another one, or of none.

`Mark.Spellable` says field by field which marks are not of this kind.  The canonical token of
a mark is read as that mark exactly if it is spellable, and so is any token at all
(`written_iff_spellable`).  The octave that has no opposite as a signed word is left out: its
canonical token is never read to its end.
-/
import NumberedScore.Proofs.Mark.Scan

namespace NumberedScore

/-- Whether the fields of a mark are in the range of its rule, and no rule takes what is unknown. -/
def Mark.Spellable : Mark → Prop
  | tempo _ => True
  | key tonic _ _ => 1 ≤ tonic.toNat ∧ tonic.toNat ≤ 7
  | time _ _ => True
  | note n => n.degree.toNat ≤ 7
  | dash => True
  | bar final turn => ¬ (final = true ∧ turn ≠ .none)
  | ending _ => True
  | unknown raw => Rule.of? raw = none

/-! ### Marks that are read -/

theorem of?_eq_none_iff {t : List Char} : Rule.of? t = none ↔ ∀ r : Rule, r.read? t = none := by
  simp only [Rule.of?, List.find?_eq_none, Option.not_isSome_iff_eq_none]
  exact ⟨fun h r => h r r.mem_all, fun h r _ => h r⟩

/-- A token that no rule accepts is unknown. -/
theorem ofToken_of_of?_eq_none {t : List Char} (h : Rule.of? t = none) :
    Mark.ofToken t = .unknown t := by
  have hnone : Rule.all.findSome? (·.read? t) = none :=
    List.findSome?_eq_none_iff.2 fun r _ => of?_eq_none_iff.1 h r
  rw [Mark.ofToken, hnone, Option.getD_none]

theorem isUnknown_of_read? {r : Rule} {t : List Char} {m : Mark} (h : r.read? t = some m) :
    m.isUnknown = false := by
  by_cases hr : r = .note
  · subst hr
    simp only [Rule.read?, Rule.note?] at h
    split at h <;>
      · obtain ⟨n, -, rfl⟩ := Option.map_eq_some_iff.1 h
        rfl
  · cases (read?_eq_some_iff_of_ne_note hr).1 h <;> rfl

/-- Apart from what is unknown, a mark is readable exactly if it is spellable. -/
theorem readable_iff_spellable {m : Mark} (hm : m.isUnknown = false) :
    m.Readable ↔ m.Spellable := by
  cases m with
  | unknown raw => exact Bool.noConfusion hm
  | bar final turn => simp [Mark.Readable, Mark.Spellable]
  | _ => exact Iff.rfl

/-- **Every token has a spellable mark.** -/
theorem spellable_ofToken (t : List Char) : (Mark.ofToken t).Spellable := by
  cases hread : Rule.all.findSome? (·.read? t) with
  | none =>
      have hnone : Rule.of? t = none := by
        refine of?_eq_none_iff.2 fun r => ?_
        exact List.findSome?_eq_none_iff.1 hread r r.mem_all
      rw [ofToken_of_of?_eq_none hnone]
      exact hnone
  | some m =>
      obtain ⟨r, -, hr⟩ := List.exists_of_findSome?_eq_some hread
      rw [Mark.ofToken, hread, Option.getD_some]
      exact (readable_iff_spellable (isUnknown_of_read? hr)).1 (readable_of_read? hr)

/-- **The canonical token of a spellable mark is read as that mark.** -/
theorem ofToken_written_of_spellable {m : Mark} (h : m.Spellable) : Mark.ofToken m.written = m := by
  by_cases hm : m.isUnknown = false
  · exact ofToken_written ((readable_iff_spellable hm).2 h)
  · cases m with
    | unknown raw => exact ofToken_of_of?_eq_none h
    | _ => exact absurd rfl hm

/-! ### Octaves in signed words -/

/-- Narrowing an octave leaves alone what makes a mark spellable. -/
theorem spellable_of_narrow? {m m' : Mark} (h : m.narrow? = some m') (hm : m.Spellable) :
    m'.Spellable := by
  cases m with
  | note n =>
      obtain ⟨n', hn, rfl⟩ := Option.map_eq_some_iff.1 h
      obtain ⟨octave, -, rfl⟩ := Option.map_eq_some_iff.1 hn
      exact hm
  | _ =>
      cases h
      exact hm

theorem Mark.narrow?_of_lt {m : Mark} (h : ∀ n, m = .note n → n.octave.natAbs < 2 ^ 31) :
    m.narrow? = some m := by
  cases m with
  | note n => rw [Mark.narrow?, Note.narrow?_of_lt (h n rfl), Option.map_some]
  | _ => rfl

/-- The octave without an opposite is not reached: its signs are counted past the word. -/
theorem Note.narrow?_minValue {n : Note} (h : n.octave = Int32.minValue.toInt) :
    n.narrow? = none := by
  rw [Note.narrow?, h]
  rfl

/--
**A mark is read back from its canonical token exactly if it is the mark of some token, and
exactly if it is spellable.**

Both hold of reading by the rules and of reading by offsets.
-/
theorem Mark.written_iff_spellable (m : Mark)
    (hoctave : ∀ n, m = .note n → n.octave.natAbs < 2 ^ 31) :
    (Mark.ofToken m.written = m ↔ m.Spellable) ∧
      ((∃ t, Mark.ofToken t = m) ↔ m.Spellable) ∧
      (Mark.scan? m.written = some m ↔ m.Spellable) ∧
      ((∃ t, Mark.scan? t = some m) ↔ m.Spellable) := by
  have hspelled : (∃ t, Mark.ofToken t = m) → m.Spellable := by
    rintro ⟨t, rfl⟩
    exact spellable_ofToken t
  have hscanned : (∃ t, Mark.scan? t = some m) → m.Spellable := by
    rintro ⟨t, hscan⟩
    rw [scan?_eq_narrow?] at hscan
    exact spellable_of_narrow? hscan (spellable_ofToken t)
  have hwritten : m.Spellable → Mark.scan? m.written = some m := by
    intro hm
    rw [scan?_eq_narrow?, ofToken_written_of_spellable hm, Mark.narrow?_of_lt hoctave]
  refine ⟨⟨fun h => hspelled ⟨_, h⟩, ofToken_written_of_spellable⟩,
    ⟨hspelled, fun h => ⟨_, ofToken_written_of_spellable h⟩⟩,
    ⟨fun h => hscanned ⟨_, h⟩, hwritten⟩, ⟨hscanned, fun h => ⟨_, hwritten h⟩⟩⟩

/-- No token has an eighth degree. -/
theorem Mark.written_iff_spellable_eighth :
    (∀ n, Mark.note { degree := 8, octave := 2 } = .note n → n.octave.natAbs < 2 ^ 31) ∧
      ¬ ∃ t, Mark.scan? t = some (.note { degree := 8, octave := 2 }) := by
  have hoctave : ∀ n, Mark.note { degree := 8, octave := 2 } = .note n →
      n.octave.natAbs < 2 ^ 31 := by
    intro n hn
    obtain rfl := Mark.note.inj hn
    decide
  obtain ⟨-, -, -, hscanned⟩ := Mark.written_iff_spellable _ hoctave
  refine ⟨hoctave, fun h => ?_⟩
  have hdegree : (8 : UInt8).toNat ≤ 7 := hscanned.1 h
  exact absurd hdegree (by decide)

end NumberedScore
