/-
Rules exclude each other.

No token is accepted by two rules, however long it is.  Short tokens are accepted as they are
spelled, and no token is spelled for two rules.  In a long one the counts of a note may wrap, so
that it is no longer spelled as it is read; but it is still put together like a note
(`exists_parts_of_note?`), and that is all that tells it from the tokens of other rules.

So the order in which rules are tried decides nothing: whoever asks all of them gets the answer
of the only one that fits (`findSome?_read?_eq`).
-/
import NumberedScore.Proofs.Mark.Canonical

namespace NumberedScore

variable {r r' : Rule} {t : List Char} {m m' : Mark}

/-! ### The rule that fits -/

theorem exists_parts_of_signedNote? {tied : Bool} {n : Note}
    (h : Rule.signedNote? tied t = some n) :
    n.tied = tied ∧ ∃ name signs, Spells.Degree name n.degree ∧ n.CountedFrom signs ∧
      t = n.accidental.sign ++ (name ++ signs) := by
  rcases Option.or_eq_some_iff.1 h with hmarked | ⟨-, hplain⟩
  · cases t with
    | nil => exact absurd hmarked (by simp)
    | cons c rest =>
        obtain ⟨accidental, hsign, hbody⟩ := Option.bind_eq_some_iff.1 hmarked
        obtain ⟨htied, rfl, name, signs, hname, hsigns, rfl⟩ := exists_name_of_noteBody? hbody
        refine ⟨htied, name, signs, hname, hsigns, ?_⟩
        rw [(ofChar?_eq_some_iff.1 hsign).2, List.singleton_append]
  · obtain ⟨htied, hnatural, name, signs, hname, hsigns, rfl⟩ := exists_name_of_noteBody? hplain
    refine ⟨htied, name, signs, hname, hsigns, ?_⟩
    rw [hnatural]
    rfl

/-- How a token is put together that is read as a note. -/
theorem exists_parts_of_note? (h : Rule.note? t = some m) :
    ∃ n name signs, m = .note n ∧ Spells.Degree name n.degree ∧ n.CountedFrom signs ∧
      t = (if n.tied then ['^'] else []) ++ (n.accidental.sign ++ (name ++ signs)) := by
  unfold Rule.note? at h
  split at h <;>
    · obtain ⟨n, hn, rfl⟩ := Option.map_eq_some_iff.1 h
      obtain ⟨htied, name, signs, hname, hsigns, rfl⟩ := exists_parts_of_signedNote? hn
      exact ⟨n, name, signs, rfl, hname, hsigns, by rw [htied]; rfl⟩

/-- **A token fits the rule that accepts it.** -/
theorem fitting_of_read? (h : r.read? t = some m) : Rule.fitting t = r := by
  by_cases hr : r = .note
  · subst hr
    obtain ⟨n, name, signs, rfl, hname, hsigns, rfl⟩ := exists_parts_of_note? h
    exact fitting_of_parts hname hsigns
  · exact ((read?_eq_some_iff_of_ne_note hr).1 h).fitting

theorem eq_of_read? (h : r.read? t = some m) (h' : r'.read? t = some m') : r = r' :=
  (fitting_of_read? h).symm.trans (fitting_of_read? h')

/-! ### Asking all rules -/

section

variable {rules : List Rule} (hall : ∀ r, r ∈ rules) (t : List Char)

include hall

/-- The first answer is that of the rule that fits. -/
theorem findSome?_read?_eq : rules.findSome? (·.read? t) = (Rule.fitting t).read? t := by
  cases hfirst : rules.findSome? (·.read? t) with
  | none => exact (List.findSome?_eq_none_iff.1 hfirst _ (hall _)).symm
  | some m =>
      obtain ⟨r, -, hread⟩ := List.exists_of_findSome?_eq_some hfirst
      rw [fitting_of_read? hread, hread]

/-- The first rule to accept is the one that fits, if it accepts. -/
theorem find?_read?_eq : rules.find? (fun r => (r.read? t).isSome)
    = ((Rule.fitting t).read? t).map fun _ => Rule.fitting t := by
  cases hfirst : rules.find? (fun r => (r.read? t).isSome) with
  | none =>
      have hnone := List.find?_eq_none.1 hfirst (Rule.fitting t) (hall _)
      rw [Option.not_isSome_iff_eq_none.1 hnone, Option.map_none]
  | some r =>
      have haccepts : (r.read? t).isSome = true :=
        List.find?_some (p := fun r => (Rule.read? r t).isSome) hfirst
      obtain ⟨m, hread⟩ := Option.isSome_iff_exists.1 haccepts
      rw [fitting_of_read? hread, hread, Option.map_some]

end

theorem ofToken_eq_fitting (t : List Char) :
    Mark.ofToken t = ((Rule.fitting t).read? t).getD (.unknown t) := by
  rw [Mark.ofToken, findSome?_read?_eq Rule.mem_all]

theorem of?_eq_fitting (t : List Char) :
    Rule.of? t = ((Rule.fitting t).read? t).map fun _ => Rule.fitting t :=
  find?_read?_eq Rule.mem_all t

theorem of?_eq_some_iff : Rule.of? t = some r ↔ ∃ m, r.read? t = some m := by
  rw [of?_eq_fitting, Option.map_eq_some_iff]
  constructor
  · rintro ⟨m, hread, rfl⟩
    exact ⟨m, hread⟩
  · rintro ⟨m, hread⟩
    obtain rfl := fitting_of_read? hread
    exact ⟨m, hread, rfl⟩

theorem ofToken_of_read? (h : r.read? t = some m) : Mark.ofToken t = m := by
  rw [ofToken_eq_fitting, fitting_of_read? h, h, Option.getD_some]

/-! ### The rule of a mark -/

/-- The rule whose marks are of this kind. -/
def Mark.rule? : Mark → Option Rule
  | tempo _ => some .tempo
  | key .. => some .key
  | time .. => some .time
  | note _ => some .note
  | dash => some .dash
  | bar .. => some .bar
  | ending _ => some .ending
  | unknown _ => none

theorem rule?_of_read? (h : r.read? t = some m) : m.rule? = some r := by
  by_cases hr : r = .note
  · subst hr
    obtain ⟨n, -, -, rfl, -⟩ := exists_parts_of_note? h
    rfl
  · cases (read?_eq_some_iff_of_ne_note hr).1 h <;> rfl

/-- The rule of a token is that of its mark. -/
theorem of?_eq_rule? (t : List Char) : Rule.of? t = (Mark.ofToken t).rule? := by
  rw [of?_eq_fitting, ofToken_eq_fitting]
  cases hread : (Rule.fitting t).read? t with
  | none => rfl
  | some m => rw [Option.map_some, Option.getD_some, rule?_of_read? hread]

/--
**No rule shadows another.**

At most one rule accepts a token.  So rules may be tried in any order, when they read the token
and when they read it by offsets, and the rule of a token and the kind of its mark are one and
the same: a token is unknown exactly if it has no rule.
-/
theorem Rule.read?_exclusive (t : List Char) :
    (∀ (r r' : Rule) (m m' : Mark), r.read? t = some m → r'.read? t = some m' → r = r') ∧
    (∀ rules : List Rule, rules.Perm Rule.all →
      (rules.findSome? (·.read? t)).getD (.unknown t) = Mark.ofToken t ∧
      rules.find? (fun r => (r.read? t).isSome) = Rule.of? t ∧
      (Rule.scanFirst? t rules).map (·.getD (.unknown t)) = Mark.scan? t) ∧
    (∀ r, Rule.of? t = some r ↔ (Mark.ofToken t).rule? = some r) ∧
    (Rule.of? t = none ↔ Mark.ofToken t = .unknown t) := by
  refine ⟨fun r r' m m' h h' => eq_of_read? h h', fun rules hperm => ?_, fun r => ?_, ?_⟩
  · have hall : ∀ r, r ∈ rules := fun r => hperm.mem_iff.2 r.mem_all
    refine ⟨?_, ?_, ?_⟩
    · rw [findSome?_read?_eq hall, ofToken_eq_fitting]
    · rw [find?_read?_eq hall, of?_eq_fitting]
    · rw [Mark.scan?, scanFirst?_eq, scanFirst?_eq, findSome?_read?_eq hall,
        findSome?_read?_eq Rule.mem_all]
  · rw [of?_eq_rule?]
  · constructor
    · exact ofToken_of_of?_eq_none
    · intro hunknown
      rw [of?_eq_rule?, hunknown]
      rfl

/-- A dot behind a bracket is no dot of a note, and a time signature begins like a note. -/
theorem Rule.read?_exclusive_reversed :
    Rule.all.reverse.Perm Rule.all ∧
      (Rule.all.reverse.findSome? (·.read? "[7.".toList)).getD (.unknown "[7.".toList) = .ending 7 ∧
      Rule.all.reverse.find? (fun r => (r.read? "7/8".toList).isSome) = some .time ∧
      Rule.of? "7.-".toList = none := by
  obtain ⟨hmark, -, -⟩ := (Rule.read?_exclusive "[7.".toList).2.1 _ (List.reverse_perm _)
  obtain ⟨-, hrule, -⟩ := (Rule.read?_exclusive "7/8".toList).2.1 _ (List.reverse_perm _)
  exact ⟨List.reverse_perm _, hmark.trans (by decide), hrule.trans (by decide),
    (Rule.read?_exclusive "7.-".toList).2.2.2.2 (by decide)⟩

end NumberedScore
