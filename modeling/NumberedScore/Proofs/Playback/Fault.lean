/-
What a score that is not refused is known to have.

The settings and all of the score are checked before anything is played, so whatever is
played has passed these checks: no tempo in it is zero, and no time signature has a beat
without note value.  `Settings.Faulty` and `Mark.IsZero` say what is looked for.
-/
import NumberedScore.Playback.Performance

namespace NumberedScore

variable {settings : Settings} {score : Score} {node : Node} {fault : Fault}

/-! ### Settings -/

/-- Whether settings have a zero where there must be none, or a reference that is not positive. -/
def Settings.Faulty (s : Settings) : Prop :=
  s.tempo = 0 ∨ s.unit = 0 ∨ s.passes = 0 ∨ ¬ 0 < s.tuning.referenceFrequency

instance (s : Settings) : Decidable s.Faulty :=
  inferInstanceAs (Decidable (s.tempo = 0 ∨ s.unit = 0 ∨ s.passes = 0 ∨
    ¬ 0 < s.tuning.referenceFrequency))

theorem settings_fault?_eq_none_iff : settings.fault? = none ↔ ¬ settings.Faulty := by
  unfold Settings.fault? Settings.Faulty
  by_cases htempo : settings.tempo = 0
  · simp [htempo]
  · by_cases hunit : settings.unit = 0
    · simp [htempo, hunit]
    · by_cases hpasses : settings.passes = 0 <;> simp [htempo, hunit, hpasses]

theorem tempo_ne_zero (h : settings.fault? = none) : settings.tempo ≠ 0 :=
  fun hzero => settings_fault?_eq_none_iff.1 h (.inl hzero)

theorem passes_ne_zero (h : settings.fault? = none) : settings.passes.toNat ≠ 0 :=
  fun hzero => settings_fault?_eq_none_iff.1 h (.inr (.inr (.inl (UInt32.toNat_inj.1 hzero))))

/-! ### Nodes -/

/-- Whether a mark is a tempo without beats or a time signature without a unit. -/
def Mark.IsZero : Mark → Prop
  | tempo beats => beats = 0
  | time _ unit => unit = 0
  | _ => False

instance : DecidablePred Mark.IsZero
  | .tempo beats => inferInstanceAs (Decidable (beats = 0))
  | .time _ unit => inferInstanceAs (Decidable (unit = 0))
  | .key .. | .note _ | .dash | .bar .. | .ending _ | .unknown _ =>
    inferInstanceAs (Decidable False)

theorem node_fault?_eq_none_iff : node.fault? = none ↔ ¬ node.mark.IsZero := by
  unfold Node.fault?
  cases node.mark <;> simp [Mark.IsZero]

/-- The fault of a node tells what kind of zero it is. -/
theorem node_fault?_eq_some_iff : node.fault? = some fault ↔
    (node.mark = .tempo 0 ∧ fault = .zeroTempo node.span) ∨
      (∃ beats, node.mark = .time beats 0) ∧ fault = .zeroUnit node.span := by
  unfold Node.fault?
  cases node.mark <;> simp [eq_comm]

theorem mark_ne_zeroTempo (h : node.fault? = none) : node.mark ≠ .tempo 0 := by
  intro hmark
  have hzero := node_fault?_eq_none_iff.1 h
  rw [hmark] at hzero
  exact hzero rfl

/-- The fault of a node points at it. -/
theorem span?_of_fault? (h : node.fault? = some fault) : fault.span? = some node.span := by
  rcases node_fault?_eq_some_iff.1 h with ⟨-, rfl⟩ | ⟨-, rfl⟩ <;> rfl

/-! ### Scores -/

/-- A score has no fault if none of its nodes has. -/
theorem score_fault?_eq_none_iff :
    score.fault? = none ↔ ∀ node ∈ score, node.fault? = none :=
  List.findSome?_eq_none_iff

/-- Nodes that have no fault can be left out of the search for one. -/
theorem fault?_map_filter {α : Type} (node : α → Node) {keep : α → Bool}
    (hfine : ∀ a, keep a = false → (node a).fault? = none) (nodes : List α) :
    Score.fault? ((nodes.filter keep).map node) = Score.fault? (nodes.map node) := by
  induction nodes with
  | nil => rfl
  | cons a rest ih =>
      unfold Score.fault? at ih ⊢
      cases hkeep : keep a with
      | true =>
          rw [List.filter_cons_of_pos hkeep, List.map_cons, List.map_cons, List.findSome?_cons,
            List.findSome?_cons, ih]
      | false =>
          rw [List.filter_cons_of_neg (by simp [hkeep]), List.map_cons, List.findSome?_cons,
            hfine a hkeep, ih]

theorem refusal?_eq_none_iff :
    score.refusal? settings = none ↔ settings.fault? = none ∧ score.fault? = none := by
  unfold Score.refusal?
  cases settings.fault? <;> simp

theorem Score.perform_of_refusal
    (h : score.refusal? settings = some fault) : score.perform settings = .error fault := by
  simp [perform, h]

/-- What can be performed was not refused. -/
theorem Score.refusal?_of_perform {p : Performance}
    (h : score.perform settings = .ok p) : score.refusal? settings = none := by
  cases hrefusal : score.refusal? settings with
  | none => rfl
  | some fault =>
      rw [perform_of_refusal hrefusal] at h
      exact absurd h (by simp)

theorem exists_ok_of_isOk {ε α : Type} {outcome : Except ε α} (h : outcome.isOk = true) :
    ∃ a, outcome = .ok a := by
  cases outcome with
  | ok a => exact ⟨a, rfl⟩
  | error fault => exact Bool.noConfusion h

/-- The same when a property of the result is computed with it. -/
theorem exists_ok_of_map {ε α β : Type} {outcome : Except ε α} {f : α → β} {b : β}
    (h : (outcome.map f).toOption = some b) : ∃ a, outcome = .ok a ∧ f a = b := by
  cases outcome with
  | ok a => exact ⟨a, rfl, Option.some.inj h⟩
  | error fault => exact nomatch h

end NumberedScore
