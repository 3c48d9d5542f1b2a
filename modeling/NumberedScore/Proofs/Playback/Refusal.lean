/-
What stands in the way of a performance.

There are three checks, one behind the other, and each has its own faults.  The settings come
first.  Then all of the score is searched for a zero, whether it is ever played or not, and the
first one is at fault.  What passes both has nothing left to fail but the range of the numbers,
and the fault is at the first node played after which they are not finite.

That the second check is enough is an invariant of the run.  `Score.Reaches` lists where a run
can get to, the last state of one that fails included, and in all of these places the beat is a
minute cut up by a tempo that is not zero, and the unit is not zero (`Player.NonZero`).  So
whatever a mark divides by (`Player.divisors`) is above zero.
-/
import NumberedScore.Proofs.Binary64.Unsigned
import NumberedScore.Proofs.Playback.Straight

namespace NumberedScore

open Binary64

variable {settings : Settings} {score : Score} {fault : Fault} {p q : Player}

/-! ### What the first two checks find -/

theorem exists_settings_fault?_iff :
    (∃ reason, settings.fault? = some reason) ↔ settings.Faulty := by
  rw [← Option.ne_none_iff_exists', Ne, settings_fault?_eq_none_iff, not_not]

/-- The fault of a score is that of the first node that has one. -/
theorem score_fault?_of_first {before after : Score} {node : Node}
    (hbefore : ∀ earlier ∈ before, ¬ earlier.mark.IsZero) (hnode : node.fault? = some fault) :
    Score.fault? (before ++ node :: after) = some fault := by
  have hnone : before.findSome? Node.fault? = none :=
    List.findSome?_eq_none_iff.2 fun earlier hmem => node_fault?_eq_none_iff.2 (hbefore _ hmem)
  rw [Score.fault?, List.findSome?_append, hnone, Option.none_or, List.findSome?_cons, hnode]

theorem exists_score_fault?_iff :
    (∃ fault, score.fault? = some fault) ↔ ∃ node ∈ score, node.mark.IsZero := by
  rw [← Option.ne_none_iff_exists', Ne, score_fault?_eq_none_iff]
  simp [node_fault?_eq_none_iff]

/-- The fault of a score is one of its zeros. -/
theorem eq_zero_of_score_fault? (h : score.fault? = some fault) :
    ∃ span, fault = .zeroTempo span ∨ fault = .zeroUnit span := by
  obtain ⟨node, -, hnode⟩ := List.exists_of_findSome?_eq_some h
  rcases node_fault?_eq_some_iff.1 hnode with ⟨-, rfl⟩ | ⟨-, rfl⟩
  · exact ⟨_, .inl rfl⟩
  · exact ⟨_, .inr rfl⟩

/-! ### Numbers in range -/

/-- What the player knows after some nodes, were they not checked. -/
def Player.after (tuning : Tuning) (p : Player) (nodes : Score) : Player :=
  (nodes.map (·.mark)).foldl (Player.play tuning) p

theorem playNode_eq (settings : Settings) (p : Player) (node : Node) : settings.playNode p node
    = if (p.after settings.tuning [node]).inRange then .ok (p.after settings.tuning [node])
      else .error (.outOfRange node.span) := rfl

/-- Nodes are played to their end if the numbers are in range after each of them. -/
theorem foldlM_playNode_eq_ok_iff {nodes : Score} (hrange : p.inRange = true) :
    nodes.foldlM settings.playNode p = .ok q ↔
      (∀ earlier, earlier <+: nodes → (p.after settings.tuning earlier).inRange = true) ∧
        p.after settings.tuning nodes = q := by
  induction nodes generalizing p with
  | nil =>
      have hnil : ([] : Score).foldlM settings.playNode p = .ok p := rfl
      rw [hnil, Except.ok.injEq]
      refine (and_iff_right fun earlier hprefix => ?_).symm
      rw [List.prefix_nil.1 hprefix]
      exact hrange
  | cons node rest ih =>
      rw [List.foldlM_cons, playNode_eq]
      have hrest : ∀ nodes, (p.after settings.tuning [node]).after settings.tuning nodes
          = p.after settings.tuning (node :: nodes) := fun _ => rfl
      split
      · next hnode =>
          refine (ih hnode).trans (and_congr_left fun _ => ⟨fun h earlier hprefix => ?_, ?_⟩)
          · rcases List.prefix_cons_iff.1 hprefix with rfl | ⟨later, rfl, hlater⟩
            · exact hrange
            · exact h later hlater
          · intro h later hlater
            rw [hrest]
            exact h _ ((List.prefix_cons_inj node).2 hlater)
      · next hnode =>
          refine iff_of_false (by simp [bind, Except.bind]) fun h => hnode ?_
          exact h.1 [node] ⟨rest, rfl⟩

/-- What goes wrong is that the numbers are not in range after a node, the first such. -/
theorem foldlM_playNode_eq_error_iff {nodes : Score} (hrange : p.inRange = true) :
    nodes.foldlM settings.playNode p = .error fault ↔
      ∃ before node after, nodes = before ++ node :: after ∧
        (∀ earlier, earlier <+: before → (p.after settings.tuning earlier).inRange = true) ∧
        (p.after settings.tuning (before ++ [node])).inRange = false ∧
        fault = .outOfRange node.span := by
  have hlast : ∀ before node, p.after settings.tuning (before ++ [node])
      = (p.after settings.tuning before).after settings.tuning [node] := by
    intro before node
    simp only [Player.after, List.map_append, List.foldl_append]
  constructor
  · intro h
    obtain ⟨before, node, after, q, rfl, hbefore, hnode⟩ := exists_of_foldlM_error h
    obtain ⟨hearlier, rfl⟩ := (foldlM_playNode_eq_ok_iff hrange).1 hbefore
    refine ⟨before, node, after, rfl, hearlier, ?_, fault_of_playNode hnode⟩
    rw [playNode_eq, ← hlast] at hnode
    split at hnode
    · exact absurd hnode (by simp)
    · next hout => exact Bool.not_eq_true _ ▸ hout
  · rintro ⟨before, node, after, rfl, hearlier, hout, rfl⟩
    have hbefore := (foldlM_playNode_eq_ok_iff hrange).2 ⟨hearlier, rfl⟩
    rw [List.foldlM_append, hbefore]
    show (node :: after).foldlM settings.playNode _ = _
    rw [List.foldlM_cons, playNode_eq, ← hlast, hout]
    rfl

/-! ### Reachable states -/

/-- What the player knows when the walk has come to a node. -/
def Player.attend (tuning : Tuning) (p : Player) (visit : Visit Node) : Player :=
  if visit.fate = .skipped then p else p.play tuning visit.node.mark

/-- Where the walk and the player can get to; from numbers out of range they get no further. -/
inductive Score.Reaches (settings : Settings) (score : Score) : Place Node → Player → Prop where
  | start : Reaches settings score
      ⟨score, {}, some (returnsAllowed settings.passes.toNat score)⟩ settings.player
  | on {place next : Place Node} {visit : Visit Node} {p : Player}
      (h : Reaches settings score place p) (hrange : p.inRange = true)
      (hstep : place.step Node.cue settings.passes.toNat = some (visit, next)) :
      Reaches settings score next (p.attend settings.tuning visit)

theorem follow_eq (visit : Visit Node) (hrange : p.inRange = true) : settings.follow p visit
    = if (p.attend settings.tuning visit).inRange then .ok (p.attend settings.tuning visit)
      else .error (.outOfRange visit.node.span) := by
  unfold Settings.follow Player.attend
  by_cases hskipped : visit.fate = .skipped
  · rw [if_pos hskipped, if_pos hskipped, if_pos hrange]
  · rw [if_neg hskipped, if_neg hskipped]
    rfl

/-- A run that starts in a place that is reached ends in one. -/
theorem exists_reaches_of_carried {place : Place Node} {outcome : Except Fault Player}
    (h : Carried Node.cue settings.passes.toNat settings.follow place p outcome)
    (hp : score.Reaches settings place p) (hrange : p.inRange = true) :
    ∃ last q, score.Reaches settings last q ∧
      (q.inRange = true ∧ last.ahead = [] ∧ outcome = .ok q ∨
        q.inRange = false ∧ ∃ fault, outcome = .error fault) := by
  induction h with
  | @finished place p hstep =>
      exact ⟨place, p, hp, .inl ⟨hrange, step_eq_none_iff.1 hstep, rfl⟩⟩
  | @refused place next visit p fault hstep hno =>
      refine ⟨next, _, .on hp hrange hstep, .inr ⟨?_, fault, rfl⟩⟩
      rw [follow_eq visit hrange] at hno
      split at hno
      · exact absurd hno (by simp)
      · next hout => exact Bool.not_eq_true _ ▸ hout
  | @on place next visit p q outcome hstep hyes _ ih =>
      rw [follow_eq visit hrange] at hyes
      split at hyes
      · next hnext =>
          obtain rfl := Except.ok.inj hyes
          exact ih (.on hp hrange hstep) hnext
      · exact absurd hyes (by simp)

namespace Score.Reaches

variable {place next : Place Node} {visit : Visit Node}

theorem sound (h : score.Reaches settings place p) :
    place.Sound ∧ place.remaining <:+ score := by
  induction h with
  | start => exact ⟨sound_start _ _, List.suffix_refl _⟩
  | on _ _ hstep ih =>
      have hstepped := stepped_of_step hstep
      exact ⟨hstepped.sound ih.1, (hstepped.remaining_suffix ih.1).trans ih.2⟩

/-- The walk comes to nodes of the score only. -/
theorem node_mem (h : score.Reaches settings place p)
    (hstep : place.step Node.cue settings.passes.toNat = some (visit, next)) :
    visit.node ∈ score :=
  h.sound.2.subset ((stepped_of_step hstep).node_mem h.sound.1)

end Score.Reaches

/-! ### What is divided by -/

/-- Whether the unit is not zero, and the tempo that the beat comes from is not zero either. -/
structure Player.NonZero (p : Player) : Prop where
  unit : p.unit ≠ 0
  beat : ∃ tempo : UInt32, tempo ≠ 0 ∧ p.beat = 60 / tempo.toFloat

/-- The numbers that playing a mark divides by. -/
def Player.divisors (p : Player) : Mark → List Float
  | .tempo beats => [beats.toFloat]
  | .note _ | .dash => [p.unit.toFloat]
  | _ => []

theorem nonZero_player (h : settings.fault? = none) : settings.player.NonZero := by
  have hfaulty := settings_fault?_eq_none_iff.1 h
  exact ⟨fun hunit => hfaulty (.inr (.inl hunit)), settings.tempo, tempo_ne_zero h, rfl⟩

theorem nonZero_play (h : p.NonZero) {mark : Mark} (hmark : ¬ mark.IsZero) (tuning : Tuning) :
    (p.play tuning mark).NonZero := by
  cases mark with
  | tempo beats => exact ⟨h.unit, beats, hmark, rfl⟩
  | time beats unit => exact ⟨hmark, h.beat⟩
  | note n =>
      have hkeeps : (p.playNote tuning n).unit = p.unit ∧ (p.playNote tuning n).beat = p.beat := by
        by_cases hstrikes : p.strikes n = true <;>
          simp [Player.playNote, hstrikes, Player.emit]
      exact ⟨hkeeps.1 ▸ h.unit, hkeeps.2 ▸ h.beat⟩
  | key | dash | bar | ending | unknown => exact ⟨h.unit, h.beat⟩

theorem pos_of_mem_divisors (h : p.NonZero) {mark : Mark} (hmark : ¬ mark.IsZero) :
    ∀ divisor ∈ p.divisors mark, 0 < divisor := by
  cases mark with
  | tempo beats => exact List.forall_mem_singleton.2 (toFloat_pos hmark)
  | note | dash => exact List.forall_mem_singleton.2 (toFloat_pos h.unit)
  | key | time | bar | ending | unknown => exact fun divisor hmem => absurd hmem List.not_mem_nil

theorem Score.Reaches.nonZero {place : Place Node} (h : score.Reaches settings place p)
    (hsettings : settings.fault? = none) (hscore : ∀ node ∈ score, ¬ node.mark.IsZero) :
    p.NonZero := by
  induction h with
  | start => exact nonZero_player hsettings
  | on h _ hstep ih =>
      unfold Player.attend
      split
      · exact ih
      · exact nonZero_play ih (hscore _ (h.node_mem hstep)) settings.tuning

/-! ### Performing a score -/

namespace Score

/-- Whether the first node played after which the numbers are not in range stands here. -/
def LeavesRange (settings : Settings) (score : Score) (span : Span) : Prop :=
  ∃ before node after, score.played settings = before ++ node :: after ∧
    (∀ earlier, earlier <+: before →
      (settings.player.after settings.tuning earlier).inRange = true) ∧
    (settings.player.after settings.tuning (before ++ [node])).inRange = false ∧
    span = node.span

theorem perform_eq_error_iff_leavesRange (h : score.refusal? settings = none) :
    score.perform settings = .error fault ↔
      ∃ span, fault = .outOfRange span ∧ score.LeavesRange settings span := by
  have hstraight : score.perform settings = .error fault ↔
      (score.played settings).foldlM settings.playNode settings.player = .error fault := by
    rw [perform_eq_straight h, straight]
    cases (score.played settings).foldlM settings.playNode settings.player <;> simp [Except.map]
  rw [hstraight, foldlM_playNode_eq_error_iff (inRange_player settings)]
  constructor
  · rintro ⟨before, node, after, hplayed, hearlier, hout, rfl⟩
    exact ⟨node.span, rfl, before, node, after, hplayed, hearlier, hout, rfl⟩
  · rintro ⟨span, rfl, before, node, after, hplayed, hearlier, hout, rfl⟩
    exact ⟨before, node, after, hplayed, hearlier, hout, rfl⟩

/-- **Each fault comes from the first check that fails.** -/
theorem perform_eq_error_iff : score.perform settings = .error fault ↔
    (∃ reason, settings.fault? = some reason ∧ fault = .settings reason) ∨
    (¬ settings.Faulty ∧ score.fault? = some fault) ∨
    (¬ settings.Faulty ∧ (∀ node ∈ score, ¬ node.mark.IsZero) ∧
      ∃ span, fault = .outOfRange span ∧ score.LeavesRange settings span) := by
  cases hsettings : settings.fault? with
  | some reason =>
      have hfaulty := exists_settings_fault?_iff.1 ⟨reason, hsettings⟩
      have hrefusal : score.refusal? settings = some (.settings reason) := by
        rw [refusal?, hsettings]
      rw [perform_of_refusal hrefusal]
      simp [hfaulty, eq_comm]
  | none =>
      have hfine := settings_fault?_eq_none_iff.1 hsettings
      cases hscore : score.fault? with
      | some reason =>
          have hzero : ¬ ∀ node ∈ score, ¬ node.mark.IsZero := by
            obtain ⟨node, hmem, hnode⟩ := exists_score_fault?_iff.1 ⟨reason, hscore⟩
            exact fun hnone => hnone node hmem hnode
          have hrefusal : score.refusal? settings = some reason := by
            rw [refusal?, hsettings, hscore]
          rw [perform_of_refusal hrefusal]
          simp [hfine, hzero]
      | none =>
          have hzero : ∀ node ∈ score, ¬ node.mark.IsZero := fun node hmem =>
            node_fault?_eq_none_iff.1 (score_fault?_eq_none_iff.1 hscore node hmem)
          rw [perform_eq_error_iff_leavesRange (refusal?_eq_none_iff.2 ⟨hsettings, hscore⟩)]
          constructor
          · exact fun h => .inr (.inr ⟨hfine, hzero, h⟩)
          · rintro (⟨_, hnone, -⟩ | ⟨-, hnone⟩ | ⟨-, -, h⟩)
            · exact absurd hnone (by simp)
            · exact absurd hnone (by simp)
            · exact h

theorem perform_settings_iff :
    (∃ reason, score.perform settings = .error (.settings reason)) ↔ settings.Faulty := by
  rw [← exists_settings_fault?_iff]
  constructor
  · rintro ⟨reason, h⟩
    rcases perform_eq_error_iff.1 h with ⟨_, hreason, -⟩ | ⟨-, hscore⟩ | ⟨-, -, span, hout, -⟩
    · exact ⟨_, hreason⟩
    · obtain ⟨span, hzero⟩ := eq_zero_of_score_fault? hscore
      exact absurd hzero (by simp)
    · exact Fault.noConfusion hout
  · rintro ⟨reason, hreason⟩
    exact ⟨reason, perform_eq_error_iff.2 (.inl ⟨reason, hreason, rfl⟩)⟩

theorem perform_zero_iff (hfine : ¬ settings.Faulty) :
    (∃ span, score.perform settings = .error (.zeroTempo span) ∨
      score.perform settings = .error (.zeroUnit span)) ↔ ∃ node ∈ score, node.mark.IsZero := by
  rw [← exists_score_fault?_iff]
  constructor
  · rintro ⟨span, h | h⟩ <;>
      · rcases perform_eq_error_iff.1 h with ⟨_, -, hno⟩ | ⟨-, hscore⟩ | ⟨-, -, _, hno, -⟩
        · exact Fault.noConfusion hno
        · exact ⟨_, hscore⟩
        · exact Fault.noConfusion hno
  · rintro ⟨fault, hscore⟩
    have hperform := perform_eq_error_iff.2 (.inr (.inl ⟨hfine, hscore⟩))
    obtain ⟨span, rfl | rfl⟩ := eq_zero_of_score_fault? hscore
    · exact ⟨span, .inl hperform⟩
    · exact ⟨span, .inr hperform⟩

theorem perform_of_first_zero (hfine : ¬ settings.Faulty) {before after : Score} {node : Node}
    (hbefore : ∀ earlier ∈ before, ¬ earlier.mark.IsZero) (hnode : node.fault? = some fault) :
    perform settings (before ++ node :: after) = .error fault :=
  perform_eq_error_iff.2 (.inr (.inl ⟨hfine, score_fault?_of_first hbefore hnode⟩))

/-- A score that is not refused is run to its end, or until the numbers are out of range. -/
theorem exists_reaches_of_refusal? (h : score.refusal? settings = none) :
    ∃ place last, score.Reaches settings place last ∧
      (last.inRange = true ∧ place.ahead = [] ∧ score.perform settings = .ok last.finish ∨
        last.inRange = false ∧ ∃ fault, score.perform settings = .error fault) := by
  obtain ⟨place, last, hreaches, hend⟩ :=
    exists_reaches_of_carried (carried_iff_walk.2 rfl) .start (inRange_player settings)
  refine ⟨place, last, hreaches, ?_⟩
  rcases hend with ⟨hrange, hahead, hwalk⟩ | ⟨hrange, fault, hwalk⟩
  · exact .inl ⟨hrange, hahead, by simp only [perform, h, hwalk, Except.map]⟩
  · exact .inr ⟨hrange, fault, by simp only [perform, h, hwalk, Except.map]⟩

/--
**A performance fails in one of three ways, and never divides by zero.**

The settings fail it exactly if they are faulty.  If they are not, a zero anywhere in the score
fails it, and the first zero is at fault.  If there is none either, nothing that can be reached
divides by zero, and it fails exactly if the numbers leave their range, at the first node played
after which they have.
-/
theorem perform_faults (settings : Settings) (score : Score) :
    ((∃ reason, score.perform settings = .error (.settings reason)) ↔ settings.Faulty) ∧
    (settings.tuning.referenceFrequency.isNaN = true → settings.Faulty) ∧
    (¬ settings.Faulty →
      ((∃ span, score.perform settings = .error (.zeroTempo span) ∨
          score.perform settings = .error (.zeroUnit span)) ↔ ∃ node ∈ score, node.mark.IsZero) ∧
      ∀ before node after, score = before ++ node :: after →
        (∀ earlier ∈ before, ¬ earlier.mark.IsZero) →
        (node.mark = .tempo 0 → score.perform settings = .error (.zeroTempo node.span)) ∧
        ∀ beats, node.mark = .time beats 0 →
          score.perform settings = .error (.zeroUnit node.span)) ∧
    (¬ settings.Faulty → (∀ node ∈ score, ¬ node.mark.IsZero) →
      (∀ place p, score.Reaches settings place p → p.NonZero ∧
        ∀ visit next, place.step Node.cue settings.passes.toNat = some (visit, next) →
          ∀ divisor ∈ p.divisors visit.node.mark, 0 < divisor) ∧
      (∃ place last, score.Reaches settings place last ∧
        (last.inRange = true ∧ place.ahead = [] ∧ score.perform settings = .ok last.finish ∨
          last.inRange = false ∧ ∃ fault, score.perform settings = .error fault)) ∧
      ∀ fault, score.perform settings = .error fault ↔
        ∃ span, fault = .outOfRange span ∧ score.LeavesRange settings span) := by
  refine ⟨perform_settings_iff, fun hnan => .inr (.inr (.inr (not_pos_of_isNaN hnan))),
    fun hfine => ⟨perform_zero_iff hfine, ?_⟩, fun hfine hzero => ?_⟩
  · rintro before node after rfl hbefore
    exact ⟨fun hmark =>
        perform_of_first_zero hfine hbefore (node_fault?_eq_some_iff.2 (.inl ⟨hmark, rfl⟩)),
      fun beats hmark => perform_of_first_zero hfine hbefore
        (node_fault?_eq_some_iff.2 (.inr ⟨⟨beats, hmark⟩, rfl⟩))⟩
  · have hsettings := settings_fault?_eq_none_iff.2 hfine
    have hscore : score.fault? = none := score_fault?_eq_none_iff.2 fun node hmem =>
      node_fault?_eq_none_iff.2 (hzero node hmem)
    have hrefusal := refusal?_eq_none_iff.2 ⟨hsettings, hscore⟩
    refine ⟨fun place p hreaches => ?_, exists_reaches_of_refusal? hrefusal,
      fun fault => perform_eq_error_iff_leavesRange hrefusal⟩
    have hp := hreaches.nonZero hsettings hzero
    exact ⟨hp, fun visit next hstep => pos_of_mem_divisors hp (hzero _ (hreaches.node_mem hstep))⟩

/-- A reference so high that three octaves above it there are no numbers left. -/
def screeching : Settings := { tuning := { referenceFrequency := 1e308 } }

/-- A note out of range, and behind it an ending that is never played. -/
def overtone : Score := ofText "6+++ [3. !1".toList

/-- A zero in the ending is at fault for all that, and without it the note is. -/
theorem perform_faults_overtone :
    ¬ screeching.Faulty ∧
      perform screeching (overtone.take 2 ++ [⟨⟨9, 11⟩, none, "!0".toList, .tempo 0⟩])
        = .error (.zeroTempo ⟨9, 11⟩) ∧
      (∀ node ∈ overtone, ¬ node.mark.IsZero) ∧
      overtone.perform screeching = .error (.outOfRange ⟨0, 4⟩) ∧
      ∃ reason, overtone.perform { tuning := { referenceFrequency := 0 / 0 } }
        = .error (.settings reason) := by
  have hfine : ¬ screeching.Faulty := by decide +kernel
  have hzero : ∀ node ∈ overtone, ¬ node.mark.IsZero := by decide +kernel
  have hplayed : overtone.played screeching
      = [] ++ ⟨⟨0, 4⟩, some ⟨1, 1⟩, "6+++".toList, .note { degree := 6, octave := 3 }⟩ ::
        [⟨⟨5, 8⟩, some ⟨1, 6⟩, "[3.".toList, .ending 3⟩] := by decide +kernel
  obtain ⟨-, -, hfirst, -⟩ := perform_faults screeching
    (overtone.take 2 ++ [⟨⟨9, 11⟩, none, "!0".toList, .tempo 0⟩])
  obtain ⟨-, -, -, hlast⟩ := perform_faults screeching overtone
  obtain ⟨hsettings, hnan, -⟩ :=
    perform_faults { tuning := { referenceFrequency := 0 / 0 } } overtone
  refine ⟨hfine, ?_, hzero, ?_, hsettings.2 (hnan (by decide +kernel))⟩
  · exact ((hfirst hfine).2 _ _ [] rfl (by decide +kernel)).1 rfl
  · refine ((hlast hfine hzero).2.2 _).2
      ⟨_, rfl, _, _, _, hplayed, fun earlier hprefix => ?_, by decide +kernel, rfl⟩
    rw [List.prefix_nil.1 hprefix]
    exact inRange_player screeching

end Score

end NumberedScore
