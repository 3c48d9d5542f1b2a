/-
More behind a score.

A walk does not look beyond the next node, so whatever stands behind the end of a score is
met only when the score has been walked through.  A repeat sign there may send the walk back
into it, but not undo what was met before.  So the visits of a score are the first visits of
any longer one (`visits_append`).  The longer score is allowed more returns, which is why the
walks are compared without a limit on them.

A player in turn only ever adds events (`exists_events_foldlM`).  Hence a longer score is
performed like the shorter one up to the boundary that closes it, and a fault on the way
stops both (`perform_append`).
-/
import NumberedScore.Proofs.Playback.Music

namespace NumberedScore

variable {α : Type} {cue : α → Cue} {passes : Nat}

/-! ### The same walk in a longer score -/

/-- A walk goes on in the same way if the score does. -/
theorem Walked.append_right {place last : Place α} {visits : List (Visit α)}
    (h : Walked cue passes place visits last) (more : List α) :
    Walked cue passes (place.along (· ++ more)) visits (last.along (· ++ more)) := by
  induction h with
  | here place => exact .here _
  | on hstep _ ih =>
      have hstepped := stepped_of_step hstep
      exact .on (step_of_stepped (hstepped.along (· ++ more) rfl fun _ => rfl)) ih

/-! ### Events are only added -/

/-- Whether a mark is a note or a rest. -/
def Mark.isNote : Mark → Bool
  | note _ => true
  | _ => false

namespace Player

theorem exists_events_playNote (tuning : Tuning) (p : Player) (n : Note) :
    ∃ added, (p.playNote tuning n).events = added ++ p.events ∧ added.length ≤ 2 := by
  by_cases hstrikes : p.strikes n = true
  · simp only [playNote, if_pos hstrikes, emit]
    exact ⟨[_, _], rfl, Nat.le_refl 2⟩
  · simp only [playNote, if_neg hstrikes, emit]
    exact ⟨[_], rfl, Nat.le_succ 1⟩

/-- A note adds at most two events, and no other mark adds one. -/
theorem exists_events_play (tuning : Tuning) (p : Player) (mark : Mark) :
    ∃ added, (p.play tuning mark).events = added ++ p.events ∧
      added.length ≤ 2 * mark.isNote.toNat := by
  cases mark with
  | note n => exact exists_events_playNote tuning p n
  | _ => exact ⟨[], rfl, Nat.le_refl 0⟩

/-- A performance ends with a boundary, behind all that was played. -/
theorem exists_finish_events (p : Player) :
    ∃ time, p.finish.events = p.events.reverse ++ [.boundary p.beat p.held time] := by
  refine ⟨((p.emit p.boundary).events.head?.map Event.time).getD 0, ?_⟩
  unfold finish emit
  cases hevents : p.events with
  | nil => rfl
  | cons last earlier => simp [boundary, Event.notBefore, Event.time]

end Player

variable {settings : Settings} {score : Score}

theorem exists_events_foldlM {nodes : Score} {p q : Player}
    (h : nodes.foldlM settings.playNode p = .ok q) :
    ∃ added, q.events = added ++ p.events ∧
      added.length ≤ 2 * nodes.countP (·.mark.isNote) := by
  induction nodes generalizing p with
  | nil => exact ⟨[], congrArg Player.events (Except.ok.inj h).symm, Nat.le_refl 0⟩
  | cons node rest ih =>
      rw [List.foldlM_cons] at h
      cases hplay : settings.playNode p node with
      | error fault => simp [hplay, bind, Except.bind] at h
      | ok next =>
          rw [hplay] at h
          obtain ⟨later, hlater, hcount⟩ := ih h
          obtain ⟨added, hadded, hone⟩ := p.exists_events_play settings.tuning node.mark
          rw [play_of_playNode hplay] at hadded
          refine ⟨later ++ added, by rw [hlater, hadded, List.append_assoc], ?_⟩
          rw [List.length_append, countP_cons_eq]
          omega

/-! ### Performing a longer score -/

namespace Score

/-- A score is walked through before anything behind it is. -/
theorem visits_append (settings : Settings) {more : Score}
    (h : (score ++ more).length < UInt32.size) :
    ∃ later, (score ++ more).visits settings = score.visits settings ++ later := by
  have hscore : score.length < UInt32.size := by
    rw [List.length_append] at h
    omega
  obtain ⟨mid, hshort, -⟩ := walked_score_visits settings hscore
  obtain ⟨last, hlong, hend⟩ := walked_score_visits settings h
  obtain ⟨later, hvisits, -⟩ := (hshort.append_right more).continues hlong hend
  exact ⟨later, hvisits⟩

theorem played_append (settings : Settings) {more : Score}
    (h : (score ++ more).length < UInt32.size) :
    ∃ later, (score ++ more).played settings = score.played settings ++ later := by
  obtain ⟨later, hvisits⟩ := visits_append settings h
  refine ⟨(later.filter (·.fate ≠ .skipped)).map (·.node), ?_⟩
  simp only [played, hvisits, List.filter_append, List.map_append]

/--
**Appending never changes what came before.**  The events of a score are the first events of
any longer one that can be performed, but for the boundary that closes it, and where a score
gets out of range so does every longer one.
-/
theorem perform_append (settings : Settings) {more : Score}
    (h : (score ++ more).length < UInt32.size) (hfault : (score ++ more).fault? = none) :
    (∀ long, (score ++ more).perform settings = .ok long →
      ∃ short events beat held time, score.perform settings = .ok short ∧
        short.events = events ++ [.boundary beat held time] ∧ events <+: long.events) ∧
    ∀ span, score.perform settings = .error (.outOfRange span) →
      (score ++ more).perform settings = .error (.outOfRange span) := by
  cases hsettings : settings.fault? with
  | some reason => simp [perform_of_settings_fault hsettings]
  | none =>
      have hscore : score.fault? = none := score_fault?_eq_none_iff.2 fun node hmem =>
        score_fault?_eq_none_iff.1 hfault node (List.mem_append_left _ hmem)
      obtain ⟨later, hplayed⟩ := played_append settings h
      rw [perform_eq_straight (refusal?_eq_none_iff.2 ⟨hsettings, hfault⟩),
        perform_eq_straight (refusal?_eq_none_iff.2 ⟨hsettings, hscore⟩), hplayed, straight,
        straight, List.foldlM_append]
      cases hshort : (score.played settings).foldlM settings.playNode settings.player with
      | error fault =>
          -- the longer score stops at the same node
          refine ⟨fun long hlong => ?_, fun span hspan => hspan⟩
          exact absurd hlong (by simp [bind, Except.bind, Except.map])
      | ok last =>
          refine ⟨fun long hlong => ?_, fun span hspan => absurd hspan (by simp [Except.map])⟩
          replace hlong : (later.foldlM settings.playNode last).map Player.finish = .ok long :=
            hlong
          cases hlater : later.foldlM settings.playNode last with
          | error fault => simp [hlater, Except.map] at hlong
          | ok final =>
              rw [hlater] at hlong
              obtain rfl : final.finish = long := Except.ok.inj hlong
              obtain ⟨added, hadded, -⟩ := exists_events_foldlM hlater
              obtain ⟨time, hclosed⟩ := last.exists_finish_events
              obtain ⟨_, hend⟩ := final.exists_finish_events
              refine ⟨last.finish, last.events.reverse, last.beat, last.held, time, rfl, hclosed,
                ?_⟩
              rw [hend, hadded, List.reverse_append, List.append_assoc]
              exact List.prefix_append _ _

/-- A section whose repeat sign and second ending are still to be written. -/
def begun : Score := ofText "||: 1 [1. 0&".toList

/-- What ends the section, and goes back to its start once. -/
def completion : Score := ofText ":|| [2. 2 -".toList

/-- A rest longer than any number of seconds: so large a count is read as a negative one. -/
def endlessRest : Score :=
  [{ span := ⟨0, 1⟩, mark := .note { degree := 0, halvings := 4294965296 } }]

theorem perform_append_begun :
    ((begun ++ completion).length < UInt32.size ∧ (begun ++ completion).fault? = none ∧
      (endlessRest ++ completion).length < UInt32.size ∧
      (endlessRest ++ completion).fault? = none) ∧
    (∃ long short events beat held time, (begun ++ completion).perform {} = .ok long ∧
      begun.perform {} = .ok short ∧ short.events = events ++ [.boundary beat held time] ∧
      events <+: long.events) ∧
    endlessRest.perform {} = .error (.outOfRange ⟨0, 1⟩) ∧
      (endlessRest ++ completion).perform {} = .error (.outOfRange ⟨0, 1⟩) := by
  have h : (begun ++ completion).length < UInt32.size := by decide +kernel
  have hfault : (begun ++ completion).fault? = none := by decide +kernel
  have h' : (endlessRest ++ completion).length < UInt32.size := by decide +kernel
  have hfault' : (endlessRest ++ completion).fault? = none := by decide +kernel
  have hspan : endlessRest.perform {} = .error (.outOfRange ⟨0, 1⟩) := by
    have hstops : (match endlessRest.perform {} with
        | .error fault => decide (fault = .outOfRange ⟨0, 1⟩)
        | .ok _ => false) = true := by decide +kernel
    cases hperform : endlessRest.perform {} with
    | error fault =>
        rw [hperform] at hstops
        exact congrArg Except.error (of_decide_eq_true hstops)
    | ok p => simp [hperform] at hstops
  refine ⟨⟨h, hfault, h', hfault'⟩, ?_, hspan, (perform_append {} h' hfault').2 _ hspan⟩
  obtain ⟨long, hlong⟩ : ∃ long, (begun ++ completion).perform {} = .ok long :=
    exists_ok_of_isOk (by decide +kernel)
  obtain ⟨short, events, beat, held, time, hshort⟩ := (perform_append {} h hfault).1 long hlong
  exact ⟨long, short, events, beat, held, time, hlong, hshort⟩

end Score

end NumberedScore
