/-
The clock in closed form.

What a player knows it knows from the marks it has played (`Recalls`), so its clock is the
sum of their seconds, and no repeat, ending or dash in between makes a difference.  When a
note sounds follows from what is known right before it is played: at the clock, put off
for the grace notes that wait, but not before the last event.

Grace notes add nothing to that sum, and say nothing about beat or unit.  Without them a
score takes as long as with them (`clockAfter_filter`).
-/
import NumberedScore.Proofs.Playback.History
import NumberedScore.Proofs.Playback.Inert

namespace NumberedScore

open Binary64

variable {settings : Settings} {score : Score}

/-! ### The pitch of a note -/

/-- The same event at another time. -/
def Event.movedTo (time : Float) : Event → Event
  | pitch frequency _ => pitch frequency time
  | boundary beat held _ => boundary beat held time

namespace Player

variable {p : Player}

/-- An event is added at its time, or at that of the event before it if that is later. -/
theorem events_emit (h : p.WellTimed) (event : Event) :
    (p.emit event).events
      = event.movedTo (p.events.head?.elim event.time fun last => max last.time event.time) ::
        p.events := by
  have hfinite := h.events
  unfold emit
  cases hevents : p.events with
  | nil => cases event <;> rfl
  | cons last earlier =>
      have hlast : last.time.isFinite = true :=
        Event.isFinite_time (hfinite last (hevents ▸ List.mem_cons_self))
      have hlater : Event.later event.time last.time = max last.time event.time :=
        Event.later_eq (isNaN_of_isFinite hlast)
      show event.notBefore last.time :: _ = event.movedTo (max last.time event.time) :: _
      rw [← hlater]
      cases event <;> rfl

/-- A note adds its pitch last, and no other one. -/
theorem exists_events_note (h : p.WellTimed) (tuning : Tuning) (n : Note) :
    ∃ frequency earlier, earlier.countP Event.isPitch = p.events.countP Event.isPitch ∧
      (p.playNote tuning n).events
        = .pitch frequency (earlier.head?.elim p.onset fun last => max last.time p.onset) ::
          earlier := by
  by_cases hstrikes : p.strikes n = true
  · refine ⟨p.frequencyOf tuning n, (p.emit p.boundary).events, countP_events_emit p _, ?_⟩
    simp only [playNote, if_pos hstrikes]
    exact events_emit (wellTimed_emit_boundary h) _
  · refine ⟨p.frequencyOf tuning n, p.events, rfl, ?_⟩
    simp only [playNote, if_neg hstrikes]
    exact events_emit h _

end Player

/-! ### Grace notes left out -/

/-- Grace notes are no headers. -/
theorem noteValueAfter_filter (past : List Mark) :
    settings.noteValueAfter (past.filter (!·.isGrace)) = settings.noteValueAfter past := by
  have hskip : ∀ f : Mark → Option UInt32, (∀ n, f (.note n) = none) →
      (past.filter (!·.isGrace)).filterMap f = past.filterMap f := by
    intro f hf
    rw [List.filterMap_filter]
    refine List.filterMap_congr fun mark _ => ?_
    cases hgrace : mark.isGrace with
    | true =>
        obtain ⟨n, rfl, -⟩ := Mark.exists_note_of_isGrace hgrace
        exact (hf n).symm
    | false => rfl
  unfold Settings.noteValueAfter Settings.beatAfter Settings.unitAfter
  rw [hskip Mark.tempo? fun _ => rfl, hskip Mark.unit? fun _ => rfl]

/-- Without its grace notes a score takes as long. -/
theorem clockAfter_filter (past : List Mark) :
    settings.clockAfter (past.filter (!·.isGrace)) = settings.clockAfter past := by
  induction past using List.reverseRecOn with
  | nil => rfl
  | append_singleton past mark ih =>
      rw [List.filter_append, clockAfter_concat]
      cases hgrace : mark.isGrace with
      | true =>
          obtain ⟨n, rfl, hn⟩ := Mark.exists_note_of_isGrace hgrace
          have hseconds : settings.seconds? past (.note n) = none := if_pos hn
          rw [List.filter_singleton, hgrace, hseconds]
          exact (congrArg _ (List.append_nil _)).trans ih
      | false =>
          have hseconds : settings.seconds? (past.filter (!·.isGrace)) mark
              = settings.seconds? past mark := by
            cases mark <;> simp only [Settings.seconds?, noteValueAfter_filter]
          rw [List.filter_singleton, hgrace]
          show settings.clockAfter (past.filter (!·.isGrace) ++ [mark]) = _
          rw [clockAfter_concat, hseconds, ih]

namespace Score

theorem marks_played_filter (settings : Settings) (h : score.length < UInt32.size) :
    marks (played settings (score.filter (!·.mark.isGrace)))
      = (marks (score.played settings)).filter (!·.isGrace) := by
  have hcue : ∀ node : Node, (!node.mark.isGrace) = false → node.cue = .other := by
    intro node hgrace
    obtain ⟨n, hmark, -⟩ := Mark.exists_note_of_isGrace (by simpa using hgrace)
    exact congrArg Mark.cue hmark
  rw [played_filter settings h hcue, marks, marks, List.filter_map]
  rfl

/-- The duration is the clock when everything is played. -/
theorem duration_of_perform {p : Performance} (h : score.perform settings = .ok p) :
    p.duration = settings.clockAfter (marks (score.played settings)) := by
  obtain ⟨last, rfl, hplay, hsettings, hfault⟩ := exists_run_of_perform h
  exact (recalls_of_foldlM hsettings hfault hplay).2.clock

/-- A note sounds at the clock, put off for the grace notes waiting, and not before what was. -/
theorem exists_pitch_of_perform {p : Performance} (h : score.perform settings = .ok p)
    {past rest : List Mark} {n : Note}
    (hmarks : marks (score.played settings) = past ++ .note n :: rest) :
    ∃ earlier frequency later, earlier.countP Event.isPitch = past.countP Mark.isNote ∧
      p.events = earlier ++ .pitch frequency (earlier.getLast?.elim (settings.onsetAfter past)
        fun last => max last.time (settings.onsetAfter past)) :: later := by
  obtain ⟨last, rfl, hplay, hsettings, hfault⟩ := exists_run_of_perform h
  -- the node of the note, and the player before it
  obtain ⟨before, nodes, hnodes, rfl, hnext⟩ := List.map_eq_append_iff.1 hmarks
  obtain ⟨node, after, rfl, hnode, -⟩ := List.map_eq_cons_iff.1 hnext
  rw [hnodes] at hplay hfault
  obtain ⟨mid, next, hbefore, hnote, hafter⟩ := exists_between_of_foldlM hplay
  obtain ⟨htimed, hrecalls⟩ := recalls_of_foldlM hsettings
    (fun node hmem => hfault node (List.mem_append_left _ hmem)) hbefore
  obtain ⟨frequency, earlier, hcount, hevents⟩ :=
    Player.exists_events_note htimed settings.tuning n
  have honset : mid.onset = settings.onsetAfter (marks before) := by
    rw [Player.onset, hrecalls.clock, hrecalls.graces, hrecalls.beat, Settings.onsetAfter]
  have hplayed : mid.playNote settings.tuning n = next := by
    rw [← play_of_playNode hnote, hnode]
    rfl
  obtain ⟨added, hadded, -⟩ := exists_events_foldlM hafter
  obtain ⟨time, hclosed⟩ := last.exists_finish_events
  refine ⟨earlier.reverse, frequency, added.reverse ++ [.boundary last.beat last.held time], ?_, ?_⟩
  · rw [List.countP_reverse, hcount, hrecalls.pitches]
    rfl
  · rw [hclosed, hadded, ← hplayed, hevents, List.getLast?_reverse, honset]
    simp only [List.reverse_append, List.reverse_cons, List.append_assoc, List.cons_append,
      List.nil_append]
    rfl

/--
**The clock is a sum over what was played.**  So is the duration, and each note sounds at the
clock, put off for the grace notes waiting, or together with the event before it if that is
later.  A score without its grace notes lasts as long.
-/
theorem perform_clock {p : Performance} (hlength : score.length < UInt32.size)
    (hgraces : (marks (score.played settings)).countP Mark.isGrace < UInt32.size)
    (h : score.perform settings = .ok p) :
    p.duration = settings.clockAfter (marks (score.played settings)) ∧
      (∀ past n rest, marks (score.played settings) = past ++ .note n :: rest →
        gracesAfter past < UInt32.size ∧
        ∃ earlier frequency later, earlier.countP Event.isPitch = past.countP Mark.isNote ∧
          p.events = earlier ++ .pitch frequency (earlier.getLast?.elim (settings.onsetAfter past)
            fun last => max last.time (settings.onsetAfter past)) :: later) ∧
      ∀ q, perform settings (score.filter (!·.mark.isGrace)) = .ok q → q.duration = p.duration := by
  refine ⟨duration_of_perform h, fun past n rest hmarks => ?_, fun q hq => ?_⟩
  · exact ⟨gracesAfter_lt_size (hmarks ▸ hgraces), exists_pitch_of_perform h hmarks⟩
  · rw [duration_of_perform hq, marks_played_filter settings hlength, clockAfter_filter,
      duration_of_perform h]

/-- Grace notes before a dash and in an ending, and headers that change behind the repeat. -/
def delayed : Score := ofText "||: 2_ 1& - [1. 3& :|| !90 3/8 [2. 4 5& | ^6..".toList

theorem perform_clock_delayed :
    delayed.length < UInt32.size ∧
      (marks (delayed.played {})).countP Mark.isGrace < UInt32.size ∧
      ∃ p q past n rest, delayed.perform {} = .ok p ∧
        perform {} (delayed.filter (!·.mark.isGrace)) = .ok q ∧ q.duration = p.duration ∧
        p.duration = Settings.clockAfter {} (marks (delayed.played {})) ∧
        marks (delayed.played {}) = past ++ .note n :: rest ∧ gracesAfter past = 2 ∧
        ∃ earlier frequency later, earlier.countP Event.isPitch = past.countP Mark.isNote ∧
          p.events = earlier ++ .pitch frequency (earlier.getLast?.elim
            (Settings.onsetAfter {} past)
            fun last => max last.time (Settings.onsetAfter {} past)) :: later := by
  have hlength : delayed.length < UInt32.size := by decide +kernel
  have hgraces : (marks (delayed.played {})).countP Mark.isGrace < UInt32.size := by decide +kernel
  obtain ⟨p, hp⟩ : ∃ p, delayed.perform {} = .ok p := exists_ok_of_isOk (by decide +kernel)
  obtain ⟨q, hq⟩ : ∃ q, perform {} (delayed.filter (!·.mark.isGrace)) = .ok q :=
    exists_ok_of_isOk (by decide +kernel)
  obtain ⟨hduration, hnotes, hfiltered⟩ := perform_clock hlength hgraces hp
  -- the first note of the second pass
  have hmarks : marks (delayed.played {}) = (marks (delayed.played {})).take 7 ++
      .note { degree := 2, halvings := 1 } :: (marks (delayed.played {})).drop 8 := by
    decide +kernel
  exact ⟨hlength, hgraces, p, q, _, _, _, hp, hq, hfiltered q hq, hduration, hmarks,
    by decide +kernel, (hnotes _ _ _ hmarks).2⟩

end Score

end NumberedScore
