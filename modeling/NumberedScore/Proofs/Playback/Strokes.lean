/-
What each note adds to the events.

A note sets one pitch, and before it marks a boundary if it is struck.  Whether it is
struck is seen from the note and the one played before it: ties and rests are not, nor is
a note that a grace note leads up to.  Nothing else adds an event, except for the boundary
that closes a performance.  So the events fall into groups, one for each note played.

A boundary and its pitch are at the same time.  The boundary is put at the clock and the
pitch at the onset of the note, and both give way to the event before them; but a note is
only struck when no grace note waits, and then its onset is the clock.
-/
import NumberedScore.Proofs.Playback.Clock

namespace NumberedScore

open Binary64

variable {settings : Settings} {past : List Mark} {n : Note}

/-- Whether a note is struck: it is no tie and no rest, and no grace note was played last. -/
def Note.isStruckAfter (past : List Mark) (n : Note) : Bool :=
  !n.tied && n.degree != 0 && (past.filterMap Mark.note?).getLast?.all (!·.grace)

/-- Each note of some marks, with the marks before it. -/
def notesWithPast (marks : List Mark) : List (List Mark × Note) :=
  (withPast [] marks).filterMap fun (past, mark) => mark.note?.map (past, ·)

theorem notesWithPast_concat (marks : List Mark) (mark : Mark) : notesWithPast (marks ++ [mark])
    = notesWithPast marks ++ (mark.note?.map (marks, ·)).toList := by
  unfold notesWithPast
  rw [withPast_concat, List.filterMap_append]
  cases hnote : mark.note? <;> simp [hnote]

theorem mem_notesWithPast (before after : List Mark) (n : Note) :
    (before, n) ∈ notesWithPast (before ++ .note n :: after) := by
  induction after using List.reverseRecOn with
  | nil =>
      rw [notesWithPast_concat]
      exact List.mem_append_right _ (List.mem_singleton.2 rfl)
  | append_singleton after mark ih =>
      rw [← List.cons_append, ← List.append_assoc, notesWithPast_concat]
      exact List.mem_append_left _ ih

/-- The notes are among the marks. -/
theorem note_mem_of_mem_notesWithPast {marks : List Mark} (h : (past, n) ∈ notesWithPast marks) :
    .note n ∈ marks := by
  induction marks using List.reverseRecOn with
  | nil => exact absurd h List.not_mem_nil
  | append_singleton marks mark ih =>
      rw [notesWithPast_concat] at h
      rcases List.mem_append.1 h with hmem | hmem
      · exact List.mem_append_left _ (ih hmem)
      · obtain ⟨m, hnote, heq⟩ := Option.map_eq_some_iff.1 (Option.mem_toList.1 hmem)
        obtain ⟨-, rfl⟩ := Prod.mk.inj heq
        cases mark with
        | note => exact List.mem_append_right _ (List.mem_singleton.2 (Option.some.inj hnote ▸ rfl))
        | _ => exact nomatch hnote

/-- The events that a note may add behind some marks. -/
inductive Sounds (settings : Settings) : List Mark × Note → List Event → Prop where
  /-- A note that is struck ends the sound before it when it sounds itself. -/
  | struck {past : List Mark} {n : Note} (held frequency time : Float)
      (h : n.isStruckAfter past = true) :
      Sounds settings (past, n)
        [.boundary (settings.beatAfter past) held time, .pitch frequency time]
  /-- Another note goes on from it. -/
  | carried {past : List Mark} {n : Note} (frequency time : Float)
      (h : n.isStruckAfter past = false) : Sounds settings (past, n) [.pitch frequency time]

/-! ### Playing a note -/

/-- A clock that starts at zero never shows minus zero. -/
theorem not_isMinusZero_clockAfter (past : List Mark) :
    ¬ IsMinusZero (settings.clockAfter past) := by
  induction past using List.reverseRecOn with
  | nil => exact Amount.zero.unsigned.not_isMinusZero
  | append_singleton past mark ih =>
      rw [clockAfter_concat]
      cases settings.seconds? past mark with
      | none => exact ih
      | some seconds => exact not_isMinusZero_add ih seconds

theorem max_max_self (s t : Float) : max (max s t) t = max s t := by
  have hmax : ∀ a b : Float, max a b = if a ≤ b then b else a := fun _ _ => rfl
  rw [hmax s t]
  by_cases hle : s ≤ t
  · rw [if_pos hle, hmax, ite_self]
  · rw [if_neg hle, hmax, if_neg hle]

namespace Player

variable {p : Player}

theorem Recalls.graces_eq_zero_iff (h : p.Recalls settings past)
    (hgraces : gracesAfter past < UInt32.size) :
    p.graces = 0 ↔ ∀ m ∈ (past.filterMap Mark.note?).getLast?, m.grace = false := by
  rw [← gracesAfter_eq_zero_iff, h.graces, ← UInt32.toNat_inj, UInt32.toNat_ofNat_of_lt' hgraces]
  rfl

theorem Recalls.strikes (h : p.Recalls settings past) (hgraces : gracesAfter past < UInt32.size)
    (n : Note) : p.strikes n = n.isStruckAfter past := by
  have hnone : (p.graces == 0) = (past.filterMap Mark.note?).getLast?.all (!·.grace) := by
    rw [Bool.eq_iff_iff, beq_iff_eq, h.graces_eq_zero_iff hgraces, Option.all_eq_true]
    simp
  rw [Player.strikes, hnone, Note.isStruckAfter, Bool.and_right_comm]

theorem Recalls.onset_eq_clock (h : p.Recalls settings past) (htimed : p.WellTimed)
    (hgraces : p.graces = 0) : p.onset = p.clock := by
  have hbeat : Unsigned p.beat := by
    rw [h.beat]
    exact .div (by decide) (.toFloat _)
  have hclock : ¬ IsMinusZero p.clock := by
    rw [h.clock]
    exact not_isMinusZero_clockAfter past
  exact Player.onset_eq_clock hbeat htimed.beat hclock hgraces

/-- When the next note sounds: at its onset, or with the event before it if that is later. -/
def soundsAt (p : Player) : Float :=
  p.events.head?.elim p.onset fun last => max last.time p.onset

/-- A note adds its pitch, and before it the boundary of a note that is struck, at one time. -/
theorem Recalls.events_playNote (h : p.Recalls settings past) (htimed : p.WellTimed)
    (tuning : Tuning) (n : Note) : (p.playNote tuning n).events
      = .pitch (p.frequencyOf tuning n) p.soundsAt ::
        ((if p.strikes n then [.boundary p.beat p.held p.soundsAt] else []) ++ p.events) := by
  by_cases hstrikes : p.strikes n = true
  · have hwaiting : p.graces = 0 := by
      simp only [Player.strikes, Bool.and_eq_true, beq_iff_eq] at hstrikes
      exact hstrikes.1.2
    have honset := h.onset_eq_clock htimed hwaiting
    have hlater : max p.soundsAt p.onset = p.soundsAt := by
      unfold soundsAt
      cases p.events.head? with
      | none => exact ite_self _
      | some last => exact max_max_self last.time p.onset
    have hboundary : (p.emit p.boundary).events
        = .boundary p.beat p.held p.soundsAt :: p.events := by
      rw [events_emit htimed, soundsAt, honset]
      rfl
    simp only [playNote, if_pos hstrikes]
    show ((p.emit p.boundary).emit (.pitch _ p.onset)).events = _
    rw [events_emit (wellTimed_emit_boundary htimed), hboundary]
    show Event.pitch _ (max p.soundsAt p.onset) :: _ = _
    rw [hlater]
    rfl
  · simp only [playNote, if_neg hstrikes]
    exact events_emit htimed _

/-- A note adds its group of events. -/
theorem exists_sounds_playNote (h : p.Recalls settings past) (htimed : p.WellTimed)
    (hgraces : gracesAfter past < UInt32.size) (tuning : Tuning) (n : Note) :
    ∃ group, Sounds settings (past, n) group ∧
      (p.playNote tuning n).events = group.reverse ++ p.events := by
  have hstrikes := h.strikes hgraces n
  rw [h.events_playNote htimed]
  cases hstruck : n.isStruckAfter past with
  | false =>
      rw [hstruck] at hstrikes
      exact ⟨_, .carried _ _ hstruck, by rw [if_neg (Bool.eq_false_iff.1 hstrikes)]; rfl⟩
  | true =>
      rw [hstruck] at hstrikes
      exact ⟨_, .struck p.held _ _ hstruck, by rw [if_pos hstrikes, h.beat]; rfl⟩

end Player

/-! ### Playing a score -/

/-- Where each note adds its group of events, the events so far fall into these groups. -/
theorem exists_groups_of_step {R : List Mark × Note → List Event → Prop} {nodes : Score}
    {last : Player}
    (step : ∀ before node after n p, nodes = before ++ node :: after → node.mark = .note n →
      before.foldlM settings.playNode settings.player = .ok p →
      ∃ group, R (Score.marks before, n) group ∧
        (p.playNote settings.tuning n).events = group.reverse ++ p.events)
    (h : nodes.foldlM settings.playNode settings.player = .ok last) :
    ∃ groups, last.events.reverse = groups.flatten ∧
      List.Forall₂ R (notesWithPast nodes.marks) groups := by
  refine induction_played (motive := fun past p => ∃ groups, p.events.reverse = groups.flatten ∧
    List.Forall₂ R (notesWithPast past) groups) ⟨[], rfl, .nil⟩ ?_ h
  rintro before node after p q hnodes hbefore ⟨groups, hevents, hgroups⟩ hplay
  rw [← play_of_playNode hplay, notesWithPast_concat]
  cases hmark : node.mark with
  | note n =>
      obtain ⟨group, hgroup, hadded⟩ := step before node after n p hnodes hmark hbefore
      refine ⟨groups ++ [group], ?_, List.rel_append hgroups (.cons hgroup .nil)⟩
      show (p.playNote settings.tuning n).events.reverse = _
      rw [hadded, List.reverse_append, List.reverse_reverse, hevents, List.flatten_append]
      simp
  | _ => exact ⟨groups, hevents, (List.append_nil (notesWithPast _)).symm ▸ hgroups⟩

/-- The groups are as `Sounds` says. -/
theorem exists_groups_of_foldlM {nodes : Score} {last : Player} (hsettings : settings.fault? = none)
    (hfault : ∀ node ∈ nodes, node.fault? = none)
    (hgraces : nodes.marks.countP Mark.isGrace < UInt32.size)
    (h : nodes.foldlM settings.playNode settings.player = .ok last) :
    ∃ groups, last.events.reverse = groups.flatten ∧
      List.Forall₂ (Sounds settings) (notesWithPast nodes.marks) groups := by
  refine exists_groups_of_step ?_ h
  rintro before node after n p rfl - hbefore
  obtain ⟨htimed, hrecalls⟩ := recalls_of_foldlM hsettings
    (fun node hmem => hfault node (List.mem_append_left _ hmem)) hbefore
  rw [Score.marks, List.map_append] at hgraces
  exact Player.exists_sounds_playNote hrecalls htimed (gracesAfter_lt_size hgraces)
    settings.tuning n

theorem isChain_pitch_cons {frequency time : Float} {events : List Event}
    (h : events.IsChain fun a b => a.isPitch = true ∨ b.isPitch = true) :
    (Event.pitch frequency time :: events).IsChain
      fun a b => a.isPitch = true ∨ b.isPitch = true :=
  List.isChain_cons.2 ⟨fun _ _ => .inl rfl, h⟩

/-- Each boundary but the last is followed by a pitch. -/
theorem isChain_of_groups {notes : List (List Mark × Note)} {groups : List (List Event)}
    (h : List.Forall₂ (Sounds settings) notes groups) (closing : Event) :
    (groups.flatten ++ [closing]).IsChain fun a b => a.isPitch = true ∨ b.isPitch = true := by
  induction h with
  | nil => exact List.isChain_singleton _
  | cons hsounds _ ih =>
      cases hsounds with
      | struck => exact List.isChain_cons_cons.2 ⟨.inr rfl, isChain_pitch_cons ih⟩
      | carried => exact isChain_pitch_cons ih

/--
**Each note played sets one pitch, and a note that is struck marks a boundary before it, at
the same time.**  A last boundary closes the performance, and no two boundaries are
neighbours.
-/
theorem Score.perform_strokes {score : Score} {p : Performance}
    (hgraces : (marks (score.played settings)).countP Mark.isGrace < UInt32.size)
    (h : score.perform settings = .ok p) :
    (∃ groups held time,
      p.events = groups.flatten ++
        [.boundary (settings.beatAfter (marks (score.played settings))) held time] ∧
      List.Forall₂ (Sounds settings) (notesWithPast (marks (score.played settings))) groups) ∧
    (p.events.IsChain fun a b => a.isPitch = true ∨ b.isPitch = true) ∧
    p.events.countP Event.isPitch = (score.played settings).countP (·.mark.isNote) := by
  obtain ⟨last, rfl, hplay, hsettings, hfault⟩ := exists_run_of_perform h
  obtain ⟨htimed, hrecalls⟩ := recalls_of_foldlM hsettings hfault hplay
  obtain ⟨groups, hevents, hgroups⟩ := exists_groups_of_foldlM hsettings hfault hgraces hplay
  obtain ⟨time, hclosed⟩ := last.exists_finish_events
  rw [hevents, hrecalls.beat] at hclosed
  refine ⟨⟨groups, last.held, time, hclosed, hgroups⟩, ?_, ?_⟩
  · rw [hclosed]
    exact isChain_of_groups hgroups _
  · rw [Player.finish, List.countP_reverse, Player.countP_events_emit, hrecalls.pitches, marks,
      List.countP_map]
    rfl

/-- A tie, a rest, and a grace note behind which a dash and the way back come first. -/
def stroked : Score := Score.ofText "||: 1 ^1 0 [1. 2& - :|| [2. 3 |".toList

theorem Score.perform_strokes_stroked :
    (marks (stroked.played {})).countP Mark.isGrace < UInt32.size ∧
      (notesWithPast (marks (stroked.played {}))).map (fun note => note.2.isStruckAfter note.1)
        = [true, false, false, true, false, false, false, true] ∧
      ∃ p, stroked.perform {} = .ok p ∧
        (∃ groups held time,
          p.events = groups.flatten ++
            [.boundary (Settings.beatAfter {} (marks (stroked.played {}))) held time] ∧
          List.Forall₂ (Sounds {}) (notesWithPast (marks (stroked.played {}))) groups) ∧
        (p.events.IsChain fun a b => a.isPitch = true ∨ b.isPitch = true) ∧
        p.events.countP Event.isPitch = (stroked.played {}).countP (·.mark.isNote) := by
  have hgraces : (marks (stroked.played {})).countP Mark.isGrace < UInt32.size := by
    decide +kernel
  obtain ⟨p, hp⟩ : ∃ p, stroked.perform {} = .ok p := exists_ok_of_isOk (by decide +kernel)
  exact ⟨hgraces, by decide +kernel, p, hp, perform_strokes hgraces hp⟩

end NumberedScore
