/-
What ties change.

A tie is not struck, so it has no boundary before it, and the sound that it goes on with is
held for longer.  What is heard of a performance is not changed by it.  The pitches sound when
they would without the tie, because a boundary is no later than its own pitch.  So what is
left when boundaries are forgotten has a form of its own: each note sounds at its onset, or
together with the note before it if that sounds later.  The times of the pitches are the
onsets, put off so that none comes before another (`map_fst_pitches_of_perform`).

The onsets are read off the marks played, from the clock, the beat and the grace notes
waiting, and none of these looks at ties.
-/
import NumberedScore.Proofs.Playback.Independence
import NumberedScore.Proofs.Playback.Strokes

namespace NumberedScore

variable {settings : Settings}

/-! ### The times of pitches -/

/-- Times, each put off until the one before it if that is later. -/
def putOff : List Float → List Float
  | [] => []
  | first :: rest => rest.scanl max first

theorem putOff_concat (times : List Float) (t : Float) :
    putOff (times ++ [t]) = putOff times ++ [(putOff times).getLast?.elim t (max · t)] := by
  cases times with
  | nil => rfl
  | cons first rest =>
      show (rest ++ [t]).scanl max first = rest.scanl max first ++ _
      rw [List.scanl_append, List.scanl_singleton, putOff, List.getLast?_scanl]
      rfl

/-- The onsets of some marks, one for each note. -/
def Settings.onsets (s : Settings) (marks : List Mark) : List Float :=
  (notesWithPast marks).map fun (past, _) => s.onsetAfter past

theorem onsets_concat (past : List Mark) (mark : Mark) : settings.onsets (past ++ [mark])
    = settings.onsets past ++ (mark.note?.map fun _ => settings.onsetAfter past).toList := by
  rw [Settings.onsets, notesWithPast_concat, List.map_append]
  cases mark.note? <;> rfl

namespace Player

variable {p : Player} {past : List Mark}

/-- The times of the pitches so far, the latest first. -/
def pitchTimes (p : Player) : List Float := (p.events.filter Event.isPitch).map Event.time

theorem Recalls.soundsAt_eq (h : p.Recalls settings past) : p.soundsAt
    = (p.events.head?.map Event.time).elim (settings.onsetAfter past)
        (max · (settings.onsetAfter past)) := by
  have honset : p.onset = settings.onsetAfter past := by
    rw [onset, h.clock, h.graces, h.beat, Settings.onsetAfter]
  rw [soundsAt, honset]
  cases p.events.head? <;> rfl

/-- A note adds one pitch, and is the last event then. -/
theorem Recalls.pitchTimes_playNote (h : p.Recalls settings past) (htimed : p.WellTimed)
    (tuning : Tuning) (n : Note) :
    (p.playNote tuning n).pitchTimes = p.soundsAt :: p.pitchTimes ∧
      (p.playNote tuning n).events.head?.map Event.time = some p.soundsAt := by
  rw [pitchTimes, h.events_playNote htimed]
  by_cases hstrikes : p.strikes n = true
  · rw [if_pos hstrikes]
    exact ⟨rfl, rfl⟩
  · rw [if_neg hstrikes]
    exact ⟨rfl, rfl⟩

end Player

/-- The pitches so far are at the onsets so far, put off. -/
theorem pitchTimes_of_foldlM {nodes : Score} {last : Player} (hsettings : settings.fault? = none)
    (hfault : ∀ node ∈ nodes, node.fault? = none)
    (h : nodes.foldlM settings.playNode settings.player = .ok last) :
    last.pitchTimes.reverse = putOff (settings.onsets nodes.marks) := by
  -- the last event is a pitch, so that its time is known as well
  refine (induction_played (motive := fun past p =>
    p.pitchTimes.reverse = putOff (settings.onsets past) ∧
      p.events.head?.map Event.time = (putOff (settings.onsets past)).getLast?)
    ⟨rfl, rfl⟩ ?_ h).1
  rintro before node after p q rfl hbefore ⟨htimes, hhead⟩ hplay
  obtain ⟨htimed, hrecalls⟩ := recalls_of_foldlM hsettings
    (fun node hmem => hfault node (List.mem_append_left _ hmem)) hbefore
  rw [← play_of_playNode hplay, onsets_concat]
  cases hmark : node.mark with
  | note n =>
      obtain ⟨hadded, hlast⟩ := hrecalls.pitchTimes_playNote htimed settings.tuning n
      have hsounds := hrecalls.soundsAt_eq
      rw [hhead] at hsounds
      show (p.playNote settings.tuning n).pitchTimes.reverse = putOff (_ ++ [_]) ∧
        (p.playNote settings.tuning n).events.head?.map Event.time
          = (putOff (_ ++ [_])).getLast?
      rw [hadded, hlast, putOff_concat, ← hsounds, List.reverse_cons, htimes,
        List.getLast?_concat]
      exact ⟨rfl, rfl⟩
  | _ => exact ⟨htimes.trans (congrArg putOff (List.append_nil _).symm),
      hhead.trans (congrArg (fun onsets => (putOff onsets).getLast?) (List.append_nil _).symm)⟩

/-- The times of the pitches of a performance. -/
theorem map_fst_pitches (p : Performance) :
    p.pitches.map Prod.fst = (p.events.filter Event.isPitch).map Event.time := by
  rw [Performance.pitches]
  induction p.events with
  | nil => rfl
  | cons event rest ih =>
      cases event with
      | pitch frequency time => exact congrArg (time :: ·) ih
      | boundary beat held time => exact ih

/-- **The pitches of a performance are at the onsets of its notes, put off to be in order.** -/
theorem Score.map_fst_pitches_of_perform {score : Score} {p : Performance}
    (h : score.perform settings = .ok p) :
    p.pitches.map Prod.fst = putOff (settings.onsets (marks (score.played settings))) := by
  obtain ⟨last, rfl, hplay, hsettings, hfault⟩ := exists_run_of_perform h
  obtain ⟨time, hclosed⟩ := last.exists_finish_events
  rw [map_fst_pitches, hclosed, List.filter_append, ← pitchTimes_of_foldlM hsettings hfault hplay,
    Player.pitchTimes, List.filter_reverse, ← List.map_reverse]
  exact congrArg (List.map Event.time) (List.append_nil _)

/-! ### Ties forgotten -/

/-- A note that starts a sound of its own. -/
def Note.untied (n : Note) : Note := { n with tied := false }

/-- A mark of which it is forgotten whether it is a tie. -/
def Mark.untied : Mark → Mark
  | note n => note n.untied
  | mark => mark

theorem cue_untied (mark : Mark) : mark.untied.cue = mark.cue := by
  cases mark <;> rfl

theorem note?_untied (mark : Mark) : mark.untied.note? = mark.note?.map Note.untied := by
  cases mark <;> rfl

theorem noteValueAfter_untied (past : List Mark) :
    settings.noteValueAfter (past.map Mark.untied) = settings.noteValueAfter past ∧
      settings.beatAfter (past.map Mark.untied) = settings.beatAfter past := by
  have htempo : Mark.tempo? ∘ Mark.untied = Mark.tempo? := by
    funext mark
    cases mark <;> rfl
  have hunit : Mark.unit? ∘ Mark.untied = Mark.unit? := by
    funext mark
    cases mark <;> rfl
  simp only [Settings.noteValueAfter, Settings.beatAfter, Settings.unitAfter,
    List.filterMap_map, htempo, hunit, and_self]

/-- A tie takes its time like any other note. -/
theorem clockAfter_untied (past : List Mark) :
    settings.clockAfter (past.map Mark.untied) = settings.clockAfter past := by
  induction past using List.reverseRecOn with
  | nil => rfl
  | append_singleton past mark ih =>
      have hseconds : settings.seconds? (past.map Mark.untied) mark.untied
          = settings.seconds? past mark := by
        cases mark with
        | note n =>
            show (if n.grace then none else some _) = _
            rw [(noteValueAfter_untied past).1]
            rfl
        | dash => exact congrArg some (noteValueAfter_untied past).1
        | _ => rfl
      rw [List.map_append]
      show settings.clockAfter (past.map Mark.untied ++ [mark.untied]) = _
      rw [clockAfter_concat, clockAfter_concat, hseconds, ih]

theorem gracesAfter_untied (past : List Mark) :
    gracesAfter (past.map Mark.untied) = gracesAfter past := by
  induction past using List.reverseRecOn with
  | nil => rfl
  | append_singleton past mark ih =>
      rw [List.map_append]
      cases mark with
      | note n =>
          show gracesAfter (past.map Mark.untied ++ [.note n.untied]) = _
          rw [gracesAfter_note, gracesAfter_note, ih]
          rfl
      | _ =>
          refine (gracesAfter_of_note? _ rfl).trans (ih.trans ?_)
          exact (gracesAfter_of_note? past rfl).symm

/-- A tie sounds when a struck note would. -/
theorem onsets_untied (marks : List Mark) :
    settings.onsets (marks.map Mark.untied) = settings.onsets marks := by
  induction marks using List.reverseRecOn with
  | nil => rfl
  | append_singleton past mark ih =>
      have honset : settings.onsetAfter (past.map Mark.untied) = settings.onsetAfter past := by
        rw [Settings.onsetAfter, clockAfter_untied, gracesAfter_untied,
          (noteValueAfter_untied past).2, Settings.onsetAfter]
      rw [List.map_append]
      show settings.onsets (past.map Mark.untied ++ [mark.untied]) = _
      rw [onsets_concat, onsets_concat, ih, honset, note?_untied, Option.map_map]
      rfl

theorem melody_untied (tuning : Tuning) (tonic : PianoKey) (marks : List Mark) :
    melody tuning tonic (marks.map Mark.untied) = melody tuning tonic marks := by
  induction marks generalizing tonic with
  | nil => rfl
  | cons mark rest ih => cases mark <;> simp [melody, Mark.untied, Note.untied, ih]

namespace Score

variable {score : Score}

/-- What is heard of a performance, and when, is read off the marks played without their ties. -/
theorem pitches_of_perform {p : Performance} (h : score.perform settings = .ok p) :
    let untied := (score.played settings).map (·.mark.untied)
    p.duration = settings.clockAfter untied ∧
      p.pitches = (putOff (settings.onsets untied)).zip
        (melody settings.tuning settings.tonic untied) := by
  intro untied
  have huntied : untied = (marks (score.played settings)).map Mark.untied := by
    rw [marks, List.map_map]
    rfl
  rw [huntied, clockAfter_untied, onsets_untied, melody_untied]
  refine ⟨duration_of_perform h, ?_⟩
  rw [← map_fst_pitches_of_perform h, marks, ← map_snd_pitches_of_perform h]
  exact (List.zip_unzip p.pitches).symm.trans (by rw [List.unzip_eq_map])

/--
**Ties change boundaries only.**  Scores that differ in their ties have performances of the
same duration, in which the same pitches are heard at the same times.
-/
theorem perform_untied (settings : Settings) {score score' : Score}
    (h : score.map (·.mark.untied) = score'.map (·.mark.untied)) {p p' : Performance}
    (hp : score.perform settings = .ok p) (hp' : score'.perform settings = .ok p') :
    p.pitches = p'.pitches ∧ p.duration = p'.duration := by
  have hplayed : (score.played settings).map (·.mark.untied)
      = (score'.played settings).map (·.mark.untied) :=
    played_map (fun node => cue_untied node.mark) rfl h
  obtain ⟨hduration, hpitches⟩ := pitches_of_perform hp
  obtain ⟨hduration', hpitches'⟩ := pitches_of_perform hp'
  exact ⟨by rw [hpitches, hpitches', hplayed], by rw [hduration, hduration', hplayed]⟩

/-- Ties behind a dash, a grace note, a rest and a return. -/
def tied : Score := ofText "||: ^1 - ^2& ^3_ [2. ^0& :|| 4".toList

/-- The same without ties, but for one that is new. -/
def retied : Score := ofText "||: 1 - 2& 3_ [2. ^0& :|| 4".toList

theorem perform_untied_retied :
    tied.map (·.mark.untied) = retied.map (·.mark.untied) ∧
      ∃ p p', tied.perform {} = .ok p ∧ retied.perform {} = .ok p' ∧
        p.events.length ≠ p'.events.length ∧
        p.pitches = p'.pitches ∧ p.duration = p'.duration := by
  have h : tied.map (·.mark.untied) = retied.map (·.mark.untied) := by decide +kernel
  obtain ⟨p, hp, hlength⟩ : ∃ p, tied.perform {} = .ok p ∧ p.events.length = 9 :=
    exists_ok_of_map (by decide +kernel)
  obtain ⟨p', hp', hlength'⟩ : ∃ p, retied.perform {} = .ok p ∧ p.events.length = 13 :=
    exists_ok_of_map (by decide +kernel)
  exact ⟨h, p, p', hp, hp', by omega, perform_untied {} h hp hp'⟩

end Score

end NumberedScore
