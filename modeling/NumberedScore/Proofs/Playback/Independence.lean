/-
Pitch and time do not interfere.

A performance has two sides: when things happen, and what is heard then.  Keys, accidentals,
degrees and octaves decide the one, tempo, time signature and the length of notes the other,
and neither looks at the marks of the other.  To say so, one side is forgotten: `unpitched`
keeps of a note only whether it is a rest, `untimed` keeps of it only its pitch.  Two scores
that are the same when a side is forgotten have performances whose other side is the same.

The order of playing looks at neither side, so both scores play corresponding nodes
(`played_map`).  When things happen is then settled by two players that differ only in what
they sound like: they go on differing in nothing else (`Player.InTime.play`).  What is heard
needs no player at all.  The frequencies of a performance are the `melody` of the marks
played, in which nothing is timed.
-/
import NumberedScore.Proofs.Playback.Straight

namespace NumberedScore

/-! ### Forgetting one side -/

/-- A note of which only its time is left, and whether it is a rest. -/
def Note.unpitched (n : Note) : Note :=
  { n with accidental := .natural, octave := 0, degree := if n.degree = 0 then 0 else 1 }

/-- A mark without what decides the pitch. -/
def Mark.unpitched : Mark → Mark
  | key .. => key 1 .natural .c
  | note n => note n.unpitched
  | mark => mark

/-- A note of which only its pitch is left. -/
def Note.untimed (n : Note) : Note :=
  { n with tied := false, dots := 0, halvings := 0, grace := false }

/-- A mark without what decides the time. -/
def Mark.untimed : Mark → Mark
  | tempo _ => tempo 1
  | time .. => time 1 1
  | note n => note n.untimed
  | mark => mark

/-- An event without what is heard. -/
def Event.unpitched : Event → Event
  | pitch _ time => pitch 0 time
  | boundary beat held time => boundary beat held time

/-- Without pitch, notes differ in their length signs, and rests from notes that sound. -/
theorem Note.unpitched_eq_iff {n n' : Note} : n.unpitched = n'.unpitched ↔
    n.tied = n'.tied ∧ n.dots = n'.dots ∧ n.halvings = n'.halvings ∧ n.grace = n'.grace ∧
      (n.degree = 0 ↔ n'.degree = 0) := by
  by_cases hrest : n.degree = 0 <;> by_cases hrest' : n'.degree = 0 <;>
    simp [unpitched, hrest, hrest']

/-- Without time, notes differ in what is heard. -/
theorem Note.untimed_eq_iff {n n' : Note} : n.untimed = n'.untimed ↔
    n.accidental = n'.accidental ∧ n.degree = n'.degree ∧ n.octave = n'.octave := by
  simp [untimed]

/-- Marks that differ in pitch only are two keys, two notes, or the same. -/
theorem Mark.unpitched_cases {mark mark' : Mark} (h : mark.unpitched = mark'.unpitched) :
    (∃ tonic accidental letter tonic' accidental' letter',
      mark = key tonic accidental letter ∧ mark' = key tonic' accidental' letter') ∨
    (∃ n n', mark = note n ∧ mark' = note n' ∧ n.unpitched = n'.unpitched) ∨ mark = mark' := by
  cases mark with
  | key tonic accidental letter =>
      cases mark' with
      | key tonic' accidental' letter' => exact .inl ⟨_, _, _, _, _, _, rfl, rfl⟩
      | _ => exact absurd h (by simp [unpitched])
  | note n =>
      cases mark' with
      | note n' => exact .inr (.inl ⟨n, n', rfl, rfl, note.inj h⟩)
      | _ => exact absurd h (by simp [unpitched])
  | _ =>
      cases mark' with
      | key | note => exact absurd h (by simp [unpitched])
      | _ => exact .inr (.inr h)

theorem cue_unpitched (mark : Mark) : mark.unpitched.cue = mark.cue := by
  cases mark <;> rfl

theorem cue_untimed (mark : Mark) : mark.untimed.cue = mark.cue := by
  cases mark <;> rfl

/-! ### The order of playing -/

/-- Scores with the same cues in the same places are played in the same order. -/
theorem Score.played_map {β : Type} {cue : β → Cue} {view : Node → β}
    (hcue : ∀ node, cue (view node) = node.cue) {settings settings' : Settings}
    (hpasses : settings.passes = settings'.passes) {score score' : Score}
    (h : score.map view = score'.map view) :
    (score.played settings).map view = (score'.played settings').map view := by
  have hlength : score.length = score'.length := by
    simpa using congrArg List.length h
  have hvisits : (score.visits settings).map (Visit.map view)
      = (score'.visits settings').map (Visit.map view) := by
    unfold Score.visits
    rw [visits_map hcue, visits_map hcue, h, hpasses, returnsAllowed, returnsAllowed, hlength]
  have hplayed : ∀ visits : List (Visit Node),
      ((visits.filter (·.fate ≠ .skipped)).map (·.node)).map view
        = ((visits.map (Visit.map view)).filter (·.fate ≠ .skipped)).map (·.node) := by
    intro visits
    simp only [List.filter_map, List.map_map]
    rfl
  rw [Score.played, Score.played, hplayed, hplayed, hvisits]

/-! ### When things happen -/

namespace Player

variable {p q : Player} {n n' : Note} {mark mark' : Mark}

/-- Two players that are equal but for what is heard. -/
structure InTime (p q : Player) : Prop where
  clock : p.clock = q.clock
  beat : p.beat = q.beat
  unit : p.unit = q.unit
  graces : p.graces = q.graces
  held : p.held = q.held
  events : p.events.map Event.unpitched = q.events.map Event.unpitched

theorem map_events_emit (p : Player) (event : Event) :
    (p.emit event).events.map Event.unpitched
      = match p.events.map Event.unpitched with
        | [] => [event.unpitched]
        | last :: earlier => event.unpitched.notBefore last.time :: last :: earlier := by
  have htime : ∀ e : Event, e.unpitched.time = e.time := by
    intro e
    cases e <;> rfl
  have hlater : ∀ last, (event.notBefore last).unpitched = event.unpitched.notBefore last := by
    intro last
    cases event <;> rfl
  unfold emit
  cases p.events with
  | nil => rfl
  | cons last earlier => simp only [List.map_cons, htime, hlater]

namespace InTime

theorem emit (h : p.InTime q) {event event' : Event}
    (hevent : event.unpitched = event'.unpitched) : (p.emit event).InTime (q.emit event') where
  clock := h.clock
  beat := h.beat
  unit := h.unit
  graces := h.graces
  held := h.held
  events := by rw [map_events_emit, map_events_emit, h.events, hevent]

theorem noteValue (h : p.InTime q) : p.noteValue = q.noteValue := by
  rw [Player.noteValue, Player.noteValue, h.beat, h.unit]

/-- Of the pitch of a note, only whether it is a rest decides whether it is struck. -/
theorem strikes (h : p.InTime q) (hn : n.unpitched = n'.unpitched) :
    p.strikes n = q.strikes n' := by
  obtain ⟨htied, -, -, -, hrest⟩ := Note.unpitched_eq_iff.1 hn
  have hzero : (n.degree == 0) = (n'.degree == 0) := by
    rw [Bool.eq_iff_iff, beq_iff_eq, beq_iff_eq]
    exact hrest
  rw [Player.strikes, Player.strikes, h.graces, htied, bne, bne, hzero]

theorem playNote (h : p.InTime q) (hn : n.unpitched = n'.unpitched) (tuning tuning' : Tuning) :
    (p.playNote tuning n).InTime (q.playNote tuning' n') := by
  obtain ⟨htied, hdots, hhalvings, hgrace, -⟩ := Note.unpitched_eq_iff.1 hn
  have hlength : n.length * p.noteValue = n'.length * q.noteValue := by
    rw [Note.length, Note.length, hdots, hhalvings, h.noteValue]
  have hstruck : (if p.strikes n then p.emit p.boundary else p).InTime
      (if q.strikes n' then q.emit q.boundary else q) := by
    rw [h.strikes hn]
    by_cases hstrikes : q.strikes n' = true
    · have hboundary : p.boundary = q.boundary := by
        rw [boundary, boundary, h.beat, h.held, h.clock]
      rw [if_pos hstrikes, if_pos hstrikes, hboundary]
      exact h.emit rfl
    · rw [if_neg hstrikes, if_neg hstrikes]
      exact h
  have hpitch : ∀ frequency frequency' : Float,
      (Event.pitch frequency (p.clock + p.graces.toFloat * p.beat / 4)).unpitched
        = (Event.pitch frequency' (q.clock + q.graces.toFloat * q.beat / 4)).unpitched := by
    intro frequency frequency'
    rw [Event.unpitched, Event.unpitched, h.clock, h.graces, h.beat]
  have hsounding := hstruck.emit (hpitch (p.frequencyOf tuning n) (q.frequencyOf tuning' n'))
  exact {
    clock := by simp only [Player.playNote, hgrace, hlength, h.clock]
    beat := hsounding.beat
    unit := hsounding.unit
    graces := by simp only [Player.playNote, hgrace, h.graces]
    held := by simp only [Player.playNote, htied, hlength, h.held]
    events := hsounding.events }

/-- Players that differ only in what is heard go on differing in nothing else. -/
theorem play (h : p.InTime q) (hmark : mark.unpitched = mark'.unpitched)
    (tuning tuning' : Tuning) : (p.play tuning mark).InTime (q.play tuning' mark') := by
  obtain ⟨_, _, _, _, _, _, rfl, rfl⟩ | ⟨n, n', rfl, rfl, hn⟩ | rfl := Mark.unpitched_cases hmark
  · exact ⟨h.clock, h.beat, h.unit, h.graces, h.held, h.events⟩
  · exact h.playNote hn tuning tuning'
  · cases mark with
    | tempo beats => exact ⟨h.clock, rfl, h.unit, h.graces, h.held, h.events⟩
    | key tonic accidental letter => exact ⟨h.clock, h.beat, h.unit, h.graces, h.held, h.events⟩
    | time beats unit => exact ⟨h.clock, h.beat, rfl, h.graces, h.held, h.events⟩
    | note n => exact h.playNote rfl tuning tuning'
    | dash =>
        exact {
          clock := by simp only [Player.play, hold, h.clock, h.noteValue]
          beat := h.beat
          unit := h.unit
          graces := h.graces
          held := by simp only [Player.play, hold, h.held, h.noteValue]
          events := h.events }
    | bar | ending | unknown => exact h

theorem foldl_play {marks marks' : List Mark}
    (hmarks : marks.map Mark.unpitched = marks'.map Mark.unpitched) (h : p.InTime q)
    (tuning tuning' : Tuning) :
    (marks.foldl (Player.play tuning) p).InTime (marks'.foldl (Player.play tuning') q) := by
  induction marks generalizing marks' p q with
  | nil =>
      obtain rfl : marks' = [] := List.map_eq_nil_iff.1 hmarks.symm
      exact h
  | cons mark rest ih =>
      obtain ⟨mark', rest', rfl, hmark, hrest⟩ := List.map_eq_cons_iff.1 hmarks.symm
      rw [List.foldl_cons, List.foldl_cons]
      exact ih hrest.symm (h.play hmark.symm tuning tuning')

theorem finish (h : p.InTime q) : p.finish.duration = q.finish.duration ∧
    p.finish.events.map Event.unpitched = q.finish.events.map Event.unpitched := by
  have hboundary : p.boundary = q.boundary := by
    rw [boundary, boundary, h.beat, h.held, h.clock]
  refine ⟨h.clock, ?_⟩
  rw [Player.finish, Player.finish, List.map_reverse, List.map_reverse, hboundary,
    (h.emit rfl).events]

end InTime

end Player

/-! ### What is heard -/

/-- What an event sets the voice to. -/
def Event.frequency? : Event → Option Float
  | pitch frequency _ => some frequency
  | boundary .. => none

/-- The frequencies of marks that are played one after the other, from a tonic on. -/
def melody (tuning : Tuning) : PianoKey → List Mark → List Float
  | _, [] => []
  | _, .key _ accidental letter :: rest => melody tuning (letter.key accidental) rest
  | tonic, .note n :: rest =>
    (match scaleKey? tonic n.accidental n.degree.toNat n.octave with
      | some key => tuning.frequency key
      | none => 0) :: melody tuning tonic rest
  | tonic, _ :: rest => melody tuning tonic rest

theorem melody_untimed (tuning : Tuning) (tonic : PianoKey) (marks : List Mark) :
    melody tuning tonic (marks.map Mark.untimed) = melody tuning tonic marks := by
  induction marks generalizing tonic with
  | nil => rfl
  | cons mark rest ih => cases mark <;> simp [melody, Mark.untimed, Note.untimed, ih]

namespace Player

variable {tuning : Tuning} {p : Player}

/-- The frequencies of what is played so far, the latest first. -/
def frequencies (p : Player) : List Float := p.events.filterMap Event.frequency?

theorem frequencies_emit (p : Player) (event : Event) :
    (p.emit event).frequencies = event.frequency?.toList ++ p.frequencies := by
  unfold frequencies emit
  cases p.events <;> cases event <;> rfl

theorem frequencies_playNote (tuning : Tuning) (p : Player) (n : Note) :
    (p.playNote tuning n).frequencies = p.frequencyOf tuning n :: p.frequencies := by
  have hstruck : (if p.strikes n then p.emit p.boundary else p).frequencies = p.frequencies := by
    by_cases hstrikes : p.strikes n = true
    · rw [if_pos hstrikes]
      exact frequencies_emit p p.boundary
    · rw [if_neg hstrikes]
  show (Player.emit _ (.pitch _ _)).frequencies = _
  rw [frequencies_emit, hstruck]
  rfl

theorem tonic_playNote (tuning : Tuning) (p : Player) (n : Note) :
    (p.playNote tuning n).tonic = p.tonic := by
  unfold playNote emit
  split <;> rfl

/-- A player sounds the melody of what it plays. -/
theorem frequencies_foldl_play (tuning : Tuning) (p : Player) (marks : List Mark) :
    (marks.foldl (Player.play tuning) p).frequencies
      = (melody tuning p.tonic marks).reverse ++ p.frequencies := by
  induction marks generalizing p with
  | nil => rfl
  | cons mark rest ih =>
      rw [List.foldl_cons, ih]
      cases mark with
      | note n =>
          have hnote : melody tuning p.tonic (.note n :: rest)
              = p.frequencyOf tuning n :: melody tuning p.tonic rest := rfl
          rw [hnote, List.reverse_cons, List.append_assoc, play, frequencies_playNote,
            tonic_playNote]
          rfl
      | _ => rfl

end Player

/-- The frequencies of a performance in the order in which they are heard. -/
theorem map_snd_pitches (p : Performance) :
    p.pitches.map Prod.snd = p.events.filterMap Event.frequency? := by
  rw [Performance.pitches, List.map_filterMap]
  congr 1
  funext event
  cases event <;> rfl

namespace Score

variable {settings : Settings} {score : Score}

/-- What is heard of a performance is the melody of the marks played. -/
theorem map_snd_pitches_of_perform {p : Performance} (h : score.perform settings = .ok p) :
    p.pitches.map Prod.snd
      = melody settings.tuning settings.tonic ((score.played settings).map (·.mark)) := by
  obtain ⟨last, rfl, hplay⟩ := exists_last_of_perform h
  have hlast : (last.emit last.boundary).frequencies = last.frequencies :=
    last.frequencies_emit last.boundary
  rw [map_snd_pitches, Player.finish, List.filterMap_reverse, ← Player.frequencies, hlast,
    ← foldl_play_of_foldlM hplay, Player.frequencies_foldl_play, List.reverse_append,
    List.reverse_reverse]
  rfl

/--
**Pitch and time do not interfere.**  Two scores that differ in pitch only have performances
that differ in their frequencies only, and of two that differ in time only the same is heard.
-/
theorem perform_pitch_apart_from_time (settings : Settings) (score score' : Score) :
    (score.map (·.mark.unpitched) = score'.map (·.mark.unpitched) →
      ∀ tonic tuning p p', score.perform settings = .ok p →
        score'.perform { settings with tonic, tuning } = .ok p' →
        p.duration = p'.duration ∧
          p.events.map Event.unpitched = p'.events.map Event.unpitched) ∧
    (score.map (·.mark.untimed) = score'.map (·.mark.untimed) →
      ∀ tempo unit p p', score.perform settings = .ok p →
        score'.perform { settings with tempo, unit } = .ok p' →
        p.pitches.map Prod.snd = p'.pitches.map Prod.snd) := by
  constructor
  · intro h tonic tuning p p' hp hp'
    have hplayed : (score.played settings).map (·.mark.unpitched)
        = (score'.played { settings with tonic, tuning }).map (·.mark.unpitched) :=
      played_map (fun node => cue_unpitched node.mark) rfl h
    obtain ⟨last, rfl, hplay⟩ := exists_last_of_perform hp
    obtain ⟨last', rfl, hplay'⟩ := exists_last_of_perform hp'
    have hstart : settings.player.InTime { settings with tonic, tuning }.player :=
      ⟨rfl, rfl, rfl, rfl, rfl, rfl⟩
    rw [← foldl_play_of_foldlM hplay, ← foldl_play_of_foldlM hplay']
    refine (hstart.foldl_play ?_ _ _).finish
    rw [List.map_map, List.map_map]
    exact hplayed
  · intro h tempo unit p p' hp hp'
    have hplayed : (score.played settings).map (·.mark.untimed)
        = (score'.played { settings with tempo, unit }).map (·.mark.untimed) :=
      played_map (fun node => cue_untimed node.mark) rfl h
    rw [map_snd_pitches_of_perform hp, map_snd_pitches_of_perform hp', ← melody_untimed,
      ← melody_untimed _ _ (List.map _ (played { settings with tempo, unit } score')),
      List.map_map, List.map_map]
    exact congrArg (melody settings.tuning settings.tonic) hplayed

/-- A repeated section with a second ending, grace notes, ties and rests. -/
def tune : Score := ofText "!60 1=A ||: 1& ^1+_ [2. 0 - :||".toList

/-- Other pitches at the same times. -/
def transposed : Score := ofText "!60 3=bE ||: #4& ^so_ [2. 0 - :||".toList

/-- The same pitches at other times. -/
def hurried : Score := ofText "!144 1=A ||: 1 do+. [2. ^0 - :||".toList

theorem perform_pitch_apart_from_time_tune :
    (tune.map (·.mark.unpitched) = transposed.map (·.mark.unpitched) ∧
      ∃ p p', tune.perform {} = .ok p ∧
        transposed.perform { tonic := 52, tuning := { referenceFrequency := 442 } } = .ok p' ∧
        p.duration = p'.duration ∧
        p.events.map Event.unpitched = p'.events.map Event.unpitched) ∧
    tune.map (·.mark.untimed) = hurried.map (·.mark.untimed) ∧
      ∃ p p', tune.perform {} = .ok p ∧ hurried.perform { tempo := 90, unit := 8 } = .ok p' ∧
        p.pitches.map Prod.snd = p'.pitches.map Prod.snd := by
  have hpitch : tune.map (·.mark.unpitched) = transposed.map (·.mark.unpitched) := by
    decide +kernel
  have htime : tune.map (·.mark.untimed) = hurried.map (·.mark.untimed) := by decide +kernel
  obtain ⟨p, hp⟩ : ∃ p, tune.perform {} = .ok p := exists_ok_of_isOk (by decide +kernel)
  obtain ⟨p', hp'⟩ : ∃ p', transposed.perform
      { tonic := 52, tuning := { referenceFrequency := 442 } } = .ok p' :=
    exists_ok_of_isOk (by decide +kernel)
  obtain ⟨p'', hp''⟩ : ∃ p'', hurried.perform { tempo := 90, unit := 8 } = .ok p'' :=
    exists_ok_of_isOk (by decide +kernel)
  exact ⟨⟨hpitch, p, p', hp, hp',
      (perform_pitch_apart_from_time {} tune transposed).1 hpitch 52 _ p p' hp hp'⟩,
    htime, p, p'', hp, hp'',
      (perform_pitch_apart_from_time {} tune hurried).2 htime 90 8 p p'' hp hp''⟩

end Score

end NumberedScore
