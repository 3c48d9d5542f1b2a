/-
How far a performance reaches.

The duration is where the clock stands at the end.  Events are placed by the clock too,
except for a note that grace notes lead up to: it sounds later, by time that it is to lose
from its own sound.  A short note has less to lose than a long run of grace notes borrows,
and behind the last note of a piece there is nothing to borrow from.  So an event can
happen after the duration, and it is always the onset of such a note that puts it there.
`delays` lists these onsets.

The proof follows one step and then the run.  A note or a dash moves the clock forward,
because a note of a text has no negative length, and a sum of amounts is not below its
parts.  An event that is added is at its own time or at that of the event before
(`within_emit`), and its own time is the clock unless it is delayed.  `Advances` says both
of a step and of a run.
-/
import NumberedScore.Proofs.Mark.Length
import NumberedScore.Proofs.Playback.Order
import NumberedScore.Proofs.Playback.Straight

namespace NumberedScore

open Binary64

/-! ### Notes that grace notes lead up to -/

namespace Player

/-- When the next note sounds.  Each grace note waiting puts it off by a quarter of a beat. -/
def onset (p : Player) : Float := p.clock + p.graces.toFloat * p.beat / 4

/-- The onset of a mark, if it is a note that grace notes lead up to. -/
def delay? (p : Player) : Mark → Option Float
  | .note _ => if p.graces = 0 then none else some p.onset
  | _ => none

end Player

/-- The onsets of the notes that grace notes lead up to, when nodes are played in a row. -/
def Settings.delays (s : Settings) : Player → Score → List Float
  | _, [] => []
  | p, node :: rest => (p.delay? node.mark).toList ++ s.delays (p.play s.tuning node.mark) rest

/-- The onsets of the notes that grace notes lead up to in a performance. -/
def Score.delays (settings : Settings) (score : Score) : List Float :=
  settings.delays settings.player (score.played settings)

/-! ### The later of two times -/

namespace Event

theorem later_eq {t last : Float} (h : last.isNaN = false) :
    later t last = if last ≤ t then t else last := by
  simp only [later, h, Bool.or_false, decide_eq_true_eq]

theorem unsigned_later {t last : Float} (ht : Unsigned t) (h : Unsigned last) :
    Unsigned (later t last) := by
  unfold later
  split
  · exact ht
  · exact h

theorem later_le_iff {t last bound : Float} (ht : Amount t) (hlast : Amount last)
    (hbound : Amount bound) : later t last ≤ bound ↔ t ≤ bound ∧ last ≤ bound := by
  rw [later_eq hlast.number]
  by_cases hle : last ≤ t
  · rw [if_pos hle]
    exact ⟨fun h => ⟨h, hlast.le_trans ht hbound hle h⟩, fun h => h.1⟩
  · rw [if_neg hle]
    have hlt := hlast.le_of_not_le ht hle
    exact ⟨fun h => ⟨ht.le_trans hlast hbound hlt h, h⟩, fun h => h.2⟩

end Event

namespace Player

variable {tuning : Tuning} {p q : Player} {bound : Float}

/-- Whether nothing happens after a time. -/
def Within (p : Player) (bound : Float) : Prop := ∀ event ∈ p.events, event.time ≤ bound

/-- What a player keeps while it plays notes of no negative length. -/
structure Forward (p : Player) : Prop where
  timed : p.WellTimed
  clock : Unsigned p.clock
  beat : Unsigned p.beat
  events : ∀ event ∈ p.events, Unsigned event.time

/-- Without grace notes waiting a note sounds at once. -/
theorem onset_eq_clock (hbeat : Unsigned p.beat) (hfinite : p.beat.isFinite = true)
    (hclock : ¬ IsMinusZero p.clock) (hgraces : p.graces = 0) : p.onset = p.clock := by
  have hzero : (0 : UInt32).toFloat = 0 := rfl
  have hquarter : (0 : Float) / 4 = 0 := rfl
  rw [onset, hgraces, hzero, Amount.zero_mul hbeat hfinite, hquarter,
    add_zero_of_not_isMinusZero hclock]

namespace Forward

theorem amount_clock (h : p.Forward) : Amount p.clock := .of_isFinite h.clock h.timed.clock

theorem amount_time (h : p.Forward) {event : Event} (hmem : event ∈ p.events) :
    Amount event.time :=
  .of_isFinite (h.events event hmem) (Event.isFinite_time (h.timed.events event hmem))

/-- An onset is a number, since a clock and a beat in range are. -/
theorem amount_onset (h : p.Forward) : Amount p.onset := by
  have hgraces : Amount (p.graces.toFloat * p.beat) :=
    .mul (.toFloat _) h.beat (Amount.isFinite_toFloat _) h.timed.beat
  have hfour : (4 : Float).toModel.unpack = .finite .positive (2 ^ 52) (-50) (by decide) := rfl
  exact h.amount_clock.add (hgraces.div hfour)

end Forward

/-! ### Adding an event -/

theorem unsigned_of_mem_emit (h : p.Forward) {event : Event} (hevent : Unsigned event.time) :
    ∀ e ∈ (p.emit event).events, Unsigned e.time := by
  have hevents := h.events
  unfold emit
  cases hlist : p.events with
  | nil => simpa using hevent
  | cons last earlier =>
      rw [hlist] at hevents
      intro e hmem
      rcases List.mem_cons.1 hmem with rfl | hmem
      · rw [Event.time_notBefore]
        exact Event.unsigned_later hevent (hevents last List.mem_cons_self)
      · exact hevents e hmem

/-- An event that is added is put off for the one before it, and for nothing else. -/
theorem within_emit (h : p.Forward) {event : Event} (hevent : Amount event.time)
    (hbound : Amount bound) :
    (p.emit event).Within bound ↔ p.Within bound ∧ event.time ≤ bound := by
  have hamount : ∀ e ∈ p.events, Amount e.time := fun e hmem => h.amount_time hmem
  unfold emit Within
  cases hlist : p.events with
  | nil => simp
  | cons last earlier =>
      have hlast : Amount last.time := hamount last (hlist ▸ List.mem_cons_self)
      simp only [List.forall_mem_cons, Event.time_notBefore,
        Event.later_le_iff hevent hlast hbound]
      tauto

theorem forward_emit_boundary (h : p.Forward) : (p.emit p.boundary).Forward :=
  ⟨wellTimed_emit_boundary h.timed, h.clock, h.beat, unsigned_of_mem_emit h h.clock⟩

/-! ### Playing a mark -/

/-- What one mark may do: no time runs backwards, and only what is delayed gets past the clock. -/
structure Advances (p q : Player) (delays : List Float) : Prop where
  forward : q.Forward
  clock : p.clock ≤ q.clock
  within : ∀ bound, Amount bound → q.clock ≤ bound →
    (q.Within bound ↔ p.Within bound ∧ ∀ t ∈ delays, t ≤ bound)

theorem Advances.refl (h : p.Forward) : p.Advances p [] :=
  ⟨h, h.amount_clock.le_refl, fun _ _ _ => by simp⟩

theorem Advances.trans {r : Player} {delays later : List Float} (hp : p.Forward)
    (hpq : p.Advances q delays) (hqr : q.Advances r later) : p.Advances r (delays ++ later) := by
  have hclock := hqr.forward.amount_clock
  refine ⟨hqr.forward, hp.amount_clock.le_trans hpq.forward.amount_clock hclock hpq.clock
    hqr.clock, fun bound hbound hle => ?_⟩
  have hmiddle := hpq.forward.amount_clock.le_trans hclock hbound hqr.clock hle
  rw [hqr.within bound hbound hle, hpq.within bound hbound hmiddle, List.forall_mem_append,
    and_assoc]

theorem unsigned_noteValue (h : p.Forward) : Unsigned p.noteValue :=
  (h.beat.mul (by decide)).div (.toFloat _)

/-- A note adds its pitch behind a boundary or none; a boundary is not later than the clock. -/
theorem playNote_events (h : p.Forward) (tuning : Tuning) (n : Note) :
    ∃ struck : Player, struck.Forward ∧
      (p.playNote tuning n).events = (struck.emit (p.notePitch tuning n)).events ∧
      ∀ bound, Amount bound → p.clock ≤ bound → (struck.Within bound ↔ p.Within bound) := by
  by_cases hstrikes : p.strikes n = true
  · refine ⟨p.emit p.boundary, forward_emit_boundary h, ?_, fun bound hbound hle => ?_⟩
    · simp only [playNote, if_pos hstrikes, notePitch]
    · have hboundary : Amount p.boundary.time := h.amount_clock
      exact (within_emit h hboundary hbound).trans (and_iff_left hle)
  · refine ⟨p, h, ?_, fun _ _ _ => Iff.rfl⟩
    simp only [playNote, if_neg hstrikes, notePitch]

theorem playNote_beat (tuning : Tuning) (p : Player) (n : Note) :
    (p.playNote tuning n).beat = p.beat := by
  unfold playNote emit
  split <;> rfl

theorem playNote_clock (tuning : Tuning) (p : Player) (n : Note) :
    (p.playNote tuning n).clock = if n.grace then p.clock else p.clock + n.length * p.noteValue :=
  rfl

theorem advances_playNote (h : p.Forward) {n : Note} (hlength : Unsigned n.length)
    (hrange : (p.playNote tuning n).inRange = true) :
    p.Advances (p.playNote tuning n) (p.delay? (.note n)).toList := by
  have htimed := wellTimed_playNote h.timed n hrange
  have hpassed : Unsigned (n.length * p.noteValue) := hlength.mul (unsigned_noteValue h)
  obtain ⟨struck, hstruck, hevents, hwithin⟩ := playNote_events h tuning n
  have hclock : Unsigned (p.playNote tuning n).clock ∧ p.clock ≤ (p.playNote tuning n).clock := by
    have hfinite := htimed.clock
    rw [playNote_clock] at hfinite ⊢
    split
    · exact ⟨h.clock, h.amount_clock.le_refl⟩
    · next hgrace =>
        rw [if_neg hgrace] at hfinite
        exact ⟨h.clock.add hpassed, le_add h.clock hpassed hfinite⟩
  have hforward : (p.playNote tuning n).Forward := by
    refine ⟨htimed, hclock.1, playNote_beat tuning p n ▸ h.beat, ?_⟩
    rw [hevents]
    exact unsigned_of_mem_emit hstruck h.amount_onset.unsigned
  refine ⟨hforward, hclock.2, fun bound hbound hle => ?_⟩
  have hstart : p.clock ≤ bound :=
    h.amount_clock.le_trans hforward.amount_clock hbound hclock.2 hle
  calc (p.playNote tuning n).Within bound
      ↔ (struck.emit (p.notePitch tuning n)).Within bound := by rw [Within, hevents, Within]
    _ ↔ struck.Within bound ∧ p.onset ≤ bound := within_emit hstruck h.amount_onset hbound
    _ ↔ p.Within bound ∧ p.onset ≤ bound := and_congr_left' (hwithin bound hbound hstart)
    _ ↔ p.Within bound ∧ ∀ t ∈ (p.delay? (.note n)).toList, t ≤ bound := by
      by_cases hgraces : p.graces = 0
      · have honset := onset_eq_clock h.beat h.timed.beat h.clock.not_isMinusZero hgraces
        simp [delay?, hgraces, honset, hstart]
      · simp [delay?, hgraces]

theorem advances_play (h : p.Forward) {mark : Mark} (hmark : mark ≠ .tempo 0)
    (hlength : ∀ n, mark = .note n → Unsigned n.length)
    (hrange : (p.play tuning mark).inRange = true) :
    p.Advances (p.play tuning mark) (p.delay? mark).toList := by
  have htimed := wellTimed_play h.timed hmark hrange
  -- marks that move no clock and add no event
  have hstill : ∀ q : Player, q.Forward → q.clock = p.clock → q.events = p.events →
      p.Advances q [] := by
    intro q hq hclock hevents
    refine ⟨hq, hclock ▸ h.amount_clock.le_refl, fun bound _ _ => ?_⟩
    simp [Within, hevents]
  cases mark with
  | tempo beats =>
      exact hstill _ ⟨htimed, h.clock, .div (by decide) (.toFloat _), h.events⟩ rfl rfl
  | key tonic accidental letter => exact hstill _ ⟨htimed, h.clock, h.beat, h.events⟩ rfl rfl
  | time beats unit => exact hstill _ ⟨htimed, h.clock, h.beat, h.events⟩ rfl rfl
  | note n => exact advances_playNote h (hlength n rfl) hrange
  | dash =>
      have hvalue := unsigned_noteValue h
      have hforward := le_add h.clock hvalue htimed.clock
      refine ⟨⟨htimed, h.clock.add hvalue, h.beat, h.events⟩, hforward, ?_⟩
      intro bound _ _
      simp [Within, play, hold, delay?]
  | bar | ending | unknown => exact hstill p h rfl rfl

end Player

/-! ### Playing a score -/

variable {settings : Settings} {p q : Player}

theorem forward_player (h : settings.fault? = none) : settings.player.Forward :=
  ⟨wellTimed_player h, Amount.zero.unsigned, .div (by decide) (.toFloat _),
    fun _ hmem => absurd hmem List.not_mem_nil⟩

/-- Nodes played in a row go forward, and only what is delayed gets past the clock. -/
theorem advances_foldlM {nodes : Score} (h : p.Forward)
    (hfault : ∀ node ∈ nodes, node.fault? = none)
    (hlength : ∀ node ∈ nodes, ∀ n, node.mark = .note n → Unsigned n.length)
    (hplay : nodes.foldlM settings.playNode p = .ok q) :
    p.Advances q (settings.delays p nodes) := by
  induction nodes generalizing p with
  | nil =>
      cases hplay
      exact .refl h
  | cons node rest ih =>
      obtain ⟨hnode, hrest⟩ := List.forall_mem_cons.1 hfault
      obtain ⟨hnote, hnotes⟩ := List.forall_mem_cons.1 hlength
      rw [List.foldlM_cons, Settings.playNode] at hplay
      by_cases hrange : (p.play settings.tuning node.mark).inRange = true
      · simp only [if_pos hrange] at hplay
        have hfirst := Player.advances_play h (mark_ne_zeroTempo hnode) hnote hrange
        exact hfirst.trans h (ih hfirst.forward hrest hnotes hplay)
      · simp only [if_neg hrange] at hplay
        exact absurd hplay (by simp [bind, Except.bind])

/-- The time of the boundary that closes a performance. -/
theorem closing_eq_clock (h : q.Forward) (hwithin : q.Within q.clock) :
    (q.emit q.boundary).events.head?.map Event.time = some q.clock := by
  unfold Player.emit
  cases hevents : q.events with
  | nil => rfl
  | cons last earlier =>
      have hmem : last ∈ q.events := hevents ▸ List.mem_cons_self
      have hlater : Event.later q.clock last.time = q.clock := by
        rw [Event.later_eq (h.amount_time hmem).number, if_pos (hwithin last hmem)]
      show some (q.boundary.notBefore last.time).time = _
      rw [Event.time_notBefore]
      exact congrArg some hlater

/-- What is played in a short text goes forward from the start. -/
theorem Score.advances_of_perform {text : List Char} {p : Performance}
    (htext : Text.byteSize text < 2 ^ 31) (h : (ofText text).perform settings = .ok p) :
    ∃ last : Player, last.finish = p ∧
      settings.player.Advances last ((ofText text).delays settings) := by
  obtain ⟨last, hlast, hplay, hsettings, hfault⟩ := exists_run_of_perform h
  refine ⟨last, hlast, advances_foldlM (forward_player hsettings) hfault ?_ hplay⟩
  intro node hmem n hnote
  exact unsigned_length_of_mem_ofText htext (mem_of_mem_played hmem) hnote

/--
**A performance of a text goes forward from zero, and stays within its duration if and only
if no note that grace notes lead up to sounds later than that.**
-/
theorem Score.perform_within_duration {text : List Char} {p : Performance}
    (htext : Text.byteSize text < 2 ^ 31) (h : (ofText text).perform settings = .ok p) :
    0 ≤ p.duration ∧ (∀ event ∈ p.events, 0 ≤ event.time) ∧
      ((∀ event ∈ p.events, event.time ≤ p.duration) ↔
        ∀ t ∈ (ofText text).delays settings, t ≤ p.duration) ∧
      ((∀ t ∈ (ofText text).delays settings, t ≤ p.duration) →
        p.events.getLast?.map Event.time = some p.duration) := by
  obtain ⟨last, rfl, hforward, -, hwithin⟩ := advances_of_perform htext h
  have hclock := hforward.amount_clock
  have hboundary : Amount last.boundary.time := hclock
  have hstart : settings.player.Within last.clock := fun _ hmem => absurd hmem List.not_mem_nil
  have hlast : last.Within last.clock ↔ ∀ t ∈ (ofText text).delays settings, t ≤ last.clock :=
    (hwithin _ hclock hclock.le_refl).trans (and_iff_right hstart)
  have hevents : ∀ {P : Event → Prop}, (∀ event ∈ last.finish.events, P event) ↔
      ∀ event ∈ (last.emit last.boundary).events, P event := by
    intro P
    simp [Player.finish]
  refine ⟨hclock.zero_le, hevents.2 fun event hmem => ?_, ?_, fun hdelays => ?_⟩
  · exact ((Player.forward_emit_boundary hforward).amount_time hmem).zero_le
  · calc (∀ event ∈ last.finish.events, event.time ≤ last.clock)
        ↔ (last.emit last.boundary).Within last.clock := hevents
      _ ↔ last.Within last.clock ∧ last.clock ≤ last.clock :=
        Player.within_emit hforward hboundary hclock
      _ ↔ ∀ t ∈ (ofText text).delays settings, t ≤ last.clock :=
        (and_iff_left hclock.le_refl).trans hlast
  · show (last.emit last.boundary).events.reverse.getLast?.map Event.time = some last.clock
    rw [List.getLast?_reverse]
    exact closing_eq_clock hforward (hlast.2 hdelays)

/-- Grace notes in a repeated section, in front of a note long enough to lend them time. -/
def lending : List Char := "||: 1& 3 :|| !90 4& ^4.".toList

theorem Score.perform_within_duration_lending : Text.byteSize lending < 2 ^ 31 ∧
    ∃ p, (ofText lending).perform {} = .ok p ∧ (ofText lending).delays {} ≠ [] ∧
      (∀ event ∈ p.events, 0 ≤ event.time ∧ event.time ≤ p.duration) ∧
      p.events.getLast?.map Event.time = some p.duration := by
  have htext : Text.byteSize lending < 2 ^ 31 := by decide +kernel
  have hcovered : ((ofText lending).perform {}).toOption.any (fun p =>
      decide ((ofText lending).delays {} ≠ [] ∧
        ∀ t ∈ (ofText lending).delays {}, t ≤ p.duration)) = true := by decide +kernel
  refine ⟨htext, ?_⟩
  cases h : (ofText lending).perform {} with
  | error fault => simp [h, Except.toOption] at hcovered
  | ok p =>
      obtain ⟨hsome, hdelays⟩ : (ofText lending).delays {} ≠ [] ∧
          ∀ t ∈ (ofText lending).delays {}, t ≤ p.duration := by
        simpa [h, Except.toOption] using hcovered
      obtain ⟨-, hstart, hwithin, hclosing⟩ := perform_within_duration htext h
      refine ⟨p, rfl, hsome, fun event hmem => ?_, hclosing hdelays⟩
      exact ⟨hstart event hmem, hwithin.2 hdelays event hmem⟩

/-- A piece that ends with grace notes, which nothing lends their time. -/
def unlent : List Char := "1& 2&".toList

theorem Score.graces_outlast_duration : Text.byteSize unlent < 2 ^ 31 ∧
    ∃ p, (ofText unlent).perform {} = .ok p ∧
      ∃ event ∈ p.events, ¬ (0 ≤ event.time ∧ event.time ≤ p.duration) := by
  have hlate : ((ofText unlent).perform {}).toOption.any (fun p =>
      p.events.any fun event => !decide (event.time ≤ p.duration)) = true := by decide +kernel
  refine ⟨by decide +kernel, ?_⟩
  cases h : (ofText unlent).perform {} with
  | error fault => simp [h, Except.toOption] at hlate
  | ok p =>
      simp only [h, Except.toOption, Option.any_some, List.any_eq_true, Bool.not_eq_true',
        decide_eq_false_iff_not] at hlate
      obtain ⟨event, hmem, hlt⟩ := hlate
      exact ⟨p, rfl, event, hmem, fun hin => hlt hin.2⟩

end NumberedScore
