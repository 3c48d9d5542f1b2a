/-
The events of a performance are finite and in order.

What is checked after a node is the event added last, and a note adds two; the boundary
that closes a performance is added behind the last check.  Nothing slips through all the
same.  A boundary is made of the clock, the beat and the sound held, and all three are
finite whenever one is added: clock and sound were checked after the node before, and the
beat is sixty divided by a tempo that is not zero.  So only the frequency and the time of
a pitch can be out of range, and a pitch is the last event of its note.

The order rests on `Event.later` alone.  It returns a time not before the other one, also
when the first of them is NaN, provided the other is finite.
-/
import NumberedScore.Proofs.Binary64.Finite
import NumberedScore.Proofs.Playback.Fault
import NumberedScore.Proofs.Playback.Walk

namespace NumberedScore

open Binary64

namespace Event

theorem le_later {t last : Float} (h : last.isFinite = true) : last ≤ later t last := by
  unfold later
  by_cases hle : last ≤ t
  · rw [if_pos (by simp [hle])]
    exact hle
  · rw [if_neg (by rw [isNaN_of_isFinite h, Bool.or_false]; simpa using hle)]
    exact le_self_of_isFinite h

theorem isFinite_later {t last : Float} (ht : t.isFinite = true) (h : last.isFinite = true) :
    (later t last).isFinite = true := by
  unfold later
  split
  · exact ht
  · exact h

theorem time_notBefore (last : Float) (event : Event) :
    (event.notBefore last).time = later event.time last := by
  cases event <;> rfl

theorem isFinite_time {event : Event} (h : event.isFinite = true) :
    event.time.isFinite = true := by
  cases event <;> simp_all [isFinite, time]

theorem isFinite_notBefore {last : Float} {event : Event} (h : event.isFinite = true)
    (hlast : last.isFinite = true) : (event.notBefore last).isFinite = true := by
  cases event with
  | pitch frequency time =>
      simp only [isFinite, Bool.and_eq_true] at h
      simp only [notBefore, isFinite, h.1, isFinite_later h.2 hlast, Bool.and_self]
  | boundary beat held time =>
      simp only [isFinite, Bool.and_eq_true] at h
      simp only [notBefore, isFinite, h.1.1, h.1.2, isFinite_later h.2 hlast, Bool.and_self]

end Event

namespace Player

/-- What a player keeps while its numbers are in range. -/
structure WellTimed (p : Player) : Prop where
  clock : p.clock.isFinite = true
  beat : p.beat.isFinite = true
  held : p.held.isFinite = true
  events : ∀ event ∈ p.events, event.isFinite = true
  /-- The events so far are in order, the latest first. -/
  ordered : p.events.IsChain fun later earlier => earlier.time ≤ later.time

variable {tuning : Tuning} {p : Player}

/-! ### Adding an event -/

theorem ordered_emit (h : p.WellTimed) (event : Event) :
    (p.emit event).events.IsChain fun later earlier => earlier.time ≤ later.time := by
  have hfinite := h.events
  have hordered := h.ordered
  unfold emit
  cases hevents : p.events with
  | nil => exact List.isChain_singleton _
  | cons last earlier =>
      rw [hevents] at hfinite hordered
      refine List.isChain_cons_cons.2 ⟨?_, hordered⟩
      rw [Event.time_notBefore]
      exact Event.le_later (Event.isFinite_time (hfinite last List.mem_cons_self))

theorem isFinite_of_mem_emit (h : p.WellTimed) {event : Event} (hevent : event.isFinite = true) :
    ∀ e ∈ (p.emit event).events, e.isFinite = true := by
  have hfinite := h.events
  unfold emit
  cases hevents : p.events with
  | nil => simpa using hevent
  | cons last earlier =>
      rw [hevents] at hfinite
      intro e hmem
      rcases List.mem_cons.1 hmem with rfl | hmem
      · exact Event.isFinite_notBefore hevent
          (Event.isFinite_time (hfinite last List.mem_cons_self))
      · exact hfinite e hmem

theorem isFinite_boundary (h : p.WellTimed) : p.boundary.isFinite = true := by
  simp only [boundary, Event.isFinite, h.beat, h.held, h.clock, Bool.and_self]

theorem wellTimed_emit_boundary (h : p.WellTimed) : (p.emit p.boundary).WellTimed :=
  ⟨h.clock, h.beat, h.held, isFinite_of_mem_emit h (isFinite_boundary h), ordered_emit h _⟩

/-! ### Playing a node -/

theorem inRange_iff : p.inRange = true ↔
    p.clock.isFinite = true ∧ p.held.isFinite = true ∧
      ∀ event ∈ p.events.head?, event.isFinite = true := by
  simp [inRange, and_assoc, Option.all_eq_true]

/-- An event that is checked may be any event. -/
theorem wellTimed_of_emit {q : Player} (h : p.WellTimed) (event : Event)
    (hevents : q.events = (p.emit event).events) (hbeat : q.beat = p.beat)
    (hrange : q.inRange = true) : q.WellTimed := by
  obtain ⟨hclock, hheld, hhead⟩ := inRange_iff.1 hrange
  refine ⟨hclock, hbeat ▸ h.beat, hheld, ?_, hevents ▸ ordered_emit h event⟩
  rw [hevents] at hhead ⊢
  intro e hmem
  rcases List.mem_cons.1 hmem with rfl | hmem
  · exact hhead _ rfl
  · exact h.events e hmem

/-- The event that a note adds last. -/
def notePitch (tuning : Tuning) (p : Player) (n : Note) : Event :=
  .pitch (p.frequencyOf tuning n) (p.clock + p.graces.toFloat * p.beat / 4)

theorem wellTimed_playNote (h : p.WellTimed) (n : Note)
    (hrange : (p.playNote tuning n).inRange = true) : (p.playNote tuning n).WellTimed := by
  by_cases hstrikes : p.strikes n = true
  · -- the boundary in front is finite by itself, so the check is needed for the pitch only
    refine wellTimed_of_emit (wellTimed_emit_boundary h) (p.notePitch tuning n) ?_ ?_ hrange
    · simp only [playNote, if_pos hstrikes, notePitch]
    · simp only [playNote, if_pos hstrikes, emit]
  · refine wellTimed_of_emit h (p.notePitch tuning n) ?_ ?_ hrange
    · simp only [playNote, if_neg hstrikes, notePitch]
    · simp only [playNote, if_neg hstrikes, emit]

/-- A mark that is not at fault is played in order, as long as the numbers stay in range. -/
theorem wellTimed_play (h : p.WellTimed) {mark : Mark} (hmark : mark ≠ .tempo 0)
    (hrange : (p.play tuning mark).inRange = true) : (p.play tuning mark).WellTimed := by
  cases mark with
  | tempo beats =>
      have hbeats : beats ≠ 0 := fun hzero => hmark (congrArg Mark.tempo hzero)
      exact ⟨h.clock, isFinite_sixty_div hbeats, h.held, h.events, h.ordered⟩
  | key tonic accidental letter => exact ⟨h.clock, h.beat, h.held, h.events, h.ordered⟩
  | time beats unit => exact ⟨h.clock, h.beat, h.held, h.events, h.ordered⟩
  | note n => exact wellTimed_playNote h n hrange
  | dash =>
      obtain ⟨hclock, hheld, -⟩ := inRange_iff.1 hrange
      exact ⟨hclock, h.beat, hheld, h.events, h.ordered⟩
  | bar | ending | unknown => exact h

end Player

/-! ### Performing a score -/

variable {settings : Settings} {score : Score}

theorem wellTimed_player (h : settings.fault? = none) : settings.player.WellTimed := by
  have hzero : (0 : Float).isFinite = true := rfl
  exact ⟨hzero, isFinite_sixty_div (tempo_ne_zero h), hzero,
    fun event hmem => absurd hmem List.not_mem_nil, List.isChain_nil⟩

theorem wellTimed_follow {p q : Player} {visit : Visit Node} (hfault : visit.node.fault? = none)
    (h : p.WellTimed) (hq : settings.follow p visit = .ok q) : q.WellTimed := by
  unfold Settings.follow at hq
  split at hq
  · exact Except.ok.inj hq ▸ h
  · simp only [Settings.playNode] at hq
    split at hq
    · next hrange =>
        exact Except.ok.inj hq ▸ Player.wellTimed_play h (mark_ne_zeroTempo hfault) hrange
    · exact absurd hq (by simp)

/-- **A performance is made of finite numbers, and its events are in order of time.** -/
theorem perform_finite_and_ordered {p : Performance} (h : score.perform settings = .ok p) :
    (∀ event ∈ p.events, event.isFinite = true) ∧ p.duration.isFinite = true ∧
      p.events.IsChain fun earlier later => earlier.time ≤ later.time := by
  unfold Score.perform at h
  cases hrefusal : score.refusal? settings with
  | some fault => simp [hrefusal] at h
  | none =>
      obtain ⟨hsettings, hscore⟩ := refusal?_eq_none_iff.1 hrefusal
      simp only [hrefusal] at h
      generalize hwalk : walk Node.cue _ settings.follow _ score {} settings.player = outcome at h
      cases outcome with
      | error fault => exact absurd h (by simp [Except.map])
      | ok last =>
          have hp : last.finish = p := Except.ok.inj h
          have hlast : last.WellTimed := by
            refine (carried_iff_walk.2 hwalk).invariant (sound_start score _) ?_
              (wellTimed_player hsettings)
            intro state visit next hmem hstate hnext
            exact wellTimed_follow (score_fault?_eq_none_iff.1 hscore visit.node hmem) hstate hnext
          have hclosed := Player.wellTimed_emit_boundary hlast
          subst hp
          refine ⟨?_, hlast.clock, List.isChain_reverse.2 hclosed.ordered⟩
          intro event hmem
          exact hclosed.events event (List.mem_reverse.1 hmem)

/-- A section with grace notes, played twice. -/
def graceful : Score := Score.ofText "||: 6& 6& 6_ - :||".toList

theorem perform_finite_and_ordered_graceful : ∃ p, graceful.perform {} = .ok p ∧
    (∀ event ∈ p.events, event.isFinite = true) ∧ p.duration.isFinite = true ∧
      p.events.IsChain fun earlier later => earlier.time ≤ later.time := by
  have hok : (graceful.perform {}).isOk = true := by decide +kernel
  cases h : graceful.perform {} with
  | ok p => exact ⟨p, rfl, perform_finite_and_ordered h⟩
  | error fault =>
      rw [h] at hok
      exact Bool.noConfusion hok

end NumberedScore
