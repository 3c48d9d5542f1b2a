/-
What a player knows of the past.

A player carries numbers from one node to the next, whatever the walk does in between.
Each of them can be read off the marks that were played: beat and unit come from the last
header of their kind, the clock is a sum over all that was played, and the grace notes
waiting are those at the end of the notes.  `Recalls` says so of a player, and every mark
keeps it (`recalls_play`).

What holds of a run is proved along the marks behind it (`induction_played`).
-/
import NumberedScore.Proofs.Playback.Append
import NumberedScore.Proofs.Playback.Duration

namespace NumberedScore

variable {settings : Settings} {past : List Mark}

/-! ### What single marks say -/

namespace Mark

def tempo? : Mark → Option UInt32
  | tempo beats => some beats
  | _ => none

def unit? : Mark → Option UInt32
  | time _ unit => some unit
  | _ => none

def key? : Mark → Option PianoKey
  | key _ accidental letter => some (letter.key accidental)
  | _ => none

def note? : Mark → Option Note
  | note n => some n
  | _ => none

/-- Whether a mark is a grace note. -/
def isGrace (mark : Mark) : Bool := mark.note?.any (·.grace)

theorem exists_note_of_isGrace {mark : Mark} (h : mark.isGrace = true) :
    ∃ n, mark = .note n ∧ n.grace = true := by
  cases mark with
  | note n => exact ⟨n, rfl, h⟩
  | _ => exact Bool.noConfusion h

end Mark

/-- Each of some marks, with those before it. -/
def withPast (past : List Mark) : List Mark → List (List Mark × Mark)
  | [] => []
  | mark :: rest => (past, mark) :: withPast (past ++ [mark]) rest

theorem withPast_concat (past marks : List Mark) (mark : Mark) :
    withPast past (marks ++ [mark]) = withPast past marks ++ [(past ++ marks, mark)] := by
  induction marks generalizing past with
  | nil => simp [withPast]
  | cons first rest ih =>
      rw [List.cons_append, withPast, ih, withPast, List.append_assoc]
      rfl

/-- The last thing said counts. -/
theorem getLast?_filterMap_concat {α β : Type} (f : α → Option β) (l : List α) (a : α) :
    ((l ++ [a]).filterMap f).getLast? = (f a).or (l.filterMap f).getLast? := by
  rw [List.filterMap_append]
  cases hf : f a <;> simp [hf]

/-! ### What the marks played say -/

/-- Seconds to a beat: the last tempo counts, or else the settings do. -/
def Settings.beatAfter (s : Settings) (past : List Mark) : Float :=
  60 / ((past.filterMap Mark.tempo?).getLast?.getD s.tempo).toFloat

/-- The note value of one beat: the last time signature counts, or else the settings do. -/
def Settings.unitAfter (s : Settings) (past : List Mark) : UInt32 :=
  (past.filterMap Mark.unit?).getLast?.getD s.unit

/-- Seconds taken by a note of length one. -/
def Settings.noteValueAfter (s : Settings) (past : List Mark) : Float :=
  s.beatAfter past * 4 / (s.unitAfter past).toFloat

/-- The seconds that a mark takes: those of a dash, and of a note that is no grace note. -/
def Settings.seconds? (s : Settings) (past : List Mark) : Mark → Option Float
  | .dash => some (s.noteValueAfter past)
  | .note n => if n.grace then none else some (n.length * s.noteValueAfter past)
  | _ => none

/-- Seconds played: a sum from the left, that starts with zero. -/
def Settings.clockAfter (s : Settings) (past : List Mark) : Float :=
  ((withPast [] past).filterMap fun (earlier, mark) => s.seconds? earlier mark).foldl (· + ·) 0

/-- The grace notes that wait for their main note: those behind the last note of another kind. -/
def gracesAfter (past : List Mark) : Nat :=
  ((past.filterMap Mark.note?).rtakeWhile (·.grace)).length

/-- When a note sounds that comes next: each grace note waiting puts it off by a quarter beat. -/
def Settings.onsetAfter (s : Settings) (past : List Mark) : Float :=
  s.clockAfter past + (UInt32.ofNat (gracesAfter past)).toFloat * s.beatAfter past / 4

theorem beatAfter_concat (past : List Mark) (mark : Mark) : settings.beatAfter (past ++ [mark])
    = (mark.tempo?.map (60 / ·.toFloat)).getD (settings.beatAfter past) := by
  unfold Settings.beatAfter
  rw [getLast?_filterMap_concat]
  cases mark.tempo? <;> rfl

theorem unitAfter_concat (past : List Mark) (mark : Mark) :
    settings.unitAfter (past ++ [mark]) = mark.unit?.getD (settings.unitAfter past) := by
  unfold Settings.unitAfter
  rw [getLast?_filterMap_concat]
  cases mark.unit? <;> rfl

theorem clockAfter_concat (past : List Mark) (mark : Mark) : settings.clockAfter (past ++ [mark])
    = (settings.seconds? past mark).elim (settings.clockAfter past)
        (settings.clockAfter past + ·) := by
  unfold Settings.clockAfter
  rw [withPast_concat, List.filterMap_append, List.foldl_append]
  cases hseconds : settings.seconds? past mark <;> simp [hseconds]

theorem gracesAfter_note (past : List Mark) (n : Note) :
    gracesAfter (past ++ [.note n]) = if n.grace then gracesAfter past + 1 else 0 := by
  unfold gracesAfter
  rw [List.filterMap_append]
  show (List.rtakeWhile _ (past.filterMap Mark.note? ++ [n])).length = _
  rw [List.rtakeWhile_concat]
  split <;> simp

theorem gracesAfter_of_note? (past : List Mark) {mark : Mark} (h : mark.note? = none) :
    gracesAfter (past ++ [mark]) = gracesAfter past := by
  simp [gracesAfter, List.filterMap_append, h]

/-- Only grace notes wait. -/
theorem gracesAfter_le_countP (past : List Mark) : gracesAfter past ≤ past.countP Mark.isGrace := by
  induction past using List.reverseRecOn with
  | nil => exact Nat.le_refl 0
  | append_singleton past mark ih =>
      rw [List.countP_append]
      cases mark with
      | note n =>
          rw [gracesAfter_note, List.countP_singleton]
          show (if n.grace = true then _ else _) ≤ _ + if n.grace = true then 1 else 0
          split
          · exact Nat.succ_le_succ ih
          · exact Nat.zero_le _
      | _ =>
          rw [gracesAfter_of_note? past rfl]
          exact Nat.le_add_right_of_le ih

/-- Grace notes do not wait in larger numbers than are played. -/
theorem gracesAfter_lt_size {rest : List Mark}
    (h : (past ++ rest).countP Mark.isGrace < UInt32.size) : gracesAfter past < UInt32.size := by
  rw [List.countP_append] at h
  have := gracesAfter_le_countP past
  omega

/-- No grace note waits if the last note was none. -/
theorem gracesAfter_eq_zero_iff {past : List Mark} :
    gracesAfter past = 0 ↔ ∀ n ∈ (past.filterMap Mark.note?).getLast?, n.grace = false := by
  unfold gracesAfter
  rcases List.eq_nil_or_concat (past.filterMap Mark.note?) with hnil | ⟨notes, n, hnotes⟩
  · simp [hnil]
  · rw [hnotes, List.concat_eq_append, List.rtakeWhile_concat, List.getLast?_concat]
    cases hgrace : n.grace <;> simp [hgrace]

/-! ### Players -/

/-- Whether an event sets a pitch. -/
def Event.isPitch : Event → Bool
  | pitch .. => true
  | boundary .. => false

namespace Player

variable {p q : Player}

/-- What a player knows is what the marks say that it has played. -/
structure Recalls (settings : Settings) (past : List Mark) (p : Player) : Prop where
  beat : p.beat = settings.beatAfter past
  unit : p.unit = settings.unitAfter past
  clock : p.clock = settings.clockAfter past
  graces : p.graces = UInt32.ofNat (gracesAfter past)
  /-- Each note has set a pitch. -/
  pitches : p.events.countP Event.isPitch = past.countP Mark.isNote

theorem Recalls.noteValue (h : p.Recalls settings past) :
    p.noteValue = settings.noteValueAfter past := by
  rw [Player.noteValue, h.beat, h.unit, Settings.noteValueAfter]

theorem isPitch_notBefore (last : Float) (event : Event) :
    (event.notBefore last).isPitch = event.isPitch := by
  cases event <;> rfl

theorem countP_events_emit (p : Player) (event : Event) :
    (p.emit event).events.countP Event.isPitch
      = p.events.countP Event.isPitch + event.isPitch.toNat := by
  unfold emit
  cases p.events with
  | nil => cases event <;> rfl
  | cons last earlier =>
      rw [List.countP_cons, isPitch_notBefore]
      cases event <;> rfl

theorem countP_events_playNote (tuning : Tuning) (p : Player) (n : Note) :
    (p.playNote tuning n).events.countP Event.isPitch = p.events.countP Event.isPitch + 1 := by
  by_cases hstrikes : p.strikes n = true
  · simp only [playNote, if_pos hstrikes, countP_events_emit]
    rfl
  · simp only [playNote, if_neg hstrikes, countP_events_emit]
    rfl

theorem recalls_playNote (h : p.Recalls settings past) (tuning : Tuning) (n : Note) :
    (p.playNote tuning n).Recalls settings (past ++ [.note n]) where
  beat := by rw [playNote_beat, h.beat, beatAfter_concat]; rfl
  unit := by
    rw [unitAfter_concat, ← h.unit]
    unfold playNote emit
    split <;> rfl
  clock := by
    rw [playNote_clock, clockAfter_concat, h.noteValue, h.clock]
    show _ = Option.elim (if n.grace = true then none else some _) _ _
    split <;> rfl
  graces := by
    rw [gracesAfter_note]
    show (if n.grace = true then p.graces + 1 else 0) = _
    split
    · rw [h.graces, UInt32.ofNat_add]
      rfl
    · rfl
  pitches := by
    rw [countP_events_playNote, h.pitches, List.countP_append]
    rfl

/-- A mark without a sound of its own changes beat, unit and clock, if anything. -/
theorem recalls_of_note? (h : p.Recalls settings past) {mark : Mark} (hmark : mark.note? = none)
    (hbeat : q.beat = (mark.tempo?.map (60 / ·.toFloat)).getD p.beat)
    (hunit : q.unit = mark.unit?.getD p.unit)
    (hclock : q.clock = (settings.seconds? past mark).elim p.clock (p.clock + ·))
    (hgraces : q.graces = p.graces) (hevents : q.events = p.events) :
    q.Recalls settings (past ++ [mark]) where
  beat := by rw [hbeat, h.beat, beatAfter_concat]
  unit := by rw [hunit, h.unit, unitAfter_concat]
  clock := by rw [hclock, h.clock, clockAfter_concat]
  graces := by rw [hgraces, h.graces, gracesAfter_of_note? past hmark]
  pitches := by
    have hnone : [mark].countP Mark.isNote = 0 := by
      cases mark with
      | note n => exact absurd hmark (Option.some_ne_none n)
      | _ => rfl
    rw [hevents, h.pitches, List.countP_append, hnone, Nat.add_zero]

/-- A mark that is played is remembered. -/
theorem recalls_play (h : p.Recalls settings past) (tuning : Tuning) (mark : Mark) :
    (p.play tuning mark).Recalls settings (past ++ [mark]) := by
  cases mark with
  | note n => exact recalls_playNote h tuning n
  | dash =>
      have hclock : p.clock + p.noteValue = p.clock + settings.noteValueAfter past := by
        rw [h.noteValue]
      exact recalls_of_note? h rfl rfl rfl hclock rfl rfl
  | tempo | key | time | bar | ending | unknown =>
      exact recalls_of_note? h rfl rfl rfl rfl rfl rfl

end Player

/-! ### Runs -/

theorem recalls_player (settings : Settings) : settings.player.Recalls settings [] :=
  ⟨rfl, rfl, rfl, rfl, rfl⟩

/-- What holds at the start, and after a node if it did before, holds after all of them. -/
theorem induction_played {motive : List Mark → Player → Prop} {nodes : Score} {last : Player}
    (start : motive [] settings.player)
    (step : ∀ before node after p q, nodes = before ++ node :: after →
      before.foldlM settings.playNode settings.player = .ok p → motive (Score.marks before) p →
      settings.playNode p node = .ok q → motive (Score.marks before ++ [node.mark]) q)
    (h : nodes.foldlM settings.playNode settings.player = .ok last) :
    motive (Score.marks nodes) last := by
  have hbegun : ∀ before after p, nodes = before ++ after →
      before.foldlM settings.playNode settings.player = .ok p → motive (Score.marks before) p := by
    intro before
    induction before using List.reverseRecOn with
    | nil =>
        intro after p _ hp
        exact Except.ok.inj hp ▸ start
    | append_singleton before node ih =>
        intro after q hnodes hq
        rw [List.append_assoc] at hnodes
        obtain ⟨p, next, hp, hnext, hend⟩ := exists_between_of_foldlM hq
        obtain rfl : next = q := Except.ok.inj hend
        rw [Score.marks, List.map_append]
        exact step before node after p next hnodes hp (ih _ p hnodes hp) hnext
  exact hbegun nodes [] last (List.append_nil nodes).symm h

/-- What is played in range is in time, and is remembered. -/
theorem recalls_of_foldlM {nodes : Score} {last : Player} (hsettings : settings.fault? = none)
    (hfault : ∀ node ∈ nodes, node.fault? = none)
    (h : nodes.foldlM settings.playNode settings.player = .ok last) :
    last.WellTimed ∧ last.Recalls settings nodes.marks := by
  refine induction_played (motive := fun past p => p.WellTimed ∧ p.Recalls settings past)
    ⟨wellTimed_player hsettings, recalls_player settings⟩ ?_ h
  rintro before node after p q rfl - ⟨htimed, hrecalls⟩ hplay
  have hnode : node.fault? = none := hfault node (by simp)
  rw [← play_of_playNode hplay]
  refine ⟨Player.wellTimed_play htimed (mark_ne_zeroTempo hnode) ?_,
    Player.recalls_play hrecalls settings.tuning node.mark⟩
  rw [play_of_playNode hplay]
  exact inRange_of_playNode hplay

end NumberedScore
