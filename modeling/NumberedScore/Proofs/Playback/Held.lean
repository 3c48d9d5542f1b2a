/-
How long a sound is held.

A boundary says how long the sound before it was held.  That sound began with the last note
that was no tie, and every tie and dash behind it made it longer, whatever headers, bar lines
or returns stood in between.  `heldAfter` adds this up from the marks played, each at the note
value in force when it was played.  Marks in endings that are passed over are not among them.

A note has a length of its own for this sum even if it takes no time: the sound that a grace
note starts is held for the length written.  That is where the sum differs from the clock.
-/
import NumberedScore.Proofs.Playback.Strokes

namespace NumberedScore

variable {settings : Settings} {past : List Mark}

/-- Whether a mark starts a sound of its own: rests and grace notes do, ties do not. -/
def Mark.isFresh (mark : Mark) : Bool := mark.note?.any (!·.tied)

/-- How long a mark holds a sound, that of a note as it is written. -/
def Settings.holds? (s : Settings) (past : List Mark) : Mark → Option Float
  | .dash => some (s.noteValueAfter past)
  | .note n => some (n.length * s.noteValueAfter past)
  | _ => none

/--
How long the present sound has been held: a sum from the left, over the marks behind the last
fresh note, that starts with the length of that note.
-/
def Settings.heldAfter (s : Settings) (past : List Mark) : Float :=
  let marks := withPast [] past
  let start := (marks.rdropWhile (!·.2.isFresh)).getLast?.bind fun (earlier, mark) =>
    s.holds? earlier mark
  let later := (marks.rtakeWhile (!·.2.isFresh)).filterMap fun (earlier, mark) =>
    s.holds? earlier mark
  later.foldl (· + ·) (start.getD 0)

/-- A fresh note starts the sum anew. -/
theorem heldAfter_of_isFresh (past : List Mark) {mark : Mark} (h : mark.isFresh = true) :
    settings.heldAfter (past ++ [mark]) = (settings.holds? past mark).getD 0 := by
  unfold Settings.heldAfter
  simp [withPast_concat, h]

/-- Another mark is added to it, if it holds a sound at all. -/
theorem heldAfter_of_not_isFresh (past : List Mark) {mark : Mark} (h : mark.isFresh = false) :
    settings.heldAfter (past ++ [mark])
      = (settings.holds? past mark).elim (settings.heldAfter past)
          (settings.heldAfter past + ·) := by
  unfold Settings.heldAfter
  cases hholds : settings.holds? past mark <;>
    simp [withPast_concat, h, hholds]

/-! ### Players -/

namespace Player

variable {p : Player}

theorem playNote_held (tuning : Tuning) (p : Player) (n : Note) : (p.playNote tuning n).held
    = if n.tied then p.held + n.length * p.noteValue else n.length * p.noteValue :=
  rfl

/-- A mark that is played is counted. -/
theorem held_play (h : p.Recalls settings past) (hheld : p.held = settings.heldAfter past)
    (tuning : Tuning) (mark : Mark) :
    (p.play tuning mark).held = settings.heldAfter (past ++ [mark]) := by
  cases mark with
  | note n =>
      show (p.playNote tuning n).held = _
      rw [playNote_held, h.noteValue, hheld]
      cases htied : n.tied with
      | true =>
          have hfresh : (Mark.note n).isFresh = false := congrArg Bool.not htied
          rw [heldAfter_of_not_isFresh past hfresh]
          rfl
      | false =>
          have hfresh : (Mark.note n).isFresh = true := congrArg Bool.not htied
          rw [heldAfter_of_isFresh past hfresh]
          rfl
  | dash =>
      have hfresh : Mark.dash.isFresh = false := rfl
      show p.held + p.noteValue = _
      rw [h.noteValue, hheld, heldAfter_of_not_isFresh past hfresh]
      rfl
  | tempo | key | time | bar | ending | unknown =>
      refine hheld.trans (Eq.symm ?_)
      exact heldAfter_of_not_isFresh past (by rfl)

end Player

/-- What a player holds is the sum over what it has played. -/
theorem held_of_foldlM {nodes : Score} {last : Player} (hsettings : settings.fault? = none)
    (hfault : ∀ node ∈ nodes, node.fault? = none)
    (h : nodes.foldlM settings.playNode settings.player = .ok last) :
    last.held = settings.heldAfter nodes.marks := by
  refine induction_played (motive := fun past p => p.held = settings.heldAfter past) rfl ?_ h
  rintro before node after p q rfl hbefore hheld hplay
  obtain ⟨-, hrecalls⟩ := recalls_of_foldlM hsettings
    (fun node hmem => hfault node (List.mem_append_left _ hmem)) hbefore
  rw [← play_of_playNode hplay]
  exact Player.held_play hrecalls hheld settings.tuning node.mark

/-! ### Boundaries -/

/-- The events of a note: its pitch, and before it maybe the end of what was held until then. -/
inductive Ends (settings : Settings) : List Mark × Note → List Event → Prop where
  | struck {past : List Mark} {n : Note} (beat time frequency later : Float) :
      Ends settings (past, n)
        [.boundary beat (settings.heldAfter past) time, .pitch frequency later]
  | carried {past : List Mark} {n : Note} (frequency time : Float) :
      Ends settings (past, n) [.pitch frequency time]

theorem Player.Recalls.exists_ends_playNote {p : Player} (h : p.Recalls settings past)
    (htimed : p.WellTimed) (hheld : p.held = settings.heldAfter past) (tuning : Tuning) (n : Note) :
    ∃ group, Ends settings (past, n) group ∧
      (p.playNote tuning n).events = group.reverse ++ p.events := by
  rw [h.events_playNote htimed, hheld]
  by_cases hstrikes : p.strikes n = true
  · exact ⟨_, .struck p.beat _ _ _, by rw [if_pos hstrikes]; rfl⟩
  · exact ⟨_, .carried _ _, by rw [if_neg hstrikes]; rfl⟩

namespace Score

variable {score : Score}

/--
**A boundary says how long the last sound was held.**  It is the sum over the marks played
before the note that the boundary belongs to, and over all of them for the boundary that
closes the performance.
-/
theorem perform_held {p : Performance} (h : score.perform settings = .ok p) :
    ∃ groups beat time,
      p.events = groups.flatten ++
        [.boundary beat (settings.heldAfter (marks (score.played settings))) time] ∧
      List.Forall₂ (Ends settings) (notesWithPast (marks (score.played settings))) groups := by
  obtain ⟨last, rfl, hplay, hsettings, hfault⟩ := exists_run_of_perform h
  obtain ⟨groups, hevents, hgroups⟩ := exists_groups_of_step (R := Ends settings) (by
    rintro before node after n p hnodes - hbefore
    have hpast : ∀ node ∈ before, node.fault? = none := fun node hmem =>
      hfault node (hnodes ▸ List.mem_append_left _ hmem)
    obtain ⟨htimed, hrecalls⟩ := recalls_of_foldlM hsettings hpast hbefore
    exact hrecalls.exists_ends_playNote htimed (held_of_foldlM hsettings hpast hbefore)
      settings.tuning n) hplay
  obtain ⟨time, hclosed⟩ := last.exists_finish_events
  rw [hevents, held_of_foldlM hsettings hfault hplay] at hclosed
  exact ⟨groups, last.beat, time, hclosed, hgroups⟩

/-- Ties and dashes on both sides of a header, of an ending that is passed over, and of a return. -/
def sustained : Score := ofText "||: 1 - !90 ^1_ 0& [2. - :|| ^2. 3".toList

theorem perform_held_sustained :
    (notesWithPast (marks (sustained.played {}))).map (fun note => note.1.countP Mark.isFresh)
        = [0, 1, 1, 2, 3, 3, 4, 4] ∧
      ∃ p groups beat time, sustained.perform {} = .ok p ∧
        p.events = groups.flatten ++
          [.boundary beat (Settings.heldAfter {} (marks (sustained.played {}))) time] ∧
        List.Forall₂ (Ends {}) (notesWithPast (marks (sustained.played {}))) groups := by
  obtain ⟨p, hp⟩ : ∃ p, sustained.perform {} = .ok p := exists_ok_of_isOk (by decide +kernel)
  obtain ⟨groups, beat, time, hevents, hgroups⟩ := perform_held hp
  exact ⟨by decide +kernel, p, groups, beat, time, hp, hevents, hgroups⟩

end Score

end NumberedScore
