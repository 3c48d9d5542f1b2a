/-
Transposition.

Which key a note is played on is a sum: tonic, step of the scale, accidental, and twelve
for each octave.  Which frequency that is depends on its distance from the reference key
alone, and where the sum wraps around, so does the distance.  So octave signs can be moved
from the notes into the tonic, and everything can be moved along the keyboard as long as the
reference key goes with it.

A header that sets the key names the tonic by its letter and does not move, which is why
there must be none.  Players that differ in this way go on doing so (`transposed_play`), and
the tonic is all they differ in.  So their events are the same, and they leave the range of
numbers at the same node.
-/
import NumberedScore.Proofs.Playback.History

namespace NumberedScore

variable {keys octaves : Int}

/-! ### Keys and frequencies -/

/-- Octaves moved from a note into the tonic do not change its key. -/
theorem degreeKey?_transposed (tonic : PianoKey) (accidental : Accidental) (degree : Nat)
    (octave keys octaves : Int) :
    degreeKey? (tonic + keys - 12 * octaves) accidental degree (octave + octaves)
      = (degreeKey? tonic accidental degree octave).map (· + keys) := by
  cases degree with
  | zero => rfl
  | succ d =>
      have hkey : ∀ step : Int,
          tonic + keys - 12 * octaves + step + accidental.semitones + 12 * (octave + octaves)
            = tonic + step + accidental.semitones + 12 * octave + keys := by
        intro step
        ring
      simp only [degreeKey?, Option.map_map, Function.comp_def, hkey]

/-- A tuning with its reference moved along the keyboard. -/
def Tuning.transposed (keys : Int) (t : Tuning) : Tuning :=
  { t with referenceKey := t.referenceKey + keys }

/-- Only the distance from the reference matters. -/
theorem Tuning.frequency_transposed (t : Tuning) (key : PianoKey) :
    (t.transposed keys).frequency (key + keys) = t.frequency key := by
  have hdistance : key + keys - (t.referenceKey + keys) = key - t.referenceKey :=
    add_sub_add_right_eq_sub key t.referenceKey keys
  rw [frequency, transposed, hdistance, frequency]

/-! ### Marks and scores -/

/-- A note with its octave moved. -/
def Note.raised (octaves : Int) (n : Note) : Note := { n with octave := n.octave + octaves }

/-- A mark with its octave moved, if it is a note. -/
def Mark.raised (octaves : Int) : Mark → Mark
  | note n => note (n.raised octaves)
  | mark => mark

def Node.raised (octaves : Int) (node : Node) : Node :=
  { node with mark := node.mark.raised octaves }

theorem cue_raised (octaves : Int) (node : Node) : (node.raised octaves).cue = node.cue := by
  show (node.mark.raised octaves).cue = node.mark.cue
  cases node.mark <;> rfl

theorem fault?_raised (octaves : Int) (node : Node) :
    (node.raised octaves).fault? = node.fault? := by
  obtain ⟨span, position, raw, mark⟩ := node
  cases mark <;> rfl

/-- A score in which the octave of every note is moved. -/
def Score.raised (octaves : Int) (score : Score) : Score := score.map (Node.raised octaves)

/-- Settings moved along the keyboard, for scores whose octaves are moved. -/
def Settings.transposed (keys octaves : Int) (s : Settings) : Settings :=
  { s with tonic := s.tonic + keys - 12 * octaves, tuning := s.tuning.transposed keys }

/-! ### Players -/

namespace Player

variable {p : Player}

/-- The same player on another tonic. -/
def transposed (keys octaves : Int) (p : Player) : Player :=
  { p with tonic := p.tonic + keys - 12 * octaves }

theorem transposed_emit (p : Player) (event : Event) :
    (p.transposed keys octaves).emit event = (p.emit event).transposed keys octaves := by
  unfold emit
  rfl

theorem frequencyOf_eq (tuning : Tuning) (p : Player) (n : Note) :
    p.frequencyOf tuning n
      = (degreeKey? p.tonic n.accidental n.degree.toNat n.octave).elim 0 tuning.frequency := by
  rw [← Tuning.frequency_scaleKey?, frequencyOf]
  cases scaleKey? p.tonic n.accidental n.degree.toNat n.octave <;> rfl

theorem frequencyOf_transposed (tuning : Tuning) (p : Player) (n : Note) :
    (p.transposed keys octaves).frequencyOf (tuning.transposed keys) (n.raised octaves)
      = p.frequencyOf tuning n := by
  have hkey : degreeKey? (p.transposed keys octaves).tonic (n.raised octaves).accidental
      (n.raised octaves).degree.toNat (n.raised octaves).octave
        = (degreeKey? p.tonic n.accidental n.degree.toNat n.octave).map (· + keys) :=
    degreeKey?_transposed p.tonic n.accidental n.degree.toNat n.octave keys octaves
  rw [frequencyOf_eq, frequencyOf_eq, hkey]
  cases degreeKey? p.tonic n.accidental n.degree.toNat n.octave with
  | none => rw [Option.map_none, Option.elim_none, Option.elim_none]
  | some key =>
      rw [Option.map_some, Option.elim_some, Option.elim_some, tuning.frequency_transposed]

theorem transposed_playNote (tuning : Tuning) (p : Player) (n : Note) :
    (p.transposed keys octaves).playNote (tuning.transposed keys) (n.raised octaves)
      = (p.playNote tuning n).transposed keys octaves := by
  have hstrikes : (p.transposed keys octaves).strikes (n.raised octaves) = p.strikes n := rfl
  have hboundary : (p.transposed keys octaves).boundary = p.boundary := rfl
  have hvalue : (p.transposed keys octaves).noteValue = p.noteValue := rfl
  by_cases hstruck : p.strikes n = true
  · simp only [playNote, hstrikes, if_pos hstruck, hboundary, hvalue, frequencyOf_transposed,
      transposed_emit]
    rfl
  · simp only [playNote, hstrikes, if_neg hstruck, hvalue, frequencyOf_transposed,
      transposed_emit]
    rfl

/-- Every mark but a key is played alike on another tonic. -/
theorem transposed_play (tuning : Tuning) (p : Player) {mark : Mark} (hmark : mark.key? = none) :
    (p.transposed keys octaves).play (tuning.transposed keys) (mark.raised octaves)
      = (p.play tuning mark).transposed keys octaves := by
  cases mark with
  | note n => exact transposed_playNote tuning p n
  | key tonic accidental letter => exact absurd hmark (Option.some_ne_none _)
  | tempo | time | dash | bar | ending | unknown => rfl

theorem transposed_finish (p : Player) : (p.transposed keys octaves).finish = p.finish := by
  have hboundary : (p.transposed keys octaves).boundary = p.boundary := rfl
  rw [finish, hboundary, transposed_emit]
  rfl

end Player

/-! ### Performing a score -/

variable {settings : Settings} {score : Score}

theorem playNode_transposed (p : Player) {node : Node} (hnode : node.mark.key? = none) :
    (settings.transposed keys octaves).playNode (p.transposed keys octaves) (node.raised octaves)
      = (settings.playNode p node).map (Player.transposed keys octaves) := by
  have hplay : (p.transposed keys octaves).play (settings.transposed keys octaves).tuning
      (node.raised octaves).mark
        = (p.play settings.tuning node.mark).transposed keys octaves :=
    Player.transposed_play settings.tuning p hnode
  have hrange : ((p.play settings.tuning node.mark).transposed keys octaves).inRange
      = (p.play settings.tuning node.mark).inRange := rfl
  simp only [Settings.playNode, hplay, hrange]
  split <;> rfl

theorem foldlM_transposed {nodes : Score} (p : Player)
    (hnodes : ∀ node ∈ nodes, node.mark.key? = none) :
    (nodes.raised octaves).foldlM (settings.transposed keys octaves).playNode
        (p.transposed keys octaves)
      = (nodes.foldlM settings.playNode p).map (Player.transposed keys octaves) := by
  induction nodes generalizing p with
  | nil => rfl
  | cons node rest ih =>
      obtain ⟨hnode, hrest⟩ := List.forall_mem_cons.1 hnodes
      rw [Score.raised, List.map_cons, List.foldlM_cons, List.foldlM_cons,
        playNode_transposed p hnode]
      cases settings.playNode p node with
      | error fault => rfl
      | ok next => exact ih next hrest

namespace Score

/-- Nodes changed without a change of cue are played in the same order. -/
theorem played_map_of_cue {f : Node → Node} (hcue : ∀ node, (f node).cue = node.cue)
    {settings' : Settings} (hpasses : settings'.passes = settings.passes) :
    played settings' (score.map f) = (score.played settings).map f := by
  have hvisits : visits settings' (score.map f) = (score.visits settings).map (Visit.map f) := by
    rw [visits, visits, visits_map hcue, hpasses, returnsAllowed, returnsAllowed, List.length_map]
  rw [played, played, hvisits, List.filter_map, List.map_map, List.map_map]
  rfl

theorem refusal?_transposed : refusal? (settings.transposed keys octaves) (score.raised octaves)
    = score.refusal? settings := by
  have hnode : Node.fault? ∘ Node.raised octaves = Node.fault? := funext (fault?_raised octaves)
  have hfault : (score.raised octaves).fault? = score.fault? := by
    rw [fault?, raised, List.findSome?_map, hnode, fault?]
  rw [refusal?, hfault]
  rfl

/--
**Octaves may be moved between the notes and the tonic, and all keys along the keyboard.**
Without a header that sets the key, neither changes a performance or the fault that stops it.
-/
theorem perform_transposed (settings : Settings) (keys octaves : Int)
    (hkey : ∀ node ∈ score, node.mark.key? = none) :
    (score.raised octaves).perform (settings.transposed keys octaves)
      = score.perform settings := by
  cases hrefusal : score.refusal? settings with
  | some fault =>
      rw [perform_of_refusal hrefusal, perform_of_refusal (refusal?_transposed.trans hrefusal)]
  | none =>
      have hplayed : played (settings.transposed keys octaves) (score.raised octaves)
          = raised octaves (score.played settings) := played_map_of_cue (cue_raised octaves) rfl
      have hnodes : ∀ node ∈ score.played settings, node.mark.key? = none := fun node hmem =>
        hkey node (mem_of_mem_played hmem)
      have hstart : (settings.transposed keys octaves).player
          = settings.player.transposed keys octaves := rfl
      rw [perform_eq_straight hrefusal, perform_eq_straight (refusal?_transposed.trans hrefusal),
        hplayed, straight, straight, hstart, foldlM_transposed _ hnodes]
      cases (score.played settings).foldlM settings.playNode settings.player with
      | error fault => rfl
      | ok last => exact congrArg Except.ok last.transposed_finish

/-- A repeated section with a rest, a grace note, accidentals and notes in three octaves. -/
def untransposed : Score := ofText "||: 1 #4&+ b7- [2. 0 - :|| 3".toList

theorem perform_transposed_untransposed :
    (∀ node ∈ untransposed, node.mark.key? = none) ∧
      (untransposed.raised (-1)).perform { tonic := 54, tuning := { referenceKey := 51 } }
        = untransposed.perform {} ∧
      (untransposed.perform {}).isOk = true := by
  have hkey : ∀ node ∈ untransposed, node.mark.key? = none := by decide +kernel
  have hsettings : Settings.transposed 2 (-1) {}
      = { tonic := 54, tuning := { referenceKey := 51 } } := by
    simp [Settings.transposed, Tuning.transposed, middleC, concertA]
  refine ⟨hkey, ?_, by decide +kernel⟩
  rw [← hsettings]
  exact perform_transposed {} 2 (-1) hkey

end Score

end NumberedScore
