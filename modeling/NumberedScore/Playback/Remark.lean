/-
Remarks on a performance.

While a score is performed there is something to say about nodes that are passed over,
about repeat signs that send the walk back or cannot, about tokens without meaning, and
about the end.  `remarks` performs a score once more and takes these down.  A fault ends
the remarks where it ends the performance.
-/
import NumberedScore.Playback.Performance

namespace NumberedScore

/-- Something worth saying about the way through a score. -/
inductive Remark where
  /-- A node is passed over in this pass. -/
  | skipping (pass : Nat) (raw : List Char)
  /-- A section ends that never started. -/
  | strayStop
  /-- The walk goes back to the node with this number, counted from zero. -/
  | goingBack (node pass : Nat)
  /-- A token without meaning is played over. -/
  | ignoring (raw : List Char)
  /-- All is played. -/
  | finished (events : Nat) (duration : Float)

/-- A player that takes down remarks as it goes. -/
structure Diary where
  player : Player
  /-- The number of the node behind the last start of a section that was played. -/
  start : Nat := 0
  /-- The remarks so far, the latest first. -/
  remarks : List Remark := []

namespace Diary

/-- The remark that a visit to a numbered node deserves. -/
def remark? (d : Diary) (visit : Visit (Node × Nat)) : Option Remark :=
  match visit.fate, visit.node.1.mark with
  | .skipped, _ => some (.skipping visit.pass visit.node.1.raw)
  | .stray, _ => some .strayStop
  | .returned, _ => some (.goingBack d.start (visit.pass + 1))
  | .played, .unknown raw => some (.ignoring raw)
  | .played, _ => none

/-- The diary after the remark on a visit. -/
def note (d : Diary) (visit : Visit (Node × Nat)) : Diary :=
  { d with
    remarks := (d.remark? visit).toList ++ d.remarks
    start :=
      if visit.fate = .played ∧ visit.node.1.cue = .repeatStart then visit.node.2 + 1
      else d.start }

/-- Play a node and remark on it; a fault stops the player and leaves the remarks. -/
def follow (settings : Settings) (d : Diary) (visit : Visit (Node × Nat)) :
    Except (List Remark) Diary :=
  let d := d.note visit
  match settings.follow d.player ⟨visit.node.1, visit.pass, visit.fate⟩ with
  | .ok player => .ok { d with player }
  | .error _ => .error d.remarks

end Diary

/-- The remarks on the way through a score, up to the end or the fault that stops it. -/
def Score.remarks (settings : Settings) (score : Score) : List Remark :=
  match score.refusal? settings with
  | some _ => []
  | none =>
    let passes := settings.passes.toNat
    let outcome : Except (List Remark) Diary :=
      walk (fun node : Node × Nat => node.1.cue) passes (Diary.follow settings)
        (returnsAllowed passes score) score.zipIdx {} { player := settings.player }
    match outcome with
    | .ok d =>
      let result := d.player.finish
      (.finished result.events.length result.duration :: d.remarks).reverse
    | .error remarks => remarks.reverse

end NumberedScore
