/-
Performing a score.

Settings are checked first, then the score as a whole, and only then is it played: the
walk says which node is next, the player what it sounds like, and neither looks into the
other.  After every node played the numbers have to be finite still; the first node after
which they are not is the one at fault.

Beside it stand two simpler views of the same thing.  `played` gives the nodes of a score
that take effect, in the order in which they do, and `straight` plays given nodes one
after the other, whatever they say about the order.
-/
import NumberedScore.Playback.Fault
import NumberedScore.Playback.Player
import NumberedScore.Playback.Walk

namespace NumberedScore

/-- What a mark means to the order of playing. -/
def Mark.cue : Mark → Cue
  | bar _ .start => .repeatStart
  | bar _ .stop => .repeatStop
  | ending pass => .ending pass.toNat
  | _ => .other

/-- What a node means to the order of playing. -/
def Node.cue (node : Node) : Cue := node.mark.cue

namespace Settings

/-- The player that these settings start from. -/
def player (s : Settings) : Player where
  beat := 60 / s.tempo.toFloat
  tonic := s.tonic
  unit := s.unit

/-- Play a node, unless its numbers get out of range. -/
def playNode (s : Settings) (p : Player) (node : Node) : Except Fault Player :=
  let p := p.play s.tuning node.mark
  if p.inRange then .ok p else .error (.outOfRange node.span)

/-- Play a node that the walk has come to, unless it is passed over. -/
def follow (s : Settings) (p : Player) (visit : Visit Node) : Except Fault Player :=
  if visit.fate = .skipped then .ok p else s.playNode p visit.node

end Settings

namespace Score

/-- The first reason not to start playing. -/
def refusal? (settings : Settings) (score : Score) : Option Fault :=
  match settings.fault? with
  | some reason => some (.settings reason)
  | none => score.fault?

/-- Perform a score. -/
def perform (settings : Settings) (score : Score) : Except Fault Performance :=
  match score.refusal? settings with
  | some fault => .error fault
  | none =>
    let passes := settings.passes.toNat
    let outcome : Except Fault Player :=
      walk Node.cue passes settings.follow (returnsAllowed passes score) score {} settings.player
    outcome.map Player.finish

/-! ### The same without the walk -/

/-- All visits of the walk through a score. -/
def visits (settings : Settings) (score : Score) : List (Visit Node) :=
  NumberedScore.visits Node.cue settings.passes.toNat
    (returnsAllowed settings.passes.toNat score) score {}

/-- The nodes that take effect, in the order in which they do. -/
def played (settings : Settings) (score : Score) : List Node :=
  ((score.visits settings).filter (·.fate ≠ .skipped)).map (·.node)

/-- Play nodes one after the other, each of them once. -/
def straight (settings : Settings) (nodes : List Node) : Except Fault Performance :=
  (nodes.foldlM settings.playNode settings.player).map Player.finish

end Score

end NumberedScore
