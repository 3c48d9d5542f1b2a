/-
What a performance starts from before the first header of a score is reached.

Settings are checked before anything is played.  A tempo or a unit of zero would make
every note endless, a section played no times has no music in it, and a reference
frequency has to be a positive number, which NaN is not.
-/
import NumberedScore.Tuning

namespace NumberedScore

/-- The state of affairs at the start of a performance. -/
structure Settings where
  /-- Beats per minute. -/
  tempo : UInt32 := 60
  /-- The key of scale degree one. -/
  tonic : PianoKey := middleC
  /-- The note value of one beat. -/
  unit : UInt32 := 4
  /-- How often a repeated section is played in all. -/
  passes : UInt32 := 2
  tuning : Tuning := {}

/-- A reason to refuse settings. -/
inductive SettingsFault where
  | zeroTempo
  | zeroUnit
  | noPasses
  | referenceNotPositive
  deriving DecidableEq, Repr

/-- What is wrong, in words. -/
def SettingsFault.message : SettingsFault → String
  | zeroTempo => "tempo must be positive"
  | zeroUnit => "unit must be positive"
  | noPasses => "a repeated section must be played at least once"
  | referenceNotPositive => "reference frequency must be positive"

/-- The first thing wrong with some settings. -/
def Settings.fault? (s : Settings) : Option SettingsFault :=
  if s.tempo = 0 then some .zeroTempo
  else if s.unit = 0 then some .zeroUnit
  else if s.passes = 0 then some .noPasses
  else if 0 < s.tuning.referenceFrequency then none
  else some .referenceNotPositive

end NumberedScore
