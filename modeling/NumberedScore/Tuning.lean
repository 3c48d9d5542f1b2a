/-
Tunings: which frequency each key sounds at.

A tuning fixes the frequency of one key.  All others follow in equal temperament, twelve
equal steps to an octave, so only the distance from the reference key matters.  The distance
is a signed word of 32 bits like the keys, and wraps around.
-/
import NumberedScore.Pitch
import NumberedScore.Binary64.Power

namespace NumberedScore

/-- An equal-tempered tuning. -/
structure Tuning where
  /-- The key whose frequency is given. -/
  referenceKey : PianoKey := concertA
  /-- The frequency of that key in hertz. -/
  referenceFrequency : Float := 440

/-- The frequency of a key in hertz. -/
def Tuning.frequency (t : Tuning) (key : PianoKey) : Float :=
  t.referenceFrequency * Binary64.exp2 (Float.ofInt (wrapped (key - t.referenceKey)) / 12)

theorem Tuning.frequency_eq_words (t : Tuning) (key : PianoKey) :
    t.frequency key = t.referenceFrequency
      * Binary64.exp2 (Float.ofInt (key.toInt32 - t.referenceKey.toInt32).toInt / 12) := by
  rw [frequency, wrapped, Int.toInt32, Int32.ofInt_sub]

/-- A key sounds the same after it has wrapped around. -/
theorem Tuning.frequency_wrapped (t : Tuning) (key : PianoKey) :
    t.frequency (wrapped key) = t.frequency key := by
  rw [frequency_eq_words, frequency_eq_words, wrapped, Int.toInt32, Int32.ofInt_toInt]

/-- The frequency of a degree follows from its key as a sum. -/
theorem Tuning.frequency_scaleKey? (t : Tuning) (tonic : PianoKey) (accidental : Accidental)
    (degree : Nat) (octave : Int) :
    (scaleKey? tonic accidental degree octave).elim 0 t.frequency
      = (degreeKey? tonic accidental degree octave).elim 0 t.frequency := by
  rw [scaleKey?]
  cases degreeKey? tonic accidental degree octave with
  | none => rfl
  | some key => exact t.frequency_wrapped key

end NumberedScore
