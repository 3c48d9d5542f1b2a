/-
Pitches: letters, accidentals and piano keys.

A piano key is a whole number, 1 for the lowest key of a piano with 88 keys and 40 for
middle C.  It is not held to the keyboard, since octave marks may lead off either end of
it.  A score names pitches relatively, as degrees of the major scale on a tonic;
`scaleKey?` turns a degree into a key.

The key of a degree is a sum (`degreeKey?`), and what is kept of it is a signed word of 32
bits, in which sums wrap around.  One wrap at the end does the same as a wrap at every step
(`scaleKey?_eq_words`).
-/

namespace NumberedScore

/-- What a signed word of 32 bits keeps of a number. -/
def wrapped (n : Int) : Int := n.toInt32.toInt

/-- The number of a key of the piano. -/
abbrev PianoKey := Int

/-- Middle C, the C below concert A. -/
def middleC : PianoKey := 40

/-- Concert A, the key that instruments are tuned to. -/
def concertA : PianoKey := 49

/-- An offset from the pitch or scale degree as written. -/
inductive Accidental where
  /-- A semitone lower. -/
  | flat
  /-- Unchanged. -/
  | natural
  /-- A semitone higher. -/
  | sharp
  deriving DecidableEq, Repr, Inhabited

namespace Accidental

/-- The accidental a sign stands for; a natural has no sign. -/
def ofChar? : Char → Option Accidental
  | '#' => some sharp
  | 'b' => some flat
  | _ => none

/-- The offset in semitones. -/
def semitones : Accidental → Int
  | flat => -1
  | natural => 0
  | sharp => 1

/-- The sign in front of a note, nothing for a natural. -/
def sign : Accidental → List Char
  | flat => ['b']
  | natural => []
  | sharp => ['#']

/-- The accidental of a note without a sign. -/
def unmarked : Accidental := natural

end Accidental

/-- A pitch in letter notation, within one octave. -/
inductive Letter where
  | a | b | c | d | e | f | g
  deriving DecidableEq, Repr, Inhabited

namespace Letter

/-- The letter a capital stands for. -/
def ofChar? : Char → Option Letter
  | 'A' => some a
  | 'B' => some b
  | 'C' => some c
  | 'D' => some d
  | 'E' => some e
  | 'F' => some f
  | 'G' => some g
  | _ => none

/-- The letter as it is written. -/
def toChar : Letter → Char
  | a => 'A'
  | b => 'B'
  | c => 'C'
  | d => 'D'
  | e => 'E'
  | f => 'F'
  | g => 'G'

/-- The distance from C in semitones. -/
def semitones : Letter → Int
  | c => 0
  | d => 2
  | e => 4
  | f => 5
  | g => 7
  | a => 9
  | b => 11

/-- The key of a letter in the octave that starts at middle C. -/
def key (letter : Letter) (accidental : Accidental) : PianoKey :=
  middleC + letter.semitones + accidental.semitones

/-- Reading a written letter gives it back. -/
theorem ofChar?_toChar (letter : Letter) : ofChar? letter.toChar = some letter := by
  cases letter <;> rfl

end Letter

/-- The distances of the degrees of a major scale from its tonic, in semitones. -/
def majorScale : List Int := [0, 2, 4, 5, 7, 9, 11]

/--
The key of a scale degree, counted from one, whatever the size of the number.

Degree zero is a rest and has no key; neither has a degree beyond the seventh.
-/
def degreeKey? (tonic : PianoKey) (accidental : Accidental) (degree : Nat) (octave : Int) :
    Option PianoKey :=
  match degree with
  | 0 => none
  | d + 1 => majorScale[d]?.map fun step => tonic + step + accidental.semitones + 12 * octave

/-- The key of a scale degree as a signed word of 32 bits. -/
def scaleKey? (tonic : PianoKey) (accidental : Accidental) (degree : Nat) (octave : Int) :
    Option PianoKey :=
  (degreeKey? tonic accidental degree octave).map wrapped

/-- Added up in words, with a wrap at every step, a key comes out the same. -/
theorem scaleKey?_eq_words (tonic : PianoKey) (accidental : Accidental) (d : Nat) (octave : Int) :
    scaleKey? tonic accidental (d + 1) octave
      = majorScale[d]?.map fun step => Int32.toInt
        (tonic.toInt32 + (step.toInt32 + accidental.semitones.toInt32 + 12 * octave.toInt32)) := by
  have hword (step : Int) : wrapped (tonic + step + accidental.semitones + 12 * octave)
      = Int32.toInt (tonic.toInt32
        + (step.toInt32 + accidental.semitones.toInt32 + 12 * octave.toInt32)) := by
    rw [wrapped, Int.toInt32, Int32.ofInt_add, Int32.ofInt_add, Int32.ofInt_add, Int32.ofInt_mul,
      Int32.add_assoc, Int32.add_assoc, ← Int32.add_assoc (Int32.ofInt step)]
    rfl
  simp only [scaleKey?, degreeKey?, Option.map_map, Function.comp_def, hword]

end NumberedScore
