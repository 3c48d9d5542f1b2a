/-
The written form of a mark.

Every mark has one canonical token.  Numbers come without leading zeros and degrees as
digits, so a token written with a syllable is not the canonical one of its mark.  Octave
signs are repeated once per octave, underscores once per halving, full stops once per dot.
-/
import NumberedScore.Decimal.Numeral
import NumberedScore.Mark.Basic

namespace NumberedScore

open Decimal

/-- Octave signs: plus signs up, hyphens down. -/
def octaveSigns (octave : Int) : List Char :=
  List.replicate octave.natAbs (if octave < 0 then '-' else '+')

/-- The canonical token of a note. -/
def Note.written (n : Note) : List Char :=
  (if n.tied then ['^'] else []) ++ n.accidental.sign ++ numeral n.degree.toNat ++
    octaveSigns n.octave ++ List.replicate n.halvings.toNat '_' ++
    List.replicate n.dots.toNat '.' ++ (if n.grace then ['&'] else [])

/-- The canonical token of a mark. -/
def Mark.written : Mark → List Char
  | tempo beats => '!' :: numeral beats.toNat
  | key tonic accidental letter =>
    numeral tonic.toNat ++ '=' :: accidental.sign ++ [letter.toChar]
  | time beats unit => numeral beats.toNat ++ '/' :: numeral unit.toNat
  | note n => n.written
  | dash => ['-']
  | bar _ .start => ['|', '|', ':']
  | bar _ .stop => [':', '|', '|']
  | bar true .none => ['|', '|']
  | bar false .none => ['|']
  | ending pass => '[' :: numeral pass.toNat ++ ['.']
  | unknown raw => raw

end NumberedScore
