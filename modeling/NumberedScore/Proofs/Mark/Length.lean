/-
The lengths of written notes.

A length is a product of two factors, and for a count of halvings or dots in the upper
half of a word either of them can be negative or infinite.  No written note gets there:
each halving and each dot is a character of its token, so in a text of fewer than `2 ^ 31`
bytes the counts stay in the lower half.  Then both factors are amounts, the second
because no power of two with a negative exponent is larger than two.
-/
import NumberedScore.Mark.Length
import NumberedScore.Proofs.Binary64.Power
import NumberedScore.Proofs.Token
import NumberedScore.Score

namespace NumberedScore

open Binary64 Text

/-! ### Counts of characters -/

/-- Neither halvings nor dots are more than a number. -/
def Note.CountsLE (n : Note) (bound : Nat) : Prop :=
  n.halvings.toNat ≤ bound ∧ n.dots.toNat ≤ bound

theorem Note.CountsLE.mono {n : Note} {a b : Nat} (h : n.CountsLE a) (hab : a ≤ b) :
    n.CountsLE b := ⟨h.1.trans hab, h.2.trans hab⟩

theorem leading_rest_le (c : Char) (t : List Char) : (Rule.leading c t).2.length ≤ t.length :=
  (List.dropWhile_sublist _).length_le

theorem toNat_toUInt32_le (n : Nat) : n.toUInt32.toNat ≤ n := Nat.mod_le ..

theorem noteMarks?_countsLE {tied : Bool} {accidental : Accidental} {degree : UInt8}
    {t : List Char} {n : Note} (h : Rule.noteMarks? tied accidental degree t = some n) :
    n.CountsLE t.length := by
  have hraised := leading_rest_le '+' t
  have hlowered := leading_rest_le '-' (Rule.leading '+' t).2
  -- what is left for the halvings, whether or not octave signs go down
  obtain ⟨rest, hrest⟩ : ∃ rest, rest = (if (Rule.leading '+' t).1 = 0 then
    Rule.leading '-' (Rule.leading '+' t).2 else (0, (Rule.leading '+' t).2)).2 := ⟨_, rfl⟩
  have hle : rest.length ≤ t.length := by
    rw [hrest]
    split
    · exact hlowered.trans hraised
    · exact hraised
  have hhalvings := Rule.leading_count_le '_' rest
  have hdots := Rule.leading_count_le '.' (Rule.leading '_' rest).2
  have hafter := leading_rest_le '_' rest
  have hcounts : (Rule.leading '_' rest).1.toUInt32.toNat ≤ t.length ∧
      (Rule.leading '.' (Rule.leading '_' rest).2).1.toUInt32.toNat ≤ t.length :=
    ⟨(toNat_toUInt32_le _).trans (hhalvings.trans hle),
      (toNat_toUInt32_le _).trans (hdots.trans (hafter.trans hle))⟩
  simp only [Rule.noteMarks?, ← hrest] at h
  split at h
  · cases h
    exact hcounts
  · cases h
    exact hcounts
  · exact absurd h (by simp)

theorem degree?_rest_le {t rest : List Char} {d : UInt8} (h : Rule.degree? t = some (d, rest)) :
    rest.length ≤ t.length := by
  unfold Rule.degree? at h
  split at h
  · exact absurd h (by simp)
  · next c t =>
      split at h
      · cases h
        exact Nat.le_succ _
      · split at h
        · cases h
          exact (List.dropWhile_sublist _).length_le.trans (Nat.le_succ _)
        · exact absurd h (by simp)

theorem noteBody?_countsLE {tied : Bool} {accidental : Accidental} {t : List Char} {n : Note}
    (h : Rule.noteBody? tied accidental t = some n) : n.CountsLE t.length := by
  obtain ⟨⟨d, rest⟩, hdegree, hmarks⟩ := Option.bind_eq_some_iff.1 h
  exact (noteMarks?_countsLE hmarks).mono (degree?_rest_le hdegree)

theorem signedNote?_countsLE {tied : Bool} {t : List Char} {n : Note}
    (h : Rule.signedNote? tied t = some n) : n.CountsLE t.length := by
  simp only [Rule.signedNote?, Option.or_eq_some_iff] at h
  rcases h with hmarked | ⟨-, hplain⟩
  · split at hmarked
    · exact absurd hmarked (by simp)
    · obtain ⟨accidental, -, hbody⟩ := Option.bind_eq_some_iff.1 hmarked
      exact (noteBody?_countsLE hbody).mono (Nat.le_succ _)
  · exact noteBody?_countsLE hplain

/-- Only the rule for notes reads a note. -/
theorem countsLE_of_read? {r : Rule} {t : List Char} {n : Note}
    (h : r.read? t = some (.note n)) : n.CountsLE t.length := by
  cases r with
  | note =>
      simp only [Rule.read?, Rule.note?] at h
      split at h
      · obtain ⟨n', hn, hnote⟩ := Option.map_eq_some_iff.1 h
        cases hnote
        exact (signedNote?_countsLE hn).mono (Nat.le_succ _)
      · obtain ⟨n', hn, hnote⟩ := Option.map_eq_some_iff.1 h
        cases hnote
        exact signedNote?_countsLE hn
  | tempo =>
      simp only [Rule.read?, Rule.tempo?] at h
      split at h <;> simp at h
  | key =>
      simp only [Rule.read?, Rule.key?] at h
      split at h
      · split at h <;> simp [Option.bind_eq_some_iff] at h
      · simp at h
  | time =>
      simp only [Rule.read?, Rule.time?] at h
      split at h <;> simp [Option.bind_eq_some_iff] at h
  | dash =>
      simp only [Rule.read?, Rule.dash?] at h
      split at h <;> simp at h
  | bar =>
      simp only [Rule.read?, Rule.bar?] at h
      split at h <;> simp at h
  | ending =>
      simp only [Rule.read?, Rule.ending?] at h
      split at h
      · split at h <;> simp at h
      · simp at h

theorem countsLE_of_ofToken {t : List Char} {n : Note} (h : Mark.ofToken t = .note n) :
    n.CountsLE t.length := by
  cases hread : Rule.all.findSome? (·.read? t) with
  | none => simp [Mark.ofToken, hread] at h
  | some m =>
      obtain ⟨r, -, hr⟩ := List.exists_of_findSome?_eq_some hread
      simp only [Mark.ofToken, hread, Option.getD_some] at h
      exact countsLE_of_read? (h ▸ hr)

/-- A note has no more halvings or dots than its text has bytes. -/
theorem Score.countsLE_of_mem_ofText {text : List Char} {node : Node} {n : Note}
    (hmem : node ∈ ofText text) (hnode : node.mark = .note n) : n.CountsLE (byteSize text) := by
  obtain ⟨token, htoken, rfl⟩ := List.mem_map.1 hmem
  obtain ⟨-, before, after, htext, -⟩ := mem_tokensFrom_iff.1 htoken
  refine (countsLE_of_ofToken hnode).mono ((length_le_byteSize _).trans ?_)
  rw [htext, byteSize_append, byteSize_append]
  omega

/-! ### Lengths -/

/-- Counts in the lower half of a word are negated as they are. -/
theorem negated_of_lt {n : UInt32} (h : n.toNat < 2 ^ 31) : negated n = -(n.toNat : Int) := by
  have hlow : 2 * n.toBitVec.toNat < 2 ^ 32 := by
    rw [UInt32.toNat_toBitVec]
    omega
  have hsigned : n.toInt32.toInt = n.toNat := BitVec.toInt_eq_toNat_of_lt hlow
  rw [negated, Int32.toInt_neg, hsigned, Int.bmod]
  omega

theorem unsigned_lengthOf {halvings dots : UInt32} (hhalvings : halvings.toNat < 2 ^ 31)
    (hdots : dots.toNat < 2 ^ 31) : Unsigned (lengthOf halvings dots) := by
  have htwo : Amount 2 := ⟨rfl, rfl⟩
  obtain ⟨hpower, -⟩ := powerOfTwo_neg halvings.toNat
  obtain ⟨hrest, hle⟩ := powerOfTwo_neg dots.toNat
  rw [lengthOf, negated_of_lt hhalvings, negated_of_lt hdots]
  exact hpower.unsigned.mul (unsigned_sub htwo hrest hle)

/-- The notes of a short text have no negative length. -/
theorem Score.unsigned_length_of_mem_ofText {text : List Char} {node : Node} {n : Note}
    (htext : byteSize text < 2 ^ 31) (hmem : node ∈ ofText text) (hnode : node.mark = .note n) :
    Unsigned n.length := by
  obtain ⟨hhalvings, hdots⟩ := countsLE_of_mem_ofText hmem hnode
  exact unsigned_lengthOf (hhalvings.trans_lt htext) (hdots.trans_lt htext)

end NumberedScore
