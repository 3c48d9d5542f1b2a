/-
Looking up a line by halving.

The line breaks of a text stand in order, so the line of an offset can be found without
counting them: look at the break in the middle of those that are left, and go on in the half
where the offset belongs.  Such a search reports whether it has hit the offset itself.  For a
line that makes no difference, since a break belongs to the line it ends: the index of a break
that is hit, and the index at which a missing one would have to be put, both count the breaks
before the offset.
-/
import NumberedScore.Text.LineTable

namespace NumberedScore.Text

/-- What a search in an ordered list reports. -/
inductive Found where
  /-- The value stands at this index. -/
  | hit (index : Nat)
  /-- The value is missing; put at this index it would stand in order. -/
  | miss (index : Nat)
  deriving DecidableEq, Repr

/-- The index that is reported, whether or not the value stands there. -/
def Found.index : Found → Nat
  | hit index | miss index => index

/-- Search an ordered list from one index up to another, halving what lies between. -/
def searchBetween (x : Nat) (l : List Nat) (low high : Nat) (h : high ≤ l.length) : Found :=
  if hlt : low < high then
    let middle := low + (high - low) / 2
    have hmiddle : middle < l.length := by omega
    if l[middle] = x then .hit middle
    else if l[middle] < x then searchBetween x l (middle + 1) high h
    else searchBetween x l low middle (Nat.le_of_lt hmiddle)
  else .miss low
termination_by high - low

/-- Search an ordered list. -/
def search (x : Nat) (l : List Nat) : Found := searchBetween x l 0 l.length (Nat.le_refl _)

namespace LineTable

/-- The line that an offset is found on. -/
def lineFound (m : LineTable) (offset : Nat) : Nat := (search offset m.breaks).index + 1

/-- The position of an offset by way of a search, if it lies between two characters of the text. -/
def locate? (m : LineTable) (offset : Nat) : Option Position :=
  let line := m.lineFound offset
  (slice? m.text ⟨m.lineStart line, offset⟩).map fun before => ⟨line, before.length + 1⟩

end LineTable

end NumberedScore.Text
