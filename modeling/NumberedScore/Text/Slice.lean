/-
Byte offsets into a text.

A text is its list of characters.  Offsets into it count bytes of its UTF-8 form, as
editors and other tools do, so an offset can miss: it may lie beyond the end or inside a
character.  The cuts here are therefore partial.  They succeed exactly at the offsets
where a text can be cut in two.
-/

namespace NumberedScore

/-- A half-open range of byte offsets. -/
structure Span where
  start : Nat
  stop : Nat
  deriving DecidableEq, Repr, Inhabited

namespace Text

/-- The length of a text in bytes. -/
def byteSize : List Char → Nat
  | [] => 0
  | c :: t => c.utf8Size + byteSize t

@[simp] theorem byteSize_nil : byteSize [] = 0 := rfl

@[simp] theorem byteSize_cons (c : Char) (t : List Char) :
    byteSize (c :: t) = c.utf8Size + byteSize t := rfl

@[simp] theorem byteSize_append (s t : List Char) :
    byteSize (s ++ t) = byteSize s + byteSize t := by
  induction s with
  | nil => simp
  | cons c s ih => simp [ih, Nat.add_assoc]

/-- No character is without a byte. -/
theorem length_le_byteSize (t : List Char) : t.length ≤ byteSize t := by
  induction t with
  | nil => exact Nat.le_refl 0
  | cons c t ih =>
    have hpos := c.utf8Size_pos
    rw [List.length_cons, byteSize_cons]
    omega

/-- Where every character is one byte, offsets count characters. -/
theorem byteSize_eq_length {t : List Char} (h : ∀ c ∈ t, c.utf8Size = 1) :
    byteSize t = t.length := by
  induction t with
  | nil => rfl
  | cons c t ih =>
    obtain ⟨hc, ht⟩ := List.forall_mem_cons.1 h
    rw [byteSize_cons, hc, ih ht, List.length_cons, Nat.add_comm]

theorem eq_nil_of_byteSize_eq_zero {t : List Char} (h : byteSize t = 0) : t = [] :=
  List.eq_nil_of_length_eq_zero (Nat.le_zero.1 (h ▸ length_le_byteSize t))

/-- Cut a text after a number of bytes, if a character ends there. -/
def cut? : Nat → List Char → Option (List Char × List Char)
  | 0, t => some ([], t)
  | _ + 1, [] => none
  | n + 1, c :: t =>
    if c.utf8Size ≤ n + 1 then
      (cut? (n + 1 - c.utf8Size) t).map fun (before, after) => (c :: before, after)
    else none

/-- A text is cut at the end of any of its beginnings. -/
theorem cut?_byteSize (s t : List Char) : cut? (byteSize s) (s ++ t) = some (s, t) := by
  induction s with
  | nil => simp [cut?]
  | cons c s ih =>
    have hpos := c.utf8Size_pos
    obtain ⟨n, hn⟩ : ∃ n, byteSize (c :: s) = n + 1 :=
      ⟨byteSize (c :: s) - 1, by simp only [byteSize_cons]; omega⟩
    have hrest : n + 1 - c.utf8Size = byteSize s := by
      rw [← hn, byteSize_cons]; omega
    have hle : c.utf8Size ≤ n + 1 := by rw [← hn, byteSize_cons]; omega
    rw [hn, List.cons_append, cut?, if_pos hle, hrest, ih]
    rfl

/-- A cut takes nothing away, and what comes before it has the length asked for. -/
theorem eq_append_of_cut? {n : Nat} {t before after : List Char}
    (h : cut? n t = some (before, after)) : t = before ++ after ∧ byteSize before = n := by
  induction t generalizing n before after with
  | nil =>
    cases n with
    | zero => simp_all [cut?]
    | succ n => simp [cut?] at h
  | cons c t ih =>
    cases n with
    | zero => simp_all [cut?]
    | succ n =>
      rw [cut?] at h
      split at h
      · next hle =>
        obtain ⟨⟨b, a⟩, hcut, heq⟩ := Option.map_eq_some_iff.1 h
        obtain ⟨rfl, rfl⟩ := Prod.mk.inj heq
        obtain ⟨rfl, hsize⟩ := ih hcut
        refine ⟨rfl, ?_⟩
        rw [byteSize_cons, hsize]
        omega
      · exact absurd h (by simp)

/-- The part of a text between two offsets, if both can be cut at and are in order. -/
def slice? (t : List Char) (span : Span) : Option (List Char) :=
  if span.start ≤ span.stop then do
    let (_, rest) ← cut? span.start t
    let (part, _) ← cut? (span.stop - span.start) rest
    some part
  else none

/-- A part of a text lies between the sizes of what is before it and of what is up to its end. -/
theorem slice?_byteSize (before part after : List Char) :
    slice? (before ++ (part ++ after)) ⟨byteSize before, byteSize before + byteSize part⟩
      = some part := by
  have hrest : byteSize before + byteSize part - byteSize before = byteSize part :=
    Nat.add_sub_cancel_left ..
  simp only [slice?, Nat.le_add_right, if_true, cut?_byteSize, hrest, Option.bind_eq_bind,
    Option.bind_some]

end Text

end NumberedScore
