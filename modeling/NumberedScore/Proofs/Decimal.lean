/-
Numerals among the runs of digits.

Many runs of digits stand for one number, since zeros in front count for nothing.  Its numeral is
the one run without them (`IsPlain`), the zero by itself apart.  So a run of digits is the numeral
of its number exactly if it is plain, and no run for the same number is shorter.

Both are shown digit by digit from the left: to put a digit behind a run is to put it behind the
numeral, unless the number was zero so far.
-/
import Mathlib.Data.List.Basic
import Mathlib.Data.List.Induction
import Mathlib.Data.Nat.Init
import NumberedScore.Decimal.Numeral

namespace NumberedScore.Decimal

variable {digits : List Char}

/-- Whether a run of digits has no zero in front, unless it is the zero by itself. -/
def IsPlain (digits : List Char) : Prop := digits = ['0'] ∨ digits.head? ≠ some '0'

instance (digits : List Char) : Decidable (IsPlain digits) :=
  inferInstanceAs (Decidable (digits = ['0'] ∨ digits.head? ≠ some '0'))

theorem isPlain_nil : IsPlain [] := .inr (by simp)

/-! ### One more digit -/

/-- The numeral of a digit is the digit. -/
theorem numeral_digit {c : Char} (h : c.isDigit = true) : numeral (c.toNat - '0'.toNat) = [c] := by
  obtain ⟨hlo, hhi⟩ := Char.isDigit_iff_toNat.1 h
  have hzero : '0'.toNat = 48 := rfl
  have hnine : '9'.toNat = 57 := rfl
  rw [numeral, Nat.toDigits_of_lt_base (by omega), List.singleton_inj, ← Char.toNat_inj,
    Nat.toNat_digitChar_of_lt_ten (by omega)]
  omega

theorem digit_lt {c : Char} (h : c.isDigit = true) : c.toNat - '0'.toNat < 10 := by
  have hhi := (Char.isDigit_iff_toNat.1 h).2
  have hzero : '0'.toNat = 48 := rfl
  have hnine : '9'.toNat = 57 := rfl
  omega

theorem numeral_concat {n : Nat} (hn : 0 < n) {c : Char} (h : c.isDigit = true) :
    numeral (10 * n + (c.toNat - '0'.toNat)) = numeral n ++ [c] := by
  rw [← numeral_digit h]
  exact (Nat.toDigits_append_toDigits (by decide) hn (digit_lt h)).symm

theorem ofDigitChars_concat (digits : List Char) (c : Char) :
    Nat.ofDigitChars 10 (digits ++ [c]) 0
      = 10 * Nat.ofDigitChars 10 digits 0 + (c.toNat - '0'.toNat) := by
  rw [Nat.ofDigitChars_append, Nat.ofDigitChars_cons, Nat.ofDigitChars_nil]

/-! ### Plain runs -/

/-- Only the numeral of zero begins with a zero. -/
theorem head?_numeral_ne {n : Nat} (h : 0 < n) : (numeral n).head? ≠ some '0' := by
  induction n using Nat.strong_induction_on with
  | _ n ih =>
      by_cases hsmall : n < 10
      · have hdigits : ∀ k < 10, 0 < k → Nat.digitChar k ≠ '0' := by decide
        rw [numeral, Nat.toDigits_of_lt_base hsmall]
        simpa using hdigits n hsmall h
      · have hfront : numeral n = numeral (n / 10) ++ [(n % 10).digitChar] :=
          Nat.toDigits_of_base_le (by decide) (Nat.le_of_not_lt hsmall)
        rw [hfront, List.head?_append_of_ne_nil _ (numeral_ne_nil _)]
        exact ih (n / 10) (by omega) (by omega)

theorem isPlain_numeral (n : Nat) : IsPlain (numeral n) := by
  rcases Nat.eq_zero_or_pos n with rfl | hpos
  · exact .inl (Nat.toDigits_zero 10)
  · exact .inr (head?_numeral_ne hpos)

/-- A plain run of digits is the numeral of its number. -/
theorem numeral_ofDigitChars (hne : digits ≠ []) (hdigit : ∀ c ∈ digits, c.isDigit = true)
    (hplain : IsPlain digits) : numeral (Nat.ofDigitChars 10 digits 0) = digits := by
  induction digits using List.reverseRecOn with
  | nil => exact absurd rfl hne
  | append_singleton front c ih =>
      obtain ⟨hfront, hc⟩ := List.forall_mem_append.1 hdigit
      have hlast := List.forall_mem_singleton.1 hc
      rw [ofDigitChars_concat]
      by_cases hnil : front = []
      · subst hnil
        rw [Nat.ofDigitChars_nil, Nat.mul_zero, Nat.zero_add, numeral_digit hlast, List.nil_append]
      · have hhead : front.head? ≠ some '0' := by
          rcases hplain with hzero | hhead
          · have hlength := congrArg List.length hzero
            rw [List.length_append, List.length_singleton, List.length_singleton] at hlength
            exact absurd (List.eq_nil_of_length_eq_zero (by omega)) hnil
          · rwa [List.head?_append_of_ne_nil _ hnil] at hhead
        have hnumeral := ih hnil hfront (.inr hhead)
        have hpos : 0 < Nat.ofDigitChars 10 front 0 := by
          refine Nat.pos_of_ne_zero fun hzero => hhead ?_
          rw [← hnumeral, hzero]
          rfl
        rw [numeral_concat hpos hlast, hnumeral]

/-- **A run of digits is the numeral of its number exactly if it is plain.** -/
theorem numeral_eq_iff_isPlain (hne : digits ≠ []) (hdigit : ∀ c ∈ digits, c.isDigit = true) :
    numeral (Nat.ofDigitChars 10 digits 0) = digits ↔ IsPlain digits :=
  ⟨fun h => h ▸ isPlain_numeral _, numeral_ofDigitChars hne hdigit⟩

/-- No run of digits is shorter than the numeral of its number. -/
theorem length_numeral_le (hne : digits ≠ []) (hdigit : ∀ c ∈ digits, c.isDigit = true) :
    (numeral (Nat.ofDigitChars 10 digits 0)).length ≤ digits.length := by
  induction digits using List.reverseRecOn with
  | nil => exact absurd rfl hne
  | append_singleton front c ih =>
      obtain ⟨hfront, hc⟩ := List.forall_mem_append.1 hdigit
      have hlast := List.forall_mem_singleton.1 hc
      rw [ofDigitChars_concat, List.length_append, List.length_singleton]
      rcases Nat.eq_zero_or_pos (Nat.ofDigitChars 10 front 0) with hzero | hpos
      · rw [hzero, Nat.mul_zero, Nat.zero_add, numeral_digit hlast, List.length_singleton]
        omega
      · have hnil : front ≠ [] := by
          rintro rfl
          exact absurd hpos (by simp)
        have hle := ih hnil hfront
        rw [numeral_concat hpos hlast, List.length_append, List.length_singleton]
        omega

end NumberedScore.Decimal
