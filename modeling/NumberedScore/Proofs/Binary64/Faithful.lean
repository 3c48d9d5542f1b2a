/-
Rounding passes no number that needs no rounding.

A product or a quotient is cut off to 53 bits and then rounded to one of the two numbers next
to it.  Whatever the choice, a number of 53 bits stays on the side of the result on which it
was of the exact value (`Faithful`).  So a bound on the exact value that is such a number
itself is a bound on the result, from above as well as from below.

The whole argument needs two facts about the cut.  The significand that is left is the whole
part of a quotient, and if its residual bits say that it is exact, then it is (`Truncates`).
Both survive every bit that is dropped.
-/
import NumberedScore.Proofs.Binary64.Order

namespace NumberedScore.Binary64

open Float.Model (Format UnpackedFloat totalExponent)
open Float.Model.UnpackedFloat (Accuracy ExtendedMantissa Sign accuracyOfFraction divCore
  roundWithAccuracy shiftToExponent shiftToTargetExponent)

/-! ### Powers of two on both sides -/

theorem mul_two_pow_le_add_iff (n n' x x' z : Nat) :
    n * 2 ^ (x + z) ≤ n' * 2 ^ (x' + z) ↔ n * 2 ^ x ≤ n' * 2 ^ x' := by
  rw [Nat.pow_add, Nat.pow_add, ← Nat.mul_assoc, ← Nat.mul_assoc,
    Nat.mul_le_mul_right_iff (Nat.two_pow_pos z)]

/-- Only the difference of two exponents counts in a comparison. -/
theorem mul_two_pow_le_iff (n n' : Nat) {x x' y y' : Nat} (h : x + y' = x' + y) :
    n * 2 ^ x ≤ n' * 2 ^ x' ↔ n * 2 ^ y ≤ n' * 2 ^ y' := by
  rw [← mul_two_pow_le_add_iff n n' x x' y', h, Nat.add_comm x' y, Nat.add_comm x' y',
    mul_two_pow_le_add_iff]

/-! ### Significands cut off -/

/-- A significand is the whole part of `num / den`, and its bits say whether anything is left. -/
structure Truncates (em : ExtendedMantissa) (num den : Nat) : Prop where
  whole : em.mantissa = num / den
  exact_iff : em.accuracy = .exact ↔ den ∣ num

namespace Truncates

variable {em : ExtendedMantissa} {num den : Nat}

theorem of_exact (m : Nat) : Truncates (.ofMantissaAndAccuracy m .exact) m 1 :=
  ⟨(Nat.div_one m).symm, iff_of_true rfl (one_dvd m)⟩

theorem accuracy_ofMantissaAndAccuracy (m : Nat) (a : Accuracy) :
    (ExtendedMantissa.ofMantissaAndAccuracy m a).accuracy = a := by
  rcases a with _ | o
  · rfl
  · cases o <;> rfl

/-- What a division leaves is told by its remainder. -/
theorem of_div (num den : Nat) :
    Truncates (.ofMantissaAndAccuracy (num / den) (accuracyOfFraction (num % den) den))
      num den := by
  refine ⟨mantissa_ofMantissaAndAccuracy .., ?_⟩
  rw [accuracy_ofMantissaAndAccuracy, Nat.dvd_iff_mod_eq_zero, accuracyOfFraction]
  by_cases hrest : num % den = 0 <;> simp [hrest]

/-- The bit that is dropped is kept in mind. -/
theorem accuracy_shiftRightOne (em : ExtendedMantissa) :
    em.shiftRightOne.accuracy = .exact ↔ em.accuracy = .exact ∧ 2 ∣ em.mantissa := by
  rcases em with ⟨m, round, sticky⟩
  rw [Nat.dvd_iff_mod_eq_zero]
  cases round <;> cases sticky <;> rcases Nat.mod_two_eq_zero_or_one m with hm | hm <;>
    simp [ExtendedMantissa.shiftRightOne, ExtendedMantissa.accuracy, hm]

theorem shiftRightOne (h : Truncates em num den) :
    Truncates em.shiftRightOne num (den * 2) := by
  refine ⟨?_, ?_⟩
  · rw [ExtendedMantissa.shiftRightOne, h.whole, Nat.div_div_eq_div_mul]
  · rw [accuracy_shiftRightOne, h.exact_iff, h.whole]
    constructor
    · rintro ⟨hdvd, heven⟩
      rw [← Nat.mul_div_cancel' hdvd]
      exact Nat.mul_dvd_mul_left den heven
    · intro hdvd
      exact ⟨dvd_of_mul_right_dvd hdvd, (Nat.dvd_div_iff_mul_dvd
        (dvd_of_mul_right_dvd hdvd)).2 hdvd⟩

theorem shiftRight (h : Truncates em num den) (k : Nat) :
    Truncates (em >>> k) num (den * 2 ^ k) := by
  induction k with
  | zero => simpa [HShiftRight.hShiftRight, Nat.repeat] using h
  | succ k ih =>
      rw [Nat.pow_succ, ← Nat.mul_assoc]
      exact ih.shiftRightOne

/-- Rounding to a whole number passes no whole number. -/
theorem le_roundedMantissa (h : Truncates em num den) (hden : 0 < den) {c : Nat}
    (hc : c * den ≤ num) : c ≤ em.roundedMantissa := by
  refine Nat.le_trans ?_ (mantissa_le_roundedMantissa em)
  rw [h.whole]
  exact (Nat.le_div_iff_mul_le hden).2 hc

theorem roundedMantissa_le (h : Truncates em num den) {c : Nat}
    (hc : num ≤ c * den) : em.roundedMantissa ≤ c := by
  have hwhole : num / den ≤ c := Nat.div_le_of_le_mul (Nat.mul_comm c den ▸ hc)
  by_cases hexact : em.accuracy = .exact
  · rw [ExtendedMantissa.roundedMantissa, hexact]
    exact h.whole.le.trans hwhole
  · -- something is left, so that `c` is not the whole part
    have hne : num / den ≠ c := by
      rintro rfl
      refine hexact (h.exact_iff.2 ⟨num / den, ?_⟩)
      have := Nat.div_mul_le_self num den
      rw [Nat.mul_comm]
      omega
    have hround := Binary64.roundedMantissa_le em
    rw [h.whole] at hround
    omega

end Truncates

/-! ### Faithful results -/

/-- `u` is `num / den` units of `2 ^ -1074` rounded, and no number of 53 bits is passed. -/
def Faithful (s : Sign) (num den : Nat) (u : UnpackedFloat) : Prop :=
  ∃ m e h, u = .finite s m e h ∧ Canonical u ∧ ∀ a j, a < 2 ^ 53 →
    (a * 2 ^ j * den ≤ num → a * 2 ^ j ≤ m * 2 ^ (e + 1074).toNat) ∧
      (num ≤ a * 2 ^ j * den → m * 2 ^ (e + 1074).toNat ≤ a * 2 ^ j)

/-- On a grid of `2 ^ i` a number of 53 bits is a grid point, or below all of 53 bits. -/
theorem faithful_grid {q r num den i : Nat} (hden : 0 < den) (hq : q = num / den)
    (hfull : i = 0 ∨ 2 ^ 52 ≤ q) (hle : ∀ c, c * den ≤ num → c ≤ r)
    (hge : ∀ c, num ≤ c * den → r ≤ c) {a j : Nat} (ha : a < 2 ^ 53) :
    (a * 2 ^ j * den ≤ num * 2 ^ i → a * 2 ^ j ≤ r * 2 ^ i) ∧
      (num * 2 ^ i ≤ a * 2 ^ j * den → r * 2 ^ i ≤ a * 2 ^ j) := by
  rcases Nat.lt_or_ge j i with hlt | hij
  · have hfloor : q * den ≤ num := hq ▸ Nat.div_mul_le_self num den
    have hbelow : a * 2 ^ j < q * 2 ^ i := mul_two_pow_lt ha (by omega) hlt
    refine ⟨fun _ => hbelow.le.trans (Nat.mul_le_mul_right _ (hle q hfloor)), fun hnum => ?_⟩
    refine absurd (Nat.le_of_mul_le_mul_right ?_ hden) (Nat.not_le.2 hbelow)
    calc q * 2 ^ i * den = q * den * 2 ^ i := Nat.mul_right_comm ..
      _ ≤ num * 2 ^ i := Nat.mul_le_mul_right _ hfloor
      _ ≤ a * 2 ^ j * den := hnum
  · obtain ⟨d, rfl⟩ := Nat.exists_eq_add_of_le' hij
    have hpoint : a * 2 ^ (d + i) * den = a * 2 ^ d * den * 2 ^ i := by
      rw [Nat.pow_add, ← Nat.mul_assoc, Nat.mul_right_comm]
    rw [hpoint, Nat.pow_add, ← Nat.mul_assoc]
    simp only [Nat.mul_le_mul_right_iff (Nat.two_pow_pos i)]
    exact ⟨hle _, hge _⟩

/-- Cut off at its last place a significand has 53 bits, or fewer if no place is lower. -/
theorem cut_full {m k l : Nat} {e : Int}
    (hk : k = (max ((m.log2 : Int) + e - 52) (-1074) - e).toNat) (hl : l = (e + k + 1074).toNat)
    (hlong : 52 ≤ m.log2 ∨ e ≤ -1074) : m / 2 ^ k < 2 ^ 53 ∧ (l = 0 ∨ 2 ^ 52 ≤ m / 2 ^ k) := by
  constructor
  · refine Nat.lt_of_le_of_lt (Nat.div_le_div_left ?_ (Nat.two_pow_pos _)) (div_two_pow_lt m)
    exact Nat.pow_le_pow_right (by decide) (by omega)
  · by_cases hcut : 52 ≤ m.log2 ∧ k = m.log2 - 52
    · rw [hcut.2]
      exact .inr (le_div_two_pow (Nat.pos_of_ne_zero fun h => by simp [h] at hcut) hcut.1)
    · exact .inl (by omega)

/--
The significand `m` with its accuracy stands for `num / den`, and the last place is `2 ^ i / 2 ^ t`
units.  It is long enough to be rounded, and not below the smallest number.
-/
theorem faithful_roundWithAccuracy (s : Sign) {m num den i t : Nat} {e : Int} {acc : Accuracy}
    (hden : 0 < den) (h : Truncates (.ofMantissaAndAccuracy m acc) num den)
    (hunit : e + 1074 = i - t) (hlong : 52 ≤ m.log2 ∨ e ≤ -1074)
    (hsize : den * 2 ^ t ≤ num * 2 ^ i) :
    Faithful s (num * 2 ^ i) (den * 2 ^ t) (roundWithAccuracy Format.binary64 s m e acc) := by
  obtain ⟨k, hk⟩ : ∃ k, k = (max ((m.log2 : Int) + e - 52) (-1074) - e).toNat := ⟨_, rfl⟩
  have hshift : (Format.binary64.targetExponent (totalExponent m e) - e).toNat = k := by
    rw [targetExponent_eq, hk]
  obtain ⟨l, hl⟩ : ∃ l, l = (e + k + 1074).toNat := ⟨_, rfl⟩
  have hbalance : l + t = i + k := by omega
  have hm : m = num / den := (mantissa_ofMantissaAndAccuracy m acc).symm.trans h.whole
  obtain ⟨em, hem⟩ : ∃ em, em = ExtendedMantissa.ofMantissaAndAccuracy m acc >>> k := ⟨_, rfl⟩
  have htruncates : Truncates em num (den * 2 ^ k) := hem ▸ h.shiftRight k
  have hden' : 0 < den * 2 ^ k := Nat.mul_pos hden (Nat.two_pow_pos k)
  have hq : m / 2 ^ k = num / (den * 2 ^ k) := by rw [hm, Nat.div_div_eq_div_mul]
  obtain ⟨hlt, hfull⟩ := cut_full hk hl hlong
  have hle : ∀ c, c * (den * 2 ^ k) ≤ num → c ≤ em.roundedMantissa :=
    fun c => htruncates.le_roundedMantissa hden'
  have hfloor : m / 2 ^ k ≤ em.roundedMantissa := hle _ (hq ▸ Nat.div_mul_le_self ..)
  have hceil := roundedMantissa_le em
  rw [htruncates.whole, ← hq] at hceil
  have hpos : 0 < em.roundedMantissa := by
    rcases hfull with hzero | hfull
    · rw [mul_two_pow_le_iff den num (show t + l = i + k by omega), hzero, pow_zero,
        Nat.mul_one] at hsize
      exact hle 1 (by rwa [Nat.one_mul])
    · omega
  obtain ⟨m', e', hcarry, hpos', hcanonical, hsame⟩ := carry (m := em.roundedMantissa)
    (e := e + k) hpos (by omega) (by omega) (by omega)
  have hround : roundWithAccuracy Format.binary64 s m e acc = .finite s m' e' hpos' := by
    unfold roundWithAccuracy
    rw [shiftToTargetExponent, shiftToExponent, hshift, ← hem]
    simp only [hcarry]
    exact dif_neg (Nat.ne_of_gt hpos')
  refine ⟨m', e', hpos', hround, hround ▸ hcanonical, fun a j ha => ?_⟩
  have hgrid := faithful_grid (j := j) hden' hq hfull hle (fun c => htruncates.roundedMantissa_le)
    ha
  rw [hsame, ← hl, ← Nat.mul_assoc, mul_two_pow_le_iff _ num (show t + l = i + k by omega),
    mul_two_pow_le_iff num _ (show i + k = t + l by omega), Nat.mul_assoc]
  exact hgrid

/-- The scale of weights: one is this many units of `2 ^ -1074`. -/
def scale : Nat := 2 ^ 1074

theorem scale_pos : 0 < scale := pow_pos two_pos 1074

/-- A product of a full significand with any other number. -/
theorem faithful_mul (s₁ s₂ : Sign) {m₁ m₂ : Nat} (e₁ e₂ : Int) (h₁ : 0 < m₁) (h₂ : 0 < m₂)
    (hfull : 2 ^ 52 ≤ m₁) (he₁ : -1074 ≤ e₁) (he₂ : -1074 ≤ e₂)
    (hsize : scale ≤ m₁ * 2 ^ (e₁ + 1074).toNat * (m₂ * 2 ^ (e₂ + 1074).toNat)) :
    Faithful (s₁ * s₂) (m₁ * 2 ^ (e₁ + 1074).toNat * (m₂ * 2 ^ (e₂ + 1074).toNat)) scale
      (UnpackedFloat.mul Format.binary64 (.finite s₁ m₁ e₁ h₁) (.finite s₂ m₂ e₂ h₂)) := by
  have hlong : 52 ≤ (m₁ * m₂).log2 :=
    (Nat.le_log2 (Nat.ne_of_gt (Nat.mul_pos h₁ h₂))).2
      (hfull.trans (Nat.le_mul_of_pos_right m₁ h₂))
  have hnum : m₁ * 2 ^ (e₁ + 1074).toNat * (m₂ * 2 ^ (e₂ + 1074).toNat)
      = m₁ * m₂ * 2 ^ ((e₁ + 1074).toNat + (e₂ + 1074).toNat) := by
    rw [Nat.pow_add, Nat.mul_mul_mul_comm]
  rw [hnum, scale, ← Nat.one_mul (2 ^ 1074)] at hsize ⊢
  exact faithful_roundWithAccuracy _ Nat.one_pos (Truncates.of_exact _) (by omega) (.inl hlong)
    hsize

/-- A dividend with 53 bits more than the divisor has a quotient of 53 bits. -/
theorem le_log2_shiftLeft_div {m₁ m₂ d : Nat} (h₁ : 0 < m₁) (h₂ : 0 < m₂)
    (h : 53 + m₂.log2 ≤ m₁.log2 + d) : 52 ≤ (m₁ <<< d / m₂).log2 := by
  have hbits : 2 ^ 52 * m₂ ≤ m₁ <<< d := by
    calc 2 ^ 52 * m₂ ≤ 2 ^ 52 * 2 ^ (m₂.log2 + 1) := Nat.mul_le_mul_left _ Nat.lt_log2_self.le
      _ = 2 ^ (52 + (m₂.log2 + 1)) := (Nat.pow_add ..).symm
      _ ≤ 2 ^ (m₁.log2 + d) := Nat.pow_le_pow_right (by decide) (by omega)
      _ = 2 ^ m₁.log2 * 2 ^ d := Nat.pow_add ..
      _ ≤ m₁ * 2 ^ d := Nat.mul_le_mul_right _ (Nat.log2_self_le (Nat.ne_of_gt h₁))
      _ = m₁ <<< d := (Nat.shiftLeft_eq ..).symm
  have hquot := (Nat.le_div_iff_mul_le h₂).2 hbits
  have hpos := Nat.lt_of_lt_of_le (Nat.two_pow_pos 52) hquot
  exact (Nat.le_log2 (Nat.ne_of_gt hpos)).2 hquot

/-- A quotient that is not below the smallest number. -/
theorem faithful_div (s₁ s₂ : Sign) {m₁ m₂ : Nat} (e₁ e₂ : Int) (h₁ : 0 < m₁) (h₂ : 0 < m₂)
    (he₁ : -1074 ≤ e₁) (he₂ : -1074 ≤ e₂) (he : -1074 ≤ e₁ - e₂)
    (hsize : m₂ * 2 ^ (e₂ + 1074).toNat ≤ m₁ * 2 ^ (e₁ + 1074).toNat * scale) :
    Faithful (s₁ / s₂) (m₁ * 2 ^ (e₁ + 1074).toNat * scale) (m₂ * 2 ^ (e₂ + 1074).toNat)
      (UnpackedFloat.div Format.binary64 (.finite s₁ m₁ e₁ h₁) (.finite s₂ m₂ e₂ h₂)) := by
  obtain ⟨target, htarget⟩ : ∃ target : Int, target = min (e₁ - e₂)
    (max ((m₁.log2 : Int) + e₁ - (m₂.log2 + e₂) - 53) (-1074)) := ⟨_, rfl⟩
  obtain ⟨d, hd⟩ : ∃ d, d = (e₁ - e₂ - target).toNat := ⟨_, rfl⟩
  have hdiv : UnpackedFloat.div Format.binary64 (.finite s₁ m₁ e₁ h₁) (.finite s₂ m₂ e₂ h₂)
      = roundWithAccuracy Format.binary64 (s₁ / s₂) (m₁ <<< d / m₂) target
        (accuracyOfFraction (m₁ <<< d % m₂) m₂) := by
    have htarget' : min (e₁ - e₂) (Format.binary64.targetExponent
        (totalExponent m₁ e₁ - totalExponent m₂ e₂)) = target := by
      unfold Format.targetExponent totalExponent
      rw [show Format.binary64.minExponent = -1074 by decide,
        show Format.binary64.mantissaBits = 53 by decide]
      omega
    unfold UnpackedFloat.div divCore
    simp only [htarget', ← hd]
  have hlong : 52 ≤ (m₁ <<< d / m₂).log2 ∨ target ≤ -1074 := by
    by_cases hlow : target ≤ -1074
    · exact .inr hlow
    · exact .inl (le_log2_shiftLeft_div h₁ h₂ (by omega))
  have hnum : m₁ * 2 ^ (e₁ + 1074).toNat * scale
      = m₁ <<< d * 2 ^ ((e₁ + 1074).toNat + 1074 - d) := by
    rw [scale, Nat.shiftLeft_eq, Nat.mul_assoc, Nat.mul_assoc, ← Nat.pow_add, ← Nat.pow_add,
      Nat.add_sub_cancel' (by omega)]
  rw [hdiv]
  rw [hnum] at hsize ⊢
  exact faithful_roundWithAccuracy _ h₂ (Truncates.of_div _ _) (by omega) hlong hsize

/-! ### In range or not -/

/-- A canonical number is packed as it is, or as infinity. -/
theorem unpack_pack_finite {s : Sign} {m : Nat} {e : Int} {hm : 0 < m}
    (h : Canonical (.finite s m e hm)) : (Float.Model.pack (.finite s m e hm)).unpack
      = if 971 < e then .infinity s else .finite s m e hm := by
  by_cases he : 971 < e
  · show UnpackedFloat.unpack _ (UnpackedFloat.pack _ _) = _
    rw [if_pos he, pack_finite, if_pos he]
    cases s <;> rfl
  · rw [if_neg he]
    exact unpack_pack_of_canonical h (isFinite_pack (show e ≤ 971 by omega))

namespace Faithful

variable {s : Sign} {num den : Nat} {u : UnpackedFloat}

theorem of_mul {c : Nat} (hc : 0 < c) (h : Faithful s (num * c) (den * c) u) :
    Faithful s num den u := by
  obtain ⟨m, e, hm, hu, hcanonical, hbounds⟩ := h
  refine ⟨m, e, hm, hu, hcanonical, fun a j ha => ?_⟩
  have hbound := hbounds a j ha
  rwa [← Nat.mul_assoc, Nat.mul_le_mul_right_iff hc, Nat.mul_le_mul_right_iff hc] at hbound

/-- What is not below the smallest number is not rounded to zero. -/
theorem unpack_pack_ne_zero (h : Faithful s num den u) (s' : Sign) :
    (Float.Model.pack u).unpack ≠ .zero s' := by
  obtain ⟨m, e, hm, rfl, hcanonical, -⟩ := h
  rw [unpack_pack_finite hcanonical]
  split <;> exact UnpackedFloat.noConfusion

/-- A result below a number that is in range is in range. -/
theorem unpack_pack (h : Faithful s num den u) {a j : Nat} (ha : a < 2 ^ 53) (hj : j ≤ 2045)
    (hle : num ≤ a * 2 ^ j * den) : (Float.Model.pack u).unpack = u := by
  obtain ⟨m, e, hm, rfl, hcanonical, hbounds⟩ := h
  rw [unpack_pack_finite hcanonical]
  refine if_neg fun he => ?_
  obtain ⟨-, -, hfull⟩ := hcanonical
  have hlt : a * 2 ^ j < m * 2 ^ (e + 1074).toNat := mul_two_pow_lt ha (by omega) (by omega)
  exact Nat.not_le.2 hlt ((hbounds a j ha).2 hle)

/-- A result that is not below `2 ^ 1024` is infinite. -/
theorem unpack_pack_eq_infinity (h : Faithful s num den u) (hle : 2 ^ 2098 * den ≤ num) :
    (Float.Model.pack u).unpack = .infinity s := by
  obtain ⟨m, e, hm, rfl, hcanonical, hbounds⟩ := h
  rw [unpack_pack_finite hcanonical]
  refine if_pos ?_
  by_contra! he
  have hbelow : m * 2 ^ (e + 1074).toNat < 1 * 2 ^ 2098 := by
    refine Nat.lt_of_lt_of_le (Nat.mul_lt_mul_of_pos_right hcanonical.1 (Nat.two_pow_pos _)) ?_
    rw [Nat.one_mul, ← pow_add]
    exact pow_le_pow_right₀ one_le_two (by omega)
  exact Nat.not_le.2 hbelow ((hbounds 1 2098 (by decide)).1 (by rwa [Nat.one_mul]))

end Faithful

end NumberedScore.Binary64
