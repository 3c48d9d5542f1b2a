/-
When a binary64 result is finite.

An operation on binary64 numbers computes an exact significand and exponent, rounds them
to 53 bits, and packs what comes out into a word.  Overflow is decided at the very last
of these steps and by the exponent alone: a rounded number packs to infinity exactly when
its last place counts more than `2 ^ 971`.  So it is enough to follow one bound through
rounding and division.  `ExponentLE` is that bound; rounding keeps it
(`exponentLE_roundWithAccuracy`) because the carry out of a full significand moves the
leading bit by one place and there are 52 places to spare.

The use made of it here is `isFinite_sixty_div`: the seconds to a beat are a finite number
for every tempo that is not zero.  The other main statements are what the order of events
needs, that a finite number is no NaN and is at most itself.
-/
import NumberedScore.Proofs.Binary64.Packing

namespace NumberedScore.Binary64

open Float.Model (Format UnpackedFloat totalExponent)
open Float.Model.UnpackedFloat (Accuracy ExtendedMantissa Sign divCore packComponents
  roundWithAccuracy shiftToExponent shiftToTargetExponent unpackExponent unpackMantissa
  unpackExponent_packComponents)

/-! ### Finite numbers compare with themselves -/

/-- A finite number is at most itself, which NaN is not. -/
theorem le_self_of_isFinite {x : Float} (h : x.isFinite = true) : x ≤ x := by
  have hx : x.toModel.unpack.isFinite = true := h
  refine decide_eq_true (p := x.toModel ≤ x.toModel) ?_
  show x.toModel.unpack.le x.toModel.unpack = true
  unfold UnpackedFloat.le
  cases hu : x.toModel.unpack with
  | infinity s => rw [hu] at hx; exact Bool.noConfusion hx
  | notANumber => rw [hu] at hx; exact Bool.noConfusion hx
  | zero s => rfl
  | finite s m e hm => cases s <;> simp [UnpackedFloat.compare]

/-- A finite number is a number. -/
theorem isNaN_of_isFinite {x : Float} (h : x.isFinite = true) : x.isNaN = false := by
  have hx : x.toModel.unpack.isFinite = true := h
  show x.toModel.unpack.isNaN = false
  cases hu : x.toModel.unpack with
  | notANumber => rw [hu] at hx; exact Bool.noConfusion hx
  | _ => rfl

/-! ### Packing

The exponent field of a packed number is all ones for infinities and NaN only.
-/

/-- A rounded number that is finite before packing, with its last place at most `2 ^ bound`. -/
def ExponentLE (bound : Int) : UnpackedFloat → Prop
  | .zero _ => True
  | .finite _ _ e _ => e ≤ bound
  | _ => False

theorem isFinite_unpack_iff (b : BitVec Format.binary64.numBits) :
    (UnpackedFloat.unpack Format.binary64 b).isFinite = true ↔ unpackExponent b ≠ -1#_ := by
  unfold UnpackedFloat.unpack
  by_cases hmax : unpackExponent b = -1#_
  · simp only [if_pos hmax]
    by_cases hm : unpackMantissa b = 0#_
    · simp [if_pos hm, hmax, UnpackedFloat.isFinite]
    · simp [if_neg hm, hmax, UnpackedFloat.isFinite]
  · simp only [if_neg hmax]
    by_cases hzero : unpackExponent b = 0#_
    · by_cases hm : unpackMantissa b = 0#_ <;> simp [hzero, hm, UnpackedFloat.isFinite]
    · simp only [if_neg hzero]
      exact ⟨fun _ => hmax, fun _ => rfl⟩

/-- A number whose last place is at most `2 ^ 971` does not overflow. -/
theorem isFinite_pack {x : UnpackedFloat} (h : ExponentLE 971 x) :
    (Float.Model.pack x).isFinite = true := by
  show (UnpackedFloat.unpack Format.binary64
    (UnpackedFloat.pack Format.binary64 x)).isFinite = true
  rw [isFinite_unpack_iff]
  cases x with
  | infinity s => exact h.elim
  | notANumber => exact h.elim
  | zero s =>
      show unpackExponent (packComponents _ _ _ _) ≠ _
      rw [unpackExponent_packComponents]
      decide
  | finite s m e hm =>
      have he : e ≤ 971 := h
      rw [pack_finite, if_neg (by omega), unpackExponent_packComponents]
      exact exponentField_ne he

/-! ### Rounding -/

theorem log2_le_of_le_two_pow {n k : Nat} (h : n ≤ 2 ^ k) : n.log2 ≤ k := by
  by_cases hzero : n = 0
  · rw [hzero, Nat.log2_zero]
    exact Nat.zero_le k
  · refine Nat.le_of_lt_succ ((Nat.log2_lt hzero).2 ?_)
    exact Nat.lt_of_le_of_lt h (Nat.pow_lt_pow_right (by decide) (Nat.lt_succ_self k))

theorem targetExponent_eq (m : Nat) (e : Int) :
    Format.binary64.targetExponent (totalExponent m e)
      = max ((m.log2 : Int) + e - 52) (-1074) := by
  unfold Format.targetExponent totalExponent
  rw [show Format.binary64.minExponent = -1074 by decide,
    show Format.binary64.mantissaBits = 53 by decide]
  omega

theorem mantissa_shiftRight (k : Nat) (em : ExtendedMantissa) :
    (em >>> k).mantissa = em.mantissa / 2 ^ k := by
  induction k with
  | zero => simp [HShiftRight.hShiftRight, Nat.repeat]
  | succ k ih =>
      show (em >>> k).shiftRightOne.mantissa = _
      rw [ExtendedMantissa.shiftRightOne, ih, Nat.div_div_eq_div_mul, Nat.pow_succ]

theorem mantissa_ofMantissaAndAccuracy (m : Nat) (a : Accuracy) :
    (ExtendedMantissa.ofMantissaAndAccuracy m a).mantissa = m := by
  rcases a with _ | o
  · rfl
  · cases o <;> rfl

theorem roundedMantissa_le (em : ExtendedMantissa) : em.roundedMantissa ≤ em.mantissa + 1 := by
  unfold ExtendedMantissa.roundedMantissa
  rcases em.accuracy with _ | o
  · exact Nat.le_succ _
  · cases o <;> simp only [Accuracy.roundToNearestEven] <;> omega

/-- Rounding to the nearest moves the leading bit up by one place at most. -/
theorem log2_roundedMantissa_le {m : Nat} {e bound : Int} (a : Accuracy)
    (hm : (m.log2 : Int) + e ≤ bound) (hb : 0 ≤ bound) :
    let k := (Format.binary64.targetExponent (totalExponent m e) - e).toNat
    ((ExtendedMantissa.ofMantissaAndAccuracy m a >>> k).roundedMantissa.log2 : Int) + (e + k)
      ≤ bound + 1 := by
  intro k
  have hk : k = (max ((m.log2 : Int) + e - 52) (-1074) - e).toNat := by
    rw [← targetExponent_eq]
  have hle := roundedMantissa_le (ExtendedMantissa.ofMantissaAndAccuracy m a >>> k)
  rw [mantissa_shiftRight, mantissa_ofMantissaAndAccuracy] at hle
  have hlt : m < 2 ^ (m.log2 + 1) := Nat.lt_log2_self
  by_cases hs : k ≤ m.log2
  · have hq : m / 2 ^ k < 2 ^ (m.log2 + 1 - k) := by
      rw [Nat.div_lt_iff_lt_mul (Nat.two_pow_pos _), ← Nat.pow_add,
        Nat.sub_add_cancel (by omega)]
      exact hlt
    have := log2_le_of_le_two_pow (Nat.le_trans hle hq)
    omega
  · -- nothing but the rounding unit is left of the significand
    have hq : m / 2 ^ k = 0 :=
      Nat.div_eq_of_lt (Nat.lt_of_lt_of_le hlt (Nat.pow_le_pow_right (by decide) (by omega)))
    rw [hq] at hle
    have := log2_le_of_le_two_pow (k := 0) hle
    omega

/-- Rounding does not move the last place above a bound on the leading one. -/
theorem exponentLE_roundWithAccuracy {m : Nat} {e bound : Int} (s : Sign) (a : Accuracy)
    (he : e ≤ bound) (hm : (m.log2 : Int) + e ≤ bound) (hb : 0 ≤ bound) :
    ExponentLE bound (roundWithAccuracy Format.binary64 s m e a) := by
  have hround := log2_roundedMantissa_le a hm hb
  unfold roundWithAccuracy shiftToTargetExponent shiftToExponent
  simp only
  split
  · trivial
  · simp only [ExponentLE, targetExponent_eq] at hround ⊢
    omega

/-- A significand that fills its 53 bits is not changed by rounding. -/
theorem roundWithAccuracy_exact {m : Nat} {e : Int} (s : Sign) (hpos : 0 < m)
    (hm : m.log2 = 52) (he : -1074 ≤ e) :
    roundWithAccuracy Format.binary64 s m e .exact = .finite s m e hpos := by
  have hshift : (Format.binary64.targetExponent (totalExponent m e) - e).toNat = 0 := by
    rw [targetExponent_eq, hm]
    omega
  have hkeep : ExtendedMantissa.ofMantissaAndAccuracy m .exact >>> 0 = ⟨m, false, false⟩ := rfl
  have hround : ExtendedMantissa.roundedMantissa ⟨m, false, false⟩ = m := rfl
  unfold roundWithAccuracy shiftToTargetExponent shiftToExponent
  simp only [hshift, hkeep, hround, Int.natCast_zero, Int.add_zero]
  rw [dif_neg (Nat.ne_of_gt hpos)]

/-! ### Quotients -/

/-- A quotient is no larger than the leading bits of its operands say. -/
theorem exponentLE_div {m₁ m₂ : Nat} {e₁ e₂ bound : Int} (s₁ s₂ : Sign) (h₁ : 0 < m₁)
    (h₂ : 0 < m₂) (hm : (m₁.log2 : Int) + (e₁ - e₂) ≤ bound) (hb : 0 ≤ bound) :
    ExponentLE bound
      (UnpackedFloat.div Format.binary64 (.finite s₁ m₁ e₁ h₁) (.finite s₂ m₂ e₂ h₂)) := by
  unfold UnpackedFloat.div divCore
  simp only
  generalize ht : min (e₁ - e₂) _ = t
  have hshift : (((e₁ - e₂ - t).toNat : Nat) : Int) = e₁ - e₂ - t :=
    Int.toNat_of_nonneg (by omega)
  generalize (e₁ - e₂ - t).toNat = k at *
  have hlt : m₁ <<< k / m₂ < 2 ^ (m₁.log2 + 1 + k) := by
    calc m₁ <<< k / m₂ ≤ m₁ <<< k := Nat.div_le_self ..
      _ = m₁ * 2 ^ k := Nat.shiftLeft_eq ..
      _ < 2 ^ (m₁.log2 + 1) * 2 ^ k :=
        Nat.mul_lt_mul_of_pos_right Nat.lt_log2_self (Nat.two_pow_pos k)
      _ = 2 ^ (m₁.log2 + 1 + k) := (Nat.pow_add ..).symm
  have hquot : (m₁ <<< k / m₂).log2 ≤ m₁.log2 + k := by
    by_cases hzero : m₁ <<< k / m₂ = 0
    · rw [hzero, Nat.log2_zero]
      exact Nat.zero_le _
    · have := (Nat.log2_lt hzero).2 hlt
      omega
  exact exponentLE_roundWithAccuracy _ _ (by omega) (by omega) hb

theorem log2_shiftLeft {n : Nat} (hpos : 0 < n) (k : Nat) : (n <<< k).log2 = n.log2 + k := by
  have hne : n <<< k ≠ 0 := Nat.ne_of_gt (Nat.shiftLeft_pos_iff.2 hpos)
  rw [Nat.log2_eq_iff hne, Nat.shiftLeft_eq]
  constructor
  · rw [Nat.pow_add]
    exact Nat.mul_le_mul_right _ (Nat.log2_self_le (Nat.ne_of_gt hpos))
  · rw [Nat.add_right_comm, Nat.pow_add]
    exact Nat.mul_lt_mul_of_pos_right Nat.lt_log2_self (Nat.two_pow_pos k)

/-- A whole number of up to 53 bits is exact, and its leading bit is moved to the front. -/
theorem unpack_pack_normalize {n : Nat} (hpos : 0 < n) (hlog : n.log2 ≤ 52) (zero : Sign) :
    ∃ h, (Float.Model.pack (UnpackedFloat.normalize Format.binary64 n 0 zero)).unpack
      = .finite .positive (n <<< (52 - n.log2)) ((n.log2 : Int) - 52) h := by
  have hwide : (n <<< (52 - n.log2)).log2 = 52 := by
    rw [log2_shiftLeft hpos]
    omega
  have hwpos : 0 < n <<< (52 - n.log2) := Nat.shiftLeft_pos_iff.2 hpos
  have hround : UnpackedFloat.normalize Format.binary64 n 0 zero
      = .finite .positive (n <<< (52 - n.log2)) ((n.log2 : Int) - 52) hwpos := by
    unfold UnpackedFloat.normalize
    rw [Int.compare_eq_gt.2 (by omega)]
    show UnpackedFloat.round Format.binary64 .positive n 0 = _
    have htarget : Format.binary64.targetExponent (totalExponent n 0) = (n.log2 : Int) - 52 := by
      rw [targetExponent_eq]
      omega
    have hshift : (0 - ((n.log2 : Int) - 52)).toNat = 52 - n.log2 := by omega
    have hexp : (0 : Int) - (52 - n.log2 : Nat) = (n.log2 : Int) - 52 := by omega
    unfold UnpackedFloat.round UnpackedFloat.decreaseExponent
    simp only [htarget, hshift, hexp]
    exact roundWithAccuracy_exact _ hwpos hwide (by omega)
  obtain ⟨hlo, hhi⟩ := (Nat.log2_eq_iff (Nat.ne_of_gt hwpos)).1 hwide
  have hcanonical : Canonical (.finite .positive _ ((n.log2 : Int) - 52) hwpos) :=
    ⟨hhi, by omega, .inr hlo⟩
  rw [hround]
  exact ⟨hwpos, unpack_pack_of_canonical hcanonical
    (isFinite_pack (show (n.log2 : Int) - 52 ≤ 971 by omega))⟩

/-- A 32-bit number that is not zero is exact, so its last place is `2 ^ -52` at least. -/
theorem unpack_toFloat {n : UInt32} (h : n ≠ 0) :
    ∃ (s : Sign) (m : Nat) (e : Int) (hm : 0 < m),
      n.toFloat.toModel.unpack = .finite s m e hm ∧ -52 ≤ e := by
  have hpos : 0 < n.toNat := by
    rcases Nat.eq_zero_or_pos n.toNat with hz | hp
    · exact absurd (UInt32.toNat_inj.1 hz) h
    · exact hp
  have hlog : n.toNat.log2 < 32 := (Nat.log2_lt (Nat.ne_of_gt hpos)).2 n.toNat_lt
  obtain ⟨hm, hunpack⟩ := unpack_pack_normalize hpos (by omega) .positive
  exact ⟨.positive, _, _, hm, hunpack, by omega⟩

/-- **The seconds to a beat are finite for every tempo but zero.** -/
theorem isFinite_sixty_div {n : UInt32} (h : n ≠ 0) : (60 / n.toFloat).isFinite = true := by
  obtain ⟨s, m, e, hm, hn, he⟩ := unpack_toFloat h
  have hsixty : (60 : Float).toModel.unpack
      = .finite .positive (60 <<< 47) (-47) (by decide) := rfl
  show (Float.Model.pack (UnpackedFloat.div Format.binary64
    (60 : Float).toModel.unpack n.toFloat.toModel.unpack)).isFinite = true
  rw [hsixty, hn]
  refine isFinite_pack (exponentLE_div _ _ _ _ ?_ (by decide))
  rw [show (60 <<< 47).log2 = 52 by decide]
  omega

end NumberedScore.Binary64
