/-
Powers of two with a negative exponent.

They are reciprocals of whole powers.  A whole power is a word with nothing but its
exponent field, up to `2 ^ 1023`, and its reciprocal is exact, also where it is subnormal:
one bit is left, and it always fits.  From `2 ^ 1024` on the power is infinite and the
reciprocal is zero.  Either way it is an amount, and not larger than two.
-/
import NumberedScore.Binary64.Power
import NumberedScore.Proofs.Binary64.Nearest

namespace NumberedScore.Binary64

open Float.Model (Format UnpackedFloat totalExponent)
open Float.Model.UnpackedFloat (ExtendedMantissa Sign divCore roundWithAccuracy
  shiftToTargetExponent)

/-! ### Whole powers -/

/-- Up to `2 ^ 1023` a power is its leading bit and nothing else. -/
theorem unpack_nearest_one {k : Nat} (hk : k ≤ 1023) :
    (nearest 1 k).toModel.unpack = .finite .positive (2 ^ 52) (k - 52) (by decide) := by
  have hlog : Nat.log2 1 = 0 := by decide
  have hplace : lastPlace 1 k = k + 1022 := by
    unfold lastPlace
    omega
  have hsignificand : significandAt 1 k = 2 ^ 52 := by
    have hleft : ((k : Int) + 1074 - (k + 1022 : Nat)).toNat = 52 := by omega
    have hright : (((k + 1022 : Nat) : Int) - 1074 - k).toNat = 0 := by omega
    rw [significandAt, hplace, hleft, hright]
    rfl
  have hexp : ((k + 1022 : Nat) : Int) - 1074 = k - 52 := by omega
  rw [nearest_eq_word Nat.one_pos (by omega), hplace, hsignificand]
  simpa only [hexp] using unpack_word (show k + 1022 ≤ 2045 by omega) (le_refl (2 ^ 52)) (by decide)

theorem nearest_one_of_lt {k : Nat} (hk : 1023 < k) : nearest 1 k = infinity := by
  have hlog : Nat.log2 1 = 0 := by decide
  exact nearest_of_lt Nat.one_pos (by omega)

/-! ### Reciprocals -/

/-- A significand that fits is kept exactly. -/
theorem roundWithAccuracy_fits (s : Sign) {m : Nat} {e : Int} (hpos : 0 < m) (hle : m ≤ 2 ^ 53)
    (he : -1074 ≤ e) (hfull : e = -1074 ∨ 2 ^ 52 ≤ m) :
    ∃ m' e' h, roundWithAccuracy Format.binary64 s m e .exact = .finite s m' e' h ∧
      Canonical (.finite s m' e' h) ∧ m' * 2 ^ (e' + 1074).toNat = m * 2 ^ (e + 1074).toNat := by
  obtain ⟨m₁, e₁, hfirst, hpos₁, ⟨hlt₁, hlo₁, hfull₁⟩, hsame₁⟩ := carry hpos hle he hfull
  obtain ⟨m₂, e₂, hsecond, hpos₂, hcanonical, hsame₂⟩ := carry hpos₁ hlt₁.le hlo₁ hfull₁
  have hkeep : ExtendedMantissa.roundedMantissa ⟨m₁, false, false⟩ = m₁ := rfl
  refine ⟨m₂, e₂, hpos₂, ?_, hcanonical, hsame₂.trans hsame₁⟩
  unfold roundWithAccuracy
  simp only [hfirst, hkeep, hsecond]
  exact dif_neg (Nat.ne_of_gt hpos₂)

/-- The reciprocal of a power of two is the power exactly, subnormal ones included. -/
theorem unpack_one_div {k : Nat} (hk : k ≤ 1023) :
    ∃ m e h, (1 / nearest 1 k).toModel.unpack = .finite .positive m e h ∧
      m * 2 ^ (e + 1074).toNat = 2 ^ (1074 - k) := by
  obtain ⟨t, ht⟩ : ∃ t : Int, t = max (-(k : Int) - 53) (-1074) := ⟨_, rfl⟩
  obtain ⟨j, hj⟩ : ∃ j, j = (-(k : Int) - t).toNat := ⟨_, rfl⟩
  have hdiv : UnpackedFloat.div Format.binary64 (.finite .positive (2 ^ 52) (-52) (by decide))
      (.finite .positive (2 ^ 52) (k - 52) (by decide))
      = roundWithAccuracy Format.binary64 .positive (2 ^ j) t .exact := by
    have htarget : Format.binary64.targetExponent
        (totalExponent (2 ^ 52) (-52) - totalExponent (2 ^ 52) (k - 52))
        = max (-(k : Int) - 53) (-1074) := by
      unfold Format.targetExponent totalExponent
      rw [show Format.binary64.minExponent = -1074 by decide,
        show Format.binary64.mantissaBits = 53 by decide]
      omega
    have hexp : (-52 : Int) - (k - 52) = -k := by omega
    have hlow : min (-(k : Int)) t = t := by omega
    have hquot : (2 ^ 52) <<< j / 2 ^ 52 = 2 ^ j := by
      rw [Nat.shiftLeft_eq, Nat.mul_div_cancel_left _ (by decide)]
    have hrest : (2 ^ 52) <<< j % 2 ^ 52 = 0 := by
      rw [Nat.shiftLeft_eq, Nat.mul_mod_right]
    have hcore : divCore Format.binary64 (2 ^ 52) (-52) (2 ^ 52) (k - 52)
        = (2 ^ j, t, .exact) := by
      unfold divCore
      simp only [htarget, hexp, ← ht, hlow, ← hj, hquot, hrest]
      rfl
    show roundWithAccuracy _ _ (divCore _ _ _ _ _).1 (divCore _ _ _ _ _).2.1
      (divCore _ _ _ _ _).2.2 = _
    rw [hcore]
    rfl
  have hle : 2 ^ j ≤ 2 ^ 53 := Nat.pow_le_pow_right (by decide) (by omega)
  have hfull : t = -1074 ∨ 2 ^ 52 ≤ 2 ^ j := by
    by_cases hlow : t = -1074
    · exact .inl hlow
    · exact .inr (Nat.pow_le_pow_right (by decide) (by omega))
  obtain ⟨m, e, h, hround, hcanonical, hsame⟩ :=
    roundWithAccuracy_fits .positive (Nat.two_pow_pos j) hle (by omega) hfull
  have hweight : m * 2 ^ (e + 1074).toNat = 2 ^ (1074 - k) := by
    rw [hsame, ← Nat.pow_add]
    congr 1
    omega
  have hexp : (e + 1074).toNat ≤ 1074 - k := by
    refine (Nat.pow_le_pow_iff_right (by decide : 1 < 2)).1 ?_
    exact hweight ▸ Nat.le_mul_of_pos_left _ h
  refine ⟨m, e, h, ?_, hweight⟩
  have hone : (1 : Float).toModel.unpack = .finite .positive (2 ^ 52) (-52) (by decide) := rfl
  show (Float.Model.pack (UnpackedFloat.div Format.binary64 (1 : Float).toModel.unpack
    (nearest 1 k).toModel.unpack)).unpack = _
  rw [hone, unpack_nearest_one hk, hdiv, hround]
  exact unpack_pack_of_canonical hcanonical (isFinite_pack (show e ≤ 971 by omega))

/-- A power of two with a negative exponent is an amount up to one; far out it is zero. -/
theorem powerOfTwo_neg (k : Nat) : Amount (powerOfTwo (-k)) ∧ powerOfTwo (-k) ≤ 2 := by
  have htwo : Amount 2 := ⟨rfl, rfl⟩
  rcases Nat.eq_zero_or_pos k with rfl | hpos
  · have hone : powerOfTwo (-(0 : Nat)) = 1 := by decide +kernel
    rw [hone]
    exact ⟨⟨rfl, rfl⟩, by decide⟩
  · have hreciprocal : powerOfTwo (-k) = 1 / nearest 1 k := by
      rw [powerOfTwo, if_pos (by omega), Int.neg_neg]
    rw [hreciprocal]
    rcases Nat.lt_or_ge 1023 k with hfar | hnear
    · have hzero : 1 / infinity = 0 := by decide +kernel
      rw [nearest_one_of_lt hfar, hzero]
      exact ⟨.zero, htwo.zero_le⟩
    · obtain ⟨m, e, h, hunpack, hweight⟩ := unpack_one_div hnear
      have hamount : Amount (1 / nearest 1 k) :=
        ⟨congrArg signOf hunpack, congrArg UnpackedFloat.isNaN hunpack⟩
      refine ⟨hamount, (hamount.le_iff htwo).2 ?_⟩
      have hunpack₂ : (2 : Float).toModel.unpack
          = .finite .positive (2 ^ 52) (-51) (by decide) := rfl
      rw [hunpack, hunpack₂]
      refine ENat.natCast_le_natCast.2 ?_
      rw [hweight, ← Nat.pow_add]
      exact Nat.pow_le_pow_right (by decide) (Nat.le_trans (Nat.sub_le _ _) (by decide))

end NumberedScore.Binary64
