/-
Powers of two keep the order.

The roots behind a power with a fractional exponent are rounded down one after the other.
Each of them keeps the order, so the larger fraction has the larger power
(`fractionPower_le`), whatever the errors are.  A fraction may be written with more places
than it has (`exp2Ratio_mul_two_pow`), and the power of a fraction is from one to two, so that the
whole part of the exponent decides first.  With the order of `nearest` this makes one
statement: a larger exponent never has the smaller power (`weight_exp2Ratio_le`).

`exp2` itself reads the exponent off a binary64 number, unless it is out of range anyway.
-/
import NumberedScore.Binary64.Power
import NumberedScore.Proofs.Binary64.Nearest

namespace NumberedScore.Binary64

open Float.Model (Format UnpackedFloat)
open Float.Model.UnpackedFloat (Sign unpackExponent unpackMantissa unpackSign)

/-! ### Fractions -/

/-- The power of a fraction is from one to two. -/
theorem fractionPower_mem (bits : List Bool) :
    2 ^ workingBits ≤ fractionPower bits ∧ fractionPower bits < 2 ^ (workingBits + 1) := by
  induction bits with
  | nil => exact ⟨by decide, by decide⟩
  | cons bit rest ih =>
      obtain ⟨hlo, hhi⟩ := ih
      rw [fractionPower, Nat.le_sqrt, Nat.sqrt_lt, Nat.shiftLeft_eq]
      constructor
      · exact Nat.mul_le_mul hlo (Nat.pow_le_pow_right (by decide) (Nat.le_add_right ..))
      · refine Nat.mul_lt_mul_of_lt_of_le hhi (Nat.pow_le_pow_right (by decide) ?_)
          (Nat.two_pow_pos _)
        exact Nat.add_le_add_left bit.toNat_le _

theorem fractionPower_false {rest : List Bool} (h : fractionPower rest = 2 ^ workingBits) :
    fractionPower (false :: rest) = 2 ^ workingBits := by
  rw [fractionPower, h, Nat.shiftLeft_eq]
  exact Nat.sqrt_eq _

/-- Zeros behind the last digit count nothing. -/
theorem fractionPower_digitsBelow_mul (k n j : Nat) :
    fractionPower (digitsBelow (k + j) (n * 2 ^ j)) = fractionPower (digitsBelow k n) := by
  induction k with
  | zero =>
      have hzeros : ∀ i ≤ j, fractionPower (digitsBelow i (n * 2 ^ j)) = 2 ^ workingBits := by
        intro i hi
        induction i with
        | zero => rfl
        | succ i ih =>
            have hbit : (n * 2 ^ j).testBit i = false := by
              rw [Nat.testBit_mul_two_pow]
              simp
              omega
            rw [digitsBelow, hbit]
            exact fractionPower_false (ih (by omega))
      rw [Nat.zero_add]
      exact hzeros j le_rfl
  | succ k ih =>
      have hbit : (n * 2 ^ j).testBit (k + j) = n.testBit k := by
        rw [Nat.testBit_mul_two_pow]
        simp
      rw [Nat.add_right_comm, digitsBelow, digitsBelow, fractionPower, fractionPower, hbit, ih]

/-- The larger fraction has the larger power: the first digit that differs decides. -/
theorem fractionPower_le {k n n' : Nat} (h : n % 2 ^ k ≤ n' % 2 ^ k) :
    fractionPower (digitsBelow k n) ≤ fractionPower (digitsBelow k n') := by
  induction k with
  | zero => exact le_rfl
  | succ k ih =>
      rw [Nat.mod_pow_succ, Nat.mod_pow_succ, ← Nat.toNat_testBit, ← Nat.toNat_testBit] at h
      have hlt := Nat.mod_lt n (Nat.two_pow_pos k)
      have hlt' := Nat.mod_lt n' (Nat.two_pow_pos k)
      rw [digitsBelow, digitsBelow, fractionPower, fractionPower, Nat.shiftLeft_eq,
        Nat.shiftLeft_eq]
      refine Nat.sqrt_le_sqrt ?_
      cases hbit : n.testBit k <;> cases hbit' : n'.testBit k <;>
        simp only [hbit, hbit', Bool.toNat_false, Bool.toNat_true, Nat.mul_zero, Nat.mul_one] at h ⊢
      case false.true =>
        calc fractionPower (digitsBelow k n) * 2 ^ (workingBits + 0)
            ≤ 2 ^ (workingBits + 1) * 2 ^ workingBits :=
              Nat.mul_le_mul_right _ (fractionPower_mem _).2.le
          _ = 2 ^ workingBits * 2 ^ (workingBits + 1) := Nat.mul_comm ..
          _ ≤ fractionPower (digitsBelow k n') * 2 ^ (workingBits + 1) :=
              Nat.mul_le_mul_right _ (fractionPower_mem _).1
      case true.false => omega
      all_goals exact Nat.mul_le_mul_right _ (ih (by omega))

/-! ### Exponents -/

theorem toNat_emod_lt (c : Int) (p : Nat) : (c % 2 ^ p).toNat < 2 ^ p := by
  have hlt := Int.emod_lt_of_pos c (Int.pow_pos (by decide) : (0 : Int) < 2 ^ p)
  have hcast : (2 : Int) ^ p = (2 ^ p : Nat) := by rw [Nat.cast_pow]; rfl
  have := Nat.two_pow_pos p
  omega

/-- The power for an exponent with its fraction over `2 ^ places` set apart. -/
theorem exp2Ratio_eq (c : Int) (places : Nat) : exp2Ratio c places
    = nearest (fractionPower (digitsBelow places (c % 2 ^ places).toNat))
      (c / 2 ^ places - workingBits) := by
  have hden : ((1 <<< places : Nat) : Int) = 2 ^ places := by
    rw [Nat.one_shiftLeft, Nat.cast_pow]
    rfl
  rw [exp2Ratio]
  simp only [hden]

/-- An exponent may be written with more places. -/
theorem exp2Ratio_mul_two_pow (c : Int) (p j : Nat) :
    exp2Ratio (c * 2 ^ j) (p + j) = exp2Ratio c p := by
  have hpos : (0 : Int) < 2 ^ j := Int.pow_pos (by decide)
  have hrest : c * 2 ^ j % (2 ^ p * 2 ^ j) = c % 2 ^ p * 2 ^ j := by
    rw [Int.mul_comm c, Int.mul_comm (2 ^ p), Int.mul_emod_mul_of_pos _ _ hpos, Int.mul_comm]
  have hnat : (c % 2 ^ p * 2 ^ j).toNat = (c % 2 ^ p).toNat * 2 ^ j := by
    rw [Int.toNat_mul (Int.emod_nonneg c (Int.pow_ne_zero (by decide))) hpos.le,
      Int.toNat_pow_of_nonneg (by decide)]
    rfl
  rw [exp2Ratio_eq, exp2Ratio_eq, pow_add, Int.mul_ediv_mul_of_pos_left _ _ hpos, hrest, hnat,
    fractionPower_digitsBelow_mul]

theorem amount_exp2Ratio (c : Int) (p : Nat) : Amount (exp2Ratio c p) := by
  rw [exp2Ratio_eq]
  exact (weight_nearest (Nat.lt_of_lt_of_le (Nat.two_pow_pos _) (fractionPower_mem _).1)).1

theorem weight_exp2Ratio_le_of_le {c c' : Int} (h : c ≤ c') (p : Nat) :
    weight (exp2Ratio c p).toModel.unpack ≤ weight (exp2Ratio c' p).toModel.unpack := by
  have hden : (0 : Int) < 2 ^ p := Int.pow_pos (by decide)
  obtain ⟨hlo, hhi⟩ := fractionPower_mem (digitsBelow p (c % 2 ^ p).toNat)
  obtain ⟨hlo', hhi'⟩ := fractionPower_mem (digitsBelow p (c' % 2 ^ p).toNat)
  have hpos := Nat.two_pow_pos workingBits
  rw [exp2Ratio_eq, exp2Ratio_eq]
  refine weight_nearest_le (by omega) (by omega) ?_
  rcases Int.lt_or_eq_of_le (Int.ediv_le_ediv hden h) with hlt | heq
  · -- the whole part decides
    obtain ⟨d, hd⟩ : ∃ d, (c' / 2 ^ p - workingBits - (c / 2 ^ p - workingBits)).toNat = d + 1 :=
      Nat.exists_eq_succ_of_ne_zero (by omega)
    have hzero : (c / 2 ^ p - workingBits - (c' / 2 ^ p - workingBits)).toNat = 0 := by omega
    rw [hd, hzero, pow_zero, Nat.mul_one]
    calc fractionPower _ ≤ 2 ^ (workingBits + 1) := hhi.le
      _ = 2 ^ workingBits * 2 ^ 1 := Nat.pow_add ..
      _ ≤ fractionPower _ * 2 ^ (d + 1) :=
          Nat.mul_le_mul hlo' (Nat.pow_le_pow_right (by decide) (Nat.le_add_left ..))
  · rw [heq, Int.sub_self, Int.toNat_zero, pow_zero, Nat.mul_one, Nat.mul_one]
    refine fractionPower_le ?_
    have hsplit := Int.emod_add_mul_ediv c (2 ^ p)
    have hsplit' := Int.emod_add_mul_ediv c' (2 ^ p)
    rw [heq] at hsplit
    rw [Nat.mod_eq_of_lt (toNat_emod_lt c p), Nat.mod_eq_of_lt (toNat_emod_lt c' p)]
    omega

/-- **A larger exponent never has the smaller power of two.** -/
theorem weight_exp2Ratio_le {c c' : Int} {p p' : Nat} (h : c * 2 ^ p' ≤ c' * 2 ^ p) :
    weight (exp2Ratio c p).toModel.unpack ≤ weight (exp2Ratio c' p').toModel.unpack := by
  rw [← exp2Ratio_mul_two_pow c p p', ← exp2Ratio_mul_two_pow c' p' p, Nat.add_comm p' p]
  exact weight_exp2Ratio_le_of_le h (p + p')

/-! ### Exponents read off a number -/

/-! The fields of a word, by arithmetic and as `unpack` takes them. -/

theorem toNat_unpackExponent (bits : UInt64) :
    (@unpackExponent Format.binary64 bits.toBitVec).toNat
      = ((bits >>> 52) &&& 0x7FF).toNat := by
  rw [UInt64.toNat_and, UInt64.toNat_shiftRight]
  exact (Nat.and_two_pow_sub_one_eq_mod _ 11).symm

theorem toNat_unpackMantissa (bits : UInt64) :
    (@unpackMantissa Format.binary64 bits.toBitVec).toNat
      = (bits &&& 0xFFFFFFFFFFFFF).toNat := by
  rw [UInt64.toNat_and]
  exact (Nat.and_two_pow_sub_one_eq_mod _ 52).symm

theorem ofBitVec_unpackSign (bits : UInt64) :
    (Sign.ofBitVec (@unpackSign Format.binary64 bits.toBitVec) == .negative)
      = (bits >>> 63 != 0) := by
  have hbit : (@unpackSign Format.binary64 bits.toBitVec).toNat = (bits >>> 63).toNat := by
    have hlt : bits.toNat >>> 63 < 2 ^ 1 := by
      rw [Nat.shiftRight_eq_div_pow]
      have := bits.toNat_lt
      omega
    rw [UInt64.toNat_shiftRight]
    exact Nat.mod_eq_of_lt hlt
  by_cases hzero : bits >>> 63 = 0
  · have hsign : @unpackSign Format.binary64 bits.toBitVec = 0#1 :=
      BitVec.eq_of_toNat_eq (by rw [hbit, hzero]; rfl)
    rw [hsign, hzero]
    rfl
  · have hsign : @unpackSign Format.binary64 bits.toBitVec ≠ 0#1 := by
      intro hsign
      rw [hsign] at hbit
      exact hzero (UInt64.toNat_inj.1 hbit.symm)
    rw [Sign.ofBitVec, if_neg hsign, bne, beq_eq_false_iff_ne.2 hzero]
    rfl

/-- The value of a finite number has its sign, significand and exponent. -/
theorem ofFloat_of_unpack {x : Float} {s : Sign} {m : Nat} {e : Int} {hm : 0 < m}
    (h : x.toModel.unpack = .finite s m e hm) : Value.ofFloat x = ⟨s == .negative, m, e⟩ := by
  have hunpack : UnpackedFloat.unpack Format.binary64 x.toBits.toBitVec = .finite s m e hm := h
  have hbias : Format.binary64.exponentBias = 1023 := by decide
  unfold Value.ofFloat
  simp only [← toNat_unpackExponent, ← toNat_unpackMantissa, ← ofBitVec_unpackSign]
  unfold UnpackedFloat.unpack at hunpack
  simp only [hbias] at hunpack
  split at hunpack
  · split at hunpack <;> cases hunpack
  · split at hunpack
    · next hzero =>
        split at hunpack
        · cases hunpack
        · cases hunpack
          rw [hzero]
          rfl
    · next hne =>
        cases hunpack
        have hfield : (@unpackExponent Format.binary64 x.toBits.toBitVec).toNat ≠ 0 :=
          fun hzero => hne (BitVec.eq_of_toNat_eq hzero)
        rw [if_neg hfield, toNat_one_append]
        rfl

/-! ### Exponents out of range -/

section

variable {x : Float} {s : Sign} {m : Nat} {e : Int} {hm : 0 < m}

/-- A full significand is compared with a leading bit alone by the exponents. -/
theorem two_pow_compare {e₀ : Int} (hfull : 2 ^ 52 ≤ m) :
    ((compare e₀ e).then (compare (2 ^ 52) m)).isLE = true ↔ e₀ ≤ e := by
  rcases Int.lt_trichotomy e₀ e with hlt | rfl | hgt
  · rw [Int.compare_eq_lt.2 hlt]
    exact iff_of_true rfl hlt.le
  · rw [Int.compare_eq_eq.2 rfl, Ordering.eq_then, Nat.isLE_compare]
    exact iff_of_true hfull le_rfl
  · rw [Int.compare_eq_gt.2 hgt]
    exact iff_of_false Bool.false_ne_true hgt.not_ge

theorem le_iff_of_unpack {x y : Float} {u v : UnpackedFloat} (hx : x.toModel.unpack = u)
    (hy : y.toModel.unpack = v) : x ≤ y ↔ u.le v = true := by
  rw [← hx, ← hy]
  exact ⟨of_decide_eq_true, decide_eq_true⟩

theorem le_two_pow_iff (h : x.toModel.unpack = .finite s m e hm) (hfull : 2 ^ 52 ≤ m) :
    2048 ≤ x ↔ s = .positive ∧ -41 ≤ e := by
  have htwo : (2048 : Float).toModel.unpack
      = .finite .positive (2 ^ 52) (-41) (by decide) := rfl
  rw [le_iff_of_unpack htwo h]
  cases s with
  | negative => exact iff_of_false Bool.false_ne_true fun hs => nomatch hs.1
  | positive => exact (two_pow_compare hfull).trans (and_iff_right rfl).symm

theorem le_neg_two_pow_iff (h : x.toModel.unpack = .finite s m e hm) (hfull : 2 ^ 52 ≤ m) :
    x ≤ -2048 ↔ s = .negative ∧ -41 ≤ e := by
  have htwo : (-2048 : Float).toModel.unpack
      = .finite .negative (2 ^ 52) (-41) (by decide) := rfl
  rw [le_iff_of_unpack h htwo]
  cases s with
  | negative =>
      refine Iff.trans ?_ ((two_pow_compare hfull).trans (and_iff_right rfl).symm)
      show ((compare e (-41)).then (compare m (2 ^ 52))).swap.isLE = true ↔ _
      rw [Ordering.swap_then, Int.compare_swap, Nat.compare_swap]
  | positive => exact iff_of_false Bool.false_ne_true fun hs => nomatch hs.1

theorem isNaN_of_unpack (h : x.toModel.unpack = .finite s m e hm) : x.isNaN = false :=
  congrArg UnpackedFloat.isNaN h

/-- An exponent between the bounds is taken apart. -/
theorem exp2_eq_exp2Ratio (h : x.toModel.unpack = .finite s m e hm) (hfull : 2 ^ 52 ≤ m)
    (hlo : -106 ≤ e) (hhi : e < -41) : exp2 x = exp2Ratio (s.apply m) (-e).toNat := by
  have hcanonical : Canonical x.toModel.unpack := canonical_unpack _
  rw [h] at hcanonical
  have hlog : m.log2 = 52 := (Nat.log2_eq_iff (Nat.ne_of_gt hm)).2 ⟨hfull, hcanonical.1⟩
  have hsign : (Value.mk (s == .negative) m e).toInt = s.apply m := by cases s <;> rfl
  have hhigh : ¬ 2048 ≤ x := fun hle => by
    have := ((le_two_pow_iff h hfull).1 hle).2
    omega
  have hlow : ¬ x ≤ -2048 := fun hle => by
    have := ((le_neg_two_pow_iff h hfull).1 hle).2
    omega
  have hnear : ¬ ((m.log2 : Int) + e < -54) := by omega
  unfold exp2
  rw [isNaN_of_unpack h, if_neg Bool.false_ne_true, if_neg hhigh, if_neg hlow]
  simp only [ofFloat_of_unpack h, if_neg hnear, if_neg (show ¬ 0 ≤ e by omega), hsign]

/-- An exponent out of the bounds is out of range. -/
theorem exp2_eq_infinity (h : x.toModel.unpack = .finite .positive m e hm)
    (hfull : 2 ^ 52 ≤ m) (he : -41 ≤ e) : exp2 x = infinity := by
  unfold exp2
  rw [isNaN_of_unpack h, if_neg Bool.false_ne_true, if_pos ((le_two_pow_iff h hfull).2 ⟨rfl, he⟩)]

theorem exp2_eq_zero (h : x.toModel.unpack = .finite .negative m e hm) (hfull : 2 ^ 52 ≤ m)
    (he : -41 ≤ e) : exp2 x = 0 := by
  have hhigh : ¬ 2048 ≤ x := fun hle => nomatch ((le_two_pow_iff h hfull).1 hle).1
  unfold exp2
  rw [isNaN_of_unpack h, if_neg Bool.false_ne_true, if_neg hhigh,
    if_pos ((le_neg_two_pow_iff h hfull).2 ⟨rfl, he⟩)]

theorem amount_exp2 (h : x.toModel.unpack = .finite s m e hm) (hfull : 2 ^ 52 ≤ m)
    (hlo : -106 ≤ e) : Amount (exp2 x) := by
  by_cases he : e < -41
  · rw [exp2_eq_exp2Ratio h hfull hlo he]
    exact amount_exp2Ratio ..
  · cases s with
    | positive =>
        rw [exp2_eq_infinity h hfull (by omega)]
        exact ⟨rfl, rfl⟩
    | negative =>
        rw [exp2_eq_zero h hfull (by omega)]
        exact .zero

/-- Beyond 2048 either way every power is out of range. -/
theorem exp2Ratio_out_of_range : exp2Ratio (-2048) 0 = 0 ∧ exp2Ratio 2048 0 = infinity := by
  decide +kernel

/-- The significand is that of a number beyond 2048, and `c / 2 ^ p` is not below it. -/
theorem mul_two_pow_le_of_le {k p : Nat} {c : Int} (hfull : 2 ^ 52 ≤ m) (hk : k ≤ 41)
    (h : m * 2 ^ p ≤ c * 2 ^ k) : 2048 * 2 ^ p ≤ c := by
  have hpow : (2 ^ 52 : Int) ≤ m := by exact_mod_cast hfull
  have hpos : 0 < c := by
    refine (mul_pos_iff_of_pos_right (pow_pos two_pos k)).1 (lt_of_lt_of_le ?_ h)
    exact mul_pos (by omega) (pow_pos two_pos p)
  refine le_of_mul_le_mul_right ?_ (pow_pos two_pos 41)
  calc (2048 * 2 ^ p * 2 ^ 41 : Int) = 2 ^ 52 * 2 ^ p := by ring
    _ ≤ m * 2 ^ p := mul_le_mul_of_nonneg_right hpow (pow_pos two_pos p).le
    _ ≤ c * 2 ^ k := h
    _ ≤ c * 2 ^ 41 := mul_le_mul_of_nonneg_left (pow_le_pow_right₀ one_le_two hk) hpos.le

/-- **Powers of two are in the order of their exponents.** -/
theorem le_exp2 (h : x.toModel.unpack = .finite s m e hm) (hfull : 2 ^ 52 ≤ m) (hlo : -106 ≤ e)
    (hhi : e ≤ 0) {c : Int} {p : Nat} (hle : c * 2 ^ (-e).toNat ≤ s.apply m * 2 ^ p) :
    weight (exp2Ratio c p).toModel.unpack ≤ weight (exp2 x).toModel.unpack := by
  by_cases he : e < -41
  · rw [exp2_eq_exp2Ratio h hfull hlo he]
    exact weight_exp2Ratio_le hle
  · cases s with
    | positive =>
        rw [exp2_eq_infinity h hfull (by omega)]
        exact le_top
    | negative =>
        rw [exp2_eq_zero h hfull (by omega), ← exp2Ratio_out_of_range.1]
        refine weight_exp2Ratio_le ?_
        change c * 2 ^ (-e).toNat ≤ -(m : Int) * 2 ^ p at hle
        have hfar := mul_two_pow_le_of_le (k := (-e).toNat) (p := p) (c := -c) hfull (by omega)
          (by rw [Int.neg_mul]; rw [Int.neg_mul] at hle; omega)
        rw [pow_zero]
        omega

theorem exp2_le (h : x.toModel.unpack = .finite s m e hm) (hfull : 2 ^ 52 ≤ m) (hlo : -106 ≤ e)
    (hhi : e ≤ 0) {c : Int} {p : Nat} (hle : s.apply m * 2 ^ p ≤ c * 2 ^ (-e).toNat) :
    weight (exp2 x).toModel.unpack ≤ weight (exp2Ratio c p).toModel.unpack := by
  by_cases he : e < -41
  · rw [exp2_eq_exp2Ratio h hfull hlo he]
    exact weight_exp2Ratio_le hle
  · cases s with
    | positive =>
        rw [exp2_eq_infinity h hfull (by omega), ← exp2Ratio_out_of_range.2]
        refine weight_exp2Ratio_le ?_
        have hfar := mul_two_pow_le_of_le (k := (-e).toNat) hfull (by omega) hle
        rw [pow_zero]
        omega
    | negative =>
        rw [exp2_eq_zero h hfull (by omega)]
        exact bot_le

end

end NumberedScore.Binary64
