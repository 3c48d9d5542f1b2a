/-
Rounding an exact number to the nearest.

`nearest n e` puts the binary64 word of `n · 2 ^ e` together itself: the exponent field, and
behind it a significand that may carry into that field.  The word means what was put
together (`weight_word`): a significand in units of the last place, carried or not, and
infinity when it is carried out of the largest exponent.

What is needed of `nearest` is that it keeps the order (`weight_nearest_le`).  At one and the
same last place this is a matter of whole quotients.  Otherwise the larger number has a full
significand and a larger last place, which outweighs any other significand.
-/
import NumberedScore.Binary64.Value
import NumberedScore.Proofs.Binary64.Faithful

namespace NumberedScore.Binary64

open Float.Model (Format UnpackedFloat)
open Float.Model.UnpackedFloat (Sign packComponents)

/-! ### Quotients rounded to whole numbers -/

/-- A quotient halfway between two whole numbers goes to the even one. -/
theorem roundDiv_halfway {num den c : Nat} (hden : 0 < den) (h : 2 * num = (2 * c + 1) * den) :
    roundDiv num den = c + c % 2 := by
  have hnum : 2 * num = 2 * (c * den) + den := by rw [h]; ring
  have hquot : num / den = c := Nat.div_eq_of_lt_le (by omega) (by rw [Nat.add_one_mul]; omega)
  have hrest : 2 * (num % den) = den := by
    have hsplit := Nat.div_add_mod num den
    rw [hquot, Nat.mul_comm] at hsplit
    omega
  unfold roundDiv
  simp only [hquot, hrest, Nat.lt_irrefl, if_false]
  split <;> omega

theorem roundDiv_eq_zero {num den : Nat} (h : 2 * num < den) : roundDiv num den = 0 := by
  unfold roundDiv
  rw [Nat.div_eq_of_lt (by omega), Nat.mod_eq_of_lt (by omega)]
  exact if_pos h

/-- The larger quotient is not rounded to the smaller number. -/
theorem roundDiv_le_roundDiv {num den num' den' : Nat} (hden : 0 < den) (hden' : 0 < den')
    (h : num * den' ≤ num' * den) : roundDiv num den ≤ roundDiv num' den' := by
  by_contra! hlt
  obtain ⟨c, hc⟩ : ∃ c, c = roundDiv num' den' := ⟨_, rfl⟩
  rw [← hc] at hlt
  -- then `num / den` is not below `c + 1 / 2`, and `num' / den'` is not above
  have habove : (2 * c + 1) * den ≤ 2 * num := by
    have hlow := (roundDiv_within_half num hden).1
    have hstep : (c + 1) * den ≤ roundDiv num den * den := Nat.mul_le_mul_right den hlt
    rw [Nat.add_one_mul] at hstep
    rw [Nat.add_one_mul (2 * c), Nat.mul_assoc]
    omega
  have hbelow : 2 * num' ≤ (2 * c + 1) * den' := by
    have hhigh := (roundDiv_within_half num' hden').2
    rw [← hc] at hhigh
    rw [Nat.add_one_mul (2 * c), Nat.mul_assoc]
    omega
  -- so that both are halfway, and go to the same number
  have hloop : 2 * num * den' ≤ (2 * c + 1) * den * den' := by
    calc 2 * num * den' = 2 * (num * den') := Nat.mul_assoc ..
      _ ≤ 2 * (num' * den) := Nat.mul_le_mul_left 2 h
      _ = 2 * num' * den := (Nat.mul_assoc ..).symm
      _ ≤ (2 * c + 1) * den' * den := Nat.mul_le_mul_right den hbelow
      _ = (2 * c + 1) * den * den' := Nat.mul_right_comm ..
  have hnum : 2 * num = (2 * c + 1) * den :=
    Nat.le_antisymm (Nat.le_of_mul_le_mul_right hloop hden') habove
  have hnum' : 2 * num' = (2 * c + 1) * den' := by
    refine Nat.le_antisymm hbelow (Nat.le_of_mul_le_mul_right ?_ hden)
    calc (2 * c + 1) * den' * den = 2 * num * den' := by rw [hnum, Nat.mul_right_comm]
      _ = 2 * (num * den') := Nat.mul_assoc ..
      _ ≤ 2 * (num' * den) := Nat.mul_le_mul_left 2 h
      _ = 2 * num' * den := (Nat.mul_assoc ..).symm
  rw [roundDiv_halfway hden hnum] at hlt
  rw [roundDiv_halfway hden' hnum'] at hc
  omega

theorem roundDiv_le {num den c : Nat} (hden : 0 < den) (h : num ≤ c * den) :
    roundDiv num den ≤ c := by
  rw [← roundDiv_mul_right c hden]
  exact roundDiv_le_roundDiv hden hden (Nat.mul_le_mul_right den h)

theorem le_roundDiv {num den c : Nat} (hden : 0 < den) (h : c * den ≤ num) :
    c ≤ roundDiv num den := by
  rw [← roundDiv_mul_right c hden]
  exact roundDiv_le_roundDiv hden hden (Nat.mul_le_mul_right den h)

/-! ### Words put together -/

/-- The weight of a word whose number, were the range unlimited, would have weight `w`. -/
def inRange (w : Nat) : ℕ∞ := if w < 2 ^ 2098 then w else ⊤

theorem inRange_of_lt {m field : Nat} (hm : m < 2 ^ 53) (hfield : field ≤ 2045) :
    inRange (m * 2 ^ field) = (m * 2 ^ field : Nat) := by
  refine if_pos (Nat.lt_of_lt_of_le (Nat.mul_lt_mul_of_pos_right hm (Nat.two_pow_pos _)) ?_)
  rw [← pow_add]
  exact pow_le_pow_right₀ one_le_two (by omega)

theorem inRange_of_le {m field : Nat} (hm : 2 ^ 52 ≤ m) (hfield : 2046 ≤ field) :
    inRange (m * 2 ^ field) = ⊤ := by
  refine if_neg (Nat.not_lt.2 (Nat.le_trans ?_ (Nat.mul_le_mul_right _ hm)))
  rw [← pow_add]
  exact pow_le_pow_right₀ one_le_two (by omega)

theorem inRange_mono {w w' : Nat} (h : w ≤ w') : inRange w ≤ inRange w' := by
  unfold inRange
  by_cases hw : w' < 2 ^ 2098
  · rw [if_pos hw, if_pos (Nat.lt_of_le_of_lt h hw)]
    exact ENat.natCast_le_natCast.2 h
  · rw [if_neg hw]
    exact le_top

/-- A significand behind an exponent field, the bits that overlap added up. -/
def word (field significand : Nat) : Float :=
  Float.ofBits (UInt64.ofNat (field <<< 52 + significand))

/-- The fields of a word, the leading bit of the significand left out. -/
theorem toBitVec_word {field m : Nat} (h : field < 2048) :
    (UInt64.ofNat (field <<< 52 + m % 2 ^ 52)).toBitVec
      = packComponents Format.binary64 .positive (BitVec.ofNat _ field) (BitVec.ofNat _ m) := by
  apply BitVec.eq_of_toNat_eq
  show (field <<< 52 + m % 2 ^ 52) % 2 ^ 64 = ((0#1 ++ BitVec.ofNat 11 field)
    ++ BitVec.ofNat 52 m).toNat
  simp only [BitVec.toNat_append, BitVec.toNat_ofNat, Nat.zero_shiftLeft, Nat.zero_or,
    Nat.zero_mod, Nat.mod_eq_of_lt h]
  rw [← Nat.shiftLeft_add_eq_or_of_lt (Nat.mod_lt m (Nat.two_pow_pos 52)), Nat.mod_eq_of_lt]
  rw [Nat.shiftLeft_eq]
  omega

theorem unpack_ofBits {bits : UInt64} {m : Nat} {e : Int} {hm : 0 < m} (he : e ≤ 971)
    (h : UnpackedFloat.unpack Format.binary64 bits.toBitVec = .finite .positive m e hm) :
    (Float.ofBits bits).toModel.unpack = .finite .positive m e hm := by
  have hcanonical := canonical_unpack bits.toBitVec
  rw [h] at hcanonical
  show (Float.Model.pack (UnpackedFloat.unpack _ _)).unpack = _
  rw [h]
  exact unpack_pack_of_canonical hcanonical (isFinite_pack he)

theorem unpack_word {field m : Nat} (hfield : field ≤ 2045) (hlo : 2 ^ 52 ≤ m)
    (hhi : m < 2 ^ 53) : (word field m).toModel.unpack
      = .finite .positive m ((field : Int) - 1074) (Nat.lt_of_lt_of_le (by decide) hlo) := by
  have hunpack := unpack_normal .positive (e := (field : Int) - 1074)
    (Nat.lt_of_lt_of_le (by decide) hlo) hlo hhi (by omega) (by omega)
  have hsum : field <<< 52 + m = (field + 1) <<< 52 + m % 2 ^ 52 := by
    rw [Nat.shiftLeft_eq, Nat.shiftLeft_eq]
    omega
  have hexp : ((field : Int) - 1074 + 1075).toNat = field + 1 := by omega
  rw [hexp, ← toBitVec_word (by omega), ← hsum] at hunpack
  exact unpack_ofBits (by omega) hunpack

theorem unpack_word_zero {m : Nat} (hm : 0 < m) (hhi : m < 2 ^ 52) :
    (word 0 m).toModel.unpack = .finite .positive m (-1074) hm := by
  have hunpack := unpack_subnormal .positive hm hhi
  rw [← toBitVec_word (show 0 < 2048 by decide), Nat.mod_eq_of_lt hhi] at hunpack
  exact unpack_ofBits (by omega) hunpack

/-- A full significand is carried into the exponent field. -/
theorem word_carry (field : Nat) : word field (2 ^ 53) = word (field + 1) (2 ^ 52) := by
  have hsum : field <<< 52 + 2 ^ 53 = (field + 1) <<< 52 + 2 ^ 52 := by
    rw [Nat.shiftLeft_eq, Nat.shiftLeft_eq]
    omega
  rw [word, word, hsum]

theorem amount_of_unpack {x : Float} {m : Nat} {e : Int} {hm : 0 < m}
    (h : x.toModel.unpack = .finite .positive m e hm) : Amount x :=
  ⟨congrArg signOf h, congrArg UnpackedFloat.isNaN h⟩

/-- A word means the significand it was put together from, in units of its last place. -/
theorem weight_word {field significand : Nat} (hfield : field ≤ 2045)
    (hle : significand ≤ 2 ^ 53) (hfull : field = 0 ∨ 2 ^ 52 ≤ significand) :
    Amount (word field significand) ∧
      weight (word field significand).toModel.unpack = inRange (significand * 2 ^ field) := by
  have hnormal : ∀ {field m : Nat}, field ≤ 2045 → 2 ^ 52 ≤ m → m < 2 ^ 53 →
      Amount (word field m) ∧ weight (word field m).toModel.unpack = inRange (m * 2 ^ field) := by
    intro field m hfield hlo hhi
    have hunpack := unpack_word hfield hlo hhi
    have hexp : ((field : Int) - 1074 + 1074).toNat = field := by omega
    refine ⟨amount_of_unpack hunpack, ?_⟩
    rw [hunpack, inRange_of_lt hhi hfield, weight, hexp]
  rcases Nat.lt_or_eq_of_le hle with hlt | rfl
  · by_cases hlo : 2 ^ 52 ≤ significand
    · exact hnormal hfield hlo hlt
    · obtain rfl : field = 0 := hfull.resolve_right hlo
      rw [inRange_of_lt hlt hfield]
      rcases Nat.eq_zero_or_pos significand with rfl | hpos
      · exact ⟨⟨rfl, rfl⟩, rfl⟩
      · have hunpack := unpack_word_zero hpos (by omega)
        refine ⟨amount_of_unpack hunpack, ?_⟩
        rw [hunpack]
        rfl
  · rcases Nat.lt_or_eq_of_le hfield with hlt | rfl
    · have hsame : 2 ^ 53 * 2 ^ field = 2 ^ 52 * 2 ^ (field + 1) := by
        rw [← Nat.pow_add, ← Nat.pow_add]
        congr 1
        omega
      rw [word_carry, hsame]
      exact hnormal (by omega) (by decide) (by decide)
    · have hsame : 2 ^ 53 * 2 ^ 2045 = 2 ^ 52 * 2 ^ 2046 := by
        rw [← pow_add, ← pow_add]
      rw [hsame, inRange_of_le le_rfl le_rfl]
      exact ⟨⟨rfl, rfl⟩, rfl⟩

/-! ### The nearest number -/

/-- The last place of the number nearest to `n · 2 ^ e`: `2 ^ (lastPlace n e - 1074)`. -/
def lastPlace (n : Nat) (e : Int) : Nat := ((n.log2 : Int) + e + 1022).toNat

/-- The significand of that number, in units of the last place. -/
def significandAt (n : Nat) (e : Int) : Nat :=
  roundDiv (n * 2 ^ (e + 1074 - lastPlace n e).toNat) (2 ^ (lastPlace n e - 1074 - e).toNat)

theorem significandAt_le (n : Nat) (e : Int) : significandAt n e ≤ 2 ^ 53 := by
  refine roundDiv_le (Nat.two_pow_pos _) ?_
  rw [← Nat.pow_add]
  calc n * 2 ^ (e + 1074 - lastPlace n e).toNat
      ≤ 2 ^ (n.log2 + 1) * 2 ^ (e + 1074 - lastPlace n e).toNat :=
        Nat.mul_le_mul_right _ Nat.lt_log2_self.le
    _ = 2 ^ (n.log2 + 1 + (e + 1074 - lastPlace n e).toNat) := (Nat.pow_add ..).symm
    _ ≤ 2 ^ (53 + (lastPlace n e - 1074 - e).toNat) :=
        Nat.pow_le_pow_right (by decide) (by unfold lastPlace; omega)

theorem le_significandAt {n : Nat} {e : Int} (hn : 0 < n) (h : lastPlace n e ≠ 0) :
    2 ^ 52 ≤ significandAt n e := by
  refine le_roundDiv (Nat.two_pow_pos _) ?_
  rw [← Nat.pow_add]
  calc 2 ^ (52 + (lastPlace n e - 1074 - e).toNat)
      ≤ 2 ^ (n.log2 + (e + 1074 - lastPlace n e).toNat) :=
        Nat.pow_le_pow_right (by decide) (by unfold lastPlace at *; omega)
    _ = 2 ^ n.log2 * 2 ^ (e + 1074 - lastPlace n e).toNat := Nat.pow_add ..
    _ ≤ n * 2 ^ (e + 1074 - lastPlace n e).toNat :=
        Nat.mul_le_mul_right _ (Nat.log2_self_le (Nat.ne_of_gt hn))

theorem nearest_of_lt {n : Nat} {e : Int} (hn : 0 < n) (h : 1023 < (n.log2 : Int) + e) :
    nearest n e = infinity := by
  unfold nearest
  simp only [if_neg (Nat.ne_of_gt hn), if_pos h]

/-- Up to `2 ^ 1024` the nearest number is a word put together from these two. -/
theorem nearest_eq_word {n : Nat} {e : Int} (hn : 0 < n) (h : (n.log2 : Int) + e ≤ 1023) :
    nearest n e = word (lastPlace n e) (significandAt n e) := by
  unfold nearest
  simp only [if_neg (Nat.ne_of_gt hn), if_neg (Int.not_lt.2 h)]
  by_cases hlow : (n.log2 : Int) + e < -1075
  · have hplace : lastPlace n e = 0 := by unfold lastPlace; omega
    have hzero : significandAt n e = 0 := by
      refine roundDiv_eq_zero ?_
      rw [show (e + 1074 - lastPlace n e).toNat = 0 by omega]
      calc 2 * (n * 2 ^ 0) < 2 * 2 ^ (n.log2 + 1) := by
            have := Nat.lt_log2_self (n := n)
            omega
        _ = 2 ^ (n.log2 + 2) := by rw [Nat.mul_comm, ← Nat.pow_succ]
        _ ≤ 2 ^ (lastPlace n e - 1074 - e).toNat := Nat.pow_le_pow_right (by decide) (by omega)
    rw [if_pos hlow, hplace, hzero]
    rfl
  · have hplace : (max ((n.log2 : Int) + e - 52) (-1074)) = lastPlace n e - 1074 := by
      unfold lastPlace
      omega
    have hfield : (if (n.log2 : Int) + e < -1022 then 0 else ((n.log2 : Int) + e + 1022).toNat)
        = lastPlace n e := by
      unfold lastPlace
      split <;> omega
    have hsignificand : (if max ((n.log2 : Int) + e - 52) (-1074) ≤ e
        then n <<< (e - max ((n.log2 : Int) + e - 52) (-1074)).toNat
        else roundDiv n (1 <<< (max ((n.log2 : Int) + e - 52) (-1074) - e).toNat))
        = significandAt n e := by
      rw [hplace, significandAt]
      split
      · next hle =>
          rw [show (lastPlace n e - 1074 - e).toNat = 0 by omega, Nat.shiftLeft_eq,
            show (e - (lastPlace n e - 1074)).toNat = (e + 1074 - lastPlace n e).toNat by omega]
          have hwhole := roundDiv_mul_right (n * 2 ^ (e + 1074 - lastPlace n e).toNat) Nat.one_pos
          rwa [Nat.mul_one, eq_comm] at hwhole
      · next hlt =>
          rw [show (e + 1074 - lastPlace n e).toNat = 0 by omega, Nat.one_shiftLeft, pow_zero,
            Nat.mul_one]
    rw [if_neg hlow, hfield, hsignificand]
    rfl

theorem weight_nearest {n : Nat} {e : Int} (hn : 0 < n) : Amount (nearest n e) ∧
    weight (nearest n e).toModel.unpack = inRange (significandAt n e * 2 ^ lastPlace n e) := by
  by_cases hhigh : 1023 < (n.log2 : Int) + e
  · have hplace : 2046 ≤ lastPlace n e := by
      unfold lastPlace
      omega
    rw [nearest_of_lt hn hhigh, inRange_of_le (le_significandAt hn (by omega)) hplace]
    exact ⟨⟨rfl, rfl⟩, rfl⟩
  · rw [nearest_eq_word hn (by omega)]
    refine weight_word ?_ (significandAt_le n e) ?_
    · unfold lastPlace
      omega
    · by_cases hplace : lastPlace n e = 0
      · exact .inl hplace
      · exact .inr (le_significandAt hn hplace)

/-- **Rounding to the nearest keeps the order.** -/
theorem weight_nearest_le {n n' : Nat} {e e' : Int} (hn : 0 < n) (hn' : 0 < n')
    (h : n * 2 ^ (e - e').toNat ≤ n' * 2 ^ (e' - e).toNat) :
    weight (nearest n e).toModel.unpack ≤ weight (nearest n' e').toModel.unpack := by
  rw [(weight_nearest hn).2, (weight_nearest hn').2]
  refine inRange_mono ?_
  have htop : (n.log2 : Int) + e ≤ n'.log2 + e' := by
    have hpow : 2 ^ (n.log2 + (e - e').toNat) < 2 ^ (n'.log2 + 1 + (e' - e).toNat) := by
      calc 2 ^ (n.log2 + (e - e').toNat) = 2 ^ n.log2 * 2 ^ (e - e').toNat := Nat.pow_add ..
        _ ≤ n * 2 ^ (e - e').toNat :=
          Nat.mul_le_mul_right _ (Nat.log2_self_le (Nat.ne_of_gt hn))
        _ ≤ n' * 2 ^ (e' - e).toNat := h
        _ < 2 ^ (n'.log2 + 1) * 2 ^ (e' - e).toNat :=
          Nat.mul_lt_mul_of_pos_right Nat.lt_log2_self (Nat.two_pow_pos _)
        _ = 2 ^ (n'.log2 + 1 + (e' - e).toNat) := (Nat.pow_add ..).symm
    have := (Nat.pow_lt_pow_iff_right (by decide : 1 < 2)).1 hpow
    omega
  rcases Nat.lt_or_eq_of_le (show lastPlace n e ≤ lastPlace n' e' by unfold lastPlace; omega)
    with hlt | heq
  · calc significandAt n e * 2 ^ lastPlace n e ≤ 2 ^ 53 * 2 ^ lastPlace n e :=
          Nat.mul_le_mul_right _ (significandAt_le n e)
      _ = 2 ^ 52 * 2 ^ (lastPlace n e + 1) := by
          rw [← Nat.pow_add, ← Nat.pow_add]
          congr 1
          omega
      _ ≤ significandAt n' e' * 2 ^ lastPlace n' e' :=
          Nat.mul_le_mul (le_significandAt hn' (by omega)) (Nat.pow_le_pow_right (by decide) hlt)
  · rw [heq]
    refine Nat.mul_le_mul_right _ (roundDiv_le_roundDiv (Nat.two_pow_pos _) (Nat.two_pow_pos _) ?_)
    rw [Nat.mul_assoc, Nat.mul_assoc, ← Nat.pow_add, ← Nat.pow_add, heq]
    exact (mul_two_pow_le_iff n n' (by omega)).1 h

end NumberedScore.Binary64
