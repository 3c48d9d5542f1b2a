/-
Words and the numbers in them.

A binary64 word has three fields.  Its number is unpacked to a sign, a significand and an
exponent, and a number that was computed is packed into a word again.  Two things are
needed of this: which word a finite number is packed into (`pack_finite`), and that a
number in the form in which words are unpacked (`Canonical`) comes through unchanged
unless it overflows (`unpack_pack_of_canonical`).

NaN is a word of its own, and no other number is packed into it (`unpack_pack_of_number`).
-/
import Mathlib

namespace NumberedScore.Binary64

open Float.Model (Format UnpackedFloat)
open Float.Model.UnpackedFloat (Sign packComponents packedInfinity unpackExponent
  unpackExponent_packComponents unpackMantissa unpackMantissa_packComponents
  unpackSign_packComponents)

/-! ### The word of a number -/

/-- The word of a finite number, by the fields it is made of. -/
theorem pack_finite (s : Sign) {m : Nat} (e : Int) (hm : 0 < m) :
    UnpackedFloat.pack Format.binary64 (.finite s m e hm)
      = if 971 < e then packedInfinity Format.binary64 s
        else packComponents Format.binary64 s
          (if m.log2 = 52 then BitVec.ofNat _ (e + 1075).toNat else 0#_) (BitVec.ofNat _ m) := by
  have hfield : (e + Format.binary64.exponentBias
      + Format.binary64.mantissaBitsWithoutImplicit).toNat = (e + 1075).toNat := by
    rw [show Format.binary64.exponentBias = 1023 by decide]
    show (e + (1023 : Nat) + (52 : Nat)).toNat = _
    omega
  have hbits : Format.binary64.mantissaBits = 53 := by decide
  unfold UnpackedFloat.pack
  simp only [hfield, hbits]
  by_cases he : 971 < e
  · rw [if_pos he, if_pos (show 2048 ≤ _ by omega)]
  · rw [if_neg he, if_neg (show ¬ 2048 ≤ _ by omega)]
    by_cases hlog : m.log2 = 52
    · rw [if_pos (by omega), if_pos hlog]
    · rw [if_neg (by omega), if_neg hlog]

/-- The sign of a number; NaN has none and counts as positive. -/
def signOf : UnpackedFloat → Sign
  | .infinity s | .zero s | .finite s _ _ _ => s
  | .notANumber => .positive

/-- Only a word whose exponent field is all ones can be NaN, and infinity is none. -/
theorem unpack_packComponents (s : Sign) {e : BitVec Format.binary64.exponentBits}
    {m : BitVec Format.binary64.mantissaBitsWithoutImplicit} (h : e = -1#_ → m = 0#_) :
    signOf (UnpackedFloat.unpack Format.binary64 (packComponents Format.binary64 s e m)) = s ∧
      (UnpackedFloat.unpack Format.binary64
        (packComponents Format.binary64 s e m)).isNaN = false := by
  unfold UnpackedFloat.unpack
  simp only [unpackExponent_packComponents, unpackMantissa_packComponents,
    unpackSign_packComponents, Sign.ofBitVec_toBitVec]
  by_cases hmax : e = -1#_
  · rw [if_pos hmax, if_pos (h hmax)]
    exact ⟨rfl, rfl⟩
  · rw [if_neg hmax]
    split
    · split <;> exact ⟨rfl, rfl⟩
    · exact ⟨rfl, rfl⟩

/-- The exponent field of a number that fits is not all ones. -/
theorem exponentField_ne {m : Nat} {e : Int} (he : e ≤ 971) :
    (if m.log2 = 52 then BitVec.ofNat Format.binary64.exponentBits (e + 1075).toNat else 0#_)
      ≠ -1#_ := by
  split
  · intro hmax
    have hfield := congrArg BitVec.toNat hmax
    rw [BitVec.toNat_ofNat] at hfield
    change (e + 1075).toNat % 2048 = 2047 at hfield
    omega
  · decide

/-- A number that is packed keeps its sign and does not become NaN. -/
theorem unpack_pack_of_number {u : UnpackedFloat} (h : u.isNaN = false) :
    signOf (Float.Model.pack u).unpack = signOf u ∧ (Float.Model.pack u).unpack.isNaN = false := by
  cases u with
  | notANumber => exact Bool.noConfusion h
  | infinity s => exact unpack_packComponents s fun _ => rfl
  | zero s => exact unpack_packComponents s fun hmax => absurd hmax (by decide)
  | finite s m e hm =>
      show signOf (UnpackedFloat.unpack _ (UnpackedFloat.pack _ _)) = s ∧
        (UnpackedFloat.unpack _ (UnpackedFloat.pack _ _)).isNaN = false
      rw [pack_finite]
      by_cases he : 971 < e
      · rw [if_pos he]
        exact unpack_packComponents s fun _ => rfl
      · rw [if_neg he]
        exact unpack_packComponents s fun hmax => absurd hmax (exponentField_ne (by omega))

/-! ### The form of unpacked numbers -/

/-- The form of numbers that come out of words: 53 bits, or fewer at the smallest exponent. -/
def Canonical : UnpackedFloat → Prop
  | .finite _ m e _ => m < 2 ^ 53 ∧ -1074 ≤ e ∧ (e = -1074 ∨ 2 ^ 52 ≤ m)
  | _ => True

/-- The leading bit of a significand, which words leave out. -/
theorem toNat_one_append (v : BitVec 52) : (1#1 ++ v).toNat = 2 ^ 52 + v.toNat := by
  rw [BitVec.toNat_append, ← Nat.shiftLeft_add_eq_or_of_lt v.isLt]
  rfl

theorem canonical_unpack (b : BitVec Format.binary64.numBits) :
    Canonical (UnpackedFloat.unpack Format.binary64 b) := by
  have hbias : Format.binary64.exponentBias = 1023 := by decide
  have hmantissa : (unpackMantissa b).toNat < 2 ^ 52 := (unpackMantissa b).isLt
  unfold UnpackedFloat.unpack
  simp only [hbias]
  split
  · split <;> trivial
  · split
    · next hzero =>
        split
        · trivial
        · rw [hzero]
          exact ⟨by omega, by decide, .inl (by decide)⟩
    · next hzero =>
        have hfield : (unpackExponent b).toNat ≠ 0 := fun h => hzero (BitVec.eq_of_toNat_eq h)
        have happend := toNat_one_append (unpackMantissa b)
        refine ⟨by omega, ?_, .inr (by omega)⟩
        show -1074 ≤ ((unpackExponent b).toNat : Int) - ((1023 : Nat) + (52 : Nat))
        omega

/-- Words with a leading bit to add: the exponent field is neither all zeros nor all ones. -/
theorem unpack_normal (s : Sign) {m : Nat} {e : Int} (hm : 0 < m) (hlo : 2 ^ 52 ≤ m)
    (hhi : m < 2 ^ 53) (he : -1074 ≤ e) (he' : e ≤ 971) :
    UnpackedFloat.unpack Format.binary64 (packComponents Format.binary64 s
      (BitVec.ofNat _ (e + 1075).toNat) (BitVec.ofNat _ m)) = .finite s m e hm := by
  have hbias : Format.binary64.exponentBias = 1023 := by decide
  have hfield : (BitVec.ofNat Format.binary64.exponentBits (e + 1075).toNat).toNat
      = (e + 1075).toNat % 2048 := BitVec.toNat_ofNat ..
  have hfraction : (BitVec.ofNat Format.binary64.mantissaBitsWithoutImplicit m).toNat
      = m % 2 ^ 52 := BitVec.toNat_ofNat ..
  have hmax : BitVec.ofNat Format.binary64.exponentBits (e + 1075).toNat ≠ -1#_ := by
    intro hc
    rw [hc] at hfield
    change 2047 = _ at hfield
    omega
  have hzero : BitVec.ofNat Format.binary64.exponentBits (e + 1075).toNat ≠ 0#_ := by
    intro hc
    rw [hc] at hfield
    change 0 = _ at hfield
    omega
  unfold UnpackedFloat.unpack
  simp only [unpackExponent_packComponents, unpackMantissa_packComponents,
    unpackSign_packComponents, Sign.ofBitVec_toBitVec, hbias]
  rw [if_neg hmax, if_neg hzero, UnpackedFloat.finite.injEq, toNat_one_append, hfraction, hfield]
  refine ⟨rfl, by omega, ?_⟩
  show (((e + 1075).toNat % 2048 : Nat) : Int) - ((1023 : Nat) + (52 : Nat)) = e
  omega

/-- Words without a leading bit. -/
theorem unpack_subnormal (s : Sign) {m : Nat} (hm : 0 < m) (hhi : m < 2 ^ 52) :
    UnpackedFloat.unpack Format.binary64 (packComponents Format.binary64 s 0#_
      (BitVec.ofNat _ m)) = .finite s m (-1074) hm := by
  have hfraction : (BitVec.ofNat Format.binary64.mantissaBitsWithoutImplicit m).toNat
      = m % 2 ^ 52 := BitVec.toNat_ofNat ..
  have hne : BitVec.ofNat Format.binary64.mantissaBitsWithoutImplicit m ≠ 0#_ := by
    intro hc
    rw [hc] at hfraction
    change 0 = _ at hfraction
    omega
  unfold UnpackedFloat.unpack
  simp only [unpackExponent_packComponents, unpackMantissa_packComponents,
    unpackSign_packComponents, Sign.ofBitVec_toBitVec]
  rw [if_neg (by decide), if_pos trivial, dif_neg hne, UnpackedFloat.finite.injEq, hfraction]
  exact ⟨rfl, by omega, by decide⟩

/-- A canonical number survives packing, unless it overflows. -/
theorem unpack_pack_of_canonical {u : UnpackedFloat} (h : Canonical u)
    (hfinite : (Float.Model.pack u).unpack.isFinite = true) : (Float.Model.pack u).unpack = u := by
  cases u with
  | notANumber => rfl
  | infinity s => cases s <;> exact Bool.noConfusion hfinite
  | zero s => cases s <;> rfl
  | finite s m e hm =>
      obtain ⟨hlt, hlo, hfull⟩ := h
      change (UnpackedFloat.unpack _ (UnpackedFloat.pack _ _)).isFinite = true at hfinite
      show UnpackedFloat.unpack _ (UnpackedFloat.pack _ _) = _
      rw [pack_finite] at hfinite ⊢
      by_cases he : 971 < e
      · rw [if_pos he] at hfinite
        cases s <;> exact Bool.noConfusion hfinite
      · rw [if_neg he]
        by_cases hnormal : 2 ^ 52 ≤ m
        · rw [if_pos ((Nat.log2_eq_iff (by omega)).2 ⟨hnormal, hlt⟩)]
          exact unpack_normal s hm hnormal hlt hlo (by omega)
        · obtain rfl : e = -1074 := hfull.resolve_right hnormal
          have hlog : m.log2 ≠ 52 := fun hlog =>
            hnormal (hlog ▸ Nat.log2_self_le (Nat.ne_of_gt hm))
          rw [if_neg hlog]
          exact unpack_subnormal s hm (by omega)

/-- A word gives back the number that is packed in it. -/
theorem pack_unpack (x : Float) : Float.Model.pack x.toModel.unpack = x.toModel := by
  have hbits := UnpackedFloat.pack_unpack_of_valid x.toModel.valid
  cases hx : x.toModel with
  | mk bits valid =>
      rw [hx] at hbits
      exact Float.Model.mk.injEq .. ▸ congrArg UInt64.ofBitVec hbits

end NumberedScore.Binary64
