/-
The order of numbers without a minus sign.

Seconds are added up from numbers that have no minus sign: beats, note values, lengths.
What makes them move forward is that a sum is not below its parts, and that has to survive
rounding.  It does because a part is a number of 53 bits itself.  Rounding keeps 53 bits
of the exact sum, so it may cut off something that the part does not have, but never falls
below the part (`le_floor`).

To compare two numbers by size, both are taken as multiples of `2 ^ -1074`, the smallest
positive number (`weight`).  The order of the machine goes by exponent first and by
significand second.  That is the order of weights as long as numbers are in the one form
in which they come out of words (`Canonical`).

`Unsigned` allows NaN, so that sums, products and quotients of unsigned numbers are
unsigned without any question of range.  An `Amount` is a number, too.
-/
import NumberedScore.Proofs.Binary64.Unsigned

namespace NumberedScore.Binary64

open Float.Model (Format UnpackedFloat totalExponent)
open Float.Model.UnpackedFloat (Accuracy ExtendedMantissa Sign decreaseExponent roundWithAccuracy
  shiftToExponent shiftToTargetExponent)

/-! ### The order of unpacked numbers -/

/-- The size of a number as a multiple of `2 ^ -1074`, of which all finite numbers are multiples. -/
def weight : UnpackedFloat → ℕ∞
  | .infinity _ => ⊤
  | .finite _ m e _ => (m * 2 ^ (e + 1074).toNat : Nat)
  | _ => 0

/-- A larger exponent outweighs any significand. -/
theorem mul_two_pow_lt {m₁ m₂ k₁ k₂ : Nat} (h₁ : m₁ < 2 ^ 53) (h₂ : 2 ^ 52 ≤ m₂) (hk : k₁ < k₂) :
    m₁ * 2 ^ k₁ < m₂ * 2 ^ k₂ := by
  calc m₁ * 2 ^ k₁ < 2 ^ 53 * 2 ^ k₁ := Nat.mul_lt_mul_of_pos_right h₁ (Nat.two_pow_pos k₁)
    _ = 2 ^ 52 * 2 ^ (k₁ + 1) := by rw [← Nat.pow_add, ← Nat.pow_add]; congr 1; omega
    _ ≤ m₂ * 2 ^ k₂ := Nat.mul_le_mul h₂ (Nat.pow_le_pow_right (by decide) hk)

theorem compare_finite_iff {m₁ m₂ : Nat} {e₁ e₂ : Int} {s : Sign} {p₁ : 0 < m₁} {p₂ : 0 < m₂}
    (h₁ : Canonical (.finite s m₁ e₁ p₁)) (h₂ : Canonical (.finite s m₂ e₂ p₂)) :
    ((compare e₁ e₂).then (compare m₁ m₂)).isLE = true ↔
      m₁ * 2 ^ (e₁ + 1074).toNat ≤ m₂ * 2 ^ (e₂ + 1074).toNat := by
  obtain ⟨hlt₁, hlo₁, hfull₁⟩ := h₁
  obtain ⟨hlt₂, hlo₂, hfull₂⟩ := h₂
  rcases Int.lt_trichotomy e₁ e₂ with he | rfl | he
  · rw [Int.compare_eq_lt.2 he]
    have hlt : m₁ * 2 ^ (e₁ + 1074).toNat < m₂ * 2 ^ (e₂ + 1074).toNat :=
      mul_two_pow_lt hlt₁ (by omega) (by omega)
    exact iff_of_true rfl hlt.le
  · rw [Int.compare_eq_eq.2 rfl, Ordering.eq_then, Nat.isLE_compare]
    exact (Nat.mul_le_mul_right_iff (Nat.two_pow_pos _)).symm
  · rw [Int.compare_eq_gt.2 he]
    have hlt : m₂ * 2 ^ (e₂ + 1074).toNat < m₁ * 2 ^ (e₁ + 1074).toNat :=
      mul_two_pow_lt hlt₂ (by omega) (by omega)
    exact iff_of_false Bool.false_ne_true hlt.not_ge

/-- Canonical numbers without a sign are in the order of their weights. -/
theorem le_iff_weight_le {u v : UnpackedFloat} (hu : Canonical u) (hv : Canonical v)
    (su : signOf u = .positive) (sv : signOf v = .positive) (nu : u.isNaN = false)
    (nv : v.isNaN = false) : u.le v = true ↔ weight u ≤ weight v := by
  unfold UnpackedFloat.le
  cases u with
  | notANumber => exact Bool.noConfusion nu
  | infinity s =>
      cases su
      cases v with
      | notANumber => exact Bool.noConfusion nv
      | infinity s => cases sv; exact iff_of_true rfl le_rfl
      | zero s => exact iff_of_false Bool.false_ne_true (not_le.2 ENat.top_pos)
      | finite s m e hm => exact iff_of_false Bool.false_ne_true (not_le.2 (ENat.natCast_lt_top _))
  | zero s =>
      refine iff_of_true ?_ zero_le
      cases v with
      | notANumber => exact Bool.noConfusion nv
      | _ => cases sv; rfl
  | finite s m e hm =>
      cases su
      cases v with
      | notANumber => exact Bool.noConfusion nv
      | infinity s => cases sv; exact iff_of_true rfl le_top
      | zero s =>
          have hpos : 0 < m * 2 ^ (e + 1074).toNat := Nat.mul_pos hm (Nat.two_pow_pos _)
          exact iff_of_false Bool.false_ne_true (not_le.2 (ENat.natCast_lt_natCast.2 hpos))
      | finite s' m' e' hm' =>
          cases sv
          exact (compare_finite_iff hu hv).trans ENat.natCast_le_natCast.symm

/-! ### Rounding does not go below a number that needs no rounding -/

/-- The second of the two steps of rounding: a carry out of a full significand is moved on. -/
theorem carry {m : Nat} {e : Int} (hpos : 0 < m) (hle : m ≤ 2 ^ 53) (he : -1074 ≤ e)
    (hfull : e = -1074 ∨ 2 ^ 52 ≤ m) :
    ∃ m' e', shiftToTargetExponent Format.binary64 m e .exact = (⟨m', false, false⟩, e') ∧
      0 < m' ∧ (m' < 2 ^ 53 ∧ -1074 ≤ e' ∧ (e' = -1074 ∨ 2 ^ 52 ≤ m')) ∧
      m' * 2 ^ (e' + 1074).toNat = m * 2 ^ (e + 1074).toNat := by
  unfold shiftToTargetExponent shiftToExponent
  simp only [targetExponent_eq]
  rcases Nat.lt_or_eq_of_le hle with hlt | rfl
  · have hlog : m.log2 < 53 := (Nat.log2_lt (Nat.ne_of_gt hpos)).2 hlt
    have hshift : (max ((m.log2 : Int) + e - 52) (-1074) - e).toNat = 0 := by omega
    rw [hshift]
    exact ⟨m, e, by simp; rfl, hpos, ⟨hlt, he, hfull⟩, rfl⟩
  · have hlog : (2 ^ 53 : Nat).log2 = 53 := by decide
    have hshift : (max (((2 ^ 53 : Nat).log2 : Int) + e - 52) (-1074) - e).toNat = 1 := by
      rw [hlog]
      omega
    rw [hshift]
    refine ⟨2 ^ 52, e + 1, rfl, by decide, ⟨by decide, by omega, .inr (by decide)⟩, ?_⟩
    have hexp : (e + 1 + 1074).toNat = (e + 1074).toNat + 1 := by omega
    rw [hexp, Nat.pow_succ]
    omega

/--
What rounding makes of `± m · 2 ^ e`: a canonical number, which does not fall below a number
of 53 bits that the exact one was not below.
-/
def RoundsTo (s : Sign) (m : Nat) (e : Int) (u : UnpackedFloat) : Prop :=
  ∃ m' e' h, u = .finite s m' e' h ∧ Canonical u ∧
    ∀ a j, a < 2 ^ 53 → a * 2 ^ j ≤ m * 2 ^ (e + 1074).toNat →
      a * 2 ^ j ≤ m' * 2 ^ (e' + 1074).toNat

/-- Bits fall off the end only if 53 are kept, so numbers of 53 bits are not passed by. -/
theorem le_floor {a j m k i : Nat} (ha : a < 2 ^ 53) (hk : k = 0 ∨ 2 ^ 52 ≤ m / 2 ^ k)
    (h : a * 2 ^ j ≤ m * 2 ^ i) : a * 2 ^ j ≤ m / 2 ^ k * 2 ^ (i + k) := by
  rcases hk with rfl | hfull
  · simpa using h
  · rcases Nat.lt_or_ge j (i + k) with hlt | hge
    · exact (mul_two_pow_lt ha hfull hlt).le
    · have hj : j = j - (i + k) + k + i := by omega
      have hquot : a * 2 ^ (j - (i + k)) ≤ m / 2 ^ k := by
        rw [Nat.le_div_iff_mul_le (Nat.two_pow_pos k), Nat.mul_assoc, ← Nat.pow_add]
        rw [hj, Nat.pow_add, ← Nat.mul_assoc] at h
        exact Nat.le_of_mul_le_mul_right h (Nat.two_pow_pos i)
      calc a * 2 ^ j = a * 2 ^ (j - (i + k)) * 2 ^ (i + k) := by
            rw [Nat.mul_assoc, ← Nat.pow_add, Nat.sub_add_cancel hge]
        _ ≤ m / 2 ^ k * 2 ^ (i + k) := Nat.mul_le_mul_right _ hquot

theorem mantissa_le_roundedMantissa (em : ExtendedMantissa) : em.mantissa ≤ em.roundedMantissa := by
  unfold ExtendedMantissa.roundedMantissa
  rcases em.accuracy with _ | o
  · exact Nat.le_refl _
  · cases o <;> simp only [Accuracy.roundToNearestEven] <;> omega

/-- All bits but the first 53 are cut off. -/
theorem div_two_pow_lt (m : Nat) : m / 2 ^ (m.log2 - 52) < 2 ^ 53 := by
  rw [Nat.div_lt_iff_lt_mul (Nat.two_pow_pos _), ← Nat.pow_add]
  exact Nat.lt_of_lt_of_le Nat.lt_log2_self (Nat.pow_le_pow_right (by decide) (by omega))

theorem le_div_two_pow {m : Nat} (hpos : 0 < m) (hlog : 52 ≤ m.log2) :
    2 ^ 52 ≤ m / 2 ^ (m.log2 - 52) := by
  rw [Nat.le_div_iff_mul_le (Nat.two_pow_pos _), ← Nat.pow_add, Nat.add_sub_cancel' hlog]
  exact Nat.log2_self_le (Nat.ne_of_gt hpos)

/-- A significand that is long enough for its exponent is rounded to a canonical number. -/
theorem roundsTo_roundWithAccuracy (s : Sign) {m : Nat} {e : Int} (hpos : 0 < m)
    (he : -1074 ≤ e) (hlong : e = -1074 ∨ 52 ≤ m.log2) :
    RoundsTo s m e (roundWithAccuracy Format.binary64 s m e .exact) := by
  -- the bits that do not fit
  obtain ⟨k, hk⟩ : ∃ k, k = m.log2 - 52 := ⟨_, rfl⟩
  have hshift : (Format.binary64.targetExponent (totalExponent m e) - e).toNat = k := by
    rw [targetExponent_eq]
    omega
  have hhi : m / 2 ^ k < 2 ^ 53 := hk ▸ div_two_pow_lt m
  have hlo : e = -1074 ∧ k = 0 ∨ 2 ^ 52 ≤ m / 2 ^ k := by
    rcases Nat.lt_or_ge m.log2 52 with hlog | hlog
    · exact .inl ⟨hlong.resolve_right (by omega), by omega⟩
    · exact .inr (hk ▸ le_div_two_pow hpos hlog)
  obtain ⟨em, hem⟩ : ∃ em, em = ExtendedMantissa.ofMantissaAndAccuracy m .exact >>> k := ⟨_, rfl⟩
  have hmantissa : em.mantissa = m / 2 ^ k := by
    rw [hem, mantissa_shiftRight, mantissa_ofMantissaAndAccuracy]
  have hfloor := mantissa_le_roundedMantissa em
  have hceil := roundedMantissa_le em
  rw [hmantissa] at hfloor hceil
  have hq : 0 < m / 2 ^ k := by
    rcases hlo with ⟨-, hzero⟩ | hfull
    · rw [hzero]
      simpa using hpos
    · omega
  obtain ⟨m', e', hcarry, hpos', hcanonical, hsame⟩ := carry (m := em.roundedMantissa)
    (e := e + k) (by omega) (by omega) (by omega) (by omega)
  have hround : roundWithAccuracy Format.binary64 s m e .exact = .finite s m' e' hpos' := by
    unfold roundWithAccuracy
    rw [shiftToTargetExponent, shiftToExponent, hshift, ← hem]
    simp only [hcarry]
    exact dif_neg (Nat.ne_of_gt hpos')
  refine ⟨m', e', hpos', hround, hround ▸ hcanonical, ?_⟩
  intro a j ha hle
  have hexp : (e + k + 1074).toNat = (e + 1074).toNat + k := by omega
  calc a * 2 ^ j ≤ m / 2 ^ k * 2 ^ ((e + 1074).toNat + k) :=
        le_floor ha (hlo.imp_left (·.2)) hle
    _ ≤ em.roundedMantissa * 2 ^ ((e + 1074).toNat + k) := Nat.mul_le_mul_right _ hfloor
    _ = m' * 2 ^ (e' + 1074).toNat := by rw [hsame, hexp]

/-- A significand that is too short is first made longer. -/
theorem roundsTo_round (s : Sign) {m : Nat} {e : Int} (hpos : 0 < m) (he : -1074 ≤ e) :
    RoundsTo s m e (UnpackedFloat.round Format.binary64 s m e) := by
  unfold UnpackedFloat.round decreaseExponent
  simp only [targetExponent_eq]
  obtain ⟨d, hd⟩ : ∃ d, d = (e - max ((m.log2 : Int) + e - 52) (-1074)).toNat := ⟨_, rfl⟩
  rw [← hd]
  have hlog := log2_shiftLeft hpos d
  have hsame : m <<< d * 2 ^ (e - d + 1074).toNat = m * 2 ^ (e + 1074).toNat := by
    rw [Nat.shiftLeft_eq, Nat.mul_assoc, ← Nat.pow_add]
    congr 2
    omega
  obtain ⟨m', e', h, hround, hcanonical, hle⟩ := roundsTo_roundWithAccuracy s (m := m <<< d)
    (e := e - d) (Nat.shiftLeft_pos_iff.2 hpos) (by omega) (by omega)
  exact ⟨m', e', h, hround, hcanonical, fun a j ha haj => hle a j ha (hsame ▸ haj)⟩

/-! ### Amounts -/

namespace Amount

variable {x y z : Float}

/-- Amounts are in the order of their weights. -/
theorem le_iff (hx : Amount x) (hy : Amount y) :
    x ≤ y ↔ weight x.toModel.unpack ≤ weight y.toModel.unpack := by
  have hle := le_iff_weight_le (canonical_unpack _) (canonical_unpack _) hx.unsigned hy.unsigned
    hx.number hy.number
  exact Iff.trans ⟨of_decide_eq_true, decide_eq_true⟩ hle

theorem le_refl (hx : Amount x) : x ≤ x := (hx.le_iff hx).2 le_rfl

theorem le_trans (hx : Amount x) (hy : Amount y) (hz : Amount z) (hxy : x ≤ y) (hyz : y ≤ z) :
    x ≤ z :=
  (hx.le_iff hz).2 (((hx.le_iff hy).1 hxy).trans ((hy.le_iff hz).1 hyz))

theorem le_of_not_le (hx : Amount x) (hy : Amount y) (h : ¬ x ≤ y) : y ≤ x :=
  (hy.le_iff hx).2 (not_le.1 fun hle => h ((hx.le_iff hy).2 hle)).le

theorem zero_le (hx : Amount x) : 0 ≤ x := (zero.le_iff hx).2 bot_le

end Amount

/-- A sum is canonical again, and not below either of its parts. -/
theorem weight_le_add {u v : UnpackedFloat} (hu : Canonical u) (hv : Canonical v)
    (su : signOf u = .positive) (sv : signOf v = .positive) (nu : u.isNaN = false)
    (nv : v.isNaN = false) : Canonical (UnpackedFloat.add Format.binary64 u v) ∧
      weight u ≤ weight (UnpackedFloat.add Format.binary64 u v) := by
  cases u with
  | notANumber => exact Bool.noConfusion nu
  | infinity s =>
      cases su
      cases v with
      | notANumber => exact Bool.noConfusion nv
      | infinity s => cases sv; exact ⟨trivial, le_rfl⟩
      | _ => exact ⟨trivial, le_rfl⟩
  | zero s =>
      cases su
      cases v with
      | notANumber => exact Bool.noConfusion nv
      | zero s => cases sv; exact ⟨trivial, le_rfl⟩
      | _ => exact ⟨hv, bot_le⟩
  | finite s m e hm =>
      cases su
      cases v with
      | notANumber => exact Bool.noConfusion nv
      | infinity s => exact ⟨trivial, le_top⟩
      | zero s => exact ⟨hu, le_rfl⟩
      | finite s' m' e' hm' =>
          cases sv
          obtain ⟨hlt, hlo, -⟩ := hu
          have hlo' : -1074 ≤ e' := hv.2.1
          obtain ⟨k, hk⟩ : ∃ k, k = (e - min e e').toNat := ⟨_, rfl⟩
          rw [add_finite, ← hk]
          obtain ⟨m'', e'', h'', hround, hcanonical, hle⟩ := roundsTo_round .positive
            (m := m <<< k + m' <<< (e' - min e e').toNat) (e := min e e')
            (Nat.add_pos_left (Nat.shiftLeft_pos_iff.2 hm) _) (by omega)
          refine ⟨hcanonical, ?_⟩
          rw [hround]
          refine (ENat.natCast_le_natCast.2 (hle m _ hlt ?_))
          have hexp : (e + 1074).toNat = k + (min e e' + 1074).toNat := by omega
          calc m * 2 ^ (e + 1074).toNat = m <<< k * 2 ^ (min e e' + 1074).toNat := by
                rw [hexp, Nat.pow_add, ← Nat.mul_assoc, Nat.shiftLeft_eq]
            _ ≤ _ := Nat.mul_le_mul_right _ (Nat.le_add_right _ _)

/-- NaN does not get lost in a sum. -/
theorem number_of_isFinite_add {u v : UnpackedFloat}
    (h : (Float.Model.pack (UnpackedFloat.add Format.binary64 u v)).unpack.isFinite = true) :
    u.isNaN = false ∧ v.isNaN = false := by
  have hnan : (Float.Model.pack .notANumber).unpack.isFinite ≠ true := by decide
  cases u with
  | notANumber => exact absurd h hnan
  | _ =>
      cases v with
      | notANumber => exact absurd h hnan
      | _ => exact ⟨rfl, rfl⟩

/-- Adding an amount does not go back, as long as the sum is in range. -/
theorem le_add {x y : Float} (hx : Unsigned x) (hy : Unsigned y)
    (hfinite : (x + y).isFinite = true) : x ≤ x + y := by
  change (Float.Model.pack (UnpackedFloat.add Format.binary64 x.toModel.unpack
    y.toModel.unpack)).unpack.isFinite = true at hfinite
  obtain ⟨nx, ny⟩ := number_of_isFinite_add hfinite
  obtain ⟨hcanonical, hle⟩ := weight_le_add (canonical_unpack _) (canonical_unpack _) hx hy
    nx ny
  refine ((Amount.mk hx nx).le_iff (.of_isFinite (hx.add hy) hfinite)).2 ?_
  exact (unpack_pack_of_canonical hcanonical hfinite).symm ▸ hle

/-! ### Sums that are not minus zero -/

/-- A sum is canonical again, and minus zero only if its first part is. -/
theorem canonical_add {u v : UnpackedFloat} (hu : Canonical u) (hv : Canonical v)
    (h : u ≠ .zero .negative) : Canonical (UnpackedFloat.add Format.binary64 u v) ∧
      UnpackedFloat.add Format.binary64 u v ≠ .zero .negative := by
  have hround : ∀ s {m : Nat} {e : Int}, 0 < m → -1074 ≤ e →
      Canonical (UnpackedFloat.round Format.binary64 s m e) ∧
        UnpackedFloat.round Format.binary64 s m e ≠ .zero .negative := by
    intro s m e hm he
    obtain ⟨m', e', h', heq, hcanonical, -⟩ := roundsTo_round s hm he
    exact ⟨hcanonical, heq ▸ UnpackedFloat.noConfusion⟩
  cases u with
  | notANumber => exact ⟨trivial, UnpackedFloat.noConfusion⟩
  | infinity s =>
      cases v with
      | infinity t => cases s <;> cases t <;> exact ⟨trivial, UnpackedFloat.noConfusion⟩
      | _ => exact ⟨trivial, UnpackedFloat.noConfusion⟩
  | zero s =>
      cases s with
      | negative => exact absurd rfl h
      | positive =>
          cases v with
          | zero t => cases t <;> exact ⟨trivial, fun heq => by cases heq⟩
          | _ => exact ⟨hv, UnpackedFloat.noConfusion⟩
  | finite s m e hm =>
      cases v with
      | finite t m' e' hm' =>
          have hlow : -1074 ≤ min e e' := by
            have := hu.2.1
            have := hv.2.1
            omega
          show Canonical (UnpackedFloat.normalize _ _ _ _) ∧ UnpackedFloat.normalize _ _ _ _ ≠ _
          unfold UnpackedFloat.normalize
          split
          · next hneg => exact hround _ (by have := Int.compare_eq_lt.1 hneg; omega) hlow
          · exact ⟨trivial, by simp⟩
          · next hpos => exact hround _ (by have := Int.compare_eq_gt.1 hpos; omega) hlow
      | zero t => exact ⟨hu, UnpackedFloat.noConfusion⟩
      | _ => exact ⟨trivial, UnpackedFloat.noConfusion⟩

/-- A sum that starts with another number is never minus zero. -/
theorem not_isMinusZero_add {x : Float} (h : ¬ IsMinusZero x) (y : Float) :
    ¬ IsMinusZero (x + y) := by
  intro hzero
  obtain ⟨hcanonical, hne⟩ := canonical_add (v := y.toModel.unpack) (canonical_unpack _)
    (canonical_unpack _) h
  change (Float.Model.pack (UnpackedFloat.add Format.binary64 x.toModel.unpack
    y.toModel.unpack)).unpack = .zero .negative at hzero
  have hfinite : (Float.Model.pack (UnpackedFloat.add Format.binary64 x.toModel.unpack
      y.toModel.unpack)).unpack.isFinite = true := by
    rw [hzero]
    rfl
  exact hne ((unpack_pack_of_canonical hcanonical hfinite).symm.trans hzero)

/-! ### Differences -/

theorem signOf_sub {u v : UnpackedFloat} (hu : Canonical u) (hv : Canonical v)
    (su : signOf u = .positive) (sv : signOf v = .positive) (h : weight v ≤ weight u) :
    signOf (UnpackedFloat.sub Format.binary64 u v) = .positive := by
  cases u with
  | finite s₁ m₁ e₁ h₁ =>
      cases su
      cases v with
      | finite s₂ m₂ e₂ h₂ =>
          cases sv
          have hlo₁ : -1074 ≤ e₁ := hu.2.1
          have hlo₂ : -1074 ≤ e₂ := hv.2.1
          have hweight : m₂ * 2 ^ (e₂ + 1074).toNat ≤ m₁ * 2 ^ (e₁ + 1074).toNat :=
            ENat.natCast_le_natCast.1 h
          have hle : m₂ <<< (e₂ - min e₁ e₂).toNat ≤ m₁ <<< (e₁ - min e₁ e₂).toNat := by
            have hexp₁ : (e₁ + 1074).toNat = (e₁ - min e₁ e₂).toNat + (min e₁ e₂ + 1074).toNat := by
              omega
            have hexp₂ : (e₂ + 1074).toNat = (e₂ - min e₁ e₂).toNat + (min e₁ e₂ + 1074).toNat := by
              omega
            rw [Nat.shiftLeft_eq, Nat.shiftLeft_eq]
            rw [hexp₁, hexp₂, Nat.pow_add, Nat.pow_add, ← Nat.mul_assoc, ← Nat.mul_assoc] at hweight
            exact Nat.le_of_mul_le_mul_right hweight (Nat.two_pow_pos _)
          show signOf (UnpackedFloat.normalize _ ((m₁ <<< (e₁ - min e₁ e₂).toNat : Nat)
            - (m₂ <<< (e₂ - min e₁ e₂).toNat : Nat) : Int) _ _) = _
          unfold UnpackedFloat.normalize
          split
          · next hneg =>
              have := Int.compare_eq_lt.1 hneg
              omega
          · rfl
          · exact signOf_roundWithAccuracy ..
      | infinity s₂ => exact absurd (top_le_iff.1 h) (ENat.natCast_ne_top _)
      | zero s₂ | notANumber => rfl
  | zero s₁ =>
      cases su
      cases v with
      | infinity s₂ => exact absurd (top_le_iff.1 h) ENat.zero_ne_top
      | finite s₂ m₂ e₂ h₂ =>
          have hpos : 0 < m₂ * 2 ^ (e₂ + 1074).toNat := Nat.mul_pos h₂ (Nat.two_pow_pos _)
          exact absurd h (not_le.2 (ENat.natCast_lt_natCast.2 hpos))
      | zero s₂ => cases sv; rfl
      | notANumber => rfl
  | infinity s₁ =>
      cases su
      cases v with
      | infinity s₂ => cases sv; rfl
      | _ => rfl
  | notANumber => rfl

/-- Taking away an amount that is not larger leaves no minus sign. -/
theorem unsigned_sub {x y : Float} (hx : Amount x) (hy : Amount y) (h : y ≤ x) :
    Unsigned (x - y) :=
  signOf_pack (signOf_sub (canonical_unpack _) (canonical_unpack _) hx.unsigned hy.unsigned
    ((hy.le_iff hx).1 h))

end NumberedScore.Binary64
