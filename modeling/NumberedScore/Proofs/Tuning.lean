/-
The range of the usual tuning.

A key sounds at 440 Hz times a power of two, and the exponent is its distance from concert A
in octaves.  That distance is a quotient by twelve, rounded, and what is known of it is on
which side of other numbers it is (`octaves_side`).  Since powers of two keep the order, four
keys settle all others: the last that can be told from silence and the next one below, the
last that is finite and the next one above.  The distance meant is the word that a tuning
computes, so that nothing is asked of the key.

Far below concert A the power of two comes out as zero, and so does the frequency, which is
how a rest is written.  Far above it comes out infinite.
-/
import NumberedScore.Proofs.Binary64.Exp2
import NumberedScore.Tuning

namespace NumberedScore

open Float.Model (Format UnpackedFloat)
open Float.Model.UnpackedFloat (Sign)
open Binary64

/-! ### Words -/

theorem wrapped_eq_bmod (n : Int) : wrapped n = n.bmod (2 ^ 32) := Int32.toInt_ofInt

/-- A number that fits into the word is kept as it is. -/
theorem wrapped_of_fits {n : Int} (hlow : -2 ^ 31 ≤ n) (hhigh : n < 2 ^ 31) : wrapped n = n :=
  Int32.toInt_ofInt_of_le hlow hhigh

theorem wrapped_fits (n : Int) : -2 ^ 31 ≤ wrapped n ∧ wrapped n < 2 ^ 31 :=
  ⟨n.toInt32.le_toInt, n.toInt32.toInt_lt⟩

/-! ### Distances in octaves -/

theorem ofNat_eq_mul_one {n : Nat} (h : n < 2 ^ 53) : Float.ofNat n = n.toUInt64.toFloat * 1 := by
  show Float.ofScientific n false 0 = _
  unfold Float.ofScientific
  rw [dif_pos ⟨h, by decide⟩]
  rfl

/-- A machine word of less than 54 bits is read as a full significand of the same value. -/
theorem unpack_toUInt64_toFloat {n : Nat} (hpos : 0 < n) (hlt : n < 2 ^ 53) :
    ∃ m e h, n.toUInt64.toFloat.toModel.unpack = .finite .positive m e h ∧ 2 ^ 52 ≤ m ∧
      -1074 ≤ e ∧ m * 2 ^ (e + 1074).toNat = n * scale := by
  have hlog : n.log2 < 53 := (Nat.log2_lt (Nat.ne_of_gt hpos)).2 hlt
  obtain ⟨hm, hwhole⟩ := unpack_pack_normalize hpos (by omega) .positive
  refine ⟨n <<< (52 - n.log2), (n.log2 : Int) - 52, hm, ?_, ?_, by omega, ?_⟩
  · have htoNat : n.toUInt64.toNat = n := Nat.mod_eq_of_lt (by omega)
    show (Float.Model.pack (UnpackedFloat.normalize _ (n.toUInt64.toNat : Int) 0 _)).unpack = _
    rw [htoNat, hwhole]
  · calc 2 ^ 52 = 2 ^ n.log2 * 2 ^ (52 - n.log2) := by rw [← Nat.pow_add]; congr 1; omega
      _ ≤ n * 2 ^ (52 - n.log2) :=
        Nat.mul_le_mul_right _ (Nat.log2_self_le (Nat.ne_of_gt hpos))
      _ = n <<< (52 - n.log2) := (Nat.shiftLeft_eq ..).symm
  · rw [Nat.shiftLeft_eq, Nat.mul_assoc, ← pow_add]
    congr 2
    omega

theorem faithful_ofNat {n : Nat} (hpos : 0 < n) (hlt : n < 2 ^ 53) :
    Faithful .positive (n * scale) 1 (Float.ofNat n).toModel.unpack := by
  obtain ⟨m, e, hm, hunpack, hfull, hlo, hweight⟩ := unpack_toUInt64_toFloat hpos hlt
  have hone : (1 : Float).toModel.unpack = .finite .positive (2 ^ 52) (-52) (by decide) := rfl
  have hunit : 2 ^ 52 * 2 ^ ((-52 : Int) + 1074).toNat = scale := by
    rw [show ((-52 : Int) + 1074).toNat = 1022 by decide, ← pow_add, scale]
  have hmul := faithful_mul .positive .positive e (-52) hm (show 0 < 2 ^ 52 by decide) hfull hlo
    (by decide)
    (by rw [hweight, hunit]; exact Nat.le_mul_of_pos_left _ (Nat.mul_pos hpos scale_pos))
  rw [hweight, hunit] at hmul
  have hfaithful : Faithful .positive (n * scale) 1 (UnpackedFloat.mul Format.binary64
      (.finite .positive m e hm) (.finite .positive (2 ^ 52) (-52) (by decide))) :=
    Faithful.of_mul scale_pos (by rwa [Nat.one_mul])
  rw [ofNat_eq_mul_one hlt]
  show Faithful _ _ _ (Float.Model.pack (UnpackedFloat.mul _ n.toUInt64.toFloat.toModel.unpack
    (1 : Float).toModel.unpack)).unpack
  rw [hunpack, hone, hfaithful.unpack_pack hlt (show 1074 ≤ 2045 by decide) (Nat.mul_one _).ge]
  exact hfaithful

/-- A whole number of less than 54 bits is exact. -/
theorem unpack_ofNat {n : Nat} (hpos : 0 < n) (hlt : n < 2 ^ 53) :
    ∃ m e h, (Float.ofNat n).toModel.unpack = .finite .positive m e h ∧
      Canonical (.finite .positive m e h) ∧ e ≤ 971 ∧
      m * 2 ^ (e + 1074).toNat = n * scale := by
  obtain ⟨m, e, h, hunpack, hcanonical, hbounds⟩ := faithful_ofNat hpos hlt
  obtain ⟨hle, hge⟩ := hbounds n 1074 hlt
  have hweight : m * 2 ^ (e + 1074).toNat = n * scale :=
    Nat.le_antisymm (hge (Nat.mul_one _).ge) (hle (Nat.mul_one _).le)
  rw [hunpack] at hcanonical
  refine ⟨m, e, h, hunpack, hcanonical, ?_, hweight⟩
  by_contra! he
  obtain ⟨-, -, hfull⟩ := hcanonical
  exact Nat.ne_of_gt (mul_two_pow_lt hlt (by omega) (by omega)) hweight

/-- The sign of a whole number that is not zero. -/
def signOfInt : Int → Sign
  | .ofNat _ => .positive
  | .negSucc _ => .negative

theorem unpack_ofInt {n : Int} (hne : n ≠ 0) (hlt : n.natAbs < 2 ^ 53) :
    ∃ m e h, (Float.ofInt n).toModel.unpack = .finite (signOfInt n) m e h ∧ -1074 ≤ e ∧
      m * 2 ^ (e + 1074).toNat = n.natAbs * scale := by
  cases n with
  | ofNat n =>
      have hpos : 0 < n := Nat.pos_of_ne_zero fun h => hne (congrArg Int.ofNat h)
      obtain ⟨m, e, h, hunpack, hcanonical, -, hweight⟩ := unpack_ofNat hpos hlt
      exact ⟨m, e, h, hunpack, hcanonical.2.1, hweight⟩
  | negSucc n =>
      obtain ⟨m, e, h, hunpack, ⟨hm, hlo, hfull⟩, he, hweight⟩ :=
        unpack_ofNat (n := n + 1) n.succ_pos hlt
      refine ⟨m, e, h, ?_, hlo, hweight⟩
      show (Float.Model.pack (Float.ofNat (n + 1)).toModel.unpack.neg).unpack = _
      rw [hunpack]
      exact unpack_pack_of_canonical (u := .finite .negative m e h) ⟨hm, hlo, hfull⟩
        (isFinite_pack (show e ≤ 971 from he))

/-- A number of semitones as octaves. -/
def octaves (n : Int) : Float := Float.ofInt n / 12

/-- The exact quotient, and the rounded one on the same side of each number of 53 bits. -/
theorem faithful_octaves {n : Int} (hne : n ≠ 0) (hlt : n.natAbs < 2 ^ 53) :
    Faithful (signOfInt n) (n.natAbs * scale) 12 (octaves n).toModel.unpack := by
  obtain ⟨m, e, h, hunpack, hlo, hweight⟩ := unpack_ofInt hne hlt
  have hpos : 0 < n.natAbs := Int.natAbs_pos.2 hne
  have htwelve : (12 : Float).toModel.unpack
      = .finite .positive (12 <<< 49) (-49) (by decide) := rfl
  have hunit : 12 <<< 49 * 2 ^ ((-49 : Int) + 1074).toNat = 12 * scale := by
    rw [Nat.shiftLeft_eq, Nat.mul_assoc, show ((-49 : Int) + 1074).toNat = 1025 by decide,
      ← pow_add, scale]
  have hsize : 12 * scale ≤ n.natAbs * scale * scale := by
    refine Nat.mul_le_mul_right _ (Nat.le_trans ?_ (Nat.le_mul_of_pos_left _ hpos))
    exact Nat.le_trans (by decide : 12 ≤ 2 ^ 4) (pow_le_pow_right₀ one_le_two (by decide))
  have hfaithful : Faithful (signOfInt n) (n.natAbs * scale) 12
      (UnpackedFloat.div Format.binary64 (.finite (signOfInt n) m e h)
        (.finite .positive (12 <<< 49) (-49) (by decide))) := by
    have hquot := faithful_div (signOfInt n) .positive e (-49) h
      (show 0 < 12 <<< 49 by decide) hlo (by decide) (by omega) (by rwa [hweight, hunit])
    have hsign : signOfInt n / .positive = signOfInt n := by cases n <;> rfl
    rw [hweight, hunit, hsign] at hquot
    exact hquot.of_mul scale_pos
  have hle : n.natAbs * scale ≤ 2 ^ 50 * 2 ^ 1074 * 12 := by
    rw [Nat.mul_right_comm, scale]
    exact Nat.mul_le_mul_right _ (by omega)
  have hpack := hfaithful.unpack_pack (show 2 ^ 50 < 2 ^ 53 by decide)
    (show 1074 ≤ 2045 by decide) hle
  show Faithful _ _ _ (Float.Model.pack (UnpackedFloat.div _ (Float.ofInt n).toModel.unpack
    (12 : Float).toModel.unpack)).unpack
  rwa [hunpack, htwelve, hpack]

/-- A comparison at `2 ^ -p` is one in units of `2 ^ -1074`. -/
theorem scaled_le_iff (n a : Nat) {p : Nat} (hp : p ≤ 1074) :
    (a * 2 ^ (1074 - p) * 12 ≤ n * scale ↔ a * 12 ≤ n * 2 ^ p) ∧
      (n * scale ≤ a * 2 ^ (1074 - p) * 12 ↔ n * 2 ^ p ≤ a * 12) := by
  rw [scale, Nat.mul_right_comm, mul_two_pow_le_iff _ _ (show 1074 - p + p = 1074 + 0 by omega),
    mul_two_pow_le_iff _ _ (show 1074 + 0 = 1074 - p + p by omega), pow_zero, Nat.mul_one]
  exact ⟨Iff.rfl, Iff.rfl⟩

/-- A distance in octaves is a full significand with an exponent between these. -/
theorem unpack_octaves {n : Int} (hne : n ≠ 0) (hlt : n.natAbs < 2 ^ 53) :
    ∃ m e h, (octaves n).toModel.unpack = .finite (signOfInt n) m e h ∧ 2 ^ 52 ≤ m ∧
      -106 ≤ e ∧ e ≤ 0 ∧ ∀ a p, a < 2 ^ 53 → p ≤ 1074 →
        (a * 12 ≤ n.natAbs * 2 ^ p → a * 2 ^ (-e).toNat ≤ m * 2 ^ p) ∧
          (n.natAbs * 2 ^ p ≤ a * 12 → m * 2 ^ p ≤ a * 2 ^ (-e).toNat) := by
  obtain ⟨m, e, h, hunpack, hcanonical, hbounds⟩ := faithful_octaves hne hlt
  rw [hunpack] at hcanonical
  obtain ⟨hm, hlo, hfull⟩ := hcanonical
  have hside : ∀ a p, a < 2 ^ 53 → p ≤ 1074 →
      (a * 12 ≤ n.natAbs * 2 ^ p → a * 2 ^ (1074 - p) ≤ m * 2 ^ (e + 1074).toNat) ∧
        (n.natAbs * 2 ^ p ≤ a * 12 → m * 2 ^ (e + 1074).toNat ≤ a * 2 ^ (1074 - p)) := by
    intro a p ha hp
    have hbound := hbounds a (1074 - p) ha
    rwa [(scaled_le_iff n.natAbs a hp).1, (scaled_le_iff n.natAbs a hp).2] at hbound
  have hpos : 0 < n.natAbs := Int.natAbs_pos.2 hne
  have hlow : -56 ≤ e := by
    by_contra! he
    have hbelow : m * 2 ^ (e + 1074).toNat < 2 ^ 52 * 2 ^ (1074 - 56) :=
      mul_two_pow_lt hm le_rfl (by omega)
    exact Nat.not_le.2 hbelow ((hside (2 ^ 52) 56 (by decide) (by decide)).1 (by omega))
  have hfull' : 2 ^ 52 ≤ m := hfull.resolve_left (by omega)
  have hhigh : e ≤ 0 := by
    by_contra! he
    have habove : 2 ^ 50 * 2 ^ (1074 - 0) < m * 2 ^ (e + 1074).toNat :=
      mul_two_pow_lt (by decide) hfull' (by omega)
    exact Nat.not_le.2 habove ((hside (2 ^ 50) 0 (by decide) (by decide)).2 (by omega))
  refine ⟨m, e, h, hunpack, hfull', by omega, hhigh, fun a p ha hp => ?_⟩
  have hshift : ∀ b c, b * 2 ^ (1074 - p) ≤ c * 2 ^ (e + 1074).toNat
      ↔ b * 2 ^ (-e).toNat ≤ c * 2 ^ p := fun b c => mul_two_pow_le_iff b c (by omega)
  have hshift' : ∀ b c, c * 2 ^ (e + 1074).toNat ≤ b * 2 ^ (1074 - p)
      ↔ c * 2 ^ p ≤ b * 2 ^ (-e).toNat := fun b c => mul_two_pow_le_iff c b (by omega)
  rw [← hshift, ← hshift']
  exact hside a p ha hp

/-- The same for bounds with a sign, of which those below zero are no question. -/
theorem side_of_natAbs {n m p k : Nat} (hn : 0 < n) {c : Int}
    (h : (c.natAbs * 12 ≤ n * 2 ^ p → c.natAbs * 2 ^ k ≤ m * 2 ^ p) ∧
      (n * 2 ^ p ≤ c.natAbs * 12 → m * 2 ^ p ≤ c.natAbs * 2 ^ k)) :
    (c * 12 ≤ n * 2 ^ p → c * 2 ^ k ≤ m * 2 ^ p) ∧
      (n * 2 ^ p ≤ c * 12 → m * 2 ^ p ≤ c * 2 ^ k) := by
  rcases Int.le_total 0 c with hc | hc
  · obtain ⟨c, rfl⟩ := Int.eq_ofNat_of_zero_le hc
    exact_mod_cast h
  · have hpow : (0 : Int) < 2 ^ p := pow_pos two_pos p
    have hzero : c * 2 ^ k ≤ 0 := Int.mul_nonpos_of_nonpos_of_nonneg hc (pow_pos two_pos k).le
    have hnum : 0 < (n : Int) * 2 ^ p := mul_pos (by omega) hpow
    refine ⟨fun _ => hzero.trans ?_, fun hle => absurd hle (by omega)⟩
    exact mul_nonneg (Int.natCast_nonneg m) hpow.le

/-- A number of semitones as octaves is on the side of `c / 2 ^ p` on which the exact number is. -/
theorem octaves_side {n : Int} (hne : n ≠ 0) (hlt : n.natAbs < 2 ^ 53) :
    ∃ m e h, (octaves n).toModel.unpack = .finite (signOfInt n) m e h ∧ 2 ^ 52 ≤ m ∧
      -106 ≤ e ∧ e ≤ 0 ∧ ∀ (c : Int) p, c.natAbs < 2 ^ 53 → p ≤ 1074 →
        (c * 12 ≤ n * 2 ^ p → c * 2 ^ (-e).toNat ≤ (signOfInt n).apply m * 2 ^ p) ∧
          (n * 2 ^ p ≤ c * 12 → (signOfInt n).apply m * 2 ^ p ≤ c * 2 ^ (-e).toNat) := by
  obtain ⟨m, e, h, hunpack, hfull, hlo, hhi, hside⟩ := unpack_octaves hne hlt
  refine ⟨m, e, h, hunpack, hfull, hlo, hhi, fun c p hc hp => ?_⟩
  cases n with
  | ofNat n =>
      exact side_of_natAbs (Nat.pos_of_ne_zero fun h => hne (congrArg Int.ofNat h))
        (hside c.natAbs p hc hp)
  | negSucc n =>
      have hneg := hside (-c).natAbs p (by rwa [Int.natAbs_neg]) hp
      obtain ⟨hle, hge⟩ := side_of_natAbs n.succ_pos hneg
      change (_ → _ ≤ -(m : Int) * 2 ^ p) ∧ (_ → -(m : Int) * 2 ^ p ≤ _)
      rw [Int.negSucc_eq]
      rw [Nat.cast_succ] at hle hge
      simp only [Int.neg_mul] at hle hge ⊢
      refine ⟨fun h => ?_, fun h => ?_⟩
      · have := hge (by omega)
        omega
      · have := hle (by omega)
        omega

section

variable {n c : Int} {p : Nat}

/-- The power for a number of semitones is bounded by those for other exponents. -/
theorem le_exp2_octaves (hne : n ≠ 0) (hlt : n.natAbs < 2 ^ 53) (hc : c.natAbs < 2 ^ 53)
    (hp : p ≤ 1074) (h : c * 12 ≤ n * 2 ^ p) :
    weight (exp2Ratio c p).toModel.unpack ≤ weight (exp2 (octaves n)).toModel.unpack := by
  obtain ⟨m, e, hm, hunpack, hfull, hlo, hhi, hside⟩ := octaves_side hne hlt
  exact le_exp2 hunpack hfull hlo hhi ((hside c p hc hp).1 h)

theorem exp2_octaves_le (hne : n ≠ 0) (hlt : n.natAbs < 2 ^ 53) (hc : c.natAbs < 2 ^ 53)
    (hp : p ≤ 1074) (h : n * 2 ^ p ≤ c * 12) :
    weight (exp2 (octaves n)).toModel.unpack ≤ weight (exp2Ratio c p).toModel.unpack := by
  obtain ⟨m, e, hm, hunpack, hfull, hlo, hhi, hside⟩ := octaves_side hne hlt
  exact exp2_le hunpack hfull hlo hhi ((hside c p hc hp).2 h)

theorem amount_exp2_octaves (hlt : n.natAbs < 2 ^ 53) : Amount (exp2 (octaves n)) := by
  by_cases hne : n = 0
  · rw [hne]
    exact ⟨rfl, rfl⟩
  · obtain ⟨m, e, hm, hunpack, hfull, hlo, -⟩ := octaves_side hne hlt
    exact amount_exp2 hunpack hfull hlo

end

/-! ### The range -/

/-- The product of 440 and an amount that is neither zero nor infinite. -/
theorem faithful_mul_440 {m : Nat} {e : Int} (hm : 0 < m) (hlo : -1074 ≤ e) :
    Faithful .positive (440 * (m * 2 ^ (e + 1074).toNat)) 1 (UnpackedFloat.mul Format.binary64
      (440 : Float).toModel.unpack (.finite .positive m e hm)) := by
  have hunpack : (440 : Float).toModel.unpack
      = .finite .positive (440 <<< 44) (-44) (by decide) := rfl
  have hunit : 440 <<< 44 * 2 ^ ((-44 : Int) + 1074).toNat = 440 * scale := by
    rw [Nat.shiftLeft_eq, Nat.mul_assoc, show ((-44 : Int) + 1074).toNat = 1030 by decide,
      ← pow_add, scale]
  have hpos : 0 < 440 * (m * 2 ^ (e + 1074).toNat) :=
    Nat.mul_pos (by decide) (Nat.mul_pos hm (Nat.two_pow_pos _))
  have hmul := faithful_mul .positive .positive (-44) e (show 0 < 440 <<< 44 by decide) hm
    (by decide) (by decide) hlo
    (by rw [hunit, Nat.mul_right_comm]; exact Nat.le_mul_of_pos_left _ hpos)
  rw [hunit, Nat.mul_right_comm] at hmul
  rw [hunpack]
  exact Faithful.of_mul scale_pos (by rwa [Nat.one_mul])

/-- An amount is infinite, zero, or a number in range. -/
theorem unpack_amount {y : Float} (hy : Amount y) : y.toModel.unpack = .infinity .positive ∨
    y.toModel.unpack = .zero .positive ∨
      ∃ m e hm, y.toModel.unpack = .finite .positive m e hm ∧ -1074 ≤ e := by
  have hcanonical : Canonical y.toModel.unpack := canonical_unpack _
  have sy : signOf y.toModel.unpack = .positive := hy.unsigned
  have ny : y.toModel.unpack.isNaN = false := hy.number
  cases hu : y.toModel.unpack with
  | notANumber => exact Bool.noConfusion (hu ▸ ny)
  | infinity s =>
      rw [hu] at sy
      cases sy
      exact .inl rfl
  | zero s =>
      rw [hu] at sy
      cases sy
      exact .inr (.inl rfl)
  | finite s m e hm =>
      rw [hu] at sy hcanonical
      cases sy
      exact .inr (.inr ⟨m, e, hm, rfl, hcanonical.2.1⟩)

section

variable {y : Float} {w : Nat}

theorem unpack_mul_440 (y : Float) : (440 * y).toModel.unpack = (Float.Model.pack
    (UnpackedFloat.mul Format.binary64 (440 : Float).toModel.unpack y.toModel.unpack)).unpack := rfl

theorem mul_440_eq_zero_iff (hy : Amount y) : 440 * y = 0 ↔ weight y.toModel.unpack = 0 := by
  have hzero : 440 * y = 0 → (440 * y).toModel.unpack = .zero .positive := fun h => h ▸ rfl
  rw [unpack_mul_440] at hzero
  rcases unpack_amount hy with hu | hu | ⟨m, e, hm, hu, hlo⟩ <;> rw [hu] at hzero ⊢
  · exact iff_of_false (fun h => UnpackedFloat.noConfusion (hzero h)) ENat.top_ne_zero
  · refine iff_of_true ?_ rfl
    show Float.ofModel (Float.Model.pack (UnpackedFloat.mul _ _ y.toModel.unpack)) = 0
    rw [hu]
    rfl
  · refine iff_of_false (fun h => (faithful_mul_440 hm hlo).unpack_pack_ne_zero _ (hzero h)) ?_
    exact Nat.cast_ne_zero.2 (Nat.ne_of_gt (Nat.mul_pos hm (Nat.two_pow_pos _)))

theorem isFinite_mul_440 (hy : Amount y) (hw : weight y.toModel.unpack ≤ w)
    (hle : 440 * w ≤ (2 ^ 53 - 1) * 2 ^ 2045) : (440 * y).isFinite = true := by
  show (440 * y).toModel.unpack.isFinite = true
  rw [unpack_mul_440]
  rcases unpack_amount hy with hu | hu | ⟨m, e, hm, hu, hlo⟩ <;> rw [hu] at hw ⊢
  · exact absurd (top_le_iff.1 hw) (ENat.natCast_ne_top w)
  · rfl
  · have hfaithful := faithful_mul_440 hm hlo
    have hweight : m * 2 ^ (e + 1074).toNat ≤ w := ENat.natCast_le_natCast.1 hw
    rw [hfaithful.unpack_pack (show 2 ^ 53 - 1 < 2 ^ 53 by decide) le_rfl
      (by rw [Nat.mul_one]; exact (Nat.mul_le_mul_left 440 hweight).trans hle)]
    obtain ⟨m', e', hm', heq, -⟩ := hfaithful
    rw [heq]
    rfl

theorem isFinite_mul_440_eq_false (hy : Amount y) (hw : w ≤ weight y.toModel.unpack)
    (hle : 2 ^ 2098 ≤ 440 * w) : (440 * y).isFinite = false := by
  show (440 * y).toModel.unpack.isFinite = false
  rw [unpack_mul_440]
  rcases unpack_amount hy with hu | hu | ⟨m, e, hm, hu, hlo⟩ <;> rw [hu] at hw ⊢
  · rfl
  · have hweight : w = 0 := Nat.le_zero.1 (ENat.natCast_le_natCast.1 hw)
    rw [hweight] at hle
    exact absurd (Nat.le_zero.1 hle) (pow_pos two_pos _).ne'
  · have hweight : w ≤ m * 2 ^ (e + 1074).toNat := ENat.natCast_le_natCast.1 hw
    rw [(faithful_mul_440 hm hlo).unpack_pack_eq_infinity
      (by rw [Nat.mul_one]; exact hle.trans (Nat.mul_le_mul_left 440 hweight))]
    rfl

end

/-! The four keys on either side of the ends of the range. -/

theorem exp2Ratio_ends : exp2Ratio (-1075) 0 = 0 ∧ exp2Ratio (-17199) 4 = Float.ofBits 1 ∧
    exp2Ratio 4061 2 = Float.ofBits 9179188153673692949 ∧
    exp2Ratio 16243 4 = Float.ofBits 9178961089024844344 := by
  decide +kernel

theorem frequency_eq (key : PianoKey) :
    ({} : Tuning).frequency key = 440 * exp2 (octaves (wrapped (key - concertA))) := rfl

/-- A distance that is a word is exact as a number. -/
theorem natAbs_wrapped_lt (n : Int) : (wrapped n).natAbs < 2 ^ 53 := by
  obtain ⟨hlow, hhigh⟩ := wrapped_fits n
  omega

/-- **A key sounds at zero exactly if its distance from concert A is at most -12900.** -/
theorem frequency_eq_zero_iff (key : PianoKey) :
    ({} : Tuning).frequency key = 0 ↔ wrapped (key - concertA) ≤ -12900 := by
  have hlt := natAbs_wrapped_lt (key - concertA)
  obtain ⟨hlast, hfirst, -⟩ := exp2Ratio_ends
  rw [frequency_eq]
  generalize wrapped (key - concertA) = n at hlt ⊢
  by_cases hne : n = 0
  · rw [hne]
    exact iff_of_false (by decide +kernel) (by decide)
  rw [mul_440_eq_zero_iff (amount_exp2_octaves hlt)]
  constructor
  · intro hzero
    by_contra! hn
    have hle := le_exp2_octaves (c := -17199) (p := 4) hne hlt (by decide) (by decide) (by omega)
    rw [hzero, hfirst] at hle
    exact absurd hle (by decide)
  · intro hn
    have hle := exp2_octaves_le (c := -1075) (p := 0) hne hlt (by decide) (by decide) (by omega)
    rw [hlast] at hle
    exact le_bot_iff.1 hle

/-- **A frequency is finite exactly if the distance of its key is less than 12183.** -/
theorem isFinite_frequency_iff (key : PianoKey) :
    (({} : Tuning).frequency key).isFinite = true ↔ wrapped (key - concertA) < 12183 := by
  have hlt := natAbs_wrapped_lt (key - concertA)
  obtain ⟨-, -, hover, hunder⟩ := exp2Ratio_ends
  rw [frequency_eq]
  generalize wrapped (key - concertA) = n at hlt ⊢
  by_cases hne : n = 0
  · rw [hne]
    exact iff_of_true rfl (by decide)
  have hamount := amount_exp2_octaves hlt
  constructor
  · intro hfinite
    by_contra! hn
    have hle := le_exp2_octaves (c := 4061) (p := 2) hne hlt (by decide) (by decide) (by omega)
    rw [hover, show (Float.ofBits 9179188153673692949).toModel.unpack
      = .finite .positive 5355712719992597 963 (by decide) from rfl] at hle
    rw [isFinite_mul_440_eq_false hamount hle (by decide +kernel)] at hfinite
    exact Bool.noConfusion hfinite
  · intro hn
    have hle := exp2_octaves_le (c := 16243) (p := 4) hne hlt (by decide) (by decide) (by omega)
    rw [hunder, show (Float.ofBits 9178961089024844344).toModel.unpack
      = .finite .positive 5128648071143992 963 (by decide) from rfl] at hle
    exact isFinite_mul_440 hamount hle (by decide +kernel)

end NumberedScore
