/-
Arithmetic without minus signs.

The numbers that a performance is computed from have no minus sign, and sums, products and
quotients of such numbers have none either.  NaN has no sign and counts as one of them, so
nothing has to be known about the range (`Unsigned`).

Where a number is needed, NaN has to be kept out (`Amount`).  It cannot come from a sum of
amounts, nor from a product of finite ones.
-/
import NumberedScore.Proofs.Binary64.Finite

namespace NumberedScore.Binary64

open Float.Model (Format UnpackedFloat)
open Float.Model.UnpackedFloat (Accuracy Sign roundWithAccuracy)

/-! ### Signs -/

/-- A number without a minus sign, or NaN. -/
def Unsigned (x : Float) : Prop := signOf x.toModel.unpack = .positive

instance : DecidablePred Unsigned := fun x =>
  decidable_of_iff ((signOf x.toModel.unpack == .positive) = true) beq_iff_eq

theorem signOf_pack {u : UnpackedFloat} (h : signOf u = .positive) :
    signOf (Float.Model.pack u).unpack = .positive := by
  cases hnan : u.isNaN with
  | false => exact (unpack_pack_of_number hnan).1.trans h
  | true =>
      cases u with
      | notANumber => rfl
      | _ => exact Bool.noConfusion hnan

theorem signOf_roundWithAccuracy (s : Sign) (m : Nat) (e : Int) (a : Accuracy) :
    signOf (roundWithAccuracy Format.binary64 s m e a) = s := by
  unfold roundWithAccuracy
  simp only
  split <;> rfl

theorem isNaN_roundWithAccuracy (s : Sign) (m : Nat) (e : Int) (a : Accuracy) :
    (roundWithAccuracy Format.binary64 s m e a).isNaN = false := by
  unfold roundWithAccuracy
  simp only
  split <;> rfl

/-- The sum of two positive numbers, before it is rounded. -/
theorem add_finite {m₁ m₂ : Nat} {e₁ e₂ : Int} (h₁ : 0 < m₁) (h₂ : 0 < m₂) :
    UnpackedFloat.add Format.binary64 (.finite .positive m₁ e₁ h₁) (.finite .positive m₂ e₂ h₂)
      = UnpackedFloat.round Format.binary64 .positive
        (m₁ <<< (e₁ - min e₁ e₂).toNat + m₂ <<< (e₂ - min e₁ e₂).toNat) (min e₁ e₂) := by
  show UnpackedFloat.normalize _ ((m₁ <<< (e₁ - min e₁ e₂).toNat : Nat)
    + (m₂ <<< (e₂ - min e₁ e₂).toNat : Nat) : Int) _ _ = _
  have hpos : 0 < m₁ <<< (e₁ - min e₁ e₂).toNat := Nat.shiftLeft_pos_iff.2 h₁
  -- both significands at the lower exponent
  generalize m₁ <<< (e₁ - min e₁ e₂).toNat = n₁ at *
  generalize m₂ <<< (e₂ - min e₁ e₂).toNat = n₂ at *
  unfold UnpackedFloat.normalize
  rw [Int.compare_eq_gt.2 (by omega)]
  simp only [← Int.natCast_add, Int.toNat_natCast]

/-! Two finite numbers are rounded; for all others the table of the operation decides. -/

theorem signOf_add {u v : UnpackedFloat} (hu : signOf u = .positive) (hv : signOf v = .positive) :
    signOf (UnpackedFloat.add Format.binary64 u v) = .positive := by
  cases u <;> cases v <;> cases hu <;> cases hv <;> try rfl
  rw [add_finite]
  exact signOf_roundWithAccuracy ..

theorem signOf_mul {u v : UnpackedFloat} (hu : signOf u = .positive) (hv : signOf v = .positive) :
    signOf (UnpackedFloat.mul Format.binary64 u v) = .positive := by
  cases u <;> cases v <;> cases hu <;> cases hv <;> try rfl
  exact signOf_roundWithAccuracy ..

theorem signOf_div {u v : UnpackedFloat} (hu : signOf u = .positive) (hv : signOf v = .positive) :
    signOf (UnpackedFloat.div Format.binary64 u v) = .positive := by
  cases u <;> cases v <;> cases hu <;> cases hv <;> try rfl
  exact signOf_roundWithAccuracy ..

namespace Unsigned

variable {x y : Float}

theorem add (hx : Unsigned x) (hy : Unsigned y) : Unsigned (x + y) := signOf_pack (signOf_add hx hy)

theorem mul (hx : Unsigned x) (hy : Unsigned y) : Unsigned (x * y) := signOf_pack (signOf_mul hx hy)

theorem div (hx : Unsigned x) (hy : Unsigned y) : Unsigned (x / y) := signOf_pack (signOf_div hx hy)

theorem toFloat (n : UInt32) : Unsigned n.toFloat := by
  refine signOf_pack ?_
  show signOf (UnpackedFloat.normalize _ _ _ _) = _
  unfold UnpackedFloat.normalize
  split
  · next h =>
      have := Int.compare_eq_lt.1 h
      omega
  · rfl
  · exact signOf_roundWithAccuracy ..

end Unsigned

/-! ### Minus zero -/

/-- Minus zero, the one number that adding zero changes. -/
def IsMinusZero (x : Float) : Prop := x.toModel.unpack = .zero .negative

theorem Unsigned.not_isMinusZero {x : Float} (hx : Unsigned x) : ¬ IsMinusZero x := by
  intro hzero
  have sx : signOf x.toModel.unpack = .positive := hx
  rw [hzero] at sx
  exact Sign.noConfusion sx

theorem add_zero_of_not_isMinusZero {x : Float} (h : ¬ IsMinusZero x) : x + 0 = x := by
  have hsum : UnpackedFloat.add Format.binary64 x.toModel.unpack (.zero .positive)
      = x.toModel.unpack := by
    cases hu : x.toModel.unpack with
    | zero s =>
        cases s with
        | positive => rfl
        | negative => exact absurd hu h
    | _ => rfl
  show Float.ofModel (Float.Model.pack (UnpackedFloat.add _ _ (.zero .positive))) = x
  rw [hsum, pack_unpack]

/-! ### Amounts -/

/-- A number without a minus sign.  Infinity is one, NaN is not. -/
structure Amount (x : Float) : Prop where
  unsigned : Unsigned x
  number : x.isNaN = false

theorem number_pack {u : UnpackedFloat} (h : u.isNaN = false) :
    (Float.Model.pack u).unpack.isNaN = false := (unpack_pack_of_number h).2

namespace Amount

variable {x y : Float}

theorem of_isFinite (h : Unsigned x) (hfinite : x.isFinite = true) : Amount x :=
  ⟨h, isNaN_of_isFinite hfinite⟩

theorem zero : Amount 0 := ⟨rfl, rfl⟩

theorem add (hx : Amount x) (hy : Amount y) : Amount (x + y) := by
  refine ⟨hx.unsigned.add hy.unsigned, number_pack ?_⟩
  have sx : signOf x.toModel.unpack = .positive := hx.unsigned
  have sy : signOf y.toModel.unpack = .positive := hy.unsigned
  have nx : x.toModel.unpack.isNaN = false := hx.number
  have ny : y.toModel.unpack.isNaN = false := hy.number
  generalize x.toModel.unpack = u at *
  generalize y.toModel.unpack = v at *
  cases u <;> cases v <;> cases sx <;> cases sy <;> first | rfl | exact nx | exact ny | skip
  rw [add_finite]
  exact isNaN_roundWithAccuracy ..

/-- Finite amounts multiply to an amount, while zero times infinity is NaN. -/
theorem mul (hx : Unsigned x) (hy : Unsigned y) (fx : x.isFinite = true) (fy : y.isFinite = true) :
    Amount (x * y) := by
  refine ⟨hx.mul hy, number_pack ?_⟩
  have fx : x.toModel.unpack.isFinite = true := fx
  have fy : y.toModel.unpack.isFinite = true := fy
  generalize x.toModel.unpack = u at *
  generalize y.toModel.unpack = v at *
  cases u <;> cases v <;> first | rfl | exact Bool.noConfusion fx | exact Bool.noConfusion fy | skip
  exact isNaN_roundWithAccuracy ..

/-- An amount divided by a positive number is an amount, infinity included. -/
theorem div (hx : Amount x) {m : Nat} {e : Int} {h : 0 < m}
    (hy : y.toModel.unpack = .finite .positive m e h) : Amount (x / y) := by
  have sy : Unsigned y := congrArg signOf hy
  refine ⟨hx.unsigned.div sy, number_pack ?_⟩
  have nx : x.toModel.unpack.isNaN = false := hx.number
  rw [hy]
  cases hu : x.toModel.unpack with
  | notANumber =>
      rw [hu] at nx
      exact Bool.noConfusion nx
  | finite s m' e' h' => exact isNaN_roundWithAccuracy ..
  | _ => rfl

/-- Whole numbers of 32 bits are in range. -/
theorem isFinite_toFloat (n : UInt32) : n.toFloat.isFinite = true := by
  by_cases hn : n = 0
  · rw [hn]
    rfl
  · obtain ⟨s, m, e, hm, hunpack, -⟩ := unpack_toFloat hn
    show n.toFloat.toModel.unpack.isFinite = true
    rw [hunpack]
    rfl

theorem zero_mul {x : Float} (hx : Unsigned x) (hfinite : x.isFinite = true) : 0 * x = 0 := by
  have sx : signOf x.toModel.unpack = .positive := hx
  have fx : x.toModel.unpack.isFinite = true := hfinite
  show Float.ofModel (Float.Model.pack (UnpackedFloat.mul _ (.zero .positive) _)) = _
  cases hu : x.toModel.unpack with
  | infinity s | notANumber =>
      rw [hu] at fx
      exact Bool.noConfusion fx
  | zero s | finite s m e hm =>
      rw [hu] at sx
      cases sx
      rfl

end Amount

/-! ### Above zero -/

theorem pos_iff (x : Float) : 0 < x ↔ (0 : Float).toModel.unpack.lt x.toModel.unpack = true :=
  ⟨of_decide_eq_true, decide_eq_true⟩

/-- NaN is not positive. -/
theorem not_pos_of_isNaN {x : Float} (h : x.isNaN = true) : ¬ 0 < x := by
  have hx : x.toModel.unpack.isNaN = true := h
  rw [pos_iff]
  cases hu : x.toModel.unpack with
  | notANumber => exact Bool.false_ne_true
  | _ =>
      rw [hu] at hx
      exact Bool.noConfusion hx

theorem toFloat_pos {n : UInt32} (h : n ≠ 0) : 0 < n.toFloat := by
  have hsign : signOf n.toFloat.toModel.unpack = .positive := Unsigned.toFloat n
  obtain ⟨s, m, e, hm, hunpack, -⟩ := unpack_toFloat h
  rw [hunpack] at hsign
  cases hsign
  rw [pos_iff, hunpack]
  rfl

end NumberedScore.Binary64
