import CssColor.Number.Decimal
import CssColor.Proofs.Number.Double

/-!
# Literals are numbers

Rounding and packing may overflow to an infinity, but what they give is a number
(`Binary.isNaN_unpack_pack`). So a literal is one, however long it is (`Binary.isNaN_ofScientific`),
and every decimal is read as one (`Double.isNaN_toNumber`).
-/

namespace CssColor.Binary

open Float.Model Float.Model.UnpackedFloat

/-! ## Packing -/

/-- Bits whose exponent is not full are a number. -/
theorem isNaN_unpack_packComponents (sign : Sign) {exponent : BitVec 11} (mantissa : BitVec 52)
    (h : exponent ≠ -1#11) :
    (unpack .binary64 (packComponents .binary64 sign exponent mantissa)).isNaN = false := by
  unfold UnpackedFloat.unpack
  simp only [unpackExponent_packComponents, unpackMantissa_packComponents, if_neg h]
  split
  · split <;> rfl
  · rfl

/-- An infinity is not NaN. -/
theorem isNaN_unpack_packedInfinity (sign : Sign) :
    (unpack .binary64 (packedInfinity .binary64 sign)).isNaN = false := by
  cases sign <;> rfl

/-- Packing makes no number undefined. -/
theorem isNaN_unpack_pack {x : UnpackedFloat} (h : x.isNaN = false) :
    (Float.Model.pack x).unpack.isNaN = false := by
  show (unpack .binary64 (pack .binary64 x)).isNaN = false
  cases x with
  | notANumber => cases h
  | infinity sign => exact isNaN_unpack_packedInfinity sign
  | zero sign => cases sign <;> rfl
  -- A number whose exponent does not fit is packed as an infinity, and others with an exponent that
  -- is not that of NaN.
  | finite sign m e hm =>
    obtain ⟨biased, hbiased⟩ : ∃ biased : ℕ, (e + Format.binary64.exponentBias +
      (Format.binary64.mantissaBitsWithoutImplicit : ℕ)).toNat = biased := ⟨_, rfl⟩
    unfold UnpackedFloat.pack
    simp only [hbiased]
    split
    · exact isNaN_unpack_packedInfinity sign
    · next hfits =>
      split
      · refine isNaN_unpack_packComponents sign _ fun heq => ?_
        have hvalue : biased % 2 ^ 11 = 2047 := congrArg BitVec.toNat heq
        exact hfits (by show 2 ^ 11 ≤ biased + 1; omega)
      · exact isNaN_unpack_packComponents sign _ (by decide)

/-! ## Operations -/

/-- Rounding never leads to NaN. -/
theorem isNaN_roundWithAccuracy (sign : Sign) (m : ℕ) (e : ℤ) (accuracy : Accuracy) :
    (roundWithAccuracy .binary64 sign m e accuracy).isNaN = false := by
  unfold UnpackedFloat.roundWithAccuracy
  dsimp only
  split <;> rfl

/-- A product of finite numbers is not NaN. -/
theorem isNaN_mul_finite (sign sign' : Sign) {m m' : ℕ} (e e' : ℤ) (hm : 0 < m) (hm' : 0 < m') :
    (mul .binary64 (.finite sign m e hm) (.finite sign' m' e' hm')).isNaN = false :=
  isNaN_roundWithAccuracy _ _ _ _

/-- A quotient of finite numbers is not NaN, since finite numbers with a mantissa are not zero. -/
theorem isNaN_div_finite (sign sign' : Sign) {m m' : ℕ} (e e' : ℤ) (hm : 0 < m) (hm' : 0 < m') :
    (div .binary64 (.finite sign m e hm) (.finite sign' m' e' hm')).isNaN = false :=
  isNaN_roundWithAccuracy _ _ _ _

/-- A product of finite numbers may overflow. -/
theorem isNaN_mul {x y : Float} {negative negative' : Bool} {p q : ℚ}
    (hx : Double.exact (.number x) = .finite negative p)
    (hy : Double.exact (.number y) = .finite negative' q) : (x * y).isNaN = false := by
  show (Float.Model.pack (mul .binary64 x.toModel.unpack y.toModel.unpack)).unpack.isNaN = false
  refine isNaN_unpack_pack ?_
  -- A factor is zero or finite, and the product is a zero or a rounded number.
  rcases unpack_of_exact hx with ⟨-, hx'⟩ | ⟨m, e, hm, -, -, -, hx'⟩
  · rcases unpack_of_exact hy with ⟨-, hy'⟩ | ⟨m', e', hm', -, -, -, hy'⟩
    · rw [hx', hy']
      rfl
    · rw [hx', hy']
      rfl
  · rcases unpack_of_exact hy with ⟨-, hy'⟩ | ⟨m', e', hm', -, -, -, hy'⟩
    · rw [hx', hy']
      rfl
    · rw [hx', hy']
      exact isNaN_mul_finite _ _ _ _ _ _

/-- A quotient is defined if the divisor is not zero. -/
theorem isNaN_div {x y : Float} {negative negative' : Bool} {p q : ℚ}
    (hx : Double.exact (.number x) = .finite negative p)
    (hy : Double.exact (.number y) = .finite negative' q) (hq : q ≠ 0) :
    (x / y).isNaN = false := by
  show (Float.Model.pack (div .binary64 x.toModel.unpack y.toModel.unpack)).unpack.isNaN = false
  refine isNaN_unpack_pack ?_
  rcases unpack_of_exact hy with ⟨hzero, -⟩ | ⟨m', e', hm', -, -, -, hy'⟩
  · exact absurd hzero hq
  · rcases unpack_of_exact hx with ⟨-, hx'⟩ | ⟨m, e, hm, -, -, -, hx'⟩
    · rw [hx', hy']
      rfl
    · rw [hx', hy']
      exact isNaN_div_finite _ _ _ _ _ _

/-- The negation of a number that is not NaN is not NaN. -/
theorem isNaN_neg {x : Float} (h : x.isNaN = false) : (-x).isNaN = false := by
  have hunpack : x.toModel.unpack.isNaN = false := h
  show (Float.Model.pack x.toModel.unpack.neg).unpack.isNaN = false
  refine isNaN_unpack_pack ?_
  cases hx : x.toModel.unpack with
  | notANumber =>
    rw [hx] at hunpack
    cases hunpack
  | infinity sign => rfl
  | zero sign => rfl
  | finite sign m e hm => rfl

/-! ## Literals -/

/-- A literal is rounded, or it is a zero or an infinity where its exponent is out of range. -/
theorem isNaN_unpacked_ofScientific (m : ℕ) (e : ℤ) :
    (UnpackedFloat.ofScientific .binary64 m e).isNaN = false := by
  unfold UnpackedFloat.ofScientific
  split
  · rfl
  · split
    · rfl
    · split
      · rfl
      · split
        · exact isNaN_mul_finite _ _ _ _ _ _
        · exact isNaN_div_finite _ _ _ _ _ _

/-- A literal is not NaN. -/
theorem isNaN_ofScientific (m : ℕ) (isFraction : Bool) (e : ℕ) :
    (Float.ofScientific m isFraction e).isNaN = false := by
  unfold Float.ofScientific
  split
  · next h =>
    -- Short literals are a product or a quotient with an exact power of ten.
    have hsize : e < Float.exactlyRepresentablePowersOfTen.size := by
      show e < 23
      omega
    have hpower := exact_powerOfTen ⟨e, hsize⟩
    dsimp only
    split
    · exact isNaN_div (exact_natCast h.1) hpower (by positivity)
    · exact isNaN_mul (exact_natCast h.1) hpower
  · exact isNaN_unpack_pack (isNaN_unpacked_ofScientific m _)

end CssColor.Binary

namespace CssColor.Double

open Binary

/-- A number that is not NaN is not NaN as a double, either. -/
theorem isNaN_number {x : Float} (h : x.isNaN = false) : Number.isNaN (number x) = false := by
  have hunpack : x.toModel.unpack.isNaN = false := h
  cases hx : x.toModel.unpack with
  | notANumber =>
    rw [hx] at hunpack
    cases hunpack
  | infinity sign =>
    show (!(x.toModel.unpack.beq x.toModel.unpack)) = false
    rw [hx]
    cases sign <;> rfl
  | zero sign => exact (hasValue_of_exact (exact_of_zero hx)).isNaN_eq
  | finite sign m e hm => exact (hasValue_of_exact (exact_of_finite hx)).isNaN_eq

/-- Every decimal is read as a number, infinite if it is too large. -/
theorem isNaN_toNumber (d : Decimal) : Number.isNaN (d.toNumber : Double) = false := by
  have hliteral := isNaN_ofScientific d.digits (decide (d.exponent < 0)) d.exponent.natAbs
  unfold Decimal.toNumber
  dsimp only
  split
  · exact isNaN_number (isNaN_neg hliteral)
  · exact isNaN_number hliteral

end CssColor.Double
