import CssColor.Number.Basic
import Mathlib.Analysis.SpecialFunctions.Complex.Arg
import Mathlib.Analysis.SpecialFunctions.Pow.Real

/-!
# Real numbers

The numbers without any rounding: arithmetic, powers, roots and angles are those of the reals. The
cube root of a negative number is negative (`ExactReal.cubeRoot`).
-/

namespace CssColor

/-- A real number. -/
structure ExactReal where
  /-- The real number as one. -/
  real ::
  /-- The value of the number. -/
  value : ℝ

namespace ExactReal

/-- The real number whose third power is the given one. -/
noncomputable def cubeRoot (x : ℝ) : ℝ :=
  if 0 ≤ x then x ^ (1 / 3 : ℝ) else -(-x) ^ (1 / 3 : ℝ)

/-- The cube of a cube root. -/
theorem cube_cubeRoot (x : ℝ) : cubeRoot x ^ 3 = x := by
  have hroot {a : ℝ} (ha : 0 ≤ a) : (a ^ (1 / 3 : ℝ)) ^ 3 = a := by
    rw [← Real.rpow_natCast, ← Real.rpow_mul ha]
    norm_num
  unfold cubeRoot
  split_ifs with hx
  · exact hroot hx
  · rw [neg_pow, hroot (by linarith)]
    ring

/-- The cube root of a cube. -/
theorem cubeRoot_cube (x : ℝ) : cubeRoot (x ^ 3) = x :=
  Odd.pow_injective (n := 3) (by decide) (cube_cubeRoot (x ^ 3))

end ExactReal

noncomputable instance ExactReal.instNumber : Number ExactReal where
  add x y := real (x.value + y.value)
  sub x y := real (x.value - y.value)
  mul x y := real (x.value * y.value)
  div x y := real (x.value / y.value)
  neg x := real (-x.value)
  lt x y := x.value < y.value
  le x y := x.value ≤ y.value
  beq x y := decide (x.value = y.value)
  ofScientific digits isFraction exponent :=
    real (OfScientific.ofScientific digits isFraction exponent)
  decLT x y := inferInstanceAs (Decidable (x.value < y.value))
  decLE x y := inferInstanceAs (Decidable (x.value ≤ y.value))

noncomputable instance ExactReal.instElementary : Elementary ExactReal where
  pow x y := real (x.value ^ y.value)
  cbrt x := real (cubeRoot x.value)
  hypot x y := real √(x.value ^ 2 + y.value ^ 2)
  atan2 y x := real (Complex.arg ⟨x.value, y.value⟩)
  sin x := real (Real.sin x.value)
  cos x := real (Real.cos x.value)

namespace ExactReal

variable {a b : ℝ}

/-- Real numbers are added exactly. -/
theorem real_add : real a + real b = real (a + b) := rfl

/-- Real numbers are subtracted exactly. -/
theorem real_sub : real a - real b = real (a - b) := rfl

/-- Real numbers are multiplied exactly. -/
theorem real_mul : real a * real b = real (a * b) := rfl

/-- Real numbers are divided exactly. -/
theorem real_div : real a / real b = real (a / b) := rfl

/-- Real numbers are compared exactly. -/
theorem real_lt_iff : real a < real b ↔ a < b := Iff.rfl

/-- The cube of a real number. -/
theorem cube_real : Number.cube (real a) = real (a ^ 3) := by
  rw [pow_three']
  rfl

/-- The cube root of a real number. -/
theorem cbrt_real : Elementary.cbrt (real a) = real (cubeRoot a) := rfl

/-- A literal is the number that it is written as. -/
theorem literal_eq (digits : ℕ) (isFraction : Bool) (exponent : ℕ) :
    (OfScientific.ofScientific digits isFraction exponent : ExactReal) =
      real (OfScientific.ofScientific digits isFraction exponent) := rfl

end ExactReal

end CssColor
